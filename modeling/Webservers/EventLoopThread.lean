import Webservers.EventLoop.Theorems

/-!
# `EventLoopThread` (src/EventLoopThread.cc, src/Thread.cc)

The thread `own` that `startLoop()` creates runs `threadFunc_`: it constructs an `EventLoop`,
stores its address in `loop_` and calls `loop()`. The thread `owner` waits in `startLoop()` until
`loop_` is set, and its destructor calls `loop_->quit()` and joins. The loop is the machine of
`EventLoop.Basic`, on which any thread may make calls once `loop_` has been handed out.

`quit()` stores true into `quit_`, but the first thing `loop()` does is to store false, and
`loop_` is handed out before `loop()` is entered.
-/

namespace Webservers

/-- Where the owner stands. -/
inductive OwnerPc where
  /-- constructed, `startLoop()` not yet called -/
  | constructed
  /-- in `startLoop()`, in the `while` over `loop_ == nullptr` -/
  | waiting
  /-- `startLoop()` has returned -/
  | started
  /-- in the destructor, `exiting_` stored -/
  | exiting
  /-- in the destructor, `loop_` found set -/
  | quitting
  /-- in `quit()`, about to write the eventfd -/
  | waking
  /-- in `thread_.join()` -/
  | joining
  | destroyed
deriving Repr, DecidableEq

/-- Where the new thread stands. -/
inductive ThreadPc where
  | unstarted
  /-- in `callback_`, the loop constructed -/
  | callback
  /-- `loop_` stored, `loop()` not yet entered -/
  | published
  | inLoop
  /-- `loop()` has returned -/
  | returned
  | finished
deriving Repr, DecidableEq

structure EventLoopThread (τ φ : Type*) where
  /-- `threadFunc_`'s local variable -/
  loop : EventLoop τ φ
  /-- `loop_ != nullptr` -/
  published : Bool
  exiting : Bool
  owner : OwnerPc
  thread : ThreadPc
  /-- history: some `quit()` has stored true -/
  quitStored : Bool

namespace EventLoopThread

variable {τ φ : Type*} [DecidableEq τ]

inductive Label (τ φ : Type*) where
  /-- `thread_.start()` in `startLoop()` -/
  | start
  /-- `callback_` returns, `loop_ = &loop` -/
  | publish
  /-- the `while` of `startLoop()` ends -/
  | startLoopReturn
  /-- the destructor, `exiting_ = true` -/
  | destroy
  /-- the destructor's test of `loop_` -/
  | testLoop
  /-- the destructor's `loop_->quit()`: the store -/
  | quit
  /-- the write to the eventfd in it -/
  | wakeup
  | joinReturn
  /-- a step of `loop()` -/
  | loop (l : EventLoop.LoopStep)
  /-- `loop_ = nullptr`, and the thread ends -/
  | unpublish
  /-- a call that user code makes on the loop -/
  | call (c : EventLoop.Call τ φ)
deriving Repr, DecidableEq

def new : EventLoopThread τ φ where
  loop := .new
  published := false
  exiting := false
  owner := .constructed
  thread := .unstarted
  quitStored := false

/-- The thread that makes a call. -/
def caller : EventLoop.Call τ φ → τ
  | .queueInLoop t _ | .runInLoop t _ | .testWakeup t | .wakeup t | .quit t => t

/-- Does the call store true into `quit_`? -/
def storesQuit : EventLoop.Call τ φ → Bool
  | .quit _ => true
  | _ => false

/-- Where a thread runs user code: the new thread in `callback_` and inside `loop()`, the owner
between `startLoop()` and the destructor, other threads once `loop_` has been handed out. -/
def mayCall (own owner : τ) (s : EventLoopThread τ φ) (t : τ) : Bool :=
  if t = own then s.thread = .callback || s.thread = .inLoop
  else if t = owner then s.owner = .started
  else s.published

/-- Has `loop()` returned? -/
def leftLoop (l : EventLoop τ φ) : Bool :=
  match l.pc with
  | .outside => true
  | _ => false

def step (own owner : τ) (s : EventLoopThread τ φ) : Label τ φ → Option (EventLoopThread τ φ)
  | .start =>
    if s.owner = .constructed then some { s with owner := .waiting, thread := .callback } else none
  | .publish =>
    if s.thread = .callback ∧ s.loop.calls own = .idle then
      some { s with published := true, thread := .published }
    else none
  | .startLoopReturn =>
    if s.owner = .waiting ∧ s.published then some { s with owner := .started } else none
  | .destroy =>
    if s.owner = .constructed ∨ s.owner = .started ∧ s.loop.calls owner = .idle then
      some { s with owner := .exiting, exiting := true }
    else none
  | .testLoop =>
    if s.owner = .exiting then
      some { s with owner := if s.published then .quitting else .destroyed }
    else none
  | .quit =>
    if s.owner = .quitting then
      (s.loop.callStep own (.quit owner)).map fun l =>
        { s with loop := l, owner := .waking, quitStored := true }
    else none
  | .wakeup =>
    if s.owner = .waking then
      (s.loop.callStep own (.wakeup owner)).map fun l =>
        { s with loop := l, owner := .joining }
    else none
  | .joinReturn =>
    if s.owner = .joining ∧ s.thread = .finished then some { s with owner := .destroyed } else none
  | .loop l =>
    if s.thread = .published ∧ l = .enterLoop ∨ s.thread = .inLoop then
      (s.loop.loopStep own l).map fun l =>
        { s with loop := l, thread := if leftLoop l then .returned else .inLoop }
    else none
  | .unpublish =>
    if s.thread = .returned then some { s with published := false, thread := .finished } else none
  | .call c =>
    if s.mayCall own owner (caller c) then
      (s.loop.callStep own c).map fun l =>
        { s with loop := l, quitStored := s.quitStored || storesQuit c }
    else none

/-! ## The request and the store -/

/-- Once a `quit()` has stored true, `quit_` stays true; and the owner does not wait in `join()`
for a loop that is not asked to stop. -/
structure QuitKept (s : EventLoopThread τ φ) : Prop where
  kept : s.quitStored = true → s.loop.quit = true
  notStuck : ¬ (s.owner = .joining ∧ s.thread = .inLoop ∧ s.loop.quit = false)

/-- `loop()` is entered before anyone has called `quit()`. -/
def EnteredFirst (s : EventLoopThread τ φ) : Label τ φ → Prop
  | .loop .enterLoop => s.loop.quit = false
  | _ => True

/-- While nothing has been lost, `quit_` is exactly the record of the requests. -/
structure Recorded (s : EventLoopThread τ φ) : Prop where
  quit_eq : s.loop.quit = s.quitStored
  stored : s.owner = .waking ∨ s.owner = .joining → s.quitStored = true

variable {own owner : τ} {s t : EventLoopThread τ φ} {l l' : EventLoop τ φ}

omit [DecidableEq τ] in
theorem Recorded.quitKept (h : Recorded s) : QuitKept s where
  kept hstored := h.quit_eq.trans hstored
  notStuck := by
    rintro ⟨hjoin, -, hquit⟩
    have hstored := h.stored (.inr hjoin)
    rw [← h.quit_eq, hquit] at hstored
    cases hstored

theorem callStep_quit {c : EventLoop.Call τ φ} (h : l.callStep own c = some l') :
    l'.quit = (l.quit || storesQuit c) := by
  cases EventLoop.callStep_trans h with
  | quit => simp [storesQuit]
  | queueInLoop | runQueued | runInline | testWakeup | wakeup =>
    simp [storesQuit, EventLoop.emplace]

omit [DecidableEq τ] in
theorem loopStep_quit {ls : EventLoop.LoopStep} (h : l.loopStep own ls = some l') :
    l'.quit = if ls = .enterLoop then false else l.quit := by
  cases EventLoop.loopStep_trans h <;> simp

theorem Recorded.step (h : Recorded s) {a : Label τ φ} (ha : step own owner s a = some t)
    (hfirst : EnteredFirst s a) : Recorded t := by
  obtain ⟨hquit, hstored⟩ := h
  cases a with
  | publish | unpublish =>
    simp only [EventLoopThread.step, Option.ite_none_right_eq_some, Option.some.injEq] at ha
    obtain ⟨-, rfl⟩ := ha
    exact ⟨hquit, hstored⟩
  | start | startLoopReturn | destroy | joinReturn =>
    simp only [EventLoopThread.step, Option.ite_none_right_eq_some, Option.some.injEq] at ha
    obtain ⟨-, rfl⟩ := ha
    exact ⟨hquit, by simp⟩
  | testLoop =>
    simp only [EventLoopThread.step, Option.ite_none_right_eq_some, Option.some.injEq] at ha
    obtain ⟨-, rfl⟩ := ha
    refine ⟨hquit, fun hpc => ?_⟩
    cases hpub : s.published <;> simp [hpub] at hpc
  | quit =>
    simp only [EventLoopThread.step, Option.ite_none_right_eq_some, Option.map_eq_some_iff] at ha
    obtain ⟨-, l, hl, rfl⟩ := ha
    refine ⟨?_, fun _ => rfl⟩
    rw [callStep_quit hl]
    simp [storesQuit]
  | wakeup =>
    simp only [EventLoopThread.step, Option.ite_none_right_eq_some, Option.map_eq_some_iff] at ha
    obtain ⟨hpc, l, hl, rfl⟩ := ha
    refine ⟨?_, fun _ => hstored (.inl hpc)⟩
    rw [callStep_quit hl, hquit]
    simp [storesQuit]
  | loop ls =>
    simp only [EventLoopThread.step, Option.ite_none_right_eq_some, Option.map_eq_some_iff] at ha
    obtain ⟨-, l, hl, rfl⟩ := ha
    refine ⟨?_, hstored⟩
    rw [loopStep_quit hl, ← hquit]
    split
    · -- the store of false changes nothing when `quit_` is false already
      rename_i henter
      subst henter
      exact hfirst.symm
    · rfl
  | call c =>
    simp only [EventLoopThread.step, Option.ite_none_right_eq_some, Option.map_eq_some_iff] at ha
    obtain ⟨-, l, hl, rfl⟩ := ha
    refine ⟨?_, fun hpc => ?_⟩
    · rw [callStep_quit hl, hquit]
    · simp [hstored hpc]

/-- Entering `loop()` with a request stored loses it. -/
theorem Recorded.enteredFirst (h : Recorded s) {a : Label τ φ}
    (ha : EventLoopThread.step own owner s a = some t) (hkept : QuitKept t) : EnteredFirst s a := by
  cases a with
  | loop ls =>
    cases ls with
    | enterLoop =>
      simp only [EventLoopThread.step, Option.ite_none_right_eq_some,
        Option.map_eq_some_iff] at ha
      obtain ⟨-, l, hl, rfl⟩ := ha
      have hfalse : l.quit = false := loopStep_quit hl
      show s.loop.quit = false
      rw [h.quit_eq]
      -- a stored request would have to be in `quit_` after the step
      cases hstored : s.quitStored with
      | false => rfl
      | true => exact absurd ((hkept.kept hstored).symm.trans hfalse) (by decide)
    | testQuit | pollReturn | dispatch | callbackReturn | swap | runFunctor | functorReturn =>
      trivial
  | start | publish | startLoopReturn | destroy | testLoop | quit | wakeup | joinReturn
  | unpublish | call => trivial

/-- A request to quit is kept in every state of a run exactly when the run enters `loop()`, if at
all, before the first request. -/
theorem quit_kept_iff_entered_first (own owner : τ) (as : List (Label τ φ)) :
    Machine.Always (step own owner) QuitKept (new : EventLoopThread τ φ) as ↔
      Machine.Along (step own owner) EnteredFirst (new : EventLoopThread τ φ) as := by
  apply Machine.always_iff_along (K := Recorded)
  · exact fun s hs => hs.quitKept
  · exact fun s a t hs ha hfirst => hs.step ha hfirst
  · exact fun s a t hs ha hkept => hs.enteredFirst ha hkept
  · exact ⟨rfl, by simp [new]⟩

/-- The owner destroys the object as soon as `startLoop()` has returned, before the new thread
gets to `loop()`. -/
def destroyedAtOnce : List (Label Bool Unit) :=
  [.start, .publish, .startLoopReturn, .destroy, .testLoop, .quit, .wakeup, .loop .enterLoop]

/-- The owner then waits in `join()` for a loop whose `quit_` is false. -/
theorem quit_lost :
    ¬ Machine.Always (step false true) QuitKept (new : EventLoopThread Bool Unit)
      destroyedAtOnce := by
  intro h
  obtain ⟨s, hs⟩ := Option.isSome_iff_exists.mp
    (show (Machine.exec (step false true) new destroyedAtOnce).isSome = true by decide)
  have hlast : (Machine.exec (step false true) new destroyedAtOnce).map
      (fun s => (s.owner, s.thread, s.loop.quit)) = some (.joining, .inLoop, false) := by
    decide
  rw [hs, Option.map_some, Option.some.injEq, Prod.mk.injEq, Prod.mk.injEq] at hlast
  exact (h.last hs).notStuck hlast

end EventLoopThread
end Webservers
