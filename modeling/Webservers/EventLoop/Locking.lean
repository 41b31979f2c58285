import Webservers.EventLoop.Basic

/-!
# The lock around the task queue

`EventLoop.Basic` takes the `emplace_back` of `queueInLoop` and the `swap` of
`doPendingFunctors` as atomic. In the source each stands in a block of its own behind the
statement `std::unique_lock<std::mutex>(mutex_);`. Here a thread enters such a block, performs
the access and leaves, and the guard at the top of the block does what the language says:

* `T(x);` is a declaration of a local `x`, so the statement of the source declares a
  default-constructed `unique_lock` named `mutex_`, which hides the member and locks nothing;
* `std::unique_lock<std::mutex> lock(mutex_);`, the form `EventLoopThread` uses, locks the
  member until the end of the block.

Mutual exclusion then holds exactly when no foreign thread queues anything
(`exclusive_iff_no_foreign_caller`), and for all callers under the second form
(`exclusive_of_lock`).
-/

namespace Webservers

/-- A statement that is meant to take a mutex for the rest of its block. -/
inductive Guard where
  /-- `std::unique_lock<std::mutex>(mutex_);` -/
  | declaration
  /-- `std::unique_lock<std::mutex> lock(mutex_);` -/
  | lock
deriving Repr, DecidableEq

namespace Guard

variable {τ : Type*}

/-- The statement run by thread `th` while `holder` holds the mutex: the holder after it,
`none` when it blocks. -/
def acquire (th : τ) (holder : Option τ) : Guard → Option (Option τ)
  | .declaration => some holder
  | .lock => if holder.isNone then some (some th) else none

/-- The destructor of the guard's variable. -/
def release (holder : Option τ) : Guard → Option τ
  | .declaration => holder
  | .lock => none

end Guard

/-- The two blocks that access `pendingFunctors_`. -/
inductive Block (φ : Type*) where
  /-- the block of `queueInLoop` -/
  | emplace (f : φ)
  /-- the block of `doPendingFunctors` -/
  | swap
deriving Repr, DecidableEq

namespace Block

variable {φ : Type*}

/-- The guard each block opens with in the source. -/
def sourceGuard : Block φ → Guard
  | .emplace _ => .declaration
  | .swap => .declaration

/-- The guards the comments there ask for. -/
def namedGuard : Block φ → Guard := fun _ => .lock

end Block

structure Locking (τ φ : Type*) where
  loop : EventLoop τ φ
  /-- the thread that holds `mutex_` -/
  holder : Option τ
  /-- the block a thread is in, and whether its access is still to come -/
  inside : τ → Option (Block φ × Bool)

namespace Locking

variable {τ φ : Type*} [DecidableEq τ]

inductive Label (τ φ : Type*) where
  /-- thread `th` executes the guard at the top of a block -/
  | enter (th : τ) (b : Block φ)
  | access (th : τ)
  /-- thread `th` reaches the end of the block -/
  | leave (th : τ)
  /-- any other step of the loop or of a caller -/
  | other (l : EventLoop.Label τ φ)

def new : Locking τ φ where
  loop := EventLoop.new
  holder := none
  inside := fun _ => none

/-- The thread that takes a step. -/
def actor (own : τ) : EventLoop.Label τ φ → τ
  | .call (.queueInLoop th _) | .call (.runInLoop th _) | .call (.testWakeup th)
  | .call (.wakeup th) | .call (.quit th) => th
  | .loop _ => own

/-- Steps that access `pendingFunctors_`, and so happen in a block only. -/
def accesses (own : τ) : EventLoop.Label τ φ → Bool
  | .call (.queueInLoop _ _) => true
  | .call (.runInLoop th _) => th != own
  | .loop .swap => true
  | _ => false

/-- The step of the loop that thread `th` performs in block `b`. -/
def accessLabel (th : τ) : Block φ → EventLoop.Label τ φ
  | .emplace f => .call (.queueInLoop th f)
  | .swap => .loop .swap

/-- May thread `th` come to block `b`? The `swap` is for the loop thread, on its way through
`doPendingFunctors`; `queueInLoop` for the threads in `callers`. -/
def mayEnter (callers : τ → Bool) (own : τ) (s : Locking τ φ) (th : τ) : Block φ → Bool
  | .emplace _ => callers th && s.loop.mayCall own th
  | .swap => th == own && (match s.loop.pc with | .swap => true | _ => false)

/-- One step, the blocks guarded as `guard` says. -/
def step (guard : Block φ → Guard) (callers : τ → Bool) (own : τ) (s : Locking τ φ) :
    Label τ φ → Option (Locking τ φ)
  | .enter th b =>
    if (s.inside th).isNone && s.mayEnter callers own th b then
      ((guard b).acquire th s.holder).map fun holder =>
        { s with holder := holder, inside := Function.update s.inside th (some (b, true)) }
    else none
  | .access th =>
    match s.inside th with
    | some (b, true) =>
      (s.loop.step own (accessLabel th b)).map fun loop =>
        { s with loop := loop, inside := Function.update s.inside th (some (b, false)) }
    | _ => none
  | .leave th =>
    match s.inside th with
    | some (b, false) =>
      some
        { s with
          holder := (guard b).release s.holder
          inside := Function.update s.inside th none }
    | _ => none
  | .other l =>
    if accesses own l = false && (s.inside (actor own l)).isNone then
      (s.loop.step own l).map fun loop => { s with loop := loop }
    else none

/-- No two threads are inside the blocks at once. -/
def Exclusive (s : Locking τ φ) : Prop :=
  ∀ th th', (s.inside th).isSome → (s.inside th').isSome → th = th'

variable {guard : Block φ → Guard} {callers : τ → Bool} {own : τ} {s t : Locking τ φ}

/-! ## What a step can do -/

/-- The transitions of `step`, one constructor for each label. -/
inductive Trans (guard : Block φ → Guard) (callers : τ → Bool) (own : τ) (s : Locking τ φ) :
    Locking τ φ → Prop
  | enter (th : τ) (b : Block φ) (holder : Option τ) (hout : s.inside th = none)
      (hmay : s.mayEnter callers own th b = true)
      (hholder : (guard b).acquire th s.holder = some holder) :
      Trans guard callers own s
        { s with holder := holder, inside := Function.update s.inside th (some (b, true)) }
  | access (th : τ) (b : Block φ) (loop : EventLoop τ φ) (hin : s.inside th = some (b, true))
      (hloop : s.loop.step own (accessLabel th b) = some loop) :
      Trans guard callers own s
        { s with loop := loop, inside := Function.update s.inside th (some (b, false)) }
  | leave (th : τ) (b : Block φ) (hin : s.inside th = some (b, false)) :
      Trans guard callers own s
        { s with
          holder := (guard b).release s.holder
          inside := Function.update s.inside th none }
  | other (l : EventLoop.Label τ φ) (loop : EventLoop τ φ) (hloop : s.loop.step own l = some loop) :
      Trans guard callers own s { s with loop := loop }

theorem step_trans {l : Label τ φ} (h : s.step guard callers own l = some t) :
    Trans guard callers own s t := by
  cases l with
  | enter th b =>
    simp only [step] at h
    split at h
    · rename_i hmay
      rw [Bool.and_eq_true, Option.isNone_iff_eq_none] at hmay
      obtain ⟨holder, hholder, rfl⟩ := Option.map_eq_some_iff.mp h
      exact .enter th b holder hmay.1 hmay.2 hholder
    · cases h
  | access th =>
    simp only [step] at h
    split at h
    · rename_i b hin
      obtain ⟨loop, hloop, rfl⟩ := Option.map_eq_some_iff.mp h
      exact .access th b loop hin hloop
    · cases h
  | leave th =>
    simp only [step] at h
    split at h <;> cases h
    rename_i b hin
    exact .leave th b hin
  | other l =>
    simp only [step] at h
    split at h
    · obtain ⟨loop, hloop, rfl⟩ := Option.map_eq_some_iff.mp h
      exact .other l loop hloop
    · cases h

/-- The blocks add nothing to what the loop can do: whatever the guards are, the loop inside a
reachable state is reachable in the machine with atomic accesses. -/
theorem reachable_loop (h : Machine.Reachable (step guard callers own) new s) :
    Machine.Reachable (EventLoop.step own) EventLoop.new s.loop := by
  refine Machine.reachable_invariant (I := fun s => Machine.Reachable _ _ s.loop) ?_ ?_ h
  · exact ⟨[], rfl⟩
  · intro s l t hs hstep
    cases step_trans hstep with
    | enter | leave => exact hs
    | access th b loop _ hloop =>
      exact hs.tail hloop
    | other l loop hloop => exact hs.tail hloop

/-! ## The guards of the source -/

/-- Only the loop thread is ever inside a block. -/
def OnlyOwn (own : τ) (s : Locking τ φ) : Prop := ∀ th, (s.inside th).isSome → th = own

omit [DecidableEq τ] in
theorem OnlyOwn.exclusive (h : OnlyOwn own s) : s.Exclusive := by
  intro th th' hth hth'
  rw [h th hth, h th' hth']

/-- If only the loop thread queues, only the loop thread enters a block. -/
theorem onlyOwn_step (hcallers : ∀ th, callers th = true → th = own) (hs : OnlyOwn own s)
    {l : Label τ φ} (h : s.step guard callers own l = some t) : OnlyOwn own t := by
  intro th hth
  cases step_trans h with
  | other => exact hs th hth
  | enter actor b holder hout hmay hholder =>
    by_cases heq : th = actor
    · subst heq
      -- the loop thread comes to its own block by itself, to the other one as a caller
      cases b with
      | emplace f => exact hcallers th (Bool.and_eq_true_iff.mp hmay).1
      | swap => exact beq_iff_eq.mp (Bool.and_eq_true_iff.mp hmay).1
    · apply hs
      simpa only [Function.update_of_ne heq] using hth
  | access actor b loop hin hloop =>
    by_cases heq : th = actor
    · apply hs
      rw [heq, hin]
      rfl
    · apply hs
      simpa only [Function.update_of_ne heq] using hth
  | leave actor b hin =>
    by_cases heq : th = actor
    · apply hs
      rw [heq, hin]
      rfl
    · apply hs
      simpa only [Function.update_of_ne heq] using hth

/-- The loop thread goes once around `loop()`, up to and into the block of
`doPendingFunctors`. -/
def toSwap (own : τ) : List (Label τ φ) :=
  [.other (.loop .enterLoop), .other (.loop .testQuit), .other (.loop (.pollReturn [])),
    .other (.loop .dispatch), .enter own .swap]

/-- The loop thread is before its `swap`, thread `th` before its `emplace_back`. -/
def bothInside (own th : τ) (f : φ) : Locking τ φ where
  loop := { EventLoop.new with looping := true, callingPendingFunctors := true, pc := .swap }
  holder := none
  inside := Function.update (Function.update (fun _ => none) own (some (.swap, true))) th
    (some (.emplace f, true))

/-- A foreign caller follows the loop thread into the blocks. -/
theorem foreign_caller_enters (callers : τ → Bool) {own th : τ} (hth : callers th = true)
    (hne : th ≠ own) (f : φ) :
    Machine.exec (step Block.sourceGuard callers own) new
      (toSwap own ++ [.enter th (.emplace f)]) = some (bothInside own th f) := by
  simp [toSwap, Machine.exec, step, new, accesses, actor, EventLoop.step, EventLoop.loopStep,
    EventLoop.new, mayEnter, Guard.acquire, Block.sourceGuard, EventLoop.mayCall, hth, hne,
    bothInside]

theorem bothInside_not_exclusive {own th : τ} (hne : th ≠ own) (f : φ) :
    ¬ (bothInside own th f).Exclusive := by
  intro hexcl
  apply hne
  apply hexcl th own
  · simp only [bothInside, Function.update_self, Option.isSome_some]
  · simp only [bothInside, Function.update_of_ne (Ne.symm hne), Function.update_self,
      Option.isSome_some]

/-- With the guards of the source, no two threads are ever inside the blocks that access
`pendingFunctors_` if and only if no thread but the loop's own calls `queueInLoop`. -/
theorem exclusive_iff_no_foreign_caller [Inhabited φ] (callers : τ → Bool) (own : τ) :
    (∀ s : Locking τ φ, Machine.Reachable (step Block.sourceGuard callers own) new s →
        s.Exclusive) ↔
      ∀ th, callers th = true → th = own := by
  constructor
  · intro h th hth
    by_contra hne
    -- the default functor serves as the one that is queued
    have hrun := foreign_caller_enters callers hth hne (default : φ)
    exact bothInside_not_exclusive hne default (h _ ⟨_, hrun⟩)
  · intro hcallers s hs
    have hinv : OnlyOwn own s :=
      Machine.reachable_invariant (fun th hth => Bool.noConfusion hth)
        (fun _ _ _ hs h => onlyOwn_step hcallers hs h) hs
    exact hinv.exclusive

/-- Thread 1 is in the block of `queueInLoop` while thread 0 is in that of
`doPendingFunctors`. -/
theorem two_threads_inside :
    ¬ ∀ s : Locking ℕ ℕ,
      Machine.Reachable (step Block.sourceGuard (fun _ => true) 0) new s → s.Exclusive := by
  intro h
  have hrun := foreign_caller_enters (fun _ => true) rfl Nat.one_ne_zero 7
  exact bothInside_not_exclusive Nat.one_ne_zero 7 (h _ ⟨_, hrun⟩)

/-! ## The guards the comments ask for -/

/-- Whoever is inside a block holds the mutex. -/
def HolderInside (s : Locking τ φ) : Prop := ∀ th, (s.inside th).isSome → s.holder = some th

theorem holderInside_step (hs : HolderInside s) {l : Label τ φ}
    (h : s.step Block.namedGuard callers own l = some t) : HolderInside t := by
  intro th hth
  cases step_trans h with
  | other => exact hs th hth
  | enter actor b holder hout hmay hholder =>
    -- the guard went through, so nobody held the mutex and nobody was inside
    simp only [Block.namedGuard, Guard.acquire] at hholder
    split at hholder
    · rename_i hfree
      cases hholder
      by_cases heq : th = actor
      · rw [heq]
      · simp only [Function.update_of_ne heq] at hth
        rw [hs th hth] at hfree
        exact Bool.noConfusion hfree
    · cases hholder
  | access actor b loop hin hloop =>
    apply hs
    by_cases heq : th = actor
    · rw [heq, hin]
      rfl
    · simpa only [Function.update_of_ne heq] using hth
  | leave actor b hin =>
    -- the leaving thread was the only one inside
    have hactor := hs actor (by rw [hin]; rfl)
    by_cases heq : th = actor
    · simp only [heq, Function.update_self] at hth
      exact Bool.noConfusion hth
    · simp only [Function.update_of_ne heq] at hth
      have hth' := hs th hth
      rw [hactor, Option.some.injEq] at hth'
      exact absurd hth'.symm heq

/-- With `std::unique_lock<std::mutex> lock(mutex_);` in both blocks the queue is accessed by
one thread at a time, whoever calls. -/
theorem exclusive_of_lock (callers : τ → Bool) (own : τ) (s : Locking τ φ)
    (h : Machine.Reachable (step Block.namedGuard callers own) new s) : s.Exclusive := by
  have hinv : HolderInside s :=
    Machine.reachable_invariant (fun th hth => Bool.noConfusion hth)
      (fun _ _ _ hs h => holderInside_step hs h) h
  intro th th' hth hth'
  have heq := hinv th hth
  rw [hinv th' hth', Option.some.injEq] at heq
  exact heq.symm

end Locking
end Webservers
