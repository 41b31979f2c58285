import Webservers.EventLoopThread

/-!
# Does `startLoop()` return?

`startLoop()` waits for `loop_` to be set. The new thread sets it before `loop()`, and clears it
again when `loop()` has returned. Nothing keeps it from doing both before the owner has looked.

* `Traced`: what `loop_` and the owner say about how far the new thread has come;
* `Missed`: both happened, and no step leads out of that;
* `publishes`: while the new thread is still in `callback_`, it can get to the store of `loop_`.
-/

namespace Webservers
namespace EventLoopThread

variable {τ φ : Type*} [DecidableEq τ] {own owner : τ} {s t : EventLoopThread τ φ}
  {l l' : EventLoop τ φ}

/-! ## How far the new thread has come -/

structure Traced (s : EventLoopThread τ φ) : Prop where
  published_iff : s.published = true ↔
    s.thread = .published ∨ s.thread = .inLoop ∨ s.thread = .returned
  constructed : s.owner = .constructed → s.thread = .unstarted
  started : s.owner = .waiting → s.thread ≠ .unstarted
  /-- `loop()` is running -/
  inside : s.thread = .inLoop → leftLoop s.loop = false
  quit : s.loop.quit = true → s.quitStored = true
  left : s.thread = .returned ∨ s.thread = .finished → s.quitStored = true

omit [DecidableEq τ] in
theorem traced_new : Traced (new : EventLoopThread τ φ) where
  published_iff := by simp [new]
  constructed _ := rfl
  started h := by cases h
  inside h := by cases h
  quit h := by cases h
  left h := by simp [new] at h

omit [DecidableEq τ] in
/-- `loop()` returns only on finding `quit_` set. -/
theorem quit_of_leftLoop {ls : EventLoop.LoopStep} (h : l.loopStep own ls = some l')
    (hleft : leftLoop l' = true) : l.quit = true := by
  cases ls with
  | testQuit =>
    simp only [EventLoop.loopStep] at h
    split at h <;> try cases h
    split at h <;> cases h
    · assumption
    · exact absurd hleft Bool.false_ne_true
  | enterLoop | pollReturn | dispatch | callbackReturn | swap | runFunctor | functorReturn =>
    -- every other step ends inside `loop()`
    cases EventLoop.loopStep_trans h <;> exact absurd hleft Bool.false_ne_true

/-- A call leaves the loop where it is. -/
theorem leftLoop_callStep {c : EventLoop.Call τ φ} (h : l.callStep own c = some l') :
    leftLoop l' = leftLoop l := by
  rcases EventLoop.callTrans_queue (EventLoop.callStep_trans h) with ⟨th, f, rfl⟩ | ⟨-, -, -, hpc⟩
  · rfl
  · rw [leftLoop, leftLoop, hpc]

/-- A call by the owner or by anyone else, with the record of its request kept. -/
theorem Traced.call (h : Traced s) {c : EventLoop.Call τ φ} (pc : OwnerPc)
    (hc : s.loop.callStep own c = some l)
    (hpc : pc = .waiting ∨ pc = .constructed → s.owner = pc) :
    Traced { s with loop := l, owner := pc, quitStored := s.quitStored || storesQuit c } where
  published_iff := h.published_iff
  constructed hnew := h.constructed ((hpc (.inr hnew)).trans hnew)
  started hwait := h.started ((hpc (.inl hwait)).trans hwait)
  inside hthread := (leftLoop_callStep hc).trans (h.inside hthread)
  quit hquit := by
    rw [show l.quit = _ from callStep_quit hc, Bool.or_eq_true] at hquit
    show (s.quitStored || storesQuit c) = true
    rw [Bool.or_eq_true]
    exact hquit.imp_left h.quit
  left hthread := by
    show (s.quitStored || storesQuit c) = true
    rw [h.left hthread, Bool.true_or]

omit [DecidableEq τ] in
/-- A step of `loop()`. -/
theorem Traced.loop (h : Traced s) {ls : EventLoop.LoopStep}
    (hthread : s.thread = .published ∧ ls = .enterLoop ∨ s.thread = .inLoop)
    (hl : s.loop.loopStep own ls = some l) :
    Traced { s with loop := l, thread := if leftLoop l then .returned else .inLoop } where
  published_iff := by
    have hpublished : s.published = true := h.published_iff.mpr (by tauto)
    simp only [hpublished, true_iff]
    split <;> simp
  constructed hnew := by
    rw [h.constructed hnew] at hthread
    simp only [reduceCtorEq, false_and, or_self] at hthread
  started hwait := by
    show (if leftLoop l then ThreadPc.returned else .inLoop) ≠ .unstarted
    split <;> exact ThreadPc.noConfusion
  inside hin := by
    cases hleft : leftLoop l with
    | false => rfl
    | true => simp [hleft] at hin
  quit hquit := by
    rw [show l.quit = _ from loopStep_quit hl] at hquit
    split at hquit
    · cases hquit
    · exact h.quit hquit
  left hleft := by
    cases hl' : leftLoop l with
    | false => simp [hl'] at hleft
    | true => exact h.quit (quit_of_leftLoop hl hl')

theorem Traced.step (h : Traced s) {a : Label τ φ} (ha : step own owner s a = some t) :
    Traced t := by
  cases a with
  | start =>
    simp only [EventLoopThread.step, Option.ite_none_right_eq_some, Option.some.injEq] at ha
    obtain ⟨hnew, rfl⟩ := ha
    have hfalse : s.published = false := by
      simpa [h.constructed hnew] using h.published_iff
    exact ⟨by simp [hfalse], OwnerPc.noConfusion, fun _ => ThreadPc.noConfusion,
      ThreadPc.noConfusion, h.quit, by simp⟩
  | publish =>
    simp only [EventLoopThread.step, Option.ite_none_right_eq_some, Option.some.injEq] at ha
    obtain ⟨⟨hthread, -⟩, rfl⟩ := ha
    refine ⟨by simp, fun hnew => ?_, fun _ => ThreadPc.noConfusion, ThreadPc.noConfusion, h.quit,
      by simp⟩
    exact absurd (hthread.symm.trans (h.constructed hnew)) ThreadPc.noConfusion
  | startLoopReturn | destroy | joinReturn =>
    simp only [EventLoopThread.step, Option.ite_none_right_eq_some, Option.some.injEq] at ha
    obtain ⟨-, rfl⟩ := ha
    exact ⟨h.published_iff, OwnerPc.noConfusion, OwnerPc.noConfusion, h.inside, h.quit, h.left⟩
  | testLoop =>
    simp only [EventLoopThread.step, Option.ite_none_right_eq_some, Option.some.injEq] at ha
    obtain ⟨-, rfl⟩ := ha
    refine ⟨h.published_iff, ?_, ?_, h.inside, h.quit, h.left⟩ <;>
      cases s.published <;> exact OwnerPc.noConfusion
  | quit =>
    simp only [EventLoopThread.step, Option.ite_none_right_eq_some, Option.map_eq_some_iff] at ha
    obtain ⟨-, l, hl, rfl⟩ := ha
    have hcall := h.call .waking hl (by simp)
    rwa [show storesQuit (.quit owner : EventLoop.Call τ φ) = true from rfl, Bool.or_true] at hcall
  | wakeup =>
    simp only [EventLoopThread.step, Option.ite_none_right_eq_some, Option.map_eq_some_iff] at ha
    obtain ⟨-, l, hl, rfl⟩ := ha
    have hcall := h.call .joining hl (by simp)
    rwa [show storesQuit (.wakeup owner : EventLoop.Call τ φ) = false from rfl,
      Bool.or_false] at hcall
  | loop ls =>
    simp only [EventLoopThread.step, Option.ite_none_right_eq_some, Option.map_eq_some_iff] at ha
    obtain ⟨hthread, l, hl, rfl⟩ := ha
    exact h.loop hthread hl
  | unpublish =>
    simp only [EventLoopThread.step, Option.ite_none_right_eq_some, Option.some.injEq] at ha
    obtain ⟨hreturned, rfl⟩ := ha
    refine ⟨by simp, fun hnew => ?_, fun _ => ThreadPc.noConfusion, ThreadPc.noConfusion, h.quit,
      fun _ => h.left (.inl hreturned)⟩
    exact absurd (hreturned.symm.trans (h.constructed hnew)) ThreadPc.noConfusion
  | call c =>
    simp only [EventLoopThread.step, Option.ite_none_right_eq_some, Option.map_eq_some_iff] at ha
    obtain ⟨-, l, hl, rfl⟩ := ha
    exact h.call s.owner hl fun _ => rfl

/-! ## No way out -/

/-- The owner waits for a thread that has ended. -/
structure Missed (s : EventLoopThread τ φ) : Prop where
  owner : s.owner = .waiting
  thread : s.thread = .finished
  unpublished : s.published = false

theorem Missed.step (h : Missed s) {a : Label τ φ} (ha : step own owner s a = some t) :
    Missed t := by
  obtain ⟨howner, hthread, hpub⟩ := h
  cases a with
  | call c =>
    simp only [EventLoopThread.step, Option.ite_none_right_eq_some, Option.map_eq_some_iff] at ha
    obtain ⟨-, l, hl, rfl⟩ := ha
    exact ⟨howner, hthread, hpub⟩
  | start | publish | startLoopReturn | destroy | testLoop | quit | wakeup | joinReturn | loop
  | unpublish =>
    -- none of these is enabled
    simp [EventLoopThread.step, howner, hthread, hpub] at ha

/-! ## The way to `loop_` -/

/-- A step of a call that the new thread makes in `callback_`. -/
theorem step_ownCall (owner : τ) (h : s.thread = .callback) {c : EventLoop.Call τ φ}
    (hl : s.loop.callStep own c = some l) (hc : caller c = own) :
    step own owner s (.call c) =
      some { s with loop := l, quitStored := s.quitStored || storesQuit c } := by
  have hmay : s.mayCall own owner (caller c) = true := by
    rw [mayCall, if_pos hc, h]
    rfl
  rw [EventLoopThread.step, if_pos hmay, hl]
  rfl

theorem wakeupReturns (own owner : τ) (h : s.thread = .callback)
    (hcall : s.loop.calls own = .wakeup ∨ s.loop.calls own = .quitWakeup) :
    ∃ t, Machine.Reachable (step own owner) s t ∧ t.loop.calls own = .idle ∧
      t.thread = .callback ∧ t.owner = s.owner := by
  have hl : s.loop.callStep own (.wakeup own) = some { s.loop with
      wakeupCount := EventLoop.eventfdWrite s.loop.wakeupCount
      calls := Function.update s.loop.calls own .idle } := by
    rw [EventLoop.callStep, if_pos hcall]
  exact ⟨_, Machine.Reachable.tail ⟨[], rfl⟩ (step_ownCall owner h hl rfl),
    Function.update_self _ _ _, h, rfl⟩

/-- A call that the new thread has begun in `callback_` can be finished. -/
theorem callReturns (own owner : τ) (h : s.thread = .callback) :
    ∃ t, Machine.Reachable (step own owner) s t ∧ t.loop.calls own = .idle ∧
      t.thread = .callback ∧ t.owner = s.owner := by
  cases hcall : s.loop.calls own with
  | idle => exact ⟨s, ⟨[], rfl⟩, hcall, h, rfl⟩
  | wakeup => exact wakeupReturns own owner h (.inl hcall)
  | quitWakeup => exact wakeupReturns own owner h (.inr hcall)
  | emplaced =>
    have htest : s.loop.callStep own (.testWakeup own) = some { s.loop with
        calls := Function.update s.loop.calls own
          (if own ≠ own ∨ s.loop.callingPendingFunctors then .wakeup else .idle) } := by
      rw [EventLoop.callStep, if_pos hcall]
    generalize hnext : (if own ≠ own ∨ s.loop.callingPendingFunctors then CallPc.wakeup
      else .idle) = next at htest
    have hstep := step_ownCall owner h htest rfl
    by_cases hwakeup : next = .wakeup
    · subst hwakeup
      obtain ⟨t, ⟨as, has⟩, ht⟩ := wakeupReturns own owner (s := { s with
        loop := { s.loop with calls := Function.update s.loop.calls own .wakeup }
        quitStored := s.quitStored || false }) h (.inl (Function.update_self _ _ _))
      exact ⟨t, ⟨_, Machine.exec_cons_eq_some.mpr ⟨_, hstep, has⟩⟩, ht⟩
    · have hidle : next = .idle := by
        rw [← hnext] at hwakeup ⊢
        exact if_neg fun hif => hwakeup (if_pos hif)
      subst hidle
      exact ⟨_, Machine.Reachable.tail ⟨[], rfl⟩ hstep, Function.update_self _ _ _, h, rfl⟩

/-- From `callback_` the new thread can get to where `loop_` is set. -/
theorem publishes (own owner : τ) (h : s.thread = .callback) :
    ∃ t, Machine.Reachable (step own owner) s t ∧ t.published = true ∧ t.owner = s.owner := by
  obtain ⟨u, ⟨as, has⟩, hidle, hthread, howner⟩ := callReturns own owner h
  have hpublish : step own owner u .publish =
      some { u with published := true, thread := .published } := by
    rw [EventLoopThread.step, if_pos ⟨hthread, hidle⟩]
  exact ⟨_, Machine.Reachable.tail ⟨as, has⟩ hpublish, rfl, howner⟩

/-- In every state in which the owner waits in `startLoop()`, the call can still return if and only
if the new thread has not ended, that is, if `loop()` has not come back from a `quit()` by then. -/
theorem startLoop_returns_iff (own owner : τ) {s : EventLoopThread τ φ}
    (h : Machine.Reachable (step own owner) new s) (hwait : s.owner = .waiting) :
    ((∃ t, Machine.Reachable (step own owner) s t ∧ t.owner = .started) ↔
        s.thread ≠ .finished) ∧
      (s.thread = .finished → s.quitStored = true) := by
  have htraced : Traced s :=
    Machine.reachable_invariant traced_new (fun _ _ _ hs ha => hs.step ha) h
  refine ⟨⟨?_, fun hthread => ?_⟩, fun hthread => htraced.left (.inr hthread)⟩
  · rintro ⟨t, hreach, hstarted⟩ hthread
    have hfalse : s.published = false := by
      simpa [hthread] using htraced.published_iff
    have hmissed : Missed t :=
      Machine.reachable_invariant ⟨hwait, hthread, hfalse⟩ (fun _ _ _ hs ha => hs.step ha) hreach
    exact absurd (hstarted.symm.trans hmissed.owner) OwnerPc.noConfusion
  · obtain ⟨u, hreach, hpub, howner⟩ :
        ∃ u, Machine.Reachable (step own owner) s u ∧ u.published = true ∧ u.owner = .waiting := by
      cases hpc : s.thread with
      | unstarted => exact absurd hpc (htraced.started hwait)
      | callback =>
        obtain ⟨u, hreach, hpub, howner⟩ := publishes own owner hpc
        exact ⟨u, hreach, hpub, howner.trans hwait⟩
      | published => exact ⟨s, ⟨[], rfl⟩, htraced.published_iff.mpr (.inl hpc), hwait⟩
      | inLoop => exact ⟨s, ⟨[], rfl⟩, htraced.published_iff.mpr (.inr (.inl hpc)), hwait⟩
      | returned => exact ⟨s, ⟨[], rfl⟩, htraced.published_iff.mpr (.inr (.inr hpc)), hwait⟩
      | finished => exact absurd hpc hthread
    have hreturn : step own owner u .startLoopReturn = some { u with owner := .started } := by
      rw [EventLoopThread.step, if_pos ⟨howner, hpub⟩]
    exact ⟨_, hreach.tail hreturn, rfl⟩

/-- The new thread queues a functor in `callback_` that quits, and has run it before the owner
looks at `loop_`. -/
def quitFirst : List (Label Bool Unit) :=
  [.start, .call (.queueInLoop false ()), .call (.testWakeup false), .publish, .loop .enterLoop,
    .loop .testQuit, .loop (.pollReturn []), .loop .dispatch, .loop .swap, .loop .runFunctor,
    .call (.quit false), .loop .functorReturn, .loop .runFunctor, .loop .testQuit, .unpublish]

theorem startLoop_hangs :
    ∃ s, Machine.exec (step false true) (new : EventLoopThread Bool Unit) quitFirst = some s ∧
      s.owner = .waiting ∧ s.quitStored = true ∧
      ¬ ∃ t, Machine.Reachable (step false true) s t ∧ t.owner = .started := by
  have hrun : (Machine.exec (step false true) (new : EventLoopThread Bool Unit) quitFirst).map
      (fun s => (s.owner, s.thread)) = some (.waiting, .finished) := by decide
  obtain ⟨s, hs, hpcs⟩ := Option.map_eq_some_iff.mp hrun
  rw [Prod.mk.injEq] at hpcs
  obtain ⟨hiff, hquit⟩ := startLoop_returns_iff false true ⟨_, hs⟩ hpcs.1
  exact ⟨s, hs, hpcs.1, hquit hpcs.2, fun hreturns => hiff.mp hreturns hpcs.2⟩

end EventLoopThread
end Webservers
