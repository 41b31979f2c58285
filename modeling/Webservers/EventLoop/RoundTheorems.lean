import Webservers.EventLoop.Theorems

/-!
# A round of the loop

A round of `loop()` goes from one return of `poll` to the next. It swaps once, so what is queued
before the return is run in it, while what its own functors queue waits for the next.

* `queued_grows`: a run only ever adds to the functors that were queued;
* `Caught`: what was queued by some moment is in the running batch or behind it. It holds of what
  was queued when `poll` returned, from the `swap` on.
-/

namespace Webservers
namespace EventLoop

variable {τ φ : Type*} [DecidableEq τ] {own : τ} {s t : EventLoop τ φ}

theorem queued_grows {a : Label τ φ} (h : s.step own a = some t) : s.queued <+: t.queued := by
  cases a with
  | loop l =>
    obtain ⟨hqueued, -⟩ := loopTrans_frame (loopStep_trans h)
    exact hqueued ▸ List.prefix_refl _
  | call c =>
    rcases callTrans_queue (callStep_trans h) with ⟨th, f, rfl⟩ | ⟨-, hqueued, -, -⟩
    · exact List.prefix_append _ _
    · exact hqueued ▸ List.prefix_refl _

/-- The functors `fs` were queued before, and unless the `swap` of this round is still to come,
they have been run or are part of the batch. -/
structure Caught (own : τ) (fs : List φ) (s : EventLoop τ φ) : Prop where
  conserved : Conserved own s
  queued : fs <+: s.queued
  taken : beforePoll s.pc = true → fs <+: s.done ++ s.pc.rest

/-- Where the loop thread stands changes in a step of its own only. -/
theorem step_call_pc {c : Call τ φ} (h : s.step own (.call c) = some t) : t.pc = s.pc := by
  rcases callTrans_queue (callStep_trans h) with ⟨th, f, rfl⟩ | ⟨-, -, -, hpc⟩
  · rfl
  · exact hpc

omit [DecidableEq τ] in
/-- Only the `swap` leads from where it is still to come to where it is not. -/
theorem beforePoll_of_loopTrans {l : LoopStep} (h : LoopTrans own s l t) (hl : l ≠ .swap)
    (ht : beforePoll t.pc = true) : beforePoll s.pc = true := by
  cases h with
  | swap => exact absurd rfl hl
  | pollReturn | handleRead | callback | doPendingFunctors | callbackReturn =>
    exact absurd ht Bool.false_ne_true
  | enterLoop hpc | leaveLoop hpc | enterPoll hpc | batchDone hpc =>
    rw [hpc]
    rfl
  | runFunctor f rest hpc | functorReturn rest hpc =>
    rw [hpc]
    rfl

theorem Caught.step {fs : List φ} (h : Caught own fs s) {a : Label τ φ}
    (ha : s.step own a = some t) : Caught own fs t where
  conserved := conserved_step h.conserved ha
  queued := h.queued.trans (queued_grows ha)
  taken := by
    intro ht
    by_cases hswap : a = .loop .swap
    · subst hswap
      have hloop : s.loopStep own .swap = some t := ha
      cases loopStep_trans hloop with
      | swap hpc =>
        -- the batch is now all that was queued and not yet run
        have hall := h.conserved.queued
        have hrest : s.pc.rest = [] := by
          rw [hpc]
          rfl
        rw [hrest, List.append_nil] at hall
        show fs <+: s.done ++ s.pendingFunctors
        rw [← hall]
        exact h.queued
    · rw [step_done_rest hswap ha]
      apply h.taken
      cases a with
      | call c => rw [← step_call_pc ha, ht]
      | loop l =>
        exact beforePoll_of_loopTrans (loopStep_trans ha) (fun hl => hswap (by rw [hl])) ht

end EventLoop
end Webservers
