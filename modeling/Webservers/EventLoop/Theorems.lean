import Webservers.EventLoop.Basic

/-!
# The task queue of a loop: nothing lost, nothing doubled, no wakeup missed

Two invariants of the machine in `EventLoop.Basic`:

* `Conserved`: the functors ever queued are the executed ones, then the rest of the running
  batch, then `pendingFunctors_`;
* `Awake`: outside the stretch from `poll`'s return to the `swap`, a non-empty
  `pendingFunctors_` comes with a positive eventfd counter or with a thread that is still
  going to raise it.

Both are proved step by step, the steps of the calls first and those of `loop()` after them.
-/

namespace Webservers
namespace EventLoop

variable {τ φ : Type*} [DecidableEq τ] {own : τ} {s t : EventLoop τ φ}

/-! ## What a call can do -/

/-- The transitions of `callStep`, one constructor for each. -/
inductive CallTrans (own : τ) (s : EventLoop τ φ) : Call τ φ → EventLoop τ φ → Prop
  | queueInLoop (th : τ) (f : φ) (hmay : s.mayCall own th) :
      CallTrans own s (.queueInLoop th f) (s.emplace th f)
  | runQueued (th : τ) (f : φ) (hmay : s.mayCall own th) (hne : th ≠ own) :
      CallTrans own s (.runInLoop th f) (s.emplace th f)
  | runInline (f : φ) : CallTrans own s (.runInLoop own f) s
  | testWakeup (th : τ) (hcall : s.calls th = .emplaced) :
      CallTrans own s (.testWakeup th)
        { s with
          calls := Function.update s.calls th
            (if th ≠ own ∨ s.callingPendingFunctors then .wakeup else .idle) }
  | wakeup (th : τ) :
      CallTrans own s (.wakeup th)
        { s with
          wakeupCount := eventfdWrite s.wakeupCount
          calls := Function.update s.calls th .idle }
  | quit (th : τ) (hmay : s.mayCall own th) :
      CallTrans own s (.quit th)
        { s with
          quit := true
          calls := Function.update s.calls th (if th ≠ own then .quitWakeup else .idle) }

theorem callStep_trans {c : Call τ φ} (h : s.callStep own c = some t) :
    CallTrans own s c t := by
  cases c with
  | queueInLoop th f =>
    simp only [callStep] at h
    split at h <;> cases h
    rename_i hmay
    exact .queueInLoop th f hmay
  | runInLoop th f =>
    simp only [callStep] at h
    split at h <;> cases h
    rename_i hmay
    by_cases hown : th = own
    · subst hown
      rw [if_pos rfl]
      exact .runInline f
    · rw [if_neg hown]
      exact .runQueued th f hmay hown
  | testWakeup th =>
    simp only [callStep] at h
    split at h <;> cases h
    rename_i hcall
    exact .testWakeup th hcall
  | wakeup th =>
    simp only [callStep] at h
    split at h <;> cases h
    exact .wakeup th
  | quit th =>
    simp only [callStep] at h
    split at h <;> cases h
    rename_i hmay
    exact .quit th hmay

/-- A step of a call either queues a functor or leaves the queue and its history alone. -/
theorem callTrans_queue {c : Call τ φ} (h : CallTrans own s c t) :
    (∃ th f, t = s.emplace th f) ∨
      (t.pendingFunctors = s.pendingFunctors ∧ t.queued = s.queued ∧
        t.executed = s.executed ∧ t.pc = s.pc) := by
  cases h with
  | queueInLoop th f _ | runQueued th f _ _ => exact Or.inl ⟨th, f, rfl⟩
  | runInline | testWakeup | wakeup | quit => exact Or.inr ⟨rfl, rfl, rfl, rfl⟩

/-! ## What a step of `loop()` can do -/

/-- The transitions of `loopStep`, one constructor for each. -/
inductive LoopTrans (own : τ) (s : EventLoop τ φ) : LoopStep → EventLoop τ φ → Prop
  | enterLoop (hpc : s.pc = .outside) (hidle : s.calls own = .idle) :
      LoopTrans own s .enterLoop { s with looping := true, quit := false, pc := .test }
  | leaveLoop (hpc : s.pc = .test) :
      LoopTrans own s .testQuit { s with looping := false, pc := .outside }
  | enterPoll (hpc : s.pc = .test) : LoopTrans own s .testQuit { s with pc := .poll }
  | pollReturn (active : List Active) (hpc : s.pc = .poll) :
      LoopTrans own s (.pollReturn active) { s with pc := .dispatch active }
  | handleRead (rest : List Active) (hpc : s.pc = .dispatch (.wakeup :: rest)) :
      LoopTrans own s .dispatch { s with wakeupCount := 0, pc := .dispatch rest }
  | callback (rest : List Active) (hpc : s.pc = .dispatch (.user :: rest)) :
      LoopTrans own s .dispatch { s with pc := .callback rest }
  | doPendingFunctors (hpc : s.pc = .dispatch []) :
      LoopTrans own s .dispatch { s with callingPendingFunctors := true, pc := .swap }
  | callbackReturn (rest : List Active) (hpc : s.pc = .callback rest)
      (hidle : s.calls own = .idle) :
      LoopTrans own s .callbackReturn { s with pc := .dispatch rest }
  | swap (hpc : s.pc = .swap) :
      LoopTrans own s .swap { s with pendingFunctors := [], pc := .batch s.pendingFunctors }
  | runFunctor (f : φ) (rest : List φ) (hpc : s.pc = .batch (f :: rest)) :
      LoopTrans own s .runFunctor
        { s with executed := s.executed ++ [(own, f)], pc := .functor rest }
  | batchDone (hpc : s.pc = .batch []) :
      LoopTrans own s .runFunctor { s with callingPendingFunctors := false, pc := .test }
  | functorReturn (rest : List φ) (hpc : s.pc = .functor rest) (hidle : s.calls own = .idle) :
      LoopTrans own s .functorReturn { s with pc := .batch rest }

omit [DecidableEq τ] in
theorem loopStep_trans {l : LoopStep} (h : s.loopStep own l = some t) :
    LoopTrans own s l t := by
  cases l with
  | enterLoop =>
    simp only [loopStep] at h
    split at h <;> try cases h
    rename_i hpc
    split at h <;> cases h
    rename_i hidle
    exact .enterLoop hpc hidle
  | testQuit =>
    simp only [loopStep] at h
    split at h <;> try cases h
    rename_i hpc
    split at h <;> cases h
    · exact .leaveLoop hpc
    · exact .enterPoll hpc
  | pollReturn active =>
    simp only [loopStep] at h
    split at h <;> try cases h
    rename_i hpc
    split at h <;> cases h
    exact .pollReturn active hpc
  | dispatch =>
    simp only [loopStep] at h
    split at h <;> cases h
    · rename_i rest hpc
      exact .handleRead rest hpc
    · rename_i rest hpc
      exact .callback rest hpc
    · rename_i hpc
      exact .doPendingFunctors hpc
  | callbackReturn =>
    simp only [loopStep] at h
    split at h <;> try cases h
    rename_i rest hpc
    split at h <;> cases h
    rename_i hidle
    exact .callbackReturn rest hpc hidle
  | swap =>
    simp only [loopStep] at h
    split at h <;> cases h
    rename_i hpc
    exact .swap hpc
  | runFunctor =>
    simp only [loopStep] at h
    split at h <;> cases h
    · rename_i f rest hpc
      exact .runFunctor f rest hpc
    · rename_i hpc
      exact .batchDone hpc
  | functorReturn =>
    simp only [loopStep] at h
    split at h <;> try cases h
    rename_i rest hpc
    split at h <;> cases h
    rename_i hidle
    exact .functorReturn rest hpc hidle

/-! ## Conservation -/

/-- The functors executed so far, in order. -/
def done (s : EventLoop τ φ) : List φ := s.executed.map Prod.snd

/-- Queued = executed, then the rest of the batch, then pending; executed on the loop
thread. -/
structure Conserved (own : τ) (s : EventLoop τ φ) : Prop where
  queued : s.queued = s.done ++ s.pc.rest ++ s.pendingFunctors
  onLoopThread : ∀ e ∈ s.executed, e.1 = own

omit [DecidableEq τ] in
/-- Apart from the `swap`, a step of `loop()` does not change which functors are executed up
to the end of the running batch. -/
theorem loopTrans_done_rest {l : LoopStep} (hl : l ≠ .swap) (h : LoopTrans own s l t) :
    t.done ++ t.pc.rest = s.done ++ s.pc.rest := by
  cases h with
  | swap => exact absurd rfl hl
  | runFunctor f rest hpc =>
    show (s.executed ++ [(own, f)]).map Prod.snd ++ rest = s.done ++ s.pc.rest
    rw [hpc, List.map_append, List.append_assoc]
    rfl
  | enterLoop hpc _ | leaveLoop hpc | enterPoll hpc | pollReturn _ hpc | handleRead _ hpc
  | callback _ hpc | doPendingFunctors hpc | callbackReturn _ hpc _ | batchDone hpc
  | functorReturn _ hpc _ =>
    rw [hpc]
    rfl

omit [DecidableEq τ] in
theorem loopTrans_frame {l : LoopStep} (h : LoopTrans own s l t) :
    t.queued = s.queued ∧ t.calls = s.calls ∧
      (l ≠ .swap → t.pendingFunctors = s.pendingFunctors) ∧
      (t.executed = s.executed ∨ ∃ f, t.executed = s.executed ++ [(own, f)]) := by
  cases h with
  | swap => exact ⟨rfl, rfl, fun hl => absurd rfl hl, Or.inl rfl⟩
  | runFunctor f rest hpc => exact ⟨rfl, rfl, fun _ => rfl, Or.inr ⟨f, rfl⟩⟩
  | enterLoop | leaveLoop | enterPoll | pollReturn | handleRead | callback | doPendingFunctors
  | callbackReturn | batchDone | functorReturn => exact ⟨rfl, rfl, fun _ => rfl, Or.inl rfl⟩

theorem conserved_emplace (hs : Conserved own s) (th : τ) (f : φ) :
    Conserved own (s.emplace th f) where
  queued := by
    show s.queued ++ [f] = s.done ++ s.pc.rest ++ (s.pendingFunctors ++ [f])
    rw [hs.queued, List.append_assoc]
  onLoopThread := hs.onLoopThread

omit [DecidableEq τ] in
theorem conserved_loopTrans (hs : Conserved own s) {l : LoopStep} (h : LoopTrans own s l t) :
    Conserved own t := by
  obtain ⟨hqueued, -, hpending, hexec⟩ := loopTrans_frame h
  constructor
  · rw [hqueued, hs.queued]
    by_cases hl : l = .swap
    · -- the batch is empty before the `swap`, `pendingFunctors_` after it
      subst hl
      cases h with
      | swap hpc =>
        rw [hpc]
        show s.done ++ [] ++ s.pendingFunctors = s.done ++ s.pendingFunctors ++ []
        rw [List.append_nil, List.append_nil]
    · rw [loopTrans_done_rest hl h, hpending hl]
  · intro e he
    rcases hexec with hexec | ⟨f, hexec⟩
    · exact hs.onLoopThread e (hexec ▸ he)
    · rw [hexec] at he
      rcases List.mem_append.mp he with he | he
      · exact hs.onLoopThread e he
      · rw [List.mem_singleton.mp he]

theorem conserved_step (hs : Conserved own s) {l : Label τ φ} (h : s.step own l = some t) :
    Conserved own t := by
  cases l with
  | loop l => exact conserved_loopTrans hs (loopStep_trans h)
  | call c =>
    rcases callTrans_queue (callStep_trans h) with ⟨th, f, rfl⟩ | ⟨hp, hq, he, hpc⟩
    · exact conserved_emplace hs th f
    · refine ⟨?_, by rw [he]; exact hs.onLoopThread⟩
      rw [hq, hp, hpc, done, he]
      exact hs.queued

theorem step_done_rest {l : Label τ φ} (hl : l ≠ .loop .swap) (h : s.step own l = some t) :
    t.done ++ t.pc.rest = s.done ++ s.pc.rest := by
  cases l with
  | loop l => exact loopTrans_done_rest (fun hswap => hl (by rw [hswap])) (loopStep_trans h)
  | call c =>
    rcases callTrans_queue (callStep_trans h) with ⟨th, f, rfl⟩ | ⟨-, -, he, hpc⟩
    · rfl
    · rw [done, he, hpc, done]

/-- Until the next `swap` the executed functors come from the batch that was swapped out. -/
theorem run_done_rest {ls : List (Label τ φ)} (hls : .loop .swap ∉ ls)
    (h : Machine.exec (step own) s ls = some t) :
    t.done ++ t.pc.rest = s.done ++ s.pc.rest := by
  induction ls generalizing s with
  | nil => rw [Option.some.inj h]
  | cons l ls ih =>
    obtain ⟨u, hu, hrest⟩ := Machine.exec_cons_eq_some.mp h
    rw [List.mem_cons, not_or] at hls
    rw [ih hls.2 hrest, step_done_rest (fun hl => hls.1 hl.symm) hu]

/-- The task queue loses and doubles nothing. In every reachable state the functors ever
queued are, in queueing order, those already executed, then the rest of the running batch,
then `pendingFunctors_`; the executed ones are a prefix and ran on the loop thread; and until
the next `swap` nothing beyond the running batch is executed, so nothing queued meanwhile. -/
theorem task_queue_conserved (own : τ) (s : EventLoop τ φ)
    (hs : Machine.Reachable (step own) new s) :
    s.queued = s.done ++ s.pc.rest ++ s.pendingFunctors ∧ s.done <+: s.queued ∧
      (∀ e ∈ s.executed, e.1 = own) ∧
      ∀ ls t, Label.loop .swap ∉ ls → Machine.exec (step own) s ls = some t →
        t.done ++ t.pc.rest = s.done ++ s.pc.rest ∧
          t.done <+: s.queued.take (s.queued.length - s.pendingFunctors.length) := by
  have hinv : Conserved own s :=
    Machine.reachable_invariant ⟨rfl, by intro e he; cases he⟩
      (fun _ _ _ hs h => conserved_step hs h) hs
  refine ⟨hinv.queued, ?_, hinv.onLoopThread, ?_⟩
  · rw [hinv.queued, List.append_assoc]
    exact List.prefix_append _ _
  · intro ls t hls hrun
    have hdone := run_done_rest hls hrun
    refine ⟨hdone, ?_⟩
    -- what is not pending now is the executed part and the running batch
    have htake : s.queued.take (s.queued.length - s.pendingFunctors.length)
        = s.done ++ s.pc.rest := by
      rw [hinv.queued, List.length_append, Nat.add_sub_cancel, List.take_left]
    rw [htake, ← hdone]
    exact List.prefix_append _ _

/-- Thread 1 queues 7; the loop thread 0 polls, swaps and runs 7, which queues 8. -/
theorem task_queue_conserved_nested :
    ∃ s : EventLoop ℕ ℕ,
      Machine.Reachable (step 0) new s ∧ s.done = [7] ∧ s.pendingFunctors = [8] ∧
        s.queued = s.done ++ s.pc.rest ++ s.pendingFunctors := by
  have hrun : Machine.Reachable (step (0 : ℕ)) new _ :=
    ⟨[.call (.queueInLoop 1 7), .loop .enterLoop, .loop .testQuit, .loop (.pollReturn []),
      .loop .dispatch, .loop .swap, .loop .runFunctor, .call (.queueInLoop 0 8)], rfl⟩
  exact ⟨_, hrun, rfl, rfl, (task_queue_conserved 0 _ hrun).1⟩

/-! ## Wakeups -/

/-- `callingPendingFunctors_` is raised here. -/
def inFunctors : LoopPc φ → Bool
  | .swap | .batch _ | .functor _ => true
  | _ => false

/-- From here the loop thread reaches `poll` without a `swap`. -/
def beforePoll : LoopPc φ → Bool
  | .dispatch _ | .callback _ | .swap => false
  | _ => true

/-- Thread `th` has queued a functor and is still inside `queueInLoop`. -/
def InFlight (s : EventLoop τ φ) (th : τ) : Prop := s.calls th = .emplaced ∨ s.calls th = .wakeup

/-- The loop thread calls `queueInLoop` only from inside `loop()`. -/
def QueuesInsideLoop (own : τ) (s : EventLoop τ φ) : Label τ φ → Prop
  | .call (.queueInLoop th _) => th = own → s.pc ≠ .outside
  | _ => True

structure Awake (own : τ) (s : EventLoop τ φ) : Prop where
  /-- the loop thread is in a call only from a callback or a functor -/
  ownCall : s.calls own ≠ .idle → s.pc.userCode = true ∧ s.pc ≠ .outside
  calling : s.callingPendingFunctors = inFunctors s.pc
  covered : beforePoll s.pc = true → s.pendingFunctors ≠ [] →
    0 < s.wakeupCount ∨ ∃ th, s.InFlight th

omit [DecidableEq τ] in
theorem awake_new : Awake own (new : EventLoop τ φ) where
  ownCall := fun h => absurd rfl h
  calling := rfl
  covered := fun _ h => absurd rfl h

theorem eventfdWrite_pos (count : ℕ) : 0 < eventfdWrite count := by
  unfold eventfdWrite
  split <;> omega

theorem mayCall_idle {th : τ} (h : s.mayCall own th = true) : s.calls th = .idle := by
  rw [mayCall, Bool.and_eq_true] at h
  exact of_decide_eq_true h.1

theorem mayCall_own (h : s.mayCall own own = true) : s.pc.userCode = true := by
  simpa [mayCall] using (Bool.and_eq_true_iff.mp h).2

/-- A call of thread `th` that ends or goes on leaves every other thread in flight. -/
theorem inFlight_update {th th' : τ} (c : CallPc) (hne : th' ≠ th) (h : s.InFlight th') :
    Function.update s.calls th c th' = .emplaced ∨ Function.update s.calls th c th' = .wakeup := by
  rw [Function.update_of_ne hne]
  exact h

/-- `Awake.ownCall` after thread `th` moved to `c` in a call: only the loop thread's own move
has something to show. -/
theorem ownCall_update (hs : Awake own s) {th : τ} {c : CallPc}
    (hown : th = own → c ≠ .idle → s.pc.userCode = true ∧ s.pc ≠ .outside)
    (h : Function.update s.calls th c own ≠ .idle) : s.pc.userCode = true ∧ s.pc ≠ .outside := by
  by_cases heq : th = own
  · apply hown heq
    rw [heq, Function.update_self] at h
    exact h
  · apply hs.ownCall
    rw [Function.update_of_ne (Ne.symm heq)] at h
    exact h

/-- Queueing keeps the invariant, since the thread that queued is in flight. -/
theorem awake_emplace (hs : Awake own s) (th : τ) (f : φ)
    (hth : th = own → s.pc.userCode = true ∧ s.pc ≠ .outside) : Awake own (s.emplace th f) where
  ownCall := ownCall_update hs (fun hown _ => hth hown)
  calling := hs.calling
  covered := by
    intro _ _
    have hth : (s.emplace th f).calls th = .emplaced := Function.update_self ..
    exact Or.inr ⟨th, Or.inl hth⟩

/-- The condition before `wakeup()`: skipping the write is safe, because the loop thread is
then in a channel callback and will still come to the `swap`. -/
theorem awake_testWakeup (hs : Awake own s) (th : τ) (hcall : s.calls th = .emplaced) :
    Awake own
      { s with
        calls := Function.update s.calls th
          (if th ≠ own ∨ s.callingPendingFunctors then .wakeup else .idle) } where
  ownCall := by
    apply ownCall_update hs
    intro hown _
    apply hs.ownCall
    rw [← hown, hcall]
    exact CallPc.noConfusion
  calling := hs.calling
  covered := by
    intro hpc hne
    by_cases hw : th ≠ own ∨ s.callingPendingFunctors = true
    · rw [if_pos hw]
      exact Or.inr ⟨th, Or.inr (Function.update_self ..)⟩
    · rw [not_or, not_not] at hw
      obtain ⟨rfl, hcalling⟩ := hw
      have huser := hs.ownCall (by rw [hcall]; exact CallPc.noConfusion)
      rw [hs.calling] at hcalling
      -- user code inside `loop()`, but no functor: a callback, so `poll` is not next
      cases hp : s.pc <;> simp_all [LoopPc.userCode, inFunctors, beforePoll]

theorem awake_callTrans (hs : Awake own s) {c : Call τ φ} (h : CallTrans own s c t)
    (hc : QueuesInsideLoop own s (.call c)) : Awake own t := by
  cases h with
  | queueInLoop th f hmay =>
    apply awake_emplace hs
    intro hown
    subst hown
    exact ⟨mayCall_own hmay, hc rfl⟩
  | runQueued th f hmay hne => exact awake_emplace hs th f (fun hown => absurd hown hne)
  | runInline f => exact hs
  | testWakeup th hcall => exact awake_testWakeup hs th hcall
  | wakeup th =>
    refine ⟨?_, hs.calling, fun _ _ => Or.inl (eventfdWrite_pos _)⟩
    apply ownCall_update hs
    intro _ hc
    exact absurd rfl hc
  | quit th hmay =>
    have hidle := mayCall_idle hmay
    refine ⟨?_, hs.calling, ?_⟩
    · apply ownCall_update hs
      intro hown hc
      rw [if_neg (fun hne => hne hown)] at hc
      exact absurd rfl hc
    · intro hpc hne
      rcases hs.covered hpc hne with hpos | ⟨th', hflight⟩
      · exact Or.inl hpos
      · have hth' : th' ≠ th := by
          intro heq
          rw [heq, InFlight, hidle] at hflight
          rcases hflight with h | h <;> cases h
        exact Or.inr ⟨th', inFlight_update _ hth' hflight⟩

omit [DecidableEq τ] in
/-- The loop thread takes a step of `loop()` only with no call of its own under way. -/
theorem loopTrans_own_idle (hs : Awake own s) {l : LoopStep} (h : LoopTrans own s l t) :
    s.calls own = .idle := by
  by_contra hcall
  obtain ⟨huser, houtside⟩ := hs.ownCall hcall
  cases h with
  | enterLoop _ hidle | callbackReturn _ _ hidle | functorReturn _ _ hidle =>
    exact hcall hidle
  | leaveLoop hpc | enterPoll hpc | pollReturn _ hpc | handleRead _ hpc | callback _ hpc
  | doPendingFunctors hpc | swap hpc | runFunctor _ _ hpc | batchDone hpc =>
    rw [hpc] at huser
    exact Bool.noConfusion huser

omit [DecidableEq τ] in
theorem awake_loopTrans (hs : Awake own s) {l : LoopStep} (h : LoopTrans own s l t) :
    Awake own t := by
  have hidle := loopTrans_own_idle hs h
  have hcalls : t.calls own = .idle := by rw [(loopTrans_frame h).2.1, hidle]
  have hcalling := hs.calling
  refine ⟨fun hne => absurd hcalls hne, ?_, ?_⟩
  · -- the flag is raised on the way into `swap` and lowered on the way out of the batch
    cases h with
    | doPendingFunctors | batchDone => rfl
    | enterLoop hpc _ | leaveLoop hpc | enterPoll hpc | pollReturn _ hpc | handleRead _ hpc
    | callback _ hpc | callbackReturn _ hpc _ | swap hpc | runFunctor _ _ hpc
    | functorReturn _ hpc _ =>
      rw [hpc] at hcalling
      exact hcalling
  · intro hbefore hne
    have hcovered := hs.covered
    cases h with
    | swap => exact absurd rfl hne
    | pollReturn | handleRead | callback | doPendingFunctors | callbackReturn =>
      exact Bool.noConfusion hbefore
    | enterLoop hpc _ | leaveLoop hpc | enterPoll hpc | runFunctor _ _ hpc | batchDone hpc
    | functorReturn _ hpc _ =>
      rw [hpc] at hcovered
      exact hcovered rfl hne

theorem awake_step (hs : Awake own s) {l : Label τ φ} (hl : QueuesInsideLoop own s l)
    (h : s.step own l = some t) : Awake own t := by
  cases l with
  | call c => exact awake_callTrans hs (callStep_trans h) hl
  | loop l => exact awake_loopTrans hs (loopStep_trans h)

/-- No wakeup is lost. In every run in which the loop thread queues only from inside `loop()`,
whenever it waits in `poll` with functors pending, the eventfd counter is positive or another
thread stands between its `emplace_back` and its `wakeup()`. -/
theorem no_lost_wakeup (own : τ) (ls : List (Label τ φ)) (s : EventLoop τ φ)
    (hrun : Machine.exec (step own) new ls = some s)
    (hcalls : Machine.Along (step own) (QueuesInsideLoop own) new ls)
    (hpoll : s.pc = .poll) (hne : s.pendingFunctors ≠ []) :
    0 < s.wakeupCount ∨ ∃ th, th ≠ own ∧ (s.calls th = .emplaced ∨ s.calls th = .wakeup) := by
  have hs : Awake own s :=
    Machine.exec_invariant_along (fun _ _ _ hs hl h => awake_step hs hl h) awake_new hcalls hrun
  rcases hs.covered (by rw [hpoll]; rfl) hne with hpos | ⟨th, hflight⟩
  · exact Or.inl hpos
  · refine Or.inr ⟨th, ?_, hflight⟩
    intro hown
    subst hown
    have hcall : s.calls th ≠ .idle := by
      intro hidle
      rw [InFlight, hidle] at hflight
      rcases hflight with h | h <;> cases h
    have huser := (hs.ownCall hcall).1
    rw [hpoll] at huser
    exact Bool.noConfusion huser

/-- Thread 1 has queued 7 while thread 0 waits in `poll`, and has not written the eventfd. -/
theorem no_lost_wakeup_in_flight :
    ∃ s : EventLoop ℕ ℕ,
      Machine.exec (step 0) new
        [.loop .enterLoop, .loop .testQuit, .call (.queueInLoop 1 7)] = some s ∧
      s.pc = .poll ∧ s.pendingFunctors = [7] ∧ s.wakeupCount = 0 ∧
      (0 < s.wakeupCount ∨ ∃ th, th ≠ 0 ∧ (s.calls th = .emplaced ∨ s.calls th = .wakeup)) := by
  have hrun : Machine.exec (step (0 : ℕ)) new
      [.loop .enterLoop, .loop .testQuit, .call (.queueInLoop 1 7)] = some _ := rfl
  refine ⟨_, hrun, rfl, rfl, rfl, no_lost_wakeup 0 _ _ hrun ?_ rfl (List.cons_ne_nil _ _)⟩
  -- only the last step queues, and thread 1 is not the loop thread
  intro t _
  refine ⟨trivial, fun u _ => ⟨trivial, fun v _ => ⟨?_, trivial⟩⟩⟩
  intro hown
  exact absurd hown Nat.one_ne_zero

end EventLoop
end Webservers
