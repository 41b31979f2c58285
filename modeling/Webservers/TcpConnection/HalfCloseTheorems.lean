import Webservers.TcpConnection.Interleaving

/-!
# Does the half-close wait for the data?

`shutdownInLoop` closes the write side as soon as the channel does not wait for `EPOLLOUT`, which
its comment takes to mean that there is nothing left to send. Three places run it: the functor
that `shutdown` queues, `shutdown` itself on the loop thread, and the tail of `handleWrite`.

* `Numbered`: `pendingFunctors_` is first in, first out, so a queued `shutdownInLoop` comes after
  the messages of its scope. Nothing of the kind holds for the other two places.
* `Pending`: the interest bit mirrors `outputBuffer_` until the connection is closed with bytes
  in it; from then on it says nothing.
-/

namespace Webservers

theorem Buffer.readableBytes_retrieve_eq_zero (b : Buffer) (n : ℕ) :
    (b.retrieve n).readableBytes = 0 ↔ b.readableBytes ≤ n := by
  unfold retrieve
  split
  · rename_i hlt
    simp only [readableBytes] at hlt ⊢
    omega
  · rename_i hle
    simp only [retrieveAll, readableBytes, Nat.sub_self, true_iff] at hle ⊢
    omega

namespace TcpConnection

/-- `handleWrite` empties `outputBuffer_`. -/
def Flushes (c : TcpConnection) (r : WriteResult) : Prop :=
  c.channel.isWriting = true ∧ ∃ n, r = .wrote n ∧ 0 < n ∧ c.outputBuffer.readableBytes ≤ n

theorem shutdownWrite_handleWrite (c : TcpConnection) (r : WriteResult) :
    Effect.shutdownWrite ∈ (c.handleWrite r).2 ↔ Flushes c r ∧ c.state = .kDisconnecting := by
  unfold handleWrite Flushes
  by_cases hw : c.channel.isWriting = true
  · simp only [hw, if_true, true_and]
    cases r with
    | failed e => simp
    | wrote n =>
      simp only [WriteResult.wrote.injEq, exists_eq_left']
      by_cases hn : 0 < n
      · rw [if_pos hn]
        by_cases hempty : (c.outputBuffer.retrieve n).readableBytes = 0
        · have hle := (Buffer.readableBytes_retrieve_eq_zero _ _).mp hempty
          rw [if_pos hempty]
          by_cases hd : c.state = .kDisconnecting
          · simp [hd, hn, hle, shutdownInLoop]
          · rw [if_neg hd]
            split <;> simp [hd]
        · have hgt := mt (Buffer.readableBytes_retrieve_eq_zero _ _).mpr hempty
          simp [if_neg hempty, hgt]
      · simp [hn]
  · simp [hw]

theorem flushes_empty {c : TcpConnection} {r : WriteResult} (h : Flushes c r) :
    (c.handleWrite r).1.outputBuffer.readableBytes = 0 := by
  obtain ⟨hw, n, rfl, hn, hle⟩ := h
  have hempty := (Buffer.readableBytes_retrieve_eq_zero _ _).mpr hle
  unfold handleWrite
  simp only [hw, if_true, if_pos hn, if_pos hempty]
  split
  · exact hempty
  · exact hempty

/-- With bytes in `outputBuffer_`, `sendInLoop` does not write and so keeps nothing. -/
theorem sendInLoop_pending {c : TcpConnection} (h : 0 < c.outputBuffer.readableBytes)
    (message : List UInt8) (r : WriteResult) : (c.sendInLoop message r).1 = c := by
  have hbusy : ¬ (¬ c.channel.isWriting = true ∧ c.outputBuffer.readableBytes = 0) := by
    rintro ⟨-, hzero⟩
    omega
  unfold sendInLoop
  by_cases hdown : c.state = .kDisconnected
  · rw [if_pos hdown]
  · simp only [if_neg hdown, if_neg hbusy, Bool.false_eq_true, false_and, if_false]

/-- `g` may stand behind `f` in the queue: no message behind a `shutdownInLoop` that should have
waited for it. -/
def Task.Then : Task → Task → Prop
  | .shutdownInLoop scope, .sendInLoop id _ => id ∉ scope
  | _, _ => True

/-- A `shutdownInLoop` waits only for messages that have a number. -/
def Task.Below (n : ℕ) : Task → Prop
  | .sendInLoop _ _ => True
  | .shutdownInLoop scope => ∀ id ∈ scope, id < n

def CallerPc.Below (n : ℕ) : CallerPc → Prop
  | .sendQueued id => id < n
  | .shutdownLoaded scope | .shutdownStored scope => ∀ id ∈ scope, id < n
  | .idle | .sendLoaded _ | .shutdownQueued => True

theorem Task.Below.succ {n : ℕ} {f : Task} (h : f.Below n) : f.Below (n + 1) := by
  cases f with
  | sendInLoop id len => trivial
  | shutdownInLoop scope => exact fun id hid => Nat.lt_succ_of_lt (h id hid)

theorem CallerPc.Below.succ {n : ℕ} {pc : CallerPc} (h : pc.Below n) : pc.Below (n + 1) := by
  cases pc with
  | idle | sendLoaded | shutdownQueued => trivial
  | sendQueued id => exact Nat.lt_succ_of_lt h
  | shutdownLoaded scope | shutdownStored scope => exact fun id hid => Nat.lt_succ_of_lt (h id hid)

namespace SharedConn

variable {τ : Type*} {s t : SharedConn τ}

/-- Every `shutdownWrite()` so far came after the messages it answers for, and with
`outputBuffer_` empty. -/
def DataFirst (s : SharedConn τ) : Prop :=
  ∀ h ∈ s.halfCloses, h.waiting = [] ∧ h.output = 0

/-- The loop thread half-closes by itself, in `shutdown` or in `handleWrite`, only when no message
that was to go first is queued; and a queued `shutdownInLoop` does not meet a connection that was
closed with output pending. -/
def DataFirstOk (s : SharedConn τ) : ThreadStep τ → Prop
  | .proceed _ => ∀ scope, s.pc = .shutdownCalled scope →
      0 < s.conn.outputBuffer.readableBytes ∨ waiting s.queue scope = []
  | .own (.handleWrite r) => Flushes s.conn r → s.conn.state = .kDisconnecting →
      waiting s.queue s.storedScope = []
  | .own (.runFunctor _ _) => ∀ scope q, s.queue.next = some (.shutdownInLoop scope, q) →
      s.abandoned = false
  | _ => True

/-! ## The order of the queue -/

structure Numbered (s : SharedConn τ) : Prop where
  fifo : s.queue.all.Pairwise Task.Then
  tasks : ∀ f ∈ s.queue.all, f.Below s.nextId
  calls : ∀ th, (s.calls th).Below s.nextId
  returned : ∀ id ∈ s.returned, id < s.nextId

theorem numbered_start (c : TcpConnection) : Numbered (start c : SharedConn τ) where
  fifo := List.Pairwise.nil
  tasks _ hf := absurd hf List.not_mem_nil
  calls _ := trivial
  returned _ hid := absurd hid List.not_mem_nil

/-- A step that calls nothing and at most takes functors from the queue. -/
theorem Numbered.frame (h : Numbered s) (hqueue : t.queue.all.Sublist s.queue.all)
    (hcalls : t.calls = s.calls) (hnext : t.nextId = s.nextId)
    (hreturned : t.returned = s.returned) : Numbered t where
  fifo := h.fifo.sublist hqueue
  tasks f hf := hnext ▸ h.tasks f (hqueue.subset hf)
  calls th := by
    rw [hcalls, hnext]
    exact h.calls th
  returned := by
    rw [hreturned, hnext]
    exact h.returned

theorem Numbered.setCall [DecidableEq τ] (h : Numbered s) (th : τ) {pc : CallerPc}
    (hpc : pc.Below s.nextId) : Numbered (s.setCall th pc) where
  fifo := h.fifo
  tasks := h.tasks
  calls th' := by
    show (Function.update s.calls th pc th').Below s.nextId
    by_cases heq : th' = th
    · subst heq
      rw [Function.update_self]
      exact hpc
    · rw [Function.update_of_ne heq]
      exact h.calls th'
  returned := h.returned

/-- The number of the next message is in no scope so far. -/
theorem Numbered.emplace_sendInLoop (h : Numbered s) (len : ℕ) :
    Numbered { s with
      queue := s.queue.emplace (.sendInLoop s.nextId len)
      nextId := s.nextId + 1 } where
  fifo := by
    rw [TaskQueue.all_emplace, List.pairwise_append]
    refine ⟨h.fifo, List.pairwise_singleton _ _, fun f hf g hg => ?_⟩
    rw [List.mem_singleton.mp hg]
    cases f with
    | sendInLoop => trivial
    | shutdownInLoop scope => exact fun hid => Nat.lt_irrefl _ (h.tasks _ hf _ hid)
  tasks f hf := by
    rw [TaskQueue.all_emplace, List.mem_append, List.mem_singleton] at hf
    rcases hf with hf | rfl
    · exact (h.tasks f hf).succ
    · trivial
  calls th := (h.calls th).succ
  returned id hid := Nat.lt_succ_of_lt (h.returned id hid)

theorem Numbered.emplace_shutdownInLoop (h : Numbered s) {scope : List ℕ}
    (hscope : ∀ id ∈ scope, id < s.nextId) :
    Numbered { s with queue := s.queue.emplace (.shutdownInLoop scope) } where
  fifo := by
    rw [TaskQueue.all_emplace, List.pairwise_append]
    refine ⟨h.fifo, List.pairwise_singleton _ _, fun f _ g hg => ?_⟩
    rw [List.mem_singleton.mp hg]
    cases f <;> trivial
  tasks f hf := by
    rw [TaskQueue.all_emplace, List.mem_append, List.mem_singleton] at hf
    rcases hf with hf | rfl
    · exact h.tasks f hf
    · exact hscope
  calls := h.calls
  returned := h.returned

theorem Numbered.below (h : Numbered s) {th : τ} {pc : CallerPc} (hcall : s.calls th = pc) :
    pc.Below s.nextId :=
  hcall ▸ h.calls th

theorem Numbered.step [DecidableEq τ] (h : Numbered s) {a : ThreadStep τ}
    (ha : s.step a = some t) : Numbered t := by
  cases step_trans ha with
  | refused => exact h
  | sendLoad th len => exact h.setCall th trivial
  | shutdownLoad th => exact h.setCall th h.returned
  | sendEmplace th len => exact (h.emplace_sendInLoop len).setCall th (Nat.lt_succ_self _)
  | sendReturn hcall =>
    rename_i th id
    have hid : id < s.nextId := h.below hcall
    have hidle := h.setCall th (show CallerPc.Below s.nextId .idle from trivial)
    exact ⟨hidle.fifo, hidle.tasks, hidle.calls, List.forall_mem_cons.mpr ⟨hid, h.returned⟩⟩
  | shutdownStore hcall =>
    rename_i th scope
    have hscope : CallerPc.Below s.nextId (.shutdownLoaded scope) := h.below hcall
    have hstored : CallerPc.Below s.nextId (.shutdownStored scope) := hscope
    exact (h.setCall th hstored).frame (List.Sublist.refl _) rfl rfl rfl
  | shutdownEmplace hcall =>
    rename_i th scope
    have hscope : ∀ id ∈ scope, id < s.nextId := h.below hcall
    exact (h.emplace_shutdownInLoop hscope).setCall th trivial
  | shutdownReturn th => exact h.setCall th trivial
  | swap hq =>
    exact h.frame (hq ▸ List.Sublist.refl _) rfl rfl rfl
  | sendInLoop message r hpc hq => exact h.frame hq rfl rfl rfl
  | shutdownInLoop hpc hq =>
    refine h.frame ?_ rfl rfl rfl
    rw [TaskQueue.all_next hq]
    exact List.sublist_cons_self _ _
  | connectionEstablished | handleRead | close | handleWrite | destroy | sendCalled
  | shutdownCalled | shutdownProceeds =>
    exact h.frame (List.Sublist.refl _) rfl rfl rfl

/-- When a queued `shutdownInLoop` is run, the messages of its scope have been. -/
theorem Numbered.waiting_next (h : Numbered s) {scope : List ℕ} {q : TaskQueue Task}
    (hq : s.queue.next = some (.shutdownInLoop scope, q)) : waiting q scope = [] := by
  have hfifo := h.fifo
  rw [TaskQueue.all_next hq, List.pairwise_cons] at hfifo
  apply List.filterMap_eq_nil_iff.mpr
  intro f hf
  cases f with
  | sendInLoop id len => exact if_neg (hfifo.1 _ hf)
  | shutdownInLoop scope => rfl

/-! ## The output -/

/-- What the interest bit says about `outputBuffer_`. -/
structure Pending (s : SharedConn τ) : Prop where
  ordered : s.conn.outputBuffer.Ordered
  mirrored : s.abandoned = false →
    (s.conn.channel.isWriting = true ↔ 0 < s.conn.outputBuffer.readableBytes)
  /-- abandoned output stays where it is, and nobody finds `kConnected` again except inside
  `connnectionDestroyed` -/
  abandoned : s.abandoned = true →
    s.conn.channel.isWriting = false ∧ 0 < s.conn.outputBuffer.readableBytes ∧
      (s.conn.state = .kDisconnecting ∨ s.conn.state = .kDisconnected ∨ s.pc = .destroying)
  called : ∀ scope, s.pc = .shutdownCalled scope → s.abandoned = false

theorem pending_start (writeComplete highWater : Bool) (highWaterMark : ℕ) :
    Pending (start (new writeComplete highWater highWaterMark) : SharedConn τ) where
  ordered := (mirrored_new writeComplete highWater highWaterMark).ordered
  mirrored _ := (mirrored_new writeComplete highWater highWaterMark).isWriting_iff (by simp [new])
  abandoned h := by cases h
  called _ h := by cases h

/-- On a connection that is up and between two functions, no output was abandoned. -/
theorem Pending.not_abandoned (h : Pending s) (hpc : s.pc ≠ .destroying)
    (hstate : s.conn.state = .kConnecting ∨ s.conn.state = .kConnected) :
    s.abandoned = false := by
  rw [← Bool.not_eq_true]
  intro hab
  rcases (h.abandoned hab).2.2 with hs | hs | hd
  · rw [hs] at hstate
    rcases hstate with h | h <;> cases h
  · rw [hs] at hstate
    rcases hstate with h | h <;> cases h
  · exact hpc hd

theorem Pending.of_not_abandoned (hab : t.abandoned = false)
    (hordered : t.conn.outputBuffer.Ordered)
    (hmirrored : t.conn.channel.isWriting = true ↔ 0 < t.conn.outputBuffer.readableBytes) :
    Pending t where
  ordered := hordered
  mirrored _ := hmirrored
  abandoned h := by
    rw [hab] at h
    cases h
  called _ _ := hab

/-- A step that leaves the connection and the loop thread where they are. -/
theorem Pending.frame (h : Pending s) (hconn : t.conn = s.conn) (hpc : t.pc = s.pc)
    (hab : t.abandoned = s.abandoned) : Pending t where
  ordered := by
    rw [hconn]
    exact h.ordered
  mirrored := by
    rw [hconn, hab]
    exact h.mirrored
  abandoned := by
    rw [hconn, hab, hpc]
    exact h.abandoned
  called := by
    rw [hpc, hab]
    exact h.called

/-- The end of a function that keeps the state and wipes no interest. -/
theorem Pending.finish (h : Pending s) (hpc : s.pc ≠ .destroying) (hidle : t.pc = .idle)
    (hab : t.abandoned = s.abandoned) (hstate : t.conn.state = s.conn.state)
    (hordered : t.conn.outputBuffer.Ordered)
    (hmirrored : (s.conn.channel.isWriting = true ↔ 0 < s.conn.outputBuffer.readableBytes) →
      (t.conn.channel.isWriting = true ↔ 0 < t.conn.outputBuffer.readableBytes))
    (hkeep : s.conn.channel.isWriting = false → 0 < s.conn.outputBuffer.readableBytes →
      t.conn.channel = s.conn.channel ∧ t.conn.outputBuffer = s.conn.outputBuffer) :
    Pending t where
  ordered := hordered
  mirrored h' := hmirrored (h.mirrored (hab ▸ h'))
  abandoned h' := by
    obtain ⟨hnot, hpos, hs⟩ := h.abandoned (hab ▸ h')
    obtain ⟨hchannel, hbuffer⟩ := hkeep hnot hpos
    rw [hchannel, hbuffer, hstate]
    refine ⟨hnot, hpos, ?_⟩
    rcases hs with hs | hs | hd
    · exact .inl hs
    · exact .inr (.inl hs)
    · exact absurd hd hpc
  called scope hcalled := by
    rw [hidle] at hcalled
    cases hcalled

theorem Pending.step [DecidableEq τ] (h : Pending s) {a : ThreadStep τ}
    (ha : s.step a = some t) : Pending t := by
  cases step_trans ha with
  | refused => exact h
  | sendLoad | shutdownLoad | sendEmplace | sendReturn | shutdownEmplace | shutdownReturn =>
    exact h.frame rfl rfl rfl
  | swap => exact h.frame rfl rfl rfl
  | shutdownStore hcall =>
    refine ⟨h.ordered, h.mirrored, fun hab => ?_, h.called⟩
    obtain ⟨hnot, hpos, -⟩ := h.abandoned hab
    exact ⟨hnot, hpos, .inl rfl⟩
  | connectionEstablished hpc hstate =>
    have hab := h.not_abandoned (by simp [hpc]) (.inl hstate)
    refine .of_not_abandoned hab h.ordered ?_
    show s.conn.channel.enableReading.isWriting = true ↔ _
    rw [Channel.isWriting_enableReading]
    exact h.mirrored hab
  | handleRead b hpc hopen =>
    exact h.finish (by simp [hpc]) rfl rfl rfl h.ordered id fun _ _ => ⟨rfl, rfl⟩
  | close hp =>
    rename_i p
    have hnot : p.1.channel.isWriting = false := by
      rw [Channel.isWriting, hp.events]
      decide
    have hbuffer : (s.close p).conn.outputBuffer = s.conn.outputBuffer := hp.outputBuffer
    constructor
    · rw [hbuffer]
      exact h.ordered
    · intro hab
      simp only [SharedConn.close, Bool.or_eq_false_iff, decide_eq_false_iff_not] at hab
      rw [hbuffer, show (s.close p).conn.channel.isWriting = false from hnot]
      simp [hab.2]
    · intro hab
      refine ⟨hnot, ?_, .inr (.inl hp.state)⟩
      rw [hbuffer]
      simp only [SharedConn.close, Bool.or_eq_true, decide_eq_true_eq] at hab
      rcases hab with hab | hpos
      · exact (h.abandoned hab).2.1
      · exact hpos
    · intro scope hcalled
      cases hcalled
  | handleWrite r hpc =>
    refine h.finish (by simp [hpc]) rfl rfl (handleWrite_state s.conn r)
      (ordered_handleWrite h.ordered r) (isWriting_iff_handleWrite · r) fun hnot _ => ?_
    have hsame : (s.conn.handleWrite r).1 = s.conn := by rw [handleWrite_notWriting hnot]
    exact ⟨congrArg TcpConnection.channel hsame, congrArg TcpConnection.outputBuffer hsame⟩
  | destroy hpc hstate =>
    refine ⟨h.ordered, h.mirrored, fun hab => ?_, fun _ hcalled => by cases hcalled⟩
    obtain ⟨hnot, hpos, -⟩ := h.abandoned hab
    exact ⟨hnot, hpos, .inr (.inr rfl)⟩
  | sendCalled message hpc hstate =>
    have hab := h.not_abandoned (by simp [hpc]) (.inr hstate)
    exact .of_not_abandoned hab h.ordered (h.mirrored hab)
  | shutdownCalled hpc hstate =>
    have hab := h.not_abandoned (by simp [hpc]) (.inr hstate)
    exact .of_not_abandoned hab h.ordered (h.mirrored hab)
  | sendInLoop message r hpc hq =>
    refine h.finish hpc rfl rfl (sendInLoop_state s.conn message r)
      (ordered_sendInLoop h.ordered message r)
      (isWriting_iff_sendInLoop h.ordered · message r) fun _ hpos => ?_
    have hsame := sendInLoop_pending hpos message r
    exact ⟨congrArg TcpConnection.channel hsame, congrArg TcpConnection.outputBuffer hsame⟩
  | shutdownInLoop hpc hq =>
    exact h.finish (by simp [hpc]) rfl rfl rfl h.ordered id fun _ _ => ⟨rfl, rfl⟩
  | shutdownProceeds hpc =>
    have hab := h.called _ hpc
    exact .of_not_abandoned hab h.ordered (h.mirrored hab)

/-! ## The half-closes -/

/-- A function keeps the data first when its `shutdownWrite()`, if any, does. -/
theorem dataFirst_act (stored : List StateE) (writes : Bool) {scope : List ℕ}
    {p : TcpConnection × List Effect} :
    DataFirst (s.act stored writes scope p) ↔
      DataFirst s ∧ (Effect.shutdownWrite ∈ p.2 →
        waiting s.queue scope = [] ∧ p.1.outputBuffer.readableBytes = 0) := by
  unfold DataFirst act
  simp only
  rw [List.forall_mem_append]
  refine and_congr_right fun _ => ?_
  by_cases hmem : Effect.shutdownWrite ∈ p.2
  · simp [hmem]
  · simp [hmem]

theorem shutdownWrite_shutdownInLoop (c : TcpConnection) :
    Effect.shutdownWrite ∈ c.shutdownInLoop.2 ↔ c.channel.isWriting = false := by
  unfold TcpConnection.shutdownInLoop
  cases h : c.channel.isWriting with
  | true => simp
  | false => simp

/-- Without write interest there is no output, on a connection whose output was not abandoned. -/
theorem Pending.empty (h : Pending s) (hab : s.abandoned = false)
    (hnot : s.conn.channel.isWriting = false) : s.conn.outputBuffer.readableBytes = 0 := by
  have hiff := h.mirrored hab
  rw [hnot] at hiff
  simpa using hiff

theorem DataFirst.step [DecidableEq τ] (h : DataFirst s) (hnum : Numbered s) (hpend : Pending s)
    {a : ThreadStep τ} (ha : s.step a = some t) (hok : DataFirstOk s a) : DataFirst t := by
  cases step_trans ha with
  | refused => exact h
  | sendLoad | shutdownLoad | sendEmplace | sendReturn | shutdownStore | shutdownEmplace
  | shutdownReturn => exact h
  | destroy | sendCalled | shutdownCalled | swap => exact h
  | connectionEstablished hpc hstate =>
    refine (dataFirst_act _ _).mpr ⟨h, fun hmem => ?_⟩
    simp [TcpConnection.connectionEstablished] at hmem
  | handleRead b hpc hopen => exact (dataFirst_act _ _).mpr ⟨h, fun hmem => absurd hmem hopen⟩
  | close hp =>
    exact (dataFirst_act [.kDisconnected] false).mpr
      ⟨h, fun hmem => absurd hmem hp.shutdownWrite⟩
  | sendInLoop message r hpc hq =>
    exact (dataFirst_act _ _).mpr
      ⟨h, fun hmem => absurd hmem (shutdownWrite_sendInLoop s.conn message r)⟩
  | handleWrite r hpc =>
    refine (dataFirst_act _ _).mpr ⟨h, fun hmem => ?_⟩
    obtain ⟨hflush, hstate⟩ := (shutdownWrite_handleWrite s.conn r).mp hmem
    exact ⟨hok hflush hstate, flushes_empty hflush⟩
  | shutdownInLoop hpc hq =>
    refine (dataFirst_act _ _).mpr ⟨h, fun hmem => ?_⟩
    have hnot := (shutdownWrite_shutdownInLoop s.conn).mp hmem
    exact ⟨hnum.waiting_next hq, hpend.empty (hok _ _ hq) hnot⟩
  | shutdownProceeds hpc =>
    refine (dataFirst_act [.kDisconnecting] false).mpr ⟨h, fun hmem => ?_⟩
    have hnot := (shutdownWrite_shutdownInLoop (s.conn.setState .kDisconnecting)).mp hmem
    have hempty := hpend.empty (hpend.called _ hpc) hnot
    rcases hok _ hpc with hpos | hwaiting
    · omega
    · exact ⟨hwaiting, hempty⟩

/-- The half-closes that overtake data, from a state in which none has. -/
theorem DataFirst.stepOk [DecidableEq τ] (hpend : Pending s) {a : ThreadStep τ}
    (ha : s.step a = some t) (ht : DataFirst t) : DataFirstOk s a := by
  cases a with
  | proceed r =>
    intro scope hpc
    simp only [SharedConn.step, proceed, hpc, Option.some.injEq] at ha
    subst ha
    by_cases hpos : 0 < s.conn.outputBuffer.readableBytes
    · exact .inl hpos
    · have hnot : s.conn.channel.isWriting = false := by
        rw [← Bool.not_eq_true]
        exact fun hw => hpos ((hpend.mirrored (hpend.called _ hpc)).mp hw)
      have hmem := (shutdownWrite_shutdownInLoop (s.conn.setState .kDisconnecting)).mpr hnot
      exact .inr (((dataFirst_act [.kDisconnecting] false).mp ht).2 hmem).1
  | own a =>
    simp only [SharedConn.step, ownStep, Option.ite_none_right_eq_some] at ha
    obtain ⟨-, ha⟩ := ha
    cases a with
    | handleWrite r =>
      intro hflush hstate
      cases ha
      have hmem := (shutdownWrite_handleWrite s.conn r).mpr ⟨hflush, hstate⟩
      exact (((dataFirst_act _ _).mp ht).2 hmem).1
    | runFunctor found r =>
      intro scope q hq
      simp only [ownCall, hq, Option.bind_some, runTask, Option.some.injEq] at ha
      subst ha
      rw [← Bool.not_eq_true]
      intro hab
      obtain ⟨hnot, hpos, -⟩ := hpend.abandoned hab
      have hmem := (shutdownWrite_shutdownInLoop s.conn).mpr hnot
      have hempty := (((dataFirst_act _ _).mp ht).2 hmem).2
      exact absurd hempty (Nat.pos_iff_ne_zero.mp hpos)
    | connectionEstablished | handleRead | handleClose | connnectionDestroyed | send | shutdown
    | swap => trivial
  | send | shutdown | advance => trivial

/-- For any number of threads that call `send` and `shutdown` on a connection in any order with the
steps of its loop, every `shutdownWrite()` finds the messages it should wait for executed and
`outputBuffer_` empty, exactly in the runs whose steps all meet `DataFirstOk`. -/
theorem half_close_after_data_iff [DecidableEq τ] (writeComplete highWater : Bool)
    (highWaterMark : ℕ) (as : List (ThreadStep τ)) :
    Machine.Always SharedConn.step DataFirst
        (start (new writeComplete highWater highWaterMark)) as ↔
      Machine.Along SharedConn.step DataFirstOk
        (start (new writeComplete highWater highWaterMark)) as := by
  apply Machine.always_iff_along (K := fun s => DataFirst s ∧ Numbered s ∧ Pending s)
  · exact fun s hs => hs.1
  · rintro s a t ⟨hfirst, hnum, hpend⟩ ha hok
    exact ⟨hfirst.step hnum hpend ha hok, hnum.step ha, hpend.step ha⟩
  · rintro s a t ⟨-, -, hpend⟩ ha ht
    exact DataFirst.stepOk hpend ha ht
  · refine ⟨fun h hmem => absurd hmem List.not_mem_nil, numbered_start _, ?_⟩
    exact pending_start writeComplete highWater highWaterMark

/-- A message that another thread sent waits in the queue when a callback on the loop thread calls
`shutdown`, which half-closes at once. -/
theorem shutdown_overtakes_send :
    ¬ Machine.Always SharedConn.step DataFirst
      (start (new true true defaultHighWaterMark) : SharedConn Unit)
      [.own .connectionEstablished, .send () 2, .advance (), .advance (), .own .shutdown,
        .proceed (.wrote 0)] := by
  intro h
  have hlast : (Machine.exec SharedConn.step
      (start (new true true defaultHighWaterMark) : SharedConn Unit)
      [.own .connectionEstablished, .send () 2, .advance (), .advance (), .own .shutdown,
        .proceed (.wrote 0)]).map halfCloses = some [⟨[0], 0⟩] := by
    decide +kernel
  obtain ⟨s, hs, hclose⟩ := Option.map_eq_some_iff.mp hlast
  have hwaiting := (h.last hs ⟨[0], 0⟩ (by simp [hclose])).1
  cases hwaiting

end SharedConn
end TcpConnection
end Webservers
