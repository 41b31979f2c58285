import Webservers.TcpConnection.Interleaving

/-!
# Does the state move forward only?

The guards of `sendInLoop` and `handleWrite` are written for a state that goes from `kConnecting`
to `kDisconnected` and never back. `Forward` is that, over the stores of all threads, together with
what the guards are for: nothing is written and no event is waited for after `kDisconnected`.

Two stores can go back. `shutdown` tests `state_` and stores `kDisconnecting` in two steps, so
the connection may be closed between them; and the condition of `connnectionDestroyed` is an
assignment, which stores `kConnected` whatever the state was.
-/

namespace Webservers

/-- The order in which a connection goes through its states. -/
def StateE.rank : StateE → ℕ
  | .kConnecting => 0
  | .kConnected => 1
  | .kDisconnecting => 2
  | .kDisconnected => 3

theorem StateE.eq_kDisconnected_of_rank {x : StateE} (h : StateE.kDisconnected.rank ≤ x.rank) :
    x = .kDisconnected := by
  cases x with
  | kDisconnected => rfl
  | kConnecting | kConnected | kDisconnecting => exact absurd h (by decide)

theorem StateE.rank_le_kDisconnected (x : StateE) : x.rank ≤ StateE.kDisconnected.rank := by
  cases x <;> decide

theorem StateE.rank_le_kDisconnecting {x : StateE} (h : x ≠ .kDisconnected) :
    x.rank ≤ StateE.kDisconnecting.rank := by
  cases x with
  | kDisconnected => exact absurd rfl h
  | kConnecting | kConnected | kDisconnecting => decide

namespace TcpConnection

/-- `b` may come some time after `a`. -/
def Access.Then : Access → Access → Prop
  | .store x, .store y => x.rank ≤ y.rank
  | .store x, .write | .store x, .enable => x ≠ .kDisconnected
  | _, _ => True

namespace SharedConn

variable {τ : Type*} {s t : SharedConn τ}

/-- The stores never go back, and after `kDisconnected` nothing else is done. -/
structure Forward (s : SharedConn τ) : Prop where
  forward : s.trace.Pairwise Access.Then
  stays : Access.store .kDisconnected ∈ s.trace → s.conn.state = .kDisconnected

/-- A caller's store does not hit a disconnected connection, and `connnectionDestroyed` does not
begin on one that was shut down or closed. -/
def ForwardOk (s : SharedConn τ) : ThreadStep τ → Prop
  | .advance th => ∀ scope, s.calls th = .shutdownLoaded scope → s.conn.state ≠ .kDisconnected
  | .own .connnectionDestroyed => s.conn.state.rank ≤ StateE.kConnected.rank
  | _ => True

/-! ## The trace of a step -/

theorem touched_other {writes : Bool} {ch ch' : Channel} {a : Access}
    (h : a ∈ touched writes ch ch') : a = .write ∨ a = .enable := by
  unfold touched at h
  rcases List.mem_append.mp h with h | h
  · split at h
    · exact .inl (List.mem_singleton.mp h)
    · exact absurd h List.not_mem_nil
  · split at h
    · exact .inr (List.mem_singleton.mp h)
    · exact absurd h List.not_mem_nil

theorem touched_same {ch ch' : Channel} (h : ch'.events = ch.events) :
    touched false ch ch' = [] := by
  simp [touched, gained, h]

theorem touched_none {ch ch' : Channel} (h : ch'.events = Channel.kNoneEvent) :
    touched false ch ch' = [] := by
  simp [touched, gained, h, Channel.kNoneEvent]

/-- A disconnected connection is left alone by `sendInLoop`. -/
theorem touched_sendInLoop {c : TcpConnection} (h : c.state = .kDisconnected)
    (message : List UInt8) (r : WriteResult) :
    touched (writesDirectly c) c.channel (c.sendInLoop message r).1.channel = [] := by
  have hnot : writesDirectly c = false := by simp [writesDirectly, h]
  rw [hnot, sendInLoop_disconnected h]
  exact touched_same rfl

/-- So is a connection that does not wait for `EPOLLOUT` by `handleWrite`. -/
theorem touched_handleWrite {c : TcpConnection} (h : c.channel.isWriting = false)
    (r : WriteResult) :
    touched c.channel.isWriting c.channel (c.handleWrite r).1.channel = [] := by
  rw [h, handleWrite_notWriting h]
  exact touched_same rfl

/-! ## Whole runs -/

/-- `Forward`, with what the loop thread's guards need. -/
structure Advancing (s : SharedConn τ) : Prop where
  forward : s.trace.Pairwise Access.Then
  rank_le : ∀ x, Access.store x ∈ s.trace → x.rank ≤ s.conn.state.rank
  stored : Access.store s.conn.state ∈ s.trace
  down : s.conn.state = .kDisconnected → s.pc = .idle ∧ s.conn.channel.isWriting = false

theorem Advancing.toForward (h : Advancing s) : Forward s where
  forward := h.forward
  stays hmem := StateE.eq_kDisconnected_of_rank (h.rank_le _ hmem)

theorem advancing_start (writeComplete highWater : Bool) (highWaterMark : ℕ) :
    Advancing (start (new writeComplete highWater highWaterMark) : SharedConn τ) where
  forward := List.pairwise_singleton _ _
  rank_le x hx := by
    rw [start, List.mem_singleton, Access.store.injEq] at hx
    exact hx ▸ Nat.le_refl _
  stored := List.mem_singleton_self _
  down h := by cases h

/-- Writing and waiting may follow the stores so far, unless the connection is disconnected. -/
theorem Advancing.other (h : Advancing s) (hup : s.conn.state ≠ .kDisconnected) {a b : Access}
    (ha : a ∈ s.trace) (hb : b = .write ∨ b = .enable) : Access.Then a b := by
  cases a with
  | store x =>
    have hx : x ≠ .kDisconnected := by
      rintro rfl
      exact hup (StateE.eq_kDisconnected_of_rank (h.rank_le _ ha))
    rcases hb with rfl | rfl
    · exact hx
    · exact hx
  | write | enable => cases b <;> trivial

theorem pairwise_others {l : List Access} (hl : ∀ a ∈ l, a = .write ∨ a = .enable) :
    l.Pairwise Access.Then := by
  apply List.pairwise_of_forall_mem_list
  intro a ha b _
  rcases hl a ha with rfl | rfl
  · trivial
  · trivial

/-- A step that stores nothing. -/
theorem Advancing.keep (h : Advancing s) {l : List Access} (htrace : t.trace = s.trace ++ l)
    (hl : ∀ a ∈ l, a = .write ∨ a = .enable)
    (hup : s.conn.state = .kDisconnected → l = []) (hstate : t.conn.state = s.conn.state)
    (hdown : t.conn.state = .kDisconnected → t.pc = .idle ∧ t.conn.channel.isWriting = false) :
    Advancing t where
  forward := by
    rw [htrace, List.pairwise_append]
    refine ⟨h.forward, pairwise_others hl, fun a ha b hb => ?_⟩
    apply h.other _ ha (hl b hb)
    intro hd
    rw [hup hd] at hb
    exact List.not_mem_nil hb
  rank_le x hx := by
    rw [htrace, List.mem_append] at hx
    rw [hstate]
    rcases hx with hx | hx
    · exact h.rank_le x hx
    · rcases hl _ hx with heq | heq <;> cases heq
  stored := by
    rw [htrace, hstate, List.mem_append]
    exact .inl h.stored
  down := hdown

/-- A step that stores a state that is not behind. -/
theorem Advancing.store (h : Advancing s) {x : StateE} {l : List Access}
    (htrace : t.trace = s.trace ++ (.store x :: l))
    (hl : ∀ a ∈ l, a = .write ∨ a = .enable) (hup : x = .kDisconnected → l = [])
    (hstate : t.conn.state = x) (hrank : s.conn.state.rank ≤ x.rank)
    (hdown : x = .kDisconnected → t.pc = .idle ∧ t.conn.channel.isWriting = false) :
    Advancing t where
  forward := by
    have hfirst : ∀ b ∈ l, Access.Then (.store x) b := by
      intro b hb
      have hx : x ≠ .kDisconnected := by
        intro heq
        rw [hup heq] at hb
        exact List.not_mem_nil hb
      rcases hl b hb with rfl | rfl
      · exact hx
      · exact hx
    rw [htrace, List.pairwise_append, List.pairwise_cons]
    refine ⟨h.forward, ⟨hfirst, pairwise_others hl⟩, fun a ha b hb => ?_⟩
    rcases List.mem_cons.mp hb with rfl | hb
    · cases a with
      | store y => exact Nat.le_trans (h.rank_le y ha) hrank
      | write | enable => trivial
    · apply h.other _ ha (hl b hb)
      intro hd
      -- from `kDisconnected` there is nothing to store but itself
      rw [hd] at hrank
      rw [hup (StateE.eq_kDisconnected_of_rank hrank)] at hb
      exact List.not_mem_nil hb
  rank_le y hy := by
    rw [htrace, List.mem_append, List.mem_cons] at hy
    rw [hstate]
    rcases hy with hy | heq | hy
    · exact Nat.le_trans (h.rank_le y hy) hrank
    · rw [Access.store.injEq] at heq
      exact heq ▸ Nat.le_refl _
    · rcases hl _ hy with heq | heq <;> cases heq
  stored := by
    rw [htrace, hstate]
    simp
  down hd := hdown (hstate ▸ hd)

/-- The loop thread enters a function in which it has found `kConnected`. -/
theorem Advancing.enter (h : Advancing s) (hstate : s.conn.state = .kConnected) (pc : OwnPc) :
    Advancing { s with pc := pc } := by
  refine h.keep (l := []) (List.append_nil _).symm (by simp) (fun _ => rfl) rfl fun hd => ?_
  rw [show s.conn.state = .kDisconnected from hd] at hstate
  cases hstate

/-- A step outside the connection and its trace. -/
theorem Advancing.frame (h : Advancing s) (hconn : t.conn = s.conn) (htrace : t.trace = s.trace)
    (hpc : t.pc = s.pc) : Advancing t := by
  refine h.keep (l := []) (by rw [htrace, List.append_nil]) (by simp) (fun _ => rfl)
    (by rw [hconn]) ?_
  rw [hconn, hpc]
  exact h.down

theorem Advancing.step [DecidableEq τ] (h : Advancing s) {a : ThreadStep τ} (ha : s.step a = some t)
    (hok : ForwardOk s a) : Advancing t := by
  cases step_trans ha with
  | refused => exact h
  | sendLoad | shutdownLoad | sendEmplace | sendReturn | shutdownEmplace | shutdownReturn =>
    exact h.frame rfl rfl rfl
  | swap => exact h.frame rfl rfl rfl
  | shutdownStore hcall =>
    have hup : s.conn.state ≠ .kDisconnected := hok _ hcall
    exact h.store rfl (l := []) (by simp) (fun _ => rfl) rfl (StateE.rank_le_kDisconnecting hup)
      (fun hd => by cases hd)
  | connectionEstablished hpc hstate =>
    refine h.store (x := .kConnected) rfl (fun _ => touched_other) (fun hd => by cases hd) rfl ?_
      (fun hd => by cases hd)
    rw [hstate]
    decide
  | handleRead b hpc hopen =>
    refine h.keep (l := touched false s.conn.channel s.conn.channel) rfl
      (fun _ => touched_other) (fun _ => touched_same rfl) rfl ?_
    exact fun hd => ⟨rfl, (h.down hd).2⟩
  | close hp =>
    refine h.store (x := .kDisconnected) rfl (fun _ => touched_other)
      (fun _ => touched_none hp.events) hp.state (StateE.rank_le_kDisconnected _) fun _ => ⟨rfl, ?_⟩
    show (_ : Channel).isWriting = false
    rw [Channel.isWriting, SharedConn.close, SharedConn.act, hp.events]
    decide
  | handleWrite r hpc =>
    refine h.keep (l := touched s.conn.channel.isWriting s.conn.channel
        (s.conn.handleWrite r).1.channel) rfl (fun _ => touched_other)
      (fun hd => touched_handleWrite (h.down hd).2 r) (handleWrite_state s.conn r) ?_
    intro hd
    have hnot := (h.down ((handleWrite_state s.conn r).symm.trans hd)).2
    refine ⟨rfl, ?_⟩
    show (s.conn.handleWrite r).1.channel.isWriting = false
    rw [handleWrite_notWriting hnot]
    exact hnot
  | destroy hpc hstate =>
    exact h.store (l := []) rfl (by simp) (fun _ => rfl) rfl hok (fun hd => by cases hd)
  | sendCalled message hpc hstate => exact h.enter hstate _
  | shutdownCalled hpc hstate => exact h.enter hstate _
  | sendInLoop message r hpc hq =>
    refine h.keep (l := touched (writesDirectly s.conn) s.conn.channel
        (s.conn.sendInLoop message r).1.channel) rfl (fun _ => touched_other)
      (fun hd => touched_sendInLoop hd message r) (sendInLoop_state s.conn message r) ?_
    intro hd
    have hdown : s.conn.state = .kDisconnected :=
      (sendInLoop_state s.conn message r).symm.trans hd
    refine ⟨rfl, ?_⟩
    show (s.conn.sendInLoop message r).1.channel.isWriting = false
    rw [sendInLoop_disconnected hdown]
    exact (h.down hdown).2
  | shutdownInLoop hpc hq =>
    refine h.keep (l := touched false s.conn.channel s.conn.channel) rfl
      (fun _ => touched_other) (fun _ => touched_same rfl) rfl ?_
    exact fun hd => ⟨rfl, (h.down hd).2⟩
  | shutdownProceeds hpc =>
    -- the loop thread is inside `shutdown`, so it has not closed the connection
    have hup : s.conn.state ≠ .kDisconnected := by
      intro hd
      have hidle := (h.down hd).1
      rw [hpc] at hidle
      cases hidle
    exact h.store (x := .kDisconnecting) rfl (fun _ => touched_other) (fun hd => by cases hd) rfl
      (StateE.rank_le_kDisconnecting hup) (fun hd => by cases hd)

/-- The stores that go back, from a state in which none has. -/
theorem Advancing.stepOk [DecidableEq τ] (h : Advancing s) {a : ThreadStep τ}
    (ha : s.step a = some t) (ht : Forward t) : ForwardOk s a := by
  have hback : ∀ x, t.trace = s.trace ++ [.store x] → s.conn.state.rank ≤ x.rank := by
    intro x htrace
    have hpair := ht.forward
    rw [htrace, List.pairwise_append] at hpair
    exact hpair.2.2 _ h.stored _ (List.mem_singleton_self _)
  cases a with
  | advance th =>
    intro scope hcall hd
    simp only [SharedConn.step, advance, hcall, Option.some.injEq] at ha
    subst ha
    have hrank := hback .kDisconnecting rfl
    rw [hd] at hrank
    exact absurd hrank (by decide)
  | own a =>
    cases a with
    | connnectionDestroyed =>
      simp only [SharedConn.step, ownStep, ownCall, Option.ite_none_right_eq_some,
        Option.some.injEq] at ha
      obtain ⟨-, rfl⟩ := ha
      exact hback .kConnected rfl
    | connectionEstablished | handleRead | handleWrite | handleClose | send | shutdown | swap
    | runFunctor => trivial
  | send | shutdown | proceed => trivial

/-- For any number of threads that call `send` and `shutdown` on a connection in any order with the
steps of its loop, the state moves forward only, and nothing is written or waited for after
`kDisconnected`, exactly in the runs in which no caller's store of `kDisconnecting` comes after
the connection was closed and no `connnectionDestroyed` begins on a connection that was shut down
or closed. -/
theorem state_forward_iff [DecidableEq τ] (writeComplete highWater : Bool) (highWaterMark : ℕ)
    (as : List (ThreadStep τ)) :
    Machine.Always SharedConn.step Forward
        (start (new writeComplete highWater highWaterMark)) as ↔
      Machine.Along SharedConn.step ForwardOk
        (start (new writeComplete highWater highWaterMark)) as := by
  apply Machine.always_iff_along (K := Advancing)
  · exact fun s hs => hs.toForward
  · exact fun s a t hs ha hok => hs.step ha hok
  · exact fun s a t hs ha ht => hs.stepOk ha ht
  · exact advancing_start writeComplete highWater highWaterMark

/-- A connection that its peer closes: `handleClose`, and then `connnectionDestroyed`, which makes
it `kConnected` again. -/
theorem connected_after_disconnected :
    ¬ Machine.Always SharedConn.step Forward
      (start (new true true defaultHighWaterMark) : SharedConn Unit)
      [.own .connectionEstablished, .own .handleClose, .own .connnectionDestroyed] := by
  intro h
  have hlast : (Machine.exec SharedConn.step
      (start (new true true defaultHighWaterMark) : SharedConn Unit)
      [.own .connectionEstablished, .own .handleClose, .own .connnectionDestroyed]).map
        (fun s => (s.trace, s.conn.state)) =
      some ([.store .kConnecting, .store .kConnected, .enable, .store .kDisconnected,
        .store .kConnected], .kConnected) := by
    decide +kernel
  obtain ⟨s, hs, hpair⟩ := Option.map_eq_some_iff.mp hlast
  rw [Prod.mk.injEq] at hpair
  have hstays := (h.last hs).stays (by simp [hpair.1])
  rw [hpair.2] at hstays
  cases hstays

end SharedConn
end TcpConnection
end Webservers
