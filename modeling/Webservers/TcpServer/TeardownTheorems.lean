import Webservers.Lib.Machine
import Webservers.TcpConnection.EventTheorems
import Webservers.TcpServer.QueueTheorems

/-!
# Tearing a connection down

`handleClose` runs `closeCallback_`, which goes to the base loop as `removeConnectionInLoop`, and
from there back to the connection's loop as `connnectionDestroyed`. The last hop is meant to find
the connection disconnected and to stop; its test assigns instead, so it runs `closeCallback_`
once more.

* `Fresh`, `Live`, `Closed`: the life of a connection as long as nothing has gone wrong.
* `SameAt`: a step of one connection leaves the others alone.
* `teardown_once_iff`: a run tears every connection down at most once exactly when it executes no
  `connnectionDestroyed` and handles no report that closes a connection twice.
-/

namespace Webservers
namespace TcpServer

/-! ## The property and the condition -/

/-- A connection that was closed is torn down once, and queues nothing afterwards. -/
def TeardownOnce (s : TcpServer) : Prop :=
  ∀ c, .handleClose c ∈ s.log →
    s.log.count (.closeCallback c) ≤ 1 ∧ s.log.count (.connnectionDestroyed c) ≤ 1 ∧
      ∀ before after, s.log = before ++ .connnectionDestroyed c :: after → .queued c ∉ after

/-- The step runs no `connnectionDestroyed`, and handles no hang-up with a `readv` that finds the
end of the stream as well. -/
def StepOk (s : TcpServer) : Label → Prop
  | .runFunctor loop _ => ∀ c q, (s.loops loop).next ≠ some (.connnectionDestroyed c, q)
  | .handleEvent _ revents r _ =>
    ¬ (TcpConnection.Hup revents ∧ TcpConnection.Readable revents ∧ r = .got [])
  | _ => True

/-! ## The life of a connection -/

/-- Nothing of the teardown has happened. -/
structure Untouched (s : TcpServer) (c : ℕ) : Prop where
  handleClose : s.log.count (.handleClose c) = 0
  closeCallback : s.log.count (.closeCallback c) = 0
  destroyed : s.log.count (.connnectionDestroyed c) = 0

/-- Queueing functors touches nothing. -/
theorem Untouched.of_count {s t : TcpServer} {c : ℕ} (h : Untouched s c)
    (hlog : ∀ e : Did, (∀ d, e ≠ .queued d) → t.log.count e = s.log.count e) : Untouched t c where
  handleClose := (hlog _ (by simp)).trans h.handleClose
  closeCallback := (hlog _ (by simp)).trans h.closeCallback
  destroyed := (hlog _ (by simp)).trans h.destroyed

/-- Created; `connectionEstablished` is queued, and nothing else. -/
structure Fresh (s : TcpServer) (c : ℕ) (k : ServerConn) : Prop where
  state : k.conn.state = .kConnecting
  index : k.conn.channel.index ≠ .kAdded
  pending : ∀ loop f, f.conn = c →
    s.pending loop f = if f = .connectionEstablished c ∧ loop = k.loop then 1 else 0
  untouched : Untouched s c

/-- Established and not closed. -/
structure Live (s : TcpServer) (c : ℕ) : Prop where
  pending : ∀ loop f, f.conn = c → f.ordinary = false → s.pending loop f = 0
  untouched : Untouched s c

/-- Closed once; the handshake is on its way. -/
structure Closed (s : TcpServer) (c : ℕ) (k : ServerConn) : Prop where
  shut : k.conn.Shut
  pending : ∀ loop, s.pending loop (.connectionEstablished c) = 0
  handleClose : s.log.count (.handleClose c) = 1
  closeCallback : s.log.count (.closeCallback c) = 1
  destroyed : s.log.count (.connnectionDestroyed c) = 0

/-- The life of connection `c`, as long as nothing has gone wrong. -/
def InvAt (s : TcpServer) (c : ℕ) : Prop :=
  match s.conns c with
  | none => (∀ loop f, f.conn = c → s.pending loop f = 0) ∧ Untouched s c
  | some k => Fresh s c k ∨ Live s c ∨ Closed s c k

/-! ## Other connections -/

/-- Nothing has changed about connection `c`. -/
structure SameAt (c : ℕ) (s t : TcpServer) : Prop where
  conns : t.conns c = s.conns c
  pending : ∀ loop f, f.conn = c → t.pending loop f = s.pending loop f
  handleClose : t.log.count (.handleClose c) = s.log.count (.handleClose c)
  closeCallback : t.log.count (.closeCallback c) = s.log.count (.closeCallback c)
  destroyed : t.log.count (.connnectionDestroyed c) = s.log.count (.connnectionDestroyed c)

section SameAt

variable {c : ℕ} {s t : TcpServer} (h : SameAt c s t)
include h

theorem SameAt.untouched (hs : Untouched s c) : Untouched t c :=
  ⟨h.handleClose.trans hs.handleClose, h.closeCallback.trans hs.closeCallback,
    h.destroyed.trans hs.destroyed⟩

theorem SameAt.invAt (hs : InvAt s c) : InvAt t c := by
  unfold InvAt at hs ⊢
  rw [h.conns]
  cases hc : s.conns c with
  | none =>
    rw [hc] at hs
    exact ⟨fun loop f hf => (h.pending loop f hf).trans (hs.1 loop f hf), h.untouched hs.2⟩
  | some k =>
    rw [hc] at hs
    rcases hs with hfresh | hlive | hclosed
    · left
      exact ⟨hfresh.state, hfresh.index,
        fun loop f hf => (h.pending loop f hf).trans (hfresh.pending loop f hf),
        h.untouched hfresh.untouched⟩
    · right; left
      exact ⟨fun loop f hf hord => (h.pending loop f hf).trans (hlive.pending loop f hf hord),
        h.untouched hlive.untouched⟩
    · right; right
      exact ⟨hclosed.shut, fun loop => (h.pending loop _ rfl).trans (hclosed.pending loop),
        h.handleClose.trans hclosed.handleClose, h.closeCallback.trans hclosed.closeCallback,
        h.destroyed.trans hclosed.destroyed⟩

end SameAt

theorem SameAt.trans {c : ℕ} {s t u : TcpServer} (h : SameAt c s t) (h' : SameAt c t u) :
    SameAt c s u where
  conns := h'.conns.trans h.conns
  pending := fun loop f hf => (h'.pending loop f hf).trans (h.pending loop f hf)
  handleClose := h'.handleClose.trans h.handleClose
  closeCallback := h'.closeCallback.trans h.closeCallback
  destroyed := h'.destroyed.trans h.destroyed

theorem sameAt_queueInLoop {s : TcpServer} (loop : ℕ) {f : Functor} {d : ℕ} (hne : d ≠ f.conn) :
    SameAt d s (s.queueInLoop loop f) where
  conns := rfl
  pending := by
    intro loop' g hg
    have hgf : g ≠ f := by
      rintro rfl
      exact hne hg.symm
    rw [pending_queueInLoop, if_neg (fun hand => hgf hand.2), Nat.add_zero]
  handleClose := count_log_queueInLoop s loop f (by simp)
  closeCallback := count_log_queueInLoop s loop f (by simp)
  destroyed := count_log_queueInLoop s loop f (by simp)

/-- A function of another connection. -/
theorem sameAt_perform {s : TcpServer} {th c d : ℕ} (hne : d ≠ c) (k : ServerConn)
    (p : TcpConnection × List Effect) : SameAt d s (s.perform th c k p) := by
  have hgrows := grows_perform s th c k p
  have hcount : ∀ e : Did, e ≠ .queued c → e ≠ .closeCallback c →
      (s.perform th c k p).log.count e = s.log.count e := by
    intro e he hcb
    rw [count_log_perform s th c k p he, if_neg hcb, Nat.add_zero]
  constructor
  case conns =>
    rw [hgrows.conns]
    exact Function.update_of_ne hne _ _
  case pending =>
    intro loop f hf
    exact hgrows.pending loop f (fun hand => hne (hf.symm.trans hand.1))
  case handleClose => exact hcount _ (by simp) (by simp)
  case closeCallback => exact hcount _ (by simp) (by simp [hne])
  case destroyed => exact hcount _ (by simp) (by simp)

theorem sameAt_handleEvent {s : TcpServer} {c d : ℕ} (hne : d ≠ c) (k : ServerConn)
    (revents : Mask) (r : ReadvResult) (w : WriteResult) :
    SameAt d s (s.handleEvent c k revents r w) := by
  rw [handleEvent_eq]
  generalize (k.conn.handleEvent revents r w).2.count .closeCallback = n
  have hclosing : SameAt d s (s.closing n c) := by
    refine ⟨rfl, fun _ _ _ => rfl, ?_, ?_, ?_⟩
    · rw [count_closing, if_neg (by simp [hne]), Nat.add_zero]
    · rw [count_closing, if_neg (by simp), Nat.add_zero]
    · rw [count_closing, if_neg (by simp), Nat.add_zero]
  exact hclosing.trans (sameAt_perform hne k _)

theorem sameAt_removeConnectionInLoop (s : TcpServer) {c d : ℕ} (hne : d ≠ c) :
    SameAt d s (s.removeConnectionInLoop c) := by
  unfold removeConnectionInLoop
  split
  · exact ⟨rfl, fun _ _ _ => rfl, rfl, rfl, rfl⟩
  · rename_i k _
    have herased : SameAt d s { s with connections := s.connections.erase c } :=
      ⟨rfl, fun _ _ _ => rfl, rfl, rfl, rfl⟩
    exact herased.trans (sameAt_queueInLoop k.loop hne)

theorem sameAt_popped {s : TcpServer} {loop : ℕ} {f : Functor} {q : TaskQueue Functor}
    (h : (s.loops loop).next = some (f, q)) {d : ℕ} (hne : d ≠ f.conn) :
    SameAt d s (s.popped loop q) where
  conns := rfl
  pending := by
    intro loop' g hg
    have hgf : g ≠ f := by
      rintro rfl
      exact hne hg.symm
    rw [pending_popped h, if_neg (fun hand => hgf hand.2), Nat.add_zero]
  handleClose := rfl
  closeCallback := rfl
  destroyed := rfl

theorem sameAt_run (s : TcpServer) (th : ℕ) (w : WriteResult) {f : Functor} {d : ℕ}
    (hne : d ≠ f.conn) :
    SameAt d s (s.run th w f) := by
  apply run_cases
  · exact ⟨rfl, fun _ _ _ => rfl, rfl, rfl, rfl⟩
  · exact fun k p _ => sameAt_perform hne k p
  · intro k p _
    have hdid : SameAt d s (s.did (.connnectionDestroyed f.conn)) := by
      refine ⟨rfl, fun _ _ _ => rfl, ?_, ?_, ?_⟩
      · rw [count_log_did, if_neg (by simp), Nat.add_zero]
      · rw [count_log_did, if_neg (by simp), Nat.add_zero]
      · rw [count_log_did, if_neg (by simp [hne]), Nat.add_zero]
    exact hdid.trans (sameAt_perform hne k p)
  · exact sameAt_removeConnectionInLoop s hne

theorem sameAt_setConn {s : TcpServer} {c d : ℕ} (hne : d ≠ c) (k : ServerConn) :
    SameAt d s (s.setConn c k) :=
  ⟨Function.update_of_ne hne _ _, fun _ _ _ => rfl, rfl, rfl, rfl⟩

theorem sameAt_send {s : TcpServer} {c d : ℕ} (hne : d ≠ c) (k : ServerConn) (th : ℕ)
    (message : List UInt8) (w : WriteResult) : SameAt d s (s.send th c k message w) := by
  unfold send
  split
  · exact sameAt_perform hne k _
  · split
    · exact sameAt_queueInLoop k.loop hne
    · exact ⟨rfl, fun _ _ _ => rfl, rfl, rfl, rfl⟩

theorem sameAt_shutdown {s : TcpServer} {c d : ℕ} (hne : d ≠ c) (k : ServerConn) (th : ℕ) :
    SameAt d s (s.shutdown th c k) := by
  unfold shutdown
  split
  · exact sameAt_perform hne k _
  · split
    · exact (sameAt_setConn hne _).trans (sameAt_queueInLoop k.loop hne)
    · exact ⟨rfl, fun _ _ _ => rfl, rfl, rfl, rfl⟩

theorem sameAt_created {s : TcpServer} {d : ℕ} (hne : d ≠ s.nextConnId) (k : ServerConn) :
    SameAt d s (s.created k) := by
  obtain ⟨hconns, hloops, hlog, -, -⟩ := getNextLoop_same s
  constructor
  · show Function.update s.getNextLoop.2.conns s.nextConnId (some k) d = s.conns d
    rw [Function.update_of_ne hne, hconns]
  · intro loop f _
    show (s.getNextLoop.2.loops loop).all.count f = _
    rw [hloops]
    rfl
  · show s.getNextLoop.2.log.count _ = _
    rw [hlog]
  · show s.getNextLoop.2.log.count _ = _
    rw [hlog]
  · show s.getNextLoop.2.log.count _ = _
    rw [hlog]

theorem sameAt_newConnection {s : TcpServer} {d : ℕ} (hne : d ≠ s.nextConnId) (highWater : Bool)
    (highWaterMark : ℕ) : SameAt d s (s.newConnection highWater highWaterMark) := by
  rw [newConnection_eq]
  simp only
  split
  · exact (sameAt_created hne _).trans (sameAt_perform hne _ _)
  · exact (sameAt_created hne _).trans (sameAt_queueInLoop _ hne)

/-! ## The functions of the connection itself -/

section Itself

variable {s : TcpServer} {th c : ℕ} {k : ServerConn} {p : TcpConnection × List Effect}

theorem count_log_quiet (hp : Effect.closeCallback ∉ p.2) {e : Did} (he : e ≠ .queued c) :
    (s.perform th c k p).log.count e = s.log.count e := by
  rw [count_log_perform s th c k p he, List.count_eq_zero_of_not_mem hp, ite_self, Nat.add_zero]

theorem live_perform (h : Live s c) (hp : Effect.closeCallback ∉ p.2) :
    Live (s.perform th c k p) c where
  pending := by
    intro loop f hf hord
    rw [(grows_perform s th c k p).pending loop f (by simp [hord, hp])]
    exact h.pending loop f hf hord
  untouched := h.untouched.of_count fun _ he => count_log_quiet hp (he c)

theorem closed_perform (h : Closed s c k) (hp : Effect.closeCallback ∉ p.2) (hshut : p.1.Shut) :
    Closed (s.perform th c k p) c { k with conn := p.1 } where
  shut := hshut
  pending := by
    intro loop
    rw [(grows_perform s th c k p).pending loop _ (by simp [Functor.ordinary, Functor.teardown])]
    exact h.pending loop
  handleClose := (count_log_quiet hp (by simp)).trans h.handleClose
  closeCallback := (count_log_quiet hp (by simp)).trans h.closeCallback
  destroyed := (count_log_quiet hp (by simp)).trans h.destroyed

theorem invAt_of_live (hc : s.conns c = some k) (h : Live s c) : InvAt s c := by
  rw [InvAt, hc]
  exact Or.inr (Or.inl h)

theorem invAt_of_closed (hc : s.conns c = some k) (h : Closed s c k) : InvAt s c := by
  rw [InvAt, hc]
  exact Or.inr (Or.inr h)

end Itself

/-! ### Reports of the poller -/

/-- A report that closes a live connection. -/
theorem closed_of_closing {s : TcpServer} {th c : ℕ} {k : ServerConn}
    {p : TcpConnection × List Effect} (h : Live s c) (hone : p.2.count .closeCallback = 1)
    (hshut : p.1.Shut) :
    Closed ((s.closing 1 c).perform th c k p) c { k with conn := p.1 } := by
  have hgrows := grows_perform (s.closing 1 c) th c k p
  have hlog : ∀ e : Did, e ≠ .queued c → ((s.closing 1 c).perform th c k p).log.count e =
      (s.log.count e + if e = .handleClose c then 1 else 0) +
        if e = .closeCallback c then 1 else 0 := by
    intro e he
    rw [count_log_perform _ th c k p he, count_closing, hone]
  constructor
  case shut => exact hshut
  case pending =>
    intro loop
    rw [hgrows.pending loop _ (by simp [Functor.ordinary, Functor.teardown])]
    exact h.pending loop _ rfl rfl
  case handleClose => simp [hlog, h.untouched.handleClose]
  case closeCallback => simp [hlog, h.untouched.closeCallback]
  case destroyed => simp [hlog, h.untouched.destroyed]

/-- A report keeps a connection live, or closes it. -/
theorem invAt_handleEvent {s : TcpServer} {c : ℕ} {k : ServerConn} (h : Live s c)
    (hindex : k.conn.channel.index = .kAdded) {revents : Mask} {r : ReadvResult}
    (honce : ¬ (TcpConnection.Hup revents ∧ TcpConnection.Readable revents ∧ r = .got []))
    (w : WriteResult) : InvAt (s.handleEvent c k revents r w) c := by
  have hcloses := k.conn.count_handleEvent revents r w
  rw [handleEvent_eq]
  -- a hang-up or the end of the stream closes, and by `honce` not both at once
  by_cases hclose : TcpConnection.Hup revents ∨ TcpConnection.Readable revents ∧ r = .got []
  · have hone : (k.conn.handleEvent revents r w).2.count .closeCallback = 1 := by
      rw [hcloses]
      rcases hclose with hhup | heof
      · rw [if_pos hhup, if_neg (fun heof => honce ⟨hhup, heof⟩)]
      · rw [if_neg (fun hhup => honce ⟨hhup, heof⟩), if_pos heof]
    have hshut := TcpConnection.shut_handleEvent hindex w hclose honce
    rw [hone]
    exact invAt_of_closed conns_perform_self (closed_of_closing h hone hshut)
  · have hzero : (k.conn.handleEvent revents r w).2.count .closeCallback = 0 := by
      rw [hcloses, if_neg (fun hhup => hclose (Or.inl hhup)),
        if_neg (fun heof => hclose (Or.inr heof))]
    have hnone : s.closing 0 c = s := by
      rw [closing, List.replicate_zero, List.append_nil]
    rw [hzero, hnone]
    exact invAt_of_live conns_perform_self (live_perform h (List.count_eq_zero.mp hzero))

/-! ### Functors -/

section Run

variable {s : TcpServer} {loop : ℕ} {f : Functor} {q : TaskQueue Functor}

/-- Taking a functor out of a queue keeps the life of its connection, except that an
established connection comes out of a fresh one. -/
theorem live_popped (hnext : (s.loops loop).next = some (f, q)) (h : Live s f.conn) :
    Live (s.popped loop q) f.conn where
  pending := by
    intro loop' g hg hord
    have hpending := pending_popped hnext loop' g
    rw [h.pending loop' g hg hord] at hpending
    omega
  untouched := h.untouched.of_count fun _ _ => rfl

theorem closed_popped {k : ServerConn} (hnext : (s.loops loop).next = some (f, q))
    (h : Closed s f.conn k) : Closed (s.popped loop q) f.conn k where
  shut := h.shut
  pending := by
    intro loop'
    have hpending := pending_popped hnext loop' (.connectionEstablished f.conn)
    rw [h.pending loop'] at hpending
    omega
  handleClose := h.handleClose
  closeCallback := h.closeCallback
  destroyed := h.destroyed

/-- The functor of a fresh connection is the one that establishes it. -/
theorem invAt_run_fresh {k : ServerConn} (hnext : (s.loops loop).next = some (f, q))
    (hc : s.conns f.conn = some k) (h : Fresh s f.conn k) (w : WriteResult) :
    InvAt ((s.popped loop q).run loop w f) f.conn := by
  have hpos := pending_pos_of_next hnext
  have hf := h.pending loop f rfl
  -- any other functor of a fresh connection is queued nowhere
  have hest : f = .connectionEstablished f.conn ∧ loop = k.loop := by
    by_contra hnot
    rw [if_neg hnot] at hf
    omega
  have hlive : Live (s.popped loop q) f.conn := by
    constructor
    · intro loop' g hg _
      have hpending := pending_popped hnext loop' g
      rw [h.pending loop' g hg] at hpending
      -- the one functor that was queued has been taken out
      split at hpending
      · rename_i heq
        rw [if_pos ⟨heq.2.trans hest.2.symm, heq.1.trans hest.1.symm⟩] at hpending
        omega
      · omega
    · exact h.untouched.of_count fun _ _ => rfl
  have hconns : (s.popped loop q).conns f.conn = some k := hc
  rw [hest.1] at hlive hconns ⊢
  rw [run, hconns]
  exact invAt_of_live conns_perform_self
    (live_perform hlive k.conn.closeCallback_connectionEstablished)

theorem invAt_run_live {k : ServerConn} (hnext : (s.loops loop).next = some (f, q))
    (hc : s.conns f.conn = some k) (h : Live s f.conn) (w : WriteResult) :
    InvAt ((s.popped loop q).run loop w f) f.conn := by
  have hpos := pending_pos_of_next hnext
  -- of a live connection only ordinary functors are queued
  have hord : f.ordinary = true := by
    by_contra hnot
    rw [h.pending loop f rfl (by simpa using hnot)] at hpos
    omega
  have hlive := live_popped hnext h
  have hconns : (s.popped loop q).conns f.conn = some k := hc
  rw [run, hconns]
  cases f with
  | connectionEstablished c => cases hord
  | connnectionDestroyed c => cases hord
  | removeConnectionInLoop c => cases hord
  | sendInLoop c message =>
    exact invAt_of_live conns_perform_self
      (live_perform hlive (k.conn.closeCallback_sendInLoop message w))
  | shutdownInLoop c =>
    exact invAt_of_live conns_perform_self
      (live_perform hlive k.conn.closeCallback_shutdownInLoop)
  | writeCompleteCallback c => exact invAt_of_live hconns hlive
  | highWaterMarkCallback c len => exact invAt_of_live hconns hlive

theorem closed_queue {c : ℕ} {k : ServerConn} (h : Closed s c k) (loop : ℕ) {g : Functor}
    (hg : g ≠ .connectionEstablished c) : Closed (s.queueInLoop loop g) c k where
  shut := h.shut
  pending := by
    intro loop'
    rw [pending_queueInLoop, h.pending, if_neg (fun hand => hg hand.2.symm)]
  handleClose := (count_log_queueInLoop s loop g (by simp)).trans h.handleClose
  closeCallback := (count_log_queueInLoop s loop g (by simp)).trans h.closeCallback
  destroyed := (count_log_queueInLoop s loop g (by simp)).trans h.destroyed

theorem invAt_run_closed {k : ServerConn} (hnext : (s.loops loop).next = some (f, q))
    (hc : s.conns f.conn = some k) (h : Closed s f.conn k)
    (hok : ∀ c, f ≠ .connnectionDestroyed c) (w : WriteResult) :
    InvAt ((s.popped loop q).run loop w f) f.conn := by
  have hclosed := closed_popped hnext h
  have hconns : (s.popped loop q).conns f.conn = some k := hc
  rw [run, hconns]
  cases f with
  | connectionEstablished c =>
    have hpos := pending_pos_of_next hnext
    have hzero : s.pending loop (.connectionEstablished c) = 0 := h.pending loop
    omega
  | connnectionDestroyed c => exact absurd rfl (hok c)
  | removeConnectionInLoop c =>
    -- the next hop is queued
    show InvAt ((s.popped loop q).removeConnectionInLoop c) c
    have hconns' : (s.popped loop q).conns c = some k := hc
    rw [removeConnectionInLoop, hconns']
    have herased : Closed { s.popped loop q with
        connections := (s.popped loop q).connections.erase c } c k :=
      ⟨hclosed.shut, hclosed.pending, hclosed.handleClose, hclosed.closeCallback,
        hclosed.destroyed⟩
    exact invAt_of_closed hconns' (closed_queue herased k.loop (by simp))
  | sendInLoop c message =>
    have hnone := TcpConnection.sendInLoop_disconnected h.shut.state message w
    simp only [hnone]
    exact invAt_of_closed conns_perform_self
      (closed_perform hclosed List.not_mem_nil h.shut)
  | shutdownInLoop c =>
    exact invAt_of_closed conns_perform_self
      (closed_perform hclosed k.conn.closeCallback_shutdownInLoop h.shut)
  | writeCompleteCallback c => exact invAt_of_closed hconns hclosed
  | highWaterMarkCallback c len => exact invAt_of_closed hconns hclosed

/-- Running a functor other than `connnectionDestroyed`. -/
theorem invAt_run (hnext : (s.loops loop).next = some (f, q)) (h : InvAt s f.conn)
    (hok : ∀ c, f ≠ .connnectionDestroyed c) (w : WriteResult) :
    InvAt ((s.popped loop q).run loop w f) f.conn := by
  unfold InvAt at h
  cases hc : s.conns f.conn with
  | none =>
    rw [hc] at h
    have hpos := pending_pos_of_next hnext
    rw [h.1 loop f rfl] at hpos
    omega
  | some k =>
    rw [hc] at h
    rcases h with hfresh | hlive | hclosed
    · exact invAt_run_fresh hnext hc hfresh w
    · exact invAt_run_live hnext hc hlive w
    · exact invAt_run_closed hnext hc hclosed hok w

end Run

/-! ### Calls of the user -/

section User

variable {s : TcpServer} {c : ℕ} {k : ServerConn}

theorem live_of_connected (hc : s.conns c = some k) (h : InvAt s c)
    (hstate : k.conn.state = .kConnected) : Live s c := by
  rw [InvAt, hc] at h
  rcases h with hfresh | hlive | hclosed
  · exact absurd (hfresh.state.symm.trans hstate) (by decide)
  · exact hlive
  · exact absurd (hclosed.shut.state.symm.trans hstate) (by decide)

theorem live_queue (h : Live s c) (loop : ℕ) {g : Functor} (hg : g.ordinary = true) :
    Live (s.queueInLoop loop g) c where
  pending := by
    intro loop' f hf hord
    have hne : f ≠ g := by
      rintro rfl
      rw [hg] at hord
      cases hord
    rw [pending_queueInLoop, h.pending loop' f hf hord, if_neg (fun hand => hne hand.2)]
  untouched := h.untouched.of_count fun _ he => count_log_queueInLoop s loop g (he _)

/-- A function that does nothing. -/
theorem sameAt_perform_nothing (hc : s.conns c = some k) (th : ℕ) :
    SameAt c s (s.perform th c k (k.conn, [])) where
  conns := by rw [conns_perform_self, hc]
  pending := fun _ _ _ => rfl
  handleClose := rfl
  closeCallback := rfl
  destroyed := rfl

theorem invAt_send (hc : s.conns c = some k) (h : InvAt s c) (th : ℕ) (message : List UInt8)
    (w : WriteResult) : InvAt (s.send th c k message w) c := by
  unfold send
  by_cases hstate : k.conn.state = .kConnected
  · have hlive := live_of_connected hc h hstate
    rw [if_pos hstate]
    split
    · exact invAt_of_live conns_perform_self
        (live_perform hlive (k.conn.closeCallback_send message w))
    · exact invAt_of_live (k := k) hc (live_queue hlive k.loop rfl)
  · -- the message is dropped
    have hnothing : k.conn.send message w = (k.conn, []) := by
      rw [TcpConnection.send, if_neg hstate]
    rw [hnothing, if_neg hstate]
    split
    · exact (sameAt_perform_nothing hc th).invAt h
    · exact h

theorem invAt_shutdown (hc : s.conns c = some k) (h : InvAt s c) (th : ℕ) :
    InvAt (s.shutdown th c k) c := by
  unfold shutdown
  by_cases hstate : k.conn.state = .kConnected
  · have hlive := live_of_connected hc h hstate
    rw [if_pos hstate]
    split
    · exact invAt_of_live conns_perform_self
        (live_perform hlive k.conn.closeCallback_shutdown)
    · have hset : Live (s.setConn c { k with conn := k.conn.setState .kDisconnecting }) c :=
        ⟨hlive.pending, hlive.untouched.of_count fun _ _ => rfl⟩
      exact invAt_of_live (k := { k with conn := k.conn.setState .kDisconnecting })
        (Function.update_self _ _ _) (live_queue hset k.loop rfl)
  · have hnothing : k.conn.shutdown = (k.conn, []) := by
      rw [TcpConnection.shutdown, if_neg hstate]
    rw [hnothing, if_neg hstate]
    split
    · exact (sameAt_perform_nothing hc th).invAt h
    · exact h

end User

theorem invAt_newConnection {s : TcpServer} (hnone : s.conns s.nextConnId = none)
    (h : InvAt s s.nextConnId) (highWater : Bool) (highWaterMark : ℕ) :
    InvAt (s.newConnection highWater highWaterMark) s.nextConnId := by
  rw [InvAt, hnone] at h
  obtain ⟨hpending, huntouched⟩ := h
  obtain ⟨-, hloops, hlog, -, -⟩ := getNextLoop_same s
  rw [newConnection_eq]
  generalize hk : s.newConn highWater highWaterMark = k
  have hcreated : ∀ loop f, f.conn = s.nextConnId → (s.created k).pending loop f = 0 := by
    intro loop f hf
    show (s.getNextLoop.2.loops loop).all.count f = 0
    rw [hloops]
    exact hpending loop f hf
  have hlog' : (s.created k).log = s.log := hlog
  have huntouched' : Untouched (s.created k) s.nextConnId :=
    huntouched.of_count fun _ _ => by rw [hlog']
  simp only
  split
  · -- the base loop is the io loop: the connection is established at once
    have hlive : Live (s.created k) s.nextConnId := ⟨fun loop f hf _ => hcreated loop f hf,
      huntouched'⟩
    exact invAt_of_live conns_perform_self
      (live_perform hlive k.conn.closeCallback_connectionEstablished)
  · have hconns : ((s.created k).queueInLoop k.loop
        (.connectionEstablished s.nextConnId)).conns s.nextConnId = some k :=
      Function.update_self _ _ _
    rw [InvAt, hconns]
    left
    constructor
    · rw [← hk]
      rfl
    · rw [← hk]
      show Index.kNew ≠ .kAdded
      decide
    · intro loop f hf
      rw [pending_queueInLoop, hcreated loop f hf, Nat.zero_add]
      simp only [And.comm]
    · exact huntouched'.of_count fun _ he => count_log_queueInLoop _ _ _ (he _)

/-! ## Whole runs -/

/-- Every connection lives as `InvAt` says, and the numbers to come are not in use. -/
structure Inv (s : TcpServer) : Prop where
  ids : ∀ c, s.nextConnId ≤ c → s.conns c = none
  invAt : ∀ c, InvAt s c

theorem inv_new (numThreads : ℕ) (writeComplete : Bool) : Inv (new numThreads writeComplete) where
  ids := fun _ _ => rfl
  invAt := fun _ => ⟨fun _ _ _ => rfl, ⟨rfl, rfl, rfl⟩⟩

theorem teardownOnce_of_inv {s : TcpServer} (h : Inv s) : TeardownOnce s := by
  intro c hclose
  have hpos : 0 < s.log.count (.handleClose c) := List.count_pos_iff.mpr hclose
  have hat := h.invAt c
  unfold InvAt at hat
  have hclosed : s.log.count (.closeCallback c) = 1 ∧
      s.log.count (.connnectionDestroyed c) = 0 := by
    cases hc : s.conns c with
    | none =>
      rw [hc] at hat
      have hzero := hat.2.handleClose
      omega
    | some k =>
      rw [hc] at hat
      rcases hat with hfresh | hlive | hclosed
      · have hzero := hfresh.untouched.handleClose
        omega
      · have hzero := hlive.untouched.handleClose
        omega
      · exact ⟨hclosed.closeCallback, hclosed.destroyed⟩
  refine ⟨by omega, by omega, ?_⟩
  intro before after heq _
  -- no `connnectionDestroyed` has run yet
  have hmem : .connnectionDestroyed c ∈ s.log := by
    rw [heq]
    exact List.mem_append_right _ List.mem_cons_self
  have hcount := List.count_pos_iff.mpr hmem
  omega

/-- The invariant after a step that concerns connection `c` only. -/
theorem inv_of_sameAt {s t : TcpServer} {c : ℕ} {k : ServerConn} (h : Inv s)
    (hc : s.conns c = some k) (hnext : t.nextConnId = s.nextConnId)
    (hsame : ∀ d, d ≠ c → SameAt d s t) (hat : InvAt t c) : Inv t where
  ids := by
    intro d hd
    rw [hnext] at hd
    have hne : d ≠ c := by
      rintro rfl
      rw [h.ids d hd] at hc
      cases hc
    rw [(hsame d hne).conns, h.ids d hd]
  invAt := by
    intro d
    by_cases hd : d = c
    · subst hd
      exact hat
    · exact (hsame d hd).invAt (h.invAt d)

section Steps

variable {s t : TcpServer}

/-- A connection whose channel is reported is live. -/
theorem live_of_added {c : ℕ} {k : ServerConn} (h : Inv s) (hc : s.conns c = some k)
    (hindex : k.conn.channel.index = .kAdded) : Live s c := by
  have hat := h.invAt c
  rw [InvAt, hc] at hat
  rcases hat with hfresh | hlive | hclosed
  · exact absurd hindex hfresh.index
  · exact hlive
  · exact absurd hindex hclosed.shut.index

theorem conns_of_next {loop : ℕ} {f : Functor} {q : TaskQueue Functor} (h : Inv s)
    (hnext : (s.loops loop).next = some (f, q)) : ∃ k, s.conns f.conn = some k := by
  have hat := h.invAt f.conn
  rw [InvAt] at hat
  cases hc : s.conns f.conn with
  | none =>
    rw [hc] at hat
    have hpos := pending_pos_of_next hnext
    rw [hat.1 loop f rfl] at hpos
    omega
  | some k => exact ⟨k, rfl⟩

/-- A step that meets the condition keeps the invariant. -/
theorem inv_step {a : Label} (h : Inv s) (hstep : step s a = some t) (hok : StepOk s a) :
    Inv t := by
  cases a with
  | newConnection highWater highWaterMark =>
    rw [step] at hstep
    split at hstep <;> cases hstep
    have hnone := h.ids s.nextConnId (Nat.le_refl _)
    constructor
    · intro d hd
      rw [nextConnId_newConnection] at hd
      rw [(sameAt_newConnection (by omega) highWater highWaterMark).conns]
      exact h.ids d (by omega)
    · intro d
      by_cases hd : d = s.nextConnId
      · rw [hd]
        exact invAt_newConnection hnone (h.invAt _) highWater highWaterMark
      · exact (sameAt_newConnection hd highWater highWaterMark).invAt (h.invAt d)
  | handleEvent c revents r w =>
    obtain ⟨k, hc, hindex, rfl⟩ := step_handleEvent hstep
    have hlive := live_of_added h hc hindex
    refine inv_of_sameAt h hc ?_ (fun d hd => sameAt_handleEvent hd k revents r w)
      (invAt_handleEvent hlive hindex hok w)
    rw [handleEvent_eq, nextConnId_perform]
    rfl
  | swap loop =>
    obtain ⟨q, hswap, rfl⟩ := step_swap hstep
    refine ⟨h.ids, fun d => ?_⟩
    have hsame : SameAt d s (s.popped loop q) :=
      ⟨rfl, fun loop' f _ => pending_swap hswap loop' f, rfl, rfl, rfl⟩
    exact hsame.invAt (h.invAt d)
  | runFunctor loop w =>
    obtain ⟨f, q, hnext, rfl⟩ := step_runFunctor hstep
    obtain ⟨k, hc⟩ := conns_of_next h hnext
    have hnot : ∀ c, f ≠ .connnectionDestroyed c := by
      rintro c rfl
      exact hok c q hnext
    -- the functor is taken out and run; both concern its own connection only
    refine inv_of_sameAt h hc ?_
      (fun d hd => (sameAt_popped hnext hd).trans (sameAt_run _ loop w hd))
      (invAt_run hnext (h.invAt _) hnot w)
    rw [nextConnId_run]
    rfl
  | send th c message w =>
    obtain ⟨k, hc, rfl⟩ := Option.map_eq_some_iff.mp hstep
    refine inv_of_sameAt h hc ?_ (fun d hd => sameAt_send hd k th message w)
      (invAt_send hc (h.invAt c) th message w)
    unfold send
    split
    · exact nextConnId_perform _ _ _ _ _
    · split <;> rfl
  | shutdown th c =>
    obtain ⟨k, hc, rfl⟩ := Option.map_eq_some_iff.mp hstep
    refine inv_of_sameAt h hc ?_ (fun d hd => sameAt_shutdown hd k th)
      (invAt_shutdown hc (h.invAt c) th)
    unfold shutdown
    split
    · exact nextConnId_perform _ _ _ _ _
    · split <;> rfl

/-- Closed twice. -/
theorem not_teardownOnce {c : ℕ} (hclose : 0 < t.log.count (.handleClose c))
    (htwice : 1 < t.log.count (.closeCallback c)) : ¬ TeardownOnce t := by
  intro h
  have hle := (h c (List.count_pos_iff.mp hclose)).1
  omega

/-- Only a step that meets the condition tears nothing down twice. -/
theorem stepOk_of_teardownOnce {a : Label} (h : Inv s) (hstep : step s a = some t)
    (honce : TeardownOnce t) : StepOk s a := by
  cases a with
  | newConnection highWater highWaterMark => trivial
  | swap loop => trivial
  | send th c message w => trivial
  | shutdown th c => trivial
  | handleEvent c revents r w =>
    intro hboth
    obtain ⟨k, hc, hindex, rfl⟩ := step_handleEvent hstep
    -- `handleClose` for the hang-up, and once more from `handleRead`
    have hcount := k.conn.count_handleEvent revents r w
    rw [if_pos hboth.1, if_pos hboth.2] at hcount
    rw [handleEvent_eq, hcount] at honce
    refine not_teardownOnce (c := c) ?_ ?_ honce
    · rw [count_log_perform _ _ _ _ _ (by simp), count_closing, if_pos rfl]
      omega
    · rw [count_log_perform _ _ _ _ _ (by simp), if_pos rfl, hcount]
      omega
  | runFunctor loop w =>
    intro c q hnext
    obtain ⟨f, q', hnext', rfl⟩ := step_runFunctor hstep
    rw [hnext] at hnext'
    cases hnext'
    obtain ⟨k, hc⟩ := conns_of_next h hnext
    have hpos := pending_pos_of_next hnext
    -- a connection with this functor queued has been closed
    have hclosed : Closed s c k := by
      have hat := h.invAt c
      have hc' : s.conns c = some k := hc
      rw [InvAt, hc'] at hat
      rcases hat with hfresh | hlive | hclosed
      · rw [hfresh.pending loop _ rfl, if_neg (by simp)] at hpos
        omega
      · rw [hlive.pending loop _ rfl rfl] at hpos
        omega
      · exact hclosed
    have hconns : (s.popped loop q).conns (Functor.connnectionDestroyed c).conn = some k := hc
    rw [run, hconns] at honce
    have hlog : ∀ e : Did, e ≠ .connnectionDestroyed c →
        ((s.popped loop q).did (.connnectionDestroyed c)).log.count e = s.log.count e := by
      intro e he
      rw [count_log_did, if_neg he]
      rfl
    refine not_teardownOnce (c := c) ?_ ?_ honce
    · rw [count_log_perform _ _ _ _ _ (by simp), hlog _ (by simp), hclosed.handleClose]
      omega
    · have hone : k.conn.connnectionDestroyed.2.count .closeCallback = 1 := rfl
      rw [count_log_perform _ _ _ _ _ (by simp), if_pos rfl, hlog _ (by simp),
        hclosed.closeCallback, hone]
      omega

end Steps

/-- Every connection that is closed in a run is torn down at most once exactly when the run
executes no `connnectionDestroyed` and handles no report that closes a connection twice. -/
theorem teardown_once_iff (numThreads : ℕ) (writeComplete : Bool) (as : List Label) :
    Machine.Always step TeardownOnce (new numThreads writeComplete) as ↔
      Machine.Along step StepOk (new numThreads writeComplete) as :=
  Machine.always_iff_along (K := Inv) (fun _ h => teardownOnce_of_inv h)
    (fun _ _ _ h hstep hok => inv_step h hstep hok)
    (fun _ _ _ h hstep honce => stepOk_of_teardownOnce h hstep honce)
    (inv_new numThreads writeComplete)

/-- One io loop: a connection is accepted and established, its peer hangs up, and the handshake
goes once to the base loop and back. -/
def hangUp : List Label :=
  [.newConnection false 0, .swap 1, .runFunctor 1 (.wrote 0),
    .handleEvent 1 EPOLLHUP (.failed .EWOULDBLOCK) (.wrote 0), .swap 0, .runFunctor 0 (.wrote 0),
    .swap 1, .runFunctor 1 (.wrote 0)]

/-- The last hop closes the connection a second time, and queues the first hop again. -/
theorem hangUp_closes_twice :
    ∃ t, Machine.exec step (new 1 false) hangUp = some t ∧
      t.log.count (.closeCallback 1) = 2 ∧ .removeConnectionInLoop 1 ∈ (t.loops 0).all ∧
      ¬ TeardownOnce t := by
  have hrun : (Machine.exec step (new 1 false) hangUp).map
      (fun t => decide (0 < t.log.count (.handleClose 1) ∧ t.log.count (.closeCallback 1) = 2 ∧
        .removeConnectionInLoop 1 ∈ (t.loops 0).all)) = some true := by decide +kernel
  obtain ⟨t, ht, hdec⟩ := Option.map_eq_some_iff.mp hrun
  obtain ⟨hclose, htwice, hmem⟩ := of_decide_eq_true hdec
  exact ⟨t, ht, htwice, hmem, not_teardownOnce hclose (by omega)⟩

end TcpServer
end Webservers
