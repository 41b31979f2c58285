import Webservers.Lib.Machine
import Webservers.TcpServer.QueueTheorems

/-!
# The close handshake never ends

Each hop of the handshake queues the next one, and `connnectionDestroyed` starts it anew. So a
connection that was closed has, in every state the server can reach afterwards, a functor in
some queue (`handshake_never_ends`): it is never released, and its loops go on waking up for it.
-/

namespace Webservers
namespace TcpServer

/-- A hop of the handshake of `c` is still to be run. -/
def Token (s : TcpServer) (c : ℕ) : Prop :=
  ∃ loop f, f.conn = c ∧ f.teardown = true ∧ 0 < s.pending loop f

/-- From `s` to `t` functors are queued, none is taken out, and no connection is closed. -/
structure Adds (s t : TcpServer) : Prop where
  pending : ∀ loop f, s.pending loop f ≤ t.pending loop f
  conns : ∀ d, s.conns d ≠ none → t.conns d ≠ none
  handleClose : ∀ d, t.log.count (.handleClose d) = s.log.count (.handleClose d)

theorem Adds.refl (s : TcpServer) : Adds s s :=
  ⟨fun _ _ => Nat.le_refl _, fun _ => id, fun _ => rfl⟩

theorem Adds.trans {s t u : TcpServer} (h : Adds s t) (h' : Adds t u) : Adds s u where
  pending := fun loop f => Nat.le_trans (h.pending loop f) (h'.pending loop f)
  conns := fun d hd => h'.conns d (h.conns d hd)
  handleClose := fun d => (h'.handleClose d).trans (h.handleClose d)

/-- A hop that is still to be run is not lost. -/
theorem Adds.token {s t : TcpServer} {c : ℕ} (h : Adds s t) (htoken : Token s c) : Token t c := by
  obtain ⟨loop, f, hf, htear, hpos⟩ := htoken
  exact ⟨loop, f, hf, htear, Nat.lt_of_lt_of_le hpos (h.pending loop f)⟩

section Adds

variable (s : TcpServer)

theorem adds_queueInLoop (loop : ℕ) (f : Functor) : Adds s (s.queueInLoop loop f) where
  pending := fun loop' g => by
    rw [pending_queueInLoop]
    exact Nat.le_add_right _ _
  conns := fun _ => id
  handleClose := fun d => count_log_queueInLoop s loop f (by simp)

/-- Performing a function takes no functor out of a queue and closes no connection anew. -/
theorem adds_perform (th c : ℕ) (k : ServerConn) (p : TcpConnection × List Effect) :
    Adds s (s.perform th c k p) where
  pending := (grows_perform s th c k p).mono
  conns := by
    intro d hd
    rw [conns_perform]
    by_cases hdc : d = c
    · rw [hdc, Function.update_self]
      exact Option.some_ne_none _
    · rwa [Function.update_of_ne hdc]
  handleClose := by
    intro d
    rw [count_log_perform s th c k p (by simp), if_neg (by simp), Nat.add_zero]

theorem adds_did_destroyed (c : ℕ) : Adds s (s.did (.connnectionDestroyed c)) :=
  ⟨fun _ _ => Nat.le_refl _, fun _ => id, fun d => by
    rw [count_log_did, if_neg (by simp), Nat.add_zero]⟩

/-- `removeConnectionInLoop` queues the next hop. -/
theorem adds_removeConnectionInLoop (c : ℕ) : Adds s (s.removeConnectionInLoop c) := by
  unfold removeConnectionInLoop
  split
  · exact .refl s
  · rename_i k _
    have herased : Adds s { s with connections := s.connections.erase c } :=
      ⟨fun _ _ => Nat.le_refl _, fun _ => id, fun _ => rfl⟩
    exact herased.trans (adds_queueInLoop _ k.loop _)

/-- Running a functor only adds functors. -/
theorem adds_run (th : ℕ) (w : WriteResult) (f : Functor) : Adds s (s.run th w f) := by
  apply run_cases
  · exact .refl s
  · exact fun k p _ => adds_perform s th f.conn k p
  · exact fun k p _ => (adds_did_destroyed s f.conn).trans (adds_perform _ th f.conn k p)
  · exact adds_removeConnectionInLoop s f.conn

theorem adds_setConn (c : ℕ) (k : ServerConn) : Adds s (s.setConn c k) where
  pending := fun _ _ => Nat.le_refl _
  conns := by
    intro d hd
    show Function.update s.conns c (some k) d ≠ none
    by_cases hdc : d = c
    · rw [hdc, Function.update_self]
      exact Option.some_ne_none _
    · rwa [Function.update_of_ne hdc]
  handleClose := fun _ => rfl

/-- `send`, on any thread. -/
theorem adds_send (th c : ℕ) (k : ServerConn) (message : List UInt8) (w : WriteResult) :
    Adds s (s.send th c k message w) := by
  unfold send
  split
  · exact adds_perform s th c k _
  · split
    · exact adds_queueInLoop s k.loop _
    · exact .refl s

/-- `shutdown`, on any thread. -/
theorem adds_shutdown (th c : ℕ) (k : ServerConn) : Adds s (s.shutdown th c k) := by
  unfold shutdown
  split
  · exact adds_perform s th c k _
  · split
    · exact (adds_setConn s c _).trans (adds_queueInLoop _ k.loop _)
    · exact .refl s

/-- A new connection is made, and maybe its set-up queued. -/
theorem adds_newConnection (highWater : Bool) (highWaterMark : ℕ) :
    Adds s (s.newConnection highWater highWaterMark) := by
  obtain ⟨hconns, hloops, hlog, -, -⟩ := getNextLoop_same s
  have hnext : Adds s s.getNextLoop.2 := by
    constructor
    · intro loop f
      apply Nat.le_of_eq
      rw [pending, pending, hloops]
    · intro d hd
      rwa [hconns]
    · intro d
      rw [hlog]
  have hcreated : ∀ k, Adds s (s.created k) := by
    intro k
    have hset := hnext.trans (adds_setConn _ s.nextConnId k)
    exact ⟨hset.pending, hset.conns, hset.handleClose⟩
  rw [newConnection_eq]
  simp only
  split
  · exact (hcreated _).trans (adds_perform _ _ _ _ _)
  · exact (hcreated _).trans (adds_queueInLoop _ _ _)

end Adds

/-- Every connection that was closed has a hop of its handshake to run. -/
def Unfinished (s : TcpServer) : Prop :=
  ∀ c, 0 < s.log.count (.handleClose c) → s.conns c ≠ none ∧ Token s c

/-- As long as nothing is run or closed, every handshake stays unfinished. -/
theorem Adds.unfinished {s t : TcpServer} (h : Adds s t) (hs : Unfinished s) : Unfinished t := by
  intro c hc
  rw [h.handleClose] at hc
  obtain ⟨hconn, htoken⟩ := hs c hc
  exact ⟨h.conns c hconn, h.token htoken⟩

/-- Running a hop queues a hop. -/
theorem token_run {s : TcpServer} {loop : ℕ} {f : Functor} (hconn : s.conns f.conn ≠ none)
    (hf : f.teardown = true) (w : WriteResult) : Token (s.run loop w f) f.conn := by
  obtain ⟨k, hk⟩ := Option.ne_none_iff_exists'.mp hconn
  rw [run, hk]
  cases f with
  | removeConnectionInLoop c =>
    have hk' : s.conns c = some k := hk
    show Token (s.removeConnectionInLoop c) c
    rw [removeConnectionInLoop, hk']
    refine ⟨k.loop, .connnectionDestroyed c, rfl, rfl, ?_⟩
    rw [pending_queueInLoop, if_pos ⟨rfl, rfl⟩]
    omega
  | connnectionDestroyed c =>
    -- `closeCallback_` is run although the connection is disconnected
    have hgrows := grows_perform (s.did (.connnectionDestroyed c)) loop c k
      k.conn.connnectionDestroyed
    apply hgrows.token
    · exact List.mem_cons_self
    · show Function.update s.conns c _ c ≠ none
      rw [Function.update_self]
      exact Option.some_ne_none _
  | connectionEstablished c => cases hf
  | sendInLoop c message => cases hf
  | shutdownInLoop c => cases hf
  | writeCompleteCallback c => cases hf
  | highWaterMarkCallback c len => cases hf

/-- The functor that is run may be a hop: it has then queued the next one. -/
theorem unfinished_runFunctor {s : TcpServer} (hs : Unfinished s) {loop : ℕ} {f : Functor}
    {q : TaskQueue Functor} (hnext : (s.loops loop).next = some (f, q)) (w : WriteResult) :
    Unfinished ((s.popped loop q).run loop w f) := by
  have hadds := adds_run (s.popped loop q) loop w f
  intro c hc
  rw [hadds.handleClose] at hc
  obtain ⟨hconn, loop', g, hg, htear, hpos⟩ := hs c hc
  refine ⟨hadds.conns c hconn, ?_⟩
  by_cases hrun : loop' = loop ∧ g = f
  · -- the hop itself is run
    obtain ⟨-, rfl⟩ := hrun
    rw [← hg] at hconn ⊢
    have hpopped : (s.popped loop q).conns g.conn ≠ none := hconn
    exact token_run hpopped htear w
  · rw [pending_popped hnext, if_neg hrun, Nat.add_zero] at hpos
    exact hadds.token ⟨loop', g, hg, htear, hpos⟩

/-- A report that closes a connection starts its handshake. -/
theorem unfinished_handleEvent {s : TcpServer} (hs : Unfinished s) {c : ℕ} {k : ServerConn}
    (hk : s.conns c = some k) (revents : Mask) (r : ReadvResult) (w : WriteResult) :
    Unfinished (s.handleEvent c k revents r w) := by
  rw [handleEvent_eq]
  generalize k.conn.handleEvent revents r w = p
  have hadds := adds_perform (s.closing (p.2.count .closeCallback) c) k.loop c k p
  intro d hd
  rw [hadds.handleClose, count_closing] at hd
  by_cases hclose : d = c ∧ Effect.closeCallback ∈ p.2
  · obtain ⟨rfl, hmem⟩ := hclose
    refine ⟨by rw [conns_perform_self]; exact Option.some_ne_none _, ?_⟩
    apply (grows_perform _ k.loop d k p).token hmem
    show Function.update s.conns d _ d ≠ none
    rw [Function.update_self]
    exact Option.some_ne_none _
  · have hbefore : 0 < s.log.count (.handleClose d) := by
      by_cases hdc : d = c
      · have hzero : p.2.count .closeCallback = 0 :=
          List.count_eq_zero.mpr (fun hmem => hclose ⟨hdc, hmem⟩)
        rw [hzero, ite_self] at hd
        exact hd
      · rw [if_neg (by simp [hdc])] at hd
        exact hd
    obtain ⟨hconn, htoken⟩ := hs d hbefore
    exact ⟨hadds.conns d hconn, hadds.token htoken⟩

/-- No step finishes a handshake. -/
theorem unfinished_step {s t : TcpServer} {a : Label} (hs : Unfinished s)
    (hstep : step s a = some t) : Unfinished t := by
  cases a with
  | newConnection highWater highWaterMark =>
    rw [step] at hstep
    split at hstep <;> cases hstep
    exact (adds_newConnection s highWater highWaterMark).unfinished hs
  | handleEvent c revents r w =>
    obtain ⟨k, hk, -, rfl⟩ := step_handleEvent hstep
    exact unfinished_handleEvent hs hk revents r w
  | swap loop =>
    obtain ⟨q, hswap, rfl⟩ := step_swap hstep
    have hadds : Adds s (s.popped loop q) :=
      ⟨fun loop' f => Nat.le_of_eq (pending_swap hswap loop' f).symm, fun _ => id, fun _ => rfl⟩
    exact hadds.unfinished hs
  | runFunctor loop w =>
    obtain ⟨f, q, hnext, rfl⟩ := step_runFunctor hstep
    exact unfinished_runFunctor hs hnext w
  | send th c message w =>
    obtain ⟨k, -, rfl⟩ := Option.map_eq_some_iff.mp hstep
    exact (adds_send s th c k message w).unfinished hs
  | shutdown th c =>
    obtain ⟨k, -, rfl⟩ := Option.map_eq_some_iff.mp hstep
    exact (adds_shutdown s th c k).unfinished hs

/-- Once a connection has been closed, some loop has a hop of its handshake to run, for ever. -/
theorem handshake_never_ends {numThreads : ℕ} {writeComplete : Bool} {s : TcpServer}
    (h : Machine.Reachable step (new numThreads writeComplete) s) {c : ℕ}
    (hclose : .handleClose c ∈ s.log) :
    ∃ loop f, f.conn = c ∧ f.teardown = true ∧ f ∈ (s.loops loop).all := by
  have hstart : Unfinished (new numThreads writeComplete) := by
    intro d hd
    exact absurd hd (Nat.lt_irrefl 0)
  have hunfinished : Unfinished s :=
    Machine.reachable_invariant hstart (fun _ _ _ hs hstep => unfinished_step hs hstep) h
  obtain ⟨-, loop, f, hf, htear, hpos⟩ := hunfinished c (List.count_pos_iff.mpr hclose)
  exact ⟨loop, f, hf, htear, List.count_pos_iff.mp hpos⟩

end TcpServer
end Webservers
