import Webservers.TcpServer.Basic

/-!
# Queues and history of a server

What the operations of the server do to the task queues of its loops, to the connections and to
the history.

* `pending` counts how often a loop has a functor still to run, `pending_queueInLoop`,
  `pending_popped` and `pending_swap` how the count changes.
* `Grows`: what performing the effects of a function of one connection can add.
* `connections_perform`: what becomes of `connections_`.
* `newConnection_eq`, `handleEvent_eq` and the lemmas `step_...` take the machine's steps apart.
-/

namespace Webservers

/-- Neither the set-up nor the handshake. -/
def Functor.ordinary : Functor → Bool
  | .connectionEstablished _ | .connnectionDestroyed _ | .removeConnectionInLoop _ => false
  | _ => true

/-- A hop of the close handshake. -/
def Functor.teardown : Functor → Bool
  | .connnectionDestroyed _ | .removeConnectionInLoop _ => true
  | _ => false

namespace TcpServer

/-- How often a loop has `f` still to run. -/
def pending (s : TcpServer) (loop : ℕ) (f : Functor) : ℕ := (s.loops loop).all.count f

/-! ## Queueing -/

section Queues

variable (s : TcpServer)

/-- `queueInLoop` adds the functor to one queue. -/
theorem pending_queueInLoop (loop loop' : ℕ) (f g : Functor) :
    (s.queueInLoop loop g).pending loop' f =
      s.pending loop' f + if loop' = loop ∧ f = g then 1 else 0 := by
  unfold pending queueInLoop
  by_cases hloop : loop' = loop
  · subst hloop
    simp only [Function.update_self, TaskQueue.all_emplace, List.count_append, true_and]
    rw [List.count_singleton]
    by_cases hf : f = g
    · simp [hf]
    · simp [hf, Ne.symm hf]
  · simp only [Function.update_of_ne hloop, hloop, false_and, if_false, Nat.add_zero]

/-- It adds no entry to the history but its own. -/
theorem count_log_queueInLoop (loop : ℕ) (g : Functor) {e : Did} (he : e ≠ .queued g.conn) :
    (s.queueInLoop loop g).log.count e = s.log.count e := by
  show (s.log ++ [Did.queued g.conn]).count e = _
  rw [List.count_append, List.count_singleton]
  simp [Ne.symm he]

/-- An entry of the history is made once. -/
theorem count_log_did (e e' : Did) :
    (s.did e').log.count e = s.log.count e + if e = e' then 1 else 0 := by
  show (s.log ++ [e']).count e = _
  rw [List.count_append, List.count_singleton]
  by_cases he : e = e'
  · simp [he]
  · simp [he, Ne.symm he]

end Queues

/-! ## The effects of a function -/

/-- What performing the effects `es` of a function of connection `c` can add. -/
structure Grows (c : ℕ) (es : List Effect) (s t : TcpServer) : Prop where
  conns : t.conns = s.conns
  nextConnId : t.nextConnId = s.nextConnId
  mono : ∀ loop f, s.pending loop f ≤ t.pending loop f
  pending : ∀ loop f, ¬ (f.conn = c ∧ (f.ordinary ∨ f.teardown ∧ Effect.closeCallback ∈ es)) →
    t.pending loop f = s.pending loop f
  log : ∀ e, e ≠ .queued c → t.log.count e =
    s.log.count e + if e = .closeCallback c then es.count .closeCallback else 0
  /-- a `closeCallback` starts a handshake -/
  token : Effect.closeCallback ∈ es → s.conns c ≠ none →
    ∃ loop f, f.conn = c ∧ f.teardown = true ∧ 0 < t.pending loop f

/-- A function without a `closeCallback` may add nothing. -/
theorem Grows.refl (c : ℕ) (s : TcpServer) {es : List Effect} (h : Effect.closeCallback ∉ es) :
    Grows c es s s where
  conns := rfl
  nextConnId := rfl
  mono := fun _ _ => Nat.le_refl _
  pending := fun _ _ _ => rfl
  log := fun e _ => by rw [List.count_eq_zero_of_not_mem h, ite_self, Nat.add_zero]
  token := fun hin => absurd hin h

/-- Effects that are carried out one after the other. -/
theorem Grows.trans {c : ℕ} {es es' : List Effect} {s t u : TcpServer} (h : Grows c es s t)
    (h' : Grows c es' t u) : Grows c (es ++ es') s u where
  conns := h'.conns.trans h.conns
  nextConnId := h'.nextConnId.trans h.nextConnId
  mono := fun loop f => Nat.le_trans (h.mono loop f) (h'.mono loop f)
  pending := by
    intro loop f hf
    have hleft : ¬ (f.conn = c ∧ (f.ordinary ∨ f.teardown ∧ Effect.closeCallback ∈ es)) := by
      rintro ⟨hc, hord | ⟨htear, hin⟩⟩
      · exact hf ⟨hc, Or.inl hord⟩
      · exact hf ⟨hc, Or.inr ⟨htear, List.mem_append_left _ hin⟩⟩
    have hright : ¬ (f.conn = c ∧ (f.ordinary ∨ f.teardown ∧ Effect.closeCallback ∈ es')) := by
      rintro ⟨hc, hord | ⟨htear, hin⟩⟩
      · exact hf ⟨hc, Or.inl hord⟩
      · exact hf ⟨hc, Or.inr ⟨htear, List.mem_append_right _ hin⟩⟩
    rw [h'.pending loop f hright, h.pending loop f hleft]
  log := by
    intro e he
    rw [h'.log e he, h.log e he, List.count_append]
    split <;> omega
  token := by
    intro hin hc
    rcases List.mem_append.mp hin with hin | hin
    · obtain ⟨loop, f, hf, htear, hpos⟩ := h.token hin hc
      exact ⟨loop, f, hf, htear, Nat.lt_of_lt_of_le hpos (h'.mono loop f)⟩
    · exact h'.token hin (by rw [h.conns]; exact hc)

/-- Queueing an ordinary functor. -/
theorem grows_queue (s : TcpServer) (loop : ℕ) {f : Functor} (hf : f.ordinary = true)
    {es : List Effect} (h : Effect.closeCallback ∉ es) :
    Grows f.conn es s (s.queueInLoop loop f) where
  conns := rfl
  nextConnId := rfl
  mono := fun loop' g => by
    rw [pending_queueInLoop]
    exact Nat.le_add_right _ _
  pending := by
    intro loop' g hg
    have hne : g ≠ f := by
      rintro rfl
      exact hg ⟨rfl, Or.inl hf⟩
    rw [pending_queueInLoop, if_neg (fun hand => hne hand.2), Nat.add_zero]
  log := fun e he => by
    rw [count_log_queueInLoop s loop f he, List.count_eq_zero_of_not_mem h, ite_self, Nat.add_zero]
  token := fun hin => absurd hin h

/-- Queueing a hop of the handshake, from a server `u` that is `s` with the entry of the
`closeCallback` made. -/
theorem grows_hop {s u : TcpServer} (loop : ℕ) {f : Functor} (hf : f.teardown = true)
    (hconns : u.conns = s.conns) (hnext : u.nextConnId = s.nextConnId)
    (hloops : u.loops = s.loops) (hlog : u.log = (s.did (.closeCallback f.conn)).log) :
    Grows f.conn [.closeCallback] s (u.queueInLoop loop f) where
  conns := hconns
  nextConnId := hnext
  mono := fun loop' g => by
    rw [pending_queueInLoop, pending, pending, hloops]
    exact Nat.le_add_right _ _
  pending := by
    intro loop' g hg
    have hne : g ≠ f := by
      rintro rfl
      exact hg ⟨rfl, Or.inr ⟨hf, List.mem_singleton_self _⟩⟩
    rw [pending_queueInLoop, if_neg (fun hand => hne hand.2), Nat.add_zero, pending, pending,
      hloops]
  log := by
    intro e he
    rw [count_log_queueInLoop u loop f he, hlog, count_log_did]
    rfl
  token := fun _ _ => ⟨loop, f, rfl, hf, by rw [pending_queueInLoop, if_pos ⟨rfl, rfl⟩]; omega⟩

/-- `closeCallback_` queues one hop of the handshake. -/
theorem grows_closeCallback (s : TcpServer) (th c : ℕ) :
    Grows c [.closeCallback] s ((s.did (.closeCallback c)).removeConnection th c) := by
  unfold removeConnection
  by_cases hth : th = baseLoop
  · rw [if_pos hth, removeConnectionInLoop]
    cases hc : (s.did (.closeCallback c)).conns c with
    | none =>
      refine ⟨rfl, rfl, fun _ _ => Nat.le_refl _, fun _ _ _ => rfl, ?_, fun _ hne => absurd hc hne⟩
      intro e _
      rw [count_log_did]
      rfl
    | some k => exact grows_hop k.loop (f := .connnectionDestroyed c) rfl rfl rfl rfl rfl
  · rw [if_neg hth]
    exact grows_hop baseLoop (f := .removeConnectionInLoop c) rfl rfl rfl rfl rfl

theorem grows_effect (th c loop : ℕ) (s : TcpServer) (e : Effect) :
    Grows c [e] s (effect th c loop s e) := by
  cases e with
  | queueWriteComplete => exact grows_queue s loop (f := .writeCompleteCallback c) rfl (by decide)
  | queueHighWaterMark len =>
    exact grows_queue s loop (f := .highWaterMarkCallback c len) rfl (by simp)
  | closeCallback => exact grows_closeCallback s th c
  | write bytes => exact .refl c s (by simp)
  | shutdownWrite => exact .refl c s (by decide)
  | connectionCallback => exact .refl c s (by decide)
  | messageCallback => exact .refl c s (by decide)

/-- All the effects of a function, in order. -/
theorem grows_effects (th c loop : ℕ) (es : List Effect) (s : TcpServer) :
    Grows c es s (es.foldl (effect th c loop) s) := by
  induction es generalizing s with
  | nil => exact .refl c s List.not_mem_nil
  | cons e es ih => exact (grows_effect th c loop s e).trans (ih _)

theorem grows_perform (s : TcpServer) (th c : ℕ) (k : ServerConn)
    (p : TcpConnection × List Effect) :
    Grows c p.2 (s.setConn c { k with conn := p.1 }) (s.perform th c k p) :=
  grows_effects th c k.loop p.2 _

/-- The entries that performing makes, apart from queued functors: one for each
`closeCallback`. -/
theorem count_log_perform (s : TcpServer) (th c : ℕ) (k : ServerConn)
    (p : TcpConnection × List Effect) {e : Did} (he : e ≠ .queued c) :
    (s.perform th c k p).log.count e =
      s.log.count e + if e = .closeCallback c then p.2.count .closeCallback else 0 :=
  (grows_perform s th c k p).log e he

/-- Performing a function changes its connection only. -/
theorem conns_perform (s : TcpServer) (th c : ℕ) (k : ServerConn)
    (p : TcpConnection × List Effect) :
    (s.perform th c k p).conns = Function.update s.conns c (some { k with conn := p.1 }) :=
  (grows_perform s th c k p).conns

theorem conns_perform_self {s : TcpServer} {th c : ℕ} {k : ServerConn}
    {p : TcpConnection × List Effect} :
    (s.perform th c k p).conns c = some { k with conn := p.1 } := by
  rw [conns_perform, Function.update_self]

theorem nextConnId_perform (s : TcpServer) (th c : ℕ) (k : ServerConn)
    (p : TcpConnection × List Effect) : (s.perform th c k p).nextConnId = s.nextConnId :=
  (grows_perform s th c k p).nextConnId

/-! ## `connections_` -/

/-- `removeConnectionInLoop` erases a connection that there is. -/
theorem connections_removeConnectionInLoop {s : TcpServer} {c : ℕ} (h : s.conns c ≠ none) :
    (s.removeConnectionInLoop c).connections = s.connections.erase c := by
  obtain ⟨k, hk⟩ := Option.ne_none_iff_exists'.mp h
  unfold removeConnectionInLoop
  rw [hk]
  rfl

theorem connections_removeConnectionInLoop_sublist (s : TcpServer) (c : ℕ) :
    (s.removeConnectionInLoop c).connections.Sublist s.connections := by
  by_cases hc : s.conns c = none
  · simp only [removeConnectionInLoop, hc]
    exact List.Sublist.refl _
  · rw [connections_removeConnectionInLoop hc]
    exact List.erase_sublist

/-- Only a `closeCallback_` on the base loop's thread takes a connection out of `connections_`. -/
theorem connections_effect (th c loop : ℕ) (s : TcpServer) (e : Effect) :
    (effect th c loop s e).connections.Sublist s.connections ∧
      (e ≠ .closeCallback ∨ th ≠ baseLoop →
        (effect th c loop s e).connections = s.connections) := by
  cases e with
  | closeCallback =>
    by_cases hth : th = baseLoop
    · rw [effect, removeConnection, if_pos hth]
      refine ⟨connections_removeConnectionInLoop_sublist (s.did (.closeCallback c)) c, ?_⟩
      rintro (hne | hne)
      · exact absurd rfl hne
      · exact absurd hth hne
    · rw [effect, removeConnection, if_neg hth]
      exact ⟨List.Sublist.refl _, fun _ => rfl⟩
  | write | shutdownWrite | queueWriteComplete | queueHighWaterMark | connectionCallback
  | messageCallback => exact ⟨List.Sublist.refl _, fun _ => rfl⟩

/-- The same of all the effects of a function. -/
theorem connections_effects (th c loop : ℕ) (es : List Effect) (s : TcpServer) :
    (es.foldl (effect th c loop) s).connections.Sublist s.connections ∧
      (Effect.closeCallback ∉ es ∨ th ≠ baseLoop →
        (es.foldl (effect th c loop) s).connections = s.connections) := by
  induction es generalizing s with
  | nil => exact ⟨List.Sublist.refl _, fun _ => rfl⟩
  | cons e es ih =>
    obtain ⟨hsub, hsame⟩ := connections_effect th c loop s e
    obtain ⟨hsub', hsame'⟩ := ih (effect th c loop s e)
    refine ⟨hsub'.trans hsub, fun h => ?_⟩
    rw [List.mem_cons, not_or] at h
    rw [List.foldl_cons, hsame' (h.imp_left And.right), hsame (h.imp_left fun hne => Ne.symm hne.1)]

/-- What performing a function of a connection does to `connections_`. -/
theorem connections_perform (s : TcpServer) (th c : ℕ) (k : ServerConn)
    (p : TcpConnection × List Effect) :
    (s.perform th c k p).connections.Sublist s.connections ∧
      (Effect.closeCallback ∉ p.2 ∨ th ≠ baseLoop →
        (s.perform th c k p).connections = s.connections) :=
  connections_effects th c k.loop p.2 (s.setConn c { k with conn := p.1 })

/-! ## Steps of the loops -/

section Run

variable {s : TcpServer} {loop : ℕ} {f : Functor} {q : TaskQueue Functor}

/-- The server with the next functor of a loop taken out. -/
def popped (s : TcpServer) (loop : ℕ) (q : TaskQueue Functor) : TcpServer :=
  { s with loops := Function.update s.loops loop q }

/-- The functor that is taken out is pending once less. -/
theorem pending_popped (h : (s.loops loop).next = some (f, q)) (loop' : ℕ) (g : Functor) :
    s.pending loop' g =
      (s.popped loop q).pending loop' g + if loop' = loop ∧ g = f then 1 else 0 := by
  unfold pending popped
  by_cases hloop : loop' = loop
  · subst hloop
    simp only [Function.update_self, true_and]
    rw [TaskQueue.all_next h, List.count_cons]
    by_cases hg : g = f
    · simp [hg]
    · simp [hg, Ne.symm hg]
  · simp only [Function.update_of_ne hloop, hloop, false_and, if_false, Nat.add_zero]

theorem pending_pos_of_next (hnext : (s.loops loop).next = some (f, q)) :
    0 < s.pending loop f := by
  rw [pending_popped hnext, if_pos ⟨rfl, rfl⟩]
  omega

/-- A `swap` takes nothing out. -/
theorem pending_swap (h : (s.loops loop).swap = some q)
    (loop' : ℕ) (f : Functor) : (s.popped loop q).pending loop' f = s.pending loop' f := by
  unfold pending popped
  by_cases hloop : loop' = loop
  · subst hloop
    simp only [Function.update_self]
    rw [TaskQueue.all_swap h]
  · simp only [Function.update_of_ne hloop]

end Run

theorem nextConnId_removeConnectionInLoop (s : TcpServer) (c : ℕ) :
    (s.removeConnectionInLoop c).nextConnId = s.nextConnId := by
  unfold removeConnectionInLoop
  split <;> rfl

/-- What running a functor can do: nothing, a function of its connection, which is noted first when
it is `connnectionDestroyed`, or `removeConnectionInLoop`. -/
theorem run_cases {P : TcpServer → Prop} (s : TcpServer) (th : ℕ) (w : WriteResult) (f : Functor)
    (hnothing : P s)
    (hperform : ∀ k p, s.conns f.conn = some k → P (s.perform th f.conn k p))
    (hdestroyed : ∀ k p, s.conns f.conn = some k →
      P ((s.did (.connnectionDestroyed f.conn)).perform th f.conn k p))
    (hremove : P (s.removeConnectionInLoop f.conn)) : P (s.run th w f) := by
  unfold run
  split
  · exact hnothing
  · rename_i k hk
    cases f with
    | connectionEstablished c => exact hperform k _ hk
    | connnectionDestroyed c => exact hdestroyed k _ hk
    | removeConnectionInLoop c => exact hremove
    | sendInLoop c message => exact hperform k _ hk
    | shutdownInLoop c => exact hperform k _ hk
    | writeCompleteCallback c => exact hnothing
    | highWaterMarkCallback c len => exact hnothing

/-- Running a functor makes no connection. -/
theorem nextConnId_run (s : TcpServer) (th : ℕ) (w : WriteResult) (f : Functor) :
    (s.run th w f).nextConnId = s.nextConnId := by
  apply run_cases (P := fun t => t.nextConnId = s.nextConnId)
  · rfl
  · exact fun k p _ => nextConnId_perform s th f.conn k p
  · exact fun k p _ => nextConnId_perform (s.did (.connnectionDestroyed f.conn)) th f.conn k p
  · exact nextConnId_removeConnectionInLoop s f.conn

/-- The server with the entries that a report makes before its effects are carried out. -/
def closing (s : TcpServer) (n c : ℕ) : TcpServer :=
  { s with log := s.log ++ List.replicate n (.handleClose c) }

theorem count_closing (s : TcpServer) (n c : ℕ) (e : Did) :
    (s.closing n c).log.count e = s.log.count e + if e = .handleClose c then n else 0 := by
  show (s.log ++ List.replicate n (Did.handleClose c)).count e = _
  rw [List.count_append, List.count_replicate]
  by_cases he : e = .handleClose c
  · simp [he]
  · simp [he, Ne.symm he]

/-- A report, with its entries in the history first. -/
theorem handleEvent_eq (s : TcpServer) (c : ℕ) (k : ServerConn) (revents : Mask)
    (r : ReadvResult) (w : WriteResult) :
    s.handleEvent c k revents r w =
      (s.closing ((k.conn.handleEvent revents r w).2.count .closeCallback) c).perform k.loop c k
        (k.conn.handleEvent revents r w) := rfl

/-! ## New connections -/

/-- `newConnection` before the connection is established. -/
def created (s : TcpServer) (k : ServerConn) : TcpServer :=
  { s.getNextLoop.2.setConn s.nextConnId k with
    nextConnId := s.nextConnId + 1
    connections := s.nextConnId :: s.getNextLoop.2.connections }

/-- The round robin moves `next_` only. -/
theorem getNextLoop_same (s : TcpServer) :
    s.getNextLoop.2.conns = s.conns ∧ s.getNextLoop.2.loops = s.loops ∧
      s.getNextLoop.2.log = s.log ∧ s.getNextLoop.2.nextConnId = s.nextConnId ∧
      s.getNextLoop.2.writeCompleteCallback = s.writeCompleteCallback := by
  unfold getNextLoop
  split <;> exact ⟨rfl, rfl, rfl, rfl, rfl⟩

/-- The connection that `newConnection` makes. -/
def newConn (s : TcpServer) (highWater : Bool) (highWaterMark : ℕ) : ServerConn :=
  ⟨s.getNextLoop.1, .new s.writeCompleteCallback highWater highWaterMark⟩

/-- `newConnection`, by where the connection's loop is. -/
theorem newConnection_eq (s : TcpServer) (highWater : Bool) (highWaterMark : ℕ) :
    s.newConnection highWater highWaterMark =
      let k := s.newConn highWater highWaterMark
      if k.loop = baseLoop then
        (s.created k).perform baseLoop s.nextConnId k k.conn.connectionEstablished
      else (s.created k).queueInLoop k.loop (.connectionEstablished s.nextConnId) := by
  obtain ⟨-, -, -, hnext, hwrite⟩ := getNextLoop_same s
  unfold newConnection created newConn
  simp only [hnext, hwrite]

theorem nextConnId_newConnection (s : TcpServer) (highWater : Bool) (highWaterMark : ℕ) :
    (s.newConnection highWater highWaterMark).nextConnId = s.nextConnId + 1 := by
  rw [newConnection_eq]
  simp only
  split
  · exact nextConnId_perform _ _ _ _ _
  · rfl

/-! ## The machine -/

section Steps

variable {s t : TcpServer}

/-- Only a registered channel is reported. -/
theorem step_handleEvent {c : ℕ} {revents : Mask} {r : ReadvResult} {w : WriteResult}
    (h : step s (.handleEvent c revents r w) = some t) :
    ∃ k, s.conns c = some k ∧ k.conn.channel.index = .kAdded ∧
      t = s.handleEvent c k revents r w := by
  rw [step] at h
  split at h
  · cases h
  · rename_i k hc
    split at h <;> cases h
    rename_i hindex
    exact ⟨k, hc, hindex.2, rfl⟩

theorem step_runFunctor {loop : ℕ} {w : WriteResult} (h : step s (.runFunctor loop w) = some t) :
    ∃ f q, (s.loops loop).next = some (f, q) ∧ t = (s.popped loop q).run loop w f := by
  obtain ⟨⟨f, q⟩, hnext, heq⟩ := Option.map_eq_some_iff.mp h
  exact ⟨f, q, hnext, heq.symm⟩

theorem step_swap {loop : ℕ} (h : step s (.swap loop) = some t) :
    ∃ q, (s.loops loop).swap = some q ∧ t = s.popped loop q := by
  obtain ⟨q, hswap, heq⟩ := Option.map_eq_some_iff.mp h
  exact ⟨q, hswap, heq.symm⟩

end Steps

end TcpServer
end Webservers
