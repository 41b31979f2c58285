import Webservers.Lib.Machine
import Webservers.TcpServer.QueueTheorems

/-!
# A server and its callers (src/TcpConnection.cc)

In `TcpServer` a call of `send` or `shutdown` is one step, on whatever thread. In the code it loads
`state_`, may store it, and queues a functor or calls it, and other threads go on in between;
`connnectionDestroyed` stores `state_` twice. `SharedServer` is the server with these steps apart.

* `calls` says where each thread stands. A thread that is in a call does nothing else.
* A report remains one step. Its callbacks make one store of `state_` at most, and what they load
  comes after it. What the user's callbacks call in turn comes after the report.
* `exec_of_step`: a step of `TcpServer` is a run of `SharedServer` in which nobody comes in between.
-/

namespace Webservers

/-- Where a thread stands in a function that has accessed `state_` of the connection `c`. -/
inductive AccessPc where
  | idle
  /-- `send` has found `kConnected` -/
  | sendLoaded (c : ℕ) (message : List UInt8)
  /-- `shutdown` has found `kConnected` -/
  | shutdownLoaded (c : ℕ)
  /-- `shutdown` on another thread than the connection's has stored `kDisconnecting` -/
  | shutdownStored (c : ℕ)
  /-- `connnectionDestroyed` has stored `kConnected`, and `state_` is now `state` -/
  | destroying (c : ℕ) (state : StateE)
deriving Repr, DecidableEq

/-- The connection whose function the thread is in. -/
def AccessPc.conn : AccessPc → Option ℕ
  | .idle => none
  | .sendLoaded c _ | .shutdownLoaded c | .shutdownStored c | .destroying c _ => some c

/-- The server, with what each thread is in the middle of. A connection in the middle of its
`connnectionDestroyed` is still in `server` as that found it: the value of `state_` is with the
call, and the second store does not ask for it. -/
structure SharedServer where
  server : TcpServer
  calls : ℕ → AccessPc

namespace SharedServer

/-- A server after `start()`, with no thread in a call. -/
def start (numThreads : ℕ) (writeComplete : Bool) : SharedServer where
  server := .new numThreads writeComplete
  calls := fun _ => .idle

/-- The thread goes on to `pc`. -/
def setCall (s : SharedServer) (th : ℕ) (pc : AccessPc) : SharedServer :=
  { s with calls := Function.update s.calls th pc }

theorem calls_setCall_self (s : SharedServer) (th : ℕ) (pc : AccessPc) :
    (s.setCall th pc).calls th = pc := Function.update_self _ _ _

theorem calls_setCall_other (s : SharedServer) {th th' : ℕ} (h : th' ≠ th) (pc : AccessPc) :
    (s.setCall th pc).calls th' = s.calls th' := Function.update_of_ne h _ _

/-- The thread is done with its call, which has made `server` of the server. -/
def finish (s : SharedServer) (th : ℕ) (server : TcpServer) : SharedServer where
  server := server
  calls := Function.update s.calls th .idle

/-! ## `state_` -/

/-- The value of `state_` between the two stores of `connnectionDestroyed`. -/
def destroying (s : SharedServer) (c : ℕ) (k : ServerConn) : Option StateE :=
  match s.calls k.loop with
  | .destroying d state => if d = c then some state else none
  | _ => none

/-- A load of `state_` of the connection `c`, whose entry is `k` -/
def state (s : SharedServer) (c : ℕ) (k : ServerConn) : StateE :=
  (s.destroying c k).getD k.conn.state

/-- `setState(state)` on another thread than the connection's -/
def setState (s : SharedServer) (c : ℕ) (k : ServerConn) (state : StateE) : SharedServer :=
  match s.destroying c k with
  | some _ => s.setCall k.loop (.destroying c state)
  | none => { s with server := s.server.setConn c { k with conn := k.conn.setState state } }

/-! ## Steps -/

/-- The loop whose thread makes a step. -/
def threadOf (s : TcpServer) : TcpServer.Label → Option ℕ
  | .newConnection _ _ => some TcpServer.baseLoop
  | .handleEvent c _ _ _ => (s.conns c).map ServerConn.loop
  | .swap loop | .runFunctor loop _ => some loop
  | .send _ _ _ _ | .shutdown _ _ => none

/-- A step of a loop; a `connnectionDestroyed` gets as far as its first store. -/
def serve (s : SharedServer) (a : TcpServer.Label) : Option SharedServer :=
  match a with
  | .runFunctor loop _ =>
    match (s.server.loops loop).next with
    | some (.connnectionDestroyed c, q) =>
      some ((s.finish loop (s.server.popped loop q)).setCall loop (.destroying c .kConnected))
    | _ => (s.server.step a).map fun t => { s with server := t }
  | _ => (s.server.step a).map fun t => { s with server := t }

/-- The rest of `send`, of `shutdown` or of `connnectionDestroyed`, up to the next access. -/
def advance (s : SharedServer) (th : ℕ) (w : WriteResult) : Option SharedServer :=
  match s.calls th with
  | .idle => none
  | .sendLoaded c message =>
    (s.server.conns c).map fun k =>
      if th = k.loop then s.finish th (s.server.perform th c k (k.conn.sendInLoop message w))
      else s.finish th (s.server.queueInLoop k.loop (.sendInLoop c message))
  | .shutdownLoaded c =>
    (s.server.conns c).map fun k =>
      if th = k.loop then
        s.finish th (s.server.perform th c k (k.conn.setState .kDisconnecting).shutdownInLoop)
      else (s.setState c k .kDisconnecting).setCall th (.shutdownStored c)
  | .shutdownStored c =>
    (s.server.conns c).map fun k =>
      s.finish th (s.server.queueInLoop k.loop (.shutdownInLoop c))
  | .destroying c _ => some (s.finish th (s.server.run th w (.connnectionDestroyed c)))

/-- A step of one thread. -/
inductive Label where
  | serve (a : TcpServer.Label)
  /-- `send(message)`: the load of `state_` -/
  | send (th c : ℕ) (message : List UInt8)
  /-- `shutdown()`: the load of `state_` -/
  | shutdown (th c : ℕ)
  /-- the thread goes on with its call; `w` is what a `write` finds -/
  | advance (th : ℕ) (w : WriteResult)
deriving Repr, DecidableEq

/-- A call that does not find `kConnected` returns at once. -/
def call (s : SharedServer) (th c : ℕ) (pc : AccessPc) : Option SharedServer :=
  if s.calls th = .idle then
    (s.server.conns c).map fun k => if s.state c k = .kConnected then s.setCall th pc else s
  else none

/-- A thread that is in a call can only go on with it. -/
def step (s : SharedServer) : Label → Option SharedServer
  | .serve a => if ∃ th ∈ threadOf s.server a, s.calls th = .idle then s.serve a else none
  | .send th c message => s.call th c (.sendLoaded c message)
  | .shutdown th c => s.call th c (.shutdownLoaded c)
  | .advance th w => s.advance th w

/-! ## What a step can do -/

section Steps

variable {s t : SharedServer} {th c : ℕ} {w : WriteResult}

/-- What a load finds while no one destroys the connection. -/
theorem state_of_idle {k : ServerConn} (h : s.calls k.loop = .idle) :
    s.state c k = k.conn.state := by
  rw [state, destroying, h]
  rfl

/-- A step of a loop is one of the server, or the first half of `connnectionDestroyed`. -/
theorem step_serve {a : TcpServer.Label} (h : s.step (.serve a) = some t) :
    (∃ u, s.server.step a = some u ∧ (∀ th c message w, a ≠ .send th c message w) ∧
        (∀ th c, a ≠ .shutdown th c) ∧ t = { s with server := u }) ∨
      ∃ loop w c q, a = .runFunctor loop w ∧
        (s.server.loops loop).next = some (.connnectionDestroyed c, q) ∧
        t = (s.finish loop (s.server.popped loop q)).setCall loop (.destroying c .kConnected) := by
  rw [step, Option.ite_none_right_eq_some] at h
  obtain ⟨⟨th, hth, -⟩, h⟩ := h
  cases a with
  | newConnection | handleEvent | swap =>
    obtain ⟨u, hu, rfl⟩ := Option.map_eq_some_iff.mp h
    exact .inl ⟨u, hu, fun _ _ _ _ => TcpServer.Label.noConfusion,
      fun _ _ => TcpServer.Label.noConfusion, rfl⟩
  | runFunctor loop w =>
    simp only [serve] at h
    split at h
    · rename_i c q hnext
      cases h
      exact .inr ⟨loop, w, c, q, rfl, hnext, rfl⟩
    · obtain ⟨u, hu, rfl⟩ := Option.map_eq_some_iff.mp h
      exact .inl ⟨u, hu, fun _ _ _ _ => TcpServer.Label.noConfusion,
        fun _ _ => TcpServer.Label.noConfusion, rfl⟩
  | send | shutdown => cases hth

/-- A load finds `kConnected`, or nothing happens. -/
theorem call_cases {pc : AccessPc} (h : s.call th c pc = some t) :
    t = s ∨ ∃ k, s.server.conns c = some k ∧ s.state c k = .kConnected ∧ t = s.setCall th pc := by
  rw [call, Option.ite_none_right_eq_some] at h
  obtain ⟨k, hk, heq⟩ := Option.map_eq_some_iff.mp h.2
  split at heq
  · rename_i hstate
    exact .inr ⟨k, hk, hstate, heq.symm⟩
  · exact .inl heq.symm

section Advance

variable {k : ServerConn} (hc : s.server.conns c = some k)
include hc

/-- `send` ends with `sendInLoop`, called or queued. -/
theorem advance_sendLoaded {message : List UInt8} (h : s.calls th = .sendLoaded c message) :
    s.advance th w = some (s.finish th
      (if th = k.loop then s.server.perform th c k (k.conn.sendInLoop message w)
      else s.server.queueInLoop k.loop (.sendInLoop c message))) := by
  rw [advance, h]
  simp only [hc, Option.map_some]
  split <;> rfl

/-- `shutdown` stores, and is done on the connection's own thread. -/
theorem advance_shutdownLoaded (h : s.calls th = .shutdownLoaded c) :
    s.advance th w = some
      (if th = k.loop then
        s.finish th (s.server.perform th c k (k.conn.setState .kDisconnecting).shutdownInLoop)
      else (s.setState c k .kDisconnecting).setCall th (.shutdownStored c)) := by
  rw [advance, h]
  simp only [hc, Option.map_some]

/-- On another one it still has to queue. -/
theorem advance_shutdownStored (h : s.calls th = .shutdownStored c) :
    s.advance th w = some (s.finish th (s.server.queueInLoop k.loop (.shutdownInLoop c))) := by
  rw [advance, h]
  simp only [hc, Option.map_some]

end Advance

end Steps

/-! ## Calls without interruption -/

/-- A server with no thread in a call. -/
def quiet (s : TcpServer) : SharedServer := ⟨s, fun _ => .idle⟩

section Quiet

variable {s t : TcpServer} {th c : ℕ} {k : ServerConn}

/-- The end of the only call there is. -/
theorem finish_quiet (s t : TcpServer) (th : ℕ) (pc : AccessPc) :
    ((quiet s).setCall th pc).finish th t = quiet t := by
  simp only [finish, setCall, quiet, Function.update_idem]
  rw [Function.update_eq_self_iff.mpr rfl]

theorem setConn_self (hc : s.conns c = some k) : s.setConn c k = s := by
  rw [TcpServer.setConn, Function.update_eq_self_iff.mpr hc.symm]

/-- A call that finds `kConnected` while nobody else is in one. -/
theorem call_quiet (hc : s.conns c = some k) (hstate : k.conn.state = .kConnected)
    (pc : AccessPc) : (quiet s).call th c pc = some ((quiet s).setCall th pc) := by
  have hload : (quiet s).state c k = .kConnected := (state_of_idle rfl).trans hstate
  rw [call, if_pos (by rfl), show (quiet s).server.conns c = some k from hc, Option.map_some,
    if_pos hload]

/-- A call that does not find it. -/
theorem call_quiet_refused (hc : s.conns c = some k) (hstate : k.conn.state ≠ .kConnected)
    (pc : AccessPc) : (quiet s).call th c pc = some (quiet s) := by
  have hload : (quiet s).state c k ≠ .kConnected := by
    rw [state_of_idle rfl]
    exact hstate
  rw [call, if_pos (by rfl), show (quiet s).server.conns c = some k from hc, Option.map_some,
    if_neg hload]

/-- `send` and `shutdown` do nothing when they do not find `kConnected`. -/
theorem send_refused (hc : s.conns c = some k) (hstate : k.conn.state ≠ .kConnected)
    (message : List UInt8) (w : WriteResult) : s.send th c k message w = s := by
  rw [TcpServer.send, TcpConnection.send, if_neg hstate, if_neg hstate, ite_eq_right_iff]
  exact fun _ => setConn_self hc

theorem shutdown_refused (hc : s.conns c = some k) (hstate : k.conn.state ≠ .kConnected) :
    s.shutdown th c k = s := by
  rw [TcpServer.shutdown, TcpConnection.shutdown, if_neg hstate, if_neg hstate, ite_eq_right_iff]
  exact fun _ => setConn_self hc

/-- A `send` without interruption. -/
theorem exec_send (hc : s.conns c = some k) (message : List UInt8) (w : WriteResult) :
    ∃ as, Machine.exec step (quiet s) as = some (quiet (s.send th c k message w)) := by
  by_cases hstate : k.conn.state = .kConnected
  · have hload : step (quiet s) (.send th c message) =
        some ((quiet s).setCall th (.sendLoaded c message)) := call_quiet hc hstate _
    have hrest : step ((quiet s).setCall th (.sendLoaded c message)) (.advance th w) =
        some (quiet (s.send th c k message w)) := by
      rw [step, advance_sendLoaded (k := k) hc (calls_setCall_self _ _ _), finish_quiet,
        TcpServer.send, TcpConnection.send, if_pos hstate, if_pos hstate]
      rfl
    exact ⟨[.send th c message, .advance th w], Machine.exec_cons_eq_some.mpr
      ⟨_, hload, Machine.exec_cons_eq_some.mpr ⟨_, hrest, rfl⟩⟩⟩
  · rw [send_refused hc hstate]
    exact ⟨[.send th c message], Machine.exec_cons_eq_some.mpr
      ⟨_, call_quiet_refused hc hstate _, rfl⟩⟩

/-- A `shutdown` without interruption. -/
theorem exec_shutdown (hc : s.conns c = some k) :
    ∃ as, Machine.exec step (quiet s) as = some (quiet (s.shutdown th c k)) := by
  by_cases hstate : k.conn.state = .kConnected
  · have hload : step (quiet s) (.shutdown th c) =
        some ((quiet s).setCall th (.shutdownLoaded c)) := call_quiet hc hstate _
    have hnext := advance_shutdownLoaded (s := (quiet s).setCall th (.shutdownLoaded c))
      (w := .wrote 0) hc (calls_setCall_self _ th _)
    rw [TcpServer.shutdown, TcpConnection.shutdown, if_pos hstate, if_pos hstate]
    by_cases hth : th = k.loop
    · rw [if_pos hth, finish_quiet] at hnext
      rw [if_pos hth]
      exact ⟨[.shutdown th c, .advance th (.wrote 0)], Machine.exec_cons_eq_some.mpr
        ⟨_, hload, Machine.exec_cons_eq_some.mpr ⟨_, hnext, rfl⟩⟩⟩
    · rw [if_neg hth] at hnext ⊢
      -- the store, and then the functor
      have hstored : ((quiet s).setCall th (.shutdownLoaded c)).setState c k .kDisconnecting =
          (quiet (s.setConn c { k with conn := k.conn.setState .kDisconnecting })).setCall th
            (.shutdownLoaded c) := by
        have hnot : ((quiet s).setCall th (.shutdownLoaded c)).destroying c k = none := by
          rw [destroying, calls_setCall_other _ (Ne.symm hth)]
          rfl
        rw [setState, hnot]
        rfl
      rw [hstored] at hnext
      have hlast := advance_shutdownStored (w := .wrote 0)
        (s := ((quiet (s.setConn c { k with conn := k.conn.setState .kDisconnecting })).setCall th
            (.shutdownLoaded c)).setCall th (.shutdownStored c))
        (Function.update_self c _ _) (calls_setCall_self _ th _)
      refine ⟨[.shutdown th c, .advance th (.wrote 0), .advance th (.wrote 0)],
        Machine.exec_cons_eq_some.mpr ⟨_, hload, Machine.exec_cons_eq_some.mpr
          ⟨_, hnext, Machine.exec_cons_eq_some.mpr ⟨_, hlast, ?_⟩⟩⟩⟩
      simp only [Machine.exec_nil, setCall, finish, quiet, Function.update_idem]
      rw [Function.update_eq_self_iff.mpr rfl]
  · rw [shutdown_refused hc hstate]
    exact ⟨[.shutdown th c], Machine.exec_cons_eq_some.mpr
      ⟨_, call_quiet_refused hc hstate _, rfl⟩⟩

/-- A functor, run to its end. -/
theorem exec_runFunctor {loop : ℕ} {w : WriteResult}
    (h : s.step (.runFunctor loop w) = some t) :
    ∃ as, Machine.exec step (quiet s) as = some (quiet t) := by
  obtain ⟨f, q, hnext, rfl⟩ := TcpServer.step_runFunctor h
  have hidle : ∃ th ∈ threadOf (quiet s).server (.runFunctor loop w),
      (quiet s).calls th = .idle := ⟨loop, rfl, rfl⟩
  have hnext' : ((quiet s).server.loops loop).next = some (f, q) := hnext
  by_cases hf : ∃ c, f = .connnectionDestroyed c
  · obtain ⟨c, rfl⟩ := hf
    have hfirst : step (quiet s) (.serve (.runFunctor loop w)) =
        some ((quiet (s.popped loop q)).setCall loop (.destroying c .kConnected)) := by
      rw [step, if_pos hidle, serve, hnext']
      simp only [finish, setCall, quiet, Function.update_idem]
    have hsecond : step ((quiet (s.popped loop q)).setCall loop (.destroying c .kConnected))
        (.advance loop w) =
          some (quiet ((s.popped loop q).run loop w (.connnectionDestroyed c))) := by
      rw [step, advance, calls_setCall_self]
      exact congrArg some (finish_quiet (s.popped loop q) _ loop (.destroying c .kConnected))
    exact ⟨[.serve (.runFunctor loop w), .advance loop w], Machine.exec_cons_eq_some.mpr
      ⟨_, hfirst, Machine.exec_cons_eq_some.mpr ⟨_, hsecond, rfl⟩⟩⟩
  · refine ⟨[.serve (.runFunctor loop w)], Machine.exec_cons_eq_some.mpr ⟨_, ?_, rfl⟩⟩
    rw [step, if_pos hidle, serve, hnext']
    split
    · rename_i c q' heq
      rw [Option.some.injEq, Prod.mk.injEq] at heq
      exact absurd ⟨c, heq.1⟩ hf
    · rw [show (quiet s).server.step (.runFunctor loop w) = _ from h]
      rfl

/-- A step of `TcpServer` is a run in which no thread comes between the accesses of another. -/
theorem exec_of_step {a : TcpServer.Label} (h : s.step a = some t) :
    ∃ as, Machine.exec step (quiet s) as = some (quiet t) := by
  have hserve : ∀ th, threadOf s a = some th →
      (quiet s).serve a = (s.step a).map (fun u => { quiet s with server := u }) →
      ∃ as, Machine.exec step (quiet s) as = some (quiet t) := by
    intro th hth heq
    refine ⟨[.serve a], Machine.exec_cons_eq_some.mpr ⟨quiet t, ?_, rfl⟩⟩
    rw [step, if_pos ⟨th, hth, rfl⟩, heq, h]
    rfl
  cases a with
  | newConnection highWater highWaterMark => exact hserve TcpServer.baseLoop rfl rfl
  | handleEvent c revents r w =>
    obtain ⟨k, hk, -, -⟩ := TcpServer.step_handleEvent h
    exact hserve k.loop (by rw [threadOf, hk]; rfl) rfl
  | swap loop => exact hserve loop rfl rfl
  | runFunctor loop w => exact exec_runFunctor h
  | send th c message w =>
    obtain ⟨k, hk, rfl⟩ := Option.map_eq_some_iff.mp h
    exact exec_send hk message w
  | shutdown th c =>
    obtain ⟨k, hk, rfl⟩ := Option.map_eq_some_iff.mp h
    exact exec_shutdown hk

/-- So the runs of `TcpServer` are runs of `SharedServer`. -/
theorem exec_of_exec {as : List TcpServer.Label} (h : Machine.exec TcpServer.step s as = some t) :
    ∃ bs, Machine.exec step (quiet s) bs = some (quiet t) := by
  induction as generalizing s with
  | nil =>
    obtain rfl : s = t := Option.some.inj h
    exact ⟨[], rfl⟩
  | cons a as ih =>
    obtain ⟨u, hu, hrest⟩ := Machine.exec_cons_eq_some.mp h
    obtain ⟨bs, hbs⟩ := exec_of_step hu
    obtain ⟨cs, hcs⟩ := ih hrest
    exact ⟨bs ++ cs, Machine.exec_append_eq_some.mpr ⟨quiet u, hbs, hcs⟩⟩

end Quiet

end SharedServer
end Webservers
