import Webservers.Lib.Machine
import Webservers.TcpConnection.EventTheorems
import Webservers.TcpServer.QueueTheorems

/-!
# Thread confinement

Which functions a step of the machine executes, and on which thread. `runInLoop` executes at
once or queues, depending on the caller, and a functor is executed by the thread of the loop it
was queued in; so everything rests on where functors are queued. `Homed` says that each functor
waits in the loop it belongs to: that of its connection, or the base loop for
`removeConnectionInLoop`.

`executions` lists the executions of a step in order, those nested in others included.
`step_conns_same` and `step_connections_same` say that it leaves out nothing that touches a
connection or `connections_`, except the store to `state_` that `shutdown()` makes on the
caller's thread.
-/

namespace Webservers
namespace TcpServer

/-- The functions whose thread matters. -/
inductive Member where
  | handleRead
  | handleWrite
  | handleClose
  | sendInLoop
  | shutdownInLoop
  | connectionEstablished
  | connnectionDestroyed
  /-- of the server, with its accesses to `nextConnId_` and `connections_` -/
  | newConnection
  /-- of the server, with its access to `connections_` -/
  | removeConnectionInLoop
deriving Repr, DecidableEq

/-- Is it a member of the server? -/
def Member.ofServer : Member → Bool
  | .newConnection | .removeConnectionInLoop => true
  | _ => false

structure Execution where
  thread : ℕ
  member : Member
  conn : ℕ
deriving Repr, DecidableEq

/-- What carrying out the effects of a function on thread `th` executes: `closeCallback_` is
`removeConnection`, whose `runInLoop` executes at once on the base loop's thread. -/
def nested (th c : ℕ) (effects : List Effect) : List Execution :=
  effects.flatMap fun
    | .closeCallback => if th = baseLoop then [⟨th, .removeConnectionInLoop, c⟩] else []
    | _ => []

/-- A function of connection `c` is executed on thread `th`, with these effects. -/
def executes (th c : ℕ) (member : Member) (effects : List Effect) : List Execution :=
  ⟨th, member, c⟩ :: nested th c effects

/-- The functions of a connection that a report of the poller reaches. -/
def eventMembers (k : TcpConnection) (revents : Mask) (r : ReadvResult) (w : WriteResult) :
    List Member :=
  (if TcpConnection.Hup revents then [.handleClose] else []) ++
  (if TcpConnection.Readable revents then
    .handleRead :: if (k.inputBuffer.readFd r).2 = .count 0 then [.handleClose] else []
   else []) ++
  (if revents &&& EPOLLOUT ≠ 0 then
    .handleWrite ::
      if .shutdownWrite ∈ ((k.beforeWrite revents r).1.handleWrite w).2 then [.shutdownInLoop]
      else []
   else [])

/-- What running a functor on thread `th` executes. -/
def functorExecutions (s : TcpServer) (th : ℕ) (w : WriteResult) (f : Functor) :
    List Execution :=
  match s.conns f.conn with
  | none => []
  | some k =>
    match f with
    | .connectionEstablished c =>
      executes th c .connectionEstablished k.conn.connectionEstablished.2
    | .connnectionDestroyed c => executes th c .connnectionDestroyed k.conn.connnectionDestroyed.2
    | .removeConnectionInLoop c => [⟨th, .removeConnectionInLoop, c⟩]
    | .sendInLoop c message => executes th c .sendInLoop (k.conn.sendInLoop message w).2
    | .shutdownInLoop c => executes th c .shutdownInLoop k.conn.shutdownInLoop.2
    | .writeCompleteCallback _ | .highWaterMarkCallback _ _ => []

/-- What a step executes, in order. The acceptor's channel belongs to the base loop, that of a
connection to the connection's loop. -/
def executions (s : TcpServer) : Label → List Execution
  | .newConnection highWater highWaterMark =>
    let k := s.newConn highWater highWaterMark
    ⟨baseLoop, .newConnection, s.nextConnId⟩ ::
      if k.loop = baseLoop then
        executes baseLoop s.nextConnId .connectionEstablished k.conn.connectionEstablished.2
      else []
  | .handleEvent c revents r w =>
    match s.conns c with
    | none => []
    | some k =>
      (eventMembers k.conn revents r w).map (⟨k.loop, ·, c⟩) ++
        nested k.loop c (k.conn.handleEvent revents r w).2
  | .swap _ => []
  | .runFunctor loop w =>
    match (s.loops loop).next with
    | none => []
    | some (f, _) => s.functorExecutions loop w f
  | .send th c message w =>
    match s.conns c with
    | none => []
    | some k =>
      if th = k.loop ∧ k.conn.state = .kConnected then
        executes th c .sendInLoop (k.conn.sendInLoop message w).2
      else []
  | .shutdown th c =>
    match s.conns c with
    | none => []
    | some k =>
      if th = k.loop ∧ k.conn.state = .kConnected then
        executes th c .shutdownInLoop (k.conn.setState .kDisconnecting).shutdownInLoop.2
      else []

/-! ## Where functors wait -/

/-- The loop a functor belongs to. -/
def home (conns : ℕ → Option ServerConn) (f : Functor) : Option ℕ :=
  match f with
  | .removeConnectionInLoop _ => some baseLoop
  | f => (conns f.conn).map ServerConn.loop

/-- Every functor waits in the loop it belongs to, and the names still to be given are free. -/
structure Homed (s : TcpServer) : Prop where
  home : ∀ loop f, f ∈ (s.loops loop).all → home s.conns f = some loop
  free : ∀ c, s.nextConnId ≤ c → s.conns c = none

/-- The same connections, in the same loops. -/
def SameLoops (conns conns' : ℕ → Option ServerConn) : Prop :=
  ∀ c, (conns' c).map ServerConn.loop = (conns c).map ServerConn.loop

theorem home_sameLoops {conns conns' : ℕ → Option ServerConn} (h : SameLoops conns conns')
    (f : Functor) : home conns' f = home conns f := by
  unfold home
  split
  · rfl
  · exact h _

variable {s t : TcpServer} {th c loop : ℕ} {k : ServerConn}

theorem homed_queueInLoop (h : Homed s) {f : Functor} (hf : home s.conns f = some loop) :
    Homed (s.queueInLoop loop f) where
  home := by
    intro loop' g hg
    simp only [queueInLoop] at hg
    by_cases hloop : loop' = loop
    · subst hloop
      rw [Function.update_self, TaskQueue.all_emplace] at hg
      rcases List.mem_append.mp hg with hg | hg
      · exact h.home loop' g hg
      · rw [List.mem_singleton.mp hg]
        exact hf
    · rw [Function.update_of_ne hloop] at hg
      exact h.home loop' g hg
  free := h.free

theorem homed_removeConnectionInLoop (h : Homed s) (c : ℕ) :
    Homed (s.removeConnectionInLoop c) := by
  unfold removeConnectionInLoop
  split
  · exact h
  · rename_i k hc
    have herased : Homed { s with connections := s.connections.erase c } := ⟨h.home, h.free⟩
    apply homed_queueInLoop herased
    simp [TcpServer.home, Functor.conn, hc]

theorem homed_removeConnection (h : Homed s) (th c : ℕ) : Homed (s.removeConnection th c) := by
  unfold removeConnection
  split
  · exact homed_removeConnectionInLoop h c
  · exact homed_queueInLoop h rfl

theorem homed_effect (h : Homed s) (hc : (s.conns c).map ServerConn.loop = some loop)
    (e : Effect) : Homed (effect th c loop s e) := by
  cases e with
  | queueWriteComplete => exact homed_queueInLoop h hc
  | queueHighWaterMark len => exact homed_queueInLoop h hc
  | closeCallback =>
    have hdid : Homed (s.did (.closeCallback c)) := ⟨h.home, h.free⟩
    exact homed_removeConnection hdid th c
  | write | shutdownWrite | connectionCallback | messageCallback => exact h

theorem homed_setConn (h : Homed s) (hc : s.conns c = some k) (conn : TcpConnection) :
    Homed (s.setConn c { k with conn := conn }) where
  home := by
    have hsame : SameLoops s.conns (s.setConn c { k with conn := conn }).conns := by
      intro c'
      by_cases heq : c' = c
      · subst heq
        simp [setConn, hc]
      · simp [setConn, heq]
    intro loop f hf
    rw [home_sameLoops hsame]
    exact h.home loop f hf
  free := by
    intro c' hc'
    have hne : c' ≠ c := by
      rintro rfl
      rw [h.free c' hc'] at hc
      cases hc
    simpa [setConn, hne] using h.free c' hc'

theorem homed_perform (h : Homed s) (hc : s.conns c = some k) (th : ℕ)
    (p : TcpConnection × List Effect) : Homed (s.perform th c k p) := by
  have hfold : ∀ (es : List Effect) (s : TcpServer), Homed s →
      (s.conns c).map ServerConn.loop = some k.loop →
      Homed (es.foldl (effect th c k.loop) s) := by
    intro es
    induction es with
    | nil => exact fun s hs _ => hs
    | cons e es ih =>
      intro s hs hloop
      rw [List.foldl_cons]
      exact ih _ (homed_effect hs hloop e) (by rw [(grows_effect th c k.loop s e).conns, hloop])
  exact hfold p.2 _ (homed_setConn h hc p.1) (by simp [setConn])

theorem homed_popped (h : Homed s) {q : TaskQueue Functor}
    (hq : ∀ f ∈ q.all, f ∈ (s.loops loop).all) : Homed (s.popped loop q) where
  home := by
    intro loop' f hf
    simp only [popped] at hf
    by_cases hloop : loop' = loop
    · subst hloop
      rw [Function.update_self] at hf
      exact h.home loop' f (hq f hf)
    · rw [Function.update_of_ne hloop] at hf
      exact h.home loop' f hf
  free := h.free

theorem homed_run (h : Homed s) (th : ℕ) (w : WriteResult) (f : Functor) :
    Homed (s.run th w f) := by
  apply run_cases
  · exact h
  · exact fun k p hc => homed_perform h hc th p
  · intro k p hc
    have hdid : Homed (s.did (.connnectionDestroyed f.conn)) := ⟨h.home, h.free⟩
    exact homed_perform hdid hc th p
  · exact homed_removeConnectionInLoop h f.conn

/-- The name `newConnection` gives is free, so no functor that waits is bound to it. -/
theorem homed_created (h : Homed s) (k : ServerConn) : Homed (s.created k) := by
  obtain ⟨hconns, hloops, -, -, -⟩ := getNextLoop_same s
  have hnew : (s.created k).conns = Function.update s.conns s.nextConnId (some k) := by
    simp only [created, setConn, hconns]
  have hold : ∀ f loop, home s.conns f = some loop → home (s.created k).conns f = some loop := by
    intro f loop hf
    unfold home at hf ⊢
    split at hf
    · exact hf
    · have hne : f.conn ≠ s.nextConnId := by
        intro heq
        rw [heq, h.free s.nextConnId (Nat.le_refl _)] at hf
        cases hf
      rw [hnew, Function.update_of_ne hne]
      exact hf
  constructor
  · intro loop f hf
    apply hold
    simp only [created, setConn, hloops] at hf
    exact h.home loop f hf
  · intro c hc
    have hc' : s.nextConnId + 1 ≤ c := hc
    rw [hnew, Function.update_of_ne (by omega)]
    exact h.free c (by omega)

theorem created_conns (s : TcpServer) (k : ServerConn) :
    (s.created k).conns s.nextConnId = some k := by
  simp [created, setConn]

theorem homed_newConnection (h : Homed s) (highWater : Bool) (highWaterMark : ℕ) :
    Homed (s.newConnection highWater highWaterMark) := by
  rw [newConnection_eq]
  have hcreated := homed_created h (s.newConn highWater highWaterMark)
  have hconn := created_conns s (s.newConn highWater highWaterMark)
  simp only
  split
  · exact homed_perform hcreated hconn baseLoop _
  · exact homed_queueInLoop hcreated (by simp [TcpServer.home, Functor.conn, hconn])

theorem homed_step (h : Homed s) {a : Label} (ha : step s a = some t) : Homed t := by
  cases a with
  | newConnection highWater highWaterMark =>
    simp only [step, Option.ite_none_right_eq_some, Option.some.injEq] at ha
    obtain ⟨-, rfl⟩ := ha
    exact homed_newConnection h highWater highWaterMark
  | handleEvent c revents r w =>
    obtain ⟨k, hc, -, rfl⟩ := step_handleEvent ha
    rw [handleEvent_eq]
    have hclosing : Homed
        (s.closing ((k.conn.handleEvent revents r w).2.count .closeCallback) c) := ⟨h.home, h.free⟩
    exact homed_perform hclosing hc _ _
  | swap loop =>
    obtain ⟨q, hq, rfl⟩ := step_swap ha
    exact homed_popped h fun f hf => by rwa [TaskQueue.all_swap hq] at hf
  | runFunctor loop w =>
    obtain ⟨f, q, hq, rfl⟩ := step_runFunctor ha
    have hpopped : Homed (s.popped loop q) :=
      homed_popped h fun g hg => by rw [TaskQueue.all_next hq]; exact List.mem_cons_of_mem f hg
    exact homed_run hpopped loop w f
  | send th c message w =>
    obtain ⟨k, hc, rfl⟩ := Option.map_eq_some_iff.mp ha
    unfold send
    split
    · exact homed_perform h hc th _
    · split
      · exact homed_queueInLoop h (by simp [TcpServer.home, Functor.conn, hc])
      · exact h
  | shutdown th c =>
    obtain ⟨k, hc, rfl⟩ := Option.map_eq_some_iff.mp ha
    unfold shutdown
    split
    · exact homed_perform h hc th _
    · split
      · exact homed_queueInLoop (homed_setConn h hc _)
          (by simp [TcpServer.home, Functor.conn, setConn])
      · exact h

/-! ## Executions -/

/-- A function of a connection is executed on its loop's thread, one of the server on the
thread of the base loop. -/
def Confined (conns : ℕ → Option ServerConn) (x : Execution) : Prop :=
  if x.member.ofServer then x.thread = baseLoop
  else (conns x.conn).map ServerConn.loop = some x.thread

theorem confined_nested (conns : ℕ → Option ServerConn) (th c : ℕ) (effects : List Effect) :
    ∀ x ∈ nested th c effects, Confined conns x := by
  intro x hx
  obtain ⟨e, -, he⟩ := List.mem_flatMap.mp hx
  cases e with
  | closeCallback =>
    simp only at he
    split at he
    · rename_i hth
      rw [List.mem_singleton.mp he]
      exact hth
    · exact absurd he List.not_mem_nil
  | write | shutdownWrite | queueWriteComplete | queueHighWaterMark | connectionCallback
  | messageCallback => exact absurd he List.not_mem_nil

theorem confined_executes {conns : ℕ → Option ServerConn} {th c : ℕ} {member : Member}
    (hmember : member.ofServer = false) (hc : (conns c).map ServerConn.loop = some th)
    (effects : List Effect) : ∀ x ∈ executes th c member effects, Confined conns x := by
  intro x hx
  rcases List.mem_cons.mp hx with rfl | hx
  · unfold Confined
    rw [if_neg (by simp [hmember])]
    exact hc
  · exact confined_nested conns th c effects x hx

/-- A functor is executed by the loop it belongs to. -/
theorem confined_functor {f : Functor} (hf : home s.conns f = some loop) (w : WriteResult) :
    ∀ x ∈ s.functorExecutions loop w f, Confined s.conns x := by
  unfold functorExecutions
  split
  · exact fun x hx => absurd hx List.not_mem_nil
  · cases f with
    | connectionEstablished c => exact confined_executes rfl hf _
    | connnectionDestroyed c => exact confined_executes rfl hf _
    | sendInLoop c message => exact confined_executes rfl hf _
    | shutdownInLoop c => exact confined_executes rfl hf _
    | removeConnectionInLoop c =>
      intro x hx
      rw [List.mem_singleton.mp hx]
      exact (Option.some.inj hf).symm
    | writeCompleteCallback c => exact fun x hx => absurd hx List.not_mem_nil
    | highWaterMarkCallback c len => exact fun x hx => absurd hx List.not_mem_nil

/-! ## What a step touches -/

theorem conns_run (s : TcpServer) (th : ℕ) (w : WriteResult) (f : Functor) {c : ℕ}
    (h : ∀ x ∈ s.functorExecutions th w f, x.conn ≠ c) : (s.run th w f).conns c = s.conns c := by
  have hother : ∀ (s' : TcpServer) (d : ℕ) (k : ServerConn) (p : TcpConnection × List Effect),
      s'.conns = s.conns → d ≠ c → (s'.perform th d k p).conns c = s.conns c := by
    intro s' d k p hs' hd
    rw [conns_perform, Function.update_of_ne (Ne.symm hd), hs']
  unfold run
  unfold functorExecutions at h
  split
  · rfl
  · rename_i k hk
    rw [hk] at h
    cases f with
    | connectionEstablished d => exact hother s d k _ rfl (h _ List.mem_cons_self)
    | connnectionDestroyed d =>
      exact hother (s.did (.connnectionDestroyed d)) d k _ rfl (h _ List.mem_cons_self)
    | sendInLoop d message => exact hother s d k _ rfl (h _ List.mem_cons_self)
    | shutdownInLoop d => exact hother s d k _ rfl (h _ List.mem_cons_self)
    | removeConnectionInLoop d =>
      simp only [removeConnectionInLoop]
      split <;> rfl
    | writeCompleteCallback d => rfl
    | highWaterMarkCallback d len => rfl

theorem eventMembers_ofServer {k : TcpConnection} {revents : Mask} {r : ReadvResult}
    {w : WriteResult} {m : Member} (h : m ∈ eventMembers k revents r w) : m.ofServer = false := by
  cases m with
  | newConnection | removeConnectionInLoop =>
    unfold eventMembers at h
    simp only [List.mem_append, List.mem_ite_nil_right, List.mem_cons, List.mem_nil_iff,
      reduceCtorEq, or_false, and_false] at h
  | handleRead | handleWrite | handleClose | sendInLoop | shutdownInLoop | connectionEstablished
  | connnectionDestroyed => rfl

/-- A report that reaches none of the functions does nothing. -/
theorem handleEvent_of_no_members {k : TcpConnection} {revents : Mask} {r : ReadvResult}
    {w : WriteResult} (h : eventMembers k revents r w = []) :
    k.handleEvent revents r w = (k, []) := by
  unfold eventMembers at h
  simp only [List.append_eq_nil_iff, ite_eq_right_iff, reduceCtorEq, imp_false] at h
  obtain ⟨⟨hhup, hread⟩, hout⟩ := h
  rw [TcpConnection.handleEvent_eq, if_neg hout, TcpConnection.beforeWrite]
  simp only [if_neg hhup, if_neg hread]

theorem perform_same (s : TcpServer) (th : ℕ) (hc : s.conns c = some k) :
    (s.perform th c k (k.conn, [])).conns = s.conns := by
  rw [conns_perform, Function.update_eq_self_iff]
  exact hc.symm

/-- A step that executes nothing of a connection leaves it alone, the store of `shutdown()`
apart. -/
theorem step_conns_same {a : Label} (ha : step s a = some t) {c : ℕ}
    (hnone : ∀ x ∈ executions s a, x.conn ≠ c) (hshutdown : ∀ th, a ≠ .shutdown th c) :
    t.conns c = s.conns c := by
  cases a with
  | newConnection highWater highWaterMark =>
    simp only [step, Option.ite_none_right_eq_some, Option.some.injEq] at ha
    obtain ⟨-, rfl⟩ := ha
    have hne : c ≠ s.nextConnId := fun heq => hnone _ List.mem_cons_self heq.symm
    have hcreated : ∀ k, (s.created k).conns c = s.conns c := by
      intro k
      rw [created, setConn, (getNextLoop_same s).1]
      exact Function.update_of_ne hne _ _
    rw [newConnection_eq]
    simp only
    split
    · rw [conns_perform, Function.update_of_ne hne, hcreated]
    · exact hcreated _
  | handleEvent d revents r w =>
    obtain ⟨k, hd, -, rfl⟩ := step_handleEvent ha
    simp only [executions, hd] at hnone
    rw [handleEvent_eq]
    by_cases hcd : d = c
    · subst hcd
      -- none of the functions is reached
      have hmembers : eventMembers k.conn revents r w = [] := by
        by_contra hne
        obtain ⟨m, hm⟩ := List.exists_mem_of_ne_nil _ hne
        exact hnone _ (List.mem_append_left _ (List.mem_map_of_mem hm)) rfl
      rw [handleEvent_of_no_members hmembers, perform_same]
      · rfl
      · exact hd
    · rw [conns_perform, Function.update_of_ne (Ne.symm hcd)]
      rfl
  | swap loop =>
    obtain ⟨q, -, rfl⟩ := step_swap ha
    rfl
  | runFunctor loop w =>
    obtain ⟨f, q, hq, rfl⟩ := step_runFunctor ha
    simp only [executions, hq] at hnone
    exact conns_run (s.popped loop q) loop w f hnone
  | send th d message w =>
    obtain ⟨k, hd, rfl⟩ := Option.map_eq_some_iff.mp ha
    simp only [executions, hd] at hnone
    unfold send
    split
    · rename_i hth
      by_cases hcd : d = c
      · subst hcd
        have hstate : k.conn.state ≠ .kConnected := by
          intro hstate
          rw [if_pos ⟨hth, hstate⟩] at hnone
          exact hnone _ List.mem_cons_self rfl
        rw [TcpConnection.send, if_neg hstate, perform_same s th hd]
      · rw [conns_perform, Function.update_of_ne (Ne.symm hcd)]
    · split <;> rfl
  | shutdown th d =>
    obtain ⟨k, hd, rfl⟩ := Option.map_eq_some_iff.mp ha
    have hcd : c ≠ d := by
      rintro rfl
      exact hshutdown th rfl
    unfold shutdown
    split
    · rw [conns_perform, Function.update_of_ne hcd]
    · split
      · exact Function.update_of_ne hcd _ _
      · rfl

theorem nested_of_not_mem {th c : ℕ} {es : List Effect} (h : Effect.closeCallback ∉ es) :
    nested th c es = [] := by
  apply List.flatMap_eq_nil_iff.mpr
  intro e he
  cases e with
  | closeCallback => exact absurd he h
  | write | shutdownWrite | queueWriteComplete | queueHighWaterMark | connectionCallback
  | messageCallback => rfl

/-- A function that executes nothing of the server leaves `connections_` alone. -/
theorem connections_perform_of_nested (s : TcpServer) (th c : ℕ) (k : ServerConn)
    (p : TcpConnection × List Effect) (h : ∀ x ∈ nested th c p.2, x.member.ofServer = false) :
    (s.perform th c k p).connections = s.connections := by
  apply (connections_perform s th c k p).2
  by_contra hcalled
  rw [not_or, not_not, not_not] at hcalled
  have hmem : ⟨th, .removeConnectionInLoop, c⟩ ∈ nested th c p.2 :=
    List.mem_flatMap.mpr ⟨.closeCallback, hcalled.1, by simp [hcalled.2]⟩
  exact Bool.noConfusion (h _ hmem)

theorem connections_run (s : TcpServer) (th : ℕ) (w : WriteResult) (f : Functor)
    (h : ∀ x ∈ s.functorExecutions th w f, x.member.ofServer = false) :
    (s.run th w f).connections = s.connections := by
  unfold run
  unfold functorExecutions at h
  split
  · rfl
  · rename_i k hk
    rw [hk] at h
    cases f with
    | connectionEstablished d =>
      exact connections_perform_of_nested s th d k _ fun x hx => h x (List.mem_cons_of_mem _ hx)
    | connnectionDestroyed d =>
      exact connections_perform_of_nested (s.did (.connnectionDestroyed d)) th d k _ fun x hx =>
        h x (List.mem_cons_of_mem _ hx)
    | sendInLoop d message =>
      exact connections_perform_of_nested s th d k _ fun x hx => h x (List.mem_cons_of_mem _ hx)
    | shutdownInLoop d =>
      exact connections_perform_of_nested s th d k _ fun x hx => h x (List.mem_cons_of_mem _ hx)
    | removeConnectionInLoop d => exact absurd (h _ List.mem_cons_self) (by simp [Member.ofServer])
    | writeCompleteCallback d => rfl
    | highWaterMarkCallback d len => rfl

/-- A step that executes nothing of the server leaves its members alone. -/
theorem step_connections_same {a : Label} (ha : step s a = some t)
    (hnone : ∀ x ∈ executions s a, x.member.ofServer = false) :
    t.connections = s.connections ∧ t.nextConnId = s.nextConnId := by
  cases a with
  | newConnection highWater highWaterMark =>
    exact absurd (hnone _ List.mem_cons_self) (by simp [Member.ofServer])
  | handleEvent d revents r w =>
    obtain ⟨k, hd, -, rfl⟩ := step_handleEvent ha
    simp only [executions, hd] at hnone
    rw [handleEvent_eq]
    refine ⟨?_, nextConnId_perform _ _ _ _ _⟩
    exact connections_perform_of_nested _ k.loop d k _ fun x hx =>
      hnone x (List.mem_append_right _ hx)
  | swap loop =>
    obtain ⟨q, -, rfl⟩ := step_swap ha
    exact ⟨rfl, rfl⟩
  | runFunctor loop w =>
    obtain ⟨f, q, hq, rfl⟩ := step_runFunctor ha
    simp only [executions, hq] at hnone
    exact ⟨connections_run (s.popped loop q) loop w f hnone, nextConnId_run _ _ _ _⟩
  | send th d message w =>
    obtain ⟨k, hd, rfl⟩ := Option.map_eq_some_iff.mp ha
    unfold send
    split
    · refine ⟨connections_perform_of_nested s th d k _ ?_, nextConnId_perform _ _ _ _ _⟩
      rw [nested_of_not_mem (k.conn.closeCallback_send message w)]
      exact fun x hx => absurd hx List.not_mem_nil
    · split <;> exact ⟨rfl, rfl⟩
  | shutdown th d =>
    obtain ⟨k, hd, rfl⟩ := Option.map_eq_some_iff.mp ha
    unfold shutdown
    split
    · refine ⟨connections_perform_of_nested s th d k _ ?_, nextConnId_perform _ _ _ _ _⟩
      rw [nested_of_not_mem k.conn.closeCallback_shutdown]
      exact fun x hx => absurd hx List.not_mem_nil
    · split <;> exact ⟨rfl, rfl⟩

/-! ## The result -/

theorem sameLoops_perform (s' : TcpServer) (hs' : s'.conns = s.conns) (hc : s.conns c = some k)
    (th : ℕ) (p : TcpConnection × List Effect) :
    SameLoops s.conns (s'.perform th c k p).conns := by
  intro c'
  rw [conns_perform, hs']
  by_cases heq : c' = c
  · subst heq
    rw [Function.update_self, hc]
    rfl
  · rw [Function.update_of_ne heq]

theorem sameLoops_run (s : TcpServer) (th : ℕ) (w : WriteResult) (f : Functor) :
    SameLoops s.conns (s.run th w f).conns := by
  apply run_cases (P := fun t => SameLoops s.conns t.conns)
  · exact fun _ => rfl
  · exact fun k p hk => sameLoops_perform s rfl hk th p
  · exact fun k p hk => sameLoops_perform (s.did (.connnectionDestroyed f.conn)) rfl hk th p
  · intro c
    simp only [removeConnectionInLoop]
    split <;> rfl

theorem confined_sameLoops {conns conns' : ℕ → Option ServerConn} (h : SameLoops conns conns')
    {x : Execution} (hx : Confined conns x) : Confined conns' x := by
  unfold Confined at hx ⊢
  rwa [h x.conn]

/-- `newConnection`: the connection is in the loop that is asked to establish it. -/
theorem confined_newConnection (s : TcpServer) (highWater : Bool) (highWaterMark : ℕ) :
    ∀ x ∈ executions s (.newConnection highWater highWaterMark),
      Confined (s.newConnection highWater highWaterMark).conns x := by
  intro x hx
  simp only [executions] at hx
  rcases List.mem_cons.mp hx with rfl | hx
  · rfl
  · split at hx
    · rename_i hbase
      refine confined_executes rfl ?_ _ x hx
      rw [newConnection_eq]
      dsimp only
      rw [if_pos hbase, conns_perform_self]
      exact congrArg some hbase
    · exact absurd hx List.not_mem_nil

theorem confined_step (h : Homed s) {a : Label} (ha : step s a = some t) :
    ∀ x ∈ executions s a, Confined t.conns x := by
  intro x hx
  cases a with
  | newConnection highWater highWaterMark =>
    simp only [step, Option.ite_none_right_eq_some, Option.some.injEq] at ha
    obtain ⟨-, rfl⟩ := ha
    exact confined_newConnection s highWater highWaterMark x hx
  | handleEvent c revents r w =>
    obtain ⟨k, hc, -, rfl⟩ := step_handleEvent ha
    rw [handleEvent_eq]
    have hloop : (s.conns c).map ServerConn.loop = some k.loop := by rw [hc]; rfl
    refine confined_sameLoops (sameLoops_perform (s.closing _ c) rfl hc _ _) ?_
    simp only [executions, hc] at hx
    rcases List.mem_append.mp hx with hx | hx
    · obtain ⟨m, hm, rfl⟩ := List.mem_map.mp hx
      have hmember : m.ofServer = false := eventMembers_ofServer hm
      exact confined_executes hmember hloop [] _ List.mem_cons_self
    · exact confined_nested s.conns _ _ _ x hx
  | swap loop => exact absurd hx List.not_mem_nil
  | runFunctor loop w =>
    obtain ⟨f, q, hq, rfl⟩ := step_runFunctor ha
    simp only [executions, hq] at hx
    refine confined_sameLoops (sameLoops_run (s.popped loop q) loop w f) ?_
    have hmem : f ∈ (s.loops loop).all := by
      rw [TaskQueue.all_next hq]
      exact List.mem_cons_self
    exact confined_functor (h.home loop f hmem) w x hx
  | send th c message w =>
    obtain ⟨k, hc, rfl⟩ := Option.map_eq_some_iff.mp ha
    simp only [executions, hc] at hx
    split at hx
    · rename_i hth
      rw [send, if_pos hth.1]
      refine confined_sameLoops (sameLoops_perform s rfl hc _ _) ?_
      exact confined_executes rfl (by rw [hc, hth.1]; rfl) _ x hx
    · exact absurd hx List.not_mem_nil
  | shutdown th c =>
    obtain ⟨k, hc, rfl⟩ := Option.map_eq_some_iff.mp ha
    simp only [executions, hc] at hx
    split at hx
    · rename_i hth
      rw [shutdown, if_pos hth.1]
      refine confined_sameLoops (sameLoops_perform s rfl hc _ _) ?_
      exact confined_executes rfl (by rw [hc, hth.1]; rfl) _ x hx
    · exact absurd hx List.not_mem_nil

theorem homed_new (numThreads : ℕ) (writeComplete : Bool) :
    Homed (new numThreads writeComplete) where
  home _ _ hf := absurd hf List.not_mem_nil
  free _ _ := rfl

/-- In every step from every reachable state of a server, whatever the number of its loops and
whichever threads call `send` and `shutdown`: what the step executes of a connection runs on the
thread of the connection's loop, and what it executes of the server on the thread of the base
loop; and nothing else touches them. -/
theorem thread_confinement (numThreads : ℕ) (writeComplete : Bool)
    (h : Machine.Reachable step (new numThreads writeComplete) s) {a : Label}
    (ha : step s a = some t) :
    (∀ x ∈ executions s a,
      if x.member.ofServer then x.thread = baseLoop
      else (t.conns x.conn).map ServerConn.loop = some x.thread) ∧
    (∀ c, (∀ x ∈ executions s a, x.conn ≠ c) → (∀ th, a ≠ .shutdown th c) →
      t.conns c = s.conns c) ∧
    ((∀ x ∈ executions s a, x.member.ofServer = false) →
      t.connections = s.connections ∧ t.nextConnId = s.nextConnId) := by
  have hhomed : Homed s := Machine.reachable_invariant (homed_new numThreads writeComplete)
    (fun _ _ _ hs hstep => homed_step hs hstep) h
  refine ⟨confined_step hhomed ha, fun c hnone hshutdown => ?_, fun hnone => ?_⟩
  · exact step_conns_same ha hnone hshutdown
  · exact step_connections_same ha hnone

/-- Two io loops: the second connection belongs to loop 2, and the functor that the step runs on
that loop's thread is its `connectionEstablished`. -/
theorem thread_confinement_second_loop :
    ∃ s t, Machine.exec step (new 2 false)
        [.newConnection false 0, .newConnection false 0, .swap 2] = some s ∧
      step s (.runFunctor 2 (.wrote 0)) = some t ∧
      executions s (.runFunctor 2 (.wrote 0)) = [⟨2, .connectionEstablished, 2⟩] ∧
      (t.conns 2).map ServerConn.loop = some 2 := by
  obtain ⟨s, hs⟩ := Option.isSome_iff_exists.mp
    (show (Machine.exec step (new 2 false)
      [.newConnection false 0, .newConnection false 0, .swap 2]).isSome = true by decide +kernel)
  have hfacts : ∀ s' ∈ Machine.exec step (new 2 false)
      [.newConnection false 0, .newConnection false 0, .swap 2],
      (step s' (.runFunctor 2 (.wrote 0))).isSome = true ∧
        executions s' (.runFunctor 2 (.wrote 0)) = [⟨2, .connectionEstablished, 2⟩] := by
    decide +kernel
  obtain ⟨hsome, hexecutions⟩ := hfacts s hs
  obtain ⟨t, ht⟩ := Option.isSome_iff_exists.mp hsome
  have hconfined := (thread_confinement 2 false ⟨_, hs⟩ ht).1 ⟨2, .connectionEstablished, 2⟩
    (by rw [hexecutions]; exact List.mem_singleton_self _)
  exact ⟨s, t, hs, ht, hexecutions, hconfined⟩

end TcpServer
end Webservers
