import Webservers.TcpServer.ConfinementTheorems

/-!
# `TcpServer::~TcpServer`

The destructor runs on the thread of the base loop. It walks over `connections_` and passes
`connnectionDestroyed` of each connection to `runInLoop` of the connection's loop. But
`connnectionDestroyed` calls `closeCallback_`, and that is `TcpServer::removeConnection`. A
connection of the base loop is therefore erased from the map that is being walked over and gets a
second `connnectionDestroyed`, and a connection of another loop calls a server that is gone.

`Destroying` is the server while its destructor runs and afterwards, together with what the
loops still execute; `orderly_iff_empty` says that a destruction is in order for all
interleavings exactly when there is no connection.

`finish` is the end of the destructor's body. The destruction of the members after it is left out:
`connections_` goes first, and `threadPool_`, which quits the io loops and joins their threads,
later. What a loop does after `finish` it may do before it sees its `quit_`.
-/

namespace Webservers
namespace TcpServer

structure Destroying where
  server : TcpServer
  /-- `connections_` when the destructor began, in the order of the walk -/
  order : List ℕ
  /-- the keys still to be visited -/
  todo : List ℕ
  /-- the destructor's body has ended -/
  returned : Bool
  /-- history: how often the destructor has executed or queued `connnectionDestroyed` for a
  connection -/
  issued : ℕ → ℕ
  /-- history: the connections for which a member function of the server was called after the
  destructor had returned -/
  late : List ℕ

namespace Destroying

inductive Label where
  /-- the next round of the `for` over `connections_` -/
  | visit
  | finish
  /-- `doPendingFunctors` of a loop: the `swap` -/
  | swap (loop : ℕ)
  /-- the next functor of the batch -/
  | runFunctor (loop : ℕ) (w : WriteResult)
deriving Repr, DecidableEq

/-- The destructor is called. -/
def start (s : TcpServer) (order : List ℕ) : Destroying where
  server := s
  order := order
  todo := order
  returned := false
  issued := fun _ => 0
  late := []

/-- `conn->getLoop()->runInLoop(connnectionDestroyed)` on the thread of the base loop, for a
connection of loop `k.loop`. -/
def destroyConn (s : TcpServer) (c : ℕ) (k : ServerConn) : TcpServer :=
  if k.loop = baseLoop then
    (s.did (.connnectionDestroyed c)).perform baseLoop c k k.conn.connnectionDestroyed
  else s.queueInLoop k.loop (.connnectionDestroyed c)

/-- How often `connnectionDestroyed` of `c` is executed or queued by it: once at once, or as
often as its queue says. -/
def issues (s : TcpServer) (c : ℕ) (k : ServerConn) : ℕ :=
  (if k.loop = baseLoop then 1 else 0) +
    ((destroyConn s c k).pending k.loop (.connnectionDestroyed c) -
      s.pending k.loop (.connnectionDestroyed c))

/-- The calls of member functions of the server that the next functor of a loop makes for the
teardown of a connection: `closeCallback_` of `connnectionDestroyed` is `removeConnection`. -/
def serverCalls (s : TcpServer) (loop : ℕ) : List ℕ :=
  match (s.loops loop).next with
  | some (.connnectionDestroyed c, _) =>
    match s.conns c with
    | none => []
    | some k => List.replicate (k.conn.connnectionDestroyed.2.count .closeCallback) c
  | some (.removeConnectionInLoop c, _) => [c]
  | _ => []

/-- May a loop run functors? The base loop not before the destructor has returned. -/
def free (d : Destroying) (loop : ℕ) : Bool := d.returned || loop != baseLoop

def step (d : Destroying) : Label → Option Destroying
  | .visit =>
    match d.todo with
    | [] => none
    | c :: rest =>
      match d.server.conns c with
      | none => some { d with todo := rest }
      | some k =>
        some
          { d with
            server := destroyConn d.server c k
            todo := rest
            issued := Function.update d.issued c (d.issued c + issues d.server c k) }
  | .finish => if d.todo.isEmpty then some { d with returned := true } else none
  | .swap loop =>
    if d.free loop then
      ((d.server.loops loop).swap).map fun q => { d with server := d.server.popped loop q }
    else none
  | .runFunctor loop w =>
    if d.free loop then
      (d.server.loops loop).next.map fun (f, q) =>
        { d with
          server := (d.server.popped loop q).run loop w f
          late :=
            if d.returned then d.late ++ (serverCalls d.server loop).filter (· ∈ d.order)
            else d.late }
    else none

/-- Every connection visited has been destroyed once, `connections_` is what it was as long as it
is walked over, and no call has come too late. -/
structure Orderly (d : Destroying) : Prop where
  once : ∀ c ∈ d.order, c ∉ d.todo → d.issued c = 1
  unchanged : d.returned = false → d.server.connections.Perm d.order
  inTime : d.late = []

/-- A server with connections that are up: no teardown of one of them is under way. -/
structure Serving (s : TcpServer) : Prop where
  nodup : s.connections.Nodup
  connected : ∀ c ∈ s.connections, ∃ k, s.conns c = some k ∧ k.conn.state = .kConnected
  noTeardown : ∀ c ∈ s.connections, ∀ loop f, f.conn = c → f.teardown = true →
    s.pending loop f = 0

/-! ## What running a functor does to the queues -/

/-- Functors have been queued, and nothing else happened to the loops. -/
def Appended (s t : TcpServer) : Prop :=
  ∀ loop, ∃ extra, (t.loops loop).batch = (s.loops loop).batch ∧
    (t.loops loop).pendingFunctors = (s.loops loop).pendingFunctors ++ extra

theorem Appended.of_loops {s t : TcpServer} (h : t.loops = s.loops) : Appended s t := by
  intro loop
  exact ⟨[], by rw [h], by rw [h, List.append_nil]⟩

theorem Appended.trans {s t u : TcpServer} (h : Appended s t) (h' : Appended t u) :
    Appended s u := by
  intro loop
  obtain ⟨extra, hbatch, hpending⟩ := h loop
  obtain ⟨extra', hbatch', hpending'⟩ := h' loop
  exact ⟨extra ++ extra', hbatch'.trans hbatch, by rw [hpending', hpending, List.append_assoc]⟩

theorem appended_queueInLoop (s : TcpServer) (loop : ℕ) (f : Functor) :
    Appended s (s.queueInLoop loop f) := by
  intro loop'
  by_cases hloop : loop' = loop
  · subst hloop
    exact ⟨[f], by simp [queueInLoop, TaskQueue.emplace], by simp [queueInLoop, TaskQueue.emplace]⟩
  · exact ⟨[], by simp [queueInLoop, hloop], by simp [queueInLoop, hloop]⟩

theorem appended_removeConnectionInLoop (s : TcpServer) (c : ℕ) :
    Appended s (s.removeConnectionInLoop c) := by
  unfold removeConnectionInLoop
  split
  · exact .of_loops rfl
  · exact appended_queueInLoop { s with connections := s.connections.erase c } _ _

theorem appended_effect (th c loop : ℕ) (s : TcpServer) (e : Effect) :
    Appended s (effect th c loop s e) := by
  cases e with
  | queueWriteComplete => exact appended_queueInLoop s _ _
  | queueHighWaterMark len => exact appended_queueInLoop s _ _
  | closeCallback =>
    show Appended s ((s.did (.closeCallback c)).removeConnection th c)
    unfold removeConnection
    split
    · exact appended_removeConnectionInLoop (s.did (.closeCallback c)) c
    · exact appended_queueInLoop (s.did (.closeCallback c)) _ _
  | write | shutdownWrite | connectionCallback | messageCallback => exact .of_loops rfl

theorem appended_perform (s : TcpServer) (th c : ℕ) (k : ServerConn)
    (p : TcpConnection × List Effect) : Appended s (s.perform th c k p) := by
  have hfold : ∀ (es : List Effect) (s : TcpServer),
      Appended s (es.foldl (effect th c k.loop) s) := by
    intro es
    induction es with
    | nil => exact fun s => .of_loops rfl
    | cons e es ih => exact fun s => (appended_effect th c k.loop s e).trans (ih _)
  have hset : Appended s (s.setConn c { k with conn := p.1 }) := .of_loops rfl
  exact hset.trans (hfold p.2 _)

theorem appended_run (s : TcpServer) (th : ℕ) (w : WriteResult) (f : Functor) :
    Appended s (s.run th w f) := by
  apply run_cases
  · exact .of_loops rfl
  · exact fun k p _ => appended_perform s th f.conn k p
  · exact fun k p _ => appended_perform (s.did (.connnectionDestroyed f.conn)) th f.conn k p
  · exact appended_removeConnectionInLoop s f.conn

/-- What is queued stays queued, with more behind it. -/
theorem Appended.all_eq {s t : TcpServer} (h : Appended s t) (loop : ℕ) :
    ∃ extra, (t.loops loop).all = (s.loops loop).all ++ extra := by
  obtain ⟨extra, hbatch, hpending⟩ := h loop
  exact ⟨extra, by rw [TaskQueue.all, TaskQueue.all, hbatch, hpending, List.append_assoc]⟩

theorem appended_destroyConn (s : TcpServer) (c : ℕ) (k : ServerConn) :
    Appended s (destroyConn s c k) := by
  unfold destroyConn
  split
  · exact appended_perform (s.did (.connnectionDestroyed c)) _ _ _ _
  · exact appended_queueInLoop s _ _

/-! ## A visit -/

theorem connnectionDestroyed_effects (k : TcpConnection) :
    k.connnectionDestroyed.2 = [.closeCallback] := by
  simp [TcpConnection.connnectionDestroyed, StateE.toInt]

/-- On the base loop the callee queues `connnectionDestroyed` again. -/
theorem issues_base {s : TcpServer} {c : ℕ} {k : ServerConn} (hbase : k.loop = baseLoop) :
    issues s c k = 2 := by
  have hpending : (destroyConn s c k).pending k.loop (.connnectionDestroyed c) =
      s.pending k.loop (.connnectionDestroyed c) + 1 := by
    rw [destroyConn, if_pos hbase, perform, connnectionDestroyed_effects, List.foldl_cons,
      List.foldl_nil, effect, removeConnection, if_pos rfl, removeConnectionInLoop]
    simp only [did, setConn, Function.update_self]
    rw [pending_queueInLoop, if_pos ⟨rfl, rfl⟩]
    rfl
  rw [issues, if_pos hbase, hpending]
  omega

theorem sameLoops_destroyConn {s : TcpServer} {c : ℕ} {k : ServerConn} (hc : s.conns c = some k) :
    SameLoops s.conns (destroyConn s c k).conns := by
  unfold destroyConn
  split
  · exact sameLoops_perform (s.did (.connnectionDestroyed c)) rfl hc _ _
  · exact fun _ => rfl

/-! ## A run that goes wrong -/

/-- After a round of the walk. -/
def visited (d : Destroying) (c : ℕ) (k : ServerConn) (rest : List ℕ) : Destroying :=
  { d with
    server := destroyConn d.server c k
    todo := rest
    issued := Function.update d.issued c (d.issued c + issues d.server c k) }

/-- After the `swap` of a loop that has finished its batch. -/
def swapped (d : Destroying) (loop : ℕ) : Destroying :=
  { d with server := d.server.popped loop ⟨[], (d.server.loops loop).pendingFunctors⟩ }

/-- After the functor `f` of a batch `f :: rest`, the destructor having returned. -/
def ran (d : Destroying) (loop : ℕ) (f : Functor) (rest : List Functor) : Destroying :=
  { d with
    server := (d.server.popped loop { d.server.loops loop with batch := rest }).run loop
      (.wrote 0) f
    late := d.late ++ (serverCalls d.server loop).filter (· ∈ d.order) }

section Ran

variable {d : Destroying} {loop : ℕ} {f : Functor} {rest : List Functor}

theorem step_ran (hreturned : d.returned = true)
    (hbatch : (d.server.loops loop).batch = f :: rest) :
    step d (.runFunctor loop (.wrote 0)) = some (d.ran loop f rest) := by
  simp [step, free, hreturned, TaskQueue.next, hbatch, ran]

theorem batch_ran : ((d.ran loop f rest).server.loops loop).batch = rest := by
  obtain ⟨-, hbatch, -⟩ := appended_run
    (d.server.popped loop { d.server.loops loop with batch := rest }) loop (.wrote 0) f loop
  exact hbatch.trans (by simp [popped])

theorem mem_pending_ran {g : Functor} (hg : g ∈ (d.server.loops loop).pendingFunctors) :
    g ∈ ((d.ran loop f rest).server.loops loop).pendingFunctors := by
  obtain ⟨extra, -, hpending⟩ := appended_run
    (d.server.popped loop { d.server.loops loop with batch := rest }) loop (.wrote 0) f loop
  rw [ran, hpending]
  exact List.mem_append_left _ (by simpa [popped] using hg)

theorem sameLoops_ran : SameLoops d.server.conns (d.ran loop f rest).server.conns :=
  sameLoops_run (d.server.popped loop { d.server.loops loop with batch := rest }) loop
    (.wrote 0) f

end Ran

/-- `connnectionDestroyed` of the connection `c` waits in the connection's loop. -/
structure Waits (d : Destroying) (c loop : ℕ) : Prop where
  queued : .connnectionDestroyed c ∈ (d.server.loops loop).all
  conn : (d.server.conns c).map ServerConn.loop = some loop
  order : c ∈ d.order

theorem Waits.later {d d' : Destroying} {c loop : ℕ} (h : Waits d c loop)
    (happended : Appended d.server d'.server) (hsame : SameLoops d.server.conns d'.server.conns)
    (horder : d'.order = d.order) : Waits d' c loop where
  queued := by
    obtain ⟨extra, hextra⟩ := happended.all_eq loop
    rw [hextra]
    exact List.mem_append_left _ h.queued
  conn := (hsame c).trans h.conn
  order := horder ▸ h.order

/-- The destructor can finish its walk and return. -/
theorem finishes (todo : List ℕ) {d : Destroying} (htodo : d.todo = todo) {c loop : ℕ}
    (h : Waits d c loop) :
    ∃ as d', Machine.exec step d as = some d' ∧ d'.returned = true ∧ Waits d' c loop := by
  induction todo generalizing d with
  | nil =>
    refine ⟨[.finish], { d with returned := true }, ?_, rfl, h.queued, h.conn, h.order⟩
    simp [Machine.exec, step, htodo]
  | cons c' rest ih =>
    -- one round, and then the rest of the walk
    have hround : ∃ d', step d .visit = some d' ∧ d'.todo = rest ∧ Waits d' c loop := by
      cases hc' : d.server.conns c' with
      | none =>
        refine ⟨{ d with todo := rest }, ?_, rfl, h.queued, h.conn, h.order⟩
        simp only [step, htodo, hc']
      | some k =>
        refine ⟨visited d c' k rest, ?_, rfl, ?_⟩
        · simp only [step, htodo, hc', visited]
        · exact h.later (appended_destroyConn d.server c' k) (sameLoops_destroyConn hc') rfl
    obtain ⟨d₁, hstep, htodo₁, hwaits⟩ := hround
    obtain ⟨as, d', hexec, hreturned, hwaits'⟩ := ih htodo₁ hwaits
    exact ⟨.visit :: as, d', Machine.exec_cons_eq_some.mpr ⟨d₁, hstep, hexec⟩, hreturned, hwaits'⟩

/-- Once the destructor has returned, a loop that goes on running its batch gets to
`connnectionDestroyed`, and that calls the server. -/
theorem batch_calls_late (pre : List Functor) {d : Destroying} (hreturned : d.returned = true)
    {c loop : ℕ} {post : List Functor}
    (hbatch : (d.server.loops loop).batch = pre ++ .connnectionDestroyed c :: post)
    (hconn : (d.server.conns c).map ServerConn.loop = some loop) (horder : c ∈ d.order) :
    ∃ as d', Machine.exec step d as = some d' ∧ d'.late ≠ [] := by
  induction pre generalizing d with
  | nil =>
    obtain ⟨k, hk, -⟩ := Option.map_eq_some_iff.mp hconn
    have hcalls : serverCalls d.server loop = [c] := by
      simp [serverCalls, TaskQueue.next, hbatch, hk, connnectionDestroyed_effects]
    refine ⟨[.runFunctor loop (.wrote 0)], _,
      Machine.exec_cons_eq_some.mpr ⟨_, step_ran hreturned hbatch, rfl⟩, ?_⟩
    simp [ran, hcalls, horder]
  | cons g pre ih =>
    -- running `g` leaves the rest of the batch as it is
    obtain ⟨as, d', hexec, hlate⟩ := ih
      (d := d.ran loop g (pre ++ .connnectionDestroyed c :: post)) hreturned batch_ran
      ((sameLoops_ran c).trans hconn) horder
    exact ⟨_ :: as, d', Machine.exec_cons_eq_some.mpr ⟨_, step_ran hreturned hbatch, hexec⟩, hlate⟩

/-- Once the destructor has returned, a loop can run the rest of its batch. -/
theorem drains (batch : List Functor) {d : Destroying} (hreturned : d.returned = true)
    {c loop : ℕ} (hbatch : (d.server.loops loop).batch = batch)
    (hpending : .connnectionDestroyed c ∈ (d.server.loops loop).pendingFunctors)
    (hconn : (d.server.conns c).map ServerConn.loop = some loop) (horder : c ∈ d.order) :
    ∃ as d', Machine.exec step d as = some d' ∧ d'.late ≠ [] := by
  induction batch generalizing d with
  | nil =>
    -- the batch is done: the next one is all that is queued
    obtain ⟨pre, post, hsplit⟩ := List.append_of_mem hpending
    have hswap : step d (.swap loop) = some (d.swapped loop) := by
      simp [step, free, hreturned, TaskQueue.swap, hbatch, swapped]
    have hnew : ((d.swapped loop).server.loops loop).batch =
        pre ++ .connnectionDestroyed c :: post := by
      simp [swapped, popped, hsplit]
    obtain ⟨as, d', hexec, hlate⟩ := batch_calls_late pre (d := d.swapped loop) hreturned hnew
      hconn horder
    exact ⟨_ :: as, d', Machine.exec_cons_eq_some.mpr ⟨_, hswap, hexec⟩, hlate⟩
  | cons g rest ih =>
    obtain ⟨as, d', hexec, hlate⟩ := ih (d := d.ran loop g rest) hreturned batch_ran
      (mem_pending_ran hpending) ((sameLoops_ran c).trans hconn) horder
    exact ⟨_ :: as, d', Machine.exec_cons_eq_some.mpr ⟨_, step_ran hreturned hbatch, hexec⟩, hlate⟩

theorem Waits.calls_late {d : Destroying} {c loop : ℕ} (h : Waits d c loop)
    (hreturned : d.returned = true) :
    ∃ as d', Machine.exec step d as = some d' ∧ d'.late ≠ [] := by
  rcases List.mem_append.mp h.queued with hbatch | hpending
  · obtain ⟨pre, post, hsplit⟩ := List.append_of_mem hbatch
    exact batch_calls_late pre hreturned hsplit h.conn h.order
  · exact drains _ hreturned rfl hpending h.conn h.order

/-- A server with a connection can be destroyed out of order. -/
theorem not_orderly {s : TcpServer} (hs : Serving s) {order : List ℕ}
    (horder : order.Perm s.connections) (hne : s.connections ≠ []) :
    ∃ as d, Machine.exec step (start s order) as = some d ∧ ¬ Orderly d := by
  obtain ⟨c, rest, hcons⟩ : ∃ c rest, order = c :: rest := by
    cases order with
    | nil => exact absurd horder.symm.eq_nil hne
    | cons c rest => exact ⟨c, rest, rfl⟩
  subst hcons
  have hmem : c ∈ s.connections := horder.mem_iff.mp List.mem_cons_self
  obtain ⟨k, hk, -⟩ := hs.connected c hmem
  have hvisit : step (start s (c :: rest)) .visit =
      some (visited (start s (c :: rest)) c k rest) := by
    simp only [step, start, hk, visited]
  by_cases hbase : k.loop = baseLoop
  · -- destroyed at once, and queued again by the callee
    refine ⟨[.visit], _, Machine.exec_cons_eq_some.mpr ⟨_, hvisit, rfl⟩, fun horderly => ?_⟩
    have hnot : c ∉ rest := (List.nodup_cons.mp (horder.nodup_iff.mpr hs.nodup)).1
    have honce := horderly.once c List.mem_cons_self hnot
    simp [visited, start, issues_base hbase] at honce
  · -- destroyed by its loop after the destructor has returned
    have hwaits : Waits (visited (start s (c :: rest)) c k rest) c k.loop := by
      refine ⟨?_, ?_, List.mem_cons_self⟩
      · simp [visited, start, destroyConn, hbase, queueInLoop, TaskQueue.all_emplace]
      · simp [visited, start, destroyConn, hbase, queueInLoop, hk]
    obtain ⟨as₁, d₁, hexec₁, hreturned, hwaits₁⟩ := finishes rest rfl hwaits
    obtain ⟨as₂, d₂, hexec₂, hlate⟩ := hwaits₁.calls_late hreturned
    refine ⟨.visit :: (as₁ ++ as₂), d₂, ?_, fun horderly => hlate horderly.inTime⟩
    exact Machine.exec_cons_eq_some.mpr
      ⟨_, hvisit, Machine.exec_append_eq_some.mpr ⟨d₁, hexec₁, hexec₂⟩⟩

/-! ## A server without connections -/

/-- Running a functor only takes connections out of `connections_`. -/
theorem run_connections (s : TcpServer) (th : ℕ) (w : WriteResult) (f : Functor) :
    (s.run th w f).connections.Sublist s.connections := by
  apply run_cases (P := fun t => t.connections.Sublist s.connections)
  · exact List.Sublist.refl _
  · exact fun k p _ => (connections_perform s th f.conn k p).1
  · exact fun k p _ => (connections_perform (s.did (.connnectionDestroyed f.conn)) th f.conn k p).1
  · exact connections_removeConnectionInLoop_sublist s f.conn

/-- Nothing to destroy. -/
structure Empty (d : Destroying) : Prop where
  order : d.order = []
  todo : d.todo = []
  connections : d.server.connections = []
  late : d.late = []

theorem Empty.orderly {d : Destroying} (h : Empty d) : Orderly d where
  once c hc := by
    rw [h.order] at hc
    exact absurd hc List.not_mem_nil
  unchanged _ := by rw [h.connections, h.order]
  inTime := h.late

theorem Empty.step {d d' : Destroying} (h : Empty d) {a : Label}
    (ha : Destroying.step d a = some d') : Empty d' := by
  cases a with
  | visit =>
    simp only [Destroying.step, h.todo] at ha
    cases ha
  | finish =>
    simp only [Destroying.step, Option.ite_none_right_eq_some, Option.some.injEq] at ha
    obtain ⟨-, rfl⟩ := ha
    exact ⟨h.order, h.todo, h.connections, h.late⟩
  | swap loop =>
    simp only [Destroying.step, Option.ite_none_right_eq_some, Option.map_eq_some_iff] at ha
    obtain ⟨-, q, -, rfl⟩ := ha
    exact ⟨h.order, h.todo, h.connections, h.late⟩
  | runFunctor loop w =>
    simp only [Destroying.step, Option.ite_none_right_eq_some, Option.map_eq_some_iff] at ha
    obtain ⟨-, ⟨f, q⟩, -, rfl⟩ := ha
    refine ⟨h.order, h.todo, ?_, ?_⟩
    · have hsub := run_connections (d.server.popped loop q) loop w f
      rw [show (d.server.popped loop q).connections = [] from h.connections] at hsub
      exact List.sublist_nil.mp hsub
    · simp [h.late, h.order]

/-- A server whose connections are up, destroyed on the thread of its base loop: all runs of the
destructor and of the loops are in order exactly when it has no connection. -/
theorem orderly_iff_empty {s : TcpServer} (hs : Serving s) {order : List ℕ}
    (horder : order.Perm s.connections) :
    (∀ as, Machine.Always Destroying.step Orderly (start s order) as) ↔ s.connections = [] := by
  constructor
  · intro h
    by_contra hne
    obtain ⟨as, d, hexec, hnot⟩ := not_orderly hs horder hne
    exact hnot ((h as).last hexec)
  · intro hnil as
    rw [hnil] at horder
    have hempty : Empty (start s order) := ⟨horder.eq_nil, horder.eq_nil, hnil, rfl⟩
    exact Machine.always_of_invariant (fun _ h => h.orderly) (fun _ _ _ h ha => h.step ha) hempty

/-- A server without io loops that has accepted one connection. -/
def oneConnection : TcpServer := (TcpServer.new 0 false).newConnection false 0

/-- Its connection is up, and nothing is queued. -/
theorem serving_oneConnection : Serving oneConnection where
  nodup := by decide +kernel
  connected c hc := by
    have hone : c = 1 := List.mem_singleton.mp hc
    subst hone
    exact ⟨⟨0, (TcpConnection.new false false 0).connectionEstablished.1⟩, rfl, rfl⟩
  noTeardown _ _ _ _ _ _ := rfl

theorem orderly_iff_empty_oneConnection :
    ¬ ∀ as, Machine.Always Destroying.step Orderly (start oneConnection [1]) as := by
  rw [orderly_iff_empty serving_oneConnection (List.Perm.refl [1])]
  decide +kernel

/-- The first round of the walk destroys the connection, and the callee queues its destruction
again. -/
theorem destroyed_twice :
    ¬ Machine.Always Destroying.step Orderly (start oneConnection [1]) [.visit] := by
  intro h
  have hlast : (Machine.exec Destroying.step (start oneConnection [1]) [.visit]).map
      (fun d => (d.order, d.todo, d.issued 1)) = some ([1], [], 2) := by
    decide +kernel
  obtain ⟨d, hd, hfields⟩ := Option.map_eq_some_iff.mp hlast
  simp only [Prod.mk.injEq] at hfields
  obtain ⟨horder, htodo, hissued⟩ := hfields
  have honce := (h.last hd).once 1 (by simp [horder]) (by simp [htodo])
  rw [hissued] at honce
  cases honce

end Destroying
end TcpServer
end Webservers
