import Webservers.TcpConnection.InterestTheorems
import Webservers.TcpServer.Interleaving
import Webservers.TcpServer.TeardownTheorems

/-!
# The connections of a server

`TcpConnection.loopStep` is a connection on its own: its loop's thread calls its functions in any
order, except that `connectionEstablished` comes first and only once. In a server nobody checks
that. It holds because `newConnection` queues `connectionEstablished` before anybody else can know
of the connection, and because nothing else queues it.

* `Going`: a connection that `loopStep` can make, and that is past `connectionEstablished`;
* `SetUp`: the invariant, for one connection of a server; `UpAt` is what it says of one that is
  established, and every step leaves it so (`Touches`);
* `StoreOk`: no `shutdown` stores `kDisconnecting` over `kDisconnected`. The load and the store of
  another thread may have the closing between them, and the store would undo it;
* `connections_refine`: every connection of a running server whose callers keep to that is in a
  state that `loopStep` can reach. What holds of `loopStep`, such as `Mirrored`, holds there.
-/

namespace Webservers

namespace TcpConnection

/-- Some run of the loop's thread makes this of a new connection. -/
def Lawful (c : TcpConnection) : Prop :=
  ∃ writeComplete highWater highWaterMark,
    Machine.Reachable loopStep (new writeComplete highWater highWaterMark) c

/-- Established, by such a run. -/
structure Going (c : TcpConnection) : Prop where
  lawful : Lawful c
  state : c.state ≠ .kConnecting

/-- What the loop's thread does next. -/
theorem Lawful.step {c d : TcpConnection} (h : Lawful c) (op : LoopOp)
    (hop : loopStep c op = some d) : Lawful d := by
  obtain ⟨writeComplete, highWater, highWaterMark, hreach⟩ := h
  exact ⟨writeComplete, highWater, highWaterMark, hreach.tail hop⟩

/-- A read leaves `state_`, or finds the end of the stream. -/
theorem state_handleRead (c : TcpConnection) (r : ReadvResult) :
    (c.handleRead r).1.state = c.state ∨ (c.handleRead r).1.state = .kDisconnected := by
  unfold handleRead
  simp only
  split
  · exact .inr rfl
  · exact .inl rfl
  · exact .inl rfl

/-- No function takes a connection back to where it began. -/
theorem state_call {c : TcpConnection} (h : c.state ≠ .kConnecting) {op : LoopOp}
    (hop : op ≠ .connectionEstablished) : (op.call c).1.state ≠ .kConnecting := by
  cases op with
  | connectionEstablished => exact absurd rfl hop
  | handleRead r =>
    rcases state_handleRead c r with hsame | hdown
    · rw [LoopOp.call, hsame]
      exact h
    · rw [LoopOp.call, hdown]
      exact StateE.noConfusion
  | handleWrite r =>
    rw [LoopOp.call, handleWrite_state]
    exact h
  | handleClose => exact StateE.noConfusion
  | handleError => exact h
  | send message r =>
    rw [LoopOp.call, send]
    split
    · rw [sendInLoop_state]
      exact h
    · exact h
  | sendInLoop message r =>
    rw [LoopOp.call, sendInLoop_state]
    exact h
  | shutdown =>
    rw [LoopOp.call, shutdown]
    split
    · exact StateE.noConfusion
    · exact h
  | shutdownInLoop => exact h
  | connnectionDestroyed => exact StateE.noConfusion

/-- Any call but the set-up keeps a connection going. -/
theorem Going.call {c : TcpConnection} (h : Going c) (op : LoopOp)
    (hop : op ≠ .connectionEstablished) : Going (op.call c).1 where
  lawful := by
    apply h.lawful.step op
    rw [loopStep, if_pos]
    exact ⟨fun heq => absurd heq hop, fun heq => absurd heq h.state⟩
  state := state_call h.state hop

/-- `setState(kDisconnecting)` while the connection is not closed. -/
theorem Going.setDisconnecting {c : TcpConnection} (h : Going c) (hup : c.state ≠ .kDisconnected) :
    Going (c.setState .kDisconnecting) := by
  cases hstate : c.state with
  | kConnected =>
    -- it is all that `shutdown` does to the connection
    have hdown : (LoopOp.shutdown.call c).1 = c.setState .kDisconnecting := by
      rw [LoopOp.call, shutdown, if_pos hstate]
      rfl
    rw [← hdown]
    exact h.call .shutdown LoopOp.noConfusion
  | kDisconnecting =>
    have hsame : c.setState .kDisconnecting = c := by
      rw [setState, ← hstate]
    rwa [hsame]
  | kConnecting => exact absurd hstate h.state
  | kDisconnected => exact absurd hstate hup

/-- The callbacks that one report runs are so many calls. -/
theorem Going.handleEvent {c : TcpConnection} (h : Going c) (revents : Mask) (r : ReadvResult)
    (w : WriteResult) : Going (c.handleEvent revents r w).1 := by
  unfold TcpConnection.handleEvent
  have hhup : Going (if revents &&& EPOLLHUP ≠ 0 ∧ revents &&& EPOLLIN = 0 then c.handleClose
      else (c, [])).1 := by
    split
    · exact h.call .handleClose LoopOp.noConfusion
    · exact h
  generalize (if revents &&& EPOLLHUP ≠ 0 ∧ revents &&& EPOLLIN = 0 then c.handleClose
    else (c, [])) = p at hhup
  have herr : Going (if revents &&& EPOLLERR ≠ 0 then andThen p handleError else p).1 := by
    split
    · exact hhup
    · exact hhup
  simp only
  generalize (if revents &&& EPOLLERR ≠ 0 then andThen p handleError else p) = p at herr
  have hread : Going (if revents &&& (EPOLLIN ||| EPOLLPRI) ≠ 0 then
      andThen p (TcpConnection.handleRead · r) else p).1 := by
    split
    · exact herr.call (.handleRead r) LoopOp.noConfusion
    · exact herr
  generalize (if revents &&& (EPOLLIN ||| EPOLLPRI) ≠ 0 then
    andThen p (TcpConnection.handleRead · r) else p) = p at hread
  split
  · exact hread.call (.handleWrite w) LoopOp.noConfusion
  · exact hread

end TcpConnection

namespace TcpServer

open TcpConnection (Lawful Going LoopOp)

/-! ## The invariant -/

/-- Until it is established nothing but that is queued for a connection, and it is queued once. -/
structure SetUp (s : TcpServer) (c : ℕ) (k : ServerConn) : Prop where
  lawful : Lawful k.conn
  connecting : k.conn.state = .kConnecting → k.conn.channel.index ≠ .kAdded ∧
    ∀ loop f, f.conn = c →
      s.pending loop f = if f = .connectionEstablished c ∧ loop = k.loop then 1 else 0
  established : k.conn.state ≠ .kConnecting → ∀ loop, s.pending loop (.connectionEstablished c) = 0

/-- The set-up of `c` goes as it should, also while there is no such connection. -/
def SetUpAt (s : TcpServer) (c : ℕ) : Prop :=
  match s.conns c with
  | none => ∀ loop f, f.conn = c → s.pending loop f = 0
  | some k => SetUp s c k

section SetUp

variable {s t : TcpServer} {c th loop : ℕ} {k : ServerConn} {p : TcpConnection × List Effect}

/-- A step that does not touch the connection. -/
theorem SameAt.setUpAt (h : SameAt c s t) (hs : SetUpAt s c) : SetUpAt t c := by
  unfold SetUpAt at hs ⊢
  rw [h.conns]
  cases hc : s.conns c with
  | none =>
    rw [hc] at hs
    exact fun loop f hf => (h.pending loop f hf).trans (hs loop f hf)
  | some k =>
    rw [hc] at hs
    refine ⟨hs.lawful, fun hstate => ?_, fun hstate loop => ?_⟩
    · obtain ⟨hindex, hpending⟩ := hs.connecting hstate
      exact ⟨hindex, fun loop f hf => (h.pending loop f hf).trans (hpending loop f hf)⟩
    · exact (h.pending loop _ rfl).trans (hs.established hstate loop)

theorem SetUpAt.setUp (h : SetUpAt s c) (hc : s.conns c = some k) : SetUp s c k := by
  rw [SetUpAt, hc] at h
  exact h

theorem SetUp.setUpAt (hc : s.conns c = some k) (h : SetUp s c k) : SetUpAt s c := by
  rw [SetUpAt, hc]
  exact h

theorem SetUp.going (h : SetUp s c k) (hstate : k.conn.state ≠ .kConnecting) : Going k.conn :=
  ⟨h.lawful, hstate⟩

/-- The connection is established, with nothing left of its set-up. -/
def UpAt (s : TcpServer) (c : ℕ) : Prop :=
  ∃ k, s.conns c = some k ∧ Going k.conn ∧ ∀ loop, s.pending loop (.connectionEstablished c) = 0

theorem UpAt.setUpAt (h : UpAt s c) : SetUpAt s c := by
  obtain ⟨k, hc, hgoing, hpending⟩ := h
  exact SetUp.setUpAt hc
    ⟨hgoing.lawful, fun hstate => absurd hstate hgoing.state, fun _ => hpending⟩

/-- A connection that has left `kConnecting` is established. -/
theorem SetUpAt.upAt (h : SetUpAt s c) (hc : s.conns c = some k)
    (hstate : k.conn.state ≠ .kConnecting) : UpAt s c :=
  ⟨k, hc, (h.setUp hc).going hstate, (h.setUp hc).established hstate⟩

theorem SameAt.upAt (h : SameAt c s t) (hs : UpAt s c) : UpAt t c := by
  obtain ⟨k, hc, hgoing, hpending⟩ := hs
  exact ⟨k, h.conns.trans hc, hgoing, fun loop => (h.pending loop _ rfl).trans (hpending loop)⟩

/-- A function of an established connection. -/
theorem upAt_perform (hpending : ∀ loop, s.pending loop (.connectionEstablished c) = 0)
    (hp : Going p.1) : UpAt (s.perform th c k p) c := by
  refine ⟨_, conns_perform_self, hp, fun loop => ?_⟩
  rw [(grows_perform s th c k p).pending loop _ (by simp [Functor.ordinary, Functor.teardown])]
  exact hpending loop

/-- Something else is queued for an established connection. -/
theorem upAt_queueInLoop (h : UpAt s c) {f : Functor} (hf : f ≠ .connectionEstablished c) :
    UpAt (s.queueInLoop loop f) c := by
  obtain ⟨k, hc, hgoing, hpending⟩ := h
  refine ⟨k, hc, hgoing, fun loop' => ?_⟩
  rw [pending_queueInLoop, if_neg (fun hand => hf hand.2.symm), hpending loop']

/-- A report, after which the connection is established. -/
theorem upAt_handleEvent (hc : s.conns c = some k) (h : SetUpAt s c)
    (hindex : k.conn.channel.index = .kAdded) (revents : Mask) (r : ReadvResult)
    (w : WriteResult) : UpAt (s.handleEvent c k revents r w) c := by
  have hk := h.setUp hc
  have hstate : k.conn.state ≠ .kConnecting := fun heq => (hk.connecting heq).1 hindex
  rw [handleEvent_eq]
  exact upAt_perform (hk.established hstate) ((hk.going hstate).handleEvent revents r w)

/-! ## Functors -/

/-- What is run for a connection that is connecting is `connectionEstablished`, and what is run for
another one is not. -/
theorem connecting_iff_next {f : Functor} {q : TaskQueue Functor}
    (hnext : (s.loops loop).next = some (f, q)) (hc : s.conns f.conn = some k)
    (h : SetUpAt s f.conn) :
    k.conn.state = .kConnecting ↔ f = .connectionEstablished f.conn := by
  have hk := h.setUp hc
  have hpos := pending_pos_of_next hnext
  constructor
  · intro hstate
    by_contra hne
    rw [(hk.connecting hstate).2 loop f rfl, if_neg (fun hand => hne hand.1)] at hpos
    exact Nat.lt_irrefl 0 hpos
  · intro heq
    by_contra hstate
    rw [heq, hk.established hstate] at hpos
    exact Nat.lt_irrefl 0 hpos

/-- Once `connectionEstablished` has been taken out of its queue, it is in none. -/
theorem popped_established {f : Functor} {q : TaskQueue Functor}
    (hnext : (s.loops loop).next = some (f, q)) (hc : s.conns f.conn = some k)
    (h : SetUpAt s f.conn) (loop' : ℕ) :
    (s.popped loop q).pending loop' (.connectionEstablished f.conn) = 0 := by
  have hk := h.setUp hc
  have hiff := connecting_iff_next hnext hc h
  have hcount := pending_popped hnext loop' (.connectionEstablished f.conn)
  by_cases hstate : k.conn.state = .kConnecting
  · have hpending := (hk.connecting hstate).2
    have hpos := pending_pos_of_next hnext
    rw [hpending loop f rfl] at hpos
    have hloop : loop = k.loop := by
      by_contra hne
      rw [if_neg (fun hand => hne hand.2)] at hpos
      exact Nat.lt_irrefl 0 hpos
    have hf : .connectionEstablished f.conn = f := (hiff.mp hstate).symm
    have hbefore := hpending loop' (.connectionEstablished f.conn) rfl
    simp only [hf, and_true, true_and, hloop] at hcount hbefore ⊢
    omega
  · rw [hk.established hstate loop'] at hcount
    omega

/-- A functor is queued for a connection that exists. -/
theorem SetUpAt.conns_of_next {f : Functor} {q : TaskQueue Functor} (h : SetUpAt s f.conn)
    (hnext : (s.loops loop).next = some (f, q)) :
    ∃ k, s.conns f.conn = some k := by
  have hpos := pending_pos_of_next hnext
  cases hc : s.conns f.conn with
  | none =>
    rw [SetUpAt, hc] at h
    rw [h loop f rfl] at hpos
    exact absurd hpos (Nat.lt_irrefl 0)
  | some k => exact ⟨k, rfl⟩

/-- Anything but `connectionEstablished` finds its connection established. -/
theorem upAt_popped {f : Functor} {q : TaskQueue Functor}
    (hnext : (s.loops loop).next = some (f, q)) (h : SetUpAt s f.conn)
    (hne : f ≠ .connectionEstablished f.conn) : UpAt (s.popped loop q) f.conn := by
  obtain ⟨k, hc⟩ := h.conns_of_next hnext
  have hstate : k.conn.state ≠ .kConnecting :=
    fun hstate => hne ((connecting_iff_next hnext hc h).mp hstate)
  exact ⟨k, hc, (h.setUp hc).going hstate, popped_established hnext hc h⟩

/-- `removeConnectionInLoop` queues a hop and leaves the connection alone. -/
theorem upAt_removeConnectionInLoop (h : UpAt s c) : UpAt (s.removeConnectionInLoop c) c := by
  obtain ⟨k, hc, hgoing, hpending⟩ := h
  rw [removeConnectionInLoop, hc]
  exact upAt_queueInLoop (s := { s with connections := s.connections.erase c })
    ⟨k, hc, hgoing, hpending⟩ Functor.noConfusion

/-- Both halves of `connnectionDestroyed` leave the connection established. -/
theorem upAt_destroyed (h : UpAt s c) (w : WriteResult) :
    UpAt (s.run th w (.connnectionDestroyed c)) c := by
  obtain ⟨k, hc, hgoing, hpending⟩ := h
  have hc' : s.conns (Functor.connnectionDestroyed c).conn = some k := hc
  rw [run, hc']
  exact upAt_perform (s := s.did (.connnectionDestroyed c)) hpending
    (hgoing.call .connnectionDestroyed LoopOp.noConfusion)

/-- A functor, after which its connection is established. -/
theorem upAt_runFunctor {f : Functor} {q : TaskQueue Functor}
    (hnext : (s.loops loop).next = some (f, q)) (h : SetUpAt s f.conn) (w : WriteResult) :
    UpAt ((s.popped loop q).run loop w f) f.conn := by
  by_cases hne : f = .connectionEstablished f.conn
  · obtain ⟨k, hc⟩ := h.conns_of_next hnext
    have hc' : (s.popped loop q).conns f.conn = some k := hc
    have hiff := connecting_iff_next hnext hc h
    have hpending := popped_established hnext hc h
    rw [run, hc']
    rw [hne] at hpending ⊢
    refine upAt_perform hpending ⟨?_, StateE.noConfusion⟩
    refine (h.setUp hc).lawful.step .connectionEstablished ?_
    rw [TcpConnection.loopStep, if_pos ⟨fun _ => hiff.mpr hne, fun _ => rfl⟩]
    rfl
  · have hup := upAt_popped hnext h hne
    cases f with
    | connectionEstablished d => exact absurd rfl hne
    | connnectionDestroyed d => exact upAt_destroyed hup w
    | removeConnectionInLoop d =>
      have hgone := upAt_removeConnectionInLoop hup
      obtain ⟨k, hc, -, -⟩ := hup
      rw [run, hc]
      exact hgone
    | sendInLoop d message =>
      obtain ⟨k, hc, hgoing, hpending⟩ := hup
      rw [run, hc]
      exact upAt_perform hpending (hgoing.call (.sendInLoop message w) LoopOp.noConfusion)
    | shutdownInLoop d =>
      obtain ⟨k, hc, hgoing, hpending⟩ := hup
      rw [run, hc]
      exact upAt_perform hpending (hgoing.call .shutdownInLoop LoopOp.noConfusion)
    | writeCompleteCallback d | highWaterMarkCallback d len =>
      obtain ⟨k, hc, hgoing, hpending⟩ := hup
      rw [run, hc]
      exact ⟨k, hc, hgoing, hpending⟩

/-! ## New connections -/

theorem lawful_new (writeComplete highWater : Bool) (highWaterMark : ℕ) :
    Lawful (.new writeComplete highWater highWaterMark) :=
  ⟨writeComplete, highWater, highWaterMark, [], rfl⟩

/-- The connection that `newConnection` makes: set up at once, or its set-up queued. -/
theorem setUpAt_newConnection (hnone : s.conns s.nextConnId = none)
    (h : SetUpAt s s.nextConnId) (highWater : Bool) (highWaterMark : ℕ) :
    SetUpAt (s.newConnection highWater highWaterMark) s.nextConnId := by
  rw [SetUpAt, hnone] at h
  obtain ⟨-, hloops, -, -, -⟩ := getNextLoop_same s
  have hcreated : ∀ k loop f, f.conn = s.nextConnId → (s.created k).pending loop f = 0 := by
    intro k loop f hf
    show (s.getNextLoop.2.loops loop).all.count f = 0
    rw [hloops]
    exact h loop f hf
  have hlawful : Lawful (s.newConn highWater highWaterMark).conn := lawful_new _ _ _
  have hstate : (s.newConn highWater highWaterMark).conn.state = .kConnecting := rfl
  rw [newConnection_eq]
  simp only
  split
  · refine (upAt_perform (fun loop => hcreated _ loop _ rfl) ⟨?_, StateE.noConfusion⟩).setUpAt
    refine hlawful.step .connectionEstablished ?_
    rw [TcpConnection.loopStep, if_pos ⟨fun _ => hstate, fun _ => rfl⟩]
    rfl
  · refine SetUp.setUpAt (Function.update_self _ _ _) ⟨hlawful, fun _ => ⟨?_, ?_⟩, ?_⟩
    · show Index.kNew ≠ .kAdded
      decide
    · intro loop f hf
      rw [pending_queueInLoop, hcreated _ loop f hf, Nat.zero_add]
      simp only [And.comm]
    · exact fun hne => absurd hstate hne

/-! ## Steps -/

/-- The set-up of every connection, those to come included. -/
structure AllSetUp (s : TcpServer) : Prop where
  ids : ∀ c, s.nextConnId ≤ c → s.conns c = none
  setUpAt : ∀ c, SetUpAt s c

theorem allSetUp_new (numThreads : ℕ) (writeComplete : Bool) :
    AllSetUp (new numThreads writeComplete) :=
  ⟨fun _ _ => rfl, fun _ _ _ _ => rfl⟩

/-- From `s` to `t` only the connection `c` is touched, and it is established then. -/
structure Touches (c : ℕ) (s t : TcpServer) : Prop where
  nextConnId : t.nextConnId = s.nextConnId
  same : ∀ d, d ≠ c → SameAt d s t
  upAt : UpAt t c

/-- The set-up goes on as it should, and a connection that is established stays so. -/
structure Settles (s t : TcpServer) : Prop where
  allSetUp : AllSetUp t
  upAt : ∀ c, UpAt s c → UpAt t c

/-- A step for one connection is no affair of the others. -/
theorem Touches.settles (h : Touches c s t) (hs : AllSetUp s) (hc : s.conns c ≠ none) :
    Settles s t where
  allSetUp := by
    constructor
    · intro d hd
      rw [h.nextConnId] at hd
      have hne : d ≠ c := by
        rintro rfl
        exact hc (hs.ids d hd)
      rw [(h.same d hne).conns, hs.ids d hd]
    · intro d
      by_cases hd : d = c
      · subst hd
        exact h.upAt.setUpAt
      · exact (h.same d hd).setUpAt (hs.setUpAt d)
  upAt := by
    intro d hup
    by_cases hd : d = c
    · subst hd
      exact h.upAt
    · exact (h.same d hd).upAt hup

theorem UpAt.conns_ne (h : UpAt s c) : s.conns c ≠ none := by
  obtain ⟨k, hc, -, -⟩ := h
  rw [hc]
  exact Option.some_ne_none k

/-- `newConnection`, which uses a number of its own. -/
theorem settles_newConnection (h : AllSetUp s) (highWater : Bool) (highWaterMark : ℕ) :
    Settles s (s.newConnection highWater highWaterMark) := by
  have hnone := h.ids s.nextConnId (Nat.le_refl _)
  refine ⟨⟨fun d hd => ?_, fun d => ?_⟩, fun d hup => ?_⟩
  · rw [nextConnId_newConnection] at hd
    rw [(sameAt_newConnection (by omega) highWater highWaterMark).conns]
    exact h.ids d (by omega)
  · by_cases hd : d = s.nextConnId
    · rw [hd]
      exact setUpAt_newConnection hnone (h.setUpAt _) highWater highWaterMark
    · exact (sameAt_newConnection hd highWater highWaterMark).setUpAt (h.setUpAt d)
  · have hd : d ≠ s.nextConnId := by
      rintro rfl
      exact hup.conns_ne hnone
    exact (sameAt_newConnection hd highWater highWaterMark).upAt hup

/-- A step of a loop. -/
theorem settles_step {a : Label} (h : AllSetUp s) (hstep : step s a = some t)
    (hsend : ∀ th c message w, a ≠ .send th c message w) (hshutdown : ∀ th c, a ≠ .shutdown th c) :
    Settles s t := by
  cases a with
  | newConnection highWater highWaterMark =>
    rw [step] at hstep
    split at hstep <;> cases hstep
    exact settles_newConnection h highWater highWaterMark
  | handleEvent c revents r w =>
    obtain ⟨k, hc, hindex, rfl⟩ := step_handleEvent hstep
    have htouches : Touches c s (s.handleEvent c k revents r w) :=
      ⟨nextConnId_perform _ _ _ _ _, fun d hd => sameAt_handleEvent hd k revents r w,
        upAt_handleEvent hc (h.setUpAt c) hindex revents r w⟩
    exact htouches.settles h (by rw [hc]; exact Option.some_ne_none k)
  | swap loop =>
    obtain ⟨q, hswap, rfl⟩ := step_swap hstep
    have hsame : ∀ d, SameAt d s (s.popped loop q) := fun d =>
      ⟨rfl, fun loop' f _ => pending_swap hswap loop' f, rfl, rfl, rfl⟩
    exact ⟨⟨h.ids, fun d => (hsame d).setUpAt (h.setUpAt d)⟩, fun d hup => (hsame d).upAt hup⟩
  | runFunctor loop w =>
    obtain ⟨f, q, hnext, rfl⟩ := step_runFunctor hstep
    have htouches : Touches f.conn s ((s.popped loop q).run loop w f) :=
      ⟨nextConnId_run _ _ _ _,
        fun d hd => (sameAt_popped hnext hd).trans (sameAt_run _ loop w hd),
        upAt_runFunctor hnext (h.setUpAt f.conn) w⟩
    obtain ⟨k, hc⟩ := (h.setUpAt f.conn).conns_of_next hnext
    exact htouches.settles h (by rw [hc]; exact Option.some_ne_none k)
  | send th c message w => exact absurd rfl (hsend th c message w)
  | shutdown th c => exact absurd rfl (hshutdown th c)

end SetUp

end TcpServer

namespace SharedServer

open TcpServer (AllSetUp UpAt Settles Touches sameAt_perform sameAt_queueInLoop sameAt_popped
  sameAt_setConn sameAt_run upAt_perform upAt_queueInLoop upAt_popped upAt_destroyed)
open TcpConnection (Going LoopOp)

/-- The connection that a step stores `kDisconnecting` for. -/
def storing (s : SharedServer) : Label → Option ℕ
  | .advance th _ =>
    match s.calls th with
    | .shutdownLoaded c => some c
    | _ => none
  | _ => none

/-- No `shutdown` stores `kDisconnecting` over `kDisconnected`. -/
def StoreOk (s : SharedServer) (a : Label) : Prop :=
  ∀ c ∈ s.storing a, ∀ k ∈ s.server.conns c, s.state c k ≠ .kDisconnected

/-- The set-up, and that a call has begun with an established connection. -/
structure Attended (s : SharedServer) : Prop where
  allSetUp : AllSetUp s.server
  called : ∀ th c, (s.calls th).conn = some c → UpAt s.server c

/-- No thread is in a call at the start. -/
theorem attended_start (numThreads : ℕ) (writeComplete : Bool) :
    Attended (start numThreads writeComplete) :=
  ⟨TcpServer.allSetUp_new numThreads writeComplete, fun _ _ h => nomatch h⟩

section Steps

variable {s t : SharedServer} {th c : ℕ} {k : ServerConn} {w : WriteResult}

/-- A thread gets into a call, or out of it. -/
theorem Attended.setCall (h : Attended s) {pc : AccessPc}
    (hup : ∀ c, pc.conn = some c → UpAt s.server c) : Attended (s.setCall th pc) where
  allSetUp := h.allSetUp
  called := by
    intro th' c hc
    by_cases hth : th' = th
    · subst hth
      rw [calls_setCall_self] at hc
      exact hup c hc
    · rw [calls_setCall_other s hth] at hc
      exact h.called th' c hc

/-- A step of the server while the calls stay where they are. -/
theorem Attended.settles (h : Attended s) {u : TcpServer} (hu : Settles s.server u) :
    Attended { s with server := u } :=
  ⟨hu.allSetUp, fun th c hc => hu.upAt c (h.called th c hc)⟩

theorem Attended.finish (h : Attended s) {u : TcpServer} (hu : Settles s.server u) :
    Attended (s.finish th u) :=
  (h.settles hu).setCall fun _ hc => nomatch hc

/-- A load that finds `kConnected` finds an established connection. -/
theorem Attended.upAt_of_state (h : Attended s) (hc : s.server.conns c = some k)
    (hstate : s.state c k ≠ .kConnecting) : UpAt s.server c := by
  cases hdestroying : s.destroying c k with
  | none =>
    rw [state, hdestroying, Option.getD_none] at hstate
    exact (h.allSetUp.setUpAt c).upAt hc hstate
  | some st =>
    rw [destroying] at hdestroying
    split at hdestroying
    · rename_i d st' hpc
      rw [Option.ite_none_right_eq_some] at hdestroying
      apply h.called k.loop c
      rw [hpc, AccessPc.conn, hdestroying.1]
    · cases hdestroying

/-- `send` and `shutdown` go on only when they have found `kConnected`. -/
theorem Attended.call (h : Attended s) {pc : AccessPc} (hpc : pc.conn = some c)
    (ht : s.call th c pc = some t) : Attended t := by
  obtain rfl | ⟨k, hc, hstate, rfl⟩ := call_cases ht
  · exact h
  · apply h.setCall
    intro d hd
    obtain rfl : c = d := Option.some.inj (hpc.symm.trans hd)
    apply h.upAt_of_state hc
    rw [hstate]
    exact StateE.noConfusion

/-- A step of a loop. -/
theorem Attended.serve (h : Attended s) {a : TcpServer.Label}
    (ht : s.step (.serve a) = some t) : Attended t := by
  obtain ⟨u, hu, hsend, hshutdown, rfl⟩ | ⟨loop, w, c, q, -, hnext, rfl⟩ := step_serve ht
  · exact h.settles (TcpServer.settles_step h.allSetUp hu hsend hshutdown)
  · -- the functor is taken out, and its connection is as it was
    have hat := h.allSetUp.setUpAt c
    have hup : UpAt (s.server.popped loop q) c := upAt_popped hnext hat Functor.noConfusion
    have htouches : Touches c s.server (s.server.popped loop q) :=
      ⟨rfl, fun d hd => sameAt_popped hnext hd, hup⟩
    have hsettles := htouches.settles h.allSetUp hup.conns_ne
    have hfinished : Attended (s.finish loop (s.server.popped loop q)) := h.finish hsettles
    apply hfinished.setCall
    intro d hd
    obtain rfl : c = d := Option.some.inj hd
    exact hup

/-- The store of another thread. -/
theorem Attended.setState (h : Attended s) (hup : UpAt s.server c)
    (hc : s.server.conns c = some k) (hopen : s.state c k ≠ .kDisconnected) :
    Attended (s.setState c k .kDisconnecting) ∧
      UpAt (s.setState c k .kDisconnecting).server c := by
  unfold SharedServer.setState
  cases hdestroying : s.destroying c k with
  | some st =>
    refine ⟨h.setCall fun d hd => ?_, hup⟩
    obtain rfl : c = d := Option.some.inj hd
    exact hup
  | none =>
    rw [state, hdestroying, Option.getD_none] at hopen
    obtain ⟨k', hc', hgoing, hpending⟩ := hup
    obtain rfl : k = k' := Option.some.inj (hc.symm.trans hc')
    have hset : UpAt (s.server.setConn c { k with conn := k.conn.setState .kDisconnecting }) c :=
      ⟨_, Function.update_self _ _ _, hgoing.setDisconnecting hopen, hpending⟩
    have htouches : Touches c s.server
        (s.server.setConn c { k with conn := k.conn.setState .kDisconnecting }) :=
      ⟨rfl, fun d hd => sameAt_setConn hd _, hset⟩
    exact ⟨h.settles (htouches.settles h.allSetUp (by rw [hc]; exact Option.some_ne_none k)), hset⟩

/-- A thread goes on with its call. -/
theorem Attended.advance (h : Attended s) (hok : s.StoreOk (.advance th w))
    (ht : s.advance th w = some t) : Attended t := by
  cases hpc : s.calls th with
  | idle =>
    rw [SharedServer.advance, hpc] at ht
    cases ht
  | sendLoaded c message =>
    have hup := h.called th c (by rw [hpc]; rfl)
    have hexists := hup.conns_ne
    obtain ⟨k, hc, hgoing, hpending⟩ := hup
    rw [advance_sendLoaded hc hpc] at ht
    cases ht
    apply h.finish
    apply Touches.settles (c := c) _ h.allSetUp hexists
    split
    · exact ⟨TcpServer.nextConnId_perform _ _ _ _ _, fun d hd => sameAt_perform hd k _,
        upAt_perform hpending (hgoing.call (.sendInLoop message w) LoopOp.noConfusion)⟩
    · exact ⟨rfl, fun d hd => sameAt_queueInLoop _ hd,
        upAt_queueInLoop ⟨k, hc, hgoing, hpending⟩ Functor.noConfusion⟩
  | shutdownLoaded c =>
    have hup := h.called th c (by rw [hpc]; rfl)
    have hexists := hup.conns_ne
    obtain ⟨k, hc, hgoing, hpending⟩ := hup
    have hopen : s.state c k ≠ .kDisconnected := hok c (by rw [storing, hpc]; rfl) k hc
    rw [advance_shutdownLoaded hc hpc] at ht
    cases ht
    split
    · rename_i hth
      have hstate : s.state c k = k.conn.state := by
        rw [state, destroying, ← hth, hpc]
        rfl
      rw [hstate] at hopen
      apply h.finish
      apply Touches.settles (c := c) _ h.allSetUp hexists
      exact ⟨TcpServer.nextConnId_perform _ _ _ _ _, fun d hd => sameAt_perform hd k _,
        upAt_perform hpending
          ((hgoing.setDisconnecting hopen).call .shutdownInLoop LoopOp.noConfusion)⟩
    · obtain ⟨hstored, hup⟩ := h.setState ⟨k, hc, hgoing, hpending⟩ hc hopen
      apply hstored.setCall
      intro d hd
      obtain rfl : c = d := Option.some.inj hd
      exact hup
  | shutdownStored c =>
    have hup := h.called th c (by rw [hpc]; rfl)
    have hexists := hup.conns_ne
    obtain ⟨k, hc, hgoing, hpending⟩ := hup
    rw [advance_shutdownStored hc hpc] at ht
    cases ht
    apply h.finish
    apply Touches.settles (c := c) _ h.allSetUp hexists
    exact ⟨rfl, fun d hd => sameAt_queueInLoop _ hd,
      upAt_queueInLoop ⟨k, hc, hgoing, hpending⟩ Functor.noConfusion⟩
  | destroying c st =>
    have hup := h.called th c (by rw [hpc]; rfl)
    rw [SharedServer.advance, hpc] at ht
    cases ht
    apply h.finish
    apply Touches.settles (c := c) _ h.allSetUp hup.conns_ne
    exact ⟨TcpServer.nextConnId_run _ _ _ _, fun d hd => sameAt_run _ th w hd,
      upAt_destroyed hup w⟩

/-- Every step of the server and its callers. -/
theorem Attended.step (h : Attended s) {a : Label} (ht : s.step a = some t) (hok : s.StoreOk a) :
    Attended t := by
  cases a with
  | serve a => exact h.serve ht
  | send th c message => exact h.call rfl ht
  | shutdown th c => exact h.call rfl ht
  | advance th w => exact h.advance hok ht

end Steps

/-- In every state of every run of a server and its callers, whatever the number of its loops: as
long as no `shutdown` stores `kDisconnecting` over `kDisconnected`, each connection is in a state
that its loop's thread can bring a connection to on its own, where `connectionEstablished` is the
first call and is made once; so its write interest says whether there is output, as long as it is
not disconnected. A connection in the middle of its `connnectionDestroyed` is taken as that found
it. -/
theorem connections_refine (numThreads : ℕ) (writeComplete : Bool) (as : List Label)
    {s : SharedServer}
    (hexec : Machine.exec step (start numThreads writeComplete) as = some s)
    (hok : Machine.Along step StoreOk (start numThreads writeComplete) as) {c : ℕ}
    {k : ServerConn} (hc : s.server.conns c = some k) :
    (∃ writeComplete highWater highWaterMark, Machine.Reachable TcpConnection.loopStep
        (.new writeComplete highWater highWaterMark) k.conn) ∧
      (k.conn.state ≠ .kDisconnected →
        (k.conn.channel.isWriting = true ↔ 0 < k.conn.outputBuffer.readableBytes)) := by
  have hattended : Attended s := Machine.exec_invariant_along
    (fun _ _ _ hs hoka ha => hs.step ha hoka) (attended_start numThreads writeComplete) hok hexec
  have hlawful : TcpConnection.Lawful k.conn := ((hattended.allSetUp.setUpAt c).setUp hc).lawful
  refine ⟨hlawful, ?_⟩
  obtain ⟨writeComplete, highWater, highWaterMark, hreach⟩ := hlawful
  have hmirrored : TcpConnection.Mirrored k.conn := Machine.reachable_invariant
    (TcpConnection.mirrored_new writeComplete highWater highWaterMark)
    (fun _ _ _ hm hop => hm.step hop) hreach
  exact hmirrored.isWriting_iff

instance (s : SharedServer) : DecidablePred s.StoreOk := fun a =>
  inferInstanceAs (Decidable (∀ c ∈ s.storing a, ∀ k ∈ s.server.conns c, _ ≠ _))

/-- A connection whose peer resets while a message is sent; before the event is handled, another
thread shuts it down. -/
def resetWhileSending : List Label :=
  [.serve (.newConnection true 1), .serve (.swap 1), .serve (.runFunctor 1 (.wrote 0)),
    .shutdown 7 1, .send 1 1 [1, 2], .advance 1 (.failed .ECONNRESET), .advance 7 (.wrote 0)]

/-- The output that the failed write has left waits, with write interest, in `kDisconnecting`. -/
theorem connections_refine_reset :
    ∃ s k, Machine.exec step (start 1 false) resetWhileSending = some s ∧
      s.server.conns 1 = some k ∧ k.conn.state = .kDisconnecting ∧
      k.conn.channel.isWriting = true ∧ 0 < k.conn.outputBuffer.readableBytes := by
  have hrun : (Machine.exec step (start 1 false) resetWhileSending).map
      (fun s => (s.server.conns 1).map fun k => (k.conn.state, k.conn.channel.isWriting)) =
        some (some (.kDisconnecting, true)) := by decide +kernel
  obtain ⟨s, hs, hconn⟩ := Option.map_eq_some_iff.mp hrun
  obtain ⟨k, hk, hpair⟩ := Option.map_eq_some_iff.mp hconn
  rw [Prod.mk.injEq] at hpair
  have hup : k.conn.state ≠ .kDisconnected := by
    rw [hpair.1]
    exact StateE.noConfusion
  have hok : Machine.Along step StoreOk (start 1 false) resetWhileSending := by decide +kernel
  obtain ⟨-, hmirror⟩ := connections_refine 1 false resetWhileSending hs hok hk
  exact ⟨s, k, hs, hk, hpair.1, hpair.2, (hmirror hup).mp hpair.2⟩

end SharedServer
end Webservers
