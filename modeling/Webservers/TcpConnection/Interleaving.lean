import Webservers.EventLoop.TaskQueue
import Webservers.TcpConnection.CallbackTheorems

/-!
# One connection, many threads

`send` and `shutdown` may be called on any thread. `state_` is the only member of the connection
that such a caller touches: it loads it, perhaps stores `kDisconnecting`, and leaves the rest to a
functor on the connection's loop. Everything else is done by the loop thread.

A step here makes at most one access of `state_`. Between two accesses the loop thread works on
members that nobody else sees, so the functions of `TcpConnection.Basic` with a single access are
one step each. `send`, `shutdown` and `connnectionDestroyed` make two accesses and are split
between them.

`trace`, `halfCloses` and the numbers of the messages are no members of the source: they record
what has been done, for the theorems to speak about.
-/

namespace Webservers
namespace TcpConnection

/-- What callers leave in `pendingFunctors_`. A message is known by its number; the functor holds
the address and the length of the caller's string. -/
inductive Task where
  | sendInLoop (id len : ℕ)
  /-- `scope`: the messages whose `send` had returned when this `shutdown` began -/
  | shutdownInLoop (scope : List ℕ)
deriving Repr, DecidableEq

/-- Where a thread other than the loop's stands in `send` or `shutdown`. A call that does not find
`kConnected` returns at once. -/
inductive CallerPc where
  | idle
  | sendLoaded (len : ℕ)
  | sendQueued (id : ℕ)
  | shutdownLoaded (scope : List ℕ)
  | shutdownStored (scope : List ℕ)
  | shutdownQueued
deriving Repr, DecidableEq

/-- Where the loop thread stands between two accesses of `state_` in one function. -/
inductive OwnPc where
  | idle
  | sendCalled (message : List UInt8)
  | shutdownCalled (scope : List ℕ)
  /-- `connnectionDestroyed` has stored `kConnected` -/
  | destroying
deriving Repr, DecidableEq

/-- What is seen of a connection from outside, in order. -/
inductive Access where
  | store (state : StateE)
  /-- `::write` on the socket, whatever it returns -/
  | write
  /-- `channel_` gains an event it was not interested in -/
  | enable
deriving Repr, DecidableEq

/-- A call of `shutdownWrite()`: the messages it should have waited for that are still queued, and
the bytes in `outputBuffer_`. -/
structure HalfClose where
  waiting : List ℕ
  output : ℕ
deriving Repr, DecidableEq

structure SharedConn (τ : Type*) where
  conn : TcpConnection
  queue : TaskQueue Task
  pc : OwnPc
  calls : τ → CallerPc
  /-- the number of the next message -/
  nextId : ℕ
  /-- the queued messages whose `send` has returned -/
  returned : List ℕ
  /-- the scopes of the `shutdown` calls that stored `kDisconnecting` -/
  storedScope : List ℕ
  /-- the connection was closed or destroyed with bytes in `outputBuffer_` -/
  abandoned : Bool
  trace : List Access
  halfCloses : List HalfClose

/-- What the loop thread begins, with what the kernel answers. -/
inductive OwnStep where
  | connectionEstablished
  | handleRead (r : ReadvResult)
  | handleWrite (r : WriteResult)
  | handleClose
  | connnectionDestroyed
  | send (message : List UInt8)
  | shutdown
  /-- `doPendingFunctors` takes the batch -/
  | swap
  /-- the next functor of the batch; `found` is what stands where the sender's string was -/
  | runFunctor (found : List UInt8) (r : WriteResult)
deriving Repr, DecidableEq

inductive ThreadStep (τ : Type*) where
  | send (th : τ) (len : ℕ)
  | shutdown (th : τ)
  /-- the next step of the call the thread is in -/
  | advance (th : τ)
  | own (a : OwnStep)
  /-- the rest of the function the loop thread is in -/
  | proceed (r : WriteResult)
deriving Repr, DecidableEq

namespace SharedConn

variable {τ : Type*} [DecidableEq τ]

/-- A connection that nobody has used yet. -/
def start (conn : TcpConnection) : SharedConn τ where
  conn := conn
  queue := .empty
  pc := .idle
  calls := fun _ => .idle
  nextId := 0
  returned := []
  storedScope := []
  abandoned := false
  trace := [.store conn.state]
  halfCloses := []

def setCall (s : SharedConn τ) (th : τ) (pc : CallerPc) : SharedConn τ :=
  { s with calls := Function.update s.calls th pc }

/-! ## Callers -/

def advance (s : SharedConn τ) (th : τ) : Option (SharedConn τ) :=
  match s.calls th with
  | .idle => none
  | .sendLoaded len =>
    some { s.setCall th (.sendQueued s.nextId) with
      queue := s.queue.emplace (.sendInLoop s.nextId len)
      nextId := s.nextId + 1 }
  | .sendQueued id => some { s.setCall th .idle with returned := id :: s.returned }
  | .shutdownLoaded scope =>
    some { s.setCall th (.shutdownStored scope) with
      conn := s.conn.setState .kDisconnecting
      storedScope := scope ++ s.storedScope
      trace := s.trace ++ [.store .kDisconnecting] }
  | .shutdownStored scope =>
    some { s.setCall th .shutdownQueued with queue := s.queue.emplace (.shutdownInLoop scope) }
  | .shutdownQueued => some (s.setCall th .idle)

/-! ## The loop thread -/

/-- The messages of `scope` whose `sendInLoop` is still to be run. -/
def waiting (q : TaskQueue Task) (scope : List ℕ) : List ℕ :=
  q.all.filterMap fun
    | .sendInLoop id _ => if id ∈ scope then some id else none
    | .shutdownInLoop _ => none

/-- `sendInLoop` gets as far as its `::write`. -/
def writesDirectly (c : TcpConnection) : Bool :=
  c.state ≠ .kDisconnected ∧ ¬ c.channel.isWriting ∧ c.outputBuffer.readableBytes = 0

/-- The interest that `ch'` has and `ch` has not. -/
def gained (ch ch' : Channel) : Bool := ch'.events &&& ~~~ch.events != 0

/-- What a function that turns the channel `ch` into `ch'` adds to the trace, its stores apart. -/
def touched (writes : Bool) (ch ch' : Channel) : List Access :=
  (if writes then [.write] else []) ++ if gained ch ch' then [.enable] else []

/-- The end of a function of the loop thread that has made `p.1` of the connection: it stored
`stored`, perhaps wrote, and did the rest of `p.2`. Its `shutdownWrite()`, if any, answers for
`scope`. -/
def act (s : SharedConn τ) (stored : List StateE) (writes : Bool) (scope : List ℕ)
    (p : TcpConnection × List Effect) : SharedConn τ :=
  { s with
    conn := p.1
    pc := .idle
    trace := s.trace ++ (stored.map .store ++ touched writes s.conn.channel p.1.channel)
    halfCloses := s.halfCloses ++
      if .shutdownWrite ∈ p.2 then [⟨waiting s.queue scope, p.1.outputBuffer.readableBytes⟩]
      else [] }

/-- `act` for the functions that store `kDisconnected` and drop the interest. -/
def close (s : SharedConn τ) (p : TcpConnection × List Effect) : SharedConn τ :=
  { s.act [.kDisconnected] false [] p with
    abandoned := s.abandoned || decide (0 < s.conn.outputBuffer.readableBytes) }

def runTask (s : SharedConn τ) (found : List UInt8) (r : WriteResult) :
    Task → Option (SharedConn τ)
  | .sendInLoop _ len =>
    if found.length = len then
      some (s.act [] (writesDirectly s.conn) [] (s.conn.sendInLoop found r))
    else none
  | .shutdownInLoop scope => some (s.act [] false scope s.conn.shutdownInLoop)

/-- The rest of a function after its first access of `state_`. -/
def proceed (s : SharedConn τ) (r : WriteResult) : Option (SharedConn τ) :=
  match s.pc with
  | .idle => none
  | .sendCalled message =>
    some (s.act [] (writesDirectly s.conn) [] (s.conn.sendInLoop message r))
  | .shutdownCalled scope =>
    some { s.act [.kDisconnecting] false scope (s.conn.setState .kDisconnecting).shutdownInLoop with
      storedScope := scope ++ s.storedScope }
  | .destroying => some (s.close s.conn.connnectionDestroyed)

/-- A function of the loop thread up to its second access of `state_`. -/
def ownCall (s : SharedConn τ) : OwnStep → Option (SharedConn τ)
  | .connectionEstablished => some (s.act [.kConnected] false [] s.conn.connectionEstablished)
  | .handleRead r =>
    if (s.conn.inputBuffer.readFd r).2 = .count 0 then some (s.close (s.conn.handleRead r))
    else some (s.act [] false [] (s.conn.handleRead r))
  | .handleWrite r =>
    some (s.act [] s.conn.channel.isWriting s.storedScope (s.conn.handleWrite r))
  | .handleClose => some (s.close s.conn.handleClose)
  | .connnectionDestroyed =>
    some { s with
      conn := s.conn.setState .kConnected
      trace := s.trace ++ [.store .kConnected]
      pc := .destroying }
  | .send message =>
    some (if s.conn.state = .kConnected then { s with pc := .sendCalled message } else s)
  | .shutdown =>
    some (if s.conn.state = .kConnected then { s with pc := .shutdownCalled s.returned } else s)
  | .swap => s.queue.swap.map fun q => { s with queue := q }
  | .runFunctor found r =>
    s.queue.next.bind fun fq => runTask { s with queue := fq.2 } found r fq.1

/-- `connectionEstablished` is the first functor of a connection and is run once. -/
def ownStep (s : SharedConn τ) (a : OwnStep) : Option (SharedConn τ) :=
  if s.pc = .idle ∧ (a = .connectionEstablished ↔ s.conn.state = .kConnecting) then s.ownCall a
  else none

/-- A step of any thread. A call begins with its load of `state_`. -/
def step (s : SharedConn τ) : ThreadStep τ → Option (SharedConn τ)
  | .send th len =>
    if s.calls th = .idle then
      some (if s.conn.state = .kConnected then s.setCall th (.sendLoaded len) else s)
    else none
  | .shutdown th =>
    if s.calls th = .idle then
      some (if s.conn.state = .kConnected then s.setCall th (.shutdownLoaded s.returned) else s)
    else none
  | .advance th => s.advance th
  | .own a => s.ownStep a
  | .proceed r => s.proceed r

/-! ## What a step can do -/

/-- The functions after which nothing is waited for. -/
structure Closes (c : TcpConnection) (p : TcpConnection × List Effect) : Prop where
  state : p.1.state = .kDisconnected
  events : p.1.channel.events = Channel.kNoneEvent
  outputBuffer : p.1.outputBuffer = c.outputBuffer
  shutdownWrite : Effect.shutdownWrite ∉ p.2

/-- One constructor for each kind of step. The label is kept where a theorem asks for it. -/
inductive Trans (s : SharedConn τ) : ThreadStep τ → SharedConn τ → Prop
  /-- a load that does not find `kConnected` -/
  | refused {a : ThreadStep τ} : Trans s a s
  | sendLoad {a : ThreadStep τ} (th : τ) (len : ℕ) : Trans s a (s.setCall th (.sendLoaded len))
  | shutdownLoad {a : ThreadStep τ} (th : τ) :
      Trans s a (s.setCall th (.shutdownLoaded s.returned))
  | sendEmplace {a : ThreadStep τ} (th : τ) (len : ℕ) :
      Trans s a { s.setCall th (.sendQueued s.nextId) with
        queue := s.queue.emplace (.sendInLoop s.nextId len)
        nextId := s.nextId + 1 }
  | sendReturn {a : ThreadStep τ} {th : τ} {id : ℕ} (hcall : s.calls th = .sendQueued id) :
      Trans s a { s.setCall th .idle with returned := id :: s.returned }
  | shutdownStore {th : τ} {scope : List ℕ} (hcall : s.calls th = .shutdownLoaded scope) :
      Trans s (.advance th) { s.setCall th (.shutdownStored scope) with
        conn := s.conn.setState .kDisconnecting
        storedScope := scope ++ s.storedScope
        trace := s.trace ++ [.store .kDisconnecting] }
  | shutdownEmplace {a : ThreadStep τ} {th : τ} {scope : List ℕ}
      (hcall : s.calls th = .shutdownStored scope) :
      Trans s a { s.setCall th .shutdownQueued with
        queue := s.queue.emplace (.shutdownInLoop scope) }
  | shutdownReturn {a : ThreadStep τ} (th : τ) : Trans s a (s.setCall th .idle)
  | connectionEstablished {a : ThreadStep τ} (hpc : s.pc = .idle)
      (hstate : s.conn.state = .kConnecting) :
      Trans s a (s.act [.kConnected] false [] s.conn.connectionEstablished)
  /-- `handleRead` short of the end of the stream -/
  | handleRead {a : ThreadStep τ} (b : Buffer) {effects : List Effect} (hpc : s.pc = .idle)
      (hopen : Effect.shutdownWrite ∉ effects) :
      Trans s a (s.act [] false [] ({ s.conn with inputBuffer := b }, effects))
  | close {a : ThreadStep τ} {p : TcpConnection × List Effect} (hp : Closes s.conn p) :
      Trans s a (s.close p)
  | handleWrite (r : WriteResult) (hpc : s.pc = .idle) :
      Trans s (.own (.handleWrite r))
        (s.act [] s.conn.channel.isWriting s.storedScope (s.conn.handleWrite r))
  | destroy (hpc : s.pc = .idle) (hstate : s.conn.state ≠ .kConnecting) :
      Trans s (.own .connnectionDestroyed) { s with
        conn := s.conn.setState .kConnected
        trace := s.trace ++ [.store .kConnected]
        pc := .destroying }
  | sendCalled {a : ThreadStep τ} (message : List UInt8) (hpc : s.pc = .idle)
      (hstate : s.conn.state = .kConnected) :
      Trans s a { s with pc := .sendCalled message }
  | shutdownCalled {a : ThreadStep τ} (hpc : s.pc = .idle) (hstate : s.conn.state = .kConnected) :
      Trans s a { s with pc := .shutdownCalled s.returned }
  | swap {a : ThreadStep τ} {q : TaskQueue Task} (hq : q.all = s.queue.all) :
      Trans s a { s with queue := q }
  /-- from the queue, which then loses its first functor, or directly -/
  | sendInLoop {a : ThreadStep τ} {q : TaskQueue Task} (message : List UInt8) (r : WriteResult)
      (hpc : s.pc ≠ .destroying) (hq : q.all.Sublist s.queue.all) :
      Trans s a (act { s with queue := q } [] (writesDirectly s.conn) []
        (s.conn.sendInLoop message r))
  | shutdownInLoop {found : List UInt8} {r : WriteResult} {scope : List ℕ} {q : TaskQueue Task}
      (hpc : s.pc = .idle) (hq : s.queue.next = some (.shutdownInLoop scope, q)) :
      Trans s (.own (.runFunctor found r))
        (act { s with queue := q } [] false scope s.conn.shutdownInLoop)
  | shutdownProceeds {r : WriteResult} {scope : List ℕ} (hpc : s.pc = .shutdownCalled scope) :
      Trans s (.proceed r) { s.act [.kDisconnecting] false scope
          (s.conn.setState .kDisconnecting).shutdownInLoop with
        storedScope := scope ++ s.storedScope }

theorem closes_handleClose (c : TcpConnection) : Closes c c.handleClose where
  state := rfl
  events := Channel.update_events _
  outputBuffer := rfl
  shutdownWrite := by simp [TcpConnection.handleClose]

theorem closes_connnectionDestroyed (c : TcpConnection) : Closes c c.connnectionDestroyed where
  state := rfl
  events := (shut_connnectionDestroyed c).events
  outputBuffer := rfl
  shutdownWrite := by simp [TcpConnection.connnectionDestroyed, StateE.toInt]

theorem closes_handleRead {c : TcpConnection} {r : ReadvResult}
    (h : (c.inputBuffer.readFd r).2 = .count 0) : Closes c (c.handleRead r) := by
  unfold TcpConnection.handleRead
  simp only [h]
  exact ⟨rfl, Channel.update_events _, rfl, by simp [TcpConnection.handleClose]⟩

/-- Short of the end of the stream, `handleRead` changes `inputBuffer_` only. -/
theorem handleRead_open {c : TcpConnection} {r : ReadvResult}
    (h : (c.inputBuffer.readFd r).2 ≠ .count 0) :
    (c.handleRead r).1 = { c with inputBuffer := (c.inputBuffer.readFd r).1 } := by
  unfold TcpConnection.handleRead
  simp only
  split
  · rename_i hzero
    exact absurd hzero h
  · rfl
  · rfl

section

variable {s t : SharedConn τ}

theorem advance_trans {th : τ} (h : s.advance th = some t) : Trans s (.advance th) t := by
  unfold advance at h
  cases hcall : s.calls th with
  | idle =>
    rw [hcall] at h
    cases h
  | sendLoaded len =>
    rw [hcall] at h
    cases h
    exact .sendEmplace th len
  | sendQueued id =>
    rw [hcall] at h
    cases h
    exact .sendReturn hcall
  | shutdownLoaded scope =>
    rw [hcall] at h
    cases h
    exact .shutdownStore hcall
  | shutdownStored scope =>
    rw [hcall] at h
    cases h
    exact .shutdownEmplace hcall
  | shutdownQueued =>
    rw [hcall] at h
    cases h
    exact .shutdownReturn th

theorem proceed_trans {r : WriteResult} (h : s.proceed r = some t) :
    Trans s (.proceed r) t := by
  unfold proceed at h
  cases hpc : s.pc with
  | idle =>
    rw [hpc] at h
    cases h
  | sendCalled message =>
    rw [hpc] at h
    cases h
    exact .sendInLoop message r (by simp [hpc]) (List.Sublist.refl _)
  | shutdownCalled scope =>
    rw [hpc] at h
    cases h
    exact .shutdownProceeds hpc
  | destroying =>
    rw [hpc] at h
    cases h
    exact .close (closes_connnectionDestroyed s.conn)

theorem runFunctor_trans {found : List UInt8} {r : WriteResult} (hpc : s.pc = .idle)
    (h : s.ownCall (.runFunctor found r) = some t) :
    Trans s (.own (.runFunctor found r)) t := by
  obtain ⟨⟨f, q⟩, hq, hrun⟩ := Option.bind_eq_some_iff.mp h
  cases f with
  | sendInLoop id len =>
    simp only [runTask, Option.ite_none_right_eq_some, Option.some.injEq] at hrun
    obtain ⟨-, rfl⟩ := hrun
    refine .sendInLoop found r (by simp [hpc]) ?_
    rw [TaskQueue.all_next hq]
    exact List.sublist_cons_self _ _
  | shutdownInLoop scope =>
    cases hrun
    exact .shutdownInLoop hpc hq

theorem ownStep_trans {a : OwnStep} (h : s.ownStep a = some t) : Trans s (.own a) t := by
  simp only [ownStep, Option.ite_none_right_eq_some] at h
  obtain ⟨⟨hpc, hfirst⟩, h⟩ := h
  cases a with
  | connectionEstablished =>
    cases h
    exact .connectionEstablished hpc (hfirst.mp rfl)
  | handleRead r =>
    simp only [ownCall] at h
    split at h
    · rename_i hzero
      cases h
      exact .close (closes_handleRead hzero)
    · rename_i hne
      cases h
      have heq : s.conn.handleRead r =
          ({ s.conn with inputBuffer := (s.conn.inputBuffer.readFd r).1 },
            (s.conn.handleRead r).2) := Prod.ext (handleRead_open hne) rfl
      rw [heq]
      exact .handleRead _ hpc (shutdownWrite_handleRead s.conn r)
  | handleWrite r =>
    cases h
    exact .handleWrite r hpc
  | handleClose =>
    cases h
    exact .close (closes_handleClose s.conn)
  | connnectionDestroyed =>
    cases h
    exact .destroy hpc fun hconnecting => by cases hfirst.mpr hconnecting
  | send message =>
    cases h
    split
    · rename_i hconnected
      exact .sendCalled message hpc hconnected
    · exact .refused
  | shutdown =>
    cases h
    split
    · rename_i hconnected
      exact .shutdownCalled hpc hconnected
    · exact .refused
  | swap =>
    obtain ⟨q, hq, rfl⟩ := Option.map_eq_some_iff.mp h
    exact .swap (TaskQueue.all_swap hq)
  | runFunctor found r => exact runFunctor_trans hpc h

theorem step_trans {a : ThreadStep τ} (h : s.step a = some t) : Trans s a t := by
  cases a with
  | send th len =>
    simp only [step, Option.ite_none_right_eq_some, Option.some.injEq] at h
    obtain ⟨-, rfl⟩ := h
    split
    · exact .sendLoad th len
    · exact .refused
  | shutdown th =>
    simp only [step, Option.ite_none_right_eq_some, Option.some.injEq] at h
    obtain ⟨-, rfl⟩ := h
    split
    · exact .shutdownLoad th
    · exact .refused
  | advance th => exact advance_trans h
  | own a => exact ownStep_trans h
  | proceed r => exact proceed_trans h

end

end SharedConn
end TcpConnection
end Webservers
