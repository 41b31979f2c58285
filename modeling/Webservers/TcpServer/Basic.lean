import Webservers.EventLoop.TaskQueue
import Webservers.TcpConnection.Basic

/-!
# `TcpServer` (src/TcpServer.h, src/TcpServer.cc, src/EventLoopThreadPool.cc)

A server with its base loop and its io loops. Loop 0 is the base loop, the loops of the thread
pool are 1, 2, ... A loop is its task queue, and its thread has the loop's number; any other
number is a thread of the user. A connection is known by the value of `nextConnId_` that its
name ends in.

Every label of the machine is one step of one thread: a report of the poller is handled, a batch
is swapped out, one functor of it is run, or `send` or `shutdown` is called. What a function does
outside its connection are its `Effect`s; `perform` carries them out. `log` is history: which of
the functions that tear a connection down have run, and which functors were queued for it.

A `send` or `shutdown` of another thread than the connection's loads `state_`, stores it and queues
in one step here; `TcpServer.Interleaving` has these accesses apart. `send` binds the caller's
`data` by pointer, and a `sendInLoop` in a queue stands for one that finds the bytes unchanged;
`TcpConnection.CaptureTheorems` is about the ones that do not.
-/

namespace Webservers

/-- What the server and its connections pass to `runInLoop` and `queueInLoop`. -/
inductive Functor where
  | connectionEstablished (c : ℕ)
  | connnectionDestroyed (c : ℕ)
  | removeConnectionInLoop (c : ℕ)
  | sendInLoop (c : ℕ) (message : List UInt8)
  | shutdownInLoop (c : ℕ)
  | writeCompleteCallback (c : ℕ)
  | highWaterMarkCallback (c : ℕ) (len : ℕ)
deriving Repr, DecidableEq

/-- The connection bound to a functor. -/
def Functor.conn : Functor → ℕ
  | .connectionEstablished c | .connnectionDestroyed c | .removeConnectionInLoop c
  | .sendInLoop c _ | .shutdownInLoop c | .writeCompleteCallback c
  | .highWaterMarkCallback c _ => c

/-- An entry of the history. -/
inductive Did where
  | handleClose (c : ℕ)
  | closeCallback (c : ℕ)
  | connnectionDestroyed (c : ℕ)
  /-- a functor with this connection was queued -/
  | queued (c : ℕ)
deriving Repr, DecidableEq

/-- A connection and `loop_`. -/
structure ServerConn where
  loop : ℕ
  conn : TcpConnection
deriving Repr, DecidableEq

structure TcpServer where
  /-- the number of loops of `threadPool_` -/
  numThreads : ℕ
  /-- `next_` of the thread pool -/
  next : ℕ
  writeCompleteCallback : Bool
  nextConnId : ℕ
  /-- the objects that `newConnection` has created -/
  conns : ℕ → Option ServerConn
  /-- the keys of `connections_` -/
  connections : List ℕ
  loops : ℕ → TaskQueue Functor
  log : List Did

namespace TcpServer

/-- `loop_` -/
def baseLoop : ℕ := 0

/-- A server after `start()`. -/
def new (numThreads : ℕ) (writeComplete : Bool) : TcpServer where
  numThreads := numThreads
  next := 0
  writeCompleteCallback := writeComplete
  nextConnId := 1
  conns := fun _ => none
  connections := []
  loops := fun _ => .empty
  log := []

/-- `EventLoopThreadPool::getNextLoop` -/
def getNextLoop (s : TcpServer) : ℕ × TcpServer :=
  if s.numThreads = 0 then (baseLoop, s)
  else (s.next + 1, { s with next := if s.numThreads ≤ s.next + 1 then 0 else s.next + 1 })

/-- `queueInLoop(f)` of a loop -/
def queueInLoop (s : TcpServer) (loop : ℕ) (f : Functor) : TcpServer :=
  { s with
    loops := Function.update s.loops loop ((s.loops loop).emplace f)
    log := s.log ++ [.queued f.conn] }

/-- An entry of the history is made. -/
def did (s : TcpServer) (e : Did) : TcpServer := { s with log := s.log ++ [e] }

/-! ## Removing a connection -/

def removeConnectionInLoop (s : TcpServer) (c : ℕ) : TcpServer :=
  match s.conns c with
  | none => s
  | some k =>
    { s with connections := s.connections.erase c }.queueInLoop k.loop (.connnectionDestroyed c)

/-- `removeConnection(conn)` on thread `th`: `runInLoop` of the base loop. -/
def removeConnection (s : TcpServer) (th c : ℕ) : TcpServer :=
  if th = baseLoop then s.removeConnectionInLoop c
  else s.queueInLoop baseLoop (.removeConnectionInLoop c)

/-! ## The functions of a connection, run in the server -/

/-- One effect of a function of connection `c`, whose loop is `loop`, on thread `th`. The user's
callbacks do what the labels `send` and `shutdown` say. -/
def effect (th c loop : ℕ) (s : TcpServer) : Effect → TcpServer
  | .queueWriteComplete => s.queueInLoop loop (.writeCompleteCallback c)
  | .queueHighWaterMark len => s.queueInLoop loop (.highWaterMarkCallback c len)
  | .closeCallback => (s.did (.closeCallback c)).removeConnection th c
  | .write _ | .shutdownWrite | .connectionCallback | .messageCallback => s

def setConn (s : TcpServer) (c : ℕ) (k : ServerConn) : TcpServer :=
  { s with conns := Function.update s.conns c (some k) }

/-- A function of connection `c` has been run on thread `th`. -/
def perform (s : TcpServer) (th c : ℕ) (k : ServerConn) (p : TcpConnection × List Effect) :
    TcpServer :=
  p.2.foldl (effect th c k.loop) (s.setConn c { k with conn := p.1 })

/-- Run a functor on thread `th`; `w` is what the `write` of a `sendInLoop` finds. -/
def run (s : TcpServer) (th : ℕ) (w : WriteResult) (f : Functor) : TcpServer :=
  match s.conns f.conn with
  | none => s
  | some k =>
    match f with
    | .connectionEstablished c => s.perform th c k k.conn.connectionEstablished
    | .connnectionDestroyed c =>
      (s.did (.connnectionDestroyed c)).perform th c k k.conn.connnectionDestroyed
    | .removeConnectionInLoop c => s.removeConnectionInLoop c
    | .sendInLoop c message => s.perform th c k (k.conn.sendInLoop message w)
    | .shutdownInLoop c => s.perform th c k k.conn.shutdownInLoop
    | .writeCompleteCallback _ | .highWaterMarkCallback _ _ => s

/-- `newConnection(sockfd, peerAddr)`, on the thread of the base loop. The last two arguments
are what the user sets with `setHighWaterMarkCallback`. -/
def newConnection (s : TcpServer) (highWater : Bool) (highWaterMark : ℕ) : TcpServer :=
  let (ioLoop, s) := s.getNextLoop
  let c := s.nextConnId
  let k : ServerConn := ⟨ioLoop, .new s.writeCompleteCallback highWater highWaterMark⟩
  let s := { s.setConn c k with nextConnId := c + 1, connections := c :: s.connections }
  if ioLoop = baseLoop then s.perform baseLoop c k k.conn.connectionEstablished
  else s.queueInLoop ioLoop (.connectionEstablished c)

/-- The channel of `c` is reported with `revents` and handled on its loop's thread. -/
def handleEvent (s : TcpServer) (c : ℕ) (k : ServerConn) (revents : Mask) (r : ReadvResult)
    (w : WriteResult) : TcpServer :=
  let p := k.conn.handleEvent revents r w
  -- `closeCallback_` is run by `handleClose` only
  let closes := List.replicate (p.2.count .closeCallback) (Did.handleClose c)
  { s with log := s.log ++ closes }.perform k.loop c k p

/-- `send(message)` on thread `th` -/
def send (s : TcpServer) (th c : ℕ) (k : ServerConn) (message : List UInt8) (w : WriteResult) :
    TcpServer :=
  if th = k.loop then s.perform th c k (k.conn.send message w)
  else if k.conn.state = .kConnected then s.queueInLoop k.loop (.sendInLoop c message)
  else s

/-- `shutdown()` on thread `th` -/
def shutdown (s : TcpServer) (th c : ℕ) (k : ServerConn) : TcpServer :=
  if th = k.loop then s.perform th c k k.conn.shutdown
  else if k.conn.state = .kConnected then
    (s.setConn c { k with conn := k.conn.setState .kDisconnecting }).queueInLoop k.loop
      (.shutdownInLoop c)
  else s

/-! ## The machine -/

inductive Label where
  | newConnection (highWater : Bool) (highWaterMark : ℕ)
  | handleEvent (c : ℕ) (revents : Mask) (r : ReadvResult) (w : WriteResult)
  /-- `doPendingFunctors` of a loop: the `swap` -/
  | swap (loop : ℕ)
  /-- the next functor of the batch -/
  | runFunctor (loop : ℕ) (w : WriteResult)
  | send (th c : ℕ) (message : List UInt8) (w : WriteResult)
  | shutdown (th c : ℕ)
deriving Repr, DecidableEq

/-- A loop handles events while it runs no batch, and only those of channels in its `epoll`
set. -/
def step (s : TcpServer) : Label → Option TcpServer
  | .newConnection highWater highWaterMark =>
    if (s.loops baseLoop).batch.isEmpty then some (s.newConnection highWater highWaterMark)
    else none
  | .handleEvent c revents r w =>
    match s.conns c with
    | none => none
    | some k =>
      if (s.loops k.loop).batch.isEmpty ∧ k.conn.channel.index = .kAdded then
        some (s.handleEvent c k revents r w)
      else none
  | .swap loop =>
    (s.loops loop).swap.map fun q => { s with loops := Function.update s.loops loop q }
  | .runFunctor loop w =>
    (s.loops loop).next.map fun (f, q) =>
      { s with loops := Function.update s.loops loop q }.run loop w f
  | .send th c message w => (s.conns c).map fun k => s.send th c k message w
  | .shutdown th c => (s.conns c).map fun k => s.shutdown th c k

end TcpServer
end Webservers
