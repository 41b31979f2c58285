import Webservers.Buffer.Basic
import Webservers.Channel

/-!
# `TcpConnection` (src/TcpConnection.h, src/TcpConnection.cc)

The members that the loop-thread functions read and write, and those functions one by one. A
function takes the results of the system calls it makes and returns the connection together
with what it did to the outside, in order, as a list of `Effect`s: bytes handed to the socket,
functors queued on the connection's own loop, callbacks run. Which loop and which thread these
land on is the business of `TcpServer`.
-/

namespace Webservers

/-- `TcpConnection::StateE`. -/
inductive StateE where
  | kDisconnected
  | kConnecting
  | kConnected
  | kDisconnecting
deriving Repr, DecidableEq

/-- The enumerators' values, for the places where a state is used as a condition. -/
def StateE.toInt : StateE → ℤ
  | .kDisconnected => 0
  | .kConnecting => 1
  | .kConnected => 2
  | .kDisconnecting => 3

/-- What a function of a connection does outside the connection. -/
inductive Effect where
  /-- bytes taken by a `write` on the socket -/
  | write (bytes : List UInt8)
  /-- `socket_->shutdownWrite()` -/
  | shutdownWrite
  /-- `loop_->queueInLoop(writeCompleteCallback_)` -/
  | queueWriteComplete
  /-- `loop_->queueInLoop(highWaterMarkCallback_)` with its argument -/
  | queueHighWaterMark (len : ℕ)
  | connectionCallback
  | messageCallback
  | closeCallback
deriving Repr, DecidableEq

/-- The two optional callbacks are flags: whether they are set is all that is tested. -/
structure TcpConnection where
  state : StateE
  channel : Channel
  inputBuffer : Buffer
  outputBuffer : Buffer
  writeCompleteCallback : Bool
  highWaterMarkCallback : Bool
  highWaterMark : ℕ
deriving Repr, DecidableEq

namespace TcpConnection

/-- The constructor, with the callbacks `newConnection` and the user set on it. -/
def new (writeComplete highWater : Bool) (highWaterMark : ℕ) : TcpConnection where
  state := .kConnecting
  channel := Channel.new
  inputBuffer := Buffer.new Buffer.kInitialSize
  outputBuffer := Buffer.new Buffer.kInitialSize
  writeCompleteCallback := writeComplete
  highWaterMarkCallback := highWater
  highWaterMark := highWaterMark

/-- The default `highWaterMark_`, 64M. -/
def defaultHighWaterMark : ℕ := 64 * 1024 * 1024

def setState (c : TcpConnection) (s : StateE) : TcpConnection := { c with state := s }

/-! ## Sending -/

/-- The local variables of `sendInLoop` after the direct write. -/
structure Direct where
  nwrote : ℕ
  remaining : ℕ
  faultError : Bool
  effects : List Effect

/-- The direct write of `sendInLoop`. The unsigned `remaining` is computed from `nwrote` before
the sign of `nwrote` is tested, so a failed write leaves `len + 1` in it. -/
def directWrite (c : TcpConnection) (message : List UInt8) : WriteResult → Direct
  | .wrote n =>
    let remaining := message.length - n
    { nwrote := n
      remaining := remaining
      faultError := false
      effects := .write (message.take n) ::
        if remaining = 0 ∧ c.writeCompleteCallback then [.queueWriteComplete] else [] }
  | .failed e =>
    { nwrote := 0
      remaining := (message.length + 1) % 2 ^ 64
      faultError := e = .EPIPE ∨ e = .ECONNRESET
      effects := [] }

/-- `sendInLoop`. The bytes at `message` are those of a `std::string`, hence followed by a
NUL. -/
def sendInLoop (c : TcpConnection) (message : List UInt8) (r : WriteResult) :
    TcpConnection × List Effect :=
  if c.state = .kDisconnected then (c, [])
  else
    let d : Direct :=
      if ¬ c.channel.isWriting ∧ c.outputBuffer.readableBytes = 0 then c.directWrite message r
      else { nwrote := 0, remaining := message.length, faultError := false, effects := [] }
    let oldLen := c.outputBuffer.readableBytes
    let newLen := (oldLen + d.remaining) % 2 ^ 64
    if d.faultError ∧ 0 < d.remaining then
      if c.highWaterMark ≤ newLen ∧ oldLen < c.highWaterMark ∧ c.highWaterMarkCallback then
        let effects := d.effects ++ [.queueHighWaterMark newLen]
        match c.outputBuffer.append (((message ++ [0]).drop d.nwrote).take d.remaining) with
        | none => (c, effects)
        | some b =>
          ({ c with
              outputBuffer := b
              channel := if c.channel.isWriting then c.channel else c.channel.enableWriting },
            effects)
      else (c, d.effects)
    else (c, d.effects)

theorem sendInLoop_disconnected {c : TcpConnection} (h : c.state = .kDisconnected)
    (message : List UInt8) (r : WriteResult) : c.sendInLoop message r = (c, []) := by
  rw [sendInLoop, if_pos h]

/-- `send` called on the connection's loop thread. -/
def send (c : TcpConnection) (message : List UInt8) (r : WriteResult) :
    TcpConnection × List Effect :=
  if c.state = .kConnected then c.sendInLoop message r else (c, [])

def shutdownInLoop (c : TcpConnection) : TcpConnection × List Effect :=
  (c, if c.channel.isWriting then [] else [.shutdownWrite])

/-- `shutdown` called on the connection's loop thread. -/
def shutdown (c : TcpConnection) : TcpConnection × List Effect :=
  if c.state = .kConnected then (c.setState .kDisconnecting).shutdownInLoop else (c, [])

/-! ## Channel callbacks -/

def handleWrite (c : TcpConnection) (r : WriteResult) : TcpConnection × List Effect :=
  if c.channel.isWriting then
    match r with
    | .failed _ => (c, [])
    | .wrote n =>
      let wrote := [.write (c.outputBuffer.peek n)]
      if 0 < n then
        let c := { c with outputBuffer := c.outputBuffer.retrieve n }
        if c.outputBuffer.readableBytes = 0 then
          let c := { c with channel := c.channel.disableWriting }
          let complete := if c.writeCompleteCallback then [.queueWriteComplete] else []
          let (c, down) := if c.state = .kDisconnecting then c.shutdownInLoop else (c, [])
          (c, wrote ++ complete ++ down)
        else (c, wrote)
      else (c, wrote)
  else (c, [])

theorem handleWrite_notWriting {c : TcpConnection} (h : c.channel.isWriting = false)
    (r : WriteResult) : c.handleWrite r = (c, []) := by
  unfold handleWrite
  rw [h]
  rfl

def handleClose (c : TcpConnection) : TcpConnection × List Effect :=
  let c := c.setState .kDisconnected
  ({ c with channel := c.channel.disableAll }, [.connectionCallback, .closeCallback])

def handleRead (c : TcpConnection) (r : ReadvResult) : TcpConnection × List Effect :=
  let (b, res) := c.inputBuffer.readFd r
  let c := { c with inputBuffer := b }
  match res with
  | .count 0 => c.handleClose
  | .count _ => (c, [.messageCallback])
  | _ => (c, [])

/-- `handleError` reads `SO_ERROR` and logs it. -/
def handleError (c : TcpConnection) : TcpConnection × List Effect := (c, [])

/-- Run a second function after a first one, keeping both lists of effects. -/
def andThen (p : TcpConnection × List Effect) (f : TcpConnection → TcpConnection × List Effect) :
    TcpConnection × List Effect :=
  ((f p.1).1, p.2 ++ (f p.1).2)

/-- `Channel::handleEventWithGuand` with the callbacks the constructor installs: one report of
the poller can run several of them in turn. -/
def handleEvent (c : TcpConnection) (revents : Mask) (r : ReadvResult) (w : WriteResult) :
    TcpConnection × List Effect :=
  let p : TcpConnection × List Effect :=
    if revents &&& EPOLLHUP ≠ 0 ∧ revents &&& EPOLLIN = 0 then c.handleClose else (c, [])
  let p := if revents &&& EPOLLERR ≠ 0 then andThen p handleError else p
  let p := if revents &&& (EPOLLIN ||| EPOLLPRI) ≠ 0 then andThen p (handleRead · r) else p
  if revents &&& EPOLLOUT ≠ 0 then andThen p (handleWrite · w) else p

/-! ## Setting up and tearing down -/

def connectionEstablished (c : TcpConnection) : TcpConnection × List Effect :=
  let c := c.setState .kConnected
  ({ c with channel := c.channel.enableReading }, [.connectionCallback])

/-- `connnectionDestroyed`. The condition of its `if` is the assignment `state_ = kConnected`,
whose value is the enumerator's. -/
def connnectionDestroyed (c : TcpConnection) : TcpConnection × List Effect :=
  let c := c.setState .kConnected
  let p : TcpConnection × List Effect :=
    if StateE.kConnected.toInt ≠ 0 then
      let c := c.setState .kDisconnected
      ({ c with channel := c.channel.disableAll }, [.closeCallback])
    else (c, [])
  ({ p.1 with channel := p.1.channel.remove }, p.2)

end TcpConnection
end Webservers
