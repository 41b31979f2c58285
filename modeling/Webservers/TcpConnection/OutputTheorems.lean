import Webservers.Buffer.Theorems
import Webservers.Lib.Machine
import Webservers.TcpConnection.Basic

/-!
# What a connection does with the bytes it accepts

A run of `send`, `sendInLoop`, `handleWrite`, `shutdown` and `handleClose` on the loop thread,
with any answers of the kernel to the writes other than the two fatal ones. The stream is
intact when the bytes handed to the socket, followed by the readable bytes of `outputBuffer_`,
are the messages accepted so far.

`sendInLoop` keeps what a direct write left over only under `faultError`, and `faultError` is
raised only by a fatal error. So without one the output buffer stays empty (`Quiet`), and the
stream is intact exactly as long as every direct write takes its whole message.
-/

namespace Webservers
namespace TcpConnection

/-! ## Runs -/

/-- The bytes handed to the socket. -/
def sentBy (effects : List Effect) : List UInt8 :=
  effects.flatMap fun
    | .write bytes => bytes
    | _ => []

structure OutputState where
  conn : TcpConnection
  sent : List UInt8
  accepted : List UInt8
deriving Repr, DecidableEq

inductive OutputOp where
  | send (message : List UInt8) (r : WriteResult)
  | sendInLoop (message : List UInt8) (r : WriteResult)
  | handleWrite (r : WriteResult)
  | shutdown
  | handleClose
deriving Repr, DecidableEq

/-- A connection as `newConnection` and `connectionEstablished` leave it. -/
def established (writeComplete highWater : Bool) (highWaterMark : ℕ) : OutputState where
  conn := (new writeComplete highWater highWaterMark).connectionEstablished.1
  sent := []
  accepted := []

/-- The function called, with its effects. -/
def OutputOp.call (c : TcpConnection) : OutputOp → TcpConnection × List Effect
  | .send message r => c.send message r
  | .sendInLoop message r => c.sendInLoop message r
  | .handleWrite r => c.handleWrite r
  | .shutdown => c.shutdown
  | .handleClose => c.handleClose

/-- The message the call accepts for sending: `send` in `kConnected`, `sendInLoop` in any state
but `kDisconnected`. -/
def OutputOp.accepts (c : TcpConnection) : OutputOp → List UInt8
  | .send message _ => if c.state = .kConnected then message else []
  | .sendInLoop message _ => if c.state = .kDisconnected then [] else message
  | _ => []

/-- The bytes the call may pass to `write`. -/
def OutputOp.offers (c : TcpConnection) : OutputOp → List UInt8
  | .send message _ => message
  | .sendInLoop message _ => message
  | .handleWrite _ => c.outputBuffer.content
  | .shutdown | .handleClose => []

/-- The kernel's answer to that `write`. -/
def OutputOp.answer : OutputOp → WriteResult
  | .send _ r | .sendInLoop _ r | .handleWrite r => r
  | .shutdown | .handleClose => .wrote 0

/-- Not one of the two errors `sendInLoop` treats as fatal. -/
def NotFatal : WriteResult → Prop
  | .failed .EPIPE => False
  | .failed .ECONNRESET => False
  | _ => True

instance : DecidablePred NotFatal
  | .failed .EPIPE => inferInstanceAs (Decidable False)
  | .failed .ECONNRESET => inferInstanceAs (Decidable False)
  | .failed .EWOULDBLOCK | .failed .EINTR | .failed (.other _) | .wrote _ =>
    inferInstanceAs (Decidable True)

/-- The kernel takes at most what it was offered and reports no fatal error. -/
def OutputOp.Answered (c : TcpConnection) (op : OutputOp) : Prop :=
  op.answer.Within (op.offers c).length ∧ NotFatal op.answer

instance (c : TcpConnection) (op : OutputOp) : Decidable (op.Answered c) :=
  inferInstanceAs (Decidable (_ ∧ _))

def outputStep (s : OutputState) (op : OutputOp) : Option OutputState :=
  if op.Answered s.conn then
    some
      { conn := (op.call s.conn).1
        sent := s.sent ++ sentBy (op.call s.conn).2
        accepted := s.accepted ++ op.accepts s.conn }
  else none

/-- Nothing dropped, duplicated, reordered or added, as long as the connection is not
disconnected. -/
def StreamIntact (s : OutputState) : Prop :=
  s.conn.state ≠ .kDisconnected → s.sent ++ s.conn.outputBuffer.content = s.accepted

/-- The kernel takes the whole message that the call accepts. -/
def TakenWhole (s : OutputState) (op : OutputOp) : Prop :=
  op.answer.taken (op.accepts s.conn) = op.accepts s.conn

/-! ## The output buffer stays empty -/

/-- No pending output and no interest in writing. -/
structure Quiet (c : TcpConnection) : Prop where
  notWriting : c.channel.isWriting = false
  empty : c.outputBuffer.readableBytes = 0

theorem Quiet.content {c : TcpConnection} (h : Quiet c) : c.outputBuffer.content = [] := by
  rw [Buffer.content, h.empty, Buffer.peek, List.take_zero]

theorem directWrite_notFatal (c : TcpConnection) (message : List UInt8) {r : WriteResult}
    (hr : NotFatal r) : (c.directWrite message r).faultError = false := by
  match r, hr with
  | .wrote _, _ | .failed .EWOULDBLOCK, _ | .failed .EINTR, _ | .failed (.other _), _ =>
    simp [directWrite]

theorem sentBy_directWrite (c : TcpConnection) (message : List UInt8) (r : WriteResult) :
    sentBy (c.directWrite message r).effects = r.taken message := by
  cases r with
  | failed e => rfl
  | wrote n =>
    simp only [directWrite, WriteResult.taken]
    split <;> simp [sentBy]

/-- On a quiet connection `sendInLoop` is its direct write: the rest of the message is
forgotten. -/
theorem sendInLoop_quiet_eq {c : TcpConnection} (hc : Quiet c) (hs : c.state ≠ .kDisconnected)
    (message : List UInt8) (r : WriteResult) (hr : NotFatal r) :
    c.sendInLoop message r = (c, (c.directWrite message r).effects) := by
  have hdirect : ¬ c.channel.isWriting = true ∧ c.outputBuffer.readableBytes = 0 :=
    ⟨by simp [hc.notWriting], hc.empty⟩
  -- the branch that would keep the rest of the message
  have hfault : ¬ ((c.directWrite message r).faultError = true ∧
      0 < (c.directWrite message r).remaining) := by
    simp [directWrite_notFatal c message hr]
  unfold sendInLoop
  rw [if_neg hs]
  simp only [if_pos hdirect, if_neg hfault]

/-- It hands over what the kernel takes. -/
theorem sendInLoop_quiet {c : TcpConnection} (hc : Quiet c) (hs : c.state ≠ .kDisconnected)
    (message : List UInt8) (r : WriteResult) (hr : NotFatal r) :
    (c.sendInLoop message r).1 = c ∧ sentBy (c.sendInLoop message r).2 = r.taken message := by
  rw [sendInLoop_quiet_eq hc hs message r hr]
  exact ⟨rfl, sentBy_directWrite c message r⟩

theorem disableAll_isWriting (ch : Channel) : ch.disableAll.isWriting = false := by
  simp only [Channel.isWriting, Channel.disableAll, Channel.update_events]
  decide

@[simp] theorem taken_nil (r : WriteResult) : r.taken [] = [] := by
  cases r <;> simp [WriteResult.taken]

/-- One call on a quiet connection: it stays quiet, and what it hands over is what the kernel
took of the message it accepted. -/
theorem call_quiet {c : TcpConnection} (hc : Quiet c) {op : OutputOp} (ha : op.Answered c) :
    Quiet (op.call c).1 ∧ sentBy (op.call c).2 = op.answer.taken (op.accepts c) := by
  cases op with
  | send message r =>
    simp only [OutputOp.call, OutputOp.accepts, send]
    split
    case isTrue hs =>
      obtain ⟨hsame, hsent⟩ := sendInLoop_quiet hc (by simp [hs]) message r ha.2
      exact ⟨by rw [hsame]; exact hc, hsent⟩
    case isFalse => exact ⟨hc, (taken_nil _).symm⟩
  | sendInLoop message r =>
    simp only [OutputOp.call, OutputOp.accepts]
    split
    case isTrue hs =>
      rw [sendInLoop_disconnected hs]
      exact ⟨hc, (taken_nil _).symm⟩
    case isFalse hs =>
      obtain ⟨hsame, hsent⟩ := sendInLoop_quiet hc hs message r ha.2
      exact ⟨by rw [hsame]; exact hc, hsent⟩
  | handleWrite r =>
    simp only [OutputOp.call, OutputOp.accepts, handleWrite_notWriting hc.notWriting]
    exact ⟨hc, (taken_nil _).symm⟩
  | shutdown =>
    simp only [OutputOp.call, OutputOp.accepts, shutdown, shutdownInLoop, setState]
    split
    · refine ⟨⟨hc.notWriting, hc.empty⟩, ?_⟩
      simp only [hc.notWriting]
      rfl
    · exact ⟨hc, (taken_nil _).symm⟩
  | handleClose =>
    exact ⟨⟨disableAll_isWriting _, hc.empty⟩, (taken_nil _).symm⟩

/-- A call that accepts a message does not disconnect. -/
theorem call_state {c : TcpConnection} (hc : Quiet c) {op : OutputOp} (ha : op.Answered c)
    (hne : op.accepts c ≠ []) : (op.call c).1.state ≠ .kDisconnected := by
  cases op with
  | send message r =>
    simp only [OutputOp.accepts, ne_eq, ite_eq_right_iff, Classical.not_imp] at hne
    have hs : c.state ≠ .kDisconnected := by simp [hne.1]
    simp only [OutputOp.call, send, if_pos hne.1]
    rw [(sendInLoop_quiet hc hs message r ha.2).1]
    exact hs
  | sendInLoop message r =>
    simp only [OutputOp.accepts, ne_eq, ite_eq_left_iff, Classical.not_imp] at hne
    simp only [OutputOp.call]
    rw [(sendInLoop_quiet hc hne.1 message r ha.2).1]
    exact hne.1
  | handleWrite r => exact absurd rfl hne
  | shutdown => exact absurd rfl hne
  | handleClose => exact absurd rfl hne

/-! ## The stream over a run -/

theorem outputStep_eq_some {s t : OutputState} {op : OutputOp} (h : outputStep s op = some t) :
    op.Answered s.conn ∧
      t = { conn := (op.call s.conn).1
            sent := s.sent ++ sentBy (op.call s.conn).2
            accepted := s.accepted ++ op.accepts s.conn } := by
  unfold outputStep at h
  split at h
  · rename_i ha
    exact ⟨ha, (Option.some.inj h).symm⟩
  · cases h

theorem established_quiet (writeComplete highWater : Bool) (highWaterMark : ℕ) :
    Quiet (established writeComplete highWater highWaterMark).conn where
  notWriting := by
    simp only [established, connectionEstablished, setState, new, Channel.new,
      Channel.isWriting, Channel.enableReading, Channel.update_events]
    decide
  empty := rfl

/-- Without a fatal error the output stream of an established connection is intact in every
state of a run exactly when each direct write of the run takes its whole message. -/
theorem stream_intact_iff_taken_whole (writeComplete highWater : Bool) (highWaterMark : ℕ)
    (ops : List OutputOp) :
    Machine.Always outputStep StreamIntact
        (established writeComplete highWater highWaterMark) ops ↔
      Machine.Along outputStep TakenWhole
        (established writeComplete highWater highWaterMark) ops := by
  apply Machine.always_iff_along (K := fun s => Quiet s.conn ∧ s.sent = s.accepted)
  · rintro s ⟨hq, hs⟩ -
    rw [hq.content, List.append_nil, hs]
  · rintro s op t ⟨hq, hs⟩ hstep hwhole
    obtain ⟨ha, rfl⟩ := outputStep_eq_some hstep
    obtain ⟨hq', hsent⟩ := call_quiet hq ha
    refine ⟨hq', ?_⟩
    simp only [hsent, hs]
    rw [hwhole]
  · rintro s op t ⟨hq, hs⟩ hstep hintact
    obtain ⟨ha, rfl⟩ := outputStep_eq_some hstep
    obtain ⟨hq', hsent⟩ := call_quiet hq ha
    -- a call that accepts nothing has nothing to lose
    by_cases hne : op.accepts s.conn = []
    · simp only [TakenWhole, hne, taken_nil]
    · have h := hintact (call_state hq ha hne)
      simp only [hq'.content, List.append_nil, hsent, hs, List.append_cancel_left_eq] at h
      exact h
  · exact ⟨established_quiet writeComplete highWater highWaterMark, rfl⟩

/-- Three bytes are sent, the kernel takes one: the other two are neither on the socket nor in
`outputBuffer_`. -/
theorem short_write_drops_bytes :
    ¬ Machine.Always outputStep StreamIntact (established true true defaultHighWaterMark)
      [.send [1, 2, 3] (.wrote 1)] := by
  intro h
  have hstep : outputStep (established true true defaultHighWaterMark) (.send [1, 2, 3] (.wrote 1))
      = some
        { conn := (established true true defaultHighWaterMark).conn
          sent := [1]
          accepted := [1, 2, 3] } := by
    decide +kernel
  have hlast := h.2 _ hstep
  exact absurd (hlast (by decide +kernel)) (by decide +kernel)

end TcpConnection
end Webservers
