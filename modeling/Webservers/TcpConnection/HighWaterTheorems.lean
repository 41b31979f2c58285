import Webservers.TcpConnection.OutputTheorems

/-!
# The high-water mark

`pending` counts the bytes that were accepted and not yet handed to the socket. The callback is
meant to be queued by the call that lifts `pending` to the mark, with the new count, and the
pending bytes are meant to wait in `outputBuffer_` with `EPOLLOUT` enabled.

The test of the mark, the `append` and `enableWriting` all stand behind `faultError`, so on the
runs of `OutputTheorems` none of them is reached: a connection without a fatal error stays
`Quiet`. The mark is right exactly as long as there is never anything pending.
-/

namespace Webservers
namespace TcpConnection

/-! ## What the mark promises -/

/-- The bytes accepted and not yet handed to the socket. -/
def OutputState.pending (s : OutputState) : ℕ := s.accepted.length - s.sent.length

/-- The state after a call, whatever the kernel answered. -/
def OutputState.after (s : OutputState) (op : OutputOp) : OutputState where
  conn := (op.call s.conn).1
  sent := s.sent ++ sentBy (op.call s.conn).2
  accepted := s.accepted ++ op.accepts s.conn

/-- The arguments with which `highWaterMarkCallback_` is queued. -/
def marks (effects : List Effect) : List ℕ :=
  effects.filterMap fun
    | .queueHighWaterMark len => some len
    | _ => none

/-- The call queues the callback, once and with the new count, if it lifts `pending` from below
the mark to the mark or beyond, and not otherwise; either way the pending bytes are those of
`outputBuffer_`, and as long as there are some the connection waits for `EPOLLOUT`. -/
structure MarksCrossing (s : OutputState) (op : OutputOp) : Prop where
  marks : marks (op.call s.conn).2 =
    if s.pending < s.conn.highWaterMark ∧ s.conn.highWaterMark ≤ (s.after op).pending
    then [(s.after op).pending] else []
  kept : (s.after op).accepted = (s.after op).sent ++ (s.after op).conn.outputBuffer.content
  interest : 0 < (s.after op).pending → (s.after op).conn.channel.isWriting = true

/-! ## One call on a quiet connection -/

theorem marks_directWrite (c : TcpConnection) (message : List UInt8) (r : WriteResult) :
    marks (c.directWrite message r).effects = [] := by
  cases r with
  | failed e => rfl
  | wrote n =>
    simp only [directWrite]
    split <;> rfl

theorem marks_quiet {c : TcpConnection} (hc : Quiet c) {op : OutputOp} (ha : op.Answered c) :
    marks (op.call c).2 = [] := by
  cases op with
  | send message r =>
    simp only [OutputOp.call, send]
    split
    · rename_i hs
      rw [sendInLoop_quiet_eq hc (by simp [hs]) message r ha.2]
      exact marks_directWrite c message r
    · rfl
  | sendInLoop message r =>
    simp only [OutputOp.call]
    by_cases hs : c.state = .kDisconnected
    · rw [sendInLoop_disconnected hs]
      rfl
    · rw [sendInLoop_quiet_eq hc hs message r ha.2]
      exact marks_directWrite c message r
  | handleWrite r =>
    simp only [OutputOp.call, handleWrite_notWriting hc.notWriting]
    rfl
  | shutdown =>
    simp only [OutputOp.call, shutdown, shutdownInLoop, setState]
    split
    · simp only [hc.notWriting]
      rfl
    · rfl
  | handleClose => rfl

/-- With nothing pending before it, a call does what the mark promises exactly when the kernel
takes the whole message. -/
theorem marksCrossing_iff {s : OutputState} (hq : Quiet s.conn) (hs : s.sent = s.accepted)
    {op : OutputOp} (ha : op.Answered s.conn) : MarksCrossing s op ↔ TakenWhole s op := by
  obtain ⟨hq', hsent⟩ := call_quiet hq ha
  have hcontent : (s.after op).conn.outputBuffer.content = [] := hq'.content
  have hafter : (s.after op).sent = s.accepted ++ op.answer.taken (op.accepts s.conn) := by
    rw [OutputState.after, hsent, hs]
  constructor
  · intro h
    have hkept := h.kept
    rw [hcontent, List.append_nil, hafter] at hkept
    exact (List.append_cancel_left hkept).symm
  · intro hwhole
    have hall : (s.after op).sent = (s.after op).accepted := by
      rw [hafter, hwhole, OutputState.after]
    have hpending : (s.after op).pending = 0 := by
      rw [OutputState.pending, hall, Nat.sub_self]
    refine ⟨?_, ?_, ?_⟩
    · rw [marks_quiet hq ha, hpending, if_neg (by omega)]
    · rw [hcontent, List.append_nil, hall]
    · intro hpos
      omega

/-! ## Runs -/

/-- Without a fatal error every call of a run keeps the promise of the high-water mark exactly when
each direct write of the run takes its whole message. -/
theorem high_water_iff_taken_whole (writeComplete : Bool) (highWaterMark : ℕ)
    (ops : List OutputOp) :
    Machine.Along outputStep MarksCrossing (established writeComplete true highWaterMark) ops ↔
      Machine.Along outputStep TakenWhole (established writeComplete true highWaterMark) ops := by
  apply Machine.along_iff_along (K := fun s => Quiet s.conn ∧ s.sent = s.accepted)
  · rintro s op t ⟨hq, hs⟩ hstep
    exact marksCrossing_iff hq hs (outputStep_eq_some hstep).1
  · rintro s op t ⟨hq, hs⟩ hstep hwhole
    obtain ⟨ha, rfl⟩ := outputStep_eq_some hstep
    obtain ⟨hq', hsent⟩ := call_quiet hq ha
    refine ⟨hq', ?_⟩
    simp only [hsent, hs]
    rw [hwhole]
  · exact ⟨established_quiet writeComplete true highWaterMark, rfl⟩

/-- The mark is at four bytes, and six are sent to a socket that takes none: nothing is queued, and
nothing is kept. -/
theorem crossing_not_marked :
    ¬ Machine.Along outputStep MarksCrossing (established true true 4)
      [.sendInLoop [1, 2, 3, 4, 5, 6] (.failed .EWOULDBLOCK)] := by
  intro h
  have hcall := (h _ (if_pos (by decide +kernel))).1
  exact absurd hcall.marks (by decide +kernel)

end TcpConnection
end Webservers
