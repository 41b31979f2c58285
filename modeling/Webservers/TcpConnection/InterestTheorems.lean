import Webservers.Lib.Machine
import Webservers.TcpConnection.EventTheorems

/-!
# Write interest and pending output

`shutdownInLoop` takes the interest bit as its only evidence that nothing is left to send.
The bit is set by `sendInLoop`, cleared by `handleWrite` and wiped by the functions that
disconnect; `Mirrored` says that it is set exactly while `outputBuffer_` holds something, and it
is kept by every step of the loop thread as long as the connection is not disconnected.
-/

namespace Webservers

namespace Channel

@[simp] theorem isWriting_enableWriting (ch : Channel) : ch.enableWriting.isWriting = true := by
  simp only [isWriting, enableWriting, update_events, kWriteEvent, EPOLLOUT, bne_iff_ne, ne_eq]
  rw [BitVec.and_comm, BitVec.and_or_distrib_left]
  intro h
  have hbit := congrArg (BitVec.getLsbD · 2) h
  simp at hbit

@[simp] theorem isWriting_disableWriting (ch : Channel) : ch.disableWriting.isWriting = false := by
  simp only [isWriting, disableWriting, update_events, bne_eq_false_iff_eq]
  rw [BitVec.and_assoc, BitVec.and_comm (~~~kWriteEvent)]
  simp

/-- Reading and writing are different bits. -/
@[simp] theorem isWriting_enableReading (ch : Channel) :
    ch.enableReading.isWriting = ch.isWriting := by
  simp only [isWriting, enableReading, update_events]
  rw [BitVec.and_comm, BitVec.and_or_distrib_left,
    show kWriteEvent &&& kReadEvent = 0#32 from by decide, BitVec.or_zero, BitVec.and_comm]

end Channel

namespace Buffer

/-- The indices are in order, whatever the sizes. -/
def Ordered (b : Buffer) : Prop := b.readerIndex ≤ b.writerIndex

theorem ensureWritableBytes_ordered {b b' : Buffer} {len : ℕ} (h : b.Ordered)
    (hb' : b.ensureWritableBytes len = some b') :
    b'.Ordered ∧ b'.readableBytes = b.readableBytes := by
  unfold ensureWritableBytes at hb'
  split at hb'
  · unfold makeSpace at hb'
    split at hb'
    · obtain ⟨v, -, rfl⟩ := Option.map_eq_some_iff.mp hb'
      exact ⟨h, rfl⟩
    · cases hb'
      simp [Ordered, readableBytes]
  · cases hb'
    exact ⟨h, rfl⟩

theorem append_ordered {b b' : Buffer} {data : List UInt8} (h : b.Ordered)
    (hb' : b.append data = some b') :
    b'.Ordered ∧ b'.readableBytes = b.readableBytes + data.length := by
  obtain ⟨b₁, hb₁, rfl⟩ := Option.map_eq_some_iff.mp hb'
  obtain ⟨hord, hread⟩ := ensureWritableBytes_ordered h hb₁
  simp only [Ordered, readableBytes] at hord hread ⊢
  omega

theorem retrieve_ordered {b : Buffer} (len : ℕ) : (b.retrieve len).Ordered := by
  unfold retrieve
  split
  · rename_i hlen
    simp only [Ordered, readableBytes] at hlen ⊢
    omega
  · exact Nat.le_refl _

end Buffer

namespace TcpConnection

/-! ## What the sending functions do to the connection -/

/-- A direct write that raises `faultError` leaves something to append. -/
theorem directWrite_fault {c : TcpConnection} {message : List UInt8} {r : WriteResult}
    (h : (c.directWrite message r).faultError = true ∧ 0 < (c.directWrite message r).remaining) :
    ((message ++ [0]).drop (c.directWrite message r).nwrote).take
      (c.directWrite message r).remaining ≠ [] := by
  cases r with
  | wrote n => exact absurd h.1 Bool.false_ne_true
  | failed e =>
    obtain ⟨-, hpos⟩ := h
    simp only [directWrite] at hpos ⊢
    rw [List.drop_zero, ne_eq, List.take_eq_nil_iff, not_or]
    exact ⟨by omega, by simp⟩

/-- `sendInLoop` leaves the connection as it was, or keeps something on a connection that was
connected and not writing. -/
theorem sendInLoop_cases (c : TcpConnection) (message : List UInt8) (r : WriteResult) :
    (c.sendInLoop message r).1 = c ∨
      ∃ data b, data ≠ [] ∧ c.outputBuffer.append data = some b ∧
        c.state ≠ .kDisconnected ∧ c.channel.isWriting = false ∧
        (c.sendInLoop message r).1 =
          { c with outputBuffer := b, channel := c.channel.enableWriting } := by
  unfold sendInLoop
  by_cases hstate : c.state = .kDisconnected
  · rw [if_pos hstate]
    exact .inl rfl
  · rw [if_neg hstate]
    by_cases hidle : ¬ c.channel.isWriting = true ∧ c.outputBuffer.readableBytes = 0
    · have hnot : c.channel.isWriting = false := by simpa using hidle.1
      simp only [if_pos hidle]
      split
      · rename_i hfault
        split
        · split
          · exact .inl rfl
          · rename_i b hb
            refine .inr ⟨_, b, directWrite_fault hfault, hb, hstate, hnot, ?_⟩
            simp [hnot]
        · exact .inl rfl
      · exact .inl rfl
    · -- without a direct write there is no fault, and the message is dropped
      simp only [if_neg hidle, Bool.false_eq_true, false_and, if_false]
      exact .inl trivial

theorem shutdownWrite_sendInLoop (c : TcpConnection) (message : List UInt8) (r : WriteResult) :
    Effect.shutdownWrite ∉ (c.sendInLoop message r).2 :=
  fun h => output_sendInLoop c message r _ h

/-- `handleWrite` flushes a part, flushes everything and perhaps shuts down, or does nothing. -/
theorem handleWrite_cases (c : TcpConnection) (r : WriteResult) :
    ((c.handleWrite r).1 = c ∧ Effect.shutdownWrite ∉ (c.handleWrite r).2) ∨
    ∃ n, c.channel.isWriting = true ∧
      (((c.outputBuffer.retrieve n).readableBytes ≠ 0 ∧
          (c.handleWrite r).1 = { c with outputBuffer := c.outputBuffer.retrieve n } ∧
          Effect.shutdownWrite ∉ (c.handleWrite r).2) ∨
        ((c.outputBuffer.retrieve n).readableBytes = 0 ∧
          (c.handleWrite r).1 =
            { c with
              outputBuffer := c.outputBuffer.retrieve n
              channel := c.channel.disableWriting } ∧
          (Effect.shutdownWrite ∈ (c.handleWrite r).2 ↔ c.state = .kDisconnecting))) := by
  unfold handleWrite
  by_cases hw : c.channel.isWriting = true
  · simp only [hw, if_true, true_and]
    cases r with
    | failed e => exact .inl ⟨rfl, List.not_mem_nil⟩
    | wrote n =>
      simp only
      by_cases hn : 0 < n
      · rw [if_pos hn]
        refine .inr ⟨n, ?_⟩
        by_cases hempty : (c.outputBuffer.retrieve n).readableBytes = 0
        · refine .inr ⟨hempty, ?_⟩
          rw [if_pos hempty]
          by_cases hd : c.state = .kDisconnecting
          · simp [hd, shutdownInLoop]
          · rw [if_neg hd]
            split <;> simp [hd]
        · refine .inl ⟨hempty, ?_⟩
          rw [if_neg hempty]
          simp
      · rw [if_neg hn]
        exact .inl ⟨rfl, by simp⟩
  · simp only [hw]
    exact .inl ⟨rfl, List.not_mem_nil⟩

theorem sendInLoop_state (c : TcpConnection) (message : List UInt8) (r : WriteResult) :
    (c.sendInLoop message r).1.state = c.state := by
  obtain hsame | ⟨data, b, -, -, -, -, heq⟩ := sendInLoop_cases c message r
  · rw [hsame]
  · rw [heq]

theorem handleWrite_state (c : TcpConnection) (r : WriteResult) :
    (c.handleWrite r).1.state = c.state := by
  obtain ⟨hsame, -⟩ | ⟨n, -, ⟨-, heq, -⟩ | ⟨-, heq, -⟩⟩ := handleWrite_cases c r
  · rw [hsame]
  · rw [heq]
  · rw [heq]

theorem ordered_sendInLoop {c : TcpConnection} (hord : c.outputBuffer.Ordered)
    (message : List UInt8) (r : WriteResult) :
    (c.sendInLoop message r).1.outputBuffer.Ordered := by
  obtain hsame | ⟨data, b, -, hb, -, -, heq⟩ := sendInLoop_cases c message r
  · rw [hsame]
    exact hord
  · rw [heq]
    exact (Buffer.append_ordered hord hb).1

theorem ordered_handleWrite {c : TcpConnection} (hord : c.outputBuffer.Ordered)
    (r : WriteResult) : (c.handleWrite r).1.outputBuffer.Ordered := by
  obtain ⟨hsame, -⟩ | ⟨n, -, ⟨-, heq, -⟩ | ⟨-, heq, -⟩⟩ := handleWrite_cases c r
  · rw [hsame]
    exact hord
  · rw [heq]
    exact Buffer.retrieve_ordered n
  · rw [heq]
    exact Buffer.retrieve_ordered n

/-- What is kept is not empty, and the interest is set with it. -/
theorem isWriting_iff_sendInLoop {c : TcpConnection} (hord : c.outputBuffer.Ordered)
    (h : c.channel.isWriting = true ↔ 0 < c.outputBuffer.readableBytes)
    (message : List UInt8) (r : WriteResult) :
    (c.sendInLoop message r).1.channel.isWriting = true ↔
      0 < (c.sendInLoop message r).1.outputBuffer.readableBytes := by
  obtain hsame | ⟨data, b, hdata, hb, -, -, heq⟩ := sendInLoop_cases c message r
  · rw [hsame]
    exact h
  · have hread := (Buffer.append_ordered hord hb).2
    have hpos : 0 < data.length := List.length_pos_iff.mpr hdata
    rw [heq]
    simp only [Channel.isWriting_enableWriting, true_iff, hread]
    omega

/-- The interest goes with the last byte. -/
theorem isWriting_iff_handleWrite {c : TcpConnection}
    (h : c.channel.isWriting = true ↔ 0 < c.outputBuffer.readableBytes) (r : WriteResult) :
    (c.handleWrite r).1.channel.isWriting = true ↔
      0 < (c.handleWrite r).1.outputBuffer.readableBytes := by
  obtain ⟨hsame, -⟩ | ⟨n, hw, ⟨hne, heq, -⟩ | ⟨hempty, heq, -⟩⟩ := handleWrite_cases c r
  · rw [hsame]
    exact h
  · rw [heq]
    simp only [hw, true_iff]
    omega
  · rw [heq]
    simp [hempty]

/-! ## Runs of the loop thread -/

/-- A call on the connection's loop thread, with the answers of the kernel. -/
inductive LoopOp where
  | connectionEstablished
  | handleRead (r : ReadvResult)
  | handleWrite (r : WriteResult)
  | handleClose
  | handleError
  | send (message : List UInt8) (r : WriteResult)
  | sendInLoop (message : List UInt8) (r : WriteResult)
  | shutdown
  | shutdownInLoop
  | connnectionDestroyed
deriving Repr, DecidableEq

def LoopOp.call (c : TcpConnection) : LoopOp → TcpConnection × List Effect
  | .connectionEstablished => c.connectionEstablished
  | .handleRead r => c.handleRead r
  | .handleWrite r => c.handleWrite r
  | .handleClose => c.handleClose
  | .handleError => c.handleError
  | .send message r => c.send message r
  | .sendInLoop message r => c.sendInLoop message r
  | .shutdown => c.shutdown
  | .shutdownInLoop => c.shutdownInLoop
  | .connnectionDestroyed => c.connnectionDestroyed

/-- `newConnection` hands a connection to its loop by queueing `connectionEstablished`, once and
before anything else of it is queued. -/
def loopStep (c : TcpConnection) (op : LoopOp) : Option TcpConnection :=
  if op = .connectionEstablished ↔ c.state = .kConnecting then some (op.call c).1 else none

/-- While the connection is not disconnected, the interest bit says whether there is output. -/
structure Mirrored (c : TcpConnection) : Prop where
  ordered : c.outputBuffer.Ordered
  isWriting_iff : c.state ≠ .kDisconnected →
    (c.channel.isWriting = true ↔ 0 < c.outputBuffer.readableBytes)

theorem mirrored_new (writeComplete highWater : Bool) (highWaterMark : ℕ) :
    Mirrored (new writeComplete highWater highWaterMark) where
  ordered := Nat.le_refl _
  isWriting_iff _ := by
    simp only [new, Channel.new, Buffer.readableBytes, Buffer.new, Nat.sub_self, Nat.lt_irrefl]
    decide

/-- A disconnected connection has nothing to mirror. -/
theorem Mirrored.of_disconnected {c : TcpConnection} (hord : c.outputBuffer.Ordered)
    (h : c.state = .kDisconnected) : Mirrored c :=
  ⟨hord, fun hne => absurd h hne⟩

theorem Mirrored.sendInLoop {c : TcpConnection} (h : Mirrored c) (message : List UInt8)
    (r : WriteResult) : Mirrored (c.sendInLoop message r).1 where
  ordered := ordered_sendInLoop h.ordered message r
  isWriting_iff hs := by
    rw [sendInLoop_state] at hs
    exact isWriting_iff_sendInLoop h.ordered (h.isWriting_iff hs) message r

theorem Mirrored.handleWrite {c : TcpConnection} (h : Mirrored c) (r : WriteResult) :
    Mirrored (c.handleWrite r).1 where
  ordered := ordered_handleWrite h.ordered r
  isWriting_iff hs := by
    rw [handleWrite_state] at hs
    exact isWriting_iff_handleWrite (h.isWriting_iff hs) r

theorem Mirrored.handleClose {c : TcpConnection} (h : Mirrored c) : Mirrored c.handleClose.1 :=
  .of_disconnected h.ordered rfl

theorem Mirrored.handleRead {c : TcpConnection} (h : Mirrored c) (r : ReadvResult) :
    Mirrored (c.handleRead r).1 := by
  unfold TcpConnection.handleRead
  simp only
  split
  · exact .of_disconnected h.ordered rfl
  · exact ⟨h.ordered, h.isWriting_iff⟩
  · exact ⟨h.ordered, h.isWriting_iff⟩

theorem Mirrored.shutdown {c : TcpConnection} (h : Mirrored c) : Mirrored c.shutdown.1 := by
  unfold TcpConnection.shutdown
  split
  · rename_i hs
    exact ⟨h.ordered, fun _ => h.isWriting_iff (by simp [hs])⟩
  · exact h

theorem Mirrored.connectionEstablished {c : TcpConnection} (h : Mirrored c)
    (hs : c.state = .kConnecting) : Mirrored c.connectionEstablished.1 where
  ordered := h.ordered
  isWriting_iff _ := by
    show c.channel.enableReading.isWriting = true ↔ _
    rw [Channel.isWriting_enableReading]
    exact h.isWriting_iff (by simp [hs])

theorem Mirrored.connnectionDestroyed {c : TcpConnection} (h : Mirrored c) :
    Mirrored c.connnectionDestroyed.1 :=
  .of_disconnected h.ordered rfl

theorem Mirrored.step {c d : TcpConnection} (h : Mirrored c) {op : LoopOp}
    (hop : loopStep c op = some d) : Mirrored d := by
  unfold loopStep at hop
  split at hop
  · rename_i henabled
    cases hop
    cases op with
    | connectionEstablished => exact h.connectionEstablished (henabled.mp rfl)
    | handleRead r => exact h.handleRead r
    | handleWrite r => exact h.handleWrite r
    | handleClose => exact h.handleClose
    | handleError => exact h
    | send message r =>
      simp only [LoopOp.call, send]
      split
      · exact h.sendInLoop message r
      · exact h
    | sendInLoop message r => exact h.sendInLoop message r
    | shutdown => exact h.shutdown
    | shutdownInLoop => exact h
    | connnectionDestroyed => exact h.connnectionDestroyed
  · cases hop

/-! ## Shutting down -/

theorem shutdownWrite_handleRead (c : TcpConnection) (r : ReadvResult) :
    Effect.shutdownWrite ∉ (c.handleRead r).2 := by
  unfold TcpConnection.handleRead
  simp only
  split <;> simp [TcpConnection.handleClose]

theorem Mirrored.shutdownInLoop_empty {c : TcpConnection} (h : Mirrored c)
    (hs : c.state ≠ .kDisconnected) (hmem : Effect.shutdownWrite ∈ c.shutdownInLoop.2) :
    c.outputBuffer.readableBytes = 0 := by
  have hnot : ¬ c.channel.isWriting = true := by
    intro hw
    simp [TcpConnection.shutdownInLoop, hw] at hmem
  have hempty := mt (h.isWriting_iff hs).mpr hnot
  omega

/-- `shutdownWrite()` is the last thing the functions do that reach it, so the connection they
return is the one it is called in. -/
theorem Mirrored.shutdownWrite_empty {c : TcpConnection} (h : Mirrored c) (op : LoopOp)
    (hmem : Effect.shutdownWrite ∈ (op.call c).2)
    (hs : (op.call c).1.state ≠ .kDisconnected) :
    (op.call c).1.outputBuffer.readableBytes = 0 := by
  cases op with
  | handleWrite r =>
    obtain ⟨-, hnot⟩ | ⟨n, -, ⟨-, -, hnot⟩ | ⟨hempty, heq, -⟩⟩ := handleWrite_cases c r
    · exact absurd hmem hnot
    · exact absurd hmem hnot
    · simp only [LoopOp.call, heq]
      exact hempty
  | shutdown =>
    simp only [LoopOp.call, TcpConnection.shutdown] at hmem hs ⊢
    split at hmem
    · rename_i hconn
      rw [if_pos hconn] at hs ⊢
      have hm : Mirrored (c.setState .kDisconnecting) :=
        ⟨h.ordered, fun _ => h.isWriting_iff (by simp [hconn])⟩
      exact hm.shutdownInLoop_empty hs hmem
    · exact absurd hmem List.not_mem_nil
  | shutdownInLoop => exact h.shutdownInLoop_empty hs hmem
  | send message r =>
    simp only [LoopOp.call, send] at hmem
    split at hmem
    · exact absurd hmem (shutdownWrite_sendInLoop c message r)
    · exact absurd hmem List.not_mem_nil
  | sendInLoop message r => exact absurd hmem (shutdownWrite_sendInLoop c message r)
  | handleRead r => exact absurd hmem (shutdownWrite_handleRead c r)
  | connectionEstablished => simp [LoopOp.call, TcpConnection.connectionEstablished] at hmem
  | handleClose => simp [LoopOp.call, TcpConnection.handleClose] at hmem
  | handleError => exact absurd hmem List.not_mem_nil
  | connnectionDestroyed =>
    simp [LoopOp.call, TcpConnection.connnectionDestroyed, StateE.toInt] at hmem

/-- In every state between the loop thread's steps of a connection, from its construction on, a
connection that is not disconnected waits for `EPOLLOUT` exactly while it has output; and no
step calls `shutdownWrite()` with output pending unless the connection is disconnected. -/
theorem write_interest_mirrors_output (writeComplete highWater : Bool) (highWaterMark : ℕ)
    {c : TcpConnection}
    (h : Machine.Reachable loopStep (new writeComplete highWater highWaterMark) c) :
    (c.state ≠ .kDisconnected →
      (c.channel.isWriting = true ↔ 0 < c.outputBuffer.readableBytes)) ∧
    ∀ op d, loopStep c op = some d → Effect.shutdownWrite ∈ (op.call c).2 →
      d.state ≠ .kDisconnected → d.outputBuffer.readableBytes = 0 := by
  have hm : Mirrored c := Machine.reachable_invariant
    (mirrored_new writeComplete highWater highWaterMark) (fun _ _ _ hc hop => hc.step hop) h
  refine ⟨hm.isWriting_iff, fun op d hop hmem hs => ?_⟩
  unfold loopStep at hop
  split at hop
  · cases hop
    exact hm.shutdownWrite_empty op hmem hs
  · cases hop

/-- A message that meets a reset socket is kept, `shutdown` waits for it, and the flush that
empties the buffer shuts down. -/
theorem write_interest_mirrors_output_flush :
    ∃ c, Machine.exec loopStep (new true true 1)
        [.connectionEstablished, .send [1, 2] (.failed .ECONNRESET), .shutdown] = some c ∧
      c.channel.isWriting = true ∧ 0 < c.outputBuffer.readableBytes ∧
      Effect.shutdownWrite ∈ (LoopOp.call c (.handleWrite (.wrote 3))).2 ∧
      (LoopOp.call c (.handleWrite (.wrote 3))).1.outputBuffer.readableBytes = 0 := by
  obtain ⟨c, hc⟩ := Option.isSome_iff_exists.mp
    (show (Machine.exec loopStep (new true true 1) [.connectionEstablished,
      .send [1, 2] (.failed .ECONNRESET), .shutdown]).isSome = true by decide +kernel)
  have hc' : ∀ d ∈ Machine.exec loopStep (new true true 1) [.connectionEstablished,
      .send [1, 2] (.failed .ECONNRESET), .shutdown],
      d.state = .kDisconnecting ∧ d.channel.isWriting = true ∧
        Effect.shutdownWrite ∈ (LoopOp.call d (.handleWrite (.wrote 3))).2 ∧
        (LoopOp.call d (.handleWrite (.wrote 3))).1.state ≠ .kDisconnected := by
    decide +kernel
  obtain ⟨hs, hw, hmem, hs'⟩ := hc' c hc
  have h := write_interest_mirrors_output true true 1 ⟨_, hc⟩
  have hstep : loopStep c (.handleWrite (.wrote 3)) =
      some (LoopOp.call c (.handleWrite (.wrote 3))).1 := by
    simp [loopStep, hs]
  exact ⟨c, hc, hw, (h.1 (by simp [hs])).mp hw, hmem, h.2 _ _ hstep hmem hs'⟩

end TcpConnection
end Webservers
