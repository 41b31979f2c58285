import Webservers.Buffer.CapacityTheorems
import Webservers.TcpConnection.InterestTheorems

/-!
# What a connection does with the bytes it receives

`handleRead` puts what `readv` returns behind the unread bytes of `inputBuffer_` and runs
`messageCallback_` with the buffer, on which the user then calls what it likes: it takes bytes out
whenever it wants to, and may put bytes of its own in. The input is intact when the bytes taken
out, followed by those still in the buffer, are the bytes that came in.

How much is unread is up to the user, how much comes in is up to the kernel. `readFd` offers
`extrabuf` only while less than `sizeof(extrabuf)` is writable, so one read makes the vector grow
by less than that, and `makeSpace` grows it only while the consumed front is shorter still. The
vector therefore stays within what the user leaves unread and three times `sizeof(extrabuf)`, or
twice what the user itself asks for at once where that is more.
-/

namespace Webservers

namespace Buffer

/-! ## The buffer -/

/-- The bytes a call takes out: those it returns, or those that `peek()` has shown. -/
def Op.takes (b : Buffer) : Op → List UInt8
  | .retrieve len => b.peek (min len b.readableBytes)
  | .retrieveAll => b.peek b.readableBytes
  | .retrieveAllAsString => b.retrieveAllAsString.1
  | .retrieveAsString len => (b.retrieveAsString len).1
  | .append _ | .ensureWritableBytes _ | .writeFd _ | .readFd _ => []

/-- The bytes a call is to put in. -/
def Op.puts : Op → List UInt8
  | .append data | .readFd (.got data) => data
  | .ensureWritableBytes _ | .retrieve _ | .retrieveAll | .retrieveAllAsString
  | .retrieveAsString _ | .writeFd _ | .readFd (.failed _) => []

/-- No more than `unread` bytes are readable when more come in or room is asked for, the caller
asks for no more than `asked` bytes of room at once, and `retrieveAsString` for no more than is
readable. -/
def Op.Keeps (unread asked : ℕ) (b : Buffer) : Op → Prop
  | .append data => b.readableBytes ≤ unread ∧ data.length ≤ asked
  | .ensureWritableBytes len => b.readableBytes ≤ unread ∧ len ≤ asked
  | .readFd _ => b.readableBytes ≤ unread
  | .retrieveAsString len => len ≤ b.readableBytes
  | .retrieve _ | .retrieveAll | .retrieveAllAsString | .writeFd _ => True

instance (unread asked : ℕ) (b : Buffer) : DecidablePred (Op.Keeps unread asked b)
  | .append _ | .ensureWritableBytes _ => inferInstanceAs (Decidable (_ ∧ _))
  | .readFd _ | .retrieveAsString _ => inferInstanceAs (Decidable (_ ≤ _))
  | .retrieve _ | .retrieveAll | .retrieveAllAsString | .writeFd _ =>
    inferInstanceAs (Decidable True)

/-- How large the vector gets. -/
def sizeLimit (unread asked : ℕ) : ℕ := kCheapPrepend + unread + max (3 * extrabufSize) (2 * asked)

/-- A call that does not throw conserves the queue: what it takes out and what it leaves are what
was there and what it puts in. -/
theorem QueueStep.conserves {b b' : Buffer} (hb : b.WellFormed) {op : Op} {r : Result}
    (hq : QueueStep b.content op r b'.content) (hthrow : r ≠ .threw)
    (hallowed : op.Allowed b) : op.takes b ++ b'.content = b.content ++ op.puts := by
  cases op with
  | append data =>
    obtain ⟨-, hcont⟩ | ⟨hthrew, -⟩ := hq
    · exact hcont
    · exact absurd hthrew hthrow
  | ensureWritableBytes len => rw [hq.2, Op.takes, Op.puts, List.nil_append, List.append_nil]
  | retrieve len =>
    have hpeek : b.peek (min len b.readableBytes) = b.content.take len := by
      rw [content, peek, peek, List.take_take]
    have hdrop : b.content.drop (min len b.content.length) = b.content.drop len := by
      rcases Nat.le_total len b.content.length with h | h
      · rw [Nat.min_eq_left h]
      · rw [Nat.min_eq_right h, List.drop_length, List.drop_of_length_le h]
    rw [hq.2, hdrop, Op.takes, Op.puts, hpeek, List.take_append_drop, List.append_nil]
  | retrieveAll => rw [hq.2, Op.takes, Op.puts, content]
  | retrieveAllAsString => rw [hq.2, Op.takes, Op.puts, (retrieveAllAsString_spec hb).1]
  | retrieveAsString len =>
    rw [hq.2, Op.takes, Op.puts, (retrieveAsString_spec hb hallowed).1, List.take_append_drop,
      List.append_nil]
  | writeFd answer =>
    cases answer with
    | failed _ | wrote _ => rw [hq.2, Op.takes, Op.puts, List.nil_append, List.append_nil]
  | readFd answer =>
    cases answer with
    | failed _ => rw [hq.2, Op.takes, Op.puts, List.nil_append, List.append_nil]
    | got data =>
      obtain ⟨-, hcont⟩ | ⟨hthrew, -⟩ := hq
      · exact hcont
      · exact absurd hthrew hthrow

/-- A call within the bounds is one the callers can make. -/
theorem Op.Keeps.allowed {unread asked : ℕ} {b : Buffer} {op : Op}
    (hkeeps : op.Keeps unread asked b) (hop : op.Possible b) : op.Allowed b := by
  cases op with
  | retrieveAsString len => exact hkeeps
  | writeFd r => exact hop
  | readFd answer =>
    cases answer with
    | got data => exact hop
    | failed e => trivial
  | append | ensureWritableBytes | retrieve | retrieveAll | retrieveAllAsString => trivial

/-- What a call within the bounds may make the vector grow by. -/
theorem Op.Keeps.demand_le {unread asked : ℕ} {b : Buffer} {op : Op}
    (hkeeps : op.Keeps unread asked b) (hop : op.Possible b) :
    op.demand ≤ asked ∨ op.demand ≤ b.writableBytes + extrabufSize := by
  cases op with
  | append data => exact Or.inl hkeeps.2
  | ensureWritableBytes len => exact Or.inl hkeeps.2
  | readFd answer =>
    cases answer with
    | got data => exact Or.inr (Nat.le_trans hop (offered_le b))
    | failed e => exact Or.inl (Nat.zero_le _)
  | retrieve | retrieveAll | retrieveAllAsString | retrieveAsString | writeFd =>
    exact Or.inl (Nat.zero_le _)

/-- The reservation of a call within the bounds leaves the vector within its limit. -/
theorem Op.Keeps.sizeAfter_le {unread asked : ℕ} {b : Buffer} (hb : b.WellFormed) {op : Op}
    (hkeeps : op.Keeps unread asked b) (hop : op.Possible b)
    (hmax : unread + 2 * asked ≤ 2 ^ 61) (hsize : b.buffer.length ≤ sizeLimit unread asked)
    {r : Buffer × ℕ} (hr : r ∈ op.reserves b) :
    r.1.sizeAfter r.2 ≤ sizeLimit unread asked := by
  have hcheap : kCheapPrepend = 8 := rfl
  have hextra : extrabufSize = 65536 := rfl
  have hi := hb.inside
  unfold sizeLimit at hsize ⊢
  cases op with
  | append data =>
    obtain ⟨hunread, hasked⟩ := hkeeps
    cases hr
    have htwice := sizeAfter_le_twice hb (show b.writerIndex + data.length < 2 ^ 64 by omega)
    simp only
    omega
  | ensureWritableBytes len =>
    obtain ⟨hunread, hasked⟩ := hkeeps
    cases hr
    have htwice := sizeAfter_le_twice hb (show b.writerIndex + len < 2 ^ 64 by omega)
    simp only
    omega
  | readFd answer =>
    cases answer with
    | failed e => cases hr
    | got data =>
      simp only [Op.reserves] at hr
      split at hr
      · cases hr
      rename_i hover
      cases hr
      have hunread : b.readableBytes ≤ unread := hkeeps
      have hdata : data.length ≤ b.offered := hop
      -- more than is writable came in, so `extrabuf` was offered
      have hshort : b.writableBytes < extrabufSize := by
        unfold offered at hdata
        split at hdata <;> omega
      have hoffered := offered_le b
      have hrest : (data.drop b.writableBytes).length = data.length - b.writableBytes :=
        List.length_drop
      have hreadable : (b.full data).readableBytes = b.readableBytes + b.writableBytes := by
        have hfull : (b.full data).readableBytes = b.buffer.length - b.readerIndex :=
          congrArg (· - b.readerIndex) (length_storeList _ _ _)
        have ho := hb.ordered
        rw [hfull, readableBytes, writableBytes]
        omega
      have hlength : (b.full data).buffer.length = b.buffer.length := length_storeList _ _ _
      have hwf := full_wellFormed hb (Nat.lt_of_not_le hover)
      have hend := hwf.inside
      have htwice := sizeAfter_le_twice hwf
        (show (b.full data).writerIndex + (data.drop b.writableBytes).length < 2 ^ 64 by omega)
      simp only
      omega
  | retrieve | retrieveAll | retrieveAllAsString | retrieveAsString | writeFd => cases hr

/-- A call within the bounds, on a vector within its limit: it does not throw, it conserves the
queue, and the vector stays within its limit. -/
theorem step_keeps {b : Buffer} (hb : b.WellFormed) {op : Op} {unread asked : ℕ}
    (hop : op.Possible b) (hkeeps : op.Keeps unread asked b)
    (hmax : unread + 2 * asked ≤ 2 ^ 61) (hsize : b.buffer.length ≤ sizeLimit unread asked) :
    (b.step op).2 ≠ .threw ∧ (b.step op).1.WellFormed ∧
      op.takes b ++ (b.step op).1.content = b.content ++ op.puts ∧
      (b.step op).1.buffer.length ≤ sizeLimit unread asked := by
  have hcheap : kCheapPrepend = 8 := rfl
  have hextra : extrabufSize = 65536 := rfl
  have hmaxSize : maxSize = 2 ^ 63 - 1 := rfl
  have hlimit : sizeLimit unread asked
    = kCheapPrepend + unread + max (3 * extrabufSize) (2 * asked) := rfl
  have hallowed := hkeeps.allowed hop
  have hdemand : b.buffer.length + op.demand ≤ maxSize - kCheapPrepend := by
    have hwritable : b.writableBytes ≤ b.buffer.length := Nat.sub_le _ _
    rcases hkeeps.demand_le hop with h | h <;> omega
  obtain ⟨hwf, hq, hthrow⟩ := step_refines hb hallowed (show op.NoWrap b by
    unfold Op.NoWrap
    omega)
  have hreturned : (b.step op).2 ≠ .threw := fun h => by
    have := hthrow h
    omega
  refine ⟨hreturned, hwf, hq.conserves hb hreturned hallowed, ?_⟩
  rw [length_step]
  cases hr : op.reserves b with
  | none => exact hsize
  | some r => exact hkeeps.sizeAfter_le hb hop hmax hsize hr

end Buffer

namespace TcpConnection

/-! ## Runs -/

structure InputState where
  conn : TcpConnection
  /-- what has come into `inputBuffer_`: from `readv`, and from the user itself -/
  received : List UInt8
  /-- what the user has taken out of `inputBuffer_` -/
  taken : List UInt8
  /-- what the user knows to have come in: all there was when `messageCallback_` was last run, and
  what it has put in itself since -/
  shown : List UInt8
deriving Repr, DecidableEq

/-- A connection as `newConnection` makes it. -/
def accepted (writeComplete highWater : Bool) (highWaterMark : ℕ) : InputState where
  conn := new writeComplete highWater highWaterMark
  received := []
  taken := []
  shown := []

/-- On the loop thread: a call of the connection, or one that the user makes on the buffer it was
handed. -/
inductive InputOp where
  | call (op : LoopOp)
  | user (op : Buffer.Op)
deriving Repr, DecidableEq

/-- The bytes that come in. -/
def LoopOp.arrives : LoopOp → List UInt8
  | .handleRead (.got data) => data
  | _ => []

/-- `readv` returns no more than it was offered. -/
def LoopOp.Offered (c : TcpConnection) (op : LoopOp) : Prop :=
  op.arrives.length ≤ c.inputBuffer.offered

instance (c : TcpConnection) (op : LoopOp) : Decidable (op.Offered c) :=
  inferInstanceAs (Decidable (_ ≤ _))

def inputStep (s : InputState) : InputOp → Option InputState
  | .call op =>
    if op.Offered s.conn then
      (loopStep s.conn op).map fun c =>
        { s with
          conn := c
          received := s.received ++ op.arrives
          shown :=
            if .messageCallback ∈ (op.call s.conn).2 then s.taken ++ c.inputBuffer.content
            else s.shown }
    else none
  | .user op =>
    let b := s.conn.inputBuffer
    if op.Possible b then
      some
        { conn := { s.conn with inputBuffer := (b.step op).1 }
          received := s.received ++ op.puts
          taken := s.taken ++ op.takes b
          shown := s.shown ++ op.puts }
    else none

/-- The call made on `inputBuffer_`. -/
def InputOp.bufferOp : InputOp → Option Buffer.Op
  | .call (.handleRead r) => some (.readFd r)
  | .call _ => none
  | .user op => some op

/-- The user keeps within its bounds. -/
def Keeping (unread asked : ℕ) (s : InputState) (op : InputOp) : Prop :=
  ∀ o ∈ op.bufferOp, o.Keeps unread asked s.conn.inputBuffer

instance (unread asked : ℕ) (s : InputState) (op : InputOp) :
    Decidable (Keeping unread asked s op) :=
  inferInstanceAs (Decidable (∀ o ∈ op.bufferOp, _))

/-! ## One call -/

/-- Only `handleRead` touches the input buffer and runs `messageCallback_`. -/
theorem call_inputBuffer (c : TcpConnection) {op : LoopOp} (hop : ∀ r, op ≠ .handleRead r) :
    (op.call c).1.inputBuffer = c.inputBuffer ∧ Effect.messageCallback ∉ (op.call c).2 := by
  have hsend : ∀ message r, (c.sendInLoop message r).1.inputBuffer = c.inputBuffer ∧
      Effect.messageCallback ∉ (c.sendInLoop message r).2 := by
    intro message r
    refine ⟨?_, fun h => output_sendInLoop c message r _ h⟩
    obtain hsame | ⟨data, b, -, -, -, -, heq⟩ := sendInLoop_cases c message r
    · rw [hsame]
    · rw [heq]
  cases op with
  | handleRead r => exact absurd rfl (hop r)
  | sendInLoop message r => exact hsend message r
  | send message r =>
    simp only [LoopOp.call, send]
    split
    · exact hsend message r
    · exact ⟨rfl, List.not_mem_nil⟩
  | handleWrite r =>
    constructor
    · obtain ⟨hsame, -⟩ | ⟨n, -, ⟨-, heq, -⟩ | ⟨-, heq, -⟩⟩ := handleWrite_cases c r
      · rw [LoopOp.call, hsame]
      · rw [LoopOp.call, heq]
      · rw [LoopOp.call, heq]
    · intro h
      rcases output_handleWrite c r _ h with hout | heq
      · exact hout
      · cases heq
  | shutdown =>
    simp only [LoopOp.call, shutdown]
    split
    · refine ⟨rfl, ?_⟩
      simp only [shutdownInLoop]
      split <;> simp
    · exact ⟨rfl, List.not_mem_nil⟩
  | shutdownInLoop =>
    refine ⟨rfl, ?_⟩
    simp only [LoopOp.call, shutdownInLoop]
    split <;> simp
  | connectionEstablished => exact ⟨rfl, by simp [LoopOp.call, connectionEstablished]⟩
  | handleClose => exact ⟨rfl, by simp [LoopOp.call, handleClose]⟩
  | handleError => exact ⟨rfl, List.not_mem_nil⟩
  | connnectionDestroyed =>
    exact ⟨rfl, by simp [LoopOp.call, connnectionDestroyed, StateE.toInt]⟩

theorem readFd_count (b : Buffer) {data : List UInt8}
    (h : (b.readFd (.got data)).2 ≠ .threw) : (b.readFd (.got data)).2 = .count data.length := by
  simp only [Buffer.readFd] at h ⊢
  split
  · rfl
  · split
    · rfl
    · rename_i hover _ hnone
      simp only [hover, if_false, hnone] at h
      exact absurd rfl h

/-- A read that does not throw: the buffer is what `readFd` leaves, and `messageCallback_` is run
unless the stream has ended. -/
theorem handleRead_got {c : TcpConnection} {data : List UInt8}
    (h : (c.inputBuffer.readFd (.got data)).2 = .count data.length) :
    (c.handleRead (.got data)).1.inputBuffer = (c.inputBuffer.readFd (.got data)).1 ∧
      (Effect.messageCallback ∈ (c.handleRead (.got data)).2 ↔ data ≠ []) := by
  cases data with
  | nil =>
    rw [handleRead_eof]
    exact ⟨rfl, by simp [handleClose]⟩
  | cons x xs =>
    rw [handleRead]
    generalize c.inputBuffer.readFd (.got (x :: xs)) = p at h
    obtain ⟨b, res⟩ := p
    simp only at h
    subst h
    exact ⟨rfl, by simp⟩

/-- What any call on the loop thread leaves in the input buffer, and when it tells the user. -/
theorem call_bounded {c : TcpConnection} {op : LoopOp} {unread asked : ℕ}
    (hb : c.inputBuffer.WellFormed)
    (hsize : c.inputBuffer.buffer.length ≤ Buffer.sizeLimit unread asked)
    (hmax : unread + 2 * asked ≤ 2 ^ 61) (hoffered : op.Offered c)
    (hkeeps : ∀ r, op = .handleRead r →
      Buffer.Op.Keeps unread asked c.inputBuffer (.readFd r)) :
    (op.call c).1.inputBuffer.WellFormed ∧
      (op.call c).1.inputBuffer.buffer.length ≤ Buffer.sizeLimit unread asked ∧
      (op.call c).1.inputBuffer.content = c.inputBuffer.content ++ op.arrives ∧
      (Effect.messageCallback ∈ (op.call c).2 ↔ op.arrives ≠ []) := by
  by_cases hread : ∃ r, op = .handleRead r
  · obtain ⟨r, rfl⟩ := hread
    cases r with
    | failed e =>
      exact ⟨hb, hsize, (List.append_nil _).symm, fun h => absurd h List.not_mem_nil,
        fun h => absurd rfl h⟩
    | got data =>
      have hop : Buffer.Op.Possible c.inputBuffer (.readFd (.got data)) := hoffered
      obtain ⟨hreturned, hwf, hcont, hbound⟩ :=
        Buffer.step_keeps hb hop (hkeeps _ rfl) hmax hsize
      have hcount := readFd_count _ hreturned
      obtain ⟨hbuffer, hmessage⟩ := handleRead_got hcount
      exact ⟨hbuffer ▸ hwf, hbuffer ▸ hbound, hbuffer ▸ hcont, hmessage⟩
  · obtain ⟨hbuffer, hmessage⟩ := call_inputBuffer c fun r hr => hread ⟨r, hr⟩
    have hnothing : op.arrives = [] := by
      cases op with
      | handleRead r => exact absurd ⟨r, rfl⟩ hread
      | connectionEstablished | handleWrite | handleClose | handleError | send | sendInLoop
      | shutdown | shutdownInLoop | connnectionDestroyed => rfl
    rw [hnothing, List.append_nil, hbuffer]
    exact ⟨hb, hsize, rfl, fun h => absurd h hmessage, fun h => absurd rfl h⟩

/-! ## The invariant -/

/-- Nothing lost, repeated or out of order on its way to the user, who knows of all of it, in a
vector whose size depends only on the user's own bounds. -/
structure InputIntact (unread asked : ℕ) (s : InputState) : Prop where
  wellFormed : s.conn.inputBuffer.WellFormed
  sized : s.conn.inputBuffer.buffer.length ≤ Buffer.sizeLimit unread asked
  stream : s.taken ++ s.conn.inputBuffer.content = s.received
  told : s.shown = s.received

/-- A call that the user makes on the buffer. -/
theorem InputIntact.user {unread asked : ℕ} (hmax : unread + 2 * asked ≤ 2 ^ 61)
    {s t : InputState} (h : InputIntact unread asked s) {op : Buffer.Op}
    (hstep : inputStep s (.user op) = some t)
    (hkeeps : Keeping unread asked s (.user op)) : InputIntact unread asked t := by
  simp only [inputStep] at hstep
  split at hstep
  case isFalse => cases hstep
  case isTrue hop =>
    cases hstep
    obtain ⟨-, hwf, hcont, hsize⟩ :=
      Buffer.step_keeps h.wellFormed hop (hkeeps op rfl) hmax h.sized
    refine ⟨hwf, hsize, ?_, congrArg (· ++ op.puts) h.told⟩
    simp only [List.append_assoc, hcont]
    rw [← List.append_assoc, h.stream]

/-- A call of the connection. -/
theorem InputIntact.call {unread asked : ℕ} (hmax : unread + 2 * asked ≤ 2 ^ 61)
    {s t : InputState} (h : InputIntact unread asked s) {op : LoopOp}
    (hstep : inputStep s (.call op) = some t)
    (hkeeps : Keeping unread asked s (.call op)) : InputIntact unread asked t := by
  simp only [inputStep] at hstep
  split at hstep
  case isFalse => cases hstep
  case isTrue hoffered =>
    obtain ⟨c, hc, rfl⟩ := Option.map_eq_some_iff.mp hstep
    obtain rfl : (op.call s.conn).1 = c := by
      unfold loopStep at hc
      split at hc
      · exact Option.some.inj hc
      · cases hc
    obtain ⟨hwf, hsize, hcont, hmessage⟩ :=
      call_bounded h.wellFormed h.sized hmax hoffered fun r hr => by
        subst hr
        exact hkeeps _ rfl
    have hstream : s.taken ++ (op.call s.conn).1.inputBuffer.content
        = s.received ++ op.arrives := by
      rw [hcont, ← List.append_assoc, h.stream]
    refine ⟨hwf, hsize, hstream, ?_⟩
    simp only
    split
    · exact hstream
    · rename_i hsilent
      have hnothing : op.arrives = [] := not_not.mp (mt hmessage.mpr hsilent)
      rw [hnothing, List.append_nil, h.told]

end TcpConnection
end Webservers
