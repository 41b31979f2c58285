import Webservers.Lib.Machine
import Webservers.HttpConn.Response

/-!
# A file response under partial writes

`process_write(FILE_REQUEST)` offers the head in `m_write_buf` and the mapped file; `write()`
then hands them over in as many pieces as the kernel likes. The machine `sendStep` makes one
call of `writev` a step, with the kernel's answer as its label: `EAGAIN` ends the running call
of `write()` and a later call resumes, and after the piece that completes the response no step
is left. `writeLoop_eq` says that this is what the loop of `write()` does.

The loop compares the bytes sent so far with the length of the first `iovec`, which is itself
counted down. `response_exact_iff` gives the exact condition on the pieces under which the
response arrives as composed.
-/

namespace Webservers
namespace HttpConn

/-- A response that is being sent. -/
structure Sending where
  conn : HttpConn
  /-- the bytes each `writev` took, in order -/
  handed : List (Option (List UInt8))
  /-- the completion branch has been taken -/
  finished : Bool

/-- One call of `writev` and the rest of the round of the loop. -/
def sendStep (s : Sending) : WriteResult → Option Sending
  | .failed e => if s.finished = false ∧ e = .EWOULDBLOCK then some s else none
  | .wrote n =>
    if s.finished = false ∧ 1 ≤ n ∧ n ≤ s.conn.offeredLen then
      some
        { conn := s.conn.advance n
          handed := s.handed ++ [s.conn.offered.map (List.take n)]
          finished := (s.conn.advance n).bytesToSend ≤ 0 }
    else none

/-- The slot after `process_write(FILE_REQUEST)`. -/
def sendStart (typeText : List UInt8) (c : HttpConn) : Sending where
  conn := (c.processWrite typeText .fileRequest).2
  handed := []
  finished := false

/-- `m_write_buf[0, m_write_index)` -/
def head (c : HttpConn) : List UInt8 := slice c.writeBuf 0 c.writeIndex

/-- The loop of `write()` runs the machine up to the first `EAGAIN`, here the end of the
list, or to the completion branch. -/
theorem writeLoop_eq (rs : List WriteResult) (s t : Sending) (hs : s.finished = false)
    (hrs : ∀ r ∈ rs, ∃ n, r = .wrote n) (hrun : Machine.exec sendStep s rs = some t) :
    s.conn.writeLoop s.handed rs =
      if t.finished then
        if t.conn.linger then (⟨true, .epollin, t.handed⟩, t.conn.unmap.init)
        else (⟨false, .epollin, t.handed⟩, t.conn.unmap)
      else (⟨true, .epollout, t.handed⟩, t.conn) := by
  induction rs generalizing s with
  | nil =>
    rw [Machine.exec_nil, Option.some.injEq] at hrun
    subst hrun
    rw [hs]
    rfl
  | cons r rs ih =>
    obtain ⟨n, rfl⟩ := hrs r List.mem_cons_self
    obtain ⟨u, hu, hrest⟩ := Machine.exec_cons_eq_some.mp hrun
    simp only [sendStep] at hu
    split at hu <;> cases hu
    simp only [writeLoop]
    by_cases hdone : (s.conn.advance n).bytesToSend ≤ 0
    · -- the response is complete, so the list ends here
      rw [if_pos hdone]
      cases rs with
      | nil =>
        rw [Machine.exec_nil, Option.some.injEq] at hrest
        subst hrest
        simp only [hdone, decide_true, if_true]
      | cons r rs =>
        obtain ⟨v, hv, -⟩ := Machine.exec_cons_eq_some.mp hrest
        obtain ⟨k, rfl⟩ := hrs r (List.mem_cons_of_mem _ List.mem_cons_self)
        simp [sendStep, hdone] at hv
    · rw [if_neg hdone]
      exact ih _ (decide_eq_false hdone) (fun r hr => hrs r (List.mem_cons_of_mem _ hr)) hrest

/-! ## What a state should be -/

/-- The bytes handed over and the bytes the `iovec`s offer make up the whole response, and the
completion branch is taken exactly when nothing is left. -/
def Exact (whole : List UInt8) (s : Sending) : Prop :=
  ∃ (chunks : List (List UInt8)) (rest : List UInt8),
    s.handed = chunks.map some ∧ chunks.flatten ++ rest = whole ∧
    s.conn.offered = some rest ∧ (s.finished = true ↔ rest = [])

/-- The piece leaves the head unfinished only if the bytes sent before it and after it are
together fewer than the head has. -/
def KeepsHead (s : Sending) : WriteResult → Prop
  | .failed _ => True
  | .wrote n => s.conn.bytesHaveSend + n < s.conn.writeIndex →
      2 * s.conn.bytesHaveSend + n < s.conn.writeIndex

/-! ## Conversions in range -/

theorem toInt_of_lt {x : ℤ} (h₀ : 0 ≤ x) (h : x < 2 ^ 31) : toInt x = x := by
  unfold toInt
  rw [Int.bmod_eq_of_le] <;> omega

theorem toSizeT_of_lt {x : ℤ} (h₀ : 0 ≤ x) (h : x < 2 ^ 64) : toSizeT x = x.toNat := by
  rw [toSizeT, Int.emod_eq_of_lt h₀ h]

/-! ## The states without a fault -/

/-- `sent` bytes have been handed over and every member says so. -/
structure OnTrack (head file : List UInt8) (sent : ℕ) (s : Sending) : Prop where
  buf : slice s.conn.writeBuf 0 head.length = head
  writeIndex : s.conn.writeIndex = head.length
  room : head.length ≤ writeBufferSize
  /-- `mmap` maps nothing of an empty file -/
  mapped : file ≠ [] → s.conn.fileAddress = .mapped file
  ivCount : s.conn.ivCount = 2
  small : head.length + file.length < 2 ^ 31
  le : sent ≤ head.length + file.length
  have_ : s.conn.bytesHaveSend = sent
  todo : s.conn.bytesToSend = (head.length + file.length - sent : ℕ)
  inHead : sent < head.length →
    s.conn.iv0 = ⟨.writeBuf sent, head.length - sent⟩ ∧
      s.conn.iv1 = ⟨.file s.conn.fileAddress 0, file.length⟩
  inFile : head.length ≤ sent →
    s.conn.iv0.iovLen = 0 ∧
      s.conn.iv1 = ⟨.file s.conn.fileAddress (sent - head.length : ℕ),
        head.length + file.length - sent⟩
  handed : ∃ chunks : List (List UInt8),
    s.handed = chunks.map some ∧ chunks.flatten = (head ++ file).take sent
  finished : s.finished = true ↔ sent = head.length + file.length

variable {head file : List UInt8} {sent : ℕ} {s t : Sending}

/-- The rest of a file, from `i` on. Where it is empty, it does not matter what is mapped. -/
theorem ivBytes_file (c : HttpConn) {m : Mapping} {file : List UInt8}
    (hm : file ≠ [] → m = .mapped file) (i n : ℕ) (h : i + n = file.length) :
    c.ivBytes ⟨.file m i, n⟩ = some (file.drop i) := by
  unfold ivBytes
  simp only
  by_cases hn : n = 0
  · rw [if_pos hn, List.drop_of_length_le (by omega)]
  · have hne : file ≠ [] := by
      intro hnil
      rw [hnil, List.length_nil] at h
      omega
    rw [if_neg hn, hm hne, Mapping.read, if_pos (by omega), Int.toNat_natCast,
      List.take_of_length_le]
    rw [List.length_drop]
    omega

theorem offered_onTrack (h : OnTrack head file sent s) :
    s.conn.offered = some ((head ++ file).drop sent) := by
  unfold offered
  rw [h.ivCount]
  simp only
  by_cases hin : sent < head.length
  · obtain ⟨h0, h1⟩ := h.inHead hin
    have hroom := h.room
    have hiv0 : s.conn.ivBytes ⟨.writeBuf sent, head.length - sent⟩ = some (head.drop sent) := by
      unfold ivBytes
      rw [if_neg (by simp only; omega)]
      simp only
      rw [if_pos (by omega)]
      conv => rhs; rw [← h.buf]
      rw [drop_slice (by omega), Nat.zero_add]
    have hiv1 := ivBytes_file s.conn h.mapped 0 file.length (by omega)
    rw [Int.natCast_zero] at hiv1
    rw [h0, h1, hiv0, Option.bind_some, hiv1, Option.map_some, List.drop_zero,
      List.drop_append_of_le_length (by omega)]
  · obtain ⟨h0, h1⟩ := h.inFile (by omega)
    have hle := h.le
    have hiv0 : s.conn.ivBytes s.conn.iv0 = some [] := by
      rw [ivBytes, if_pos h0]
    have hiv1 := ivBytes_file s.conn h.mapped (sent - head.length)
      (head.length + file.length - sent) (by omega)
    have hhead : head.drop sent = [] := List.drop_of_length_le (by omega)
    rw [hiv0, h1, Option.bind_some, hiv1, Option.map_some, List.drop_append, hhead]

theorem offeredLen_onTrack (h : OnTrack head file sent s) :
    s.conn.offeredLen = head.length + file.length - sent := by
  unfold offeredLen
  rw [h.ivCount]
  simp only
  by_cases hin : sent < head.length
  · obtain ⟨h0, h1⟩ := h.inHead hin
    rw [h0, h1]
    simp only
    omega
  · obtain ⟨h0, h1⟩ := h.inFile (by omega)
    rw [h0, h1, Nat.zero_add]

theorem exact_of_onTrack (h : OnTrack head file sent s) : Exact (head ++ file) s := by
  obtain ⟨chunks, hchunks, hflat⟩ := h.handed
  refine ⟨chunks, (head ++ file).drop sent, hchunks, ?_, offered_onTrack h, ?_⟩
  · rw [hflat, List.take_append_drop]
  · have hle := h.le
    rw [h.finished, List.drop_eq_nil_iff, List.length_append]
    omega

/-! ## One piece -/

/-- Which pieces are possible from a state without a fault. -/
theorem sendStep_wrote {n : ℕ} (h : OnTrack head file sent s)
    (hstep : sendStep s (.wrote n) = some t) :
    1 ≤ n ∧ sent + n ≤ head.length + file.length ∧
      t = { conn := s.conn.advance n
            handed := s.handed ++ [some (((head ++ file).drop sent).take n)]
            finished := (s.conn.advance n).bytesToSend ≤ 0 } := by
  simp only [sendStep] at hstep
  split at hstep <;> cases hstep
  rename_i hn
  have hle := h.le
  rw [offeredLen_onTrack h] at hn
  refine ⟨hn.2.1, by omega, ?_⟩
  rw [offered_onTrack h, Option.map_some]

/-- The counters after a piece. -/
theorem advance_counters {n : ℕ} (h : OnTrack head file sent s)
    (hn : sent + n ≤ head.length + file.length) :
    toInt (s.conn.bytesHaveSend + n) = (sent + n : ℕ) ∧
      toInt (s.conn.bytesToSend - n) = (head.length + file.length - (sent + n) : ℕ) := by
  have hsmall := h.small
  rw [h.have_, h.todo]
  constructor
  · rw [toInt_of_lt] <;> omega
  · rw [toInt_of_lt] <;> omega

/-- The round of the loop takes the branch of the finished head exactly when the bytes sent
before and after it make up a head. -/
theorem advance_eq {n : ℕ} (h : OnTrack head file sent s) (hsent : sent < head.length)
    (hn : sent + n ≤ head.length + file.length) :
    s.conn.advance n =
      if head.length ≤ 2 * sent + n then
        { s.conn with
          bytesHaveSend := (sent + n : ℕ)
          bytesToSend := (head.length + file.length - (sent + n) : ℕ)
          iv0 := ⟨.writeBuf sent, 0⟩
          iv1 := ⟨.file s.conn.fileAddress ((sent + n : ℕ) - (head.length : ℤ)),
            head.length + file.length - (sent + n)⟩ }
      else
        { s.conn with
          bytesHaveSend := (sent + n : ℕ)
          bytesToSend := (head.length + file.length - (sent + n) : ℕ)
          iv0 := ⟨.writeBuf (sent + n), head.length - (sent + n)⟩ } := by
  obtain ⟨hhave, htodo⟩ := advance_counters h hn
  have hsmall := h.small
  obtain ⟨h0, -⟩ := h.inHead hsent
  have hsz : ∀ k : ℕ, k < 2 ^ 31 → toSizeT (k : ℤ) = k := by
    intro k hk
    rw [toSizeT_of_lt, Int.toNat_natCast] <;> omega
  unfold advance
  simp only [hhave, htodo, h0]
  rw [hsz (sent + n) (by omega), hsz (head.length + file.length - (sent + n)) (by omega)]
  -- the code compares `sent + n` with the `head.length - sent` bytes left in `m_iv[0]`
  by_cases hbranch : head.length ≤ 2 * sent + n
  · rw [if_pos (by omega), if_pos hbranch, h.writeIndex]
  · rw [if_neg (by omega), if_neg hbranch]
    have hlen : head.length - sent - n = head.length - (sent + n) := by omega
    rw [hlen]

/-- Past the head every piece is accounted for. -/
theorem advance_file {n : ℕ} (h : OnTrack head file sent s) (hsent : head.length ≤ sent)
    (hn : sent + n ≤ head.length + file.length) :
    s.conn.advance n =
      { s.conn with
        bytesHaveSend := (sent + n : ℕ)
        bytesToSend := (head.length + file.length - (sent + n) : ℕ)
        iv0 := { s.conn.iv0 with iovLen := 0 }
        iv1 := ⟨.file s.conn.fileAddress ((sent + n : ℕ) - (head.length : ℤ)),
          head.length + file.length - (sent + n)⟩ } := by
  obtain ⟨hhave, htodo⟩ := advance_counters h hn
  have hsmall := h.small
  obtain ⟨h0, -⟩ := h.inFile hsent
  have hsz : toSizeT ((head.length + file.length - (sent + n) : ℕ) : ℤ)
      = head.length + file.length - (sent + n) := by
    rw [toSizeT_of_lt, Int.toNat_natCast] <;> omega
  unfold advance
  simp only [hhave, htodo, h0]
  rw [if_pos (Nat.zero_le _), h.writeIndex, hsz]

/-- A piece that leaves the head as it should keeps everything in step. -/
theorem onTrack_wrote {n : ℕ} (h : OnTrack head file sent s)
    (hstep : sendStep s (.wrote n) = some t) (hkeep : KeepsHead s (.wrote n)) :
    OnTrack head file (sent + n) t := by
  obtain ⟨hn, hle, rfl⟩ := sendStep_wrote h hstep
  have hsmall := h.small
  have hhanded : ∃ chunks : List (List UInt8),
      s.handed ++ [some (((head ++ file).drop sent).take n)] = chunks.map some ∧
        chunks.flatten = (head ++ file).take (sent + n) := by
    obtain ⟨chunks, hchunks, hflat⟩ := h.handed
    refine ⟨chunks ++ [((head ++ file).drop sent).take n], ?_, ?_⟩
    · rw [hchunks, List.map_append, List.map_singleton]
    · rw [List.flatten_append, hflat, List.flatten_singleton, List.take_add]
  have hdone : ((head.length + file.length - (sent + n) : ℕ) : ℤ) ≤ 0 ↔
      sent + n = head.length + file.length := by omega
  have hcast : head.length ≤ sent + n →
      ((sent + n : ℕ) : ℤ) - (head.length : ℤ) = (sent + n - head.length : ℕ) := by omega
  have hbuf := h.buf
  have hidx := h.writeIndex
  have hmapped := h.mapped
  have hcount := h.ivCount
  by_cases hin : sent < head.length
  · obtain ⟨-, hiv1⟩ := h.inHead hin
    rw [advance_eq h hin hle]
    by_cases hbranch : head.length ≤ 2 * sent + n
    · rw [if_pos hbranch]
      -- both counts together reach the head, so by `hkeep` the head is finished
      have hpast : head.length ≤ sent + n := by
        by_contra hlt
        have hsum := hkeep (by rw [h.have_, h.writeIndex]; omega)
        rw [h.have_, h.writeIndex] at hsum
        omega
      refine ⟨hbuf, hidx, h.room, hmapped, hcount, hsmall, hle, rfl, rfl, by omega, ?_, hhanded,
        by simpa using hdone⟩
      intro _
      exact ⟨rfl, by rw [hcast hpast]⟩
    · rw [if_neg hbranch]
      refine ⟨hbuf, hidx, h.room, hmapped, hcount, hsmall, hle, rfl, rfl, ?_, by omega, hhanded,
        by simpa using hdone⟩
      intro _
      exact ⟨rfl, hiv1⟩
  · rw [advance_file h (by omega) hle]
    refine ⟨hbuf, hidx, h.room, hmapped, hcount, hsmall, hle, rfl, rfl, by omega, ?_, hhanded,
      by simpa using hdone⟩
    intro hpast
    exact ⟨rfl, by rw [hcast hpast]⟩

/-- In front of a mapping there is nothing of it. -/
theorem mappingRead_neg {offset : ℤ} (h : offset < 0) (n : ℕ) (m : Mapping) :
    Mapping.read offset n m = none := by
  cases m with
  | null => rfl
  | mapFailed => rfl
  | mapped bytes => rw [Mapping.read, if_neg (by omega)]

/-- Any other piece makes the second `iovec` start in front of the mapping. -/
theorem offered_none {n : ℕ} (h : OnTrack head file sent s) (hin : sent + n < head.length)
    (hbranch : head.length ≤ 2 * sent + n) : (s.conn.advance n).offered = none := by
  rw [advance_eq h (by omega) (by omega), if_pos hbranch]
  simp only [offered, h.ivCount, ivBytes, if_true, Option.bind_some, Option.map_eq_none_iff]
  rw [if_neg (by omega)]
  exact mappingRead_neg (by omega) _ _

theorem onTrack_step {r : WriteResult} (h : ∃ sent, OnTrack head file sent s)
    (hstep : sendStep s r = some t) (hkeep : KeepsHead s r) : ∃ sent, OnTrack head file sent t := by
  obtain ⟨sent, h⟩ := h
  cases r with
  | wrote n => exact ⟨sent + n, onTrack_wrote h hstep hkeep⟩
  | failed e =>
    simp only [sendStep] at hstep
    split at hstep <;> cases hstep
    exact ⟨sent, h⟩

theorem keepsHead_of_exact {r : WriteResult} (h : ∃ sent, OnTrack head file sent s)
    (hstep : sendStep s r = some t) (hexact : Exact (head ++ file) t) : KeepsHead s r := by
  obtain ⟨sent, h⟩ := h
  cases r with
  | failed e => trivial
  | wrote n =>
    intro hin
    rw [h.have_, h.writeIndex] at hin ⊢
    by_contra hbranch
    obtain ⟨-, -, rfl⟩ := sendStep_wrote h hstep
    obtain ⟨_, rest, -, -, hoffered, -⟩ := hexact
    -- what is offered then is no memory of the response
    rw [offered_none h (by omega) (by omega)] at hoffered
    cases hoffered

/-! ## The response as `process_write` leaves it -/

/-- `c'` is `c` after some calls of `add_response`. -/
def Composed (c c' : HttpConn) : Prop :=
  ∃ buf index, c' = { c with writeBuf := buf, writeIndex := index } ∧ c.writeIndex ≤ index ∧
    (c.writeIndex ≤ writeBufferSize → index ≤ writeBufferSize)

theorem Composed.trans {c c' c'' : HttpConn} (h : Composed c c') (h' : Composed c' c'') :
    Composed c c'' := by
  obtain ⟨_, index, rfl, hle, hroom⟩ := h
  obtain ⟨buf, index', rfl, hle', hroom'⟩ := h'
  exact ⟨buf, index', rfl, Nat.le_trans hle hle', fun hc => hroom' (hroom hc)⟩

theorem composed_addResponse (c : HttpConn) (text : List UInt8) :
    Composed c (c.addResponse text).2 := by
  unfold addResponse
  split
  · exact ⟨c.writeBuf, c.writeIndex, rfl, Nat.le_refl _, id⟩
  · simp only
    split
    · exact ⟨_, c.writeIndex, rfl, Nat.le_refl _, id⟩
    · refine ⟨_, c.writeIndex + text.length, rfl, Nat.le_add_right _ _, fun _ => ?_⟩
      omega

theorem composed_addHeaders (typeText : List UInt8) (c : HttpConn) (contentLen : ℤ) :
    Composed c (c.addHeaders typeText contentLen) := by
  unfold addHeaders
  have h₁ := composed_addResponse c
    (ascii "Content-Length: " ++ formatInt contentLen ++ ascii "\r\n")
  exact (((h₁.trans (composed_addResponse _ _)).trans (composed_addResponse _ _)).trans
    (composed_addResponse _ _))

/-- The status line of a file response always fits into an empty buffer. -/
theorem addStatusLine_pos (c : HttpConn) :
    0 < (c.addStatusLine 200 ok200Title).2.writeIndex := by
  have hlen : (ascii "HTTP/1.1" ++ ascii " " ++ formatInt 200 ++ ascii " " ++ ok200Title ++
      ascii "\r\n").length = 17 := by decide
  unfold addStatusLine addResponse
  rw [hlen]
  split
  · rename_i hfull
    simp only [writeBufferSize] at hfull
    simp only
    omega
  · simp only
    split
    · rename_i hfull
      simp only [writeBufferSize] at hfull
      simp only
      omega
    · simp only
      omega

/-- What `process_write(FILE_REQUEST)` finds: the file is mapped unless it is empty, nothing of a
response has been sent, and the response fits an `int`. -/
structure FileReady (typeText : List UInt8) (c : HttpConn) (file : List UInt8) : Prop where
  mapped : file ≠ [] → c.fileAddress = .mapped file
  size : c.fileStat.stSize = file.length
  unsent : c.bytesHaveSend = 0
  room : c.writeIndex ≤ writeBufferSize
  small : (sendStart typeText c).conn.writeIndex + file.length < 2 ^ 31

/-- The slot that `process_write(FILE_REQUEST)` leaves: a head that is not empty, and both
`iovec`s. -/
theorem sendStart_conn (typeText : List UInt8) (c : HttpConn) :
    ∃ buf index, (sendStart typeText c).conn =
      { c with
        writeBuf := buf
        writeIndex := index
        iv0 := ⟨.writeBuf 0, index⟩
        iv1 := ⟨.file c.fileAddress 0, toSizeT c.fileStat.stSize⟩
        ivCount := 2
        bytesToSend := toInt (index + c.fileStat.stSize) } ∧
      0 < index ∧ (c.writeIndex ≤ writeBufferSize → index ≤ writeBufferSize) := by
  have hcomposed : Composed c
      ((c.addStatusLine 200 ok200Title).2.addHeaders typeText
        (toInt (c.addStatusLine 200 ok200Title).2.fileStat.stSize)) :=
    (composed_addResponse _ _).trans (composed_addHeaders _ _ _)
  have hpos : 0 < ((c.addStatusLine 200 ok200Title).2.addHeaders typeText
      (toInt (c.addStatusLine 200 ok200Title).2.fileStat.stSize)).writeIndex := by
    obtain ⟨_, _, heq, hle, -⟩ := composed_addHeaders typeText (c.addStatusLine 200 ok200Title).2
      (toInt (c.addStatusLine 200 ok200Title).2.fileStat.stSize)
    rw [heq]
    exact Nat.lt_of_lt_of_le (addStatusLine_pos c) hle
  obtain ⟨buf, index, heq, -, hroom⟩ := hcomposed
  rw [heq] at hpos
  refine ⟨buf, index, ?_, hpos, hroom⟩
  simp only [sendStart, processWrite, offerFile, heq]

theorem onTrack_start {typeText : List UInt8} {c : HttpConn} (h : FileReady typeText c file) :
    OnTrack (sendStart typeText c).conn.head file 0 (sendStart typeText c) := by
  have hsmall := h.small
  -- the head is not empty, so the response is not finished before it begins
  obtain ⟨buf, index, hconn, hpos, hroom⟩ := sendStart_conn typeText c
  rw [hconn] at hsmall
  simp only at hsmall
  have hhead : (sendStart typeText c).conn.head.length = index := by
    rw [head, length_slice, hconn]
  constructor
  case buf => rw [hhead, head, hconn]
  case writeIndex => rw [hhead, hconn]
  case room => rw [hhead]; exact hroom h.room
  case mapped => rw [hconn]; exact h.mapped
  case ivCount => rw [hconn]
  case small => rw [hhead]; exact hsmall
  case le => exact Nat.zero_le _
  case have_ => rw [hconn]; exact h.unsent
  case todo =>
    rw [hhead, hconn]
    show toInt (index + c.fileStat.stSize) = _
    rw [h.size, toInt_of_lt] <;> omega
  case inHead =>
    intro _
    rw [hhead, hconn]
    refine ⟨rfl, ?_⟩
    show Iovec.mk (.file c.fileAddress 0) (toSizeT c.fileStat.stSize) = _
    rw [h.size, toSizeT_of_lt, Int.toNat_natCast] <;> omega
  case inFile =>
    intro hle
    rw [hhead] at hle
    omega
  case handed => exact ⟨[], rfl, rfl⟩
  case finished =>
    rw [hhead]
    simp only [sendStart, Bool.false_eq_true, false_iff]
    omega

/-! ## Whole runs -/

/-- However the kernel cuts the response, every state of the run is exact if and only if each
piece that ends inside the head keeps the bytes sent before and after it together below the
length of the head. -/
theorem response_exact_iff (typeText : List UInt8) (c : HttpConn) (file : List UInt8)
    (h : FileReady typeText c file) (rs : List WriteResult) :
    Machine.Always sendStep (Exact ((sendStart typeText c).conn.head ++ file))
        (sendStart typeText c) rs ↔
      Machine.Along sendStep KeepsHead (sendStart typeText c) rs := by
  apply Machine.always_iff_along
    (K := fun s => ∃ sent, OnTrack (sendStart typeText c).conn.head file sent s)
  · intro s hs
    obtain ⟨sent, hs⟩ := hs
    exact exact_of_onTrack hs
  · intro s r t hs hstep hkeep
    exact onTrack_step hs hstep hkeep
  · intro s r t hs hstep hexact
    exact keepsHead_of_exact hs hstep hexact
  · exact ⟨0, onTrack_start h⟩

/-- A slot about to answer with a mapped file of two bytes; the head it composes has 73. -/
def twoByteFile : HttpConn :=
  { new with fileAddress := .mapped [104, 105], fileStat := ⟨0o100644, 2⟩ }

theorem twoByteFile_ready : FileReady (ascii "0") twoByteFile [104, 105] where
  mapped := fun _ => rfl
  size := rfl
  unsent := rfl
  room := by decide
  small := by decide +kernel

/-- The state after a first piece of 40 bytes. -/
def afterForty : Sending where
  conn := (sendStart (ascii "0") twoByteFile).conn.advance 40
  handed := [(sendStart (ascii "0") twoByteFile).conn.offered.map (List.take 40)]
  finished := false

theorem sendStep_forty :
    sendStep (sendStart (ascii "0") twoByteFile) (.wrote 40) = some afterForty := by
  have hlen : (sendStart (ascii "0") twoByteFile).finished = false ∧ 1 ≤ 40 ∧
      40 ≤ (sendStart (ascii "0") twoByteFile).conn.offeredLen := by decide +kernel
  have htodo : decide (((sendStart (ascii "0") twoByteFile).conn.advance 40).bytesToSend ≤ 0)
      = false := by decide +kernel
  simp only [sendStep, if_pos hlen, htodo]
  rfl

/-- Pieces of 40 and 35 bytes: the second one takes the rest of the head and the file. -/
theorem response_exact_forty_thirtyFive :
    Machine.Always sendStep (Exact ((sendStart (ascii "0") twoByteFile).conn.head ++ [104, 105]))
      (sendStart (ascii "0") twoByteFile) [.wrote 40, .wrote 35] := by
  apply (response_exact_iff (ascii "0") twoByteFile [104, 105] twoByteFile_ready _).mpr
  intro t ht
  rw [sendStep_forty, Option.some.injEq] at ht
  subst ht
  refine ⟨?_, fun u _ => ⟨?_, trivial⟩⟩
  · show (0 : ℤ) + 40 < (sendStart (ascii "0") twoByteFile).conn.writeIndex →
      2 * (0 : ℤ) + 40 < (sendStart (ascii "0") twoByteFile).conn.writeIndex
    omega
  · show afterForty.conn.bytesHaveSend + (35 : ℕ) < afterForty.conn.writeIndex →
      2 * afterForty.conn.bytesHaveSend + (35 : ℕ) < afterForty.conn.writeIndex
    decide +kernel

/-- Pieces of 40 and 10 bytes: 50 is not below the 33 bytes the first `iovec` still has, so the
loop takes the head for sent and offers memory in front of the file. -/
theorem second_short_write_leaves_head :
    ¬ Machine.Always sendStep
      (Exact ((sendStart (ascii "0") twoByteFile).conn.head ++ [104, 105]))
      (sendStart (ascii "0") twoByteFile) [.wrote 40, .wrote 10] := by
  intro h
  have hlen : afterForty.finished = false ∧ 1 ≤ 10 ∧ 10 ≤ afterForty.conn.offeredLen := by
    decide +kernel
  have hstep : sendStep afterForty (.wrote 10) = some
      { conn := afterForty.conn.advance 10
        handed := afterForty.handed ++ [afterForty.conn.offered.map (List.take 10)]
        finished := (afterForty.conn.advance 10).bytesToSend ≤ 0 } := by
    simp only [sendStep, if_pos hlen]
  have hlast := (h.2 _ sendStep_forty).2 _ hstep
  obtain ⟨_, rest, -, -, hoffered, -⟩ := hlast
  have hnone : (afterForty.conn.advance 10).offered = none := by decide +kernel
  rw [hnone] at hoffered
  cases hoffered

end HttpConn
end Webservers
