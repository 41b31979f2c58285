import Webservers.Buffer.Basic

/-!
# `Buffer` is a queue of bytes

The abstract side is a `List UInt8` with the front at the head: `QueueStep` says what each
call may do to it and what it may return. The faithful side keeps `WellFormed`, and
`content` relates the two. `step_refines` is the simulation square, one lemma per operation
below it; `run_refines` closes it over runs.
-/

namespace Webservers
namespace Buffer

/-! ## The invariant and the abstraction -/

/-- `kCheapPrepend ≤ readerIndex_ ≤ writerIndex_ ≤ buffer_.size()`, the vector within its
`max_size`. -/
structure WellFormed (b : Buffer) : Prop where
  prepend : kCheapPrepend ≤ b.readerIndex
  ordered : b.readerIndex ≤ b.writerIndex
  inside : b.writerIndex ≤ b.buffer.length
  sized : b.buffer.length ≤ maxSize

/-- The bytes in `[readerIndex_, writerIndex_)`. -/
def content (b : Buffer) : List UInt8 := b.peek b.readableBytes

/-- The queue behind the buffer: what a call returning `r` may turn `q` into. A call that
throws leaves the queue alone, except that `readFd` has by then taken over what fitted into
the vector. -/
def QueueStep (q : List UInt8) : Op → Result → List UInt8 → Prop
  | .append data, r, q' => (r = .done ∧ q' = q ++ data) ∨ (r = .threw ∧ q' = q)
  | .ensureWritableBytes _, r, q' => (r = .done ∨ r = .threw) ∧ q' = q
  | .retrieve len, r, q' => r = .done ∧ q' = q.drop (min len q.length)
  | .retrieveAll, r, q' => r = .done ∧ q' = []
  | .retrieveAllAsString, r, q' => r = .str q ∧ q' = []
  | .retrieveAsString len, r, q' => r = .str (q.take len) ∧ q' = q.drop len
  | .writeFd (.failed e), r, q' => r = .failed e ∧ q' = q
  | .writeFd (.wrote n), r, q' => r = .count n ∧ q' = q
  | .readFd (.failed e), r, q' => r = .failed e ∧ q' = q
  | .readFd (.got data), r, q' =>
    (r = .count data.length ∧ q' = q ++ data) ∨
      (r = .threw ∧ ∃ n < data.length, q' = q ++ data.take n)

/-- A sequence of `QueueStep`s. -/
inductive QueueRun : List UInt8 → List Op → List Result → List UInt8 → Prop
  | nil (q) : QueueRun q [] [] q
  | cons {q q' q'' op ops r rs} :
      QueueStep q op r q' → QueueRun q' ops rs q'' → QueueRun q (op :: ops) (r :: rs) q''

theorem content_eq (b : Buffer) :
    b.content = (b.buffer.drop b.readerIndex).take (b.writerIndex - b.readerIndex) := rfl

theorem WellFormed.length_content {b : Buffer} (hb : b.WellFormed) :
    b.content.length = b.readableBytes := by
  have h := hb.inside
  simp only [content_eq, readableBytes, List.length_take, List.length_drop]
  omega

theorem new_wellFormed {initialSize : ℕ} (h : kCheapPrepend + initialSize ≤ maxSize) :
    (new initialSize).WellFormed where
  prepend := Nat.le_refl _
  ordered := Nat.le_refl _
  inside := by simp [new]
  sized := by simpa [new] using h

@[simp] theorem content_new (initialSize : ℕ) : (new initialSize).content = [] := by
  simp [content_eq, new]

/-! ## Making space -/

/-- The buffer that the `else` branch of `makeSpace` leaves. -/
def slide (b : Buffer) : Buffer where
  buffer := copyForward b.buffer b.readerIndex kCheapPrepend b.readableBytes
  readerIndex := kCheapPrepend
  writerIndex := kCheapPrepend + b.readableBytes

/-- What `ensureWritableBytes(len)` can do, one constructor for each way through it. In the last
two a `size_t` sum has wrapped: `len + kCheapPrepend`, or `writerIndex_ + len` alone. -/
inductive Reservation (b : Buffer) (len : ℕ) : Option Buffer → Prop
  | enough (hroom : len ≤ b.writableBytes) : Reservation b len (some b)
  | threw (hshort : b.writableBytes < len)
      (hfront : b.writableBytes + b.readerIndex < len + kCheapPrepend)
      (hwrap : b.writerIndex + len < 2 ^ 64) (hmax : maxSize < b.writerIndex + len) :
      Reservation b len none
  | grew (hshort : b.writableBytes < len)
      (hfront : b.writableBytes + b.readerIndex < len + kCheapPrepend)
      (hmax : b.writerIndex + len ≤ maxSize) :
      Reservation b len
        (some { b with buffer := b.buffer ++ List.replicate (len - b.writableBytes) 0 })
  | slid (hshort : b.writableBytes < len)
      (hfront : len + kCheapPrepend ≤ b.writableBytes + b.readerIndex) :
      Reservation b len (some b.slide)
  | slidWrapped (hwrap : 2 ^ 64 ≤ len + kCheapPrepend) : Reservation b len (some b.slide)
  | shrank {size : ℕ} (hfront : len + kCheapPrepend < 2 ^ 64)
      (hsize : b.writerIndex + len = 2 ^ 64 + size) :
      Reservation b len (some { b with buffer := b.buffer.take size })

/-- Every call with a `len` that a `size_t` can hold. -/
theorem ensureWritableBytes_reservation {b : Buffer} (hb : b.WellFormed) {len : ℕ}
    (hlen : len < 2 ^ 64) : Reservation b len (b.ensureWritableBytes len) := by
  obtain ⟨hp, ho, hi, hs⟩ := hb
  have hcheap : kCheapPrepend = 8 := rfl
  have hmaxSize : maxSize = 2 ^ 63 - 1 := rfl
  have hwritable : b.writableBytes = b.buffer.length - b.writerIndex := rfl
  have hfree : b.writableBytes + b.prependableBytes = b.writableBytes + b.readerIndex := rfl
  unfold ensureWritableBytes
  split
  case isFalse h => exact .enough (by omega)
  case isTrue hshort =>
    unfold makeSpace
    rw [hfree, Nat.mod_eq_of_lt (by omega)]
    by_cases hfront : len + kCheapPrepend < 2 ^ 64
    · rw [Nat.mod_eq_of_lt hfront]
      split
      case isFalse hroom => exact .slid hshort (by omega)
      -- too little even with the room in front of the readable bytes: the vector is resized
      case isTrue hgrow =>
        by_cases hwrap : b.writerIndex + len < 2 ^ 64
        · rw [Nat.mod_eq_of_lt hwrap]
          unfold resize
          split
          case isTrue hmax => exact .threw hshort hgrow hwrap hmax
          case isFalse hmax =>
            rw [List.take_of_length_le (by omega), Option.map_some]
            have hmore : b.writerIndex + len - b.buffer.length = len - b.writableBytes := by
              omega
            rw [hmore]
            exact .grew hshort hgrow (by omega)
        · obtain ⟨size, hsize⟩ := Nat.exists_eq_add_of_le (Nat.le_of_not_lt hwrap)
          rw [hsize, Nat.add_mod_left, Nat.mod_eq_of_lt (by omega)]
          unfold resize
          rw [if_neg (by omega), Option.map_some, Nat.sub_eq_zero_of_le (by omega),
            List.replicate_zero, List.append_nil]
          exact .shrank hfront hsize
    -- the wrapped sum is below `kCheapPrepend`, hence below `readerIndex_`
    · rw [if_neg (by omega)]
      exact .slidWrapped (by omega)

theorem length_slide {b : Buffer} (hb : b.WellFormed) :
    b.slide.buffer.length = b.buffer.length := by
  have ho := hb.ordered
  have hi := hb.inside
  rw [slide, copyForward_eq _ _ _ _ hb.prepend (by simp only [readableBytes]; omega),
    length_storeList]

theorem writableBytes_slide {b : Buffer} (hb : b.WellFormed) :
    b.slide.writableBytes + kCheapPrepend = b.writableBytes + b.readerIndex := by
  have hp := hb.prepend
  have ho := hb.ordered
  have hi := hb.inside
  rw [writableBytes, length_slide hb]
  simp only [slide, writableBytes, readableBytes]
  omega

theorem slide_wellFormed {b : Buffer} (hb : b.WellFormed) : b.slide.WellFormed where
  prepend := Nat.le_refl _
  ordered := Nat.le_add_right _ _
  inside := by
    have hp := hb.prepend
    have ho := hb.ordered
    have hi := hb.inside
    rw [length_slide hb]
    simp only [slide, readableBytes]
    omega
  sized := by
    rw [length_slide hb]
    exact hb.sized

/-- Sliding the readable bytes down to `kCheapPrepend` keeps them. -/
theorem content_slide {b : Buffer} (hb : b.WellFormed) : b.slide.content = b.content := by
  have hp := hb.prepend
  have ho := hb.ordered
  have hi := hb.inside
  have hlen := hb.length_content
  have hle : b.readerIndex + b.readableBytes ≤ b.buffer.length := by
    simp only [readableBytes]
    omega
  have hcopy : copyForward b.buffer b.readerIndex kCheapPrepend b.readableBytes
      = b.buffer.take kCheapPrepend ++ b.content
        ++ b.buffer.drop (kCheapPrepend + b.content.length) := by
    rw [copyForward_eq _ _ _ _ hp hle]
    exact storeList_eq _ _ b.content (by omega)
  have htake : (b.buffer.take kCheapPrepend).length = kCheapPrepend := by
    rw [List.length_take]
    omega
  rw [content_eq]
  simp only [slide, Nat.add_sub_cancel_left]
  rw [hcopy, List.append_assoc, List.drop_append, htake, Nat.sub_self,
    List.drop_of_length_le (by omega), List.nil_append, List.drop_zero, ← hlen,
    List.take_left]

/-- Zeros behind the vector leave the readable bytes alone. -/
theorem content_grow {b : Buffer} (hb : b.WellFormed) (zeros : List UInt8) :
    content { b with buffer := b.buffer ++ zeros } = b.content := by
  have ho := hb.ordered
  have hi := hb.inside
  simp only [content_eq]
  rw [List.drop_append_of_le_length (by omega),
    List.take_append_of_le_length (by rw [List.length_drop]; omega)]

/-- A vector resized to hold `len` bytes behind `writerIndex_`. -/
theorem grow_wellFormed {b : Buffer} (hb : b.WellFormed) {len : ℕ}
    (hshort : b.writableBytes < len) (hmax : b.writerIndex + len ≤ maxSize) :
    WellFormed { b with buffer := b.buffer ++ List.replicate (len - b.writableBytes) 0 } where
  prepend := hb.prepend
  ordered := hb.ordered
  inside := by
    rw [List.length_append]
    exact Nat.le_add_right_of_le hb.inside
  sized := by
    have hi := hb.inside
    simp only [writableBytes] at hshort ⊢
    rw [List.length_append, List.length_replicate]
    omega

/-- `ensureWritableBytes` either throws, which takes a vector beyond `max_size`, or returns
with room for `len` bytes, the same content and no smaller vector. -/
theorem ensureWritableBytes_spec {b : Buffer} (hb : b.WellFormed) {len : ℕ}
    (hwrap : b.writerIndex + len < 2 ^ 64) :
    (b.ensureWritableBytes len = none ∧ maxSize < b.writerIndex + len) ∨
      ∃ b', b.ensureWritableBytes len = some b' ∧ b'.WellFormed ∧ b'.content = b.content ∧
        len ≤ b'.writableBytes ∧ b.buffer.length ≤ b'.buffer.length := by
  have hp := hb.prepend
  have hi := hb.inside
  have hres := ensureWritableBytes_reservation hb (show len < 2 ^ 64 by omega)
  generalize b.ensureWritableBytes len = r at hres
  cases hres with
  | enough hroom => exact Or.inr ⟨b, rfl, hb, rfl, hroom, Nat.le_refl _⟩
  | threw _ _ _ hmax => exact Or.inl ⟨rfl, hmax⟩
  | grew hshort hfront hmax =>
    refine Or.inr ⟨_, rfl, grow_wellFormed hb hshort hmax, content_grow hb _, ?_, ?_⟩
    · simp only [writableBytes, List.length_append, List.length_replicate]
      omega
    · rw [List.length_append]
      omega
  | slid hshort hfront =>
    have hroom := writableBytes_slide hb
    refine Or.inr ⟨_, rfl, slide_wellFormed hb, content_slide hb, by omega, ?_⟩
    exact Nat.le_of_eq (length_slide hb).symm
  | slidWrapped hbad =>
    have ho := hb.ordered
    omega
  | shrank hfront hsize => omega

/-- Writing at `beginWrite()` and moving `writerIndex_` puts the bytes at the back. -/
theorem content_store {b : Buffer} (hb : b.WellFormed) (data : List UInt8)
    (hroom : data.length ≤ b.writableBytes) :
    let b' : Buffer :=
      { b with
        buffer := storeList b.buffer b.writerIndex data
        writerIndex := b.writerIndex + data.length }
    b'.WellFormed ∧ b'.content = b.content ++ data := by
  obtain ⟨hp, ho, hi, hs⟩ := hb
  simp only [writableBytes] at hroom
  have hfit : b.writerIndex + data.length ≤ b.buffer.length := by omega
  refine ⟨⟨hp, Nat.le_add_right_of_le ho, by simpa using hfit, by simpa using hs⟩, ?_⟩
  simp only [content_eq]
  have htake : (b.buffer.take b.writerIndex).length = b.writerIndex := by
    rw [List.length_take]
    omega
  have hold : ((b.buffer.take b.writerIndex).drop b.readerIndex).length
      = b.writerIndex - b.readerIndex := by
    rw [List.length_drop, htake]
  have hnew : b.writerIndex + data.length - b.readerIndex
      = ((b.buffer.take b.writerIndex).drop b.readerIndex ++ data).length := by
    rw [List.length_append, hold]
    omega
  rw [storeList_eq _ _ _ hfit, List.append_assoc,
    List.drop_append_of_le_length (by omega), ← List.append_assoc, hnew, List.take_left,
    List.drop_take]

theorem append_spec {b : Buffer} (hb : b.WellFormed) (data : List UInt8)
    (hwrap : b.writerIndex + data.length < 2 ^ 64) :
    (b.append data = none ∧ maxSize < b.writerIndex + data.length) ∨
      ∃ b', b.append data = some b' ∧ b'.WellFormed ∧ b'.content = b.content ++ data := by
  unfold append
  rcases ensureWritableBytes_spec hb hwrap with
    ⟨hnone, hmax⟩ | ⟨b', hsome, hwf, hcont, hroom, -⟩
  · exact Or.inl ⟨by rw [hnone]; rfl, hmax⟩
  · obtain ⟨hwf', hcont'⟩ := content_store hwf data hroom
    refine Or.inr ⟨_, by rw [hsome]; rfl, hwf', ?_⟩
    rw [hcont', hcont]

/-! ## Taking bytes out -/

theorem retrieveAll_spec {b : Buffer} (hb : b.WellFormed) :
    b.retrieveAll.WellFormed ∧ b.retrieveAll.content = [] := by
  obtain ⟨hp, ho, hi, hs⟩ := hb
  refine ⟨⟨Nat.le_refl _, Nat.le_refl _, ?_, hs⟩, by simp [content_eq, retrieveAll]⟩
  simp only [retrieveAll]
  omega

theorem retrieve_spec {b : Buffer} (hb : b.WellFormed) (len : ℕ) :
    (b.retrieve len).WellFormed ∧ (b.retrieve len).content = b.content.drop len := by
  have hlen := hb.length_content
  unfold retrieve
  split
  case isTrue h =>
    obtain ⟨hp, ho, hi, hs⟩ := hb
    simp only [readableBytes] at h
    refine ⟨⟨by simp only; omega, by simp only; omega, hi, hs⟩, ?_⟩
    simp only [content_eq]
    rw [List.drop_take, List.drop_drop, Nat.sub_add_eq]
  -- everything is taken out, and the indices go back to the start
  case isFalse h =>
    obtain ⟨hwf, hnil⟩ := retrieveAll_spec hb
    exact ⟨hwf, by rw [hnil, List.drop_of_length_le (by omega)]⟩

theorem retrieveAllAsString_spec {b : Buffer} (hb : b.WellFormed) :
    b.retrieveAllAsString.1 = b.content ∧ b.retrieveAllAsString.2.WellFormed ∧
      b.retrieveAllAsString.2.content = [] := by
  obtain ⟨hwf, hcont⟩ := retrieve_spec hb b.readableBytes
  refine ⟨rfl, hwf, ?_⟩
  rw [← hb.length_content, List.drop_length] at hcont
  rw [hb.length_content] at hcont
  exact hcont

theorem retrieveAsString_spec {b : Buffer} (hb : b.WellFormed) {len : ℕ}
    (hlen : len ≤ b.readableBytes) :
    (b.retrieveAsString len).1 = b.content.take len ∧ (b.retrieveAsString len).2.WellFormed ∧
      (b.retrieveAsString len).2.content = b.content.drop len := by
  obtain ⟨hwf, hcont⟩ := retrieve_spec hb len
  refine ⟨?_, hwf, hcont⟩
  simp only [retrieveAsString, peek, content, List.take_take]
  rw [Nat.min_eq_left hlen]

/-! ## Reading from a descriptor -/

/-- The part of `data` that fits is taken over by raising `writerIndex_`, the rest goes
through `append`. -/
theorem readFd_spec {b : Buffer} (hb : b.WellFormed) (data : List UInt8)
    (hwrap : b.writerIndex + data.length < 2 ^ 64) :
    (b.readFd (.got data)).1.WellFormed ∧
      (((b.readFd (.got data)).2 = .count data.length ∧
          (b.readFd (.got data)).1.content = b.content ++ data) ∨
        ((b.readFd (.got data)).2 = .threw ∧ maxSize < b.writerIndex + data.length ∧
          ∃ n < data.length, (b.readFd (.got data)).1.content = b.content ++ data.take n)) := by
  simp only [readFd]
  split
  case isTrue hfit =>
    obtain ⟨hwf, hcont⟩ := content_store hb data hfit
    rw [List.take_of_length_le hfit]
    exact ⟨hwf, Or.inl ⟨rfl, hcont⟩⟩
  -- `vec[0]` is full and the rest has landed in `extrabuf`
  case isFalse hover =>
    have htake : (data.take b.writableBytes).length = b.writableBytes := by
      rw [List.length_take]
      omega
    obtain ⟨hwf, hcont⟩ := content_store hb (data.take b.writableBytes) (by omega)
    have hend : b.writerIndex + (data.take b.writableBytes).length
        = (storeList b.buffer b.writerIndex (data.take b.writableBytes)).length := by
      have hi := hb.inside
      rw [htake, length_storeList]
      simp only [writableBytes]
      omega
    rw [hend] at hwf hcont
    have hsum : b.buffer.length + (data.drop b.writableBytes).length
        = b.writerIndex + data.length := by
      have hi := hb.inside
      rw [List.length_drop]
      simp only [writableBytes] at hover ⊢
      omega
    rw [← hsum] at hwrap ⊢
    rcases append_spec hwf (data.drop b.writableBytes)
      (by simpa only [length_storeList] using hwrap) with ⟨hnone, hmax⟩ | ⟨b', hsome, hwf', hcont'⟩
    · rw [hnone]
      simp only [length_storeList] at hmax
      exact ⟨hwf, Or.inr ⟨rfl, hmax, b.writableBytes, by omega, hcont⟩⟩
    · rw [hsome]
      refine ⟨hwf', Or.inl ⟨rfl, ?_⟩⟩
      rw [hcont', hcont, List.append_assoc, List.take_append_drop]

/-! ## The simulation -/

/-- One call: the invariant is kept, the queue makes the same step, and only a vector
beyond `max_size` throws. -/
theorem step_refines {b : Buffer} (hb : b.WellFormed) {op : Op} (hallowed : op.Allowed b)
    (hwrap : op.NoWrap b) :
    (b.step op).1.WellFormed ∧ QueueStep b.content op (b.step op).2 (b.step op).1.content ∧
      ((b.step op).2 = .threw → maxSize < b.buffer.length + op.demand) := by
  have hi := hb.inside
  unfold Op.NoWrap at hwrap
  cases op with
  | append data =>
    simp only [Op.demand] at hwrap ⊢
    rcases append_spec hb data (by omega) with ⟨hnone, hmax⟩ | ⟨b', hsome, hwf, hcont⟩
    · simp only [step, hnone, orThrew]
      exact ⟨hb, Or.inr ⟨rfl, rfl⟩, fun _ => by omega⟩
    · simp only [step, hsome, orThrew]
      exact ⟨hwf, Or.inl ⟨rfl, hcont⟩, fun h => by cases h⟩
  | ensureWritableBytes len =>
    simp only [Op.demand] at hwrap ⊢
    rcases ensureWritableBytes_spec hb (show b.writerIndex + len < 2 ^ 64 by omega) with
      ⟨hnone, hmax⟩ | ⟨b', hsome, hwf, hcont, -⟩
    · simp only [step, hnone, orThrew]
      exact ⟨hb, ⟨Or.inr rfl, rfl⟩, fun _ => by omega⟩
    · simp only [step, hsome, orThrew]
      exact ⟨hwf, ⟨Or.inl rfl, hcont⟩, fun h => by cases h⟩
  | retrieve len =>
    obtain ⟨hwf, hcont⟩ := retrieve_spec hb len
    refine ⟨hwf, ⟨rfl, ?_⟩, fun h => by cases h⟩
    simp only [step, hcont]
    rcases Nat.le_total len b.content.length with h | h
    · rw [Nat.min_eq_left h]
    · rw [Nat.min_eq_right h, List.drop_length, List.drop_of_length_le h]
  | retrieveAll =>
    obtain ⟨hwf, hcont⟩ := retrieveAll_spec hb
    exact ⟨hwf, ⟨rfl, hcont⟩, fun h => by cases h⟩
  | retrieveAllAsString =>
    obtain ⟨hstr, hwf, hcont⟩ := retrieveAllAsString_spec hb
    exact ⟨hwf, ⟨by simp only [step, hstr], hcont⟩, fun h => by cases h⟩
  | retrieveAsString len =>
    obtain ⟨hstr, hwf, hcont⟩ := retrieveAsString_spec hb hallowed
    exact ⟨hwf, ⟨by simp only [step, hstr], hcont⟩, fun h => by cases h⟩
  | writeFd r =>
    cases r with
    | failed e => exact ⟨hb, ⟨rfl, rfl⟩, fun h => by cases h⟩
    | wrote n => exact ⟨hb, ⟨rfl, rfl⟩, fun h => by cases h⟩
  | readFd r =>
    cases r with
    | failed e => exact ⟨hb, ⟨rfl, rfl⟩, fun h => by cases h⟩
    | got data =>
      simp only [Op.demand] at hwrap ⊢
      obtain ⟨hwf, ⟨hres, hcont⟩ | ⟨hres, hmax, hcont⟩⟩ := readFd_spec hb data (by omega)
      · refine ⟨hwf, Or.inl ⟨hres, hcont⟩, fun h => ?_⟩
        simp only [step, hres] at h
        cases h
      · exact ⟨hwf, Or.inr ⟨hres, hcont⟩, fun _ => by omega⟩

/-- A run keeps the invariant and is a run of the queue; within `max_size` nothing throws. -/
theorem run_refines {b : Buffer} (hb : b.WellFormed) {ops : List Op} (h : Admissible b ops) :
    (b.run ops).1.WellFormed ∧ QueueRun b.content ops (b.run ops).2 (b.run ops).1.content ∧
      (Fits b ops → Result.threw ∉ (b.run ops).2) := by
  induction ops generalizing b with
  | nil => exact ⟨hb, .nil _, by simp [run]⟩
  | cons op ops ih =>
    obtain ⟨hallowed, hwrap, hrest⟩ := h
    obtain ⟨hwf, hq, hthrow⟩ := step_refines hb hallowed hwrap
    obtain ⟨hwf', hq', hthrow'⟩ := ih hwf hrest
    refine ⟨hwf', .cons hq hq', fun hfits => ?_⟩
    -- a call that throws asked for more than `Fits` grants
    have hhead : (b.step op).2 ≠ .threw := fun hbad => by
      have := hthrow hbad
      have := hfits.1
      omega
    rw [run, List.mem_cons, not_or]
    exact ⟨fun hbad => hhead hbad.symm, hthrow' hfits.2⟩

/-- `Buffer` refines a FIFO queue of bytes over every run from the constructor: the indices
stay ordered, every call does to the readable bytes what it does to the queue and returns
what the queue returns, and no call throws while the vector stays within `max_size`. -/
theorem buffer_refines_queue (initialSize : ℕ) (hnew : kCheapPrepend + initialSize ≤ maxSize)
    (ops : List Op) (hops : Admissible (new initialSize) ops) :
    ((new initialSize).run ops).1.WellFormed ∧
      QueueRun [] ops ((new initialSize).run ops).2 ((new initialSize).run ops).1.content ∧
      (Fits (new initialSize) ops → Result.threw ∉ ((new initialSize).run ops).2) := by
  have h := run_refines (new_wellFormed hnew) hops
  rwa [content_new] at h

/-- A buffer of two bytes filled, read past its end, drained in part and slid. -/
theorem buffer_refines_queue_two :
    ((new 2).run [.append [1, 2], .readFd (.got [3, 4, 5]), .retrieveAsString 4, .append [6, 7],
      .retrieveAllAsString]).2 = [.done, .count 3, .str [1, 2, 3, 4], .done, .str [5, 6, 7]] ∧
    QueueRun [] [.append [1, 2], .readFd (.got [3, 4, 5]), .retrieveAsString 4, .append [6, 7],
      .retrieveAllAsString]
      [.done, .count 3, .str [1, 2, 3, 4], .done, .str [5, 6, 7]] [] := by
  have hops : Admissible (new 2) [.append [1, 2], .readFd (.got [3, 4, 5]),
      .retrieveAsString 4, .append [6, 7], .retrieveAllAsString] := by
    simp only [Admissible, Op.NoWrap, and_true]
    decide +kernel
  have h := (buffer_refines_queue 2 (by decide) _ hops).2.1
  exact ⟨by decide +kernel, h⟩

end Buffer
end Webservers
