import Webservers.Buffer.Theorems
import Webservers.Lib.Machine

/-!
# How much space a `Buffer` reserves

All growth goes through `ensureWritableBytes`: called on its own, from `append`, or from the
`append` inside `readFd`. `Op.reserves` names that call for each operation, and the results are
about runs of operations with any arguments a `size_t` can hold.

* A reservation is safe exactly when `writerIndex_ + len` does not wrap: beyond that the vector
  is not grown, or is cut below `writerIndex_`.
* Without a wrap the vector stays within twice the demand, although `makeSpace` does not reclaim
  the consumed front before it grows: it grows only while that front is shorter than `len`.
-/

namespace Webservers
namespace Buffer

/-! ## Runs -/

/-- Sizes are `size_t`, and the kernel takes and returns at most what it was offered. -/
def Op.Possible (b : Buffer) : Op → Prop
  | .append data => data.length < 2 ^ 64
  | .ensureWritableBytes len | .retrieve len | .retrieveAsString len => len < 2 ^ 64
  | .writeFd r => r.Within b.readableBytes
  | .readFd (.got data) => data.length ≤ b.offered
  | .readFd (.failed _) | .retrieveAll | .retrieveAllAsString => True

instance (b : Buffer) : DecidablePred (Op.Possible b)
  | .append data => inferInstanceAs (Decidable (data.length < 2 ^ 64))
  | .ensureWritableBytes len | .retrieve len | .retrieveAsString len =>
    inferInstanceAs (Decidable (len < 2 ^ 64))
  | .writeFd r => inferInstanceAs (Decidable (r.Within b.readableBytes))
  | .readFd (.got data) => inferInstanceAs (Decidable (data.length ≤ b.offered))
  | .readFd (.failed _) | .retrieveAll | .retrieveAllAsString => inferInstanceAs (Decidable True)

def spaceStep (b : Buffer) (op : Op) : Option Buffer :=
  if op.Possible b then some (b.step op).1 else none

/-- The vector filled to its end by `readv`, on which `readFd` calls `append`. -/
def full (b : Buffer) (data : List UInt8) : Buffer :=
  let filled := { b with buffer := storeList b.buffer b.writerIndex (data.take b.writableBytes) }
  { filled with writerIndex := filled.buffer.length }

/-- The call of `ensureWritableBytes` that an operation makes: on which buffer, for how many
bytes. -/
def Op.reserves (b : Buffer) : Op → Option (Buffer × ℕ)
  | .append data => some (b, data.length)
  | .ensureWritableBytes len => some (b, len)
  | .readFd (.got data) =>
    if data.length ≤ b.writableBytes then none
    else some (b.full data, (data.drop b.writableBytes).length)
  | _ => none

/-- What is promised of one call of `ensureWritableBytes`: it throws and changes nothing, or it
returns with the room asked for, the indices in order, the readable bytes as they were and the
vector no smaller. -/
def Reserves (b : Buffer) (len : ℕ) : Prop :=
  b.step (.ensureWritableBytes len) = (b, .threw) ∨
    ∃ b', b.step (.ensureWritableBytes len) = (b', .done) ∧ len ≤ b'.writableBytes ∧
      kCheapPrepend ≤ b'.readerIndex ∧ b'.readerIndex ≤ b'.writerIndex ∧
      b'.writerIndex ≤ b'.buffer.length ∧ b'.content = b.content ∧
      b.buffer.length ≤ b'.buffer.length

/-- Every reservation of the operation keeps that promise. -/
def Op.ReservesSafely (b : Buffer) (op : Op) : Prop := ∀ r ∈ op.reserves b, r.1.Reserves r.2

/-- `writerIndex_ + len` is a `size_t`. -/
def Op.SumFits (b : Buffer) (op : Op) : Prop := ∀ r ∈ op.reserves b, r.1.writerIndex + r.2 < 2 ^ 64

instance (b : Buffer) (op : Op) : Decidable (op.SumFits b) :=
  inferInstanceAs (Decidable (∀ r ∈ op.reserves b, r.1.writerIndex + r.2 < 2 ^ 64))

/-! ## One reservation -/

/-- On a well-formed buffer the promise is kept exactly when the sum does not wrap. -/
theorem reserves_iff {b : Buffer} (hb : b.WellFormed) {len : ℕ} (hlen : len < 2 ^ 64) :
    b.Reserves len ↔ b.writerIndex + len < 2 ^ 64 := by
  have hp := hb.prepend
  have ho := hb.ordered
  have hi := hb.inside
  have hs := hb.sized
  have hmaxSize : maxSize = 2 ^ 63 - 1 := rfl
  simp only [Reserves, step]
  constructor
  · intro h
    by_contra hwrap
    have hres := ensureWritableBytes_reservation hb hlen
    generalize b.ensureWritableBytes len = r at h hres
    cases hres with
    | enough hroom =>
      simp only [writableBytes] at hroom
      omega
    | threw _ _ hno _ => omega
    | grew _ _ hmax => omega
    | slid _ hfront =>
      simp only [writableBytes] at hfront
      omega
    -- the readable bytes were moved, and the room in front is all that was gained
    | slidWrapped hfront =>
      simp only [orThrew, Prod.mk.injEq, reduceCtorEq, and_false, and_true, false_or] at h
      obtain ⟨b', hb', hroom, -⟩ := h
      have hslide := writableBytes_slide hb
      rw [← hb'] at hroom
      simp only [writableBytes] at hslide hroom
      omega
    -- the vector ends below `writerIndex_`
    | shrank hfront hsize =>
      simp only [orThrew, Prod.mk.injEq, reduceCtorEq, and_false, and_true, false_or] at h
      obtain ⟨b', hb', -, -, -, -, -, hgrown⟩ := h
      rw [← hb', List.length_take] at hgrown
      omega
  · intro hwrap
    rcases ensureWritableBytes_spec hb hwrap with
      ⟨hnone, -⟩ | ⟨b', hsome, hwf, hcont, hroom, hgrown⟩
    · exact Or.inl (by rw [hnone]; rfl)
    · exact Or.inr ⟨b', by rw [hsome]; rfl, hroom, hwf.prepend, hwf.ordered, hwf.inside, hcont,
        hgrown⟩

/-! ## One operation -/

theorem full_wellFormed {b : Buffer} (hb : b.WellFormed) {data : List UInt8}
    (hover : b.writableBytes < data.length) : (b.full data).WellFormed := by
  have hi := hb.inside
  have htake : (data.take b.writableBytes).length = b.writableBytes := by
    rw [List.length_take]
    omega
  have hend : b.writerIndex + (data.take b.writableBytes).length
      = (storeList b.buffer b.writerIndex (data.take b.writableBytes)).length := by
    rw [htake, length_storeList]
    simp only [writableBytes]
    omega
  have hwf := (content_store hb (data.take b.writableBytes) (by omega)).1
  rw [hend] at hwf
  exact hwf

theorem offered_le (b : Buffer) : b.offered ≤ b.writableBytes + extrabufSize := by
  unfold offered
  split <;> omega

/-- What a reservation is made on and asks for: a well-formed buffer with the same vector size,
and a number of bytes within `size_t`. -/
theorem reserves_of_possible {b : Buffer} (hb : b.WellFormed) {op : Op} (hop : op.Possible b)
    {r : Buffer × ℕ} (hr : r ∈ op.reserves b) :
    r.1.WellFormed ∧ r.1.buffer.length = b.buffer.length ∧ r.2 < 2 ^ 64 := by
  have hs := hb.sized
  have hmaxSize : maxSize = 2 ^ 63 - 1 := rfl
  have hextra : extrabufSize = 65536 := rfl
  cases op with
  | append data =>
    cases hr
    exact ⟨hb, rfl, hop⟩
  | ensureWritableBytes len =>
    cases hr
    exact ⟨hb, rfl, hop⟩
  | readFd answer =>
    cases answer with
    | failed e => cases hr
    | got data =>
      simp only [Op.reserves] at hr
      split at hr
      · cases hr
      · rename_i hover
        cases hr
        have hoffered : data.length ≤ b.writableBytes + extrabufSize :=
          Nat.le_trans hop (offered_le b)
        refine ⟨full_wellFormed hb (by omega), length_storeList _ _ _, ?_⟩
        simp only [List.length_drop]
        omega
  | retrieve | retrieveAll | retrieveAllAsString | retrieveAsString | writeFd => cases hr

/-- The vector after a call of `ensureWritableBytes`, thrown out of or not. -/
def sizeAfter (b : Buffer) (len : ℕ) : ℕ := ((b.ensureWritableBytes len).getD b).buffer.length

theorem length_getD_append (b : Buffer) (data : List UInt8) :
    ((b.append data).getD b).buffer.length = b.sizeAfter data.length := by
  unfold append sizeAfter
  cases b.ensureWritableBytes data.length with
  | none => rfl
  | some b' => simp only [Option.map_some, Option.getD_some, length_storeList]

theorem orThrew_fst (b : Buffer) (r : Option Buffer) : (b.orThrew r).1 = r.getD b := by
  cases r <;> rfl

/-- The size of the vector changes through the operation's reservation only. -/
theorem length_step (b : Buffer) (op : Op) :
    (b.step op).1.buffer.length =
      ((op.reserves b).map fun r => r.1.sizeAfter r.2).getD b.buffer.length := by
  cases op with
  | append data =>
    simp only [step, orThrew_fst]
    exact length_getD_append b data
  | ensureWritableBytes len =>
    simp only [step, orThrew_fst]
    rfl
  | retrieve len =>
    simp only [step, retrieve, retrieveAll]
    split <;> rfl
  | retrieveAll => rfl
  | retrieveAllAsString =>
    simp only [step, retrieveAllAsString, retrieveAsString, retrieve, retrieveAll]
    split <;> rfl
  | retrieveAsString len =>
    simp only [step, retrieveAsString, retrieve, retrieveAll]
    split <;> rfl
  | writeFd r => rfl
  | readFd answer =>
    cases answer with
    | failed e => rfl
    | got data =>
      simp only [step, readFd, Op.reserves]
      split
      · exact length_storeList _ _ _
      · have happend := length_getD_append (b.full data) (data.drop b.writableBytes)
        simp only [Option.map_some, Option.getD_some, ← happend]
        unfold full
        split
        · rename_i b' hb'
          rw [hb', Option.getD_some]
        · rename_i hnone
          rw [hnone, Option.getD_none]

theorem spaceStep_eq_some {b b' : Buffer} {op : Op} (h : spaceStep b op = some b') :
    op.Possible b ∧ b' = (b.step op).1 := by
  unfold spaceStep at h
  split at h
  · rename_i hop
    exact ⟨hop, (Option.some.inj h).symm⟩
  · cases h

/-- An operation whose reservation does not wrap keeps the buffer well formed. -/
theorem spaceStep_wellFormed {b b' : Buffer} (hb : b.WellFormed) {op : Op}
    (hstep : spaceStep b op = some b') (hfits : op.SumFits b) : b'.WellFormed := by
  obtain ⟨hop, rfl⟩ := spaceStep_eq_some hstep
  have hs := hb.sized
  cases op with
  | append data =>
    rcases append_spec hb data (hfits _ rfl) with ⟨hnone, -⟩ | ⟨b', hsome, hwf, -⟩
    · simp only [step, hnone, orThrew]
      exact hb
    · simp only [step, hsome, orThrew]
      exact hwf
  | ensureWritableBytes len =>
    rcases ensureWritableBytes_spec hb (hfits _ rfl) with ⟨hnone, -⟩ | ⟨b', hsome, hwf, -⟩
    · simp only [step, hnone, orThrew]
      exact hb
    · simp only [step, hsome, orThrew]
      exact hwf
  | retrieve len => exact (retrieve_spec hb len).1
  | retrieveAll => exact (retrieveAll_spec hb).1
  | retrieveAllAsString => exact (retrieve_spec hb b.readableBytes).1
  | retrieveAsString len => exact (retrieve_spec hb len).1
  | writeFd r => exact hb
  | readFd answer =>
    cases answer with
    | failed e => exact hb
    | got data =>
      have hi := hb.inside
      have hmaxSize : maxSize = 2 ^ 63 - 1 := rfl
      have hextra : extrabufSize = 65536 := rfl
      have hoffered : data.length ≤ b.writableBytes + extrabufSize :=
        Nat.le_trans hop (offered_le b)
      simp only [writableBytes] at hoffered
      exact (readFd_spec hb data (by omega)).1

/-! ## Every reservation of a run -/

/-- In a run from the constructor every reservation is safe exactly when none of them is for a
`len` with which `writerIndex_ + len` wraps. -/
theorem reservations_safe_iff (initialSize : ℕ) (hnew : kCheapPrepend + initialSize ≤ maxSize)
    (ops : List Op) :
    Machine.Along spaceStep (fun b op => op.ReservesSafely b) (new initialSize) ops ↔
      Machine.Along spaceStep (fun b op => op.SumFits b) (new initialSize) ops := by
  apply Machine.along_iff_along (K := WellFormed)
  · intro b op b' hb hstep
    obtain ⟨hop, -⟩ := spaceStep_eq_some hstep
    constructor
    · intro hsafe r hr
      obtain ⟨hwf, -, hlen⟩ := reserves_of_possible hb hop hr
      exact (reserves_iff hwf hlen).mp (hsafe r hr)
    · intro hfits r hr
      obtain ⟨hwf, -, hlen⟩ := reserves_of_possible hb hop hr
      exact (reserves_iff hwf hlen).mpr (hfits r hr)
  · exact fun b op b' hb hstep hfits => spaceStep_wellFormed hb hstep hfits
  · exact new_wellFormed hnew

/-- Two bytes fill the vector, one is consumed, and the five asked for next make it grow. -/
theorem reservations_safe_iff_grown :
    Machine.Along spaceStep (fun b op => op.ReservesSafely b) (new 2)
      [.append [1, 2], .retrieve 1, .ensureWritableBytes 5] :=
  (reservations_safe_iff 2 (by decide) _).mpr (by decide +kernel)

/-- A fresh buffer asked for `2^64 - 1` bytes: `len + kCheapPrepend` wraps to 7, nothing is
allocated, and the call returns with the two bytes there were. -/
theorem reservation_of_maxLen_unsafe :
    ¬ Machine.Along spaceStep (fun b op => op.ReservesSafely b) (new 2)
      [.ensureWritableBytes (2 ^ 64 - 1)] := by
  intro h
  have hsafe : (new 2).Reserves (2 ^ 64 - 1) := (h _ (if_pos (by decide))).1 _ rfl
  rw [reserves_iff (new_wellFormed (by decide)) (by decide)] at hsafe
  exact absurd hsafe (by decide)

/-! ## The size of the vector -/

/-- The readable bytes and those asked for are at most `D` at the operation's reservation. -/
def Op.DemandAtMost (D : ℕ) (b : Buffer) (op : Op) : Prop :=
  ∀ r ∈ op.reserves b, r.1.readableBytes + r.2 ≤ D

instance (D : ℕ) (b : Buffer) (op : Op) : Decidable (op.DemandAtMost D b) :=
  inferInstanceAs (Decidable (∀ r ∈ op.reserves b, r.1.readableBytes + r.2 ≤ D))

/-- `ensureWritableBytes(len)` runs the `std::copy` of `makeSpace`. -/
def Slides (b : Buffer) (len : ℕ) : Prop :=
  b.writableBytes < len ∧
    ¬ (b.writableBytes + b.prependableBytes) % 2 ^ 64 < (len + kCheapPrepend) % 2 ^ 64

/-- A `std::copy` of the operation's reservation goes to a place strictly before its source. -/
def Op.SlidesDown (b : Buffer) (op : Op) : Prop :=
  ∀ r ∈ op.reserves b, r.1.Slides r.2 → kCheapPrepend < r.1.readerIndex

/-- The vector grows only while the consumed front is shorter than what is asked for, so past the
readable bytes it grows to less than twice that. -/
theorem sizeAfter_le_twice {b : Buffer} (hb : b.WellFormed) {len : ℕ}
    (hwrap : b.writerIndex + len < 2 ^ 64) :
    b.sizeAfter len ≤ max b.buffer.length (kCheapPrepend + b.readableBytes + 2 * len) := by
  have hp := hb.prepend
  have ho := hb.ordered
  have hi := hb.inside
  have hres := ensureWritableBytes_reservation hb (show len < 2 ^ 64 by omega)
  unfold sizeAfter
  generalize b.ensureWritableBytes len = r at hres
  cases hres with
  | enough _ | threw _ _ _ _ => exact Nat.le_max_left _ _
  | grew hshort hfront _ =>
    simp only [Option.getD_some, List.length_append, List.length_replicate]
    simp only [writableBytes, readableBytes] at hshort hfront ⊢
    omega
  | slid _ _ | slidWrapped _ =>
    rw [Option.getD_some, length_slide hb]
    exact Nat.le_max_left _ _
  | shrank _ hsize => omega

/-- So it stays within twice the demand. -/
theorem sizeAfter_le {b : Buffer} (hb : b.WellFormed) {len D : ℕ}
    (hwrap : b.writerIndex + len < 2 ^ 64) (hD : b.readableBytes + len ≤ D) :
    b.sizeAfter len ≤ max b.buffer.length (2 * D + kCheapPrepend) := by
  have htwice := sizeAfter_le_twice hb hwrap
  omega

theorem slides_down {b : Buffer} (hb : b.WellFormed) {len : ℕ}
    (hwrap : b.writerIndex + len < 2 ^ 64) (hslides : b.Slides len) :
    kCheapPrepend < b.readerIndex := by
  have hp := hb.prepend
  have ho := hb.ordered
  have hi := hb.inside
  have hs := hb.sized
  have hmaxSize : maxSize = 2 ^ 63 - 1 := rfl
  obtain ⟨hshort, hfront⟩ := hslides
  simp only [prependableBytes, writableBytes] at hshort hfront
  rw [Nat.mod_eq_of_lt (by omega), Nat.mod_eq_of_lt (by omega)] at hfront
  omega

/-- The vector stays within twice the demand, or within what the constructor gave it, over every
run in which no reservation wraps; and the readable bytes only ever slide towards the front. -/
theorem capacity_le_demand (initialSize D : ℕ) (hnew : kCheapPrepend + initialSize ≤ maxSize)
    (ops : List Op)
    (hdemand : Machine.Along spaceStep (fun b op => op.DemandAtMost D b) (new initialSize) ops)
    (hfits : Machine.Along spaceStep (fun b op => op.SumFits b) (new initialSize) ops) :
    Machine.Always spaceStep
        (fun b => b.buffer.length ≤
          max (kCheapPrepend + initialSize) (2 * D + kCheapPrepend)) (new initialSize) ops ∧
      Machine.Along spaceStep (fun b op => op.SlidesDown b) (new initialSize) ops := by
  have hboth := hdemand.and hfits
  constructor
  · apply Machine.always_of_along (K := fun b => b.WellFormed ∧ b.buffer.length ≤
      max (kCheapPrepend + initialSize) (2 * D + kCheapPrepend)) (fun b hb => hb.2) _ _ hboth
    · rintro b op b' ⟨hb, hsize⟩ hstep ⟨hD, hsum⟩
      refine ⟨spaceStep_wellFormed hb hstep hsum, ?_⟩
      obtain ⟨hop, rfl⟩ := spaceStep_eq_some hstep
      rw [length_step]
      cases hr : op.reserves b with
      | none => exact hsize
      | some r =>
        obtain ⟨hwf, hlen, -⟩ := reserves_of_possible hb hop hr
        have hafter := sizeAfter_le hwf (hsum r hr) (hD r hr)
        rw [Option.map_some, Option.getD_some]
        omega
    · exact ⟨new_wellFormed hnew, by simp only [new, List.length_replicate]; omega⟩
  · apply Machine.along_of_along (K := WellFormed) _ _ (new_wellFormed hnew) hfits
    · intro b op b' hb hstep hsum r hr
      obtain ⟨hop, -⟩ := spaceStep_eq_some hstep
      exact slides_down (reserves_of_possible hb hop hr).1 (hsum r hr)
    · exact fun b op b' hb hstep hsum => spaceStep_wellFormed hb hstep hsum

/-- Two bytes are consumed when five more come in: too little room in front, and the vector of
12 bytes grows to 17. Then four are consumed, and the next two slide. -/
theorem capacity_le_demand_grown :
    Machine.Always spaceStep
        (fun b => b.buffer.length ≤ max (kCheapPrepend + 4) (2 * 7 + kCheapPrepend)) (new 4)
        [.append [1, 2, 3, 4], .retrieve 2, .readFd (.got [5, 6, 7, 8, 9]), .retrieve 4,
          .append [10, 11]] ∧
      Machine.Along spaceStep (fun b op => op.SlidesDown b) (new 4)
        [.append [1, 2, 3, 4], .retrieve 2, .readFd (.got [5, 6, 7, 8, 9]), .retrieve 4,
          .append [10, 11]] :=
  capacity_le_demand 4 7 (by decide) _ (by decide +kernel) (by decide +kernel)

/-- A fresh buffer asked for `2^64 - 1` bytes runs the `std::copy` in place. -/
theorem maxLen_slides_in_place :
    Machine.Along spaceStep (fun b op => op.DemandAtMost (2 ^ 64 - 1) b) (new 2)
        [.ensureWritableBytes (2 ^ 64 - 1)] ∧
      ¬ Machine.Along spaceStep (fun b op => op.SlidesDown b) (new 2)
        [.ensureWritableBytes (2 ^ 64 - 1)] := by
  constructor
  · intro b' hstep
    refine ⟨fun r hr => ?_, trivial⟩
    cases hr
    decide
  · intro h
    have hdown := (h _ (if_pos (by decide))).1 _ rfl ⟨by decide, by decide⟩
    exact absurd hdown (by decide)

end Buffer
end Webservers
