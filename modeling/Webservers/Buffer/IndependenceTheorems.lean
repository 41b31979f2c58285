import Webservers.Buffer.CapacityTheorems

/-!
# What a caller can learn from a `Buffer`

Two buffers with the same readable bytes are driven by the same calls. They may differ in
everything else: the indices, the size of the vector, the bytes that earlier traffic left outside
the readable range. The callers cannot tell them apart exactly as long as no `retrieveAsString`
asks for more than is readable (the string is made before `retrieve` clamps the length) and no
`append` is refused by one vector alone.
-/

namespace Webservers
namespace Buffer

/-! ## Two buffers side by side -/

/-- The calls compared. Nothing in memory is larger than `max_size`. -/
def Op.Common : Op → Prop
  | .append data => data.length ≤ maxSize
  | .retrieve len | .retrieveAsString len => len < 2 ^ 64
  | .retrieveAllAsString => True
  | .ensureWritableBytes _ | .retrieveAll | .writeFd _ | .readFd _ => False

instance : DecidablePred Op.Common
  | .append data => inferInstanceAs (Decidable (data.length ≤ maxSize))
  | .retrieve len | .retrieveAsString len => inferInstanceAs (Decidable (len < 2 ^ 64))
  | .retrieveAllAsString => inferInstanceAs (Decidable True)
  | .ensureWritableBytes _ | .retrieveAll | .writeFd _ | .readFd _ =>
    inferInstanceAs (Decidable False)

def pairStep (p : Buffer × Buffer) (op : Op) : Option (Buffer × Buffer) :=
  if op.Common then some ((p.1.step op).1, (p.2.step op).1) else none

theorem common_of_pairStep {p p' : Buffer × Buffer} {op : Op} (h : pairStep p op = some p') :
    op.Common ∧ p' = ((p.1.step op).1, (p.2.step op).1) := by
  unfold pairStep at h
  split at h
  · rename_i hop
    exact ⟨hop, (Option.some.inj h).symm⟩
  · cases h

/-- The bytes of a returned string lie inside the vector; what is read behind it is not the
buffer's. -/
def Op.ReadsInside (b : Buffer) : Op → Prop
  | .retrieveAsString len => b.readerIndex + len ≤ b.buffer.length
  | _ => True

/-- The call takes a string from the front: the string and what is left are what was there. -/
def Op.TakesFront (b : Buffer) (op : Op) : Prop :=
  op.ReadsInside b ∧ ∀ s, (b.step op).2 = .str s → b.content = s ++ (b.step op).1.content

/-- Both calls return the same, take the string they return from the front, and leave the same
readable bytes. -/
structure Agree (p : Buffer × Buffer) (op : Op) : Prop where
  result : (p.1.step op).2 = (p.2.step op).2
  content : (p.1.step op).1.content = (p.2.step op).1.content
  first : op.TakesFront p.1
  second : op.TakesFront p.2

/-- The vector has to grow for `len` bytes, and beyond `max_size`. -/
def Refuses (b : Buffer) (len : ℕ) : Prop :=
  b.writableBytes < len ∧ b.writableBytes + b.readerIndex < len + kCheapPrepend ∧
    maxSize < b.writerIndex + len

/-- No more is asked for than is readable, and both vectors can take an `append` or neither
can. -/
def Indifferent (p : Buffer × Buffer) : Op → Prop
  | .append data => p.1.Refuses data.length ↔ p.2.Refuses data.length
  | .retrieveAsString len => len ≤ p.1.readableBytes
  | _ => True

instance (b : Buffer) (len : ℕ) : Decidable (b.Refuses len) :=
  inferInstanceAs (Decidable (_ ∧ _ ∧ _))

instance (p : Buffer × Buffer) : DecidablePred (Indifferent p)
  | .append _ => inferInstanceAs (Decidable (_ ↔ _))
  | .retrieveAsString len => inferInstanceAs (Decidable (len ≤ p.1.readableBytes))
  | .retrieve _ | .retrieveAll | .retrieveAllAsString | .ensureWritableBytes _ | .writeFd _
  | .readFd _ => inferInstanceAs (Decidable True)

/-! ## One call -/

theorem append_eq_none_iff {b : Buffer} (hb : b.WellFormed) {data : List UInt8}
    (hdata : data.length ≤ maxSize) : b.append data = none ↔ b.Refuses data.length := by
  have hi := hb.inside
  have hs := hb.sized
  have hmaxSize : maxSize = 2 ^ 63 - 1 := rfl
  have hres := ensureWritableBytes_reservation hb (show data.length < 2 ^ 64 by omega)
  unfold append Refuses
  generalize b.ensureWritableBytes data.length = r at hres
  cases hres with
  | threw hshort hfront _ hmax => exact ⟨fun _ => ⟨hshort, hfront, hmax⟩, fun _ => rfl⟩
  | enough hroom =>
    simp only [Option.map_some, reduceCtorEq, false_iff]
    omega
  | grew _ _ hmax =>
    simp only [Option.map_some, reduceCtorEq, false_iff]
    omega
  | slid _ hfront =>
    simp only [Option.map_some, reduceCtorEq, false_iff]
    omega
  | slidWrapped hwrap =>
    have hcheap : kCheapPrepend = 8 := rfl
    omega
  | shrank _ hsize => omega

theorem step_append_refused {b : Buffer} (hb : b.WellFormed) {data : List UInt8}
    (hdata : data.length ≤ maxSize) (h : b.Refuses data.length) :
    b.step (.append data) = (b, .threw) := by
  simp only [step, (append_eq_none_iff hb hdata).mpr h, orThrew]

theorem step_append_done {b : Buffer} (hb : b.WellFormed) {data : List UInt8}
    (hdata : data.length ≤ maxSize) (h : ¬ b.Refuses data.length) :
    (b.step (.append data)).2 = .done ∧
      (b.step (.append data)).1.content = b.content ++ data := by
  have hi := hb.inside
  have hs := hb.sized
  have hmaxSize : maxSize = 2 ^ 63 - 1 := rfl
  rcases append_spec hb data (by omega) with ⟨hnone, -⟩ | ⟨b', hsome, -, hcont⟩
  · exact absurd ((append_eq_none_iff hb hdata).mp hnone) h
  · simp only [step, hsome, orThrew]
    exact ⟨trivial, hcont⟩

theorem step_common_wellFormed {b : Buffer} (hb : b.WellFormed) {op : Op} (hop : op.Common) :
    (b.step op).1.WellFormed := by
  have hi := hb.inside
  have hs := hb.sized
  have hmaxSize : maxSize = 2 ^ 63 - 1 := rfl
  have hpossible : op.Possible b := by
    cases op with
    | append data => exact Nat.lt_of_le_of_lt hop (by decide)
    | retrieve len => exact hop
    | retrieveAsString len => exact hop
    | retrieveAllAsString => trivial
    | ensureWritableBytes | retrieveAll | writeFd | readFd => exact hop.elim
  have hfits : op.SumFits b := by
    intro r hr
    cases op with
    | append data =>
      cases hr
      simp only [Op.Common] at hop
      show b.writerIndex + data.length < 2 ^ 64
      omega
    | retrieve | retrieveAsString | retrieveAllAsString => cases hr
    | ensureWritableBytes | retrieveAll | writeFd | readFd => exact hop.elim
  exact spaceStep_wellFormed hb (if_pos hpossible) hfits

/-- A string read from inside the vector that is the front of the content is no longer than the
content. -/
theorem readable_of_takesFront {b : Buffer} (hb : b.WellFormed) {len : ℕ}
    (h : (Op.retrieveAsString len).TakesFront b) : len ≤ b.readableBytes := by
  obtain ⟨hinside, hfront⟩ := h
  have hcontent := congrArg List.length (hfront _ rfl)
  have hlen : (b.peek len).length = len := by
    simp only [Op.ReadsInside] at hinside
    rw [peek, List.length_take, List.length_drop]
    omega
  rw [List.length_append, hb.length_content] at hcontent
  simp only [retrieveAsString, hlen] at hcontent
  omega

theorem takesFront_retrieveAsString {b : Buffer} (hb : b.WellFormed) {len : ℕ}
    (hlen : len ≤ b.readableBytes) : (Op.retrieveAsString len).TakesFront b := by
  have ho := hb.ordered
  have hi := hb.inside
  obtain ⟨hstr, -, hcont⟩ := retrieveAsString_spec hb hlen
  constructor
  · show b.readerIndex + len ≤ b.buffer.length
    simp only [readableBytes] at hlen
    omega
  · intro s hs
    simp only [step, Result.str.injEq] at hs
    simp only [step]
    rw [← hs, hstr, hcont, List.take_append_drop]

/-- Calls without a string in their answer. -/
theorem takesFront_of_ne {b : Buffer} {op : Op} (hread : op.ReadsInside b)
    (h : ∀ s, (b.step op).2 ≠ .str s) : op.TakesFront b :=
  ⟨hread, fun s hs => absurd hs (h s)⟩

/-- On two buffers with the same readable bytes. -/
theorem agree_iff {p : Buffer × Buffer} (h₁ : p.1.WellFormed) (h₂ : p.2.WellFormed)
    (hsame : p.1.content = p.2.content) {op : Op} (hop : op.Common) :
    Agree p op ↔ Indifferent p op := by
  have hreadable : p.1.readableBytes = p.2.readableBytes := by
    rw [← h₁.length_content, hsame, h₂.length_content]
  cases op with
  | append data =>
    simp only [Indifferent]
    by_cases hr₁ : p.1.Refuses data.length
    · have hstep₁ := step_append_refused h₁ hop hr₁
      by_cases hr₂ : p.2.Refuses data.length
      · have hstep₂ := step_append_refused h₂ hop hr₂
        refine ⟨fun _ => iff_of_true hr₁ hr₂, fun _ => ⟨?_, ?_, ?_, ?_⟩⟩
        · rw [hstep₁, hstep₂]
        · rw [hstep₁, hstep₂]
          exact hsame
        · exact takesFront_of_ne trivial (by simp [hstep₁])
        · exact takesFront_of_ne trivial (by simp [hstep₂])
      · have hdone₂ := step_append_done h₂ hop hr₂
        refine ⟨fun h => ?_, fun h => absurd (h.mp hr₁) hr₂⟩
        have hresult := h.result
        rw [hstep₁, hdone₂.1] at hresult
        cases hresult
    · have hdone₁ := step_append_done h₁ hop hr₁
      by_cases hr₂ : p.2.Refuses data.length
      · have hstep₂ := step_append_refused h₂ hop hr₂
        refine ⟨fun h => ?_, fun h => absurd (h.mpr hr₂) hr₁⟩
        have hresult := h.result
        rw [hstep₂, hdone₁.1] at hresult
        cases hresult
      · have hdone₂ := step_append_done h₂ hop hr₂
        refine ⟨fun _ => iff_of_false hr₁ hr₂, fun _ => ⟨?_, ?_, ?_, ?_⟩⟩
        · rw [hdone₁.1, hdone₂.1]
        · rw [hdone₁.2, hdone₂.2, hsame]
        · exact takesFront_of_ne trivial (by simp [hdone₁.1])
        · exact takesFront_of_ne trivial (by simp [hdone₂.1])
  | retrieve len =>
    refine ⟨fun _ => trivial, fun _ => ⟨rfl, ?_, ?_, ?_⟩⟩
    · simp only [step]
      rw [(retrieve_spec h₁ len).2, (retrieve_spec h₂ len).2, hsame]
    · exact takesFront_of_ne trivial (by simp [step])
    · exact takesFront_of_ne trivial (by simp [step])
  | retrieveAsString len =>
    refine ⟨fun h => readable_of_takesFront h₁ h.first, fun hlen => ?_⟩
    have hlen₂ : len ≤ p.2.readableBytes := hreadable ▸ hlen
    obtain ⟨hstr₁, -, hcont₁⟩ := retrieveAsString_spec h₁ hlen
    obtain ⟨hstr₂, -, hcont₂⟩ := retrieveAsString_spec h₂ hlen₂
    refine ⟨?_, ?_, takesFront_retrieveAsString h₁ hlen, takesFront_retrieveAsString h₂ hlen₂⟩
    · simp only [step, hstr₁, hstr₂, hsame]
    · simp only [step, hcont₁, hcont₂, hsame]
  | retrieveAllAsString =>
    have hfront : ∀ {b : Buffer}, b.WellFormed → Op.retrieveAllAsString.TakesFront b := by
      intro b hb
      have htakes := takesFront_retrieveAsString hb (Nat.le_refl b.readableBytes)
      exact ⟨trivial, htakes.2⟩
    obtain ⟨hstr₁, -, hcont₁⟩ := retrieveAllAsString_spec h₁
    obtain ⟨hstr₂, -, hcont₂⟩ := retrieveAllAsString_spec h₂
    refine ⟨fun _ => trivial, fun _ => ⟨?_, ?_, hfront h₁, hfront h₂⟩⟩
    · simp only [step, hstr₁, hstr₂, hsame]
    · simp only [step, hcont₁, hcont₂]
  | ensureWritableBytes | retrieveAll | writeFd | readFd => exact hop.elim

/-! ## Runs -/

/-- Two buffers with the same readable bytes answer a run alike, call by call, exactly when no
call of it asks for more than is readable and none is refused by one vector alone. -/
theorem results_from_content_iff {b₁ b₂ : Buffer} (h₁ : b₁.WellFormed) (h₂ : b₂.WellFormed)
    (hsame : b₁.content = b₂.content) (ops : List Op) :
    Machine.Along pairStep Agree (b₁, b₂) ops ↔
      Machine.Along pairStep Indifferent (b₁, b₂) ops := by
  apply Machine.along_iff_along (K := fun p : Buffer × Buffer =>
    p.1.WellFormed ∧ p.2.WellFormed ∧ p.1.content = p.2.content)
  · rintro p op p' ⟨hp₁, hp₂, hsame⟩ hstep
    exact agree_iff hp₁ hp₂ hsame (common_of_pairStep hstep).1
  · rintro p op p' ⟨hp₁, hp₂, hsame⟩ hstep hind
    obtain ⟨hop, rfl⟩ := common_of_pairStep hstep
    refine ⟨step_common_wellFormed hp₁ hop, step_common_wellFormed hp₂ hop, ?_⟩
    exact ((agree_iff hp₁ hp₂ hsame hop).mpr hind).content
  · exact ⟨h₁, h₂, hsame⟩

/-- A buffer of two bytes, used and emptied. -/
def emptied : Buffer := ((new 2).run [.append [7, 8], .retrieve 2]).1

/-- A fresh buffer and a used one under the same calls. -/
theorem results_from_content_iff_emptied :
    Machine.Along pairStep Agree (new 4, emptied)
      [.append [1, 2, 3], .retrieveAsString 2, .retrieve 7, .append [4], .retrieveAllAsString] :=
  (results_from_content_iff (new_wellFormed (by decide)) (by constructor <;> decide)
    (by decide) _).mpr (by decide +kernel)

/-- Neither buffer has a readable byte. Asked for one, each returns the first byte behind its
`readerIndex_`, and the used one still has there what was retrieved before. -/
theorem retrieveAsString_returns_stale :
    (new 2).content = emptied.content ∧
      ((new 2).step (.retrieveAsString 1)).2 = .str [0] ∧
      (emptied.step (.retrieveAsString 1)).2 = .str [7] ∧
      ¬ Machine.Along pairStep Agree (new 2, emptied) [.retrieveAsString 1] := by
  refine ⟨by decide, by decide, by decide, fun h => ?_⟩
  have hagree := (h _ (if_pos (by decide))).1
  exact absurd hagree.result (by decide)

end Buffer
end Webservers
