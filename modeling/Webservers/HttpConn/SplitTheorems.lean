import Webservers.HttpConn.CompleteTheorems

/-!
# Lines, as they arrive and all at once

`parse_line` looks for the end of a line in the bytes received so far, and goes on from there when
more have arrived. `oneShot` cuts a whole byte string at once; it is written without the functions
of the parser.

* `IsBare` is a line end that is not one: a CR or an LF alone. `firstBare` finds the first.
* `parseLines` calls `parse_line` until it finds no line, and `splitRun` does so after each
  segment.
* `split_run_eq_one_shot`: however a byte string is cut into segments, both give the same.
-/

namespace Webservers

/-! ## All at once -/

/-- At index `i` stands a CR with a byte other than LF behind it, or an LF without a CR in front
of it. -/
def IsBare (s : List UInt8) (i : ℕ) : Prop :=
  ((s)[i]? = some CR ∧ (s)[i + 1]? ≠ none ∧ (s)[i + 1]? ≠ some LF) ∨
    ((s)[i]? = some LF ∧ (i = 0 ∨ (s)[i - 1]? ≠ some CR))

instance (s : List UInt8) : DecidablePred (IsBare s) := fun _ =>
  inferInstanceAs (Decidable (_ ∨ _))

def firstBare (s : List UInt8) : Option ℕ :=
  (List.range s.length).find? fun i => decide (IsBare s i)

/-- The lines of a byte string that CR and LF end; `line` is what the first of them starts
with. -/
def crlfLines (line : List UInt8) : List UInt8 → List (List UInt8)
  | [] => []
  | [_] => []
  | a :: b :: rest =>
    if a = CR ∧ b = LF then line :: crlfLines [] rest else crlfLines (line ++ [a]) (b :: rest)

/-- The lines before the first bare CR or LF, and what the search for more of them ends with. -/
def oneShot (s : List UInt8) : List (List UInt8) × LineStatus :=
  match firstBare s with
  | some i => (crlfLines [] (s.take i), .lineBad)
  | none => (crlfLines [] s, .lineOpen)

/-! ### The first bare CR or LF -/

section Bare

variable {s l line rest : List UInt8} {b : UInt8} {i j : ℕ}

theorem IsBare.lt (h : IsBare s i) : i < s.length := by
  rcases h with ⟨hget, -⟩ | ⟨hget, -⟩
  all_goals
    exact (List.getElem?_eq_some_iff.mp hget).1

theorem firstBare_eq_some_iff :
    firstBare s = some i ↔ IsBare s i ∧ ∀ j < i, ¬ IsBare s j := by
  unfold firstBare
  rw [List.find?_range_eq_some]
  simp only [decide_eq_true_eq, Bool.not_eq_true', decide_eq_false_iff_not, List.mem_range]
  exact ⟨fun h => ⟨h.1, h.2.2⟩, fun h => ⟨h.1, h.1.lt, h.2⟩⟩

theorem firstBare_eq_none_iff : firstBare s = none ↔ ∀ i, ¬ IsBare s i := by
  unfold firstBare
  rw [List.find?_eq_none]
  simp only [List.mem_range, decide_eq_true_eq]
  exact ⟨fun h i hi => h i hi.lt hi, fun h i _ => h i⟩

/-- A byte of a line does not matter. -/
theorem isBare_cons_succ (hcr : b ≠ CR) : IsBare (b :: s) (i + 1) ↔ IsBare s i := by
  unfold IsBare
  rw [List.getElem?_cons_succ, List.getElem?_cons_succ]
  cases i with
  | zero =>
    have hprev : (b :: s)[0 + 1 - 1]? ≠ some CR := by
      simpa using hcr
    exact or_congr Iff.rfl (and_congr_right fun _ => iff_of_true (Or.inr hprev) (Or.inl rfl))
  | succ i =>
    have hprev : (b :: s)[i + 1 + 1 - 1]? = (s)[i + 1 - 1]? := by
      simp
    rw [hprev]
    simp

theorem not_isBare_cons_zero (hcr : b ≠ CR) (hlf : b ≠ LF) : ¬ IsBare (b :: s) 0 := by
  rintro (⟨hget, -⟩ | ⟨hget, -⟩)
  · exact hcr (Option.some.inj hget)
  · exact hlf (Option.some.inj hget)

/-- Nor does the end of a line. -/
theorem isBare_crlf (rest : List UInt8) (i : ℕ) :
    IsBare (crlf ++ rest) i ↔ ∃ j, i = 2 + j ∧ IsBare rest j := by
  show IsBare (CR :: LF :: rest) i ↔ _
  match i with
  | 0 =>
    constructor
    · rintro (⟨-, -, hlf⟩ | ⟨hlf, -⟩)
      · exact absurd rfl hlf
      · exact absurd (Option.some.inj hlf) (by decide)
    · rintro ⟨j, hj, -⟩
      omega
  | 1 =>
    constructor
    · rintro (⟨hcr, -⟩ | ⟨-, hprev⟩)
      · exact absurd (Option.some.inj hcr) (by decide)
      · rcases hprev with hzero | hprev
        · cases hzero
        · exact absurd rfl hprev
    · rintro ⟨j, hj, -⟩
      omega
  | i + 2 =>
    -- behind the LF, a byte stands as at the start
    have hshift : IsBare (CR :: LF :: rest) (i + 2) ↔ IsBare (LF :: rest) (i + 1) := by
      unfold IsBare
      simp
    rw [hshift, isBare_cons_succ (by decide)]
    constructor
    · exact fun h => ⟨i, by omega, h⟩
    · rintro ⟨j, hj, hbare⟩
      obtain rfl : i = j := by omega
      exact hbare

theorem isBare_line (h : NoBreak line) (rest : List UInt8) (i : ℕ) :
    IsBare (line ++ crlf ++ rest) i ↔ ∃ j, i = line.length + 2 + j ∧ IsBare rest j := by
  induction line generalizing i with
  | nil => simpa using isBare_crlf rest i
  | cons b line ih =>
    obtain ⟨hcr, hlf, hline⟩ := noBreak_cons_iff.mp h
    show IsBare (b :: (line ++ crlf ++ rest)) i ↔ _
    rw [List.length_cons]
    cases i with
    | zero =>
      refine ⟨fun hbare => absurd hbare (not_isBare_cons_zero hcr hlf), ?_⟩
      rintro ⟨j, hj, -⟩
      omega
    | succ i =>
      rw [isBare_cons_succ hcr, ih hline]
      constructor
      · rintro ⟨j, hj, hbare⟩
        exact ⟨j, by omega, hbare⟩
      · rintro ⟨j, hj, hbare⟩
        exact ⟨j, by omega, hbare⟩

/-- A search that fails has come to a bare CR or LF, the first. -/
theorem firstBare_of_lineBad (h : (scanLine l).1 = .lineBad) :
    firstBare l = some (scanLine l).2 := by
  rw [firstBare_eq_some_iff]
  fun_induction scanLine l with
  | case1 => cases h
  | case2 rest =>
    cases rest with
    | nil => cases h
    | cons b rest =>
      have hb : b ≠ LF := by
        rintro rfl
        cases h
      refine ⟨Or.inl ⟨rfl, Option.some_ne_none b, fun hget => hb (Option.some.inj hget)⟩, ?_⟩
      exact fun j hj => absurd hj (Nat.not_lt_zero j)
  | case3 rest hcr =>
    exact ⟨Or.inr ⟨rfl, Or.inl rfl⟩, fun j hj => absurd hj (Nat.not_lt_zero j)⟩
  | case4 b rest hcr hlf ih =>
    obtain ⟨hbare, hfirst⟩ := ih h
    refine ⟨(isBare_cons_succ hcr).mpr hbare, fun j hj => ?_⟩
    cases j with
    | zero => exact not_isBare_cons_zero hcr hlf
    | succ j =>
      rw [isBare_cons_succ hcr]
      exact hfirst j (Nat.lt_of_succ_lt_succ hj)

/-- A search that ran out of bytes has met none. -/
theorem firstBare_of_lineOpen (h : (scanLine l).1 = .lineOpen) : firstBare l = none := by
  rw [firstBare_eq_none_iff]
  fun_induction scanLine l with
  | case1 => exact fun i hbare => absurd hbare.lt (Nat.not_lt_zero i)
  | case2 rest =>
    cases rest with
    | nil =>
      -- a CR at the end may still be followed by its LF
      intro i hbare
      obtain rfl : i = 0 := Nat.lt_one_iff.mp hbare.lt
      rcases hbare with ⟨-, hnone, -⟩ | ⟨hlf, -⟩
      · exact hnone rfl
      · exact absurd (Option.some.inj hlf) (by decide)
    | cons b rest =>
      simp only [afterCr] at h
      split at h <;> cases h
  | case3 rest hcr => cases h
  | case4 b rest hcr hlf ih =>
    intro i
    cases i with
    | zero => exact not_isBare_cons_zero hcr hlf
    | succ i =>
      rw [isBare_cons_succ hcr]
      exact ih h i

end Bare

/-! ### The lines -/

section Lines

variable {l line rest : List UInt8} {b : UInt8}

theorem crlfLines_cons (hcr : b ≠ CR) (line rest : List UInt8) :
    crlfLines line (b :: rest) = crlfLines (line ++ [b]) rest := by
  cases rest with
  | nil => rfl
  | cons d rest => rw [crlfLines, if_neg (fun h => hcr h.1)]

theorem crlfLines_line (h : NoBreak line) (start rest : List UInt8) :
    crlfLines start (line ++ crlf ++ rest) = (start ++ line) :: crlfLines [] rest := by
  induction line generalizing start with
  | nil =>
    show crlfLines start (CR :: LF :: rest) = _
    rw [crlfLines, if_pos ⟨rfl, rfl⟩, List.append_nil]
  | cons b line ih =>
    obtain ⟨hcr, -, hline⟩ := noBreak_cons_iff.mp h
    show crlfLines start (b :: (line ++ crlf ++ rest)) = _
    rw [crlfLines_cons hcr, ih hline, List.append_assoc]
    rfl

/-- Without a complete line there is none. -/
theorem crlfLines_of_noBreak (h : NoBreak l) (start : List UInt8) : crlfLines start l = [] := by
  induction l generalizing start with
  | nil => rfl
  | cons b l ih =>
    obtain ⟨hcr, -, hrest⟩ := noBreak_cons_iff.mp h
    rw [crlfLines_cons hcr, ih hrest]

theorem crlfLines_of_lineOpen (h : (scanLine l).1 = .lineOpen) (start : List UInt8) :
    crlfLines start l = [] := by
  fun_induction scanLine l generalizing start with
  | case1 => rfl
  | case2 rest =>
    cases rest with
    | nil => rfl
    | cons b rest =>
      simp only [afterCr] at h
      split at h <;> cases h
  | case3 rest hcr => cases h
  | case4 b rest hcr hlf ih => rw [crlfLines_cons hcr, ih h]

/-- A line in front is the first line. -/
theorem oneShot_line (h : NoBreak line) (rest : List UInt8) :
    oneShot (line ++ crlf ++ rest) = (line :: (oneShot rest).1, (oneShot rest).2) := by
  have hbare := isBare_line h rest
  unfold oneShot
  cases hfirst : firstBare rest with
  | none =>
    have hnone : firstBare (line ++ crlf ++ rest) = none := by
      rw [firstBare_eq_none_iff] at hfirst ⊢
      intro i hi
      obtain ⟨j, -, hj⟩ := (hbare i).mp hi
      exact hfirst j hj
    rw [hnone]
    simp only [crlfLines_line h, List.nil_append]
  | some i =>
    have hsome : firstBare (line ++ crlf ++ rest) = some (line.length + 2 + i) := by
      rw [firstBare_eq_some_iff] at hfirst ⊢
      refine ⟨(hbare _).mpr ⟨i, rfl, hfirst.1⟩, fun k hk hbad => ?_⟩
      obtain ⟨j, rfl, hj⟩ := (hbare k).mp hbad
      exact hfirst.2 j (by omega) hj
    have hlen : (line ++ crlf).length = line.length + 2 := List.length_append
    have htake : (line ++ crlf ++ rest).take (line.length + 2 + i) =
        line ++ crlf ++ rest.take i := by
      rw [← hlen, List.take_length_add_append]
    rw [hsome]
    simp only [htake, crlfLines_line h, List.nil_append]

theorem oneShot_joined {lines : List (List UInt8)} (h : ∀ line ∈ lines, NoBreak line)
    (rest : List UInt8) :
    oneShot (joined lines ++ rest) = (lines ++ (oneShot rest).1, (oneShot rest).2) := by
  induction lines with
  | nil => rfl
  | cons line lines ih =>
    obtain ⟨hline, hlines⟩ := List.forall_mem_cons.mp h
    rw [joined_cons, List.append_assoc, oneShot_line hline, ih hlines, List.cons_append]

/-- Where no line is complete, the result is that of the search for one. -/
theorem oneShot_of_ne_lineOk (h : (scanLine l).1 ≠ .lineOk) : oneShot l = ([], (scanLine l).1) := by
  unfold oneShot
  cases hstatus : (scanLine l).1 with
  | lineOk => exact absurd hstatus h
  | lineBad =>
    rw [firstBare_of_lineBad hstatus]
    simp only [crlfLines_of_noBreak (noBreak_scanLine l)]
  | lineOpen =>
    rw [firstBare_of_lineOpen hstatus]
    simp only [crlfLines_of_lineOpen hstatus]

end Lines

/-! ## As the bytes arrive -/

namespace ReadState

/-- `m_start_line = m_checked_index` -/
def nextLine (c : ReadState) : ReadState := { c with startLine := c.checkedIndex }

/-- The bytes of a line that `parse_line()` has completed, without its end. -/
def lineBytes (c : ReadState) : List UInt8 :=
  slice c.readBuf c.startLine (c.checkedIndex - 2 - c.startLine)

set_option linter.unusedVariables false in
/-- `parse_line()` is called until it finds no line: the lines, and what the last call returns. As
in `process_read()`, `m_start_line` moves behind each line. -/
def parseLines (c : ReadState) : List (List UInt8) × LineStatus × ReadState :=
  match hline : c.parseLine with
  | (.lineOk, c') =>
    let (lines, status, d) := parseLines c'.nextLine
    (c'.lineBytes :: lines, status, d)
  | (status, c') => ([], status, c')
termination_by c.readIndex - c.checkedIndex
decreasing_by
  obtain ⟨hlt, hle, hread⟩ := parseLine_progress hline
  show c'.readIndex - c'.checkedIndex < c.readIndex - c.checkedIndex
  omega

/-- `parseLines` after each segment. -/
def splitRun (c : ReadState) : List (List UInt8) → List (List (List UInt8) × LineStatus)
  | [] => []
  | x :: segs =>
    let (lines, status, c') := (c.deliver x).parseLines
    (lines, status) :: splitRun c' segs

section Split

variable {c c' : ReadState} {pos : ℕ} {l : List UInt8}

theorem parseLines_line (h : c.parseLine = (.lineOk, c')) :
    c.parseLines =
      (c'.lineBytes :: c'.nextLine.parseLines.1, c'.nextLine.parseLines.2.1,
        c'.nextLine.parseLines.2.2) := by
  rw [parseLines.eq_def]
  split <;> rename_i heq
  · rw [h] at heq
    cases heq
    rfl
  · rename_i hne
    rw [h] at heq
    cases heq
    exact absurd rfl hne

theorem parseLines_stop {status : LineStatus} (h : c.parseLine = (status, c'))
    (hstatus : status ≠ .lineOk) : c.parseLines = ([], status, c') := by
  rw [parseLines.eq_def]
  split <;> rename_i heq
  · rw [h] at heq
    cases heq
    exact absurd rfl hstatus
  · rw [h] at heq
    cases heq
    rfl

/-- Behind a complete line the slot stands in the next one. -/
theorem LineFrom.next (h : LineFrom c pos l) (hline : (scanLine l).1 = .lineOk) :
    (c.endLine (pos + (scanLine l).2)).lineBytes = l.take (scanLine l).2 ∧
      LineFrom (c.endLine (pos + (scanLine l).2)).nextLine
        (pos + (scanLine l).2 + 2) (l.drop ((scanLine l).2 + 2)) := by
  have hlen := scanLine_lineOk hline
  have hread := h.readIndex
  have hwithin := within_endLine c (pos + (scanLine l).2)
  constructor
  · have htake := take_slice (m := c.readBuf) (i := pos) (scanLine_le l)
    rw [h.bytes] at htake
    have hstart : (c.endLine (pos + (scanLine l).2)).startLine = pos := h.startLine
    have hwidth : (c.endLine (pos + (scanLine l).2)).checkedIndex - 2 - pos = (scanLine l).2 := by
      show pos + (scanLine l).2 + 2 - 2 - pos = (scanLine l).2
      omega
    rw [htake, lineBytes, hstart, hwidth]
    apply slice_congr
    intro k _ hk
    exact hwithin.bytes k (Or.inl hk)
  · constructor
    case startLine => rfl
    case readIndex =>
      show c.readIndex = _
      rw [List.length_drop]
      omega
    case bytes =>
      have hdrop := drop_slice (m := c.readBuf) (i := pos) hlen
      rw [h.bytes] at hdrop
      rw [List.length_drop, hdrop, ← Nat.add_assoc]
      apply slice_congr
      intro k hk _
      exact hwithin.bytes k (Or.inr hk)
    case checked => exact ⟨Nat.le_refl _, Nat.le_add_right _ _⟩
    case lineStart => exact Or.inr (endLine_nul c (pos + (scanLine l).2)).2

/-- From the start of a line, `parseLines` gives what `oneShot` gives of the bytes received, and
leaves the ones that are not part of a line. -/
theorem LineFrom.parseLines_eq (h : LineFrom c pos l) :
    ∃ c' pos' l', c.parseLines = ((oneShot l).1, (oneShot l).2, c') ∧ LineFrom c' pos' l' ∧
      (scanLine l').1 ≠ .lineOk ∧ l = joined (oneShot l).1 ++ l' ∧
      ∀ line ∈ (oneShot l).1, NoBreak line := by
  -- each line is shorter than what was left
  induction hn : l.length using Nat.strong_induction_on generalizing c pos l with
  | _ n ih =>
    by_cases hline : (scanLine l).1 = .lineOk
    · have hlen := scanLine_lineOk hline
      obtain ⟨hbytes, hnext⟩ := h.next hline
      obtain ⟨c', pos', l', hrest, hfrom, hstop, hjoined, hbreak⟩ :=
        ih (l.drop ((scanLine l).2 + 2)).length (by rw [List.length_drop]; omega) hnext rfl
      have hfirst := noBreak_scanLine l
      have hsplit := scanLine_split hline
      have hshot : oneShot l = (l.take (scanLine l).2 ::
          (oneShot (l.drop ((scanLine l).2 + 2))).1,
          (oneShot (l.drop ((scanLine l).2 + 2))).2) := by
        conv => lhs; rw [hsplit]
        exact oneShot_line hfirst _
      refine ⟨c', pos', l', ?_, hfrom, hstop, ?_, ?_⟩
      · rw [parseLines_line (h.parseLine_line hline), hbytes, hrest, hshot]
      · rw [hshot, joined_cons, List.append_assoc, ← hjoined]
        exact hsplit
      · rw [hshot]
        exact List.forall_mem_cons.mpr ⟨hfirst, hbreak⟩
    · obtain ⟨hparse, hfrom⟩ := h.parseLine_waits hline
      rw [oneShot_of_ne_lineOk hline]
      exact ⟨_, pos, l, parseLines_stop hparse hline, hfrom, hline, rfl,
        fun line hmem => absurd hmem List.not_mem_nil⟩

theorem length_splitRun (c : ReadState) (segs : List (List UInt8)) :
    (c.splitRun segs).length = segs.length := by
  induction segs generalizing c with
  | nil => rfl
  | cons x segs ih => rw [splitRun, List.length_cons, List.length_cons, ih]

/-- After the first `n` segments: the lines so far, and the last status. -/
theorem LineFrom.splitRun_eq (h : LineFrom c pos l) (hstop : (scanLine l).1 ≠ .lineOk)
    (segs : List (List UInt8)) (n : ℕ) :
    (((c.splitRun segs).take n).map Prod.fst).flatten =
        (oneShot (l ++ (segs.take n).flatten)).1 ∧
      ∀ r ∈ ((c.splitRun segs).take n).getLast?,
        r.2 = (oneShot (l ++ (segs.take n).flatten)).2 := by
  induction segs generalizing c pos l n with
  | nil =>
    rw [List.take_nil, splitRun, List.take_nil, List.flatten_nil, List.append_nil,
      oneShot_of_ne_lineOk hstop]
    exact ⟨rfl, fun r hr => by cases hr⟩
  | cons x segs ih =>
    cases n with
    | zero =>
      rw [List.take_zero, List.take_zero, List.flatten_nil, List.append_nil,
        oneShot_of_ne_lineOk hstop]
      exact ⟨rfl, fun r hr => by cases hr⟩
    | succ n =>
      obtain ⟨c', pos', l', hlines, hfrom, hstop', hjoined, hbreak⟩ := (h.deliver x).parseLines_eq
      have hrun : c.splitRun (x :: segs) =
          ((oneShot (l ++ x)).1, (oneShot (l ++ x)).2) :: c'.splitRun segs := by
        rw [splitRun, hlines]
      -- the lines cut off so far stand in front of what the next segments are joined to
      have hshot : ∀ rest, oneShot (l ++ (x ++ rest)) =
          ((oneShot (l ++ x)).1 ++ (oneShot (l' ++ rest)).1, (oneShot (l' ++ rest)).2) := by
        intro rest
        rw [← List.append_assoc]
        conv => lhs; rw [hjoined]
        rw [List.append_assoc, oneShot_joined hbreak]
      obtain ⟨hrest, hlast⟩ := ih hfrom hstop' n
      rw [hrun, List.take_succ_cons, List.take_succ_cons, List.flatten_cons]
      constructor
      · rw [hshot, List.map_cons, List.flatten_cons, hrest]
      · intro r hr
        rw [List.getLast?_cons] at hr
        cases hcase : ((c'.splitRun segs).take n).getLast? with
        | some last =>
          rw [hcase] at hr
          cases hr
          rw [hshot]
          exact hlast last hcase
        | none =>
          -- nothing follows this segment
          have hnone : segs.take n = [] := by
            have hlen := congrArg List.length (List.getLast?_eq_none_iff.mp hcase)
            rw [List.length_take, length_splitRun, ← List.length_take] at hlen
            exact List.length_eq_zero_iff.mp hlen
          rw [hcase] at hr
          cases hr
          rw [hnone, List.flatten_nil, List.append_nil]
          rfl

theorem lineFrom_init : LineFrom init 0 [] where
  startLine := rfl
  readIndex := rfl
  bytes := rfl
  checked := ⟨Nat.le_refl _, Nat.le_refl _⟩
  lineStart := Or.inl rfl

/-- However a byte string is cut into segments: after each of them, the lines that the calls of
`parse_line()` have found and the status they end with are those of the bytes received so far. A
segment may be empty; it is one more round of calls. -/
theorem split_run_eq_one_shot (segs : List (List UInt8)) (n : ℕ) :
    (((init.splitRun segs).take n).map Prod.fst).flatten = (oneShot (segs.take n).flatten).1 ∧
      ∀ r ∈ ((init.splitRun segs).take n).getLast?, r.2 = (oneShot (segs.take n).flatten).2 := by
  have hstop : (scanLine []).1 ≠ .lineOk := by decide
  exact lineFrom_init.splitRun_eq hstop segs n

end Split

end ReadState
end Webservers
