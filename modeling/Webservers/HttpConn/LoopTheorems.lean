import Webservers.Lib.Loop
import Webservers.Lib.Machine
import Webservers.HttpConn.ReadTheorems
import Webservers.HttpConn.ParseTheorems

/-!
# The loops of the parser, round by round

`parse_line` and `process_read` are loops; here they are taken apart.

* `scanStep` is one round of the loop of `parse_line`, and `scanReads` the characters that it
  looks at.
* `loopStep` is one step of `process_read`: the condition of its loop, a round of `parse_line`, or
  the body. `process_read_ends` bounds the number of steps, and says that they compute
  `processRead`.
* `Running` is a slot on which `read()` and `process_read()` are called in turn, and
  `indices_in_order` says where its indices are in every state it comes by.
-/

namespace Webservers
namespace ReadState

/-! ## One round of `parse_line` -/

/-- The loop of `parse_line()` returns, or goes on to the next character. -/
def scanStep (c : ReadState) : (LineStatus × ReadState) ⊕ ReadState :=
  if c.checkedIndex < c.readIndex then
    let temp := c.readBuf c.checkedIndex
    if temp = CR then
      if c.checkedIndex + 1 = c.readIndex then .inl (.lineOpen, c)
      else if c.readBuf (c.checkedIndex + 1) = LF then
        let c' := (c.store c.checkedIndex).store (c.checkedIndex + 1)
        .inl (.lineOk, { c' with checkedIndex := c.checkedIndex + 2 })
      else .inl (.lineBad, c)
    else if temp = LF then
      if 1 < c.checkedIndex ∧ c.readBuf (c.checkedIndex - 1) = CR then
        let c' := (c.store (c.checkedIndex - 1)).store c.checkedIndex
        .inl (.lineOk, { c' with checkedIndex := c.checkedIndex + 1 })
      else .inl (.lineBad, c)
    else .inr { c with checkedIndex := c.checkedIndex + 1 }
  else .inl (.lineOpen, c)

/-- The indices of the characters that the round reads, in order. -/
def scanReads (c : ReadState) : List ℕ :=
  if c.checkedIndex < c.readIndex then
    let temp := c.readBuf c.checkedIndex
    c.checkedIndex ::
      if temp = CR then
        if c.checkedIndex + 1 = c.readIndex then [] else [c.checkedIndex + 1]
      else if temp = LF then
        -- `&&` does not look behind at the first two characters
        if 1 < c.checkedIndex then [c.checkedIndex - 1] else []
      else []
  else []

theorem parseLine_scanStep (c : ReadState) :
    c.parseLine =
      match c.scanStep with
      | .inl r => r
      | .inr c' => c'.parseLine := by
  rw [parseLine, scanStep]
  simp only
  split
  · split
    · split
      · rfl
      · split <;> rfl
    · split
      · split <;> rfl
      · rfl
  · rfl

/-- A round goes on only over a character that ends no line. -/
theorem scanStep_next {c c' : ReadState} (h : c.scanStep = .inr c') :
    c.checkedIndex < c.readIndex ∧ c.readBuf c.checkedIndex ≠ CR ∧
      c.readBuf c.checkedIndex ≠ LF ∧ c' = { c with checkedIndex := c.checkedIndex + 1 } := by
  unfold scanStep at h
  simp only at h
  split at h
  · rename_i hlt
    split at h
    · split at h
      · cases h
      · split at h <;> cases h
    · rename_i hcr
      split at h
      · split at h <;> cases h
      · rename_i hlf
        exact ⟨hlt, hcr, hlf, (Sum.inr.inj h).symm⟩
  · cases h

/-- A complete line ends with a CR at `k` and the LF behind it, one of which is the character
the round has come to. -/
theorem scanStep_ok {c c' : ReadState} (h : c.scanStep = .inl (.lineOk, c')) :
    ∃ k, (k = c.checkedIndex ∨ k + 1 = c.checkedIndex) ∧ k + 2 ≤ c.readIndex ∧
      c.readBuf k = CR ∧ c.readBuf (k + 1) = LF ∧ c' = c.endLine k := by
  unfold scanStep at h
  simp only at h
  split at h
  · rename_i hlt
    split at h
    · rename_i hcr
      split at h
      · cases h
      · rename_i hlast
        split at h
        · rename_i hlf
          refine ⟨c.checkedIndex, Or.inl rfl, by omega, hcr, hlf, ?_⟩
          exact (congrArg Prod.snd (Sum.inl.inj h)).symm
        · cases h
    · split at h
      · rename_i hlf
        split at h
        · rename_i hprev
          obtain ⟨k, hk⟩ := Nat.exists_eq_add_of_lt hprev.1
          have hprev' : c.checkedIndex - 1 = k + 1 := by omega
          have hchecked : c.checkedIndex = k + 1 + 1 := by omega
          have hcast : (c.checkedIndex : ℤ) - 1 = (k + 1 : ℕ) := by omega
          refine ⟨k + 1, Or.inr hchecked.symm, by omega, hprev' ▸ hprev.2, hchecked ▸ hlf, ?_⟩
          cases h
          rw [hcast, hchecked]
          rfl
        · cases h
      · cases h
  · cases h

/-- Without a complete line nothing changes. -/
theorem scanStep_stop {c c' : ReadState} {status : LineStatus}
    (h : c.scanStep = .inl (status, c')) (hstatus : status ≠ .lineOk) : c' = c := by
  unfold scanStep at h
  simp only at h
  split at h
  · split at h
    · split at h
      · exact (congrArg Prod.snd (Sum.inl.inj h)).symm
      · split at h
        · exact absurd (congrArg Prod.fst (Sum.inl.inj h)).symm hstatus
        · exact (congrArg Prod.snd (Sum.inl.inj h)).symm
    · split at h
      · split at h
        · exact absurd (congrArg Prod.fst (Sum.inl.inj h)).symm hstatus
        · exact (congrArg Prod.snd (Sum.inl.inj h)).symm
      · cases h
  · exact (congrArg Prod.snd (Sum.inl.inj h)).symm

/-- A round reads only what has been received. -/
theorem scanReads_lt (c : ReadState) : ∀ i ∈ c.scanReads, i < c.readIndex := by
  unfold scanReads
  simp only
  split
  · rename_i hlt
    refine List.forall_mem_cons.mpr ⟨hlt, ?_⟩
    split
    · split
      · exact fun i hi => absurd hi List.not_mem_nil
      · exact List.forall_mem_singleton.mpr (by omega)
    · split
      · split
        · exact List.forall_mem_singleton.mpr (by omega)
        · exact fun i hi => absurd hi List.not_mem_nil
      · exact fun i hi => absurd hi List.not_mem_nil
  · exact fun i hi => absurd hi List.not_mem_nil

/-! ## The steps of `process_read` -/

/-- Where the loop of `process_read()` is. -/
inductive Point where
  /-- its condition comes next -/
  | test (lineStatus : LineStatus)
  /-- in the loop of `parse_line()` -/
  | scan
deriving Repr, DecidableEq

/-- The loop behind its body. -/
def behindSwitch : (ParseResult × ReadState) ⊕ (LineStatus × ReadState) →
    (ParseResult × ReadState) ⊕ (Point × ReadState)
  | .inl r => .inl r
  | .inr (lineStatus, c) => .inr (.test lineStatus, c)

/-- One step of `process_read()`. -/
def loopStep : Point × ReadState → (ParseResult × ReadState) ⊕ (Point × ReadState)
  | (.test lineStatus, c) =>
    if c.checkState = .content ∧ lineStatus = .lineOk then behindSwitch c.mainSwitch
    else .inr (.scan, c)
  | (.scan, c) =>
    match c.scanStep with
    | .inr c' => .inr (.scan, c')
    | .inl (.lineOk, c') => behindSwitch c'.mainSwitch
    | .inl (_, c') => .inl (.noRequest, c')

/-- What is still to be computed at a point. -/
def remaining : Point × ReadState → ParseResult × ReadState
  | (.test lineStatus, c) => processReadLoop lineStatus c
  | (.scan, c) => processReadLoop .lineOpen c

/-- The steps still possible at a point: the bytes that are not checked come first, then whether
the body may be entered without a line. -/
def stepsLeft : Point × ReadState → ℕ
  | (.test .lineOk, c) => 3 * (c.readIndex - c.checkedIndex) + 2
  | (.test _, c) => 3 * (c.readIndex - c.checkedIndex) + 1
  | (.scan, c) => 3 * (c.readIndex - c.checkedIndex)

/-- The loop when its condition calls `parse_line()`. -/
theorem processReadLoop_parseLine {lineStatus : LineStatus} {c : ReadState}
    (h : ¬ (c.checkState = .content ∧ lineStatus = .lineOk)) :
    processReadLoop lineStatus c =
      match c.parseLine with
      | (.lineOk, c') => (behindSwitch c'.mainSwitch).elim id remaining
      | (_, c') => (.noRequest, c') := by
  cases hline : c.parseLine with
  | mk status c' =>
    cases status with
    | lineOk =>
      rw [processReadLoop_line lineStatus h hline]
      simp only
      cases c'.mainSwitch <;> rfl
    | lineBad => exact processReadLoop_stops lineStatus h hline (by decide)
    | lineOpen => exact processReadLoop_stops lineStatus h hline (by decide)

/-- A step leaves what is still to be computed as it is. -/
theorem remaining_loopStep (p : Point × ReadState) :
    remaining p = (loopStep p).elim id remaining := by
  obtain ⟨point, c⟩ := p
  have hopen : ¬ (c.checkState = .content ∧ LineStatus.lineOpen = .lineOk) := fun h => by cases h.2
  cases point with
  | test lineStatus =>
    rw [loopStep]
    by_cases hcontent : c.checkState = .content ∧ lineStatus = .lineOk
    · obtain ⟨hstate, rfl⟩ := hcontent
      rw [if_pos ⟨hstate, rfl⟩, remaining, processReadLoop_content hstate]
      cases c.mainSwitch <;> rfl
    · rw [if_neg hcontent]
      show processReadLoop lineStatus c = processReadLoop .lineOpen c
      rw [processReadLoop_parseLine hcontent, processReadLoop_parseLine hopen]
  | scan =>
    rw [loopStep, remaining, processReadLoop_parseLine hopen, parseLine_scanStep]
    cases hscan : c.scanStep with
    | inl r =>
      obtain ⟨status, c'⟩ := r
      cases status <;> rfl
    | inr c' =>
      have hopen' : ¬ (c'.checkState = .content ∧ LineStatus.lineOpen = .lineOk) :=
        fun h => by cases h.2
      show _ = processReadLoop .lineOpen c'
      rw [processReadLoop_parseLine hopen']

/-! ## What a step does to the indices -/

/-- The state behind the body of the loop, whether it returns or not. -/
def switched (c : ReadState) : ReadState := c.mainSwitch.elim Prod.snd Prod.snd

theorem parseRequestHeader_startLine (c : ReadState) (text : ℕ) :
    (c.parseRequestHeader text).2.startLine = c.startLine := by
  simp only [parseRequestHeader, apply_ite Prod.snd, apply_ite ReadState.startLine, ite_self]

theorem parseRequestContent_startLine (c : ReadState) (text : ℕ) :
    (c.parseRequestContent text).2.startLine = c.startLine := by
  unfold parseRequestContent
  simp only
  split <;> rfl

/-- The body starts the next line, and moves no other index. -/
theorem switched_indices (c : ReadState) :
    c.switched.startLine = c.checkedIndex ∧ c.switched.checkedIndex = c.checkedIndex ∧
      c.switched.readIndex = c.readIndex := by
  unfold switched mainSwitch
  simp only
  split
  · have hsame := parseRequestLine_same { c with startLine := c.checkedIndex } c.startLine
    split
    all_goals
      rename_i heq
      rw [heq] at hsame
      exact ⟨hsame.startLine, hsame.checkedIndex, hsame.readIndex⟩
  · have hstart := parseRequestHeader_startLine { c with startLine := c.checkedIndex } c.startLine
    have hidx := parseRequestHeader_indices { c with startLine := c.checkedIndex } c.startLine
    split
    all_goals
      rename_i heq
      rw [heq] at hstart hidx
      exact ⟨hstart, hidx⟩
  · have hstart := parseRequestContent_startLine { c with startLine := c.checkedIndex } c.startLine
    have hidx := parseRequestContent_indices { c with startLine := c.checkedIndex } c.startLine
    split
    all_goals
      rename_i heq
      rw [heq] at hstart hidx
      exact ⟨hstart, hidx⟩

/-- What a step can do to the slot: nothing, a character further, the end of a line, or the body
of the loop, at once or behind a line. -/
inductive Moved (c : ReadState) : ReadState → Prop where
  | stayed : Moved c c
  | next (hlt : c.checkedIndex < c.readIndex) (hcr : c.readBuf c.checkedIndex ≠ CR)
      (hlf : c.readBuf c.checkedIndex ≠ LF) :
      Moved c { c with checkedIndex := c.checkedIndex + 1 }
  | content (hcontent : c.checkState = .content) : Moved c c.switched
  | line (k : ℕ) (hk : k = c.checkedIndex ∨ k + 1 = c.checkedIndex) (hle : k + 2 ≤ c.readIndex)
      (hcr : c.readBuf k = CR) (hlf : c.readBuf (k + 1) = LF) : Moved c (c.endLine k).switched

/-- The slot after a step. -/
def stepped (p : Point × ReadState) : ReadState := (loopStep p).elim Prod.snd Prod.snd

theorem behindSwitch_elim (c : ReadState) :
    (behindSwitch c.mainSwitch).elim Prod.snd Prod.snd = c.switched := by
  unfold switched
  cases c.mainSwitch <;> rfl

theorem moved_stepped (point : Point) (c : ReadState) : Moved c (stepped (point, c)) := by
  unfold stepped
  cases point with
  | test lineStatus =>
    rw [loopStep]
    split
    · rename_i hcontent
      rw [behindSwitch_elim]
      exact .content hcontent.1
    · exact .stayed
  | scan =>
    rw [loopStep]
    cases hscan : c.scanStep with
    | inr c' =>
      obtain ⟨hlt, hcr, hlf, rfl⟩ := scanStep_next hscan
      exact .next hlt hcr hlf
    | inl r =>
      obtain ⟨status, c'⟩ := r
      cases status with
      | lineOk =>
        obtain ⟨k, hk, hle, hcr, hlf, rfl⟩ := scanStep_ok hscan
        simp only
        rw [behindSwitch_elim]
        exact .line k hk hle hcr hlf
      | lineBad =>
        rw [scanStep_stop hscan (by decide)]
        exact .stayed
      | lineOpen =>
        rw [scanStep_stop hscan (by decide)]
        exact .stayed

/-! ## The loop ends -/

theorem behindSwitch_next {c : ReadState} {q : Point × ReadState}
    (h : behindSwitch c.mainSwitch = .inr q) :
    ∃ status, q = (.test status, q.2) ∧ c.mainSwitch = .inr (status, q.2) := by
  cases hswitch : c.mainSwitch with
  | inl r =>
    rw [hswitch] at h
    cases h
  | inr r =>
    rw [hswitch] at h
    cases h
    exact ⟨r.1, rfl, rfl⟩

theorem stepsLeft_test_le (status : LineStatus) (c : ReadState) :
    stepsLeft (.test status, c) ≤ 3 * (c.readIndex - c.checkedIndex) + 2 := by
  cases status with
  | lineOk => exact Nat.le_refl _
  | lineBad => exact Nat.le_succ _
  | lineOpen => exact Nat.le_succ _

theorem lt_stepsLeft_test (status : LineStatus) (c : ReadState) :
    3 * (c.readIndex - c.checkedIndex) < stepsLeft (.test status, c) := by
  cases status with
  | lineOk => exact Nat.lt_add_of_pos_right (by decide)
  | lineBad => exact Nat.lt_succ_self _
  | lineOpen => exact Nat.lt_succ_self _

/-- Every step that does not return leaves fewer steps. -/
theorem stepsLeft_lt {p q : Point × ReadState} (h : loopStep p = .inr q) :
    stepsLeft q < stepsLeft p := by
  obtain ⟨point, c⟩ := p
  cases point with
  | test lineStatus =>
    rw [loopStep] at h
    split at h
    · -- the body consumes no byte, but `line_status` is `LINE_OPEN` behind it
      rename_i hcontent
      obtain ⟨status, hq, hswitch⟩ := behindSwitch_next h
      obtain ⟨hchecked, hread, hopen⟩ := mainSwitch_continue hswitch
      rw [hq, hopen hcontent.1, hcontent.2, stepsLeft, stepsLeft, hchecked, hread]
      · exact Nat.lt_succ_self _
      · exact fun h => by cases h
    · cases h
      exact lt_stepsLeft_test lineStatus c
  | scan =>
    rw [loopStep] at h
    cases hscan : c.scanStep with
    | inr c' =>
      rw [hscan] at h
      cases h
      obtain ⟨hlt, -, -, rfl⟩ := scanStep_next hscan
      show 3 * (c.readIndex - (c.checkedIndex + 1)) < 3 * (c.readIndex - c.checkedIndex)
      omega
    | inl r =>
      obtain ⟨status, c'⟩ := r
      rw [hscan] at h
      cases status with
      | lineBad => cases h
      | lineOpen => cases h
      | lineOk =>
        -- a line end lies behind the place where the round began
        obtain ⟨status, hq, hswitch⟩ := behindSwitch_next h
        obtain ⟨hchecked, hread, -⟩ := mainSwitch_continue hswitch
        obtain ⟨k, hk, hle, -, -, rfl⟩ := scanStep_ok hscan
        have hbound := stepsLeft_test_le status q.2
        rw [← hq, hchecked, hread] at hbound
        have hleft : 3 * (c.readIndex - (k + 2)) + 2 < 3 * (c.readIndex - c.checkedIndex) := by
          omega
        exact Nat.lt_of_le_of_lt hbound hleft

/-- From every point the loop computes what remains. -/
theorem run_remaining {n : ℕ} {p : Point × ReadState} (hn : stepsLeft p < n) :
    Loop.run loopStep n p = some (remaining p) := by
  apply Loop.run_eq_some_of_measure (f := remaining) stepsLeft
  · intro p r hleave
    rw [remaining_loopStep, hleave]
    rfl
  · intro p q hnext
    refine ⟨?_, stepsLeft_lt hnext⟩
    rw [remaining_loopStep, hnext]
    rfl
  · exact hn

/-- `process_read()` ends, whatever the slot holds: three steps for each byte that is not checked,
and three more, are enough, and they compute `processRead`. -/
theorem process_read_ends (c : ReadState) :
    Loop.run loopStep (3 * (c.readIndex - c.checkedIndex) + 3) (.test .lineOk, c) =
      some c.processRead := run_remaining (Nat.lt_succ_self _)

/-! ## Runs -/

/-- A slot, and where `process_read()` is while it runs. -/
structure Running where
  point : Option Point
  slot : ReadState

inductive Move where
  /-- `read()`, with what the calls of `recv` find -/
  | read (rs : List Recv)
  /-- one step of `process_read()` -/
  | step
deriving Repr, DecidableEq

namespace Running

/-- A slot that `init()` has reset. -/
def start : Running := ⟨none, .init⟩

/-- `process_read()` is called when `read()` has succeeded, and only then. -/
def move (s : Running) : Move → Option Running
  | .read rs =>
    match s.point with
    | some _ => none
    | none =>
      match s.slot.read rs with
      | (true, c) => some ⟨some (.test .lineOk), c⟩
      | (false, c) => some ⟨none, c⟩
  | .step =>
    match s.point with
    | none => none
    | some point =>
      match loopStep (point, s.slot) with
      | .inl (_, c) => some ⟨none, c⟩
      | .inr (point, c) => some ⟨some point, c⟩

/-- The characters that `parse_line()` reads in the next step. -/
def reads (s : Running) : List ℕ :=
  match s.point with
  | some .scan => s.slot.scanReads
  | _ => []

theorem move_read {s t : Running} {rs : List Recv} (h : move s (.read rs) = some t) :
    s.point = none ∧ t.slot = (s.slot.read rs).2 ∧
      (t.point ≠ none → (s.slot.read rs).1 = true) := by
  unfold move at h
  simp only at h
  split at h
  · cases h
  · rename_i hpoint
    split at h
    all_goals
      rename_i hread
      cases h
      rw [hread]
    · exact ⟨hpoint, rfl, fun _ => rfl⟩
    · exact ⟨hpoint, rfl, fun hsome => absurd rfl hsome⟩

theorem move_step {s t : Running} (h : move s .step = some t) :
    ∃ point, s.point = some point ∧ t.slot = stepped (point, s.slot) := by
  unfold move at h
  simp only at h
  split at h
  · cases h
  · rename_i point hpoint
    refine ⟨point, hpoint, ?_⟩
    unfold stepped
    split at h
    all_goals
      rename_i heq
      cases h
      rw [heq]
      rfl

/-- The steps of `process_read()` are a run. -/
theorem exec_of_run {n : ℕ} {point : Point} {c c' : ReadState} {result : ParseResult}
    (h : Loop.run loopStep n (point, c) = some (result, c')) :
    ∃ m ≤ n, Machine.exec move ⟨some point, c⟩ (List.replicate m .step) = some ⟨none, c'⟩ := by
  induction n generalizing point c with
  | zero => cases h
  | succ n ih =>
    cases hstep : loopStep (point, c) with
    | inl r =>
      rw [Loop.run_leave hstep] at h
      cases h
      have hmove : move ⟨some point, c⟩ .step = some ⟨none, c'⟩ := by
        simp only [move, hstep]
      exact ⟨1, by omega, Machine.exec_cons_eq_some.mpr ⟨_, hmove, rfl⟩⟩
    | inr q =>
      rw [Loop.run_next hstep] at h
      obtain ⟨m, hm, hexec⟩ := ih h
      have hmove : move ⟨some point, c⟩ .step = some ⟨some q.1, q.2⟩ := by
        simp only [move, hstep]
      exact ⟨m + 1, by omega, Machine.exec_cons_eq_some.mpr ⟨_, hmove, hexec⟩⟩

/-- A call of `process_read()` from its first step to its last. -/
theorem exec_processRead (c : ReadState) :
    ∃ m, Machine.exec move ⟨some (.test .lineOk), c⟩ (List.replicate m .step) =
      some ⟨none, c.processRead.2⟩ := by
  obtain ⟨m, -, hexec⟩ := exec_of_run
    (run_remaining (p := (.test .lineOk, c)) (Nat.lt_succ_self _))
  exact ⟨m, hexec⟩

end Running

/-- The indices of the slot lie in order inside `m_read_buf`. -/
structure InOrder (c : ReadState) : Prop where
  start_le : c.startLine ≤ c.checkedIndex
  checked_le : c.checkedIndex ≤ c.readIndex
  fits : c.readIndex ≤ readBufferSize

theorem inOrder_init : InOrder init := ⟨Nat.le_refl _, Nat.le_refl _, Nat.zero_le _⟩

theorem InOrder.read {c : ReadState} (h : InOrder c) (rs : List Recv) :
    InOrder (c.read rs).2 := by
  obtain ⟨x, hx, hfit⟩ := read_deliver rs c
  rw [hx]
  exact ⟨h.start_le, Nat.le_trans h.checked_le (Nat.le_add_right _ _), hfit h.fits⟩

theorem InOrder.switched {c : ReadState} (hle : c.checkedIndex ≤ c.readIndex)
    (hfit : c.readIndex ≤ readBufferSize) : InOrder c.switched := by
  obtain ⟨hstart, hchecked, hread⟩ := switched_indices c
  constructor
  · rw [hstart, hchecked]
  · rw [hchecked, hread]
    exact hle
  · rw [hread]
    exact hfit

theorem Moved.readIndex {c c' : ReadState} (h : Moved c c') : c'.readIndex = c.readIndex := by
  cases h with
  | stayed => rfl
  | next => rfl
  | content => exact (switched_indices c).2.2
  | line k => exact (switched_indices (c.endLine k)).2.2

theorem InOrder.moved {c c' : ReadState} (h : InOrder c) (hmoved : Moved c c') : InOrder c' := by
  cases hmoved with
  | stayed => exact h
  | next hlt => exact ⟨Nat.le_succ_of_le h.start_le, hlt, h.fits⟩
  | content => exact InOrder.switched h.checked_le h.fits
  | line k hk hle => exact InOrder.switched hle h.fits

namespace Running

/-- The invariant: the buffer is not full while `process_read()` runs. -/
structure Inv (s : Running) : Prop where
  inOrder : InOrder s.slot
  room : s.point ≠ none → s.slot.readIndex < readBufferSize

theorem inv_start : Inv start := ⟨inOrder_init, fun h => absurd rfl h⟩

theorem inv_move {s t : Running} {a : Move} (h : Inv s) (hmove : move s a = some t) : Inv t := by
  cases a with
  | read rs =>
    obtain ⟨-, hslot, hok⟩ := move_read hmove
    constructor
    · rw [hslot]
      exact h.inOrder.read rs
    · intro hpoint
      rw [hslot]
      exact read_lt (hok hpoint)
  | step =>
    obtain ⟨point, hpoint, hslot⟩ := move_step hmove
    have hmoved := moved_stepped point s.slot
    constructor
    · rw [hslot]
      exact h.inOrder.moved hmoved
    · intro _
      rw [hslot, hmoved.readIndex]
      exact h.room (by rw [hpoint]; exact Option.some_ne_none _)

theorem reads_lt (s : Running) : ∀ i ∈ s.reads, i < s.slot.readIndex := by
  unfold reads
  split
  · exact scanReads_lt s.slot
  · exact fun i hi => absurd hi List.not_mem_nil

/-- In every run from a slot that `init()` has reset, the indices lie in order, `m_read_buf` has
room while `process_read()` runs, and `parse_line()` reads only what has been received. -/
theorem indices_in_order (as : List Move) :
    Machine.Always move
      (fun s => InOrder s.slot ∧ (s.point ≠ none → s.slot.readIndex < readBufferSize) ∧
        ∀ i ∈ s.reads, i < s.slot.readIndex) start as :=
  Machine.always_of_invariant (K := Inv) (fun s h => ⟨h.inOrder, h.room, reads_lt s⟩)
    (fun _ _ _ h hmove => inv_move h hmove) inv_start

end Running

/-- A whole call of `process_read()` keeps the indices in order. -/
theorem InOrder.processRead {c : ReadState} (h : InOrder c) : InOrder c.processRead.2 := by
  obtain ⟨m, hexec⟩ := Running.exec_processRead c
  have hsteps : ∀ (n : ℕ) (s : Running),
      Machine.Along Running.move (fun _ a => a = .step) s (List.replicate n .step) := by
    intro n
    induction n with
    | zero => exact fun _ => trivial
    | succ n ih => exact fun _ t _ => ⟨rfl, ih t⟩
  apply Machine.exec_invariant_along (I := fun s => InOrder s.slot) _ h (hsteps m _) hexec
  rintro s a t hs rfl hmove
  obtain ⟨point, -, hslot⟩ := Running.move_step hmove
  rw [hslot]
  exact hs.moved (moved_stepped point s.slot)

end ReadState
end Webservers
