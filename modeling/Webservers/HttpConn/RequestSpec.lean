import Webservers.HttpConn.Parse

/-!
# Requests as byte strings

What `process_read` makes of a request, said of the bytes received and not of the buffer the
parser cuts them up in: nothing is overwritten here and no position is resumed.

* `scanLine` looks for the end of the line that a byte string starts with.
* `headRun` reads line after line from the start of a line; what it has learned is a `Req`.
* `bodyRun` is what happens from the end of the head on: the parser compares the bytes received
  with the length announced, and when they are too few it looks for lines in the body and
  compares again behind each. `scanBody` gives the last line end it finds and the place where it
  stops looking.

Each of them works in pieces: `headRun_append` and `scanBody_append` say how bytes that arrive
later are joined to what has been looked at.
-/

namespace Webservers

/-! ## One line -/

/-- What stands behind a CR. -/
def afterCr : List UInt8 → LineStatus
  | [] => .lineOpen
  | b :: _ => if b = LF then .lineOk else .lineBad

/-- The end of the line that a byte string starts with: how the search for it ends, and before
which byte. -/
def scanLine : List UInt8 → LineStatus × ℕ
  | [] => (.lineOpen, 0)
  | b :: rest =>
    if b = CR then (afterCr rest, 0)
    else if b = LF then (.lineBad, 0)
    else ((scanLine rest).1, (scanLine rest).2 + 1)

theorem scanLine_le (l : List UInt8) : (scanLine l).2 ≤ l.length := by
  fun_induction scanLine l with
  | case1 => exact Nat.zero_le _
  | case2 rest => exact Nat.zero_le _
  | case3 rest hcr => exact Nat.zero_le _
  | case4 b rest hcr hlf ih => exact Nat.succ_le_succ ih

/-- A complete line is followed by its CR and LF. -/
theorem scanLine_lineOk {l : List UInt8} (h : (scanLine l).1 = .lineOk) :
    (scanLine l).2 + 2 ≤ l.length := by
  fun_induction scanLine l with
  | case1 => cases h
  | case2 rest =>
    cases rest with
    | nil => cases h
    | cons b rest => exact Nat.le_add_left 2 rest.length
  | case3 rest hcr => cases h
  | case4 b rest hcr hlf ih => exact Nat.succ_le_succ (ih h)

/-- A search that ran out of bytes has at most a CR left. -/
theorem scanLine_lineOpen {l : List UInt8} (h : (scanLine l).1 = .lineOpen) :
    l.length ≤ (scanLine l).2 + 1 := by
  fun_induction scanLine l with
  | case1 => exact Nat.zero_le _
  | case2 rest =>
    cases rest with
    | nil => exact Nat.le_refl _
    | cons b rest =>
      -- a byte behind the CR decides the line
      simp only [afterCr] at h
      split at h <;> cases h
  | case3 rest hcr => cases h
  | case4 b rest hcr hlf ih => exact Nat.succ_le_succ (ih h)

/-- A search that has come to an end is not changed by what follows. -/
theorem scanLine_append_closed {l : List UInt8} (h : (scanLine l).1 ≠ .lineOpen)
    (x : List UInt8) : scanLine (l ++ x) = scanLine l := by
  fun_induction scanLine l with
  | case1 => exact absurd rfl h
  | case2 rest =>
    cases rest with
    | nil => exact absurd rfl h
    | cons b rest => rfl
  | case3 rest hcr => rfl
  | case4 b rest hcr hlf ih => rw [List.cons_append, scanLine, if_neg hcr, if_neg hlf, ih h]

/-- Bytes before the end of the search may be left out. -/
theorem scanLine_drop {l : List UInt8} {k : ℕ} (h : k ≤ (scanLine l).2) :
    scanLine (l.drop k) = ((scanLine l).1, (scanLine l).2 - k) := by
  fun_induction scanLine l generalizing k with
  -- where the search ends at once nothing can be left out
  | case1 =>
    obtain rfl := Nat.le_zero.mp h
    rfl
  | case2 rest =>
    obtain rfl := Nat.le_zero.mp h
    rfl
  | case3 rest hcr =>
    obtain rfl := Nat.le_zero.mp h
    rfl
  | case4 b rest hcr hlf ih =>
    cases k with
    | zero => rw [List.drop_zero, scanLine, if_neg hcr, if_neg hlf, Nat.sub_zero]
    | succ k => rw [List.drop_succ_cons, ih (Nat.le_of_succ_le_succ h), Nat.add_sub_add_right]

/-- No CR stands before the end of the search. -/
theorem scanLine_ne_cr {l : List UInt8} {k : ℕ} (h : k < (scanLine l).2) : l[k]? ≠ some CR := by
  fun_induction scanLine l generalizing k with
  | case1 => exact absurd h (Nat.not_lt_zero k)
  | case2 rest => exact absurd h (Nat.not_lt_zero k)
  | case3 rest hcr => exact absurd h (Nat.not_lt_zero k)
  | case4 b rest hcr hlf ih =>
    cases k with
    | zero =>
      rw [List.getElem?_cons_zero]
      intro heq
      exact hcr (Option.some.inj heq)
    | succ k =>
      rw [List.getElem?_cons_succ]
      exact ih (Nat.lt_of_succ_lt_succ h)

/-- More bytes never end the search earlier. -/
theorem scanLine_append_le (l x : List UInt8) : (scanLine l).2 ≤ (scanLine (l ++ x)).2 := by
  fun_induction scanLine l with
  | case1 => exact Nat.zero_le _
  | case2 rest => exact Nat.zero_le _
  | case3 rest hcr => exact Nat.zero_le _
  | case4 b rest hcr hlf ih =>
    rw [List.cons_append, scanLine, if_neg hcr, if_neg hlf]
    exact Nat.succ_le_succ ih

/-- A search that ran out of bytes goes on where it stood. -/
theorem scanLine_append_drop (l x : List UInt8) :
    scanLine (l.drop (scanLine l).2 ++ x) =
      ((scanLine (l ++ x)).1, (scanLine (l ++ x)).2 - (scanLine l).2) := by
  have hdrop : l.drop (scanLine l).2 ++ x = (l ++ x).drop (scanLine l).2 := by
    rw [List.drop_append_of_le_length (scanLine_le l)]
  rw [hdrop, scanLine_drop (scanLine_append_le l x)]

/-- A line that was not complete is completed by bytes that arrive later. -/
theorem scanLine_completed {l x : List UInt8} (h : (scanLine l).1 ≠ .lineOk)
    (hline : (scanLine (l ++ x)).1 = .lineOk) : l.length < (scanLine (l ++ x)).2 + 2 := by
  -- a search that failed for good is not completed by anything
  have hopen : (scanLine l).1 = .lineOpen := by
    by_contra hclosed
    rw [scanLine_append_closed hclosed] at hline
    exact h hline
  have hlen := scanLine_lineOpen hopen
  have hle := scanLine_append_le l x
  omega

/-! ## The lines of the head -/

/-- What the parser keeps of a request. -/
structure Req where
  /-- index and text of the target, once the request line has been read -/
  target : Option (ℕ × List UInt8)
  linger : Bool
  contentLength : ℤ
deriving Repr, DecidableEq

namespace Req

def init : Req := ⟨none, false, 0⟩

/-- The path in a target, with its index: a scheme and a host in front of it are skipped. -/
def targetOf (url : List UInt8) : Option (ℕ × List UInt8) :=
  let offset :=
    if strncasecmp url (ascii "http://") 7 = 0 then (strchr (url.drop 7) 47).map (7 + ·)
    else some 0
  match offset with
  | none => none
  | some k => if (url.drop k).headD 0 ≠ 47 then none else some (k, url.drop k)

/-- The path in a request line, with its index; `none` when the line is no request. -/
def requestLine (line : List UInt8) : Option (ℕ × List UInt8) :=
  match strpbrk line blanks with
  | none => none
  | some i =>
    if strcasecmp (line.take i) (ascii "GET") ≠ 0 then none
    else
      match strpbrk (line.drop (i + 1)) blanks with
      | none => none
      | some j =>
        if strcasecmp ((line.drop (i + 1)).drop (j + 1)) (ascii "HTTP/1.1") ≠ 0 then none
        else
          (targetOf ((line.drop (i + 1)).take j)).map fun target =>
            (i + 1 + target.1, target.2)

theorem targetOf_le {url : List UInt8} {k : ℕ} {path : List UInt8}
    (h : targetOf url = some (k, path)) : k + path.length ≤ url.length := by
  unfold targetOf at h
  simp only at h
  split at h
  · cases h
  · split at h
    · cases h
    · rename_i hslash
      cases h
      have hlt : k < url.length := by
        by_contra hge
        rw [List.drop_of_length_le (by omega)] at hslash
        exact hslash (by decide)
      rw [List.length_drop]
      omega

/-- The path lies inside the line. -/
theorem requestLine_le {line : List UInt8} {i : ℕ} {path : List UInt8}
    (h : requestLine line = some (i, path)) : i + path.length ≤ line.length := by
  unfold requestLine at h
  split at h
  · cases h
  · rename_i i hi
    have hlt := strpbrk_lt hi
    split at h
    · cases h
    · split at h
      · cases h
      · split at h
        · cases h
        · obtain ⟨⟨k, path'⟩, htarget, heq⟩ := Option.map_eq_some_iff.mp h
          cases heq
          have hle := targetOf_le htarget
          rw [List.length_take, List.length_drop] at hle
          simp only
          omega

/-- The text of a header field behind its name of `n` bytes. -/
def value (line : List UInt8) (n : ℕ) : List UInt8 :=
  (line.drop n).drop (strspn (line.drop n) blanks)

/-- A header line. -/
def header (r : Req) (line : List UInt8) : Req :=
  if strncasecmp line (ascii "Connection:") 11 = 0 then
    if strcasecmp (value line 11) (ascii "keep-alive") = 0 then { r with linger := true } else r
  else if strncasecmp line (ascii "Content-Length:") 15 = 0 then
    { r with contentLength := atol (value line 15) }
  else r

/-- What one line of the head does. -/
inductive Next where
  | bad
  | go (r : Req)
  /-- the empty line at the end of the head -/
  | finished
deriving Repr, DecidableEq

/-- The line that starts at index `pos`. -/
def next (r : Req) (pos : ℕ) (line : List UInt8) : Next :=
  match r.target with
  | none =>
    match requestLine line with
    | none => .bad
    | some (i, url) => .go { r with target := some (pos + i, url) }
  | some _ => if line = [] then .finished else .go (r.header line)

end Req

/-- What the caller of `process_read` sees: its result and, where `do_request` is reached, the
members that decide the response. -/
inductive Outcome where
  | noRequest
  | badRequest
  | doRequest (url : List UInt8) (linger : Bool) (contentLength : ℤ)
deriving Repr, DecidableEq

/-- The target after a NUL has been stored at index `cut`. -/
def Req.url (r : Req) (cut : Option ℤ) : List UInt8 :=
  match r.target, cut with
  | none, _ => []
  | some (_, path), none => path
  | some (u, path), some i => if (u : ℤ) ≤ i then path.take (i - u).toNat else path

/-- A complete request. -/
def Req.outcome (r : Req) (cut : Option ℤ) : Outcome :=
  .doRequest (r.url cut) r.linger r.contentLength

/-- A line as the C string the parser sees: up to its first NUL. -/
def lineText (l : List UInt8) : List UInt8 := (l.take (scanLine l).2).takeWhile (· != 0)

/-- Where reading the head ends. -/
inductive Found where
  /-- the line at `pos` is not complete, or will never be -/
  | waiting (pos : ℕ) (r : Req) (rest : List UInt8)
  | bad
  /-- a request without a body -/
  | complete (r : Req)
  /-- the head ends at `pos`, `rest` is the body received so far -/
  | body (pos : ℕ) (r : Req) (rest : List UInt8)
deriving Repr, DecidableEq

set_option linter.unusedVariables false in
/-- Read the head from the start of the line at `pos`, the first of the bytes `l`. -/
def headRun (pos : ℕ) (r : Req) (l : List UInt8) : Found :=
  if hline : (scanLine l).1 = .lineOk then
    -- behind the CR and the LF
    let pos' := pos + (scanLine l).2 + 2
    let l' := l.drop ((scanLine l).2 + 2)
    match r.next pos (lineText l) with
    | .bad => .bad
    | .go r' => headRun pos' r' l'
    | .finished => if r.contentLength ≠ 0 then .body pos' r l' else .complete r
  else .waiting pos r l
termination_by l.length
decreasing_by
  have hle := scanLine_lineOk hline
  rw [List.length_drop]
  omega

/-- The line text does not change when more bytes follow a complete line. -/
theorem lineText_append {l : List UInt8} (h : (scanLine l).1 = .lineOk) (x : List UInt8) :
    lineText (l ++ x) = lineText l := by
  have hle := scanLine_lineOk h
  unfold lineText
  rw [scanLine_append_closed (by rw [h]; decide), List.take_append_of_le_length (by omega)]

/-- Bytes that arrive later, joined to where reading the head ended. -/
def Found.append (x : List UInt8) : Found → Found
  | .waiting pos r rest => headRun pos r (rest ++ x)
  | .bad => .bad
  | .complete r => .complete r
  | .body pos r rest => .body pos r (rest ++ x)

/-- A complete line is read the same way whatever follows it. -/
theorem headRun_append_line {pos : ℕ} {r : Req} {l : List UInt8} (hline : (scanLine l).1 = .lineOk)
    (x : List UInt8) :
    headRun pos r (l ++ x) =
      match r.next pos (lineText l) with
      | .bad => .bad
      | .go r' => headRun (pos + (scanLine l).2 + 2) r' (l.drop ((scanLine l).2 + 2) ++ x)
      | .finished =>
        if r.contentLength ≠ 0 then
          .body (pos + (scanLine l).2 + 2) r (l.drop ((scanLine l).2 + 2) ++ x)
        else .complete r := by
  have hscan : scanLine (l ++ x) = scanLine l :=
    scanLine_append_closed (by rw [hline]; decide) x
  have hdrop : (l ++ x).drop ((scanLine l).2 + 2) = l.drop ((scanLine l).2 + 2) ++ x :=
    List.drop_append_of_le_length (scanLine_lineOk hline)
  rw [headRun, hscan, dif_pos hline]
  simp only [lineText_append hline, hdrop]

/-- Reading the head works in pieces. -/
theorem headRun_append (pos : ℕ) (r : Req) (l x : List UInt8) :
    headRun pos r (l ++ x) = (headRun pos r l).append x := by
  fun_induction headRun pos r l with
  | case1 pos r l hline hnext =>
    rw [headRun_append_line hline, hnext]
    rfl
  | case2 pos r l hline pos₁ l₁ r₁ hnext ih =>
    rw [headRun_append_line hline, hnext]
    exact ih
  | case3 pos r l hline pos₁ l₁ hnext hne =>
    rw [headRun_append_line hline, hnext]
    exact if_pos hne
  | case4 pos r l hline hnext hzero =>
    rw [headRun_append_line hline, hnext]
    exact if_neg hzero
  | case5 pos r l hline => rfl

/-- A header leaves the target alone. -/
theorem Req.header_target (r : Req) (line : List UInt8) : (r.header line).target = r.target := by
  unfold Req.header
  repeat' split
  all_goals rfl

theorem Req.header_range (r : Req) (line : List UInt8)
    (h : longMin ≤ r.contentLength ∧ r.contentLength ≤ longMax) :
    longMin ≤ (r.header line).contentLength ∧ (r.header line).contentLength ≤ longMax := by
  unfold Req.header
  repeat' split
  all_goals first | exact h | exact atol_range _

theorem Req.next_bad {r : Req} {pos : ℕ} {line : List UInt8} (h : r.next pos line = .bad) :
    r.target = none ∧ Req.requestLine line = none := by
  unfold Req.next at h
  split at h
  · rename_i htarget
    split at h
    · rename_i hline
      exact ⟨htarget, hline⟩
    · cases h
  · split at h <;> cases h

/-- A line that the head goes on behind is the request line or a header. -/
theorem Req.next_go {r r' : Req} {pos : ℕ} {line : List UInt8} (h : r.next pos line = .go r') :
    (r.target = none ∧ ∃ i path, Req.requestLine line = some (i, path) ∧
        r' = { r with target := some (pos + i, path) }) ∨
      (r.target ≠ none ∧ line ≠ [] ∧ r' = r.header line) := by
  unfold Req.next at h
  split at h
  · rename_i htarget
    split at h <;> cases h
    rename_i i path hline
    exact Or.inl ⟨htarget, i, path, hline, rfl⟩
  · rename_i target htarget
    split at h <;> cases h
    rename_i hne
    exact Or.inr ⟨by rw [htarget]; exact Option.some_ne_none _, hne, rfl⟩

theorem Req.next_finished {r : Req} {pos : ℕ} {line : List UInt8}
    (h : r.next pos line = .finished) : r.target ≠ none ∧ line = [] := by
  unfold Req.next at h
  split at h
  · split at h <;> cases h
  · rename_i target htarget
    split at h
    · rename_i hline
      exact ⟨by rw [htarget]; exact Option.some_ne_none _, hline⟩
    · cases h

theorem Req.next_range {r r' : Req} {pos : ℕ} {line : List UInt8}
    (h : longMin ≤ r.contentLength ∧ r.contentLength ≤ longMax)
    (hnext : r.next pos line = .go r') :
    longMin ≤ r'.contentLength ∧ r'.contentLength ≤ longMax := by
  rcases Req.next_go hnext with ⟨-, i, path, -, rfl⟩ | ⟨-, -, rfl⟩
  · exact h
  · exact Req.header_range r line h

/-- A body begins behind the head, with a length that was announced and fits a `long`. -/
theorem headRun_body {pos H : ℕ} {r r' : Req} {l rest : List UInt8}
    (h : headRun pos r l = .body H r' rest)
    (hr : longMin ≤ r.contentLength ∧ r.contentLength ≤ longMax) :
    (longMin ≤ r'.contentLength ∧ r'.contentLength ≤ longMax) ∧ r'.contentLength ≠ 0 ∧
      (scanLine l).1 = .lineOk ∧ pos + (scanLine l).2 + 2 ≤ H ∧ H ≤ pos + l.length ∧
      rest = l.drop (H - pos) := by
  fun_induction headRun pos r l with
  | case1 pos r l hline hnext => cases h
  | case2 pos r l hline pos₁ l₁ r₁ hnext ih =>
    have hlen := scanLine_lineOk hline
    obtain ⟨hrange, hne, -, hlt, hle, hrest⟩ := ih h (Req.next_range hr hnext)
    rw [List.length_drop] at hle
    refine ⟨hrange, hne, hline, by omega, by omega, ?_⟩
    rw [hrest, List.drop_drop]
    congr 1
    omega
  | case3 pos r l hline pos₁ l₁ hnext hne =>
    have hlen := scanLine_lineOk hline
    obtain ⟨hH, rfl, rfl⟩ := Found.body.inj h
    have hsub : H - pos = (scanLine l).2 + 2 := by omega
    exact ⟨hr, hne, hline, by omega, by omega, by rw [hsub]⟩
  | case4 pos r l hline hnext hzero => cases h
  | case5 pos r l hline => cases h

/-- Where the head waits, it waits for the end of a line. -/
theorem headRun_waiting {pos pos' : ℕ} {r r' : Req} {l l' : List UInt8}
    (h : headRun pos r l = .waiting pos' r' l')
    (hr : longMin ≤ r.contentLength ∧ r.contentLength ≤ longMax) :
    (longMin ≤ r'.contentLength ∧ r'.contentLength ≤ longMax) ∧ (scanLine l').1 ≠ .lineOk ∧
      pos ≤ pos' ∧ l' = l.drop (pos' - pos) := by
  fun_induction headRun pos r l with
  | case1 pos r l hline hnext => cases h
  | case2 pos r l hline pos₁ l₁ r₁ hnext ih =>
    obtain ⟨hrange, hwait, hle, hrest⟩ := ih h (Req.next_range hr hnext)
    refine ⟨hrange, hwait, by omega, ?_⟩
    rw [hrest, List.drop_drop]
    congr 1
    omega
  | case3 pos r l hline pos₁ l₁ hnext hne => cases h
  | case4 pos r l hline hnext hzero => cases h
  | case5 pos r l hline =>
    cases h
    exact ⟨hr, hline, Nat.le_refl _, by rw [Nat.sub_self, List.drop_zero]⟩

/-! ## The body -/

set_option linter.unusedVariables false in
/-- The lines of a body: the end of the last complete one, and the place where the search for
another one stops. -/
def scanBody (l : List UInt8) : ℕ × ℕ :=
  if hline : (scanLine l).1 = .lineOk then
    let n := (scanLine l).2 + 2
    (n + (scanBody (l.drop n)).1, n + (scanBody (l.drop n)).2)
  else (0, (scanLine l).2)
termination_by l.length
decreasing_by
  all_goals
    have hle := scanLine_lineOk hline
    rw [List.length_drop]
    omega

theorem scanBody_lineOk {l : List UInt8} (h : (scanLine l).1 = .lineOk) :
    scanBody l = ((scanLine l).2 + 2 + (scanBody (l.drop ((scanLine l).2 + 2))).1,
      (scanLine l).2 + 2 + (scanBody (l.drop ((scanLine l).2 + 2))).2) := by
  rw [scanBody, dif_pos h]

theorem scanBody_other {l : List UInt8} (h : (scanLine l).1 ≠ .lineOk) :
    scanBody l = (0, (scanLine l).2) := by
  rw [scanBody, dif_neg h]

theorem scanBody_le (l : List UInt8) :
    (scanBody l).1 ≤ (scanBody l).2 ∧ (scanBody l).2 ≤ l.length := by
  fun_induction scanBody l with
  | case1 l hline n ih =>
    have hle := scanLine_lineOk hline
    rw [List.length_drop] at ih
    omega
  | case2 l hline => exact ⟨Nat.zero_le _, scanLine_le l⟩

theorem scanBody_append_lineOk {l : List UInt8} (h : (scanLine l).1 = .lineOk)
    (x : List UInt8) :
    scanBody (l ++ x) = ((scanLine l).2 + 2 + (scanBody (l.drop ((scanLine l).2 + 2) ++ x)).1,
      (scanLine l).2 + 2 + (scanBody (l.drop ((scanLine l).2 + 2) ++ x)).2) := by
  have hscan : scanLine (l ++ x) = scanLine l := scanLine_append_closed (by rw [h]; decide) x
  rw [scanBody_lineOk (by rw [hscan]; exact h), hscan,
    List.drop_append_of_le_length (scanLine_lineOk h)]

/-- Inside a line, the search goes on where the search for its end stopped. -/
theorem scanBody_append_other (l x : List UInt8) :
    (scanBody (l ++ x)).2 = (scanLine l).2 + (scanBody (l.drop (scanLine l).2 ++ x)).2 ∧
      max (scanLine l).2 (scanBody (l ++ x)).1 =
        (scanLine l).2 + (scanBody (l.drop (scanLine l).2 ++ x)).1 := by
  have hdrop := scanLine_append_drop l x
  have hle := scanLine_append_le l x
  -- `m` is what is left to search: the end of an incomplete line and the new bytes
  generalize hm : l.drop (scanLine l).2 ++ x = m at hdrop
  by_cases hok : (scanLine (l ++ x)).1 = .lineOk
  · have hsum : (scanLine l).2 + ((scanLine (l ++ x)).2 - (scanLine l).2 + 2)
        = (scanLine (l ++ x)).2 + 2 := by omega
    have hrest : m.drop ((scanLine m).2 + 2) = (l ++ x).drop ((scanLine (l ++ x)).2 + 2) := by
      rw [← hm, ← List.drop_append_of_le_length (scanLine_le l), List.drop_drop,
        List.drop_append_of_le_length (scanLine_le l), hm, hdrop, hsum]
    have hmok : (scanLine m).1 = .lineOk := by rw [hdrop]; exact hok
    rw [scanBody_lineOk hok, scanBody_lineOk hmok, hrest, hdrop]
    simp only
    omega
  · have hmok : (scanLine m).1 ≠ .lineOk := by rw [hdrop]; exact hok
    rw [scanBody_other hok, scanBody_other hmok, hdrop]
    simp only
    omega

/-- A search of the body goes on where it stopped, and the last line end it then finds is that
of the whole body, unless there is none left to find. -/
theorem scanBody_append (l x : List UInt8) :
    (scanBody (l ++ x)).2 = (scanBody l).2 + (scanBody (l.drop (scanBody l).2 ++ x)).2 ∧
      max (scanBody l).2 (scanBody (l ++ x)).1 =
        (scanBody l).2 + (scanBody (l.drop (scanBody l).2 ++ x)).1 := by
  fun_induction scanBody l with
  | case1 l hline n ih =>
    rw [List.drop_drop] at ih
    rw [scanBody_append_lineOk hline]
    subst n
    simp only at ih ⊢
    omega
  | case2 l hline => exact scanBody_append_other l x

/-- Line ends are not lost when more bytes arrive. -/
theorem scanBody_append_mono (l x : List UInt8) : (scanBody l).1 ≤ (scanBody (l ++ x)).1 := by
  fun_induction scanBody l with
  | case1 l hline n ih =>
    rw [scanBody_append_lineOk hline]
    exact Nat.add_le_add_left ih n
  | case2 l hline => exact Nat.zero_le _

/-- How a call that works on the body ends. `start` is the start of the line before the place
where the lengths were compared last. -/
inductive Body where
  | accepted (start : ℕ)
  | waiting (start pos : ℕ) (rest : List UInt8)
deriving Repr, DecidableEq

set_option linter.unusedVariables false in
/-- Work on the body from index `pos` on, the first of the bytes `l`, when `contentLength` bytes
were announced. -/
def bodyRun (contentLength : ℤ) (start pos : ℕ) (l : List UInt8) : Body :=
  if ReadState.toLong (contentLength + pos) ≤ (pos + l.length : ℕ) then .accepted start
  else if hline : (scanLine l).1 = .lineOk then
    bodyRun contentLength pos (pos + (scanLine l).2 + 2) (l.drop ((scanLine l).2 + 2))
  else .waiting pos (pos + (scanLine l).2) (l.drop (scanLine l).2)
termination_by l.length
decreasing_by
  have hle := scanLine_lineOk hline
  rw [List.length_drop]
  omega

set_option linter.unusedVariables false in
/-- The sums that are formed on the way. -/
def bodySums (contentLength : ℤ) (pos : ℕ) (l : List UInt8) : List ℤ :=
  if ReadState.toLong (contentLength + pos) ≤ (pos + l.length : ℕ) then [contentLength + pos]
  else if hline : (scanLine l).1 = .lineOk then
    (contentLength + pos) ::
      bodySums contentLength (pos + (scanLine l).2 + 2) (l.drop ((scanLine l).2 + 2))
  else [contentLength + pos]
termination_by l.length
decreasing_by
  have hle := scanLine_lineOk hline
  rw [List.length_drop]
  omega

/-- The comparison of `parse_request_content`: a sum that leaves the range of `long` is negative
afterwards, and so never too large. -/
theorem toLong_le_iff {contentLength : ℤ} (hmin : longMin ≤ contentLength)
    (hmax : contentLength ≤ longMax) (pos n : ℕ) (hpos : pos ≤ readBufferSize)
    (hn : n ≤ readBufferSize) :
    ReadState.toLong (contentLength + pos) ≤ n ↔
      contentLength + pos ≤ n ∨ longMax < contentLength + pos := by
  unfold longMin at hmin
  unfold longMax at hmax ⊢
  unfold readBufferSize at hpos hn
  unfold ReadState.toLong
  -- `pos` is small, so a sum that overflows wraps to the negative end of the range
  by_cases hover : 2 ^ 63 - 1 < contentLength + pos
  · have hwrap : (contentLength + pos).bmod (2 ^ 64) = contentLength + pos - 2 ^ 64 := by
      rw [Int.bmod_def]
      split <;> omega
    rw [hwrap]
    omega
  · have hsame : (contentLength + pos).bmod (2 ^ 64) = contentLength + pos := by
      rw [Int.bmod_def]
      split <;> omega
    rw [hsame]
    omega

/-- A call accepts the body when all bytes announced are there behind `pos`, or when the sum
overflows at a line end it comes to. -/
theorem bodyRun_accepted_iff {contentLength : ℤ} (hmin : longMin ≤ contentLength)
    (hmax : contentLength ≤ longMax) (start pos : ℕ) (l : List UInt8)
    (hle : pos + l.length ≤ readBufferSize) :
    (∃ start', bodyRun contentLength start pos l = .accepted start') ↔
      contentLength ≤ l.length ∨ longMax < contentLength + pos + (scanBody l).1 := by
  fun_induction bodyRun contentLength start pos l with
  | case1 start pos l haccept =>
    have htest := toLong_le_iff hmin hmax pos (pos + l.length) (by omega) hle
    simp only [Body.accepted.injEq, exists_eq', true_iff]
    rcases htest.mp haccept with h | h <;> omega
  | case2 start pos l haccept hline ih =>
    have hlen := scanLine_lineOk hline
    rw [toLong_le_iff hmin hmax pos (pos + l.length) (by omega) hle, not_or] at haccept
    rw [List.length_drop] at ih
    rw [ih (by omega), scanBody_lineOk hline]
    omega
  | case3 start pos l haccept hline =>
    rw [toLong_le_iff hmin hmax pos (pos + l.length) (by omega) hle, not_or] at haccept
    rw [scanBody_other hline]
    simp only [reduceCtorEq, exists_false, false_iff]
    omega

/-- A call that accepts nothing leaves the body where the search for lines stopped. -/
theorem bodyRun_waiting {contentLength : ℤ} {start pos start' pos' : ℕ} {l rest : List UInt8}
    (h : bodyRun contentLength start pos l = .waiting start' pos' rest) :
    start' = pos + (scanBody l).1 ∧ pos' = pos + (scanBody l).2 ∧
      rest = l.drop (scanBody l).2 := by
  fun_induction bodyRun contentLength start pos l with
  | case1 start pos l haccept => cases h
  | case2 start pos l haccept hline ih =>
    obtain ⟨hstart, hpos, hrest⟩ := ih h
    rw [scanBody_lineOk hline]
    refine ⟨by omega, by omega, ?_⟩
    rw [hrest, List.drop_drop]
  | case3 start pos l haccept hline =>
    cases h
    rw [scanBody_other hline]
    exact ⟨rfl, rfl, rfl⟩

/-- The line before the place of acceptance does not start before the one a call began with. -/
theorem bodyRun_accepted_start {contentLength : ℤ} {start pos start' : ℕ} {l : List UInt8}
    (hstart : start ≤ pos) (h : bodyRun contentLength start pos l = .accepted start') :
    start ≤ start' := by
  fun_induction bodyRun contentLength start pos l with
  | case1 start pos l haccept =>
    cases h
    exact Nat.le_refl _
  | case2 start pos l haccept hline ih => exact Nat.le_trans hstart (ih (by omega) h)
  | case3 start pos l haccept hline => cases h

end Webservers
