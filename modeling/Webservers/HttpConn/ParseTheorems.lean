import Webservers.HttpConn.LineTheorems

/-!
# The parser refines its specification

`process_read` keeps indices into `m_read_buf` and resumes from them. This file shows that it
computes what `headRun` and `bodyRun` say of the bytes received.

* `HeadAt` and `BodyAt` say that a slot stands in the head or in the body of a request.
* `deliver_headAt` and `deliver_bodyAt` keep them when bytes arrive.
* `processRead_head` and `processRead_body` are the calls of `process_read` from them: their
  results, where the slot stands afterwards, and which stores and sums they made.
-/

namespace Webservers
namespace ReadState

/-! ## Where a slot stands -/

/-- The target of the request, as `m_check_state`, `m_url` and the buffer have it. Its NUL
stands before index `limit`. -/
def TargetAt (c : ReadState) (r : Req) (limit : ℕ) : Prop :=
  match r.target with
  | none => c.checkState = .requestLite
  | some (u, path) => c.checkState = .header ∧ c.url = some u ∧ c.text u = path ∧
      u + path.length < limit

/-- The slot stands in the head of a request, in the line that starts at `pos`; `l` are the bytes
received from there on. -/
structure HeadAt (c : ReadState) (pos : ℕ) (r : Req) (l : List UInt8) : Prop where
  startLine : c.startLine = pos
  readIndex : c.readIndex = pos + l.length
  fits : c.readIndex ≤ readBufferSize
  bytes : slice c.readBuf pos l.length = l
  checked : pos ≤ c.checkedIndex ∧ c.checkedIndex ≤ pos + (scanLine l).2
  lineStart : pos = 0 ∨ c.readBuf (pos - 1) = 0
  linger : c.linger = r.linger
  contentLength : c.contentLength = r.contentLength
  target : TargetAt c r pos

/-- The slot stands in the body of a request, the bytes up to `pos` checked; `l` are the bytes
received from there on. -/
structure BodyAt (c : ReadState) (start pos : ℕ) (r : Req) (l : List UInt8) : Prop where
  checkState : c.checkState = .content
  startLine : c.startLine = start
  checked : c.checkedIndex = pos
  start_le : start ≤ pos
  readIndex : c.readIndex = pos + l.length
  fits : c.readIndex ≤ readBufferSize
  bytes : slice c.readBuf pos l.length = l
  clean : CleanStart c
  linger : c.linger = r.linger
  contentLength : c.contentLength = r.contentLength
  target : ∃ u path, r.target = some (u, path) ∧ c.url = some u ∧ c.text u = path ∧
    u + path.length < start

theorem headAt_init : HeadAt init 0 Req.init [] where
  startLine := rfl
  readIndex := rfl
  fits := Nat.zero_le _
  bytes := rfl
  checked := ⟨Nat.zero_le _, Nat.zero_le _⟩
  lineStart := Or.inl rfl
  linger := rfl
  contentLength := rfl
  target := rfl

/-- A string whose NUL stands before `limit` does not change while the bytes before `limit` do
not. -/
theorem text_of_below {c c' : ReadState} {u limit : ℕ} {path : List UInt8}
    (hsame : ∀ k, k < limit → c'.readBuf k = c.readBuf k) (htext : c.text u = path)
    (hlt : u + path.length < limit) : c'.text u = path := by
  rw [← htext]
  apply text_congr
  intro j _ hj
  rw [htext] at hj
  exact hsame j (by omega)

/-- The target stays where it is while nothing before `limit` changes. -/
theorem TargetAt.congr {c c' : ReadState} {r : Req} {limit : ℕ} (h : TargetAt c r limit)
    (hstate : c'.checkState = c.checkState) (hurl : c'.url = c.url)
    (hsame : ∀ k, k < limit → c'.readBuf k = c.readBuf k) : TargetAt c' r limit := by
  unfold TargetAt at h ⊢
  rw [hstate, hurl]
  cases hr : r.target with
  | none =>
    rw [hr] at h
    exact h
  | some target =>
    obtain ⟨u, path⟩ := target
    rw [hr] at h
    obtain ⟨hheader, hu, htext, hlt⟩ := h
    exact ⟨hheader, hu, text_of_below hsame htext hlt, hlt⟩

theorem TargetAt.mono {c : ReadState} {r : Req} {limit limit' : ℕ} (h : TargetAt c r limit)
    (hle : limit ≤ limit') : TargetAt c r limit' := by
  unfold TargetAt at h ⊢
  split at h
  · exact h
  · exact ⟨h.1, h.2.1, h.2.2.1, Nat.lt_of_lt_of_le h.2.2.2 hle⟩

/-- Once a request has its target, the slot reads headers. -/
theorem TargetAt.found {c : ReadState} {r : Req} {limit : ℕ} (h : TargetAt c r limit)
    (hr : r.target ≠ none) :
    c.checkState = .header ∧ ∃ u path, r.target = some (u, path) ∧ c.url = some u ∧
      c.text u = path ∧ u + path.length < limit := by
  obtain ⟨⟨u, path⟩, hsome⟩ := Option.ne_none_iff_exists'.mp hr
  rw [TargetAt, hsome] at h
  obtain ⟨hheader, hu, htext, hlt⟩ := h
  exact ⟨hheader, u, path, hsome, hu, htext, hlt⟩

/-! ## Bytes arrive -/

theorem HeadAt.lineFrom {c : ReadState} {pos : ℕ} {r : Req} {l : List UInt8}
    (h : HeadAt c pos r l) : LineFrom c pos l :=
  ⟨h.startLine, h.readIndex, h.bytes, h.checked, h.lineStart⟩

theorem deliver_headAt {c : ReadState} {pos : ℕ} {r : Req} {l : List UInt8}
    (h : HeadAt c pos r l) (x : List UInt8)
    (hfit : c.readIndex + x.length ≤ readBufferSize) : HeadAt (c.deliver x) pos r (l ++ x) := by
  have hread := h.readIndex
  have hfrom := h.lineFrom.deliver x
  refine ⟨hfrom.startLine, hfrom.readIndex, hfit, hfrom.bytes, hfrom.checked, hfrom.lineStart,
    h.linger, h.contentLength, ?_⟩
  refine h.target.congr rfl rfl (fun k hk => ?_)
  exact deliver_below c x (by omega)

theorem deliver_bodyAt {c : ReadState} {start pos : ℕ} {r : Req} {l : List UInt8}
    (h : BodyAt c start pos r l) (x : List UInt8)
    (hfit : c.readIndex + x.length ≤ readBufferSize) :
    BodyAt (c.deliver x) start pos r (l ++ x) := by
  have hread := h.readIndex
  have hchecked := h.checked
  have hstart := h.start_le
  constructor
  case checkState => exact h.checkState
  case startLine => exact h.startLine
  case checked => exact hchecked
  case start_le => exact hstart
  case readIndex =>
    show c.readIndex + x.length = pos + (l ++ x).length
    rw [List.length_append]
    omega
  case fits => exact hfit
  case bytes => rw [List.length_append, slice_deliver c pos l.length x h.readIndex, h.bytes]
  case clean =>
    intro hprev
    obtain ⟨hone, hcr⟩ := hprev
    change 1 < c.checkedIndex at hone
    change (c.deliver x).readBuf (c.checkedIndex - 1) = CR at hcr
    rw [deliver_below c x (by omega)] at hcr
    exact h.clean ⟨hone, hcr⟩
  case linger => exact h.linger
  case contentLength => exact h.contentLength
  case target =>
    obtain ⟨u, path, hr, hurl, htext, hlt⟩ := h.target
    refine ⟨u, path, hr, hurl, text_of_below (fun k hk => ?_) htext hlt, hlt⟩
    exact deliver_below c x (by omega)

/-! ## The main state machine, state by state -/

/-- The slot with `m_start_line = m_checked_index`. -/
def entered (c : ReadState) : ReadState := { c with startLine := c.checkedIndex }

theorem mainSwitch_requestLite {c : ReadState} (h : c.checkState = .requestLite) :
    c.mainSwitch =
      match c.entered.parseRequestLine c.startLine with
      | (.badRequest, c) => .inl (.badRequest, c)
      | (_, c) => .inr (.lineOk, c) := by
  unfold mainSwitch
  simp only
  split <;> rename_i hstate
  · rfl
  · rw [h] at hstate
    cases hstate
  · rw [h] at hstate
    cases hstate

theorem mainSwitch_headers {c : ReadState} (h : c.checkState = .header) :
    c.mainSwitch =
      match c.entered.parseRequestHeader c.startLine with
      | (.badRequest, c) => .inl (.badRequest, c)
      | (.getRequest, c) => .inl (.doRequest, c)
      | (_, c) => .inr (.lineOk, c) := by
  unfold mainSwitch
  simp only
  split <;> rename_i hstate
  · rw [h] at hstate
    cases hstate
  · rfl
  · rw [h] at hstate
    cases hstate

/-- The slot after a comparison in the body. -/
def compared (c : ReadState) : ReadState :=
  { c.entered with sums := c.sums ++ [c.contentLength + c.checkedIndex] }

theorem mainSwitch_content {c : ReadState} (h : c.checkState = .content) :
    c.mainSwitch =
      if toLong (c.contentLength + c.checkedIndex) ≤ c.readIndex then
        .inl (.doRequest, c.compared.store (c.startLine + c.contentLength))
      else .inr (.lineOpen, c.compared) := by
  unfold mainSwitch
  simp only
  split <;> rename_i hstate
  · rw [h] at hstate
    cases hstate
  · rw [h] at hstate
    cases hstate
  · unfold parseRequestContent
    simp only
    by_cases htest : toLong (c.contentLength + c.checkedIndex) ≤ c.readIndex
    · rw [if_pos htest, if_pos htest]
      rfl
    · rw [if_neg htest, if_neg htest]
      rfl

/-! ## A line of the head -/

section HeadLine

variable {c : ReadState} {pos : ℕ} {r : Req} {l : List UInt8}

/-- A line that is not complete is waited for. -/
theorem HeadAt.parseLine_waits (h : HeadAt c pos r l) (hline : (scanLine l).1 ≠ .lineOk) :
    c.parseLine = ((scanLine l).1, { c with checkedIndex := pos + (scanLine l).2 }) ∧
      HeadAt { c with checkedIndex := pos + (scanLine l).2 } pos r l := by
  obtain ⟨hparse, hfrom⟩ := h.lineFrom.parseLine_waits hline
  exact ⟨hparse, hfrom.startLine, hfrom.readIndex, h.fits, hfrom.bytes, hfrom.checked,
    hfrom.lineStart, h.linger, h.contentLength, h.target⟩

/-- The slot behind a complete line of the head, before the line is interpreted. -/
structure LineAt (c : ReadState) (pos : ℕ) (r : Req) (l : List UInt8) : Prop where
  startLine : c.startLine = pos
  checked : c.checkedIndex = pos + (scanLine l).2 + 2
  readIndex : c.readIndex = pos + l.length
  fits : c.readIndex ≤ readBufferSize
  bytes : slice c.readBuf (pos + (scanLine l).2 + 2) (l.length - ((scanLine l).2 + 2)) =
    l.drop ((scanLine l).2 + 2)
  nul : c.readBuf (pos + (scanLine l).2 + 1) = 0
  text : c.text pos = lineText l
  linger : c.linger = r.linger
  contentLength : c.contentLength = r.contentLength
  target : TargetAt c r pos

/-- With its NUL behind it, the line is the string that `get_line` returns. -/
theorem HeadAt.text_line (h : HeadAt c pos r l) (hline : (scanLine l).1 = .lineOk)
    {c' : ReadState} (hbytes : ∀ k, k < pos + (scanLine l).2 → c'.readBuf k = c.readBuf k)
    (hnul : c'.readBuf (pos + (scanLine l).2) = 0) : c'.text pos = lineText l := by
  have hlen := scanLine_lineOk hline
  have hread := h.readIndex
  have hfits := h.fits
  have hcstr := cstr_eq (n := readBufferSize - pos) hnul
    (show (scanLine l).2 < readBufferSize - pos by omega)
  have hslice : slice c'.readBuf pos (scanLine l).2 = l.take (scanLine l).2 := by
    have htake := take_slice (m := c.readBuf) (i := pos) (scanLine_le l)
    rw [h.bytes] at htake
    rw [htake]
    apply slice_congr
    intro k _ hk
    exact hbytes k hk
  rw [hslice] at hcstr
  exact hcstr

/-- A complete line is cut off, and the slot stands behind it. -/
theorem HeadAt.parseLine_line (h : HeadAt c pos r l) (hline : (scanLine l).1 = .lineOk) :
    ∃ c', c.parseLine = (.lineOk, c') ∧ LineAt c' pos r l ∧ Within 0 c.readIndex c c' := by
  have hlen := scanLine_lineOk hline
  have hread := h.readIndex
  have hparse := h.lineFrom.parseLine_line hline
  have hwithin := within_endLine c (pos + (scanLine l).2)
  obtain ⟨hnul, hnul'⟩ := endLine_nul c (pos + (scanLine l).2)
  refine ⟨_, hparse, ?_, hwithin.mono (Nat.zero_le _) (by omega)⟩
  constructor
  case startLine => exact h.startLine
  case checked => rfl
  case readIndex => exact h.readIndex
  case fits => exact h.fits
  case bytes =>
    have hdrop := drop_slice (m := c.readBuf) (i := pos) hlen
    rw [h.bytes] at hdrop
    rw [hdrop, ← Nat.add_assoc]
    apply slice_congr
    intro k hk _
    exact hwithin.bytes k (by omega)
  case nul => exact hnul'
  case text => exact h.text_line hline (fun k hk => hwithin.bytes k (by omega)) hnul
  case linger => exact h.linger
  case contentLength => exact h.contentLength
  case target =>
    refine h.target.congr rfl rfl (fun k hk => ?_)
    exact hwithin.bytes k (by omega)

/-- The text of a line fits into the line. -/
theorem length_lineText_le (l : List UInt8) : (lineText l).length ≤ (scanLine l).2 := by
  have hle : (lineText l).length ≤ (l.take (scanLine l).2).length :=
    (List.takeWhile_sublist _).length_le
  rw [List.length_take] at hle
  omega

/-- After the line has been interpreted within its own bytes, the slot stands at the next one. -/
theorem LineAt.headAt (h : LineAt c pos r l) (hline : (scanLine l).1 = .lineOk) {c' : ReadState}
    {r' : Req} (hwithin : Within pos (pos + (scanLine l).2) c c')
    (hchecked : c'.checkedIndex = c.checkedIndex) (hstart : c'.startLine = c.checkedIndex)
    (hlinger : c'.linger = r'.linger) (hlength : c'.contentLength = r'.contentLength)
    (htarget : TargetAt c' r' (pos + (scanLine l).2 + 2)) :
    HeadAt c' (pos + (scanLine l).2 + 2) r' (l.drop ((scanLine l).2 + 2)) := by
  have hlen := scanLine_lineOk hline
  have hread := h.readIndex
  constructor
  case startLine => rw [hstart, h.checked]
  case readIndex =>
    rw [hwithin.readIndex, h.readIndex, List.length_drop]
    omega
  case fits => rw [hwithin.readIndex]; exact h.fits
  case bytes =>
    rw [List.length_drop]
    rw [← h.bytes]
    apply slice_congr
    intro k hk _
    exact hwithin.bytes k (by omega)
  case checked =>
    rw [hchecked, h.checked]
    exact ⟨Nat.le_refl _, Nat.le_add_right _ _⟩
  case lineStart =>
    right
    have hsub : pos + (scanLine l).2 + 2 - 1 = pos + (scanLine l).2 + 1 := by omega
    rw [hsub, hwithin.bytes _ (by omega), h.nul]
  case linger => exact hlinger
  case contentLength => exact hlength
  case target => exact htarget

/-- What the main state machine does with the request line. -/
theorem LineAt.mainSwitch_requestLine (h : LineAt c pos r l) (hline : (scanLine l).1 = .lineOk)
    (hr : r.target = none) :
    match Req.requestLine (lineText l) with
    | none => ∃ c', c.mainSwitch = .inl (.badRequest, c') ∧
        Within pos (pos + (scanLine l).2) c c'
    | some (i, path) => ∃ c', c.mainSwitch = .inr (.lineOk, c') ∧
        HeadAt c' (pos + (scanLine l).2 + 2) { r with target := some (pos + i, path) }
          (l.drop ((scanLine l).2 + 2)) ∧
        Within pos (pos + (scanLine l).2) c c' := by
  have hlen := scanLine_lineOk hline
  have htextLen := length_lineText_le l
  have hread := h.readIndex
  have hfits := h.fits
  have hstate : c.checkState = .requestLite := by
    have htarget := h.target
    rw [TargetAt, hr] at htarget
    exact htarget
  have htext : c.entered.text pos = lineText l := h.text
  have hspec := parseRequestLine_spec c.entered pos (by rw [htext]; omega)
  have hwithin := parseRequestLine_within c.entered pos
  have hsame := parseRequestLine_same c.entered pos
  rw [htext] at hspec hwithin
  -- the stores of `parse_request_line` lie inside the text of the line
  have hwithin' : Within pos (pos + (scanLine l).2) c
      (c.entered.parseRequestLine pos).2 := by
    have hmono := hwithin.mono (Nat.le_refl _)
      (show pos + (lineText l).length ≤ pos + (scanLine l).2 by omega)
    exact ⟨hmono.readIndex, hmono.bytes, hmono.stores, hmono.sums⟩
  cases hfound : Req.requestLine (lineText l) with
  | none =>
    have hbad := hspec.bad hfound
    refine ⟨(c.entered.parseRequestLine pos).2, ?_, hwithin'⟩
    rw [mainSwitch_requestLite hstate, h.startLine]
    split
    · rename_i heq
      rw [heq]
    · rename_i hne heq
      rw [heq] at hbad
      exact absurd hbad hne
  | some found =>
    obtain ⟨i, path⟩ := found
    obtain ⟨hcode, hheader, hurl, hpath⟩ := hspec.ok i path hfound
    have hle := Req.requestLine_le hfound
    refine ⟨(c.entered.parseRequestLine pos).2, ?_, ?_, hwithin'⟩
    · rw [mainSwitch_requestLite hstate, h.startLine]
      split
      · rename_i heq
        rw [heq] at hcode
        cases hcode
      · rename_i heq
        rw [heq]
    · apply h.headAt hline hwithin' hsame.checkedIndex hsame.startLine
      · rw [hsame.linger]
        exact h.linger
      · rw [hsame.contentLength]
        exact h.contentLength
      · exact ⟨hheader, hurl, hpath, by omega⟩

/-- What the main state machine does with a header line that is not empty. -/
theorem LineAt.mainSwitch_header (h : LineAt c pos r l) (hline : (scanLine l).1 = .lineOk)
    (hr : r.target ≠ none) (hne : lineText l ≠ []) :
    ∃ c', c.mainSwitch = .inr (.lineOk, c') ∧
      HeadAt c' (pos + (scanLine l).2 + 2) (r.header (lineText l))
        (l.drop ((scanLine l).2 + 2)) ∧
      Within pos (pos + (scanLine l).2) c c' := by
  have hlen := scanLine_lineOk hline
  have hread := h.readIndex
  have hfits := h.fits
  have htext : c.entered.text pos = lineText l := h.text
  have hlinger : c.entered.linger = r.linger := h.linger
  have hfit : pos < readBufferSize := by omega
  obtain ⟨c', heq, honly, hlinger', hlength'⟩ :=
    parseRequestHeader_spec hfit (by rw [htext]; exact hne) hlinger h.contentLength
  rw [htext] at hlinger' hlength'
  have hwithin : Within pos (pos + (scanLine l).2) c c' :=
    .of_eq honly.readIndex honly.readBuf honly.stores honly.sums
  have hstate := (h.target.found hr).1
  refine ⟨c', ?_, ?_, hwithin⟩
  · rw [mainSwitch_headers hstate, h.startLine, heq]
  · apply h.headAt hline hwithin honly.checkedIndex honly.startLine hlinger' hlength'
    have hkept : TargetAt c' r pos := by
      apply h.target.congr honly.checkState honly.url
      intro k hk
      exact hwithin.bytes k (Or.inl hk)
    have hlater := hkept.mono (show pos ≤ pos + (scanLine l).2 + 2 by omega)
    rw [TargetAt, r.header_target]
    exact hlater

/-- What the main state machine does with the empty line. -/
theorem LineAt.mainSwitch_empty (h : LineAt c pos r l) (hline : (scanLine l).1 = .lineOk)
    (hr : r.target ≠ none) (hempty : lineText l = []) :
    c.mainSwitch =
      if r.contentLength ≠ 0 then
        .inr (.lineOk, { c with startLine := c.checkedIndex, checkState := .content })
      else .inl (.doRequest, { c with startLine := c.checkedIndex }) := by
  have hlen := scanLine_lineOk hline
  have hread := h.readIndex
  have hfits := h.fits
  have htext : c.entered.text pos = [] := by
    rw [← hempty]
    exact h.text
  have hstate := (h.target.found hr).1
  have hfit : pos < readBufferSize := by omega
  have heq := parseRequestHeader_empty hfit htext
  rw [mainSwitch_headers hstate, h.startLine, heq, ← h.contentLength]
  by_cases hzero : c.contentLength ≠ 0
  · rw [if_pos hzero, if_pos (show c.entered.contentLength ≠ 0 from hzero)]
    rfl
  · rw [if_neg hzero, if_neg (show ¬ c.entered.contentLength ≠ 0 from hzero)]
    rfl

/-- Behind the empty line the slot stands at the start of the body. -/
theorem LineAt.bodyAt (h : LineAt c pos r l) (hline : (scanLine l).1 = .lineOk)
    (hr : r.target ≠ none) :
    BodyAt { c with startLine := c.checkedIndex, checkState := .content }
      (pos + (scanLine l).2 + 2) (pos + (scanLine l).2 + 2) r (l.drop ((scanLine l).2 + 2)) := by
  have hlen := scanLine_lineOk hline
  have hread := h.readIndex
  constructor
  case checkState => rfl
  case startLine => exact h.checked
  case checked => exact h.checked
  case start_le => exact Nat.le_refl _
  case readIndex =>
    rw [List.length_drop]
    show c.readIndex = _
    omega
  case fits => exact h.fits
  case bytes =>
    rw [List.length_drop]
    exact h.bytes
  case clean =>
    intro hprev
    obtain ⟨-, hcr⟩ := hprev
    change c.readBuf (c.checkedIndex - 1) = CR at hcr
    have hsub : c.checkedIndex - 1 = pos + (scanLine l).2 + 1 := by rw [h.checked]; omega
    rw [hsub, h.nul] at hcr
    exact absurd hcr (by decide)
  case linger => exact h.linger
  case contentLength => exact h.contentLength
  case target =>
    obtain ⟨-, u, path, hsome, hurl, htext, hlt⟩ := h.target.found hr
    exact ⟨u, path, hsome, hurl, htext, by omega⟩

end HeadLine

/-! ## The loop -/

/-- The result of `process_read` as its caller sees it. -/
def outcome : ParseResult × ReadState → Outcome
  | (.noRequest, _) => .noRequest
  | (.badRequest, _) => .badRequest
  | (.doRequest, c) =>
    .doRequest
      (match c.url with
        | some u => c.text u
        | none => [])
      c.linger c.contentLength

section Loop

variable {c c' : ReadState}

/-- In the body with `line_status == LINE_OK` no line is read. -/
theorem processReadLoop_content (h : c.checkState = .content) :
    processReadLoop .lineOk c =
      match c.mainSwitch with
      | .inl res => res
      | .inr (status, c') => processReadLoop status c' := by
  rw [processReadLoop, dif_pos ⟨h, rfl⟩]
  split <;> rename_i heq <;> rw [heq]

theorem processReadLoop_line (status : LineStatus)
    (h : ¬ (c.checkState = .content ∧ status = .lineOk))
    (hline : c.parseLine = (.lineOk, c')) :
    processReadLoop status c =
      match c'.mainSwitch with
      | .inl res => res
      | .inr (status, c') => processReadLoop status c' := by
  rw [processReadLoop, dif_neg h]
  split <;> rename_i heq <;> rw [hline] at heq <;> cases heq
  split <;> rename_i heq <;> rw [heq]

theorem processReadLoop_stops (status : LineStatus)
    (h : ¬ (c.checkState = .content ∧ status = .lineOk))
    {status' : LineStatus} (hline : c.parseLine = (status', c')) (hstatus : status' ≠ .lineOk) :
    processReadLoop status c = (.noRequest, c') := by
  rw [processReadLoop, dif_neg h]
  split <;> rename_i heq <;> rw [hline] at heq <;> cases heq
  · exact absurd rfl hstatus
  · rfl
  · rfl

end Loop

/-! ## A call in the head -/

/-- A call of `process_read` on `c` that ends as `found` says. -/
def HeadResult (c : ReadState) : Found → Prop
  | .waiting pos r l => ∃ c', processReadLoop .lineOk c = (.noRequest, c') ∧
      Within 0 c.readIndex c c' ∧ HeadAt c' pos r l
  | .bad => ∃ c', processReadLoop .lineOk c = (.badRequest, c') ∧ Within 0 c.readIndex c c'
  | .complete r => ∃ c', processReadLoop .lineOk c = (.doRequest, c') ∧
      Within 0 c.readIndex c c' ∧ outcome (.doRequest, c') = r.outcome none
  | .body pos r l => ∃ c', processReadLoop .lineOk c = processReadLoop .lineOk c' ∧
      Within 0 c.readIndex c c' ∧ BodyAt c' pos pos r l

/-- The result does not depend on the lines read before it. -/
theorem HeadResult.of_later {c c' : ReadState}
    (heq : processReadLoop .lineOk c = processReadLoop .lineOk c')
    (hwithin : Within 0 c.readIndex c c') {found : Found} (h : HeadResult c' found) :
    HeadResult c found := by
  have hread := hwithin.readIndex
  have htrans : ∀ c'', Within 0 c'.readIndex c' c'' → Within 0 c.readIndex c c'' := by
    intro c'' h''
    exact hwithin.trans h'' (Nat.le_refl _) (by omega)
  cases found with
  | waiting pos r l =>
    obtain ⟨c'', hloop, hw, hat⟩ := h
    exact ⟨c'', heq.trans hloop, htrans c'' hw, hat⟩
  | bad =>
    obtain ⟨c'', hloop, hw⟩ := h
    exact ⟨c'', heq.trans hloop, htrans c'' hw⟩
  | complete r =>
    obtain ⟨c'', hloop, hw, hout⟩ := h
    exact ⟨c'', heq.trans hloop, htrans c'' hw, hout⟩
  | body pos r l =>
    obtain ⟨c'', hloop, hw, hat⟩ := h
    exact ⟨c'', heq.trans hloop, htrans c'' hw, hat⟩

theorem HeadAt.checkState_ne {c : ReadState} {pos : ℕ} {r : Req} {l : List UInt8}
    (h : HeadAt c pos r l) : c.checkState ≠ .content := by
  intro hcontent
  have htarget := h.target
  unfold TargetAt at htarget
  rw [hcontent] at htarget
  split at htarget
  · cases htarget
  · cases htarget.1

theorem outcome_doRequest {c : ReadState} {u : ℕ} {r : Req} {cut : Option ℤ}
    (hurl : c.url = some u) (htext : c.text u = r.url cut) (hlinger : c.linger = r.linger)
    (hlength : c.contentLength = r.contentLength) :
    outcome (.doRequest, c) = r.outcome cut := by
  simp only [outcome, Req.outcome, hurl, hlinger, hlength, htext]

/-- A request without a body, at its empty line. -/
theorem LineAt.outcome_complete {c : ReadState} {pos : ℕ} {r : Req} {l : List UInt8}
    (h : LineAt c pos r l) (hr : r.target ≠ none) :
    outcome (.doRequest, { c with startLine := c.checkedIndex }) = r.outcome none := by
  obtain ⟨-, u, path, hsome, hurl, hpath, -⟩ := h.target.found hr
  apply outcome_doRequest hurl _ h.linger h.contentLength
  simp only [Req.url, hsome]
  exact hpath

/-- A round of the loop in the head: the line is read and interpreted, with stores inside the
bytes received. -/
theorem HeadAt.loop_line {c : ReadState} {pos : ℕ} {r : Req} {l : List UInt8}
    (h : HeadAt c pos r l) (hline : (scanLine l).1 = .lineOk) :
    ∃ c₁, LineAt c₁ pos r l ∧ Within 0 c.readIndex c c₁ ∧
      (∀ c', Within pos (pos + (scanLine l).2) c₁ c' → Within 0 c.readIndex c c') ∧
      processReadLoop .lineOk c =
        match c₁.mainSwitch with
        | .inl res => res
        | .inr (status, c') => processReadLoop status c' := by
  have hlen := scanLine_lineOk hline
  have hread := h.readIndex
  obtain ⟨c₁, hparse, hat, hwithin⟩ := h.parseLine_line hline
  refine ⟨c₁, hat, hwithin, fun c' h' => hwithin.trans h' (Nat.zero_le _) (by omega), ?_⟩
  exact processReadLoop_line .lineOk (fun hc => h.checkState_ne hc.1) hparse

section Rounds

variable {c : ReadState} {pos : ℕ} {r : Req} {l : List UInt8}

/-- A round for the request line or a header: the loop goes on with the next line. -/
theorem HeadAt.round_go (h : HeadAt c pos r l) (hline : (scanLine l).1 = .lineOk) {r' : Req}
    (hnext : r.next pos (lineText l) = .go r') :
    ∃ c', processReadLoop .lineOk c = processReadLoop .lineOk c' ∧ Within 0 c.readIndex c c' ∧
      HeadAt c' (pos + (scanLine l).2 + 2) r' (l.drop ((scanLine l).2 + 2)) := by
  obtain ⟨c₁, hat, -, hwiden, hloop⟩ := h.loop_line hline
  have hgo : ∃ c', c₁.mainSwitch = .inr (.lineOk, c') ∧
      HeadAt c' (pos + (scanLine l).2 + 2) r' (l.drop ((scanLine l).2 + 2)) ∧
      Within pos (pos + (scanLine l).2) c₁ c' := by
    rcases Req.next_go hnext with ⟨hr, i, path, hfound, rfl⟩ | ⟨hr, hne, rfl⟩
    · have hswitch := hat.mainSwitch_requestLine hline hr
      rw [hfound] at hswitch
      exact hswitch
    · exact hat.mainSwitch_header hline hr hne
  obtain ⟨c', heq, hhead, hwithin⟩ := hgo
  rw [heq] at hloop
  exact ⟨c', hloop, hwiden c' hwithin, hhead⟩

/-- The round for the empty line of a request without a body. -/
theorem HeadAt.round_complete (h : HeadAt c pos r l) (hline : (scanLine l).1 = .lineOk)
    (hnext : r.next pos (lineText l) = .finished) (hzero : r.contentLength = 0) :
    ∃ c', processReadLoop .lineOk c = (.doRequest, c') ∧ Within 0 c.readIndex c c' ∧
      outcome (.doRequest, c') = r.outcome none ∧
      c'.checkedIndex = pos + (scanLine l).2 + 2 := by
  obtain ⟨c₁, hat, hwithin, -, hloop⟩ := h.loop_line hline
  obtain ⟨hr, hempty⟩ := Req.next_finished hnext
  rw [hat.mainSwitch_empty hline hr hempty, if_neg (fun hne => hne hzero)] at hloop
  refine ⟨_, hloop, ?_, hat.outcome_complete hr, hat.checked⟩
  exact ⟨hwithin.readIndex, hwithin.bytes, hwithin.stores, hwithin.sums⟩

end Rounds

/-- A call of `process_read` in the head of a request ends as `headRun` says. -/
theorem processRead_head {c : ReadState} {pos : ℕ} {r : Req} {l : List UInt8}
    (h : HeadAt c pos r l) : HeadResult c (headRun pos r l) := by
  fun_induction headRun pos r l generalizing c
  case case1 pos r l hline hnext =>
    obtain ⟨c₁, hat, -, hwiden, hloop⟩ := h.loop_line hline
    obtain ⟨hr, hfound⟩ := Req.next_bad hnext
    have hswitch := hat.mainSwitch_requestLine hline hr
    rw [hfound] at hswitch
    obtain ⟨c', heq, hwithin⟩ := hswitch
    rw [heq] at hloop
    exact ⟨c', hloop, hwiden c' hwithin⟩
  case case2 pos r l hline pos₁ l₁ r₁ hnext ih =>
    obtain ⟨c', hloop, hwithin, hhead⟩ := h.round_go hline hnext
    exact HeadResult.of_later hloop hwithin (ih hhead)
  case case3 pos r l hline pos₁ l₁ hnext hne =>
    obtain ⟨c₁, hat, hwithin, -, hloop⟩ := h.loop_line hline
    obtain ⟨hr, hempty⟩ := Req.next_finished hnext
    rw [hat.mainSwitch_empty hline hr hempty, if_pos hne] at hloop
    refine ⟨_, hloop, ?_, hat.bodyAt hline hr⟩
    exact ⟨hwithin.readIndex, hwithin.bytes, hwithin.stores, hwithin.sums⟩
  case case4 pos r l hline hnext hzero =>
    obtain ⟨c', hloop, hwithin, hout, -⟩ := h.round_complete hline hnext (not_not.mp hzero)
    exact ⟨c', hloop, hwithin, hout⟩
  case case5 pos r l hline =>
    obtain ⟨hparse, hhead⟩ := h.parseLine_waits hline
    have hstop := processReadLoop_stops .lineOk (fun hc => h.checkState_ne hc.1) hparse hline
    exact ⟨_, hstop, .of_eq rfl rfl rfl rfl, hhead⟩

/-! ## A call in the body -/

/-- Stores that lie inside the bytes received. -/
def StoresBelow (n : ℕ) (added : List ℤ) : Prop := ∀ i ∈ added, 0 ≤ i ∧ i < n

/-- A call of `process_read` on `c`, entered with `status`, that ends as `body` says after forming
`sums`. -/
def BodyResult (c : ReadState) (status : LineStatus) (r : Req) (sums : List ℤ) : Body → Prop
  | .accepted start => ∃ c', processReadLoop status c = (.doRequest, c') ∧
      outcome (.doRequest, c') = r.outcome (some (start + r.contentLength)) ∧
      c'.sums = c.sums ++ sums ∧
      ∃ added, c'.stores = c.stores ++ added ++ [start + r.contentLength] ∧
        StoresBelow c.readIndex added
  | .waiting start pos l => ∃ c', processReadLoop status c = (.noRequest, c') ∧
      BodyAt c' start pos r l ∧ c'.sums = c.sums ++ sums ∧
      ∃ added, c'.stores = c.stores ++ added ∧ StoresBelow c.readIndex added

section BodyCall

variable {c : ReadState} {start pos : ℕ} {r : Req} {l : List UInt8}

theorem BodyAt.unchecked_eq (h : BodyAt c start pos r l) : c.unchecked = l := by
  have hsub : c.readIndex - c.checkedIndex = l.length := by
    rw [h.readIndex, h.checked]
    omega
  rw [unchecked, hsub, h.checked, h.bytes]

theorem BodyAt.mainSwitch_eq (h : BodyAt c start pos r l) :
    c.mainSwitch =
      if toLong (r.contentLength + pos) ≤ (pos + l.length : ℕ) then
        .inl (.doRequest, c.compared.store (start + r.contentLength))
      else .inr (.lineOpen, c.compared) := by
  rw [mainSwitch_content h.checkState, h.contentLength, h.checked, h.readIndex, h.startLine]

/-- The place of a call that was too early: still the same body, one comparison later. -/
theorem BodyAt.compared (h : BodyAt c start pos r l) : BodyAt c.compared pos pos r l where
  checkState := h.checkState
  startLine := h.checked
  checked := h.checked
  start_le := Nat.le_refl _
  readIndex := h.readIndex
  fits := h.fits
  bytes := h.bytes
  clean := h.clean
  linger := h.linger
  contentLength := h.contentLength
  target := by
    obtain ⟨u, path, hr, hurl, htext, hlt⟩ := h.target
    exact ⟨u, path, hr, hurl, htext, Nat.lt_of_lt_of_le hlt h.start_le⟩

/-- The string at `m_url` after the NUL of `parse_request_content`. -/
theorem BodyAt.outcome_accepted (h : BodyAt c start pos r l) (i : ℤ) :
    outcome (.doRequest, c.store i) = r.outcome (some i) := by
  obtain ⟨u, path, hr, hurl, htext, hlt⟩ := h.target
  apply outcome_doRequest (c := c.store i) hurl _ h.linger h.contentLength
  simp only [Req.url, hr]
  -- a NUL in front of the target leaves it alone, one inside cuts it
  by_cases hi : (u : ℤ) ≤ i
  · rw [if_pos hi, ← htext]
    have hcast : i = (u + (i - u).toNat : ℕ) := by omega
    conv => lhs; rw [hcast]
    exact text_store c u (i - u).toNat
  · rw [if_neg hi, ← htext]
    apply text_congr
    intro j hj _
    show (if (j : ℤ) = i then 0 else c.readBuf j) = c.readBuf j
    rw [if_neg (by omega)]

/-- A line of the body is cut off like any other. -/
theorem BodyAt.parseLine_line (h : BodyAt c start pos r l) (hline : (scanLine l).1 = .lineOk) :
    c.parseLine = (.lineOk, c.lineEnd (scanLine l).2) ∧
      BodyAt (c.lineEnd (scanLine l).2) start (pos + (scanLine l).2 + 2) r
        (l.drop ((scanLine l).2 + 2)) := by
  have hlen := scanLine_lineOk hline
  have hread := h.readIndex
  have hchecked := h.checked
  have hstart := h.start_le
  have hwithin := within_lineEnd c (scanLine l).2
  have hnul := (lineEnd_nul c (scanLine l).2).2
  rw [hchecked] at hwithin hnul
  refine ⟨?_, ?_⟩
  · rw [parseLine_eq c h.clean, h.unchecked_eq, if_pos hline]
  · constructor
    case checkState => exact h.checkState
    case startLine => exact h.startLine
    case checked =>
      show c.checkedIndex + (scanLine l).2 + 2 = _
      rw [hchecked]
    case start_le => omega
    case readIndex =>
      rw [List.length_drop]
      show c.readIndex = _
      omega
    case fits => exact h.fits
    case bytes =>
      have hdrop := drop_slice (m := c.readBuf) (i := pos) hlen
      rw [h.bytes] at hdrop
      rw [hdrop, length_slice, ← Nat.add_assoc]
      apply slice_congr
      intro k hk _
      exact hwithin.bytes k (by omega)
    case clean =>
      intro hprev
      obtain ⟨-, hcr⟩ := hprev
      have hsub : (c.lineEnd (scanLine l).2).checkedIndex - 1 = pos + (scanLine l).2 + 1 := by
        show c.checkedIndex + (scanLine l).2 + 2 - 1 = _
        omega
      rw [hsub, hnul] at hcr
      exact absurd hcr (by decide)
    case linger => exact h.linger
    case contentLength => exact h.contentLength
    case target =>
      obtain ⟨u, path, hr, hurl, htext, hlt⟩ := h.target
      refine ⟨u, path, hr, hurl, text_of_below (fun k hk => ?_) htext hlt, hlt⟩
      exact hwithin.bytes k (by omega)

/-- Where no line is complete, the bytes looked at are not looked at again. -/
theorem BodyAt.parseLine_waits (h : BodyAt c start pos r l) (hline : (scanLine l).1 ≠ .lineOk) :
    c.parseLine = ((scanLine l).1, { c with checkedIndex := pos + (scanLine l).2 }) ∧
      BodyAt { c with checkedIndex := pos + (scanLine l).2 } start (pos + (scanLine l).2) r
        (l.drop (scanLine l).2) := by
  have hle := scanLine_le l
  have hread := h.readIndex
  have hchecked := h.checked
  have hstart := h.start_le
  refine ⟨?_, ?_⟩
  · rw [parseLine_eq c h.clean, h.unchecked_eq, if_neg hline, hchecked]
  · constructor
    case checkState => exact h.checkState
    case startLine => exact h.startLine
    case checked => rfl
    case start_le => omega
    case readIndex =>
      rw [List.length_drop]
      show c.readIndex = _
      omega
    case fits => exact h.fits
    case bytes =>
      have hdrop := drop_slice (m := c.readBuf) (i := pos) hle
      rw [h.bytes] at hdrop
      rw [hdrop, length_slice]
    case clean =>
      intro hprev
      obtain ⟨hone, hcr⟩ := hprev
      change 1 < pos + (scanLine l).2 at hone
      change c.readBuf (pos + (scanLine l).2 - 1) = CR at hcr
      -- the byte before the new position is an old one, or one that was passed over
      by_cases hzero : (scanLine l).2 = 0
      · rw [hzero, Nat.add_zero] at hone hcr
        rw [← hchecked] at hone hcr
        exact h.clean ⟨hone, hcr⟩
      · have hlt : (scanLine l).2 - 1 < l.length := by omega
        have hget := getElem?_slice (m := c.readBuf) (i := pos) hlt
        have hidx : pos + ((scanLine l).2 - 1) = pos + (scanLine l).2 - 1 := by omega
        rw [h.bytes, hidx, hcr] at hget
        exact scanLine_ne_cr (by omega) hget
    case linger => exact h.linger
    case contentLength => exact h.contentLength
    case target => exact h.target

end BodyCall

/-- The result in the body does not depend on the comparisons made before it. -/
theorem BodyResult.of_later {c c' : ReadState} {status status' : LineStatus} {r : Req} {n : ℤ}
    {sums added : List ℤ} {body : Body}
    (heq : processReadLoop status c = processReadLoop status' c')
    (hread : c'.readIndex = c.readIndex) (hsums : c'.sums = c.sums ++ [n])
    (hstores : c'.stores = c.stores ++ added) (hadded : StoresBelow c.readIndex added)
    (h : BodyResult c' status' r sums body) : BodyResult c status r (n :: sums) body := by
  have hbelow : ∀ added', StoresBelow c'.readIndex added' →
      StoresBelow c.readIndex (added ++ added') := by
    intro added' h' i hi
    rw [hread] at h'
    rcases List.mem_append.mp hi with hi | hi
    · exact hadded i hi
    · exact h' i hi
  cases body with
  | accepted start =>
    obtain ⟨c'', hloop, hout, hs, added', hst, hb⟩ := h
    refine ⟨c'', heq.trans hloop, hout, ?_, added ++ added', ?_, hbelow _ hb⟩
    · rw [hs, hsums, List.append_assoc, List.singleton_append]
    · rw [hst, hstores, List.append_assoc c.stores]
  | waiting start pos l =>
    obtain ⟨c'', hloop, hat, hs, added', hst, hb⟩ := h
    refine ⟨c'', heq.trans hloop, hat, ?_, added ++ added', ?_, hbelow _ hb⟩
    · rw [hs, hsums, List.append_assoc, List.singleton_append]
    · rw [hst, hstores, List.append_assoc c.stores]

/-- A call of `process_read` in the body of a request ends as `bodyRun` says. -/
theorem processRead_body {c : ReadState} {start pos : ℕ} {r : Req} {l : List UInt8}
    (h : BodyAt c start pos r l) :
    BodyResult c .lineOk r (bodySums r.contentLength pos l)
      (bodyRun r.contentLength start pos l) := by
  -- the loop is entered with `LINE_OK`, so the lengths are compared before any line is read
  have hloop := processReadLoop_content h.checkState
  rw [h.mainSwitch_eq] at hloop
  have hcompared := h.compared
  have hsums : c.compared.sums = c.sums ++ [r.contentLength + pos] := by
    show c.sums ++ [c.contentLength + c.checkedIndex] = _
    rw [h.contentLength, h.checked]
  have hnone : StoresBelow c.readIndex [] := fun i hi => absurd hi List.not_mem_nil
  rw [bodyRun, bodySums]
  by_cases htest : toLong (r.contentLength + pos) ≤ (pos + l.length : ℕ)
  · rw [if_pos htest] at hloop ⊢
    rw [if_pos htest]
    refine ⟨_, hloop, hcompared.outcome_accepted _, hsums, [], ?_, hnone⟩
    rw [List.append_nil]
    rfl
  · rw [if_neg htest] at hloop ⊢
    rw [if_neg htest]
    by_cases hline : (scanLine l).1 = .lineOk
    · have hlen := scanLine_lineOk hline
      have hread := h.readIndex
      obtain ⟨hparse, hat⟩ := hcompared.parseLine_line hline
      have hline' := processReadLoop_line .lineOpen (fun hc => by cases hc.2) hparse
      -- behind the line the body of the loop runs again, as it does with `LINE_OK`
      rw [← processReadLoop_content hat.checkState] at hline'
      obtain ⟨added, hadded, hbounds⟩ := (within_lineEnd c.compared (scanLine l).2).stores
      rw [hcompared.checked] at hbounds
      have hbelow : StoresBelow c.readIndex added := by
        intro i hi
        have hb := hbounds i hi
        omega
      rw [dif_pos hline, dif_pos hline]
      exact BodyResult.of_later (hloop.trans hline') rfl hsums hadded hbelow (processRead_body hat)
    · obtain ⟨hparse, hat⟩ := hcompared.parseLine_waits hline
      have hstop := processReadLoop_stops .lineOpen (fun hc => by cases hc.2) hparse hline
      rw [dif_neg hline, dif_neg hline]
      refine ⟨_, hloop.trans hstop, hat, hsums, [], ?_, hnone⟩
      rw [List.append_nil]
      rfl
termination_by l.length
decreasing_by
  rw [List.length_drop]
  omega

end ReadState
end Webservers
