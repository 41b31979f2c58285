import Webservers.HttpConn.Basic

/-!
# Parsing a request (bck/src/http_conn.cpp)

`parse_line` cuts the next line out of `m_read_buf`, `parse_request_line`,
`parse_request_header` and `parse_request_content` interpret it, and `process_read` drives them
from the state of the main state machine. `process_read` ends by calling `do_request`; here it
says that it would, and `HttpConn.process` makes the call.

`long` has 64 bits; the sum in `parse_request_content` is reduced to that range.
-/

namespace Webservers

def CR : UInt8 := 13

def LF : UInt8 := 10

/-- `" \t"` -/
def blanks : List UInt8 := [32, 9]

/-- How `process_read` ends. -/
inductive ParseResult where
  | noRequest
  | badRequest
  /-- `return do_request();` -/
  | doRequest
deriving Repr, DecidableEq

namespace ReadState

/-! ## The slave state machine -/

/-- `parse_line()` -/
def parseLine (c : ReadState) : LineStatus × ReadState :=
  if c.checkedIndex < c.readIndex then
    let temp := c.readBuf c.checkedIndex
    if temp = CR then
      if c.checkedIndex + 1 = c.readIndex then (.lineOpen, c)
      else if c.readBuf (c.checkedIndex + 1) = LF then
        let c' := (c.store c.checkedIndex).store (c.checkedIndex + 1)
        (.lineOk, { c' with checkedIndex := c.checkedIndex + 2 })
      else (.lineBad, c)
    else if temp = LF then
      if 1 < c.checkedIndex ∧ c.readBuf (c.checkedIndex - 1) = CR then
        let c' := (c.store (c.checkedIndex - 1)).store c.checkedIndex
        (.lineOk, { c' with checkedIndex := c.checkedIndex + 1 })
      else (.lineBad, c)
    else parseLine { c with checkedIndex := c.checkedIndex + 1 }
  else (.lineOpen, c)
termination_by c.readIndex - c.checkedIndex
decreasing_by omega

/-! ## The lines of a request -/

/-- `parse_request_line`, once the version has been accepted: the target. -/
def parseTarget (c : ReadState) (url : ℕ) : HttpCode × ReadState :=
  let target :=
    if strncasecmp (c.text url) (ascii "http://") 7 = 0 then
      (strchr (c.text (url + 7)) 47).map (url + 7 + ·)
    else some url
  match target with
  | none => (.badRequest, { c with url := none })
  | some u =>
    if c.readBuf u ≠ 47 then (.badRequest, { c with url := some u })
    else (.noRequest, { c with url := some u, checkState := .header })

/-- `parse_request_line`, once the method has been accepted: `*m_version++ = '\0'` and the test
of the version. -/
def parseVersion (c : ReadState) (url : ℕ) : HttpCode × ReadState :=
  match strpbrk (c.text url) blanks with
  | none => (.badRequest, { c with version := none })
  | some j =>
    let c' := { c.store (url + j : ℕ) with version := some (url + j + 1) }
    if strcasecmp (c'.text (url + j + 1)) (ascii "HTTP/1.1") ≠ 0 then (.badRequest, c')
    else c'.parseTarget url

/-- `parse_request_line(text)`, from `*m_url++ = '\0'` and the test of the method on. -/
def parseRequestLine (c : ReadState) (text : ℕ) : HttpCode × ReadState :=
  match strpbrk (c.text text) blanks with
  | none => (.badRequest, { c with url := none })
  | some i =>
    let c' := { c.store (text + i : ℕ) with url := some (text + i + 1) }
    if strcasecmp (c'.text text) (ascii "GET") ≠ 0 then (.badRequest, c')
    else { c' with method := .GET }.parseVersion (text + i + 1)

/-- `parse_request_header(text)`. The test for `Host:` compares with 5, as in the source. -/
def parseRequestHeader (c : ReadState) (text : ℕ) : HttpCode × ReadState :=
  if c.readBuf text = 0 then
    if c.contentLength ≠ 0 then (.noRequest, { c with checkState := .content })
    else (.getRequest, c)
  else if strncasecmp (c.text text) (ascii "Connection:") 11 = 0 then
    let value := text + 11 + strspn (c.text (text + 11)) blanks
    if strcasecmp (c.text value) (ascii "keep-alive") = 0 then
      (.noRequest, { c with linger := true })
    else (.noRequest, c)
  else if strncasecmp (c.text text) (ascii "Content-Length:") 15 = 0 then
    let value := text + 15 + strspn (c.text (text + 15)) blanks
    (.noRequest, { c with contentLength := atol (c.text value) })
  else if strncasecmp (c.text text) (ascii "Host:") 5 = 5 then
    let value := text + 5 + strspn (c.text (text + 5)) blanks
    (.noRequest, { c with host := some value })
  else (.noRequest, c)

/-- The value a signed 64-bit addition leaves. -/
def toLong (x : ℤ) : ℤ := x.bmod (2 ^ 64)

/-- `parse_request_content(text)` -/
def parseRequestContent (c : ReadState) (text : ℕ) : HttpCode × ReadState :=
  let sum := c.contentLength + c.checkedIndex
  let c := { c with sums := c.sums ++ [sum] }
  if toLong sum ≤ c.readIndex then (.getRequest, c.store (text + c.contentLength))
  else (.noRequest, c)

/-! ## The main state machine -/

/-- The body of the loop of `process_read`: either it returns, or the loop goes on with a
value of `line_status`. -/
def mainSwitch (c : ReadState) : (ParseResult × ReadState) ⊕ (LineStatus × ReadState) :=
  let text := c.startLine
  let c := { c with startLine := c.checkedIndex }
  match c.checkState with
  | .requestLite =>
    match c.parseRequestLine text with
    | (.badRequest, c) => .inl (.badRequest, c)
    | (_, c) => .inr (.lineOk, c)
  | .header =>
    match c.parseRequestHeader text with
    | (.badRequest, c) => .inl (.badRequest, c)
    | (.getRequest, c) => .inl (.doRequest, c)
    | (_, c) => .inr (.lineOk, c)
  | .content =>
    match c.parseRequestContent text with
    | (.getRequest, c) => .inl (.doRequest, c)
    | (_, c) => .inr (.lineOpen, c)

/-- A complete line lies inside the bytes received, and the cursor moves past it. -/
theorem parseLine_progress {c c' : ReadState} (h : c.parseLine = (.lineOk, c')) :
    c.checkedIndex < c'.checkedIndex ∧ c'.checkedIndex ≤ c'.readIndex ∧
      c'.readIndex = c.readIndex := by
  fun_induction parseLine c with
  | case1 c hlt temp hcr hlast => cases h
  | case2 c hlt temp hcr hlast hlf =>
    cases h
    show c.checkedIndex < c.checkedIndex + 2 ∧ c.checkedIndex + 2 ≤ c.readIndex ∧ _ = _
    exact ⟨by omega, by omega, rfl⟩
  | case3 c hlt temp hcr hlast hlf => cases h
  | case4 c hlt temp hcr hlf hprev =>
    cases h
    show c.checkedIndex < c.checkedIndex + 1 ∧ c.checkedIndex + 1 ≤ c.readIndex ∧ _ = _
    exact ⟨by omega, by omega, rfl⟩
  | case5 c hlt temp hcr hlf hprev => cases h
  | case6 c hlt temp hcr hlf ih =>
    have hrec := ih h
    simp only at hrec
    omega
  | case7 c hge => cases h

/-- The members that interpreting a request line leaves alone. -/
structure SameCursors (c c' : ReadState) : Prop where
  checkedIndex : c'.checkedIndex = c.checkedIndex
  readIndex : c'.readIndex = c.readIndex
  startLine : c'.startLine = c.startLine
  linger : c'.linger = c.linger
  contentLength : c'.contentLength = c.contentLength
  sums : c'.sums = c.sums

theorem parseTarget_same (c : ReadState) (url : ℕ) : SameCursors c (c.parseTarget url).2 := by
  unfold parseTarget
  simp only
  split
  · exact ⟨rfl, rfl, rfl, rfl, rfl, rfl⟩
  · split <;> exact ⟨rfl, rfl, rfl, rfl, rfl, rfl⟩

theorem parseVersion_same (c : ReadState) (url : ℕ) : SameCursors c (c.parseVersion url).2 := by
  unfold parseVersion
  split
  · exact ⟨rfl, rfl, rfl, rfl, rfl, rfl⟩
  · rename_i j _
    simp only
    split
    · exact ⟨rfl, rfl, rfl, rfl, rfl, rfl⟩
    · have h := parseTarget_same
        { c.store (url + j : ℕ) with version := some (url + j + 1) } url
      exact ⟨h.1, h.2, h.3, h.4, h.5, h.6⟩

theorem parseRequestLine_same (c : ReadState) (text : ℕ) :
    SameCursors c (c.parseRequestLine text).2 := by
  unfold parseRequestLine
  split
  · exact ⟨rfl, rfl, rfl, rfl, rfl, rfl⟩
  · rename_i i _
    simp only
    split
    · exact ⟨rfl, rfl, rfl, rfl, rfl, rfl⟩
    · have h := parseVersion_same
        { c.store (text + i : ℕ) with url := some (text + i + 1), method := .GET } (text + i + 1)
      exact ⟨h.1, h.2, h.3, h.4, h.5, h.6⟩

theorem parseRequestHeader_indices (c : ReadState) (text : ℕ) :
    (c.parseRequestHeader text).2.checkedIndex = c.checkedIndex ∧
      (c.parseRequestHeader text).2.readIndex = c.readIndex := by
  simp only [parseRequestHeader, apply_ite Prod.snd, apply_ite ReadState.checkedIndex,
    apply_ite ReadState.readIndex, ite_self, and_self]

theorem parseRequestContent_indices (c : ReadState) (text : ℕ) :
    (c.parseRequestContent text).2.checkedIndex = c.checkedIndex ∧
      (c.parseRequestContent text).2.readIndex = c.readIndex := by
  unfold parseRequestContent
  simp only
  split <;> exact ⟨rfl, rfl⟩

/-- The body of the loop moves no cursor, and after the body of a request the loop goes on only
through `parse_line`. -/
theorem mainSwitch_continue {c c' : ReadState} {status : LineStatus}
    (h : c.mainSwitch = .inr (status, c')) :
    c'.checkedIndex = c.checkedIndex ∧ c'.readIndex = c.readIndex ∧
      (c.checkState = .content → status = .lineOpen) := by
  unfold mainSwitch at h
  simp only at h
  split at h
  · rename_i hstate
    have hsame := parseRequestLine_same { c with startLine := c.checkedIndex } c.startLine
    split at h <;> cases h
    rename_i heq
    rw [heq] at hsame
    exact ⟨hsame.checkedIndex, hsame.readIndex, fun hc => by rw [hstate] at hc; cases hc⟩
  · rename_i hstate
    have hidx := parseRequestHeader_indices { c with startLine := c.checkedIndex } c.startLine
    split at h <;> cases h
    rename_i heq
    rw [heq] at hidx
    exact ⟨hidx.1, hidx.2, fun hc => by rw [hstate] at hc; cases hc⟩
  · have hidx := parseRequestContent_indices { c with startLine := c.checkedIndex } c.startLine
    split at h <;> cases h
    rename_i heq
    rw [heq] at hidx
    exact ⟨hidx.1, hidx.2, fun _ => rfl⟩

set_option linter.unusedVariables false in
/-- The loop of `process_read`, entered with a value of `line_status`. -/
def processReadLoop (lineStatus : LineStatus) (c : ReadState) : ParseResult × ReadState :=
  if hcontent : c.checkState = .content ∧ lineStatus = .lineOk then
    match hswitch : c.mainSwitch with
    | .inl r => r
    | .inr (status, c') => processReadLoop status c'
  else
    match hline : c.parseLine with
    | (.lineOk, c') =>
      match hswitch : c'.mainSwitch with
      | .inl r => r
      | .inr (status, c'') => processReadLoop status c''
    | (.lineBad, c') => (.noRequest, c')
    | (.lineOpen, c') => (.noRequest, c')
termination_by 2 * (c.readIndex - c.checkedIndex) + (if lineStatus = .lineOk then 1 else 0)
decreasing_by
  · obtain ⟨hchecked, hread, hstatus⟩ := mainSwitch_continue hswitch
    rw [hchecked, hread, hstatus hcontent.1, hcontent.2]
    simp
  · obtain ⟨hchecked, hread, -⟩ := mainSwitch_continue hswitch
    obtain ⟨hlt, hle, hread'⟩ := parseLine_progress hline
    rw [hchecked, hread]
    split <;> omega

/-- `process_read()` -/
def processRead (c : ReadState) : ParseResult × ReadState := processReadLoop .lineOk c

/-- The next call of `process_read` stores into `m_read_buf` only. -/
def Inside (c : ReadState) : Prop :=
  ∀ i ∈ c.processRead.2.stores.drop c.stores.length, 0 ≤ i ∧ i < readBufferSize

instance (c : ReadState) : Decidable c.Inside :=
  inferInstanceAs (Decidable (∀ i ∈ _, _))

end ReadState
end Webservers
