import Mathlib.Data.List.Induction
import Webservers.HttpConn.GrammarTheorems

/-!
# The fields of a head

`parse_request_header` is called with one header line after the other. Two members come out as they
should, whatever the order of the lines: `m_linger` and `m_content_length`. `m_host` never does: the
test for the field is `strncasecmp(text, "Host:", 5) == 5`, which no `Host` line passes, and which
other lines do, the first byte of which that differs from `host:` being larger by 5.
`headers_recorded_iff` says that the fields are recorded exactly when there are no lines of either
kind.
-/

namespace Webservers

/-! ## The last line that counts -/

section LastMatch

variable {α β : Type*}

/-- What the last of the elements that meet `p` gives, `d` when there is none. -/
def lastMatch (p : α → Bool) (f : α → β) (d : β) (as : List α) : β :=
  ((as.filter p).getLast?.map f).getD d

variable {p : α → Bool} {f : α → β} {d : β} {a : α} {as : List α}

/-- Reading from the front, an element that meets `p` takes the place of what was there. -/
theorem lastMatch_cons :
    lastMatch p f d (a :: as) = lastMatch p f (if p a then f a else d) as := by
  unfold lastMatch
  rw [List.filter_cons]
  split
  · rw [List.getLast?_cons]
    cases (as.filter p).getLast? <;> rfl
  · rfl

theorem lastMatch_eq_of_forall (h : ∀ a ∈ as, p a = false) : lastMatch p f d as = d := by
  have hnil : as.filter p = [] := by
    rw [List.filter_eq_nil_iff]
    intro a ha
    rw [h a ha]
    exact Bool.false_ne_true
  rw [lastMatch, hnil]
  rfl

theorem lastMatch_of_mem (ha : a ∈ as) (hp : p a = true) : ∃ b, lastMatch p f d as = f b := by
  unfold lastMatch
  cases hlast : (as.filter p).getLast? with
  | none =>
    have hnil := List.getLast?_eq_none_iff.mp hlast
    exact absurd (List.mem_filter.mpr ⟨ha, hp⟩) (by rw [hnil]; exact List.not_mem_nil)
  | some b => exact ⟨b, rfl⟩

end LastMatch

/-! ## Header lines -/

/-- The line has this field name, with its colon. -/
def IsField (name line : List UInt8) : Prop := SameText (line.take name.length) name

instance (name line : List UInt8) : Decidable (IsField name line) :=
  inferInstanceAs (Decidable (lower _ = lower _))

/-- A `Connection` line with the value `keep-alive`. -/
def KeepAlive (line : List UInt8) : Prop :=
  IsField (ascii "Connection:") line ∧ SameText (Req.value line 11) (ascii "keep-alive")

instance : DecidablePred KeepAlive := fun line =>
  inferInstanceAs (Decidable (_ ∧ lower (Req.value line 11) = lower (ascii "keep-alive")))

/-- The line has none of the three field names that are looked for. -/
def OtherField (line : List UInt8) : Prop :=
  ¬ IsField (ascii "Connection:") line ∧ ¬ IsField (ascii "Content-Length:") line ∧
    ¬ IsField (ascii "Host:") line

/-- What is in front of the colon, case aside. -/
def fieldName (line : List UInt8) : List UInt8 := lower (line.takeWhile (· != 58))

/-- The line passes the test of `parse_request_header` for `Host`. -/
def TakenForHost (line : List UInt8) : Prop := strncasecmp line (ascii "Host:") 5 = 5

instance : DecidablePred TakenForHost := fun _ => inferInstanceAs (Decidable (_ = _))

theorem isField_iff {name line : List UInt8} (hname : 0 ∉ name) (hline : 0 ∉ line) :
    strncasecmp line name name.length = 0 ↔ IsField name line := by
  rw [strncasecmp_eq_zero_iff hline hname, List.take_length]
  exact Iff.rfl

theorem IsField.take {name line : List UInt8} (h : IsField name line) {k : ℕ}
    (hk : k ≤ name.length) : lower (line.take k) = lower (name.take k) := by
  have htake := congrArg (List.take k) h
  rw [lower, lower, ← List.map_take, ← List.map_take, List.take_take, Nat.min_eq_left hk] at htake
  exact htake

/-- The two names part at their fourth byte. -/
theorem not_contentLength_of_connection {line : List UInt8}
    (h : IsField (ascii "Connection:") line) : ¬ IsField (ascii "Content-Length:") line := by
  intro h'
  have hconn := h.take (k := 4) (by decide)
  have hlength := h'.take (k := 4) (by decide)
  rw [hconn] at hlength
  exact absurd hlength (by decide)

/-- A line that starts with `c` compares as 5 less. -/
theorem not_takenForHost_of_c {line : List UInt8} (h : lower (line.take 1) = [99]) :
    ¬ TakenForHost line := by
  cases line with
  | nil => cases h
  | cons x line =>
    have hx : tolower x = 99 := (List.cons.inj h).1
    unfold TakenForHost
    rw [show ascii "Host:" = [72, 111, 115, 116, 58] by decide, strncasecmp_cons, hx,
      if_neg (by decide)]
    decide

theorem IsField.not_takenForHost {line : List UInt8} (hline : 0 ∉ line)
    (h : IsField (ascii "Host:") line) : ¬ TakenForHost line := by
  have hzero : strncasecmp line (ascii "Host:") 5 = 0 := (isField_iff (by decide) hline).mpr h
  unfold TakenForHost
  rw [hzero]
  decide

theorem otherField_of_takenForHost {line : List UInt8} (hline : 0 ∉ line)
    (h : TakenForHost line) : OtherField line := by
  refine ⟨fun hconn => ?_, fun hlength => ?_, fun hhost => hhost.not_takenForHost hline h⟩
  · exact not_takenForHost_of_c (hconn.take (k := 1) (by decide)) h
  · exact not_takenForHost_of_c (hlength.take (k := 1) (by decide)) h

/-- The name of a field that is looked for is what stands before the first colon. -/
theorem IsField.fieldName_eq {name line : List UInt8} (h : IsField (name ++ [58]) line)
    (hname : 58 ∉ lower name) : fieldName line = lower name := by
  have hfront : lower (line.take name.length) = lower name := by
    have htake := h.take (k := name.length) (by rw [List.length_append]; omega)
    rw [List.take_left] at htake
    exact htake
  have hlen : (line.take name.length).length = name.length := by
    have hmap := congrArg List.length hfront
    rw [lower, lower, List.length_map, List.length_map] at hmap
    exact hmap
  -- the colon of the name is the colon of the line
  have hcolon : (line)[name.length]? = some 58 := by
    have hmap := congrArg (fun l => l[name.length]?) h
    simp only [lower, List.length_append, List.length_singleton, List.map_append,
      List.getElem?_map] at hmap
    rw [List.getElem?_take_of_lt (Nat.lt_succ_self _),
      List.getElem?_append_right (by rw [List.length_map]), List.length_map,
      Nat.sub_self] at hmap
    obtain ⟨b, hb, hlower⟩ := Option.map_eq_some_iff.mp hmap
    rw [hb, show b = 58 from eq_of_tolower hlower (by decide)]
  have hno : ∀ b ∈ line.take name.length, (b != 58) = true := by
    intro b hb
    rw [bne_iff_ne]
    rintro rfl
    apply hname
    rw [← hfront]
    exact List.mem_map_of_mem hb
  obtain ⟨hlt, hget⟩ := List.getElem?_eq_some_iff.mp hcolon
  have hsplit : line = line.take name.length ++ 58 :: line.drop (name.length + 1) := by
    rw [← hget, ← List.drop_eq_getElem_cons hlt, List.take_append_drop]
  have hwhile : line.takeWhile (· != 58) = line.take name.length := by
    conv => lhs; rw [hsplit]
    rw [List.takeWhile_append_of_pos hno, List.takeWhile_cons]
    exact List.append_nil _
  rw [fieldName, hwhile, hfront]

/-! ## One line -/

namespace ReadState

theorem nul_not_mem_value {line : List UInt8} (hline : 0 ∉ line) (n : ℕ) :
    0 ∉ Req.value line n :=
  fun h => hline (List.mem_of_mem_drop (List.mem_of_mem_drop h))

/-- Where `m_host` is set to. -/
def hostAt (c : ReadState) (text : ℕ) : ℕ := text + 5 + strspn (c.text (text + 5)) blanks

/-- The slot with other values for the three members. -/
def record (c : ReadState) (linger : Bool) (contentLength : ℤ) (host : Option ℕ) : ReadState :=
  { c with linger := linger, contentLength := contentLength, host := host }

/-- A header line that is not empty, said by what it does to the three members. -/
theorem parseRequestHeader_eq {c : ReadState} {text : ℕ} (hfit : text < readBufferSize)
    (h : c.text text ≠ []) :
    c.parseRequestHeader text =
      (.noRequest,
        c.record (c.linger || decide (KeepAlive (c.text text)))
          (if IsField (ascii "Content-Length:") (c.text text) then
            atol (Req.value (c.text text) 15) else c.contentLength)
          (if TakenForHost (c.text text) then some (c.hostAt text) else c.host)) := by
  have hnul : c.readBuf text ≠ 0 := fun hnul => h ((cstr_eq_nil_iff (by omega)).mpr hnul)
  have hline := nul_not_mem_text c text
  have hconn_iff : strncasecmp (c.text text) (ascii "Connection:") 11 = 0 ↔
      IsField (ascii "Connection:") (c.text text) := isField_iff (by decide) hline
  have hlength_iff : strncasecmp (c.text text) (ascii "Content-Length:") 15 = 0 ↔
      IsField (ascii "Content-Length:") (c.text text) := isField_iff (by decide) hline
  unfold parseRequestHeader
  rw [if_neg hnul]
  by_cases hconn : IsField (ascii "Connection:") (c.text text)
  · have hhost := not_takenForHost_of_c (hconn.take (k := 1) (by decide))
    have hn : 11 ≤ (c.text text).length :=
      length_of_strncasecmp hline (by decide) (hconn_iff.mpr hconn) (by decide)
    have hvalue := strcasecmp_eq_zero_iff (nul_not_mem_value hline 11)
      (show 0 ∉ ascii "keep-alive" by decide)
    rw [if_pos (hconn_iff.mpr hconn), if_neg (not_contentLength_of_connection hconn),
      if_neg hhost]
    simp only [text_value hn]
    split
    · rename_i hkeep
      have hkept : KeepAlive (c.text text) := ⟨hconn, hvalue.mp hkeep⟩
      rw [decide_eq_true hkept, Bool.or_true]
      rfl
    · rename_i hkeep
      have hnot : ¬ KeepAlive (c.text text) := fun h => hkeep (hvalue.mpr h.2)
      rw [decide_eq_false hnot, Bool.or_false]
      rfl
  · have hnot : ¬ KeepAlive (c.text text) := fun h => hconn h.1
    rw [if_neg (fun h => hconn (hconn_iff.mp h)), decide_eq_false hnot, Bool.or_false]
    by_cases hlength : IsField (ascii "Content-Length:") (c.text text)
    · have hhost := not_takenForHost_of_c (hlength.take (k := 1) (by decide))
      have hn : 15 ≤ (c.text text).length :=
        length_of_strncasecmp hline (by decide) (hlength_iff.mpr hlength) (by decide)
      rw [if_pos (hlength_iff.mpr hlength), if_pos hlength, if_neg hhost]
      simp only [text_value hn]
      rfl
    · rw [if_neg (fun h => hlength (hlength_iff.mp h)), if_neg hlength]
      by_cases hhost : strncasecmp (c.text text) (ascii "Host:") 5 = 5
      · have htaken : TakenForHost (c.text text) := hhost
        rw [if_pos hhost, if_pos htaken]
        rfl
      · have htaken : ¬ TakenForHost (c.text text) := hhost
        rw [if_neg hhost, if_neg htaken]
        rfl

theorem parseRequestHeader_other {c : ReadState} {text : ℕ} (hfit : text < readBufferSize)
    (h : c.text text ≠ []) (hother : OtherField (c.text text))
    (hnot : ¬ TakenForHost (c.text text)) : c.parseRequestHeader text = (.noRequest, c) := by
  have hkeep : ¬ KeepAlive (c.text text) := fun hkeep => hother.1 hkeep.1
  rw [parseRequestHeader_eq hfit h, decide_eq_false hkeep, Bool.or_false, if_neg hother.2.1,
    if_neg hnot]
  rfl

/-! ## All lines -/

/-- `parse_request_header` called with one line after the other. -/
def headers (c : ReadState) (texts : List ℕ) : ReadState :=
  texts.foldl (fun c text => (c.parseRequestHeader text).2) c

/-- The strings at these places of `m_read_buf` are header lines. -/
def HeaderLines (c : ReadState) (texts : List ℕ) : Prop :=
  ∀ text ∈ texts, text < readBufferSize ∧ c.text text ≠ []

/-- The three members as `init()` leaves them. -/
structure Reset (c : ReadState) : Prop where
  linger : c.linger = false
  contentLength : c.contentLength = 0
  host : c.host = none

/-- The slot after a list of header lines. -/
theorem headers_eq {c : ReadState} {texts : List ℕ} (h : HeaderLines c texts) :
    c.headers texts =
      c.record (c.linger || texts.any fun text => KeepAlive (c.text text))
        (lastMatch (fun line => IsField (ascii "Content-Length:") line)
          (fun line => atol (Req.value line 15)) c.contentLength (texts.map c.text))
        (lastMatch (fun text => TakenForHost (c.text text)) (fun text => some (c.hostAt text))
          c.host texts) := by
  induction texts generalizing c with
  | nil =>
    rw [headers, List.foldl_nil, List.any_nil, Bool.or_false]
    rfl
  | cons text texts ih =>
    obtain ⟨⟨hfit, hne⟩, hrest⟩ := List.forall_mem_cons.mp h
    -- the line leaves the buffer as it is, so the other lines stay what they are
    have hstep : c.headers (text :: texts) = ((c.parseRequestHeader text).2).headers texts := rfl
    rw [hstep, parseRequestHeader_eq hfit hne, List.any_cons, List.map_cons, lastMatch_cons,
      lastMatch_cons, ← Bool.or_assoc]
    simp only [decide_eq_true_eq]
    exact ih (c := c.record _ _ _) hrest

/-! ## What should be recorded -/

/-- Two slots have the same values in the three members, `m_host` compared as a string. -/
structure SameFields (c c' : ReadState) : Prop where
  linger : c'.linger = c.linger
  contentLength : c'.contentLength = c.contentLength
  host : c'.host.map c'.text = c.host.map c.text

/-- The lines are the same, and those with the same field name stand in the same order. -/
def SameOrder (lines lines' : List (List UInt8)) : Prop :=
  ∀ name, lines'.filter (fieldName · = name) = lines.filter (fieldName · = name)

/-- The fields of the lines at `texts` are recorded, whatever their order. -/
structure HeadersRecorded (c : ReadState) (texts : List ℕ) : Prop where
  linger : (c.headers texts).linger = true ↔ ∃ line ∈ texts.map c.text, KeepAlive line
  contentLength : (c.headers texts).contentLength =
    lastMatch (fun line => IsField (ascii "Content-Length:") line)
      (fun line => atol (Req.value line 15)) 0 (texts.map c.text)
  host : (c.headers texts).host.map (c.headers texts).text =
    lastMatch (fun line => IsField (ascii "Host:") line) (fun line => some (Req.value line 5)) none
      (texts.map c.text)
  /-- a line with another field name changes none of them -/
  others : ∀ before text after, texts = before ++ text :: after → OtherField (c.text text) →
    SameFields (c.headers before) (c.headers (before ++ [text]))
  /-- nor does another order of lines with different field names -/
  order : ∀ c' texts', Reset c' → HeaderLines c' texts' →
    SameOrder (texts.map c.text) (texts'.map c'.text) →
    SameFields (c.headers texts) (c'.headers texts')

/-- No `Host` line, and no line that is taken for one. -/
def NoHost (line : List UInt8) : Prop :=
  strncasecmp line (ascii "Host:") 5 ≠ 0 ∧ strncasecmp line (ascii "Host:") 5 ≠ 5

instance : DecidablePred NoHost := fun _ => inferInstanceAs (Decidable (_ ∧ _))

theorem mem_of_sameOrder {lines lines' : List (List UInt8)} (h : SameOrder lines lines')
    {line : List UInt8} (hline : line ∈ lines') : line ∈ lines := by
  have hmem : line ∈ lines'.filter (fieldName · = fieldName line) :=
    List.mem_filter.mpr ⟨hline, decide_eq_true rfl⟩
  rw [h (fieldName line)] at hmem
  exact (List.mem_filter.mp hmem).1

/-- Lines of a field that is looked for keep their order. -/
theorem SameOrder.filter {lines lines' : List (List UInt8)} (h : SameOrder lines lines')
    {name : List UInt8} (hname : 58 ∉ lower name) :
    lines'.filter (fun line => IsField (name ++ [58]) line) =
      lines.filter (fun line => IsField (name ++ [58]) line) := by
  have hboth : ∀ line : List UInt8, decide (IsField (name ++ [58]) line) =
      (decide (IsField (name ++ [58]) line) && decide (fieldName line = lower name)) := by
    intro line
    by_cases hfield : IsField (name ++ [58]) line
    · rw [decide_eq_true hfield, decide_eq_true (hfield.fieldName_eq hname)]
      rfl
    · rw [decide_eq_false hfield]
      rfl
  have hfilter : ∀ ls : List (List UInt8), ls.filter (fun line => IsField (name ++ [58]) line) =
      (ls.filter (fieldName · = lower name)).filter (fun line => IsField (name ++ [58]) line) := by
    intro ls
    rw [List.filter_filter]
    exact List.filter_congr fun line _ => hboth line
  rw [hfilter lines', hfilter lines, h (lower name)]

variable {c : ReadState} {texts : List ℕ}

theorem headers_text (h : HeaderLines c texts) : (c.headers texts).text = c.text := by
  rw [headers_eq h]
  rfl

theorem headers_linger (hreset : Reset c) (h : HeaderLines c texts) :
    (c.headers texts).linger = true ↔ ∃ line ∈ texts.map c.text, KeepAlive line := by
  rw [headers_eq h]
  show (c.linger || _) = true ↔ _
  rw [hreset.linger, Bool.false_or, List.any_eq_true]
  simp only [decide_eq_true_eq, List.mem_map, exists_exists_and_eq_and]

theorem headers_contentLength (hreset : Reset c) (h : HeaderLines c texts) :
    (c.headers texts).contentLength =
      lastMatch (fun line => IsField (ascii "Content-Length:") line)
        (fun line => atol (Req.value line 15)) 0 (texts.map c.text) := by
  rw [headers_eq h, ← hreset.contentLength]
  rfl

theorem headers_host_none (hreset : Reset c) (h : HeaderLines c texts)
    (hno : ∀ text ∈ texts, ¬ TakenForHost (c.text text)) : (c.headers texts).host = none := by
  rw [headers_eq h]
  show lastMatch _ _ c.host texts = none
  rw [hreset.host]
  exact lastMatch_eq_of_forall fun text htext => decide_eq_false (hno text htext)

theorem headers_append_singleton (before : List ℕ) (text : ℕ) :
    c.headers (before ++ [text]) = ((c.headers before).parseRequestHeader text).2 := by
  rw [headers, List.foldl_append]
  rfl

/-- A line that is taken for `Host` sets `m_host`. -/
theorem headers_host_taken {before : List ℕ} {text : ℕ} (h : HeaderLines c (before ++ [text]))
    (htaken : TakenForHost (c.text text)) : (c.headers (before ++ [text])).host ≠ none := by
  have hmem : text ∈ before ++ [text] := List.mem_append_right _ List.mem_cons_self
  obtain ⟨text', hlast⟩ := lastMatch_of_mem (p := fun text => TakenForHost (c.text text))
    (f := fun text => some (c.hostAt text)) (d := c.host) hmem (decide_eq_true htaken)
  rw [headers_eq h]
  show lastMatch _ _ c.host _ ≠ none
  rw [hlast]
  exact Option.some_ne_none _

/-- Where no line with another field name changes anything, no line is taken for `Host`. -/
theorem HeadersRecorded.not_takenForHost (hrec : HeadersRecorded c texts) (hreset : Reset c)
    (h : HeaderLines c texts) : ∀ text ∈ texts, ¬ TakenForHost (c.text text) := by
  -- along the lines: up to the first that is taken for `Host`, `m_host` is null
  have hprefix : ∀ before after, texts = before ++ after →
      ∀ text ∈ before, ¬ TakenForHost (c.text text) := by
    intro before
    induction before using List.reverseRecOn with
    | nil => exact fun _ _ text htext => absurd htext List.not_mem_nil
    | append_singleton before text ih =>
      intro after hsplit
      rw [List.append_assoc, List.singleton_append] at hsplit
      have hbefore := ih (text :: after) hsplit
      have hlines : HeaderLines c (before ++ [text]) := by
        intro t ht
        apply h t
        rw [hsplit, List.append_cons]
        exact List.mem_append_left _ ht
      have hlines' : HeaderLines c before := fun t ht => hlines t (List.mem_append_left _ ht)
      have hnot : ¬ TakenForHost (c.text text) := by
        intro htaken
        have hother := otherField_of_takenForHost (nul_not_mem_text c text) htaken
        have hhost := (hrec.others before text after hsplit hother).host
        rw [headers_host_none hreset hlines' hbefore, Option.map_none,
          Option.map_eq_none_iff] at hhost
        exact headers_host_taken hlines htaken hhost
      intro t ht
      rcases List.mem_append.mp ht with ht | ht
      · exact hbefore t ht
      · rw [List.mem_singleton.mp ht]
        exact hnot
  exact hprefix texts [] (List.append_nil _).symm

/-- The fields of a head are recorded exactly when none of its lines is a `Host` line and none is
taken for one. -/
theorem headers_recorded_iff (hreset : Reset c) (h : HeaderLines c texts) :
    HeadersRecorded c texts ↔ ∀ text ∈ texts, NoHost (c.text text) := by
  have hhost_iff : ∀ text, strncasecmp (c.text text) (ascii "Host:") 5 = 0 ↔
      IsField (ascii "Host:") (c.text text) :=
    fun text => isField_iff (by decide) (nul_not_mem_text c text)
  constructor
  · intro hrec text htext
    have hnot := hrec.not_takenForHost hreset h
    refine ⟨fun hzero => ?_, hnot text htext⟩
    -- a `Host` line that is there is not recorded
    have hhost := hrec.host
    rw [headers_host_none hreset h hnot, Option.map_none] at hhost
    obtain ⟨line, hlast⟩ := lastMatch_of_mem (p := fun line => IsField (ascii "Host:") line)
      (f := fun line => some (Req.value line 5)) (d := none) (List.mem_map_of_mem htext)
      (decide_eq_true ((hhost_iff text).mp hzero))
    rw [hlast] at hhost
    cases hhost
  · intro hno
    have hnot : ∀ text ∈ texts, ¬ TakenForHost (c.text text) := fun text htext =>
      (hno text htext).2
    have hnone := headers_host_none hreset h hnot
    refine ⟨headers_linger hreset h, headers_contentLength hreset h, ?_, ?_, ?_⟩
    · rw [hnone, Option.map_none]
      symm
      apply lastMatch_eq_of_forall
      intro line hline
      obtain ⟨text, htext, rfl⟩ := List.mem_map.mp hline
      exact decide_eq_false fun hfield => (hno text htext).1 ((hhost_iff text).mpr hfield)
    · intro before text after hsplit hother
      have hbefore : HeaderLines c before := by
        intro t ht
        apply h t
        rw [hsplit]
        exact List.mem_append_left _ ht
      have hmem : text ∈ texts := by
        rw [hsplit]
        exact List.mem_append_right _ List.mem_cons_self
      obtain ⟨hfit, hne⟩ := h text hmem
      have htext := congrFun (headers_text hbefore) text
      rw [← htext] at hne hother
      have hnot' := hnot text hmem
      rw [← htext] at hnot'
      rw [headers_append_singleton, parseRequestHeader_other hfit hne hother hnot']
      exact ⟨rfl, rfl, rfl⟩
    · intro c' texts' hreset' h' horder
      have hline : ∀ line, line ∈ texts'.map c'.text ↔ line ∈ texts.map c.text := fun line =>
        ⟨mem_of_sameOrder horder, mem_of_sameOrder fun name => (horder name).symm⟩
      constructor
      · rw [Bool.eq_iff_iff, headers_linger hreset h, headers_linger hreset' h']
        exact exists_congr fun line => and_congr_left fun _ => hline line
      · rw [headers_contentLength hreset h, headers_contentLength hreset' h',
          show ascii "Content-Length:" = ascii "Content-Length" ++ [58] by decide]
        unfold lastMatch
        rw [horder.filter (by decide)]
      · have hnot' : ∀ text ∈ texts', ¬ TakenForHost (c'.text text) := by
          intro text htext
          obtain ⟨text', htext', heq⟩ :=
            List.mem_map.mp ((hline _).mp (List.mem_map_of_mem htext))
          rw [← heq]
          exact hnot text' htext'
        rw [hnone, headers_host_none hreset' h' hnot', Option.map_none, Option.map_none]

/-- A slot with three header lines, each with its NUL. -/
def threeLines (first second third : String) : ReadState × List ℕ :=
  let start := (ascii first).length + 1
  let next := start + (ascii second).length + 1
  (init.deliver (ascii first ++ [0] ++ ascii second ++ [0] ++ ascii third), [0, start, next])

/-- A head without a `Host` line. -/
def hostless : ReadState × List ℕ :=
  threeLines "content-length:\t7" "Accept: */*" "CONNECTION:  Keep-Alive"

theorem headers_recorded_iff_hostless :
    HeadersRecorded hostless.1 hostless.2 ∧ (hostless.1.headers hostless.2).linger = true ∧
      (hostless.1.headers hostless.2).contentLength = 7 := by
  refine ⟨(headers_recorded_iff ⟨rfl, rfl, rfl⟩ ?_).mpr ?_, by decide +kernel, by decide +kernel⟩
  · unfold HeaderLines
    decide +kernel
  · decide +kernel

def hosted : ReadState × List ℕ :=
  threeLines "Host: example.com" "Accept: */*" "Max-Forwards: 3"

/-- The `Host` line is not recorded, and `m_host` is set by the `Max-Forwards` line instead. -/
theorem maxForwards_taken_for_host :
    (hosted.1.headers hosted.2).host.map hosted.1.text = some (ascii "orwards: 3") ∧
      ¬ HeadersRecorded hosted.1 hosted.2 := by
  refine ⟨by decide +kernel, fun h => ?_⟩
  exact absurd h.host (by decide +kernel)

end ReadState
end Webservers
