import Webservers.HttpConn.LoopTheorems

/-!
# Parsing in place

The parser reads a line through pointers into `m_read_buf` and cuts it into strings there. While
it is in the head of a request, this concerns the current line only, with one exception: the test
for `Host:` compares the result of `strncasecmp` with 5, and on a line such as `m` the pointer is
then moved behind the line.

* `span` are the bytes of a string that the functions of `<string.h>` may read, and
  `parseRequestLineReads`, `parseRequestHeaderReads` what the parser reads through `text`.
* `Confined` says what a step may read and store, and that it leaves the other bytes alone.
* `PathKept` says that `m_url` keeps pointing to the path, in all that may follow.
* `confined_iff` gives the runs in which all of this holds.
-/

namespace Webservers
namespace ReadState

/-! ## What is read through `text` -/

/-- The characters of the string at index `i`, and its NUL. -/
def span (c : ReadState) (i : ℕ) : List ℕ := List.range' i ((c.text i).length + 1)

/-- The target: `strncasecmp`, `strchr` and `m_url[0]`. -/
def parseTargetReads (c : ReadState) (url : ℕ) : List ℕ :=
  c.span url ++
    if strncasecmp (c.text url) (ascii "http://") 7 = 0 then
      c.span (url + 7) ++
        match strchr (c.text (url + 7)) 47 with
        | none => []
        | some k => [url + 7 + k]
    else [url]

/-- The version: `strpbrk` from `m_url` on, and `strcasecmp` behind the blank that it cuts. -/
def parseVersionReads (c : ReadState) (url : ℕ) : List ℕ :=
  c.span url ++
    match strpbrk (c.text url) blanks with
    | none => []
    | some j =>
      let c' := c.store (url + j : ℕ)
      c'.span (url + j + 1) ++
        if strcasecmp (c'.text (url + j + 1)) (ascii "HTTP/1.1") ≠ 0 then []
        else c'.parseTargetReads url

/-- `parse_request_line(text)` -/
def parseRequestLineReads (c : ReadState) (text : ℕ) : List ℕ :=
  c.span text ++
    match strpbrk (c.text text) blanks with
    | none => []
    | some i =>
      let c' := c.store (text + i : ℕ)
      c'.span text ++
        if strcasecmp (c'.text text) (ascii "GET") ≠ 0 then []
        else c'.parseVersionReads (text + i + 1)

/-- The value of a field whose name has `n` characters: `strspn`, and what is called with the
value. -/
def valueReads (c : ReadState) (text n : ℕ) : List ℕ :=
  c.span (text + n) ++ c.span (text + n + strspn (c.text (text + n)) blanks)

/-- `parse_request_header(text)` -/
def parseRequestHeaderReads (c : ReadState) (text : ℕ) : List ℕ :=
  text ::
    if c.readBuf text = 0 then []
    else
      c.span text ++
        if strncasecmp (c.text text) (ascii "Connection:") 11 = 0 then c.valueReads text 11
        else if strncasecmp (c.text text) (ascii "Content-Length:") 15 = 0 then
          c.valueReads text 15
        -- the value of `Host:` is only pointed to
        else if strncasecmp (c.text text) (ascii "Host:") 5 = 5 then c.span (text + 5)
        else []

section Reads

variable {c : ReadState} {i j k n x text url : ℕ}

/-- A string ends at the first NUL. -/
theorem text_le_of_nul (hnul : c.readBuf j = 0) (hi : i ≤ j) (hj : j < readBufferSize) :
    i + (c.text i).length ≤ j := by
  obtain ⟨d, rfl⟩ := Nat.exists_eq_add_of_le hi
  have htext : c.text i = (slice c.readBuf i d).takeWhile (· != 0) :=
    cstr_eq hnul (by omega)
  have hlen : (c.text i).length ≤ d := by
    rw [htext]
    exact Nat.le_trans (List.takeWhile_sublist _).length_le (Nat.le_of_eq length_slice)
  omega

/-- A string before a NUL is read up to it at most. -/
theorem span_le (hnul : c.readBuf j = 0) (hi : i ≤ j) (hj : j < readBufferSize) :
    ∀ x ∈ c.span i, i ≤ x ∧ x ≤ j := by
  intro x hx
  have hend := text_le_of_nul hnul hi hj
  have hrange := List.mem_range'_1.mp hx
  omega

theorem store_nul (hnul : c.readBuf j = 0) (i : ℤ) : (c.store i).readBuf j = 0 := by
  show (if (j : ℤ) = i then 0 else c.readBuf j) = 0
  rw [hnul, ite_self]

theorem parseTargetReads_le (hnul : c.readBuf j = 0) (hurl : url ≤ j)
    (hj : j < readBufferSize) : ∀ x ∈ c.parseTargetReads url, url ≤ x ∧ x ≤ j := by
  have hend := text_le_of_nul hnul hurl hj
  unfold parseTargetReads
  intro x hx
  rcases List.mem_append.mp hx with hx | hx
  · exact span_le hnul hurl hj x hx
  · split at hx
    · rename_i hscheme
      have hlen : 7 ≤ (c.text url).length :=
        length_of_strncasecmp (nul_not_mem_text c url) (by decide) hscheme (by decide)
      have hseven : url + 7 ≤ j := by omega
      rcases List.mem_append.mp hx with hx | hx
      · have hle := span_le hnul hseven hj x hx
        omega
      · split at hx
        · exact absurd hx List.not_mem_nil
        · rename_i k hk
          have hlt := strchr_lt hk
          have hend' := text_le_of_nul hnul hseven hj
          rw [List.mem_singleton] at hx
          omega
    · rw [List.mem_singleton] at hx
      omega

theorem parseVersionReads_le (hnul : c.readBuf j = 0) (hurl : url ≤ j)
    (hj : j < readBufferSize) : ∀ x ∈ c.parseVersionReads url, url ≤ x ∧ x ≤ j := by
  have hend := text_le_of_nul hnul hurl hj
  unfold parseVersionReads
  intro x hx
  rcases List.mem_append.mp hx with hx | hx
  · exact span_le hnul hurl hj x hx
  · split at hx
    · exact absurd hx List.not_mem_nil
    · rename_i k hk
      have hlt := strpbrk_lt hk
      -- the NUL stored behind the target leaves the one at `j`
      have hnul' := store_nul hnul (url + k : ℕ)
      rcases List.mem_append.mp hx with hx | hx
      · have hle := span_le hnul' (by omega) hj x hx
        omega
      · split at hx
        · exact absurd hx List.not_mem_nil
        · exact parseTargetReads_le hnul' hurl hj x hx

theorem parseRequestLineReads_le (hnul : c.readBuf j = 0) (htext : text ≤ j)
    (hj : j < readBufferSize) : ∀ x ∈ c.parseRequestLineReads text, text ≤ x ∧ x ≤ j := by
  have hend := text_le_of_nul hnul htext hj
  unfold parseRequestLineReads
  intro x hx
  rcases List.mem_append.mp hx with hx | hx
  · exact span_le hnul htext hj x hx
  · split at hx
    · exact absurd hx List.not_mem_nil
    · rename_i k hk
      have hlt := strpbrk_lt hk
      have hnul' := store_nul hnul (text + k : ℕ)
      rcases List.mem_append.mp hx with hx | hx
      · exact span_le hnul' htext hj x hx
      · split at hx
        · exact absurd hx List.not_mem_nil
        · have hle := parseVersionReads_le hnul' (by omega) hj x hx
          omega

theorem valueReads_le (hnul : c.readBuf j = 0) (htext : text ≤ j) (hj : j < readBufferSize)
    (hn : n ≤ (c.text text).length) : ∀ x ∈ c.valueReads text n, text ≤ x ∧ x ≤ j := by
  have hend := text_le_of_nul hnul htext hj
  have hend' := text_le_of_nul (i := text + n) hnul (by omega) hj
  have hspn : strspn (c.text (text + n)) blanks ≤ (c.text (text + n)).length :=
    (List.takeWhile_sublist _).length_le
  intro x hx
  rcases List.mem_append.mp hx with hx | hx
  · have hle := span_le hnul (by omega) hj x hx
    omega
  · have hle := span_le hnul (by omega) hj x hx
    omega

/-- A header line is read inside its bytes exactly when the pointer to the value of `Host:` is not
moved out of it. -/
theorem parseRequestHeaderReads_le_iff (hnul : c.readBuf j = 0) (htext : text ≤ j)
    (hj : j < readBufferSize) :
    (∀ x ∈ c.parseRequestHeaderReads text, text ≤ x ∧ x ≤ j) ↔
      (strncasecmp (c.text text) (ascii "Host:") 5 = 5 → text + 5 ≤ j) := by
  have hend := text_le_of_nul hnul htext hj
  have hlength : ∀ {name : List UInt8} {m : ℕ}, 0 ∉ name → m ≤ name.length →
      strncasecmp (c.text text) name m = 0 → m ≤ (c.text text).length :=
    fun hname hm h => length_of_strncasecmp (nul_not_mem_text c text) hname h hm
  unfold parseRequestHeaderReads
  rw [List.forall_mem_cons]
  split
  · rename_i hempty
    have hnil : c.text text = [] := (cstr_eq_nil_iff (by omega)).mpr hempty
    refine ⟨fun _ h => ?_, fun _ => ⟨by omega, fun x hx => absurd hx List.not_mem_nil⟩⟩
    rw [hnil] at h
    exact absurd h (by decide +kernel)
  · rw [List.forall_mem_append]
    split
    · rename_i hconn
      have hlen := hlength (by decide) (by decide) hconn
      exact ⟨fun _ _ => by omega, fun _ => ⟨by omega, span_le hnul htext hj,
        valueReads_le hnul htext hj hlen⟩⟩
    · split
      · rename_i hcontent
        have hlen := hlength (by decide) (by decide) hcontent
        exact ⟨fun _ _ => by omega, fun _ => ⟨by omega, span_le hnul htext hj,
          valueReads_le hnul htext hj hlen⟩⟩
      · split
        · rename_i hhost
          constructor
          · rintro ⟨-, -, hreads⟩ -
            have hfirst : text + 5 ∈ c.span (text + 5) :=
              List.mem_range'_1.mpr (by omega)
            exact (hreads _ hfirst).2
          · intro hok
            refine ⟨by omega, span_le hnul htext hj, fun x hx => ?_⟩
            have hle := span_le hnul (hok hhost) hj x hx
            omega
        · rename_i hhost
          exact ⟨fun _ h => absurd h hhost, fun _ => ⟨by omega, span_le hnul htext hj,
            fun x hx => absurd hx List.not_mem_nil⟩⟩

end Reads

/-! ## What the body of the loop leaves alone -/

section Switch

variable {c : ReadState}

theorem switched_requestLite (h : c.checkState = .requestLite) :
    c.switched = ({ c with startLine := c.checkedIndex }.parseRequestLine c.startLine).2 := by
  unfold switched mainSwitch
  simp only [h]
  split <;> rename_i heq <;> rw [heq] <;> rfl

theorem switched_header (h : c.checkState = .header) :
    c.switched = ({ c with startLine := c.checkedIndex }.parseRequestHeader c.startLine).2 := by
  unfold switched mainSwitch
  simp only [h]
  split <;> rename_i heq <;> rw [heq] <;> rfl

theorem switched_content (h : c.checkState = .content) :
    c.switched = ({ c with startLine := c.checkedIndex }.parseRequestContent c.startLine).2 := by
  unfold switched mainSwitch
  simp only [h]
  split <;> rename_i heq <;> rw [heq] <;> rfl

/-- A request line changes the state only when it is accepted. -/
theorem parseRequestLine_checkState (c : ReadState) (text : ℕ) :
    (c.parseRequestLine text).2.checkState =
      if (c.parseRequestLine text).1 = .badRequest then c.checkState else .header := by
  unfold parseRequestLine
  split
  · rfl
  · simp only
    split
    · rfl
    · unfold parseVersion
      split
      · rfl
      · simp only
        split
        · rfl
        · unfold parseTarget
          simp only
          split
          · rfl
          · split <;> rfl

/-- A header line stores nothing, and leaves `m_url` alone. -/
theorem parseRequestHeader_keeps (c : ReadState) (text : ℕ) :
    (c.parseRequestHeader text).2.readBuf = c.readBuf ∧
      (c.parseRequestHeader text).2.stores = c.stores ∧
      (c.parseRequestHeader text).2.url = c.url := by
  simp only [parseRequestHeader, apply_ite Prod.snd, apply_ite ReadState.readBuf,
    apply_ite ReadState.stores, apply_ite ReadState.url, ite_self, and_self]

theorem parseRequestContent_checkState (c : ReadState) (text : ℕ) :
    (c.parseRequestContent text).2.checkState = c.checkState := by
  unfold parseRequestContent
  simp only
  split <;> rfl

/-- The state never goes back. -/
theorem parseRequestHeader_checkState (c : ReadState) (text : ℕ) :
    (c.parseRequestHeader text).2.checkState = c.checkState ∨
      (c.parseRequestHeader text).2.checkState = .content := by
  simp only [parseRequestHeader, apply_ite Prod.snd, apply_ite ReadState.checkState, ite_self]
  split
  · split
    · exact Or.inr rfl
    · exact Or.inl rfl
  · exact Or.inl rfl

/-- In the body the state does not change any more. -/
theorem switched_content_checkState (h : c.checkState = .content) :
    c.switched.checkState = .content := by
  rw [switched_content h, parseRequestContent_checkState]
  exact h

end Switch

/-! ## A line of the head -/

/-- In the head, a NUL stands in front of the current line, and the path that `m_url` points to
ends before it. -/
structure Framed (c : ReadState) : Prop where
  inOrder : InOrder c
  lineStart : c.checkState ≠ .content → c.startLine = 0 ∨ c.readBuf (c.startLine - 1) = 0
  target : c.checkState = .header → ∃ u, c.url = some u ∧ u + (c.text u).length < c.startLine

section Line

variable {c : ReadState} {k : ℕ}

/-- The end of a line never lies before its start. -/
theorem Framed.start_le (h : Framed c) (hhead : c.checkState ≠ .content)
    (hk : k = c.checkedIndex ∨ k + 1 = c.checkedIndex) (hcr : c.readBuf k = CR) :
    c.startLine ≤ k := by
  have hle := h.inOrder.start_le
  rcases hk with rfl | hk
  · exact hle
  · by_contra hlt
    -- the CR would stand where the line before it ended
    have hprev : c.startLine - 1 = k := by omega
    rcases h.lineStart hhead with hzero | hnul
    · omega
    · rw [hprev, hcr] at hnul
      exact absurd hnul (by decide)

/-- Behind its end, a line is the string that `get_line()` returns. -/
theorem text_endLine {i : ℕ} (hi : i ≤ k) (hk : k < readBufferSize) :
    (c.endLine k).text i = cText (slice c.readBuf i (k - i)) := by
  obtain ⟨d, rfl⟩ := Nat.exists_eq_add_of_le hi
  have htext : (c.endLine (i + d)).text i =
      (slice (c.endLine (i + d)).readBuf i d).takeWhile (· != 0) :=
    cstr_eq (endLine_nul c (i + d)).1 (by omega)
  have hslice : slice (c.endLine (i + d)).readBuf i d = slice c.readBuf i d := by
    apply slice_congr
    intro j _ hj
    exact (within_endLine c (i + d)).bytes j (Or.inl hj)
  rw [htext, hslice, Nat.add_sub_cancel_left]
  rfl

/-- What interpreting a line of the head does to the buffer. -/
theorem within_switched (hstart : c.startLine ≤ k) (hk : k + 1 < readBufferSize)
    (hhead : c.checkState ≠ .content) :
    Within c.startLine (k + 2) c (c.endLine k).switched ∧
      (c.endLine k).switched.readBuf (k + 1) = 0 := by
  have hline := (within_endLine c k).mono hstart (Nat.le_refl _)
  obtain ⟨hnul, hnul'⟩ := endLine_nul c k
  cases hstate : c.checkState with
  | content => exact absurd hstate hhead
  | requestLite =>
    rw [switched_requestLite (c := c.endLine k) hstate]
    have hend := text_le_of_nul (c := c.endLine k) hnul hstart (by omega)
    have hwithin := parseRequestLine_within { c.endLine k with startLine := k + 2 } c.startLine
    have hbytes := hwithin.bytes (k + 1) (Or.inr (by exact Nat.le_succ_of_le hend))
    refine ⟨hline.trans ?_ (Nat.le_refl _) (Nat.le_refl _), hbytes.trans hnul'⟩
    have hmono := hwithin.mono (Nat.le_refl _)
      (show c.startLine + ((c.endLine k).text c.startLine).length ≤ k + 2 by omega)
    exact ⟨hmono.readIndex, hmono.bytes, hmono.stores, hmono.sums⟩
  | header =>
    rw [switched_header (c := c.endLine k) hstate]
    have hkeeps := parseRequestHeader_keeps { c.endLine k with startLine := k + 2 } c.startLine
    have hindex := parseRequestHeader_indices { c.endLine k with startLine := k + 2 } c.startLine
    have hsums : ({ c.endLine k with startLine := k + 2 }.parseRequestHeader c.startLine).2.sums =
        (c.endLine k).sums := by
      simp only [parseRequestHeader, apply_ite Prod.snd, apply_ite ReadState.sums, ite_self]
    refine ⟨hline.trans (.of_eq hindex.2 hkeeps.1 hkeeps.2.1 hsums) (Nat.le_refl _)
      (Nat.le_refl _), ?_⟩
    exact (congrFun hkeeps.1 (k + 1)).trans hnul'

/-- A request line that is accepted: `m_url` points to the path that it names. -/
theorem switched_accepted (hstart : c.startLine ≤ k) (hk : k + 1 < readBufferSize)
    (hstate : c.checkState = .requestLite) (hheader : (c.endLine k).switched.checkState = .header) :
    ∃ i path, Req.requestLine (cText (slice c.readBuf c.startLine (k - c.startLine))) =
        some (i, path) ∧
      (c.endLine k).switched.url = some (c.startLine + i) ∧
      (c.endLine k).switched.text (c.startLine + i) = path := by
  rw [switched_requestLite (c := c.endLine k) hstate] at hheader ⊢
  have hend := text_le_of_nul (c := c.endLine k) (endLine_nul c k).1 hstart (by omega)
  have hspec := parseRequestLine_spec { c.endLine k with startLine := k + 2 } c.startLine
    (show c.startLine + ((c.endLine k).text c.startLine).length < readBufferSize by omega)
  have hline : ReadState.text { c.endLine k with startLine := k + 2 } c.startLine =
      cText (slice c.readBuf c.startLine (k - c.startLine)) := text_endLine hstart (by omega)
  rw [hline] at hspec
  have hok : ({ c.endLine k with startLine := k + 2 }.parseRequestLine c.startLine).1 ≠
      .badRequest := by
    intro hbad
    have hstay := parseRequestLine_checkState { c.endLine k with startLine := k + 2 } c.startLine
    rw [if_pos hbad] at hstay
    exact absurd (hstate.symm.trans (hstay.symm.trans hheader)) (by decide)
  cases hfound : Req.requestLine (cText (slice c.readBuf c.startLine (k - c.startLine))) with
  | none => exact absurd (hspec.bad hfound) hok
  | some found =>
    obtain ⟨i, path⟩ := found
    obtain ⟨-, -, hurl, htext⟩ := hspec.ok i path hfound
    exact ⟨i, path, rfl, hurl, htext⟩

theorem switched_header_url (hstate : c.checkState = .header) :
    (c.endLine k).switched.url = c.url := by
  rw [switched_header (c := c.endLine k) hstate]
  exact (parseRequestHeader_keeps { c.endLine k with startLine := k + 2 } c.startLine).2.2

end Line

/-! ## The invariant -/

section Invariant

variable {c c' : ReadState}

theorem framed_init : Framed init where
  inOrder := inOrder_init
  lineStart := fun _ => Or.inl rfl
  target := fun h => by cases h

theorem Framed.deliver (h : Framed c) (x : List UInt8) (hord : InOrder (c.deliver x)) :
    Framed (c.deliver x) := by
  have hstart := Nat.le_trans h.inOrder.start_le h.inOrder.checked_le
  have hbelow : ∀ j, j < c.startLine → (c.deliver x).readBuf j = c.readBuf j :=
    fun j hj => deliver_below c x (by omega)
  refine ⟨hord, fun hhead => ?_, fun hheader => ?_⟩
  · show c.startLine = 0 ∨ (c.deliver x).readBuf (c.startLine - 1) = 0
    rcases h.lineStart hhead with hzero | hnul
    · exact Or.inl hzero
    · by_cases hzero : c.startLine = 0
      · exact Or.inl hzero
      · exact Or.inr ((hbelow _ (by omega)).trans hnul)
  · obtain ⟨u, hurl, hlt⟩ := h.target hheader
    refine ⟨u, hurl, ?_⟩
    rw [text_of_below hbelow rfl hlt]
    exact hlt

/-- The path stays while the parser is in the header lines, and in the step that ends them. -/
theorem Framed.path_kept (h : Framed c) (hheader : c.checkState = .header)
    (hmoved : Moved c c') :
    ∃ u, c.url = some u ∧ u + (c.text u).length < c.startLine ∧ c'.url = some u ∧
      c'.text u = c.text u := by
  obtain ⟨u, hurl, hlt⟩ := h.target hheader
  have hhead : c.checkState ≠ .content := by
    rw [hheader]
    decide
  refine ⟨u, hurl, hlt, ?_⟩
  cases hmoved with
  | stayed => exact ⟨hurl, rfl⟩
  | next => exact ⟨hurl, rfl⟩
  | content hcontent => exact absurd hcontent hhead
  | line k hk hle hcr hlf =>
    have hfit := h.inOrder.fits
    have hwithin := (within_switched (h.start_le hhead hk hcr) (by omega) hhead).1
    exact ⟨(switched_header_url hheader).trans hurl,
      text_of_below (fun j hj => hwithin.bytes j (Or.inl hj)) rfl hlt⟩

theorem Framed.moved (h : Framed c) (hmoved : Moved c c') : Framed c' := by
  have hord := h.inOrder.moved hmoved
  cases hmoved with
  | stayed => exact h
  | next => exact ⟨hord, h.lineStart, h.target⟩
  | content hcontent =>
    have hstate := switched_content_checkState hcontent
    exact ⟨hord, fun hhead => absurd hstate hhead,
      fun hheader => absurd (hstate.symm.trans hheader) (by decide)⟩
  | line k hk hle hcr hlf =>
    by_cases hcontent : c.checkState = .content
    · have hstate := switched_content_checkState (c := c.endLine k) hcontent
      exact ⟨hord, fun hhead => absurd hstate hhead,
        fun hheader => absurd (hstate.symm.trans hheader) (by decide)⟩
    · have hfit := h.inOrder.fits
      have hstart := h.start_le hcontent hk hcr
      obtain ⟨-, hnul⟩ := within_switched hstart (by omega) hcontent
      have hline : (c.endLine k).switched.startLine = k + 2 := (switched_indices (c.endLine k)).1
      refine ⟨hord, fun _ => ?_, fun hheader => ?_⟩
      · rw [hline]
        exact Or.inr hnul
      · rw [hline]
        cases hstate : c.checkState with
        | content => exact absurd hstate hcontent
        | requestLite =>
          obtain ⟨i, path, hfound, hurl, htext⟩ :=
            switched_accepted hstart (by omega) hstate hheader
          have hle := Req.requestLine_le hfound
          have hlen : (cText (slice c.readBuf c.startLine (k - c.startLine))).length ≤
              k - c.startLine :=
            Nat.le_trans (List.takeWhile_sublist _).length_le (Nat.le_of_eq length_slice)
          refine ⟨_, hurl, ?_⟩
          rw [htext]
          omega
        | header =>
          obtain ⟨u, -, hlt, hurl, htext⟩ := h.path_kept hstate (.line k hk hle hcr hlf)
          refine ⟨u, hurl, ?_⟩
          rw [htext]
          omega

/-- Behind the request line the parser does not come back to it. -/
theorem Moved.not_requestLite (hmoved : Moved c c') (h : c.checkState ≠ .requestLite) :
    c'.checkState ≠ .requestLite ∧ (c'.checkState = .header → c.checkState = .header) := by
  have hbehind : ∀ d : ReadState, d.checkState ≠ .requestLite →
      d.switched.checkState ≠ .requestLite ∧
        (d.switched.checkState = .header → d.checkState = .header) := by
    intro d hd
    cases hstate : d.checkState with
    | requestLite => exact absurd hstate hd
    | header =>
      refine ⟨?_, fun _ => rfl⟩
      rw [switched_header hstate]
      rcases parseRequestHeader_checkState { d with startLine := d.checkedIndex } d.startLine
        with hsame | hcontent
      · rw [hsame]
        exact hd
      · rw [hcontent]
        decide
    | content =>
      rw [switched_content_checkState hstate]
      exact ⟨by decide, fun h => by cases h⟩
  cases hmoved with
  | stayed => exact ⟨h, id⟩
  | next => exact ⟨h, id⟩
  | content => exact hbehind c h
  | line k => exact hbehind (c.endLine k) h

end Invariant

/-! ## Runs -/

/-- What is read of a complete line. -/
def lineReads (c : ReadState) : List ℕ :=
  match c.checkState with
  | .requestLite => c.parseRequestLineReads c.startLine
  | .header => c.parseRequestHeaderReads c.startLine
  | .content => []

namespace Running

/-- The slot as `parse_line()` leaves it, if the next step completes a line. -/
def lineDone (s : Running) : Option ReadState :=
  match s.point with
  | some .scan =>
    match s.slot.scanStep with
    | .inl (.lineOk, c) => some c
    | _ => none
  | _ => none

/-- What the next step reads through `text`. -/
def textReads (s : Running) : List ℕ := (s.lineDone.map lineReads).getD []

/-- The line that the next step completes, without its end. -/
def completed (s : Running) : Option (List UInt8) :=
  s.lineDone.map fun c =>
    slice s.slot.readBuf s.slot.startLine (c.checkedIndex - 2 - s.slot.startLine)

/-- From `s` to `t` the parser stays between the start of the current line and the new
`m_checked_index`, and a request line that it accepts names the path that `m_url` points to. -/
structure Confined (s t : Running) : Prop where
  reads : ∀ i ∈ s.textReads, s.slot.startLine ≤ i ∧ i < t.slot.checkedIndex
  stores : ∃ added, t.slot.stores = s.slot.stores ++ added ∧
    ∀ i ∈ added, (s.slot.startLine : ℤ) ≤ i ∧ i < t.slot.checkedIndex
  others : ∀ k < s.slot.readIndex, k < s.slot.startLine ∨ t.slot.checkedIndex ≤ k →
    t.slot.readBuf k = s.slot.readBuf k
  path : s.slot.checkState = .requestLite → t.slot.checkState = .header →
    ∃ line i path, s.completed = some line ∧ Req.requestLine (cText line) = some (i, path) ∧
      t.slot.url = some (s.slot.startLine + i) ∧ t.slot.text (s.slot.startLine + i) = path

/-- In the header lines, `m_url` points to the same string as long as they last. -/
def PathKept (s : Running) : Prop :=
  s.slot.checkState = .header → ∃ u, s.slot.url = some u ∧
    ∀ as t, Machine.exec move s as = some t → t.slot.checkState = .header →
      t.slot.url = some u ∧ t.slot.text u = s.slot.text u

/-- No header line of fewer than four bytes is one for which `strncasecmp(text, "Host:", 5)`
is 5. -/
def HostOk (s : Running) (_ : Move) : Prop :=
  s.slot.checkState = .header → ∀ line ∈ s.completed,
    strncasecmp (cText line) (ascii "Host:") 5 = 5 → 4 ≤ line.length

/-- In the head, a step completes no line and only moves on, or completes one. -/
theorem step_head {s t : Running} (h : Framed s.slot) (hhead : s.slot.checkState ≠ .content)
    (hmove : move s .step = some t) :
    (s.lineDone = none ∧ ∃ n, t.slot = { s.slot with checkedIndex := n }) ∨
      ∃ k, s.slot.startLine ≤ k ∧ k + 2 ≤ s.slot.readIndex ∧
        s.lineDone = some (s.slot.endLine k) ∧ t.slot = (s.slot.endLine k).switched := by
  obtain ⟨point, hpoint, hslot⟩ := move_step hmove
  unfold lineDone
  rw [hslot, hpoint, stepped]
  cases point with
  | test lineStatus =>
    rw [loopStep, if_neg (fun hcontent => hhead hcontent.1)]
    exact Or.inl ⟨rfl, s.slot.checkedIndex, rfl⟩
  | scan =>
    rw [loopStep]
    cases hscan : s.slot.scanStep with
    | inr c' =>
      obtain ⟨-, -, -, rfl⟩ := scanStep_next hscan
      exact Or.inl ⟨rfl, _, rfl⟩
    | inl r =>
      obtain ⟨status, c'⟩ := r
      cases status with
      | lineOk =>
        obtain ⟨k, hk, hle, hcr, -, rfl⟩ := scanStep_ok hscan
        refine Or.inr ⟨k, h.start_le hhead hk hcr, hle, rfl, ?_⟩
        exact behindSwitch_elim (s.slot.endLine k)
      | lineBad =>
        rw [scanStep_stop hscan (by decide)]
        exact Or.inl ⟨rfl, s.slot.checkedIndex, rfl⟩
      | lineOpen =>
        rw [scanStep_stop hscan (by decide)]
        exact Or.inl ⟨rfl, s.slot.checkedIndex, rfl⟩

/-- A complete line is read inside its bytes exactly when it is not one of the short ones. -/
theorem lineReads_iff {c : ReadState} {k : ℕ} (hstart : c.startLine ≤ k)
    (hk : k + 1 < readBufferSize) :
    (∀ i ∈ lineReads (c.endLine k), c.startLine ≤ i ∧ i < k + 2) ↔
      (c.checkState = .header →
        strncasecmp (cText (slice c.readBuf c.startLine (k - c.startLine))) (ascii "Host:") 5 = 5 →
        4 ≤ k - c.startLine) := by
  obtain ⟨-, hnul⟩ := endLine_nul c k
  have hstate : (c.endLine k).checkState = c.checkState := rfl
  have hline : (c.endLine k).startLine = c.startLine := rfl
  unfold lineReads
  rw [hstate, hline]
  cases hcase : c.checkState with
  | content =>
    exact ⟨fun _ h => absurd h (by decide), fun _ i hi => absurd hi List.not_mem_nil⟩
  | requestLite =>
    refine ⟨fun _ h => absurd h (by decide), fun _ i hi => ?_⟩
    have hle := parseRequestLineReads_le hnul (Nat.le_succ_of_le hstart) hk i hi
    omega
  | header =>
    have hiff := parseRequestHeaderReads_le_iff hnul (Nat.le_succ_of_le hstart) hk
    rw [text_endLine hstart (by omega)] at hiff
    constructor
    · intro hreads _ hhost
      have hfive := hiff.mp (fun i hi => by have hi' := hreads i hi; omega) hhost
      omega
    · intro hok i hi
      have hi' := hiff.mpr (fun hhost => by have hlen := hok rfl hhost; omega) i hi
      omega

theorem lineDone_idle {s : Running} (h : s.point = none) : s.lineDone = none := by
  rw [lineDone, h]

/-- A step that completes no line of the head reads nothing through `text` and stores nothing. -/
theorem confined_of_same {s t : Running} (hdone : s.lineDone = none)
    (hstores : t.slot.stores = s.slot.stores) (hstate : t.slot.checkState = s.slot.checkState)
    (hbytes : ∀ k < s.slot.readIndex, t.slot.readBuf k = s.slot.readBuf k) : Confined s t where
  reads := by
    rw [textReads, hdone]
    exact fun i hi => absurd hi List.not_mem_nil
  stores := ⟨[], by rw [hstores, List.append_nil], fun i hi => absurd hi List.not_mem_nil⟩
  others := fun k hk _ => hbytes k hk
  path := fun hline hheader => by
    rw [hstate, hline] at hheader
    cases hheader

theorem hostOk_of_none {s : Running} (a : Move) (hdone : s.lineDone = none) : HostOk s a := by
  intro _ line hline
  rw [completed, hdone] at hline
  cases hline

/-- In the head, a step is confined exactly when its line is not one of the short ones. -/
theorem confined_iff_hostOk {s t : Running} {a : Move} (h : Framed s.slot)
    (hmove : move s a = some t) :
    (s.slot.checkState ≠ .content → ∀ t, move s a = some t → Confined s t) ↔ HostOk s a := by
  have honly : (s.slot.checkState ≠ .content → ∀ t, move s a = some t → Confined s t) ↔
      (s.slot.checkState ≠ .content → Confined s t) :=
    ⟨fun hall hhead => hall hhead t hmove, fun hone hhead u hu => by
      rw [Option.some.inj (hu.symm.trans hmove)]
      exact hone hhead⟩
  rw [honly]
  cases a with
  | read rs =>
    obtain ⟨hpoint, hslot, -⟩ := move_read hmove
    obtain ⟨x, hx, -⟩ := read_deliver rs s.slot
    rw [hx] at hslot
    have hdone := lineDone_idle hpoint
    refine ⟨fun _ => hostOk_of_none _ hdone, fun _ _ => ?_⟩
    apply confined_of_same hdone
    · rw [hslot]
      rfl
    · rw [hslot]
      rfl
    · intro k hk
      rw [hslot]
      exact deliver_below s.slot x hk
  | step =>
    by_cases hhead : s.slot.checkState = .content
    · refine ⟨fun _ hheader => ?_, fun _ h => absurd hhead h⟩
      rw [hhead] at hheader
      cases hheader
    · rcases step_head h hhead hmove with ⟨hdone, n, hslot⟩ | ⟨k, hstart, hle, hdone, hslot⟩
      · refine ⟨fun _ => hostOk_of_none _ hdone, fun _ _ => ?_⟩
        apply confined_of_same hdone
        all_goals
          rw [hslot]
        exact fun _ _ => rfl
      · have hfit := h.inOrder.fits
        obtain ⟨hwithin, -⟩ := within_switched hstart (by omega) hhead
        have hreads := lineReads_iff hstart (by omega)
        have hchecked : t.slot.checkedIndex = k + 2 := by
          rw [hslot]
          exact (switched_indices (s.slot.endLine k)).2.1
        have htext : s.textReads = lineReads (s.slot.endLine k) := by
          rw [textReads, hdone]
          rfl
        have hcompleted : s.completed =
            some (slice s.slot.readBuf s.slot.startLine (k - s.slot.startLine)) := by
          rw [completed, hdone]
          rfl
        constructor
        · intro hconfined hheader line hline hhost
          rw [hcompleted] at hline
          cases hline
          have hinside := (hconfined hhead).reads
          rw [htext, hchecked] at hinside
          rw [length_slice]
          exact hreads.mp hinside hheader hhost
        · intro hok _
          constructor
          · rw [htext, hchecked]
            apply hreads.mpr
            intro hheader hhost
            have hlen := hok hheader _ hcompleted hhost
            rw [length_slice] at hlen
            exact hlen
          · rw [hchecked, hslot]
            exact hwithin.stores
          · intro j _ hj
            rw [hchecked] at hj
            rw [hslot]
            exact hwithin.bytes j hj
          · intro hline hheader
            rw [hslot] at hheader ⊢
            obtain ⟨i, path, hfound, hurl, hpath⟩ :=
              switched_accepted hstart (by omega) hline hheader
            exact ⟨_, i, path, hcompleted, hfound, hurl, hpath⟩

theorem framed_move {s t : Running} {a : Move} (h : Framed s.slot)
    (hmove : move s a = some t) : Framed t.slot := by
  cases a with
  | read rs =>
    obtain ⟨-, hslot, -⟩ := move_read hmove
    have hord := h.inOrder.read rs
    obtain ⟨x, hx, -⟩ := read_deliver rs s.slot
    rw [hx] at hslot hord
    rw [hslot]
    exact h.deliver x hord
  | step =>
    obtain ⟨point, -, hslot⟩ := move_step hmove
    rw [hslot]
    exact h.moved (moved_stepped point s.slot)

/-- Behind the request line, and in the header lines `m_url` points to `path`. -/
structure PointsTo (u : ℕ) (path : List UInt8) (s : Running) : Prop where
  framed : Framed s.slot
  behind : s.slot.checkState ≠ .requestLite
  path : s.slot.checkState = .header → s.slot.url = some u ∧ s.slot.text u = path

theorem PointsTo.move {u : ℕ} {path : List UInt8} {s t : Running} {a : Move}
    (h : PointsTo u path s) (hmove : move s a = some t) : PointsTo u path t := by
  have hframed := framed_move h.framed hmove
  cases a with
  | read rs =>
    obtain ⟨-, hslot, -⟩ := move_read hmove
    obtain ⟨x, hx, -⟩ := read_deliver rs s.slot
    rw [hx] at hslot
    refine ⟨hframed, by rw [hslot]; exact h.behind, ?_⟩
    rw [hslot]
    intro hheader
    obtain ⟨hurl, htext⟩ := h.path hheader
    obtain ⟨u', hurl', hlt⟩ := h.framed.target hheader
    cases hurl.symm.trans hurl'
    have hord := h.framed.inOrder
    have hle := Nat.le_trans hord.start_le hord.checked_le
    exact ⟨hurl, (text_of_below (fun j hj => deliver_below s.slot x (by omega)) rfl hlt).trans
      htext⟩
  | step =>
    obtain ⟨point, -, hslot⟩ := move_step hmove
    have hmoved := moved_stepped point s.slot
    rw [← hslot] at hmoved
    obtain ⟨hbehind, hback⟩ := hmoved.not_requestLite h.behind
    refine ⟨hframed, hbehind, fun hheader => ?_⟩
    obtain ⟨hurl, htext⟩ := h.path (hback hheader)
    obtain ⟨u', hurl', -, hnext, hsame⟩ := h.framed.path_kept (hback hheader) hmoved
    cases hurl.symm.trans hurl'
    exact ⟨hnext, hsame.trans htext⟩

theorem pathKept_of_framed {s : Running} (h : Framed s.slot) : PathKept s := by
  intro hheader
  obtain ⟨u, hurl, -⟩ := h.target hheader
  refine ⟨u, hurl, fun as t hexec ht => ?_⟩
  have hstart : PointsTo u (s.slot.text u) s :=
    ⟨h, by rw [hheader]; decide, fun _ => ⟨hurl, rfl⟩⟩
  have hend : PointsTo u (s.slot.text u) t :=
    Machine.exec_invariant (fun _ _ _ hpoints hmove => hpoints.move hmove) hstart hexec
  exact hend.path ht

/-- In every run from a slot that `init()` has reset: while the parser is in the head, every step
stays inside the current line, and `m_url` keeps pointing to the path of the request line, exactly
when no short header line is taken for `Host:`. -/
theorem confined_iff (as : List Move) :
    (Machine.Along move
          (fun s a => s.slot.checkState ≠ .content → ∀ t, move s a = some t → Confined s t)
          start as ∧
        Machine.Always move PathKept start as) ↔
      Machine.Along move HostOk start as := by
  have hconfined : Machine.Along move
      (fun s a => s.slot.checkState ≠ .content → ∀ t, move s a = some t → Confined s t)
      start as ↔ Machine.Along move HostOk start as :=
    Machine.along_iff_along (K := fun s => Framed s.slot)
      (fun _ _ _ h hmove => confined_iff_hostOk h hmove)
      (fun _ _ _ h hmove _ => framed_move h hmove) framed_init
  have hkept : Machine.Always move PathKept start as :=
    Machine.always_of_invariant (K := fun s => Framed s.slot) (fun _ h => pathKept_of_framed h)
      (fun _ _ _ h hmove => framed_move h hmove) framed_init
  rw [hconfined]
  exact and_iff_left hkept

/-- A request whose header is the line `m`, up to the step that completes that line. -/
def shortHeader : List Move :=
  .read [.data (ascii "GET / HTTP/1.1\r\nm\r\nA: b\r\n\r\n")] :: List.replicate 18 .step

/-- `strspn` is then called five bytes behind the start of the line, and reads a byte of the next
line, which has not been scanned. -/
theorem short_header_read_behind :
    ∃ s t, Machine.exec move start shortHeader = some s ∧ move s .step = some t ∧
      s.slot.checkState = .header ∧ 21 ∈ s.textReads ∧ t.slot.checkedIndex = 19 ∧
      ¬ Confined s t := by
  have hrun : ((Machine.exec move start shortHeader).bind fun s =>
      (move s .step).map fun t =>
        (s.slot.checkState, decide (21 ∈ s.textReads), t.slot.checkedIndex)) =
      some (.header, true, 19) := by decide +kernel
  obtain ⟨s, hs, hstep⟩ := Option.bind_eq_some_iff.mp hrun
  obtain ⟨t, ht, heq⟩ := Option.map_eq_some_iff.mp hstep
  simp only [Prod.mk.injEq, decide_eq_true_eq] at heq
  obtain ⟨hstate, hread, hchecked⟩ := heq
  refine ⟨s, t, hs, ht, hstate, hread, hchecked, fun hconfined => ?_⟩
  have hlt := (hconfined.reads 21 hread).2
  omega

end Running
end ReadState
end Webservers
