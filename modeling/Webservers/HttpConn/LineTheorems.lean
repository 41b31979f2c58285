import Webservers.HttpConn.RequestSpec

/-!
# Lines in the read buffer

The parser works in `m_read_buf`: `parse_line` overwrites line ends by NULs, and interpreting a
line cuts it into strings by more of them. Here each of these functions is related to what
`RequestSpec` says of the bytes of the line.

* `Within`: what a function may have stored, and that it changed nothing else of the buffer.
* `parseLine_eq`: a call of `parse_line` from a clean position is `scanLine`.
* `parseRequestLine_spec`, `parseRequestHeader_spec`: a line is interpreted as `Req.requestLine`
  and `Req.header` say.
-/

namespace Webservers
namespace ReadState

/-! ## Stores and strings -/

/-- From `c` to `c'` the parser has stored NULs between `lo` and `hi` only. -/
structure Within (lo hi : ℕ) (c c' : ReadState) : Prop where
  readIndex : c'.readIndex = c.readIndex
  bytes : ∀ k, k < lo ∨ hi ≤ k → c'.readBuf k = c.readBuf k
  stores : ∃ added, c'.stores = c.stores ++ added ∧ ∀ i ∈ added, (lo : ℤ) ≤ i ∧ i < hi
  sums : c'.sums = c.sums

theorem Within.of_eq {lo hi : ℕ} {c c' : ReadState} (hread : c'.readIndex = c.readIndex)
    (hbuf : c'.readBuf = c.readBuf) (hstores : c'.stores = c.stores) (hsums : c'.sums = c.sums) :
    Within lo hi c c' where
  readIndex := hread
  bytes := fun k _ => by rw [hbuf]
  stores := ⟨[], by rw [hstores, List.append_nil], fun i hi => absurd hi List.not_mem_nil⟩
  sums := hsums

theorem Within.trans {lo hi lo' hi' : ℕ} {c c' c'' : ReadState} (h : Within lo hi c c')
    (h' : Within lo' hi' c' c'') (hlo : lo ≤ lo') (hhi : hi' ≤ hi) : Within lo hi c c'' where
  readIndex := by rw [h'.readIndex, h.readIndex]
  bytes := fun k hk => by rw [h'.bytes k (by omega), h.bytes k hk]
  stores := by
    obtain ⟨added, heq, hadded⟩ := h.stores
    obtain ⟨added', heq', hadded'⟩ := h'.stores
    refine ⟨added ++ added', by rw [heq', heq, List.append_assoc], ?_⟩
    intro i hi
    rcases List.mem_append.mp hi with hi | hi
    · exact hadded i hi
    · have hbounds := hadded' i hi
      omega
  sums := by rw [h'.sums, h.sums]

theorem Within.mono {lo hi lo' hi' : ℕ} {c c' : ReadState} (h : Within lo hi c c')
    (hlo : lo' ≤ lo) (hhi : hi ≤ hi') : Within lo' hi' c c' where
  readIndex := h.readIndex
  bytes := fun k hk => h.bytes k (by omega)
  stores := by
    obtain ⟨added, heq, hadded⟩ := h.stores
    refine ⟨added, heq, fun i hi => ?_⟩
    have hbounds := hadded i hi
    omega
  sums := h.sums

theorem within_store (c : ReadState) (i : ℕ) : Within i (i + 1) c (c.store i) where
  readIndex := rfl
  bytes := fun k hk => by
    show (if (k : ℤ) = i then 0 else c.readBuf k) = c.readBuf k
    rw [if_neg (by omega)]
  stores := ⟨[i], rfl, fun j hj => by rw [List.mem_singleton.mp hj]; omega⟩
  sums := rfl

theorem text_add {c : ReadState} {i k : ℕ} (h : k ≤ (c.text i).length) :
    c.text (i + k) = (c.text i).drop k := by
  have hdrop := cstr_drop h
  unfold text
  rw [← hdrop, Nat.sub_sub]

theorem nul_not_mem_text (c : ReadState) (i : ℕ) : 0 ∉ c.text i := by
  intro hmem
  have hne := List.mem_takeWhile_imp hmem
  exact absurd hne (by decide)

theorem text_store (c : ReadState) (i k : ℕ) :
    (c.store (i + k : ℕ)).text i = (c.text i).take k := by
  unfold text
  rw [← cstr_store_nul]
  congr 1
  funext j
  show (if (j : ℤ) = (i + k : ℕ) then 0 else c.readBuf j) = if j = i + k then 0 else c.readBuf j
  by_cases hj : j = i + k
  · rw [if_pos (by omega), if_pos hj]
  · rw [if_neg (by omega), if_neg hj]

/-- A string is not changed by stores that spare its bytes and its NUL. -/
theorem text_congr {c c' : ReadState} {i : ℕ}
    (h : ∀ j, i ≤ j → j ≤ i + (c.text i).length → c'.readBuf j = c.readBuf j) :
    c'.text i = c.text i :=
  cstr_congr h

/-! ## The slave state machine -/

/-- The bytes received that have not been checked. -/
def unchecked (c : ReadState) : List UInt8 :=
  slice c.readBuf c.checkedIndex (c.readIndex - c.checkedIndex)

/-- The two characters at `k` become NULs, and the line ends behind them. -/
def endLine (c : ReadState) (k : ℕ) : ReadState :=
  { (c.store k).store (k + 1 : ℕ) with checkedIndex := k + 2 }

/-- The slot after a line whose CR stands `n` bytes on. -/
def lineEnd (c : ReadState) (n : ℕ) : ReadState :=
  { (c.store (c.checkedIndex + n : ℕ)).store (c.checkedIndex + n + 1 : ℕ) with
    checkedIndex := c.checkedIndex + n + 2 }

/-- No CR stands in front of the unchecked bytes. -/
def CleanStart (c : ReadState) : Prop :=
  ¬ (1 < c.checkedIndex ∧ c.readBuf (c.checkedIndex - 1) = CR)

theorem unchecked_cons {c : ReadState} (h : c.checkedIndex < c.readIndex) :
    c.unchecked = c.readBuf c.checkedIndex ::
      slice c.readBuf (c.checkedIndex + 1) (c.readIndex - (c.checkedIndex + 1)) := by
  have hsub : c.readIndex - c.checkedIndex = c.readIndex - (c.checkedIndex + 1) + 1 := by omega
  rw [unchecked, hsub, slice_succ]

/-- `parse_line` is `scanLine`: with no CR before it, an LF never ends a line. -/
theorem parseLine_eq (c : ReadState) (h : CleanStart c) :
    c.parseLine =
      if (scanLine c.unchecked).1 = .lineOk then (.lineOk, c.lineEnd (scanLine c.unchecked).2)
      else ((scanLine c.unchecked).1,
        { c with checkedIndex := c.checkedIndex + (scanLine c.unchecked).2 }) := by
  fun_induction parseLine c with
  | case1 c hlt temp hcr hlast =>
    have hscan : scanLine c.unchecked = (.lineOpen, 0) := by
      rw [unchecked_cons hlt, scanLine, if_pos hcr, hlast, Nat.sub_self]
      rfl
    rw [hscan]
    rfl
  | case2 c hlt temp hcr hlast hlf =>
    have hscan : scanLine c.unchecked = (.lineOk, 0) := by
      have hsub : c.readIndex - (c.checkedIndex + 1) = c.readIndex - (c.checkedIndex + 2) + 1 := by
        omega
      rw [unchecked_cons hlt, scanLine, if_pos hcr, hsub, slice_succ, afterCr, if_pos hlf]
    rw [hscan]
    rfl
  | case3 c hlt temp hcr hlast hlf =>
    have hscan : scanLine c.unchecked = (.lineBad, 0) := by
      have hsub : c.readIndex - (c.checkedIndex + 1) = c.readIndex - (c.checkedIndex + 2) + 1 := by
        omega
      rw [unchecked_cons hlt, scanLine, if_pos hcr, hsub, slice_succ, afterCr, if_neg hlf]
    rw [hscan]
    rfl
  -- an LF behind a CR that was checked before: excluded by `h`
  | case4 c hlt temp hcr hlf hprev => exact absurd hprev h
  | case5 c hlt temp hcr hlf hprev =>
    have hscan : scanLine c.unchecked = (.lineBad, 0) := by
      rw [unchecked_cons hlt, scanLine, if_neg hcr, if_pos hlf]
    rw [hscan]
    rfl
  | case6 c hlt temp hcr hlf ih =>
    -- the byte passed over is no CR, so the next position is clean too
    have hclean : CleanStart { c with checkedIndex := c.checkedIndex + 1 } := fun hprev =>
      hcr hprev.2
    have hscan : scanLine c.unchecked =
        ((scanLine (unchecked { c with checkedIndex := c.checkedIndex + 1 })).1,
          (scanLine (unchecked { c with checkedIndex := c.checkedIndex + 1 })).2 + 1) := by
      rw [unchecked_cons hlt, scanLine, if_neg hcr, if_neg hlf]
      rfl
    rw [ih hclean, hscan]
    simp only [lineEnd]
    generalize scanLine (unchecked { c with checkedIndex := c.checkedIndex + 1 }) = found
    have hadd : c.checkedIndex + 1 + found.2 = c.checkedIndex + (found.2 + 1) := by omega
    rw [hadd]
    rfl
  | case7 c hge =>
    have hscan : scanLine c.unchecked = (.lineOpen, 0) := by
      have hsub : c.readIndex - c.checkedIndex = 0 := by omega
      rw [unchecked, hsub]
      rfl
    rw [hscan]
    rfl

theorem within_endLine (c : ReadState) (k : ℕ) : Within k (k + 2) c (c.endLine k) := by
  have h₁ := within_store c k
  have h₂ := within_store (c.store k) (k + 1)
  have h := (h₁.mono (Nat.le_refl _) (Nat.le_succ _)).trans h₂ (Nat.le_succ _) (Nat.le_refl _)
  exact ⟨h.readIndex, h.bytes, h.stores, h.sums⟩

theorem endLine_nul (c : ReadState) (k : ℕ) :
    (c.endLine k).readBuf k = 0 ∧ (c.endLine k).readBuf (k + 1) = 0 := by
  simp only [endLine, store, if_true, and_true]
  split <;> rfl

theorem within_lineEnd (c : ReadState) (n : ℕ) :
    Within (c.checkedIndex + n) (c.checkedIndex + n + 2) c (c.lineEnd n) :=
  within_endLine c (c.checkedIndex + n)

/-- The CR and the LF of the line are NULs afterwards. -/
theorem lineEnd_nul (c : ReadState) (n : ℕ) :
    (c.lineEnd n).readBuf (c.checkedIndex + n) = 0 ∧
      (c.lineEnd n).readBuf (c.checkedIndex + n + 1) = 0 :=
  endLine_nul c (c.checkedIndex + n)

/-! ## Where the search for a line end stands -/

/-- The bytes that have arrived stay. -/
theorem deliver_below (c : ReadState) (x : List UInt8) {k : ℕ} (h : k < c.readIndex) :
    (c.deliver x).readBuf k = c.readBuf k :=
  storeBytes_lt x h

theorem slice_deliver (c : ReadState) (pos n : ℕ) (x : List UInt8) (hread : c.readIndex = pos + n) :
    slice (c.deliver x).readBuf pos (n + x.length) = slice c.readBuf pos n ++ x := by
  rw [slice_add]
  congr 1
  · apply slice_congr
    intro k _ hk
    exact deliver_below c x (by omega)
  · rw [deliver, ← hread]
    exact slice_storeBytes x

/-- The slot stands in the line that starts at `pos`; `l` are the bytes received from there
on. -/
structure LineFrom (c : ReadState) (pos : ℕ) (l : List UInt8) : Prop where
  startLine : c.startLine = pos
  readIndex : c.readIndex = pos + l.length
  bytes : slice c.readBuf pos l.length = l
  checked : pos ≤ c.checkedIndex ∧ c.checkedIndex ≤ pos + (scanLine l).2
  lineStart : pos = 0 ∨ c.readBuf (pos - 1) = 0

section LineFrom

variable {c : ReadState} {pos : ℕ} {l : List UInt8}

theorem LineFrom.clean (h : LineFrom c pos l) : CleanStart c := by
  intro hprev
  obtain ⟨hone, hcr⟩ := hprev
  obtain ⟨hpos, hstop⟩ := h.checked
  by_cases heq : c.checkedIndex = pos
  · rcases h.lineStart with h₀ | hnul
    · omega
    · rw [heq, hnul] at hcr
      exact absurd hcr (by decide)
  · -- the byte before belongs to the line and was no CR
    have hle := scanLine_le l
    have hlt : c.checkedIndex - 1 - pos < l.length := by omega
    have hget := getElem?_slice (m := c.readBuf) (i := pos) hlt
    have hidx : pos + (c.checkedIndex - 1 - pos) = c.checkedIndex - 1 := by omega
    rw [h.bytes, hidx, hcr] at hget
    exact scanLine_ne_cr (by omega) hget

theorem LineFrom.scanLine_unchecked (h : LineFrom c pos l) :
    scanLine c.unchecked =
      ((scanLine l).1, (scanLine l).2 - (c.checkedIndex - pos)) := by
  obtain ⟨hpos, hstop⟩ := h.checked
  have hle := scanLine_le l
  have hunchecked : c.unchecked = l.drop (c.checkedIndex - pos) := by
    have hread := h.readIndex
    conv => rhs; rw [← h.bytes]
    rw [drop_slice (by omega), unchecked]
    have h₁ : pos + (c.checkedIndex - pos) = c.checkedIndex := by omega
    have h₂ : l.length - (c.checkedIndex - pos) = c.readIndex - c.checkedIndex := by omega
    rw [h₁, h₂]
  rw [hunchecked, scanLine_drop (by omega)]

theorem LineFrom.deliver (h : LineFrom c pos l) (x : List UInt8) :
    LineFrom (c.deliver x) pos (l ++ x) := by
  have hread := h.readIndex
  have hscan := scanLine_append_le l x
  have hchecked := h.checked
  constructor
  case startLine => exact h.startLine
  case readIndex =>
    show c.readIndex + x.length = pos + (l ++ x).length
    rw [List.length_append]
    omega
  case bytes => rw [List.length_append, slice_deliver c pos l.length x h.readIndex, h.bytes]
  case checked => exact ⟨hchecked.1, Nat.le_trans hchecked.2 (by omega)⟩
  case lineStart =>
    rcases h.lineStart with h₀ | hnul
    · exact Or.inl h₀
    · by_cases hpos : pos = 0
      · exact Or.inl hpos
      · right
        rw [deliver_below c x (by omega), hnul]

/-- A line that is not complete is waited for. -/
theorem LineFrom.parseLine_waits (h : LineFrom c pos l) (hline : (scanLine l).1 ≠ .lineOk) :
    c.parseLine = ((scanLine l).1, { c with checkedIndex := pos + (scanLine l).2 }) ∧
      LineFrom { c with checkedIndex := pos + (scanLine l).2 } pos l := by
  obtain ⟨hpos, hstop⟩ := h.checked
  refine ⟨?_, ?_⟩
  · have hidx : c.checkedIndex + ((scanLine l).2 - (c.checkedIndex - pos))
        = pos + (scanLine l).2 := by omega
    rw [parseLine_eq c h.clean, h.scanLine_unchecked, if_neg hline]
    simp only [hidx]
  · exact ⟨h.startLine, h.readIndex, h.bytes, ⟨Nat.le_add_right _ _, Nat.le_refl _⟩, h.lineStart⟩

/-- A complete line is cut off. -/
theorem LineFrom.parseLine_line (h : LineFrom c pos l) (hline : (scanLine l).1 = .lineOk) :
    c.parseLine = (.lineOk, c.endLine (pos + (scanLine l).2)) := by
  obtain ⟨hpos, hstop⟩ := h.checked
  -- the search goes on from `m_checked_index`, up to the CR
  have hidx : c.checkedIndex + ((scanLine l).2 - (c.checkedIndex - pos)) =
      pos + (scanLine l).2 := by omega
  rw [parseLine_eq c h.clean, h.scanLine_unchecked, if_pos hline, ← hidx]
  rfl

end LineFrom

/-! ## The request line -/

/-- The result of interpreting a request line whose text starts at `base`. -/
structure Interpreted (base : ℕ) (found : Option (ℕ × List UInt8)) (res : HttpCode × ReadState) :
    Prop where
  bad : found = none → res.1 = .badRequest
  ok : ∀ i path, found = some (i, path) →
    res.1 = .noRequest ∧ res.2.checkState = .header ∧ res.2.url = some (base + i) ∧
      res.2.text (base + i) = path

/-- With a path found at offset `k` of the target, `parse_request_line` looks at its first
byte. -/
theorem parseTarget_eq (c : ReadState) (url : ℕ) :
    c.parseTarget url =
      match (if strncasecmp (c.text url) (ascii "http://") 7 = 0 then
          (strchr ((c.text url).drop 7) 47).map (7 + ·) else some 0) with
      | none => (.badRequest, { c with url := none })
      | some k =>
        if c.readBuf (url + k) ≠ 47 then (.badRequest, { c with url := some (url + k) })
        else (.noRequest, { c with url := some (url + k), checkState := .header }) := by
  unfold parseTarget
  by_cases hscheme : strncasecmp (c.text url) (ascii "http://") 7 = 0
  · have hlen : 7 ≤ (c.text url).length :=
      length_of_strncasecmp (nul_not_mem_text c url) (by decide) hscheme (by decide)
    simp only [if_pos hscheme, text_add hlen]
    cases strchr ((c.text url).drop 7) 47 with
    | none => rfl
    | some k => simp only [Option.map_some, Nat.add_assoc]
  · simp only [if_neg hscheme, Nat.add_zero]

theorem parseTarget_spec (c : ReadState) (url : ℕ)
    (hfit : url + (c.text url).length < readBufferSize) :
    Interpreted url (Req.targetOf (c.text url)) (c.parseTarget url) := by
  rw [parseTarget_eq]
  unfold Req.targetOf
  generalize hoffset : (if strncasecmp (c.text url) (ascii "http://") 7 = 0 then
    (strchr ((c.text url).drop 7) 47).map (7 + ·) else some 0) = offset
  cases offset with
  | none => exact ⟨fun _ => rfl, fun i path h => by cases h⟩
  | some k =>
    have hk : k ≤ (c.text url).length := by
      split at hoffset
      · obtain ⟨j, hj, rfl⟩ := Option.map_eq_some_iff.mp hoffset
        have hlt := strchr_lt hj
        rw [List.length_drop] at hlt
        omega
      · cases hoffset
        exact Nat.zero_le _
    -- the first byte of the path, or the NUL behind the target
    have hhead : ((c.text url).drop k).headD 0 = c.readBuf (url + k) := by
      rw [← text_add hk]
      exact headD_cstr (by omega)
    simp only [hhead]
    split
    · exact ⟨fun _ => rfl, fun i path h => by cases h⟩
    · refine ⟨(fun h => by cases h), fun i path h => ?_⟩
      cases h
      refine ⟨rfl, rfl, rfl, ?_⟩
      rw [← text_add hk]
      rfl

theorem parseTarget_within (c : ReadState) (url lo hi : ℕ) :
    Within lo hi c (c.parseTarget url).2 := by
  unfold parseTarget
  simp only
  split
  · exact .of_eq rfl rfl rfl rfl
  · split <;> exact .of_eq rfl rfl rfl rfl

/-- The slot after `*m_version++ = '\0'`, or after `*m_url++ = '\0'`: the string in front is cut
and the one behind is the rest. -/
theorem text_cut {c : ReadState} {base j : ℕ} (hj : j < (c.text base).length) :
    (c.store (base + j : ℕ)).text base = (c.text base).take j ∧
      (c.store (base + j : ℕ)).text (base + j + 1) = (c.text base).drop (j + 1) := by
  refine ⟨text_store c base j, ?_⟩
  have hafter : (c.store (base + j : ℕ)).text (base + j + 1) = c.text (base + j + 1) := by
    apply text_congr
    intro k hk _
    exact (within_store c (base + j)).bytes k (by omega)
  rw [hafter, Nat.add_assoc, text_add (by omega)]

theorem parseVersion_spec (c : ReadState) (url : ℕ)
    (hfit : url + (c.text url).length < readBufferSize) :
    Interpreted url
      (match strpbrk (c.text url) blanks with
        | none => none
        | some j =>
          if strcasecmp ((c.text url).drop (j + 1)) (ascii "HTTP/1.1") ≠ 0 then none
          else Req.targetOf ((c.text url).take j))
      (c.parseVersion url) := by
  unfold parseVersion
  cases hj : strpbrk (c.text url) blanks with
  | none => exact ⟨fun _ => rfl, fun i path h => by cases h⟩
  | some j =>
    -- the next blank cuts the target off, and the version stands behind it
    have hlt := strpbrk_lt hj
    obtain ⟨hurl, hversion⟩ := text_cut hlt
    have hversion' : text { c.store (url + j : ℕ) with version := some (url + j + 1) }
        (url + j + 1) = (c.text url).drop (j + 1) := hversion
    simp only [hversion']
    split
    · exact ⟨fun _ => rfl, fun i path h => by cases h⟩
    · have hurl' : text { c.store (url + j : ℕ) with version := some (url + j + 1) } url
          = (c.text url).take j := hurl
      rw [← hurl']
      apply parseTarget_spec
      rw [hurl', List.length_take]
      omega

theorem parseVersion_within (c : ReadState) (url : ℕ) :
    Within url (url + (c.text url).length) c (c.parseVersion url).2 := by
  unfold parseVersion
  split
  · exact .of_eq rfl rfl rfl rfl
  · rename_i j hj
    have hlt := strpbrk_lt hj
    have hstore : Within url (url + (c.text url).length) c
        { c.store (url + j : ℕ) with version := some (url + j + 1) } := by
      have h := (within_store c (url + j)).mono (Nat.le_add_right url j)
        (show url + j + 1 ≤ url + (c.text url).length by omega)
      exact ⟨h.readIndex, h.bytes, h.stores, h.sums⟩
    simp only
    split
    · exact hstore
    · exact hstore.trans (parseTarget_within _ url _ _) (Nat.le_refl _) (Nat.le_refl _)

theorem parseRequestLine_spec (c : ReadState) (text : ℕ)
    (hfit : text + (c.text text).length < readBufferSize) :
    Interpreted text (Req.requestLine (c.text text)) (c.parseRequestLine text) := by
  unfold parseRequestLine Req.requestLine
  cases hi : strpbrk (c.text text) blanks with
  | none => exact ⟨fun _ => rfl, fun i path h => by cases h⟩
  | some i =>
    -- the first blank cuts the method off
    have hlt := strpbrk_lt hi
    obtain ⟨hmethod, hurl⟩ := text_cut hlt
    have hmethod' : ReadState.text { c.store (text + i : ℕ) with url := some (text + i + 1) } text
        = (c.text text).take i := hmethod
    simp only [hmethod']
    split
    · exact ⟨fun _ => rfl, fun i path h => by cases h⟩
    · have hurl' : ReadState.text
          { c.store (text + i : ℕ) with url := some (text + i + 1), method := .GET }
          (text + i + 1) = (c.text text).drop (i + 1) := hurl
      have hspec := parseVersion_spec
        { c.store (text + i : ℕ) with url := some (text + i + 1), method := .GET } (text + i + 1)
        (by rw [hurl', List.length_drop]; omega)
      rw [hurl'] at hspec
      constructor
      · intro hnone
        apply hspec.bad
        revert hnone
        cases strpbrk ((c.text text).drop (i + 1)) blanks with
        | none => exact fun _ => rfl
        | some j =>
          simp only
          split
          · exact fun _ => rfl
          · exact fun h => Option.map_eq_none_iff.mp h
      · intro k path hsome
        revert hsome hspec
        cases strpbrk ((c.text text).drop (i + 1)) blanks with
        | none => exact fun _ h => by cases h
        | some j =>
          simp only
          split
          · exact fun _ h => by cases h
          · intro hspec h
            obtain ⟨⟨k', path'⟩, htarget, heq⟩ := Option.map_eq_some_iff.mp h
            cases heq
            -- the index of the path is counted from the start of the line
            have hok := hspec.ok k' _ htarget
            rw [Nat.add_assoc text i 1, Nat.add_assoc text (i + 1) k'] at hok
            exact hok

theorem parseRequestLine_within (c : ReadState) (text : ℕ) :
    Within text (text + (c.text text).length) c (c.parseRequestLine text).2 := by
  unfold parseRequestLine
  split
  · exact .of_eq rfl rfl rfl rfl
  · rename_i i hi
    have hlt := strpbrk_lt hi
    have hstore := (within_store c (text + i)).mono (Nat.le_add_right text i)
      (show text + i + 1 ≤ text + (c.text text).length by omega)
    simp only
    split
    · exact ⟨hstore.readIndex, hstore.bytes, hstore.stores, hstore.sums⟩
    · have hurl : ReadState.text
          { c.store (text + i : ℕ) with url := some (text + i + 1), method := .GET }
          (text + i + 1) = (c.text text).drop (i + 1) := (text_cut hlt).2
      have hversion := parseVersion_within
        { c.store (text + i : ℕ) with url := some (text + i + 1), method := .GET } (text + i + 1)
      rw [hurl, List.length_drop] at hversion
      have hfirst : Within text (text + (c.text text).length) c
          { c.store (text + i : ℕ) with url := some (text + i + 1), method := .GET } :=
        ⟨hstore.readIndex, hstore.bytes, hstore.stores, hstore.sums⟩
      exact hfirst.trans hversion (by omega) (by omega)

/-! ## A header line -/

/-- What a header line leaves alone. -/
structure OnlyFields (c c' : ReadState) : Prop where
  readBuf : c'.readBuf = c.readBuf
  readIndex : c'.readIndex = c.readIndex
  url : c'.url = c.url
  checkedIndex : c'.checkedIndex = c.checkedIndex
  startLine : c'.startLine = c.startLine
  checkState : c'.checkState = c.checkState
  stores : c'.stores = c.stores
  sums : c'.sums = c.sums

theorem parseRequestHeader_empty {c : ReadState} {text : ℕ} (hfit : text < readBufferSize)
    (h : c.text text = []) :
    c.parseRequestHeader text =
      if c.contentLength ≠ 0 then (.noRequest, { c with checkState := .content })
      else (.getRequest, c) := by
  have hnul : c.readBuf text = 0 := (cstr_eq_nil_iff (by omega)).mp h
  rw [parseRequestHeader, if_pos hnul]

/-- The value of a field, as the parser points to it. -/
theorem text_value {c : ReadState} {text n : ℕ} (hn : n ≤ (c.text text).length) :
    c.text (text + n + strspn (c.text (text + n)) blanks) = Req.value (c.text text) n := by
  have hspn : strspn ((c.text text).drop n) blanks ≤ (c.text (text + n)).length := by
    rw [text_add hn]
    exact (List.takeWhile_sublist _).length_le
  rw [text_add hn, text_add hspn, text_add hn]
  rfl

theorem parseRequestHeader_spec {c : ReadState} {text : ℕ} (hfit : text < readBufferSize)
    (h : c.text text ≠ []) {r : Req} (hlinger : c.linger = r.linger)
    (hlength : c.contentLength = r.contentLength) :
    ∃ c', c.parseRequestHeader text = (.noRequest, c') ∧ OnlyFields c c' ∧
      c'.linger = (r.header (c.text text)).linger ∧
      c'.contentLength = (r.header (c.text text)).contentLength := by
  have hnul : c.readBuf text ≠ 0 := fun hnul => h ((cstr_eq_nil_iff (by omega)).mpr hnul)
  unfold parseRequestHeader Req.header
  rw [if_neg hnul]
  -- the branches of the parser are those of `Req.header`; `m_host` is read by nobody
  by_cases hconn : strncasecmp (c.text text) (ascii "Connection:") 11 = 0
  · have hn : 11 ≤ (c.text text).length :=
      length_of_strncasecmp (nul_not_mem_text c text) (by decide) hconn (by decide)
    rw [if_pos hconn, if_pos hconn]
    simp only [text_value hn]
    split
    · exact ⟨_, rfl, ⟨rfl, rfl, rfl, rfl, rfl, rfl, rfl, rfl⟩, rfl, hlength⟩
    · exact ⟨_, rfl, ⟨rfl, rfl, rfl, rfl, rfl, rfl, rfl, rfl⟩, hlinger, hlength⟩
  · rw [if_neg hconn, if_neg hconn]
    by_cases hlen : strncasecmp (c.text text) (ascii "Content-Length:") 15 = 0
    · have hn : 15 ≤ (c.text text).length :=
        length_of_strncasecmp (nul_not_mem_text c text) (by decide) hlen (by decide)
      rw [if_pos hlen, if_pos hlen]
      simp only [text_value hn]
      exact ⟨_, rfl, ⟨rfl, rfl, rfl, rfl, rfl, rfl, rfl, rfl⟩, hlinger, rfl⟩
    · rw [if_neg hlen, if_neg hlen]
      -- `Host:` and all other fields change nothing that is read again
      split
      · exact ⟨_, rfl, ⟨rfl, rfl, rfl, rfl, rfl, rfl, rfl, rfl⟩, hlinger, hlength⟩
      · exact ⟨_, rfl, ⟨rfl, rfl, rfl, rfl, rfl, rfl, rfl, rfl⟩, hlinger, hlength⟩

end ReadState
end Webservers
