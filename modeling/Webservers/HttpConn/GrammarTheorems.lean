import Webservers.HttpConn.CompleteTheorems

/-!
# The grammar of a request line

`parse_request_line` cuts a line up in place, with three pointers and an early return after each
step. Here is what it accepts, said of the line alone: `IsRequestLine` is the form of a request line
and the path in it. `requestLine_iff` joins it to `Req.requestLine`, which `LineTheorems` shows to
be what the parser computes.
-/

namespace Webservers

/-! ## The grammar -/

/-- The same text, the case of letters aside. -/
def SameText (s t : List UInt8) : Prop := lower s = lower t

instance (s t : List UInt8) : Decidable (SameText s t) :=
  inferInstanceAs (Decidable (lower s = lower t))

def NoBlank (s : List UInt8) : Prop := ∀ b ∈ s, b ∉ blanks

instance : DecidablePred NoBlank := fun s => List.decidableBAll (· ∉ blanks) s

/-- The path in a target: the target itself, or what follows the host in an absolute URL. -/
inductive PathIn (target : List UInt8) : List UInt8 → Prop
  | origin (rest : List UInt8) (h : target = 47 :: rest) : PathIn target target
  | absolute (scheme host rest : List UInt8) (h : target = scheme ++ host ++ 47 :: rest)
      (hscheme : SameText scheme (ascii "http://")) (hhost : 47 ∉ host) :
      PathIn target (47 :: rest)

/-- The line is a method, a target and a version with a single blank before and behind the target,
and `path` is the path in the target. -/
structure IsRequestLine (line path : List UInt8) : Prop where
  form : ∃ method target version b b', line = method ++ b :: (target ++ b' :: version) ∧
    b ∈ blanks ∧ b' ∈ blanks ∧ NoBlank method ∧ SameText method (ascii "GET") ∧
    NoBlank target ∧ SameText version (ascii "HTTP/1.1") ∧ PathIn target path

/-! ## The grammar and the parser's tests -/

theorem drop_past (front : List UInt8) (b : UInt8) (rest : List UInt8) :
    (front ++ b :: rest).drop (front.length + 1) = rest := by
  rw [← List.drop_drop, List.drop_left]
  rfl

theorem ascii_http : ascii "http://" = [104, 116, 116, 112, 58, 47, 47] := by decide

namespace Req

theorem scheme_iff {url : List UInt8} (hurl : 0 ∉ url) :
    strncasecmp url (ascii "http://") 7 = 0 ↔ SameText (url.take 7) (ascii "http://") := by
  rw [strncasecmp_eq_zero_iff hurl (by decide), SameText]
  rfl

/-- The path the parser finds is the one in the target. -/
theorem pathIn_of_targetOf {url path : List UInt8} (hurl : 0 ∉ url) {k : ℕ}
    (h : targetOf url = some (k, path)) : PathIn url path := by
  unfold targetOf at h
  by_cases hscheme : strncasecmp url (ascii "http://") 7 = 0
  · simp only [if_pos hscheme] at h
    cases hslash : strchr (url.drop 7) 47 with
    | none =>
      rw [hslash] at h
      cases h
    | some j =>
      obtain ⟨host, rest, hdrop, rfl, hhost⟩ := strchr_eq_some_iff.mp hslash
      have hpath : url.drop (7 + host.length) = 47 :: rest := by
        rw [← List.drop_drop, hdrop, List.drop_left]
      simp only [hslash, Option.map_some, hpath, List.headD_cons, ne_eq, not_true_eq_false,
        if_false, Option.some.injEq, Prod.mk.injEq] at h
      rw [← h.2]
      refine .absolute (url.take 7) host rest ?_ ((scheme_iff hurl).mp hscheme) hhost
      rw [List.append_assoc, ← hdrop, List.take_append_drop]
  · simp only [if_neg hscheme, List.drop_zero] at h
    split at h
    · cases h
    · rename_i hslash
      rw [ne_eq, not_not] at hslash
      have hpath : url = path := congrArg Prod.snd (Option.some.inj h)
      cases url with
      | nil => exact absurd hslash (by decide)
      | cons b rest =>
        rw [← hpath]
        exact .origin rest (by rw [← hslash]; rfl)

/-- The parser finds the path of every target that has one. -/
theorem targetOf_of_pathIn {url path : List UInt8} (hurl : 0 ∉ url) (h : PathIn url path) :
    ∃ k, targetOf url = some (k, path) := by
  cases h with
  | origin rest hrest =>
    have hscheme : ¬ strncasecmp url (ascii "http://") 7 = 0 := by
      rw [hrest, ascii_http, strncasecmp_cons, if_neg (by decide)]
      decide
    refine ⟨0, ?_⟩
    simp only [targetOf, if_neg hscheme, List.drop_zero]
    rw [if_neg (by rw [hrest]; exact not_not.mpr rfl)]
  | absolute scheme host rest heq htext hhost =>
    have hlen : scheme.length = 7 := by
      have hmap := congrArg List.length htext
      rw [lower, lower, List.length_map, List.length_map] at hmap
      exact hmap
    rw [List.append_assoc] at heq
    have htake : url.take 7 = scheme := by rw [heq, ← hlen, List.take_left]
    have hdrop : url.drop 7 = host ++ 47 :: rest := by rw [heq, ← hlen, List.drop_left]
    have hscheme : strncasecmp url (ascii "http://") 7 = 0 := by
      rw [scheme_iff hurl, htake]
      exact htext
    have hslash : strchr (url.drop 7) 47 = some host.length :=
      strchr_eq_some_iff.mpr ⟨host, rest, hdrop, rfl, hhost⟩
    have hpath : url.drop (7 + host.length) = 47 :: rest := by
      rw [← List.drop_drop, hdrop, List.drop_left]
    refine ⟨7 + host.length, ?_⟩
    simp only [targetOf, if_pos hscheme, hslash, Option.map_some, hpath]
    rw [List.headD_cons, if_neg (not_not.mpr rfl)]

theorem isRequestLine_of_requestLine {line path : List UInt8} (hline : 0 ∉ line) {i : ℕ}
    (h : requestLine line = some (i, path)) : IsRequestLine line path := by
  unfold requestLine at h
  split at h
  · cases h
  · rename_i i hblank
    obtain ⟨method, b, rest, rfl, rfl, hb, hmethod⟩ := strpbrk_eq_some_iff.mp hblank
    rw [List.take_left, drop_past] at h
    rw [List.mem_append, List.mem_cons, not_or, not_or] at hline
    obtain ⟨hmethod₀, -, hrest₀⟩ := hline
    split at h
    · cases h
    · rename_i hget
      rw [ne_eq, not_not, strcasecmp_eq_zero_iff hmethod₀ (by decide)] at hget
      split at h
      · cases h
      · rename_i j hblank'
        obtain ⟨target, b', version, rfl, rfl, hb', htarget⟩ := strpbrk_eq_some_iff.mp hblank'
        rw [List.take_left, drop_past] at h
        rw [List.mem_append, List.mem_cons, not_or, not_or] at hrest₀
        obtain ⟨htarget₀, -, hversion₀⟩ := hrest₀
        split at h
        · cases h
        · rename_i hversion
          rw [ne_eq, not_not, strcasecmp_eq_zero_iff hversion₀ (by decide)] at hversion
          obtain ⟨⟨k, path'⟩, hfound, heq⟩ := Option.map_eq_some_iff.mp h
          cases heq
          exact ⟨method, target, version, b, b', rfl, hb, hb', hmethod, hget, htarget, hversion,
            pathIn_of_targetOf htarget₀ hfound⟩

theorem requestLine_of_isRequestLine {line path : List UInt8} (hline : 0 ∉ line)
    (h : IsRequestLine line path) : ∃ i, requestLine line = some (i, path) := by
  obtain ⟨method, target, version, b, b', rfl, hb, hb', hmethod, hget, htarget, hversion, hpath⟩ :=
    h.form
  rw [List.mem_append, List.mem_cons, List.mem_append, List.mem_cons, not_or, not_or, not_or,
    not_or] at hline
  obtain ⟨hmethod₀, -, htarget₀, -, hversion₀⟩ := hline
  have hblank : strpbrk (method ++ b :: (target ++ b' :: version)) blanks = some method.length :=
    strpbrk_eq_some_iff.mpr ⟨method, b, _, rfl, rfl, hb, hmethod⟩
  have hblank' : strpbrk (target ++ b' :: version) blanks = some target.length :=
    strpbrk_eq_some_iff.mpr ⟨target, b', _, rfl, rfl, hb', htarget⟩
  obtain ⟨k, hfound⟩ := targetOf_of_pathIn htarget₀ hpath
  refine ⟨method.length + 1 + k, ?_⟩
  simp only [requestLine, hblank, List.take_left, drop_past, hblank', hfound]
  rw [if_neg (not_not.mpr ((strcasecmp_eq_zero_iff hmethod₀ (by decide)).mpr hget)),
    if_neg (not_not.mpr ((strcasecmp_eq_zero_iff hversion₀ (by decide)).mpr hversion)),
    Option.map_some]

end Req

/-! ## `parse_request_line` -/

namespace ReadState

/-- Accepted, or `BAD_REQUEST` with the main state machine where it was. -/
def Settled (c : ReadState) (res : HttpCode × ReadState) : Prop :=
  res.1 = .noRequest ∨ (res.1 = .badRequest ∧ res.2.checkState = c.checkState)

theorem settled_parseTarget (c : ReadState) (url : ℕ) : Settled c (c.parseTarget url) := by
  unfold parseTarget
  simp only
  split
  · exact Or.inr ⟨rfl, rfl⟩
  · split
    · exact Or.inr ⟨rfl, rfl⟩
    · exact Or.inl rfl

theorem settled_parseVersion (c : ReadState) (url : ℕ) : Settled c (c.parseVersion url) := by
  unfold parseVersion
  split
  · exact Or.inr ⟨rfl, rfl⟩
  · rename_i j _
    simp only
    split
    · exact Or.inr ⟨rfl, rfl⟩
    · exact settled_parseTarget { c.store (url + j : ℕ) with version := some (url + j + 1) } url

theorem settled_parseRequestLine (c : ReadState) (text : ℕ) :
    Settled c (c.parseRequestLine text) := by
  unfold parseRequestLine
  split
  · exact Or.inr ⟨rfl, rfl⟩
  · rename_i i _
    simp only
    split
    · exact Or.inr ⟨rfl, rfl⟩
    · exact settled_parseVersion
        { c.store (text + i : ℕ) with url := some (text + i + 1), method := .GET } (text + i + 1)

/-- `parse_request_line` accepts the request lines and nothing else. With one, `m_url` is the path
in its target and the headers come next; with any other line the result is `BAD_REQUEST` and
`m_check_state` stays. -/
theorem parseRequestLine_grammar (c : ReadState) (text : ℕ) (line : List UInt8)
    (hline : c.text text = line) (hfit : text + line.length < readBufferSize) :
    ((c.parseRequestLine text).1 = .noRequest ↔ ∃ path, IsRequestLine line path) ∧
      (∀ path, IsRequestLine line path →
        (c.parseRequestLine text).2.checkState = .header ∧
          ∃ u, (c.parseRequestLine text).2.url = some u ∧
            (c.parseRequestLine text).2.text u = path) ∧
      ((¬ ∃ path, IsRequestLine line path) →
        (c.parseRequestLine text).1 = .badRequest ∧
          (c.parseRequestLine text).2.checkState = c.checkState) := by
  have hnul : 0 ∉ line := hline ▸ nul_not_mem_text c text
  have hspec := parseRequestLine_spec c text (by rw [hline]; exact hfit)
  rw [hline] at hspec
  have hok : ∀ path, IsRequestLine line path →
      (c.parseRequestLine text).1 = .noRequest ∧ (c.parseRequestLine text).2.checkState = .header ∧
        ∃ u, (c.parseRequestLine text).2.url = some u ∧
          (c.parseRequestLine text).2.text u = path := by
    intro path hpath
    obtain ⟨i, hi⟩ := Req.requestLine_of_isRequestLine hnul hpath
    obtain ⟨hcode, hstate, hurl, htext⟩ := hspec.ok i path hi
    exact ⟨hcode, hstate, text + i, hurl, htext⟩
  have hbad : (¬ ∃ path, IsRequestLine line path) → (c.parseRequestLine text).1 = .badRequest := by
    intro hno
    apply hspec.bad
    apply Option.eq_none_iff_forall_not_mem.mpr
    rintro ⟨i, path⟩ hfound
    exact hno ⟨path, Req.isRequestLine_of_requestLine hnul hfound⟩
  refine ⟨⟨fun h => ?_, fun ⟨path, hpath⟩ => (hok path hpath).1⟩,
    fun path hpath => (hok path hpath).2, fun hno => ⟨hbad hno, ?_⟩⟩
  · by_contra hno
    rw [hbad hno] at h
    cases h
  · rcases settled_parseRequestLine c text with h | h
    · rw [hbad hno] at h
      cases h
    · exact h.2

/-- An absolute URL, with the letters in both cases and a tab. -/
theorem parseRequestLine_grammar_absolute :
    ∃ u, ((init.deliver (ascii "gEt HTTP://a/b/c\thttp/1.1")).parseRequestLine 0).2.url = some u ∧
      ((init.deliver (ascii "gEt HTTP://a/b/c\thttp/1.1")).parseRequestLine 0).2.text u
        = ascii "/b/c" := by
  have hgrammar := parseRequestLine_grammar (init.deliver (ascii "gEt HTTP://a/b/c\thttp/1.1")) 0
    (ascii "gEt HTTP://a/b/c\thttp/1.1") (text_deliver (by decide)) (by decide)
  refine (hgrammar.2.1 (ascii "/b/c") ⟨?_⟩).2
  refine ⟨ascii "gEt", ascii "HTTP://a/b/c", ascii "http/1.1", 32, 9, by decide, by decide,
    by decide, by decide, by decide, by decide, by decide, ?_⟩
  exact .absolute (ascii "HTTP://") (ascii "a") (ascii "b/c") (by decide) (by decide) (by decide)

end ReadState

end Webservers
