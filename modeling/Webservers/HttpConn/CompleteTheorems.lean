import Webservers.HttpConn.ReceptionTheorems

/-!
# Complete requests

A request without a body is a request line, headers and an empty line, each ended by CR and LF.
The parser hands its lines on as C strings. A line that starts with a NUL is an empty string, and
`parse_request_header` takes it for the end of the head: `complete_iff` says that what reaches
`do_request` is a request exactly when the first header line that starts with a NUL, or is empty,
is empty.

* `splitLines` cuts a byte string into the lines that are complete; `splitLines_joined` is its
  inverse.
* `HeadAt.complete` follows the loop of `process_read` up to the end of the head and says which
  lines it has read.
-/

namespace Webservers

/-! ## Lines and line ends -/

def crlf : List UInt8 := [CR, LF]

/-- The bytes of a line. -/
def NoBreak (line : List UInt8) : Prop := CR ∉ line ∧ LF ∉ line

instance : DecidablePred NoBreak := fun _ => inferInstanceAs (Decidable (_ ∧ _))

/-- Lines with their line ends. -/
def joined (lines : List (List UInt8)) : List UInt8 := (lines.map (· ++ crlf)).flatten

set_option linter.unusedVariables false in
/-- The complete lines that a byte string starts with. -/
def splitLines (l : List UInt8) : List (List UInt8) :=
  if hline : (scanLine l).1 = .lineOk then
    l.take (scanLine l).2 :: splitLines (l.drop ((scanLine l).2 + 2))
  else []
termination_by l.length
decreasing_by
  have hle := scanLine_lineOk hline
  rw [List.length_drop]
  omega

theorem joined_cons (line : List UInt8) (lines : List (List UInt8)) :
    joined (line :: lines) = line ++ crlf ++ joined lines := rfl

theorem noBreak_nil : NoBreak [] := ⟨List.not_mem_nil, List.not_mem_nil⟩

theorem noBreak_cons_iff {b : UInt8} {line : List UInt8} :
    NoBreak (b :: line) ↔ b ≠ CR ∧ b ≠ LF ∧ NoBreak line := by
  unfold NoBreak
  rw [List.mem_cons, List.mem_cons, not_or, not_or]
  constructor
  · rintro ⟨⟨hcr, hcrs⟩, ⟨hlf, hlfs⟩⟩
    exact ⟨Ne.symm hcr, Ne.symm hlf, hcrs, hlfs⟩
  · rintro ⟨hcr, hlf, hcrs, hlfs⟩
    exact ⟨⟨Ne.symm hcr, hcrs⟩, ⟨Ne.symm hlf, hlfs⟩⟩

theorem scanLine_line {line : List UInt8} (h : NoBreak line) (rest : List UInt8) :
    scanLine (line ++ crlf ++ rest) = (.lineOk, line.length) := by
  induction line with
  | nil => rfl
  | cons b line ih =>
    obtain ⟨hcr, hlf, hline⟩ := noBreak_cons_iff.mp h
    show scanLine (b :: (line ++ crlf ++ rest)) = _
    rw [scanLine, if_neg hcr, if_neg hlf, ih hline]
    rfl

/-- No line end stands before the end of the search. -/
theorem noBreak_scanLine (l : List UInt8) : NoBreak (l.take (scanLine l).2) := by
  fun_induction scanLine l with
  | case1 => exact noBreak_nil
  | case2 rest => exact noBreak_nil
  | case3 rest hcr => exact noBreak_nil
  | case4 b rest hcr hlf ih =>
    rw [List.take_succ_cons]
    exact noBreak_cons_iff.mpr ⟨hcr, hlf, ih⟩

/-- A complete line, its end and what follows. -/
theorem scanLine_split {l : List UInt8} (h : (scanLine l).1 = .lineOk) :
    l = l.take (scanLine l).2 ++ crlf ++ l.drop ((scanLine l).2 + 2) := by
  fun_induction scanLine l with
  | case1 => cases h
  | case2 rest =>
    cases rest with
    | nil => cases h
    | cons b rest =>
      have hb : b = LF := by
        by_contra hb
        rw [afterCr, if_neg hb] at h
        cases h
      rw [hb]
      rfl
  | case3 rest hcr => cases h
  | case4 b rest hcr hlf ih =>
    show b :: rest = b :: (rest.take (scanLine rest).2 ++ crlf ++ _)
    exact congrArg (b :: ·) (ih h)

theorem splitLines_line {line : List UInt8} (h : NoBreak line) (rest : List UInt8) :
    splitLines (line ++ crlf ++ rest) = line :: splitLines rest := by
  have hscan := scanLine_line h rest
  have hdrop : (line ++ crlf ++ rest).drop (line.length + 2) = rest := by
    have hlen : (line ++ crlf).length = line.length + 2 := by
      rw [List.length_append]
      rfl
    rw [← hlen, List.drop_left]
  have htake : (line ++ crlf ++ rest).take line.length = line := by
    rw [List.append_assoc, List.take_left]
  rw [splitLines, dif_pos (by rw [hscan]), hscan]
  show (line ++ crlf ++ rest).take line.length :: _ = _
  rw [htake, hdrop]

theorem splitLines_joined {lines : List (List UInt8)} (h : ∀ line ∈ lines, NoBreak line)
    (rest : List UInt8) : splitLines (joined lines ++ rest) = lines ++ splitLines rest := by
  induction lines with
  | nil => rfl
  | cons line lines ih =>
    obtain ⟨hline, hlines⟩ := List.forall_mem_cons.mp h
    rw [joined_cons, List.append_assoc, splitLines_line hline, ih hlines, List.cons_append]

theorem lineText_eq (l : List UInt8) : lineText l = cText (l.take (scanLine l).2) := rfl

theorem cText_eq_nil_iff {line : List UInt8} : cText line = [] ↔ line.headD 0 = 0 := by
  cases line with
  | nil => exact iff_of_true rfl rfl
  | cons b line =>
    unfold cText
    rw [List.takeWhile_cons]
    by_cases hb : b = 0
    · subst hb
      exact iff_of_true rfl rfl
    · have htrue : (b != 0) = true := bne_iff_ne.mpr hb
      rw [if_pos htrue]
      exact iff_of_false (List.cons_ne_nil _ _) hb

/-! ## The lines of a head -/

namespace ReadState

/-- `parse_request_line` accepts the line. -/
def Accepted (line : List UInt8) : Prop :=
  ((init.deliver line).parseRequestLine 0).1 = .noRequest

/-- A request without a body. -/
def IsRequest (bytes : List UInt8) : Prop :=
  ∃ line headers, bytes = joined (line :: headers) ++ crlf ∧ Accepted line ∧ NoBreak line ∧
    ∀ header ∈ headers, header ≠ [] ∧ NoBreak header

/-- Of the lines behind the first, the first one that is an empty C string is empty. -/
def EmptyLineFirst (s : List UInt8) : Prop :=
  (splitLines s).tail.find? (fun line => line.headD 0 = 0) = some []

instance : DecidablePred EmptyLineFirst := fun _ => inferInstanceAs (Decidable (_ = _))

/-- The string that a slot holds which received just this line. -/
theorem text_deliver {line : List UInt8} (h : line.length < readBufferSize) :
    (init.deliver line).text 0 = cText line := by
  have hnul : (init.deliver line).readBuf (0 + line.length) = 0 := by
    show storeBytes _ 0 line (0 + line.length) = 0
    unfold storeBytes
    rw [if_pos (Nat.zero_le _), List.getElem?_eq_none (by omega)]
    rfl
  have hslice : slice (init.deliver line).readBuf 0 line.length = line := by
    show slice (storeBytes _ 0 line) 0 line.length = line
    exact slice_storeBytes line
  unfold text cText
  rw [cstr_eq hnul (by omega), hslice]

theorem accepted_iff {line : List UInt8} (h : line.length < readBufferSize) :
    Accepted line ↔ Req.requestLine (cText line) ≠ none := by
  have htext := text_deliver h
  have hlen : (cText line).length ≤ line.length := (List.takeWhile_sublist _).length_le
  have hspec := parseRequestLine_spec (init.deliver line) 0 (by rw [htext]; omega)
  rw [htext] at hspec
  unfold Accepted
  cases hfound : Req.requestLine (cText line) with
  | none =>
    rw [hspec.bad hfound]
    exact iff_of_false nofun (fun hne => hne rfl)
  | some target =>
    exact iff_of_true (hspec.ok target.1 target.2 hfound).1 (Option.some_ne_none _)

/-- The lines that the parser reads as the head, from a request of which it knows `r`, up to and
without the one that ends it. -/
def HeadLines (r : Req) (lines : List (List UInt8)) : Prop :=
  match r.target with
  | none => ∃ line headers, lines = line :: headers ∧ Req.requestLine (cText line) ≠ none ∧
      ∀ header ∈ headers, cText header ≠ []
  | some _ => ∀ header ∈ lines, cText header ≠ []

theorem HeadLines.cons {r r' : Req} {pos : ℕ} {line : List UInt8} {lines : List (List UInt8)}
    (hnext : r.next pos (cText line) = .go r') (h : HeadLines r' lines) :
    HeadLines r (line :: lines) := by
  unfold HeadLines at h ⊢
  rcases Req.next_go hnext with ⟨hr, i, path, hfound, rfl⟩ | ⟨hr, hne, rfl⟩
  · rw [hr]
    refine ⟨line, lines, rfl, ?_, h⟩
    rw [hfound]
    exact Option.some_ne_none _
  · rw [Req.header_target] at h
    split
    · rename_i hnone
      exact absurd hnone hr
    · rename_i target hsome
      rw [hsome] at h
      exact List.forall_mem_cons.mpr ⟨hne, h⟩

theorem joined_append (lines lines' : List (List UInt8)) :
    joined (lines ++ lines') = joined lines ++ joined lines' := by
  unfold joined
  rw [List.map_append, List.flatten_append]

/-- The lines that were read before the one the head waits for. -/
theorem headRun_waiting_lines {pos pos' : ℕ} {r r' : Req} {l l' : List UInt8}
    (hrun : headRun pos r l = .waiting pos' r' l') :
    ∃ lines, l = joined lines ++ l' ∧ pos' = pos + (joined lines).length ∧
      (∀ line ∈ lines, NoBreak line) ∧
      ∀ later, HeadLines r' later → HeadLines r (lines ++ later) := by
  fun_induction headRun pos r l with
  | case1 pos r l hline hnext => cases hrun
  | case2 pos r l hline pos₁ l₁ r₁ hnext ih =>
    obtain ⟨lines, hl, hpos, hlines, hheads⟩ := ih hrun
    have hbreak := noBreak_scanLine l
    have hsplit := scanLine_split hline
    have hle := scanLine_lineOk hline
    refine ⟨l.take (scanLine l).2 :: lines, ?_, ?_, ?_, ?_⟩
    · rw [joined_cons, List.append_assoc, ← hl]
      exact hsplit
    · rw [hpos, joined_cons, List.length_append, List.length_append, List.length_take]
      show pos + (scanLine l).2 + 2 + _ = pos + (min _ _ + 2 + _)
      omega
    · exact List.forall_mem_cons.mpr ⟨hbreak, hlines⟩
    · intro later hlater
      exact HeadLines.cons hnext (hheads later hlater)
  | case3 pos r l hline pos₁ l₁ hnext hne => cases hrun
  | case4 pos r l hline hnext hzero => cases hrun
  | case5 pos r l hline =>
    cases hrun
    refine ⟨[], rfl, rfl, fun line hmem => absurd hmem List.not_mem_nil, ?_⟩
    exact fun later hlater => hlater

/-- A call that completes a request without a body: the lines it has read since the line at `pos`,
and the one it takes for the empty line. -/
theorem HeadAt.complete {c : ReadState} {pos : ℕ} {r r' : Req} {l : List UInt8}
    (h : HeadAt c pos r l) (hrun : headRun pos r l = .complete r') :
    ∃ c' lines last rest, processReadLoop .lineOk c = (.doRequest, c') ∧
      l = joined lines ++ (last ++ crlf ++ rest) ∧
      c'.checkedIndex = pos + (joined lines ++ last ++ crlf).length ∧
      (∀ line ∈ lines, NoBreak line) ∧ NoBreak last ∧ cText last = [] ∧ HeadLines r lines := by
  fun_induction headRun pos r l generalizing c
  case case1 pos r l hline hnext => cases hrun
  case case2 pos r l hline pos₁ l₁ r₁ hnext ih =>
    obtain ⟨c₁, hloop, -, hhead⟩ := h.round_go hline hnext
    obtain ⟨c', lines, last, rest, heq, hl, hchecked, hlines, hlast, hempty, hheads⟩ :=
      ih hhead hrun
    have hbreak := noBreak_scanLine l
    have hsplit := scanLine_split hline
    have hlen : (l.take (scanLine l).2).length = (scanLine l).2 := by
      have hle := scanLine_lineOk hline
      rw [List.length_take]
      omega
    refine ⟨c', l.take (scanLine l).2 :: lines, last, rest, hloop.trans heq, ?_, ?_, ?_, hlast,
      hempty, hheads.cons hnext⟩
    · rw [joined_cons, List.append_assoc, ← hl]
      exact hsplit
    · rw [hchecked, joined_cons]
      simp only [List.length_append, hlen]
      show pos + (scanLine l).2 + 2 + _ = pos + ((scanLine l).2 + 2 + _ + _ + _)
      omega
    · exact List.forall_mem_cons.mpr ⟨hbreak, hlines⟩
  case case3 pos r l hline pos₁ l₁ hnext hne => cases hrun
  case case4 pos r l hline hnext hzero =>
    obtain ⟨c', heq, -, -, hchecked⟩ := h.round_complete hline hnext (not_not.mp hzero)
    obtain ⟨hr, hempty⟩ := Req.next_finished hnext
    have hbreak := noBreak_scanLine l
    have hsplit := scanLine_split hline
    have hle := scanLine_lineOk hline
    refine ⟨c', [], l.take (scanLine l).2, l.drop ((scanLine l).2 + 2), heq, hsplit, ?_,
      fun line hmem => absurd hmem List.not_mem_nil, hbreak, hempty, ?_⟩
    · rw [hchecked, List.append_assoc, List.length_append, List.length_append, List.length_take]
      show _ = pos + (0 + (min _ _ + 2))
      omega
    · unfold HeadLines
      split
      · rename_i hnone
        exact absurd hnone hr
      · exact fun header hmem => absurd hmem List.not_mem_nil
  case case5 pos r l hline => cases hrun

/-! ## What reaches `do_request` -/

/-- A request that was accepted with the length 0 was complete at the end of its head. -/
theorem Received.complete {c c' : ReadState} {s x : List UInt8} (h : Received c s)
    (hfit : c.readIndex + x.length ≤ readBufferSize)
    (hcall : (c.deliver x).processRead = (.doRequest, c')) (hzero : c'.contentLength = 0) :
    ∃ r, headRun 0 Req.init (s ++ x) = .complete r := by
  have hbody : ∀ {d : ReadState} {start pos : ℕ} {r : Req} {l rest : List UInt8} {H : ℕ},
      d.processRead = (.doRequest, c') → BodyAt d start pos r l →
      headRun 0 Req.init (s ++ x) ≠ .body H r rest := by
    intro d start pos r l rest H hcall' hat hrun
    -- a body was announced, and the length is not changed any more
    have hne := (headRun_body hrun reqInit_range).2.1
    have hresult := processRead_body hat
    cases hbodyRun : bodyRun r.contentLength start pos l with
    | waiting start' pos' l' =>
      rw [hbodyRun] at hresult
      obtain ⟨c'', heq, -⟩ := hresult
      cases Eq.trans heq.symm hcall'
    | accepted start' =>
      rw [hbodyRun] at hresult
      obtain ⟨c'', heq, hout, -⟩ := hresult
      have hsame : c'' = c' := congrArg Prod.snd (Eq.trans heq.symm hcall')
      subst hsame
      simp only [outcome, Req.outcome, Outcome.doRequest.injEq] at hout
      exact hne (hout.2.2.symm.trans hzero)
  rcases h.call hfit with hresult | ⟨start, pos, r, l, H, rest, hat, hrun⟩
  · cases hrun : headRun 0 Req.init (s ++ x) with
    | complete r => exact ⟨r, rfl⟩
    | waiting pos r l =>
      rw [hrun] at hresult
      obtain ⟨c'', heq, -⟩ := hresult
      cases Eq.trans heq.symm hcall
    | bad =>
      rw [hrun] at hresult
      obtain ⟨c'', heq, -⟩ := hresult
      cases Eq.trans heq.symm hcall
    | body H r rest =>
      rw [hrun] at hresult
      obtain ⟨c'', heq, -, hat⟩ := hresult
      exact absurd hrun (hbody (Eq.trans heq.symm hcall) hat)
  · exact absurd hrun (hbody hcall hat)

/-- Only an empty line puts two line ends next to each other. -/
theorem eq_nil_of_suffix {lines : List (List UInt8)} {last : List UInt8} (hlast : NoBreak last)
    (h : crlf ++ crlf <:+ joined lines ++ last ++ crlf) : last = [] := by
  have hsuffix : crlf <:+ joined lines ++ last := by
    obtain ⟨before, hbefore⟩ := h
    rw [← List.append_assoc] at hbefore
    exact ⟨before, List.append_cancel_right hbefore⟩
  by_contra hne
  -- the last byte of the line would be an LF
  have hlf : (joined lines ++ last).getLast? = some LF := by
    obtain ⟨before, hbefore⟩ := hsuffix
    rw [← hbefore]
    show (before ++ [CR, LF]).getLast? = some LF
    rw [List.getLast?_append]
    rfl
  obtain ⟨b, hb⟩ := Option.isSome_iff_exists.mp (List.getLast?_isSome.mpr hne)
  rw [List.getLast?_append, hb, Option.some_or, Option.some.injEq] at hlf
  subst hlf
  exact hlast.2 (List.mem_of_getLast? hb)

theorem IsRequest.suffix {bytes : List UInt8} (h : IsRequest bytes) : crlf ++ crlf <:+ bytes := by
  obtain ⟨line, headers, rfl, -⟩ := h
  have hend : ∀ lines : List (List UInt8), lines ≠ [] → crlf <:+ joined lines := by
    intro lines hne
    induction lines with
    | nil => exact absurd rfl hne
    | cons line lines ih =>
      rw [joined_cons]
      by_cases hnil : lines = []
      · subst hnil
        exact ⟨line, (List.append_nil _).symm⟩
      · exact (ih hnil).trans (List.suffix_append _ _)
  obtain ⟨before, hbefore⟩ := hend (line :: headers) (List.cons_ne_nil _ _)
  exact ⟨before, by rw [← hbefore, List.append_assoc]⟩

/-- The lines of all segments that a call has read when it reaches `do_request`. -/
theorem Received.lines {c c' : ReadState} {s x : List UInt8} (h : Received c s)
    (hfit : c.readIndex + x.length ≤ readBufferSize)
    (hcall : (c.deliver x).processRead = (.doRequest, c')) (hzero : c'.contentLength = 0) :
    ∃ line headers last rest,
      s ++ x = joined (line :: headers) ++ (last ++ crlf ++ rest) ∧
      c'.checkedIndex = (joined (line :: headers) ++ last ++ crlf).length ∧
      (∀ line' ∈ line :: headers, NoBreak line') ∧ NoBreak last ∧ cText last = [] ∧
      Req.requestLine (cText line) ≠ none ∧ ∀ header ∈ headers, cText header ≠ [] := by
  obtain ⟨r, hrun⟩ := h.complete hfit hcall hzero
  rcases h.place with ⟨pos, r₀, l, hat, hwait⟩ | ⟨start, pos, r₀, l, H, rest, -, hbody⟩
  · rw [headRun_append, hwait] at hrun
    obtain ⟨c₁, lines, last, rest, heq, hl, hchecked, hlines, hlast, hempty, hheads⟩ :=
      (deliver_headAt hat x hfit).complete hrun
    have hsame : c₁ = c' := congrArg Prod.snd (Eq.trans heq.symm hcall)
    subst hsame
    obtain ⟨earlier, hs, hpos, hearlier, hcombine⟩ := headRun_waiting_lines hwait
    -- the lines of earlier calls and those of this one
    obtain ⟨line, headers, hall, hline, hheaders⟩ := hcombine lines hheads
    refine ⟨line, headers, last, rest, ?_, ?_, ?_, hlast, hempty, hline, hheaders⟩
    · rw [← hall, hs, joined_append, List.append_assoc, hl]
      simp only [List.append_assoc]
    · rw [hchecked, hpos, ← hall, joined_append]
      simp only [List.length_append]
      omega
    · rw [← hall]
      intro line' hmem
      rcases List.mem_append.mp hmem with hmem | hmem
      · exact hearlier line' hmem
      · exact hlines line' hmem
  · rw [headRun_append, hbody] at hrun
    cases hrun

/-- After any segments, a request that reaches `do_request` with `m_content_length` 0 consists of a
request line, headers and an empty line exactly when no line that starts with a NUL comes before
the empty one. -/
theorem complete_iff {segs : List (List UInt8)} {x : List UInt8} {c c' : ReadState}
    (h : Machine.exec receive init segs = some c)
    (hfit : (segs.flatten ++ x).length ≤ readBufferSize)
    (hcall : (c.deliver x).processRead = (.doRequest, c')) (hzero : c'.contentLength = 0) :
    IsRequest ((segs.flatten ++ x).take c'.checkedIndex) ↔
      EmptyLineFirst (segs.flatten ++ x) := by
  have hreceived := exec_receive h
  have hsize : c.readIndex + x.length ≤ readBufferSize := by
    rw [hreceived.readIndex, ← List.length_append]
    exact hfit
  obtain ⟨line, headers, last, rest, hbytes, hchecked, hlines, hlast, hempty, hline, hheaders⟩ :=
    hreceived.lines hsize hcall hzero
  have htaken : (segs.flatten ++ x).take c'.checkedIndex =
      joined (line :: headers) ++ last ++ crlf := by
    rw [hchecked, hbytes, ← List.append_assoc, ← List.append_assoc, List.take_left]
  -- the line that ended the head is the first one that is an empty string
  have hfind : (splitLines (segs.flatten ++ x)).tail.find? (fun line => line.headD 0 = 0) =
      some last := by
    rw [hbytes, splitLines_joined hlines, splitLines_line hlast]
    show (headers ++ last :: splitLines rest).find? _ = some last
    have hnone : headers.find? (fun line => line.headD 0 = 0) = none := by
      apply List.find?_eq_none.mpr
      intro header hmem
      rw [decide_eq_true_eq]
      exact fun hnul => hheaders header hmem (cText_eq_nil_iff.mpr hnul)
    have hlast' : last.headD 0 = 0 := cText_eq_nil_iff.mp hempty
    rw [List.find?_append, hnone, Option.none_or, List.find?_cons_of_pos (by simpa using hlast')]
  have hcond : EmptyLineFirst (segs.flatten ++ x) ↔ last = [] := by
    rw [EmptyLineFirst, hfind, Option.some.injEq]
  rw [hcond, htaken]
  constructor
  · exact fun hrequest => eq_nil_of_suffix hlast hrequest.suffix
  · intro hnil
    subst hnil
    have hlen : line.length < readBufferSize := by
      have htotal := congrArg List.length hbytes
      rw [joined_cons] at htotal
      simp only [List.length_append, crlf, List.length_cons, List.length_nil] at htotal hfit
      omega
    refine ⟨line, headers, by rw [List.append_nil], (accepted_iff hlen).mpr hline,
      hlines line List.mem_cons_self, fun header hmem => ⟨fun hnil => ?_, ?_⟩⟩
    · exact hheaders header hmem (by rw [hnil]; rfl)
    · exact hlines header (List.mem_cons_of_mem line hmem)

/-- A request in two segments, the second of which starts inside a header. -/
theorem complete_iff_cut :
    ∃ c c', Machine.exec receive init [ascii "GET / HTTP/1.1\r\nHo"] = some c ∧
      (c.deliver (ascii "st: a\r\n\r\n")).processRead = (.doRequest, c') ∧
      IsRequest (([ascii "GET / HTTP/1.1\r\nHo"].flatten ++
        ascii "st: a\r\n\r\n").take c'.checkedIndex) := by
  have hrun : (Machine.exec receive init [ascii "GET / HTTP/1.1\r\nHo"]).map (fun c =>
      ((c.deliver (ascii "st: a\r\n\r\n")).processRead.1,
        (c.deliver (ascii "st: a\r\n\r\n")).processRead.2.contentLength)) =
      some (.doRequest, 0) := by
    decide +kernel
  obtain ⟨c, hc, hpair⟩ := Option.map_eq_some_iff.mp hrun
  obtain ⟨hresult, hzero⟩ := Prod.mk.inj hpair
  have hcall : (c.deliver (ascii "st: a\r\n\r\n")).processRead =
      (.doRequest, (c.deliver (ascii "st: a\r\n\r\n")).processRead.2) :=
    Prod.ext hresult rfl
  exact ⟨c, _, hc, hcall,
    (complete_iff hc (by decide +kernel) hcall hzero).mpr (by decide +kernel)⟩

/-- A header line that starts with a NUL ends the head: three of its bytes and no empty line have
been received when the request is passed on. -/
theorem nul_line_ends_head :
    let bytes := ascii "GET / HTTP/1.1\r\n" ++ [0, 97, 98] ++ crlf
    (init.deliver bytes).processRead.1 = .doRequest ∧
      (init.deliver bytes).processRead.2.contentLength = 0 ∧
      ¬ IsRequest (bytes.take (init.deliver bytes).processRead.2.checkedIndex) := by
  refine ⟨by decide +kernel, by decide +kernel, fun h => ?_⟩
  have hsuffix := h.suffix
  revert hsuffix
  decide +kernel

end ReadState
end Webservers
