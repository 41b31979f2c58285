import Webservers.HttpConn.SlotTheorems

/-!
# Composing a response, text by text

`add_response` appends a formatted text to `m_write_buf` if it fits, and drops it otherwise. The
functions that call it drop its result, except for the page of an error response.

* `appendFitting` is the effect of one call on `m_write_buf[0, m_write_index)`.
* `addResponses` makes calls one after the other, and `add_response_all_or_nothing` says what
  holds before and after each.
* `pieces` are the texts that `process_write` formats. `reportsComplete_iff` says when a response
  that is reported as built is complete.
-/

namespace Webservers

/-- What `m_write_buf` holds after one more call of `add_response`. -/
def appendFitting (before text : List UInt8) : List UInt8 :=
  if text.length < writeBufferSize - 1 - before.length then before ++ text else before

/-- Texts that fit together are all appended. -/
theorem foldl_appendFitting {before : List UInt8} {texts : List (List UInt8)}
    (h : (before ++ texts.flatten).length < writeBufferSize - 1) :
    texts.foldl appendFitting before = before ++ texts.flatten := by
  induction texts generalizing before with
  | nil => exact (List.append_nil _).symm
  | cons text texts ih =>
    rw [List.flatten_cons, ← List.append_assoc] at h ⊢
    have hfits : text.length < writeBufferSize - 1 - before.length := by
      simp only [List.length_append] at h
      omega
    rw [List.foldl_cons, appendFitting, if_pos hfits, ih h]

namespace HttpConn

/-! ## One call -/

section Add

variable {c : HttpConn}

/-- What `vsnprintf` stores of a text when it is given `size` bytes. -/
def printed (size : ℕ) (text : List UInt8) : List UInt8 :=
  if size = 0 then [] else text.take (size - 1) ++ [0]

/-- The indices of `m_write_buf` that a call of `add_response` writes. -/
def addResponseWrites (c : HttpConn) (text : List UInt8) : List ℕ :=
  if writeBufferSize ≤ c.writeIndex then []
  else List.range' c.writeIndex (printed (writeBufferSize - 1 - c.writeIndex) text).length

/-- A text is accepted if there is room for it, its NUL and one more byte. -/
theorem addResponse_eq (hroom : c.writeIndex < writeBufferSize) (text : List UInt8) :
    c.addResponse text =
      (decide (c.writeIndex + text.length < writeBufferSize - 1),
        { c with
          writeBuf := storeBytes c.writeBuf c.writeIndex
            (printed (writeBufferSize - 1 - c.writeIndex) text)
          writeIndex := if c.writeIndex + text.length < writeBufferSize - 1 then
            c.writeIndex + text.length else c.writeIndex }) := by
  unfold addResponse printed
  rw [if_neg (Nat.not_le_of_lt hroom)]
  simp only
  by_cases hfits : c.writeIndex + text.length < writeBufferSize - 1
  · rw [if_neg (show ¬ writeBufferSize - 1 - c.writeIndex ≤ text.length by omega), if_pos hfits,
      decide_eq_true hfits]
  · rw [if_pos (show writeBufferSize - 1 - c.writeIndex ≤ text.length by omega), if_neg hfits,
      decide_eq_false hfits]

/-- `add_response` on the bytes it has composed. -/
theorem head_addResponse (hroom : c.writeIndex < writeBufferSize) (text : List UInt8) :
    (c.addResponse text).2.head = appendFitting c.head text ∧
      (c.addResponse text).2.writeIndex < writeBufferSize := by
  have hlen : c.head.length = c.writeIndex := length_slice
  rw [addResponse_eq hroom, appendFitting, hlen]
  by_cases hfits : c.writeIndex + text.length < writeBufferSize - 1
  · -- the text is stored whole, with its NUL behind it
    have hprinted : printed (writeBufferSize - 1 - c.writeIndex) text = text ++ [0] := by
      rw [printed, if_neg (by omega), List.take_of_length_le (by omega)]
    simp only [if_pos hfits, hprinted]
    rw [if_pos (by omega)]
    refine ⟨?_, by omega⟩
    show slice (storeBytes c.writeBuf c.writeIndex (text ++ [0])) 0 (c.writeIndex + text.length) = _
    rw [slice_add, Nat.zero_add, ← storeBytes_append]
    have hfront : slice (storeBytes (storeBytes c.writeBuf c.writeIndex text)
        (c.writeIndex + text.length) [0]) 0 c.writeIndex = c.head := by
      apply slice_congr
      intro k _ hk
      rw [storeBytes_lt _ (by omega), storeBytes_lt _ (by omega)]
    have hback : slice (storeBytes (storeBytes c.writeBuf c.writeIndex text)
        (c.writeIndex + text.length) [0]) c.writeIndex text.length = text := by
      refine Eq.trans ?_ (slice_storeBytes (m := c.writeBuf) (i := c.writeIndex) text)
      apply slice_congr
      intro k _ hk
      exact storeBytes_lt _ (by omega)
    rw [hfront, hback]
  · simp only [if_neg hfits]
    rw [if_neg (by omega)]
    refine ⟨?_, hroom⟩
    apply slice_congr
    intro k _ (hk : k < 0 + c.writeIndex)
    exact storeBytes_lt _ (by omega)

theorem length_printed_le (size : ℕ) (text : List UInt8) : (printed size text).length ≤ size := by
  unfold printed
  split
  · exact Nat.zero_le _
  · rw [List.length_append, List.length_take, List.length_singleton]
    omega

/-- A call writes inside `m_write_buf`. -/
theorem addResponseWrites_lt (c : HttpConn) (text : List UInt8) :
    ∀ i ∈ c.addResponseWrites text, i < writeBufferSize := by
  unfold addResponseWrites
  split
  · exact fun i hi => absurd hi List.not_mem_nil
  · intro i hi
    have hlen := length_printed_le (writeBufferSize - 1 - c.writeIndex) text
    have hrange := List.mem_range'_1.mp hi
    omega

/-- It changes nothing else. -/
theorem addResponse_others {text : List UInt8} {i : ℕ} (hi : i ∉ c.addResponseWrites text) :
    (c.addResponse text).2.writeBuf i = c.writeBuf i := by
  by_cases hfull : writeBufferSize ≤ c.writeIndex
  · rw [addResponse, if_pos hfull]
  · rw [addResponseWrites, if_neg hfull, List.mem_range'_1] at hi
    rw [addResponse_eq (Nat.lt_of_not_le hfull)]
    show storeBytes c.writeBuf c.writeIndex _ i = c.writeBuf i
    unfold storeBytes
    split
    · rw [List.getElem?_eq_none (by omega), Option.getD_none]
    · rfl

/-- A text that is refused is not counted, and what was there before stays. -/
theorem addResponse_refused {text : List UInt8} (h : (c.addResponse text).1 = false) :
    (c.addResponse text).2.writeIndex = c.writeIndex ∧
      (c.addResponse text).2.head = c.head := by
  by_cases hfull : writeBufferSize ≤ c.writeIndex
  · rw [addResponse, if_pos hfull]
    exact ⟨rfl, rfl⟩
  · have hroom := Nat.lt_of_not_le hfull
    have hhead := (head_addResponse hroom text).1
    have hlen : c.head.length = c.writeIndex := length_slice
    rw [addResponse_eq hroom] at h
    have hrefused := of_decide_eq_false h
    constructor
    · rw [addResponse_eq hroom]
      exact if_neg hrefused
    · rw [hhead, appendFitting, if_neg (by omega)]

end Add

/-! ## Calls one after the other -/

/-- What the calls return, and the slot behind them. -/
def addResponses (c : HttpConn) : List (List UInt8) → List Bool × HttpConn
  | [] => ([], c)
  | text :: texts =>
    let (ok, c) := c.addResponse text
    let (oks, c) := c.addResponses texts
    (ok :: oks, c)

/-- The texts whose call returned true. -/
def accepted (texts : List (List UInt8)) (oks : List Bool) : List (List UInt8) :=
  ((texts.zip oks).filter Prod.snd).map Prod.fst

section Calls

variable {c : HttpConn}

theorem addResponses_cons (c : HttpConn) (text : List UInt8) (texts : List (List UInt8)) :
    c.addResponses (text :: texts) =
      ((c.addResponse text).1 :: ((c.addResponse text).2.addResponses texts).1,
        ((c.addResponse text).2.addResponses texts).2) := rfl

/-- One call, below the limit. -/
theorem addResponse_step (hindex : c.writeIndex ≤ writeBufferSize - 2) (text : List UInt8) :
    (c.addResponse text).2.writeIndex ≤ writeBufferSize - 2 ∧
      (c.addResponse text).2.head =
        c.head ++ (accepted [text] [(c.addResponse text).1]).flatten := by
  have hsize : writeBufferSize = 2048 := rfl
  have hroom : c.writeIndex < writeBufferSize := by omega
  have hhead := (head_addResponse hroom text).1
  have hlen : c.head.length = c.writeIndex := length_slice
  rw [hhead, addResponse_eq hroom, appendFitting, hlen]
  by_cases hfits : c.writeIndex + text.length < writeBufferSize - 1
  · rw [if_pos hfits, if_pos (by omega), decide_eq_true hfits]
    refine ⟨show c.writeIndex + text.length ≤ writeBufferSize - 2 by omega, ?_⟩
    show c.head ++ text = c.head ++ (text ++ [])
    rw [List.append_nil]
  · rw [if_neg hfits, if_neg (by omega), decide_eq_false hfits]
    exact ⟨hindex, (List.append_nil _).symm⟩

/-- Why a text is refused. -/
theorem addResponse_false (hindex : c.writeIndex ≤ writeBufferSize - 2) {text : List UInt8}
    (h : (c.addResponse text).1 = false) : writeBufferSize - 1 ≤ c.writeIndex + text.length := by
  have hsize : writeBufferSize = 2048 := rfl
  rw [addResponse_eq (by omega)] at h
  exact Nat.le_of_not_lt (of_decide_eq_false h)

theorem writeIndex_le_addResponses (c : HttpConn) (texts : List (List UInt8)) :
    c.writeIndex ≤ (c.addResponses texts).2.writeIndex := by
  induction texts generalizing c with
  | nil => exact Nat.le_refl _
  | cons text texts ih =>
    obtain ⟨_, _, heq, hle, -⟩ := composed_addResponse c text
    refine Nat.le_trans ?_ (ih (c.addResponse text).2)
    rw [heq]
    exact hle

theorem accepted_cons (text : List UInt8) (texts : List (List UInt8)) (ok : Bool)
    (oks : List Bool) :
    accepted (text :: texts) (ok :: oks) = accepted [text] [ok] ++ accepted texts oks := by
  cases ok <;> rfl

theorem addResponses_spec (hindex : c.writeIndex ≤ writeBufferSize - 2)
    (texts : List (List UInt8)) :
    (c.addResponses texts).2.writeIndex ≤ writeBufferSize - 2 ∧
      (c.addResponses texts).2.head =
        c.head ++ (accepted texts (c.addResponses texts).1).flatten := by
  induction texts generalizing c with
  | nil => exact ⟨hindex, (List.append_nil _).symm⟩
  | cons text texts ih =>
    obtain ⟨hnext, hhead⟩ := addResponse_step hindex text
    obtain ⟨hlast, hrest⟩ := ih hnext
    have hsplit := accepted_cons text texts (c.addResponse text).1
      ((c.addResponse text).2.addResponses texts).1
    rw [addResponses_cons]
    refine ⟨hlast, ?_⟩
    rw [hsplit, hrest, hhead, List.flatten_append, List.append_assoc]

/-- However many texts are appended to an empty `m_write_buf`: it holds exactly those that were
accepted, and never more than `WRITE_BUFFER_SIZE - 2` bytes; a call writes inside the array, and
one that refuses its text leaves what is there as it is. -/
theorem add_response_all_or_nothing (c : HttpConn) (texts : List (List UInt8))
    (text : List UInt8) :
    let (oks, d) := { c with writeIndex := 0 }.addResponses texts
    let (ok, e) := d.addResponse text
    d.writeIndex ≤ writeBufferSize - 2 ∧ d.head = (accepted texts oks).flatten ∧
      (∀ i ∈ d.addResponseWrites text, i < writeBufferSize) ∧
      (∀ i, i ∉ d.addResponseWrites text → e.writeBuf i = d.writeBuf i) ∧
      (ok = false → e.writeIndex = d.writeIndex ∧ e.head = d.head) := by
  have hstart : { c with writeIndex := 0 }.writeIndex ≤ writeBufferSize - 2 := Nat.zero_le _
  obtain ⟨hindex, hhead⟩ := addResponses_spec hstart texts
  refine ⟨hindex, hhead, addResponseWrites_lt _ text, fun i hi => addResponse_others hi, ?_⟩
  exact fun hok => addResponse_refused hok

theorem length_addResponses (c : HttpConn) (texts : List (List UInt8)) :
    (c.addResponses texts).1.length = texts.length := by
  induction texts generalizing c with
  | nil => rfl
  | cons text texts ih =>
    rw [addResponses_cons, List.length_cons, List.length_cons, ih]

theorem accepted_all {texts : List (List UInt8)} {oks : List Bool}
    (hlen : oks.length = texts.length) (hall : false ∉ oks) : accepted texts oks = texts := by
  induction texts generalizing oks with
  | nil => rfl
  | cons text texts ih =>
    cases oks with
    | nil => cases hlen
    | cons ok oks =>
      rw [List.mem_cons, not_or] at hall
      have hok : ok = true := (Bool.eq_false_or_eq_true ok).resolve_right (Ne.symm hall.1)
      have hrest := ih (Nat.succ.inj hlen) hall.2
      rw [accepted_cons, hrest, hok]
      rfl

/-- Texts that are all accepted are in `m_write_buf`. -/
theorem addResponses_all (hindex : c.writeIndex ≤ writeBufferSize - 2)
    {texts : List (List UInt8)} (hall : false ∉ (c.addResponses texts).1) :
    (c.addResponses texts).2.head = c.head ++ texts.flatten := by
  have hhead := (addResponses_spec hindex texts).2
  rw [accepted_all (length_addResponses c texts) hall] at hhead
  exact hhead

/-- The calls all return true if the texts fit together. -/
theorem addResponses_fit_iff (hindex : c.writeIndex ≤ writeBufferSize - 2)
    (texts : List (List UInt8)) :
    false ∉ (c.addResponses texts).1 ↔
      c.writeIndex + texts.flatten.length ≤ writeBufferSize - 2 := by
  have hsize : writeBufferSize = 2048 := rfl
  induction texts generalizing c with
  | nil => exact ⟨fun _ => hindex, fun _ => List.not_mem_nil⟩
  | cons text texts ih =>
    obtain ⟨hnext, -⟩ := addResponse_step hindex text
    rw [addResponses_cons, List.mem_cons, not_or, List.flatten_cons, List.length_append]
    refine (and_congr_right' (ih hnext)).trans ?_
    rw [addResponse_eq (show c.writeIndex < writeBufferSize by omega)]
    by_cases hfits : c.writeIndex + text.length < writeBufferSize - 1
    · simp only [if_pos hfits, decide_eq_true hfits]
      exact ⟨fun h => by omega, fun h => ⟨Bool.false_ne_true, by omega⟩⟩
    · simp only [if_neg hfits, decide_eq_false hfits]
      exact ⟨fun h => absurd trivial h.1, fun h => by omega⟩

/-- Behind a text that is refused, one that is not shorter is refused too. -/
theorem addResponses_last_refused (hindex : c.writeIndex ≤ writeBufferSize - 2)
    {texts : List (List UInt8)} {last : List UInt8}
    (hlong : ∀ text ∈ texts, text.length ≤ last.length)
    (hrefused : false ∈ (c.addResponses texts).1) :
    ((c.addResponses texts).2.addResponse last).1 = false := by
  -- a text is refused where there is no room for it, and the room only gets smaller
  have hroom : writeBufferSize - 1 ≤ (c.addResponses texts).2.writeIndex + last.length := by
    induction texts generalizing c with
    | nil => cases hrefused
    | cons text texts ih =>
      obtain ⟨hnext, -⟩ := addResponse_step hindex text
      rw [addResponses_cons] at hrefused ⊢
      rcases List.mem_cons.mp hrefused with hnow | hlater
      · have hle := writeIndex_le_addResponses (c.addResponse text).2 texts
        have hkept := (addResponse_refused hnow.symm).1
        have hfull := addResponse_false hindex hnow.symm
        have hshort := hlong text List.mem_cons_self
        show writeBufferSize - 1 ≤ ((c.addResponse text).2.addResponses texts).2.writeIndex + _
        omega
      · exact ih hnext (fun t ht => hlong t (List.mem_cons_of_mem _ ht)) hlater
  have hlast := (addResponses_spec hindex texts).1
  have hsize : writeBufferSize = 2048 := rfl
  rw [addResponse_eq (by omega)]
  exact decide_eq_false (by omega)

theorem addResponses_concat (c : HttpConn) (texts : List (List UInt8)) (last : List UInt8) :
    c.addResponses (texts ++ [last]) =
      ((c.addResponses texts).1 ++ [((c.addResponses texts).2.addResponse last).1],
        ((c.addResponses texts).2.addResponse last).2) := by
  induction texts generalizing c with
  | nil => rfl
  | cons text texts ih =>
    rw [List.cons_append, addResponses_cons, ih]
    rfl

end Calls

/-! ## The response as a whole -/

/-- `%s %d %s\r\n` in `add_status_line` -/
def statusLine (status : ℤ) (title : List UInt8) : List UInt8 :=
  ascii "HTTP/1.1" ++ ascii " " ++ formatInt status ++ ascii " " ++ title ++ ascii "\r\n"

/-- The texts of the four calls in `add_headers`. -/
def headerPieces (typeText : List UInt8) (linger : Bool) (contentLen : ℤ) : List (List UInt8) :=
  [ascii "Content-Length: " ++ formatInt contentLen ++ ascii "\r\n",
    ascii "Content-Type: " ++ typeText ++ ascii "\r\n",
    ascii "Connection:" ++ (if linger then ascii "keep-alive" else ascii "close") ++
      ascii "\r\n",
    ascii "\r\n"]

/-- The texts of a head. -/
def headPieces (typeText : List UInt8) (c : HttpConn) (status : ℤ) (title : List UInt8)
    (contentLen : ℤ) : List (List UInt8) :=
  statusLine status title :: headerPieces typeText c.linger contentLen

/-- The texts that `process_write` formats, in order. -/
def pieces (typeText : List UInt8) (c : HttpConn) : HttpCode → List (List UInt8)
  | .internalError => errorPieces 500 error500Title error500Form
  | .badRequest => errorPieces 400 error400Title error400Form
  | .noResource => errorPieces 404 error404Title error404Form
  | .forbiddenRequest => errorPieces 403 error403Title error403Form
  | .fileRequest => c.headPieces typeText 200 ok200Title (toInt c.fileStat.stSize)
  | .noRequest | .getRequest | .closedConnection => []
where
  errorPieces (status : ℤ) (title form : List UInt8) : List (List UInt8) :=
    c.headPieces typeText status title (toInt form.length) ++ [form]

/-- A response is reported as built only if its pieces are in `m_write_buf`, one behind the other,
and it is not reported as built if one of them was refused. -/
def ReportsComplete (typeText : List UInt8) (c : HttpConn) (code : HttpCode) : Prop :=
  ((c.processWrite typeText code).1 = true →
      (c.processWrite typeText code).2.head = c.head ++ (c.pieces typeText code).flatten) ∧
    (false ∈ (c.addResponses (c.pieces typeText code)).1 →
      (c.processWrite typeText code).1 = false)

section Response

variable {typeText : List UInt8} {c : HttpConn}

theorem addHeaders_eq (typeText : List UInt8) (c : HttpConn) (contentLen : ℤ) :
    c.addHeaders typeText contentLen =
      (c.addResponses (headerPieces typeText c.linger contentLen)).2 := by
  have htype := (composed_addResponse c
    (ascii "Content-Length: " ++ formatInt contentLen ++ ascii "\r\n")).trans
      (composed_addResponse _ (ascii "Content-Type: " ++ typeText ++ ascii "\r\n"))
  have hlinger := congrArg ReadState.linger htype.toReadState
  unfold addHeaders addContentLength addContentType addLinger addBlankLine
  simp only [hlinger, headerPieces, addResponses_cons, addResponses]

theorem addHead_eq (typeText : List UInt8) (c : HttpConn) (status : ℤ) (title : List UInt8)
    (contentLen : ℤ) :
    (c.addStatusLine status title).2.addHeaders typeText contentLen =
      (c.addResponses (c.headPieces typeText status title contentLen)).2 := by
  have hline : c.addStatusLine status title = c.addResponse (statusLine status title) := rfl
  have hkept := composed_addResponse c (statusLine status title)
  have hlinger := congrArg ReadState.linger hkept.toReadState
  rw [hline, addHeaders_eq, hlinger, headPieces, addResponses_cons]

theorem addError_eq (typeText : List UInt8) (c : HttpConn) (status : ℤ)
    (title form : List UInt8) :
    c.addError typeText status title form =
      (c.addResponses
        (c.headPieces typeText status title (toInt form.length))).2.addResponse form := by
  rw [← addHead_eq]
  rfl

/-- An error response whose page is its longest piece: the result of `add_content` stands for all
of them. -/
theorem reportsComplete_error (hindex : c.writeIndex ≤ writeBufferSize - 2) (status : ℤ)
    (title form : List UInt8)
    (hlong : ∀ text ∈ c.headPieces typeText status title (toInt form.length),
      text.length ≤ form.length) :
    ((processWrite.offered (c.addError typeText status title form)).1 = true →
        (processWrite.offered (c.addError typeText status title form)).2.head =
          c.head ++ (pieces.errorPieces typeText c status title form).flatten) ∧
      (false ∈ (c.addResponses (pieces.errorPieces typeText c status title form)).1 →
        (processWrite.offered (c.addError typeText status title form)).1 = false) := by
  have hcalls := addResponses_concat c
    (c.headPieces typeText status title (toInt form.length)) form
  have hlast : false ∈ (c.addResponses (pieces.errorPieces typeText c status title form)).1 →
      (c.addError typeText status title form).1 = false := by
    intro hrefused
    rw [pieces.errorPieces, hcalls] at hrefused
    rw [addError_eq]
    rcases List.mem_append.mp hrefused with hbefore | hpage
    · exact addResponses_last_refused hindex hlong hbefore
    · exact (List.mem_singleton.mp hpage).symm
  have hfirst : (c.addError typeText status title form).1 = true →
      (c.addError typeText status title form).2.head =
        c.head ++ (pieces.errorPieces typeText c status title form).flatten := by
    intro hbuilt
    have hall : false ∉ (c.addResponses (pieces.errorPieces typeText c status title form)).1 :=
      fun hrefused => Bool.false_ne_true ((hlast hrefused).symm.trans hbuilt)
    rw [← addResponses_all hindex hall, pieces.errorPieces, hcalls, addError_eq]
  generalize c.addError typeText status title form = r at hlast hfirst
  obtain ⟨ok, d⟩ := r
  cases ok with
  | true => exact ⟨hfirst, hlast⟩
  | false => exact ⟨fun h => Bool.noConfusion h, hlast⟩

theorem head_offering (c : HttpConn) : (offering c).head = c.head := rfl

theorem offerFile_pieces (typeText : List UInt8) (c : HttpConn) :
    c.offerFile typeText = (c.addResponses (c.pieces typeText .fileRequest)).2.offering := by
  have hsize : (c.addStatusLine 200 ok200Title).2.fileStat = c.fileStat :=
    (composed_addResponse c _).file.1
  rw [offerFile_eq, hsize, addHead_eq, pieces]

/-- `c'` is `c` after some calls of `add_response` that have composed `text`. -/
structure Holding (c c' : HttpConn) (text : List UInt8) : Prop where
  head : c'.head = text
  room : c'.writeIndex < writeBufferSize
  kept : Composed c c'

theorem Holding.add {c c' : HttpConn} {before : List UInt8} (h : Holding c c' before)
    (text : List UInt8) : Holding c (c'.addResponse text).2 (appendFitting before text) := by
  obtain ⟨hhead, hroom⟩ := head_addResponse h.room text
  exact ⟨by rw [hhead, h.head], hroom, h.kept.trans (composed_addResponse c' text)⟩

theorem Holding.addAll {c c' : HttpConn} {before : List UInt8} (h : Holding c c' before)
    (texts : List (List UInt8)) :
    Holding c (c'.addResponses texts).2 (texts.foldl appendFitting before) := by
  induction texts generalizing c' before with
  | nil => exact h
  | cons text texts ih => exact ih (h.add text)

/-- What `process_write` composes for a file, behind what is in `m_write_buf` already. -/
theorem head_offerFile (typeText : List UInt8) (hroom : c.writeIndex < writeBufferSize) :
    (c.offerFile typeText).head =
      (c.pieces typeText .fileRequest).foldl appendFitting c.head := by
  have hstart : Holding c c c.head :=
    ⟨rfl, hroom, ⟨c.writeBuf, c.writeIndex, rfl, Nat.le_refl _, id⟩⟩
  rw [offerFile_pieces, head_offering, (hstart.addAll _).head]

/-- A file response is always reported as built. -/
theorem reportsComplete_file_iff (hindex : c.writeIndex ≤ writeBufferSize - 2) :
    c.ReportsComplete typeText .fileRequest ↔
      c.writeIndex + (c.pieces typeText .fileRequest).flatten.length ≤ writeBufferSize - 2 := by
  have hhead : (c.offerFile typeText).head =
      (c.addResponses (c.pieces typeText .fileRequest)).2.head := by
    rw [offerFile_pieces, head_offering]
  rw [← addResponses_fit_iff hindex, ReportsComplete, processWrite]
  constructor
  · rintro ⟨-, hrefused⟩ hmem
    exact Bool.noConfusion (hrefused hmem)
  · intro hall
    exact ⟨fun _ => hhead.trans (addResponses_all hindex hall), fun hmem => absurd hmem hall⟩

theorem length_headPieces_le {n : ℕ} (htype : typeText.length ≤ 11) {status : ℤ}
    {title : List UInt8} (hstatus : (statusLine status title).length ≤ n) (hn : 29 ≤ n) (x : ℤ) :
    ∀ text ∈ c.headPieces typeText status title (toInt x), text.length ≤ n := by
  have hcontent := length_formatInt_le x
  have hkeep : (ascii "keep-alive").length = 10 := by decide
  have hclose : (ascii "close").length = 5 := by decide
  have hlinger : (if c.linger then ascii "keep-alive" else ascii "close").length ≤ 10 := by
    split <;> omega
  have hnames : (ascii "Content-Length: ").length = 16 ∧ (ascii "Content-Type: ").length = 14 ∧
      (ascii "Connection:").length = 11 ∧ (ascii "\r\n").length = 2 := by decide
  intro text htext
  simp only [headPieces, headerPieces, List.mem_cons, List.not_mem_nil, or_false] at htext
  rcases htext with rfl | rfl | rfl | rfl | rfl
  · exact hstatus
  all_goals
    simp only [List.length_append, hnames]
    omega

/-- `process_write` is right about whether its response is complete, unless it is a file response
whose head does not fit: `%d` prints at most eleven bytes, so the page is the longest piece of an
error response, and its call is the one whose result is looked at. -/
theorem reportsComplete_iff (typeText : List UInt8) (htype : typeText.length ≤ 11) (c : HttpConn)
    (hindex : c.writeIndex ≤ writeBufferSize - 2) (code : HttpCode) :
    c.ReportsComplete typeText code ↔
      (code = .fileRequest →
        c.writeIndex + (c.pieces typeText code).flatten.length ≤ writeBufferSize - 2) := by
  by_cases hcode : code = .fileRequest
  · subst hcode
    rw [reportsComplete_file_iff hindex]
    exact ⟨fun h _ => h, fun h => h rfl⟩
  · refine iff_of_true ?_ (fun h => absurd h hcode)
    rw [ReportsComplete]
    cases code with
    | fileRequest => exact absurd rfl hcode
    | internalError =>
      rw [processWrite, pieces]
      exact reportsComplete_error hindex 500 error500Title error500Form
        (length_headPieces_le htype (by decide) (by decide) _)
    | badRequest =>
      rw [processWrite, pieces]
      exact reportsComplete_error hindex 400 error400Title error400Form
        (length_headPieces_le htype (by decide) (by decide) _)
    | noResource =>
      rw [processWrite, pieces]
      exact reportsComplete_error hindex 404 error404Title error404Form
        (length_headPieces_le htype (by decide) (by decide) _)
    | forbiddenRequest =>
      rw [processWrite, pieces]
      exact reportsComplete_error hindex 403 error403Title error403Form
        (length_headPieces_le htype (by decide) (by decide) _)
    | noRequest | getRequest | closedConnection =>
      rw [processWrite, pieces]
      exact ⟨fun _ => (List.append_nil _).symm, fun h => absurd h List.not_mem_nil⟩

/-- The response to the first request on a slot, for a file of 100 bytes. -/
theorem reportsComplete_first :
    { new with fileStat := ⟨0o100644, 100⟩ }.ReportsComplete (ascii "4210764") .fileRequest :=
  (reportsComplete_iff (ascii "4210764") (by decide) { new with fileStat := ⟨0o100644, 100⟩ }
    (by decide) .fileRequest).mpr (fun _ => by decide)

/-- With 2040 bytes of earlier responses in `m_write_buf` only the blank line of the head is
appended, and the response is reported as built. -/
theorem blank_line_only :
    let c := { new with fileStat := ⟨0o100644, 100⟩, writeIndex := 2040 }
    c.writeIndex ≤ writeBufferSize - 2 ∧
      (c.addResponses (c.pieces (ascii "4210764") .fileRequest)).1 =
        [false, false, false, false, true] ∧
      (c.processWrite (ascii "4210764") .fileRequest).1 = true ∧
      (c.processWrite (ascii "4210764") .fileRequest).2.writeIndex = 2042 ∧
      ¬ c.ReportsComplete (ascii "4210764") .fileRequest := by
  intro c
  have hcalls : (c.addResponses (c.pieces (ascii "4210764") .fileRequest)).1 =
      [false, false, false, false, true] := by decide +kernel
  refine ⟨by decide, hcalls, rfl, by decide +kernel, fun h => ?_⟩
  have hrefused := h.2 (by rw [hcalls]; exact List.mem_cons_self)
  cases hrefused

end Response

end HttpConn
end Webservers
