import Webservers.HttpConn.ParseTheorems

/-!
# Requests that arrive in segments

`feed` appends segments to `m_read_buf` and calls `process_read` after each, up to the first
result other than `NO_REQUEST`. The head of a request is read the same way however it is cut
(`headRun_append`). The body is not: a call that finds too few bytes looks for lines among those
that are there, and the next call demands `m_content_length` bytes behind the place where that
search stopped. `segmentation_free_iff` gives the exact condition on the segments under which the
outcome is that of the whole string.
-/

namespace Webservers
namespace ReadState

/-- The segments arrive one after the other, each followed by a call of `process_read`. -/
def feed (c : ReadState) : List (List UInt8) → Outcome
  | [] => .noRequest
  | x :: xs =>
    match (c.deliver x).processRead with
    | (.noRequest, c') => feed c' xs
    | res => outcome res

/-- The numbers of bytes received before and after each segment. -/
def cuts (a : ℕ) : List (List UInt8) → List (ℕ × ℕ)
  | [] => []
  | x :: xs => (a, a + x.length) :: cuts (a + x.length) xs

/-- Of the bytes `s`, whose body starts at `H`, the first `a` have been received and searched for
lines: the place where the search stopped. -/
def stopAt (H : ℕ) (s : List UInt8) (a : ℕ) : ℕ := H + (scanBody ((s.take a).drop H)).2

/-- The end of the last line of the body in the first `a` bytes of `s`. -/
def lastLineAt (H : ℕ) (s : List UInt8) (a : ℕ) : ℕ := H + (scanBody ((s.take a).drop H)).1

/-- The body of `s` starts at `H` and `contentLength` bytes of it were announced: cutting the
bytes into these segments makes no difference.

Without overflow, the body is incomplete anyway, or some segment brings all bytes announced
behind the place where the search before it stopped. Where the sum can overflow, it does so at a
line end of the body, or it does so at no place where a search stopped. -/
def BodyUncut (H : ℕ) (contentLength : ℤ) (s : List UInt8) (segs : List (List UInt8)) : Prop :=
  if contentLength + s.length ≤ longMax then
    (s.length : ℤ) < H + contentLength ∨
      ∃ ab ∈ cuts 0 segs, stopAt H s ab.1 + contentLength ≤ ab.2
  else
    longMax < lastLineAt H s s.length + contentLength ∨
      ∀ ab ∈ cuts 0 segs, stopAt H s ab.1 + contentLength ≤ longMax

/-- The condition on the segments: it concerns only requests with a body. -/
def Uncut (segs : List (List UInt8)) : Prop :=
  match headRun 0 Req.init segs.flatten with
  | .body H r _ => BodyUncut H r.contentLength segs.flatten segs
  | _ => True

/-! ## Places in the body -/

section Places

variable {H a : ℕ} {s : List UInt8}

theorem stopAt_le (H : ℕ) (s : List UInt8) (a : ℕ) : stopAt H s a ≤ max H a := by
  have hle := (scanBody_le ((s.take a).drop H)).2
  rw [List.length_drop, List.length_take] at hle
  unfold stopAt
  omega

theorem le_stopAt (H : ℕ) (s : List UInt8) (a : ℕ) : H ≤ stopAt H s a := Nat.le_add_right _ _

theorem le_lastLineAt (H : ℕ) (s : List UInt8) (a : ℕ) : H ≤ lastLineAt H s a :=
  Nat.le_add_right _ _

theorem lastLineAt_le (H : ℕ) (s : List UInt8) (a : ℕ) : lastLineAt H s a ≤ max H a := by
  have hle := scanBody_le ((s.take a).drop H)
  rw [List.length_drop, List.length_take] at hle
  unfold lastLineAt
  omega

/-- Before the body has begun to arrive the search stands at its start. -/
theorem stopAt_head (h : a ≤ H) : stopAt H s a = H := by
  have hnil : (s.take a).drop H = [] := by
    apply List.drop_of_length_le
    rw [List.length_take]
    omega
  rw [stopAt, hnil, scanBody_other (by decide)]
  rfl

theorem lastLineAt_mono {b : ℕ} (h : a ≤ b) : lastLineAt H s a ≤ lastLineAt H s b := by
  have hsplit : (s.take b).drop H = (s.take a).drop H ++ ((s.take b).drop a).drop (H - a) := by
    have htake : s.take b = s.take a ++ (s.take b).drop a := by
      conv => lhs; rw [← List.take_append_drop a (s.take b), List.take_take, Nat.min_eq_left h]
    conv => lhs; rw [htake]
    rw [List.drop_append]
    by_cases hlen : a ≤ s.length
    · rw [List.length_take, Nat.min_eq_left hlen]
    · have hshort : (s.take b).drop a = [] := by
        apply List.drop_of_length_le
        rw [List.length_take]
        omega
      rw [hshort, List.drop_nil, List.drop_nil]
  have hmono := scanBody_append_mono ((s.take a).drop H) (((s.take b).drop a).drop (H - a))
  rw [← hsplit] at hmono
  exact Nat.add_le_add_left hmono H

/-- The bytes of the body up to `a`, and a segment behind them. -/
theorem take_drop_segment {x flat : List UInt8} (hs : s.drop a = x ++ flat) (ha : a ≤ s.length)
    {pos : ℕ} (hpos : pos ≤ a) :
    (s.take (a + x.length)).drop pos = (s.take a).drop pos ++ x := by
  have htake : s.take (a + x.length) = s.take a ++ x := by
    rw [List.take_add, hs, List.take_left]
  rw [htake, List.drop_append_of_le_length (by rw [List.length_take]; omega)]

theorem drop_segment {x flat : List UInt8} (hs : s.drop a = x ++ flat) :
    s.drop (a + x.length) = flat := by
  rw [← List.drop_drop, hs, List.drop_left]

theorem segment_fits {x flat : List UInt8} (hs : s.drop a = x ++ flat) (ha : a ≤ s.length) :
    a + x.length ≤ s.length := by
  have hlength := congrArg List.length hs
  rw [List.length_drop, List.length_append] at hlength
  omega

/-- A call on the next segment goes on from `stopAt`. -/
theorem search_segment {x flat : List UInt8} (hs : s.drop a = x ++ flat) (ha : a ≤ s.length)
    (hH : H ≤ a) :
    stopAt H s a + (scanBody ((s.take a).drop (stopAt H s a) ++ x)).1 =
        max (stopAt H s a) (lastLineAt H s (a + x.length)) ∧
      stopAt H s a + (scanBody ((s.take a).drop (stopAt H s a) ++ x)).2 =
        stopAt H s (a + x.length) := by
  have hsegment := take_drop_segment hs ha hH
  have happend := scanBody_append ((s.take a).drop H) x
  rw [List.drop_drop] at happend
  unfold stopAt lastLineAt
  rw [hsegment]
  omega

end Places

/-! ## Segments in the body -/

/-- With the segment from `ab.1` to `ab.2` the body is accepted. -/
def Accepts (H : ℕ) (contentLength : ℤ) (s : List UInt8) (ab : ℕ × ℕ) : Prop :=
  stopAt H s ab.1 + contentLength ≤ ab.2 ∨
    longMax < max (stopAt H s ab.1) (lastLineAt H s ab.2) + contentLength

instance (H : ℕ) (contentLength : ℤ) (s : List UInt8) :
    DecidablePred (Accepts H contentLength s) := fun _ =>
  inferInstanceAs (Decidable (_ ∨ _))

/-- With a positive length announced, the NUL behind the body spares the target. -/
theorem Req.outcome_positive {r : Req} {u start : ℕ} {path : List UInt8}
    (hr : r.target = some (u, path)) (hlt : u + path.length < start)
    (hpos : 0 < r.contentLength) : r.outcome (some (start + r.contentLength)) = r.outcome none := by
  have hurl : r.url (some (start + r.contentLength)) = r.url none := by
    simp only [Req.url, hr]
    rw [if_pos (by omega), List.take_of_length_le (by omega)]
  rw [Req.outcome, Req.outcome, hurl]

theorem processRead_eq (c : ReadState) : c.processRead = processReadLoop .lineOk c := rfl

section Calls

variable {H a b : ℕ} {s : List UInt8} {c : ReadState} {start pos : ℕ} {r : Req} {l : List UInt8}

/-- One call in the body, after the segment from `a` to `b`: it accepts the request, or the slot
stands where the search of the first `b` bytes stops. -/
theorem body_call (h : BodyAt c start pos r l) (hcl : 0 < r.contentLength)
    (hmax : r.contentLength ≤ longMax) (hread : c.readIndex = b)
    (hpos : pos = stopAt H s a) (hl : l = (s.take b).drop pos)
    (hlast : pos + (scanBody l).1 = max pos (lastLineAt H s b))
    (hstop : pos + (scanBody l).2 = stopAt H s b) :
    (Accepts H r.contentLength s (a, b) ∧
        ∃ c', c.processRead = (.doRequest, c') ∧ outcome (.doRequest, c') = r.outcome none) ∨
      (¬ Accepts H r.contentLength s (a, b) ∧
        ∃ c' start' pos' l', c.processRead = (.noRequest, c') ∧ BodyAt c' start' pos' r l' ∧
          c'.readIndex = b ∧ pos' = stopAt H s b ∧ l' = (s.take b).drop pos') := by
  have hlen : (l.length : ℤ) = b - pos := by
    have heq := h.readIndex
    omega
  have hmin : longMin ≤ r.contentLength := by
    unfold longMin
    omega
  have hfits : pos + l.length ≤ readBufferSize := by
    rw [← h.readIndex]
    exact h.fits
  -- `Accepts` is `bodyRun_accepted_iff` in terms of the whole string
  have haccepts : (∃ start', bodyRun r.contentLength start pos l = .accepted start') ↔
      Accepts H r.contentLength s (a, b) := by
    rw [bodyRun_accepted_iff hmin hmax start pos l hfits]
    unfold Accepts
    simp only
    rw [← hpos]
    omega
  have hresult := processRead_body h
  obtain ⟨u, path, hr, -, -, hlt⟩ := h.target
  cases hrun : bodyRun r.contentLength start pos l with
  | accepted start' =>
    left
    have hstart := bodyRun_accepted_start h.start_le hrun
    rw [hrun] at hresult
    obtain ⟨c', heq, hout, -⟩ := hresult
    refine ⟨haccepts.mp ⟨start', hrun⟩, c', heq, ?_⟩
    rw [hout, Req.outcome_positive hr (by omega) hcl]
  | waiting start' pos' l' =>
    right
    obtain ⟨-, hpos', hl'⟩ := bodyRun_waiting hrun
    have hsearch := (scanBody_le l).2
    rw [hrun] at hresult
    obtain ⟨c', heq, hat, -⟩ := hresult
    refine ⟨?_, c', start', pos', l', heq, hat, ?_, by rw [hpos', hstop], ?_⟩
    · intro hacc
      obtain ⟨start'', hacc'⟩ := haccepts.mpr hacc
      rw [hrun] at hacc'
      cases hacc'
    · rw [hat.readIndex, hpos', hl', List.length_drop]
      omega
    · rw [hl', hpos', ← List.drop_drop, ← hl]

end Calls

/-- Cutting lists the places in order. -/
theorem cuts_bounds {a : ℕ} {segs : List (List UInt8)} {ab : ℕ × ℕ} (h : ab ∈ cuts a segs) :
    a ≤ ab.1 ∧ ab.1 ≤ ab.2 ∧ ab.2 ≤ a + segs.flatten.length := by
  induction segs generalizing a with
  | nil => exact absurd h List.not_mem_nil
  | cons x xs ih =>
    rw [List.flatten_cons, List.length_append]
    rcases List.mem_cons.mp h with rfl | h
    · simp only
      omega
    · have hrest := ih h
      omega

/-- From a slot in the body, the request is accepted with the first segment that `Accepts`
names. -/
theorem feed_body {H : ℕ} {s : List UInt8} (segs : List (List UInt8)) {c : ReadState}
    {start pos : ℕ} {r : Req} {l : List UInt8} (h : BodyAt c start pos r l)
    (hcl : 0 < r.contentLength) (hmax : r.contentLength ≤ longMax)
    (hH : H ≤ c.readIndex) (hpos : pos = stopAt H s c.readIndex)
    (hl : l = (s.take c.readIndex).drop pos) (hs : s.drop c.readIndex = segs.flatten)
    (hread : c.readIndex ≤ s.length) (hfit : s.length ≤ readBufferSize) :
    feed c segs =
      if ∃ ab ∈ cuts c.readIndex segs, Accepts H r.contentLength s ab then r.outcome none
      else .noRequest := by
  induction segs generalizing c start pos l with
  | nil => simp [feed, cuts]
  | cons x xs ih =>
    rw [List.flatten_cons] at hs
    have hlen := segment_fits hs hread
    have hpos_le : pos ≤ c.readIndex := by
      rw [h.readIndex]
      omega
    have hsegment : l ++ x = (s.take (c.readIndex + x.length)).drop pos := by
      rw [take_drop_segment hs hread hpos_le, ← hl]
    obtain ⟨hlast, hstop⟩ := search_segment hs hread hH
    rw [← hpos, ← hl] at hlast hstop
    have hbody := deliver_bodyAt h x (by omega)
    unfold feed
    rw [cuts]
    have hread₁ : (c.deliver x).readIndex = c.readIndex + x.length := rfl
    rcases body_call hbody hcl hmax hread₁ hpos hsegment hlast hstop with
      ⟨hacc, c', heq, hout⟩ | ⟨hnot, c', start', pos', l', heq, hat, hread', hpos', hl'⟩
    · rw [heq, if_pos ⟨_, List.mem_cons_self, hacc⟩]
      exact hout
    · rw [heq]
      simp only
      have hdrop : s.drop c'.readIndex = xs.flatten := by rw [hread', drop_segment hs]
      rw [← hread'] at hpos' hl'
      rw [ih hat (by omega) hpos' hl' hdrop (by omega), hread']
      congr 1
      simp only [List.mem_cons, exists_eq_or_imp, hnot, false_or]

/-! ## Segments in the head -/

/-- What feeding the segments comes to, when `found` is what `headRun` says of all bytes. -/
def Fed (c : ReadState) (s : List UInt8) (segs : List (List UInt8)) : Found → Prop
  | .waiting _ _ _ => feed c segs = .noRequest
  | .bad => feed c segs = .badRequest
  | .complete r => feed c segs = r.outcome none
  | .body H r _ =>
    (r.contentLength < 0 → feed c segs = r.outcome (some (H + r.contentLength))) ∧
      (0 < r.contentLength → feed c segs =
        if ∃ ab ∈ cuts c.readIndex segs, H ≤ ab.2 ∧ Accepts H r.contentLength s ab then
          r.outcome none
        else .noRequest)

section Completed

variable {c c₁ : ReadState} {H : ℕ} {r : Req} {x rest s : List UInt8} {xs : List (List UInt8)}

/-- The head is complete and a negative length was announced: the first comparison accepts. -/
theorem feed_negative (hcall : (c.deliver x).processRead = c₁.processRead)
    (hbody : BodyAt c₁ H H r rest) (hmin : longMin ≤ r.contentLength)
    (hneg : r.contentLength < 0) :
    feed c (x :: xs) = r.outcome (some (H + r.contentLength)) := by
  have hmax : r.contentLength ≤ longMax := by
    unfold longMax
    omega
  have hfits : H + rest.length ≤ readBufferSize := by
    rw [← hbody.readIndex]
    exact hbody.fits
  have htest := (toLong_le_iff hmin hmax H (H + rest.length) (by omega) hfits).mpr
    (Or.inl (by omega))
  have haccepted : bodyRun r.contentLength H H rest = .accepted H := by
    rw [bodyRun, if_pos htest]
  have hresult := processRead_body hbody
  rw [haccepted] at hresult
  obtain ⟨c', heq, hout, -⟩ := hresult
  have heq' : c₁.processRead = (.doRequest, c') := heq
  rw [feed, hcall, heq']
  exact hout

/-- The head is complete and a body was announced: the request is accepted with the first segment
from here on that `Accepts` names. -/
theorem feed_positive (hcall : (c.deliver x).processRead = c₁.processRead)
    (hbody : BodyAt c₁ H H r rest) (hcl : 0 < r.contentLength) (hmax : r.contentLength ≤ longMax)
    (hread : c₁.readIndex = c.readIndex + x.length) (hH : c.readIndex ≤ H)
    (hrest : rest = (s.take (c.readIndex + x.length)).drop H)
    (hs : s.drop c.readIndex = x ++ xs.flatten) (hlen : c.readIndex + x.length ≤ s.length)
    (hfit : s.length ≤ readBufferSize) :
    feed c (x :: xs) =
      if ∃ ab ∈ cuts c.readIndex (x :: xs), H ≤ ab.2 ∧ Accepts H r.contentLength s ab then
        r.outcome none
      else .noRequest := by
  have hHle : H ≤ c.readIndex + x.length := by
    rw [← hread, hbody.readIndex]
    omega
  have hpos : H = stopAt H s c.readIndex := (stopAt_head hH).symm
  have hlast : H + (scanBody rest).1 = max H (lastLineAt H s (c.readIndex + x.length)) := by
    rw [lastLineAt, ← hrest]
    omega
  have hstop : H + (scanBody rest).2 = stopAt H s (c.readIndex + x.length) := by
    rw [stopAt, ← hrest]
  rw [feed, cuts, hcall]
  rcases body_call hbody hcl hmax hread hpos hrest hlast hstop with
    ⟨hacc, c', heq, hout⟩ | ⟨hnot, c', start', pos', l', heq, hat, hread', hpos', hl'⟩
  · have hin : ∃ ab ∈ (c.readIndex, c.readIndex + x.length) :: cuts (c.readIndex + x.length) xs,
        H ≤ ab.2 ∧ Accepts H r.contentLength s ab :=
      ⟨_, List.mem_cons_self, hHle, hacc⟩
    rw [heq, if_pos hin]
    exact hout
  · have hdrop : s.drop c'.readIndex = xs.flatten := by rw [hread', drop_segment hs]
    rw [← hread'] at hpos' hl'
    rw [heq]
    simp only
    rw [feed_body xs hat hcl hmax (by omega) hpos' hl' hdrop (by omega) hfit, hread']
    -- this segment was not accepted, and all later ones end behind the head
    have hiff : (∃ ab ∈ cuts (c.readIndex + x.length) xs, Accepts H r.contentLength s ab) ↔
        ∃ ab ∈ (c.readIndex, c.readIndex + x.length) :: cuts (c.readIndex + x.length) xs,
          H ≤ ab.2 ∧ Accepts H r.contentLength s ab := by
      constructor
      · intro hex
        obtain ⟨ab, hmem, hacc⟩ := hex
        have hbounds := cuts_bounds hmem
        exact ⟨ab, List.mem_cons_of_mem _ hmem, by omega, hacc⟩
      · intro hex
        obtain ⟨ab, hmem, -, hacc⟩ := hex
        rcases List.mem_cons.mp hmem with rfl | hmem
        · exact absurd hacc hnot
        · exact ⟨ab, hmem, hacc⟩
    simp only [hiff]

end Completed

/-- The call that completes the head and finds a body. -/
theorem fed_body {c : ReadState} {pos H : ℕ} {r r' : Req} {l x rest : List UInt8}
    {xs : List (List UInt8)} {s : List UInt8} (h : HeadAt c pos r l)
    (hr : longMin ≤ r.contentLength ∧ r.contentLength ≤ longMax)
    (hw : (scanLine l).1 ≠ .lineOk) (hrun : headRun pos r (l ++ x) = .body H r' rest)
    (hl : l = (s.take c.readIndex).drop pos) (hs : s.drop c.readIndex = x ++ xs.flatten)
    (hlen : c.readIndex + x.length ≤ s.length) (hfit : s.length ≤ readBufferSize) :
    Fed c s (x :: xs) (.body H r' (rest ++ xs.flatten)) := by
  have hresult := processRead_head (deliver_headAt h x (by omega))
  rw [hrun] at hresult
  obtain ⟨c₁, hloop, hwithin, hbody⟩ := hresult
  have hcall : (c.deliver x).processRead = c₁.processRead := hloop
  have hread : c₁.readIndex = c.readIndex + x.length := hwithin.readIndex
  obtain ⟨hrange, -, hline, hH, hle, hrest⟩ := headRun_body hrun hr
  have hcompleted := scanLine_completed hw hline
  have hreadIndex := h.readIndex
  have hrest' : rest = (s.take (c.readIndex + x.length)).drop H := by
    rw [hrest, hl, ← take_drop_segment hs (by omega) (by omega), List.drop_drop]
    congr 1
    omega
  refine ⟨fun hneg => feed_negative hcall hbody hrange.1 hneg, fun hcl => ?_⟩
  exact feed_positive hcall hbody hcl hrange.2 hread (by omega) hrest' hs hlen hfit

/-- A segment that leaves the head incomplete only passes on what the later ones come to. -/
theorem Fed.of_waiting {c c' : ReadState} {s x : List UInt8} {xs : List (List UInt8)}
    {found : Found} (h : Fed c' s xs found) (hfeed : feed c (x :: xs) = feed c' xs)
    (hread : c'.readIndex = c.readIndex + x.length)
    (hbody : ∀ H r rest, found = .body H r rest → c'.readIndex < H) : Fed c s (x :: xs) found := by
  cases found with
  | waiting pos r l => exact hfeed.trans h
  | bad => exact hfeed.trans h
  | complete r => exact hfeed.trans h
  | body H r rest =>
    obtain ⟨hneg, hpos⟩ := h
    refine ⟨fun hcl => hfeed.trans (hneg hcl), fun hcl => ?_⟩
    have hlater : ¬ H ≤ c.readIndex + x.length := by
      have hlt := hbody H r rest rfl
      omega
    rw [hfeed, hpos hcl, cuts, hread]
    congr 1
    simp only [List.mem_cons, exists_eq_or_imp, hlater, false_and, false_or]

/-- From a slot that waits in the head, feeding segments comes to what `headRun` says. -/
theorem feed_head {s : List UInt8} (segs : List (List UInt8)) {c : ReadState} {pos : ℕ} {r : Req}
    {l : List UInt8} (h : HeadAt c pos r l)
    (hr : longMin ≤ r.contentLength ∧ r.contentLength ≤ longMax)
    (hw : (scanLine l).1 ≠ .lineOk) (hl : l = (s.take c.readIndex).drop pos)
    (hs : s.drop c.readIndex = segs.flatten) (hread : c.readIndex ≤ s.length)
    (hfit : s.length ≤ readBufferSize) : Fed c s segs (headRun pos r (l ++ segs.flatten)) := by
  induction segs generalizing c pos r l with
  | nil =>
    rw [List.flatten_nil, List.append_nil, headRun, dif_neg hw]
    rfl
  | cons x xs ih =>
    rw [List.flatten_cons] at hs ⊢
    have hlen := segment_fits hs hread
    have hreadIndex := h.readIndex
    have hresult := processRead_head (deliver_headAt h x (by omega))
    rw [← List.append_assoc, headRun_append]
    cases hrun : headRun pos r (l ++ x) with
    | body H r' rest => exact fed_body h hr hw hrun hl hs hlen hfit
    | bad =>
      rw [hrun] at hresult
      obtain ⟨c', heq, -⟩ := hresult
      show feed c (x :: xs) = .badRequest
      rw [feed, processRead_eq, heq]
      rfl
    | complete r' =>
      rw [hrun] at hresult
      obtain ⟨c', heq, -, hout⟩ := hresult
      show feed c (x :: xs) = r'.outcome none
      rw [feed, processRead_eq, heq]
      exact hout
    | waiting pos' r' l' =>
      rw [hrun] at hresult
      obtain ⟨c', heq, hwithin, hat⟩ := hresult
      obtain ⟨hr', hw', hle, hl'⟩ := headRun_waiting hrun hr
      have hread' : c'.readIndex = c.readIndex + x.length := hwithin.readIndex
      have hfeed : feed c (x :: xs) = feed c' xs := by
        rw [feed, processRead_eq, heq]
      have hdrop : s.drop c'.readIndex = xs.flatten := by rw [hread', drop_segment hs]
      have hl'' : l' = (s.take c'.readIndex).drop pos' := by
        rw [hl', hl, ← take_drop_segment hs hread (by omega), hread', List.drop_drop]
        congr 1
        omega
      have hrec := ih hat hr' hw' hl'' hdrop (by omega)
      refine Fed.of_waiting hrec hfeed hread' (fun H r'' rest hfound => ?_)
      -- the line that waits is completed later, so the body starts behind it
      obtain ⟨-, -, hline, hH, -⟩ := headRun_body hfound hr'
      have hcompleted := scanLine_completed hw' hline
      have heq' := hat.readIndex
      omega

/-! ## Cut and uncut -/

theorem feed_whole (c : ReadState) (s : List UInt8) :
    feed c [s] = outcome (c.deliver s).processRead := by
  rw [feed]
  split
  · rename_i heq
    rw [heq]
    rfl
  · rfl

/-- The last segment ends behind all bytes. -/
theorem cuts_last {segs : List (List UInt8)} (h : segs ≠ []) (a : ℕ) :
    ∃ b, (b, a + segs.flatten.length) ∈ cuts a segs := by
  induction segs generalizing a with
  | nil => exact absurd rfl h
  | cons x xs ih =>
    rw [List.flatten_cons, List.length_append, ← Nat.add_assoc]
    by_cases hxs : xs = []
    · subst hxs
      exact ⟨a, List.mem_cons_self⟩
    · obtain ⟨b, hb⟩ := ih hxs (a + x.length)
      exact ⟨b, List.mem_cons_of_mem _ hb⟩

section Cut

variable {H : ℕ} {contentLength : ℤ} {s : List UInt8} {segs : List (List UInt8)}

theorem exists_last_cut (hs : s = segs.flatten) (hpos : 0 < s.length) :
    ∃ b, (b, s.length) ∈ cuts 0 segs ∧ b ≤ s.length := by
  have hsegs : segs ≠ [] := by
    intro hnil
    rw [hs, hnil, List.flatten_nil] at hpos
    exact Nat.lt_irrefl 0 hpos
  obtain ⟨b, hb⟩ := cuts_last hsegs 0
  rw [← hs, Nat.zero_add] at hb
  exact ⟨b, hb, (cuts_bounds hb).2.1⟩

/-- Some segment makes the request complete. -/
def AcceptedIn (H : ℕ) (contentLength : ℤ) (s : List UInt8) (segs : List (List UInt8)) : Prop :=
  ∃ ab ∈ cuts 0 segs, H ≤ ab.2 ∧ Accepts H contentLength s ab

instance (H : ℕ) (contentLength : ℤ) (s : List UInt8) (segs : List (List UInt8)) :
    Decidable (AcceptedIn H contentLength s segs) :=
  inferInstanceAs (Decidable (∃ ab ∈ cuts 0 segs, H ≤ ab.2 ∧ Accepts H contentLength s ab))

/-- In one piece, all bytes announced have to be there behind the head. -/
theorem acceptedIn_whole (hH : H ≤ s.length) :
    AcceptedIn H contentLength s [s] ↔
      (H : ℤ) + contentLength ≤ s.length ∨
        longMax < lastLineAt H s s.length + contentLength := by
  have hle := le_lastLineAt H s s.length
  unfold AcceptedIn
  simp only [cuts, List.mem_singleton, exists_eq_left, Accepts, Nat.zero_add,
    stopAt_head (Nat.zero_le H)]
  omega

/-- While no sum can overflow, a segment must bring the whole body behind a search. -/
theorem acceptedIn_iff_bounded (hs : s = segs.flatten) (hH : H ≤ s.length)
    (hcl : 0 < contentLength) (hbound : contentLength + s.length ≤ longMax) :
    AcceptedIn H contentLength s segs ↔
      ∃ ab ∈ cuts 0 segs, stopAt H s ab.1 + contentLength ≤ ab.2 := by
  constructor
  · intro hacc
    obtain ⟨ab, hmem, -, hab⟩ := hacc
    have hcut := cuts_bounds hmem
    rw [← hs] at hcut
    have hstop := stopAt_le H s ab.1
    have hline := lastLineAt_le H s ab.2
    refine ⟨ab, hmem, ?_⟩
    rcases hab with hab | hab
    · exact hab
    · omega
  · intro hex
    obtain ⟨ab, hmem, hab⟩ := hex
    have hle := le_stopAt H s ab.1
    exact ⟨ab, hmem, by omega, Or.inl hab⟩

theorem uncut_iff_bounded (hs : s = segs.flatten) (hH : H ≤ s.length) (hcl : 0 < contentLength)
    (hbound : contentLength + s.length ≤ longMax) :
    (AcceptedIn H contentLength s segs ↔ AcceptedIn H contentLength s [s]) ↔
      BodyUncut H contentLength s segs := by
  have hline := lastLineAt_le H s s.length
  rw [acceptedIn_iff_bounded hs hH hcl hbound, acceptedIn_whole hH, BodyUncut, if_pos hbound]
  constructor
  · intro hiff
    by_cases hwhole : (H : ℤ) + contentLength ≤ s.length
    · exact Or.inr (hiff.mpr (Or.inl hwhole))
    · exact Or.inl (by omega)
  · intro huncut
    constructor
    · -- what suffices in pieces suffices in one piece
      intro hex
      obtain ⟨ab, hmem, hab⟩ := hex
      have hcut := cuts_bounds hmem
      rw [← hs] at hcut
      have hle := le_stopAt H s ab.1
      left
      omega
    · intro hwhole
      rcases huncut with hshort | hex
      · omega
      · exact hex

/-- Where the sum can overflow the body is longer than the buffer, and only an overflow makes
the request complete. -/
theorem uncut_iff_overflow (hs : s = segs.flatten) (hH : H ≤ s.length) (hpos : 0 < H)
    (hlen : s.length < readBufferSize) (hbound : ¬ contentLength + s.length ≤ longMax) :
    (AcceptedIn H contentLength s segs ↔ AcceptedIn H contentLength s [s]) ↔
      BodyUncut H contentLength s segs := by
  have hlong : (longMax : ℤ) = 9223372036854775807 := by decide
  have hsize : readBufferSize = 2048 := rfl
  obtain ⟨b, hb, -⟩ := exists_last_cut hs (by omega)
  have hfirst := le_lastLineAt H s s.length
  rw [acceptedIn_whole hH, BodyUncut, if_neg hbound]
  by_cases hover : longMax < lastLineAt H s s.length + contentLength
  · have hacc : AcceptedIn H contentLength s segs :=
      ⟨_, hb, hH, Or.inr (by simp only; omega)⟩
    simp only [hacc, hover, or_true, true_or]
  · have hshort : ¬ (H : ℤ) + contentLength ≤ s.length := by omega
    simp only [hshort, hover, or_self, iff_false, false_or]
    constructor
    · intro hnone ab hmem
      by_contra habove
      have hcut := cuts_bounds hmem
      by_cases hafter : H ≤ ab.2
      · exact hnone ⟨ab, hmem, hafter, Or.inr (by omega)⟩
      · rw [stopAt_head (by omega)] at habove
        omega
    · intro hall hacc
      obtain ⟨ab, hmem, -, hab⟩ := hacc
      have hcut := cuts_bounds hmem
      rw [← hs] at hcut
      have hmono := lastLineAt_mono (H := H) (s := s) (show ab.2 ≤ s.length by omega)
      have hstop := hall ab hmem
      rcases hab with hab | hab <;> omega

/-- A negative length is satisfied at once, however the bytes are cut. -/
theorem bodyUncut_of_neg (hs : s = segs.flatten) (hH : H ≤ s.length) (hpos : 0 < H)
    (hlen : s.length < readBufferSize) (hneg : contentLength < 0) :
    BodyUncut H contentLength s segs := by
  have hlong : (longMax : ℤ) = 9223372036854775807 := by decide
  have hsize : readBufferSize = 2048 := rfl
  obtain ⟨b, hb, hle⟩ := exists_last_cut hs (by omega)
  have hstop := stopAt_le H s b
  rw [BodyUncut, if_pos (by omega)]
  exact Or.inr ⟨_, hb, by simp only; omega⟩

end Cut

/-- Cutting a request into segments leaves its outcome as it is exactly when the segments are
`Uncut`. -/
theorem segmentation_free_iff (segs : List (List UInt8))
    (hlen : segs.flatten.length < readBufferSize) :
    feed init segs = outcome (init.deliver segs.flatten).processRead ↔ Uncut segs := by
  have hr : longMin ≤ Req.init.contentLength ∧ Req.init.contentLength ≤ longMax := by decide
  have hcut := feed_head (s := segs.flatten) segs headAt_init hr (by decide) rfl rfl
    (Nat.zero_le _) (Nat.le_of_lt hlen)
  have hone := feed_head (s := segs.flatten) [segs.flatten] headAt_init hr (by decide) rfl
    (by simp [init]) (Nat.zero_le _) (Nat.le_of_lt hlen)
  rw [List.flatten_singleton] at hone
  rw [← feed_whole, Uncut]
  cases hfound : headRun 0 Req.init segs.flatten with
  | waiting _ _ _ =>
    rw [List.nil_append, hfound] at hcut hone
    exact iff_of_true (Eq.trans hcut (Eq.symm hone)) trivial
  | bad =>
    rw [List.nil_append, hfound] at hcut hone
    exact iff_of_true (Eq.trans hcut (Eq.symm hone)) trivial
  | complete r =>
    rw [List.nil_append, hfound] at hcut hone
    exact iff_of_true (Eq.trans hcut (Eq.symm hone)) trivial
  | body H r rest =>
    rw [List.nil_append, hfound] at hcut hone
    obtain ⟨hneg, hpos⟩ := hcut
    obtain ⟨hneg', hpos'⟩ := hone
    obtain ⟨-, hne, -, hH, hle, -⟩ := headRun_body hfound hr
    rw [Nat.zero_add] at hle
    -- a negative length is accepted at once, a positive one waits for its bytes
    rcases Int.lt_or_gt_of_ne hne with hcl | hcl
    · exact iff_of_true ((hneg hcl).trans (hneg' hcl).symm)
        (bodyUncut_of_neg rfl hle (by omega) hlen hcl)
    · have hpieces : feed init segs =
          if AcceptedIn H r.contentLength segs.flatten segs then r.outcome none
          else .noRequest := hpos hcl
      have hwhole : feed init [segs.flatten] =
          if AcceptedIn H r.contentLength segs.flatten [segs.flatten] then r.outcome none
          else .noRequest := hpos' hcl
      -- both ways of feeding end alike exactly when both accept or neither does
      have hiff : feed init segs = feed init [segs.flatten] ↔
          (AcceptedIn H r.contentLength segs.flatten segs ↔
            AcceptedIn H r.contentLength segs.flatten [segs.flatten]) := by
        rw [hpieces, hwhole]
        by_cases hp : AcceptedIn H r.contentLength segs.flatten segs <;>
          by_cases hw : AcceptedIn H r.contentLength segs.flatten [segs.flatten] <;>
          simp [hp, hw, Req.outcome]
      rw [hiff]
      by_cases hbound : r.contentLength + segs.flatten.length ≤ longMax
      · exact uncut_iff_bounded rfl hle hcl hbound
      · exact uncut_iff_overflow rfl hle (by omega) hlen hbound

/-- A request with a body of five bytes, in two segments. -/
def helloSegments (k : ℕ) : List (List UInt8) :=
  let s := ascii "GET /a HTTP/1.1\r\nContent-Length: 5\r\n\r\nhello"
  [s.take k, s.drop k]

/-- Cut in the head, where the body arrives whole. -/
theorem segmentation_free_head :
    (helloSegments 20).flatten.length < readBufferSize ∧
      (feed init (helloSegments 20) =
          outcome (init.deliver (helloSegments 20).flatten).processRead ↔
        Uncut (helloSegments 20)) ∧
      feed init (helloSegments 20) = .doRequest (ascii "/a") false 5 :=
  ⟨by decide +kernel, segmentation_free_iff _ (by decide +kernel), by decide +kernel⟩

/-- Cut in the body: two of its five bytes have been searched when the others arrive, and behind
them there are no five. -/
theorem body_cut_in_two_waits :
    outcome (init.deliver (helloSegments 40).flatten).processRead =
        .doRequest (ascii "/a") false 5 ∧
      feed init (helloSegments 40) = .noRequest := by
  decide +kernel

end ReadState
end Webservers
