import Webservers.HttpConn.ParseTheorems
import Webservers.Lib.Machine

/-!
# Malformed lines

Bytes arrive in segments on a slot that was just reset, and after each of them a worker calls
`process_read`. `receive` is one segment and a call that asks for more; `Received` says what has
become of the bytes by then.

The loop of `process_read` ends when `parse_line` does not report `LINE_OK`, and nothing is done
about the reason: a malformed line is answered with `NO_REQUEST`, like an incomplete one.
`lines_honoured_iff` says which bytes are handled as the two results ask for.
-/

namespace Webservers
namespace ReadState

/-! ## Segments -/

/-- A segment arrives and `process_read` returns `NO_REQUEST`. -/
def receive (c : ReadState) (x : List UInt8) : Option ReadState :=
  if c.readIndex + x.length ≤ readBufferSize then
    match (c.deliver x).processRead with
    | (.noRequest, c') => some c'
    | _ => none
  else none

theorem receive_eq_some {c c' : ReadState} {x : List UInt8} (h : c.receive x = some c') :
    c.readIndex + x.length ≤ readBufferSize ∧
      (c.deliver x).processRead = (.noRequest, c') := by
  unfold receive at h
  split at h
  · rename_i hfit
    split at h <;> cases h
    exact ⟨hfit, by assumption⟩
  · cases h

/-- The slot stands in the head or in the body of the request that the bytes `s` begin. -/
structure Received (c : ReadState) (s : List UInt8) : Prop where
  readIndex : c.readIndex = s.length
  place : (∃ pos r l, HeadAt c pos r l ∧ headRun 0 Req.init s = .waiting pos r l) ∨
    ∃ start pos r l H rest, BodyAt c start pos r l ∧ headRun 0 Req.init s = .body H r rest

theorem received_init : Received init [] where
  readIndex := rfl
  place := Or.inl ⟨0, Req.init, [], headAt_init, by rw [headRun, dif_neg (by decide)]⟩

theorem reqInit_range :
    longMin ≤ Req.init.contentLength ∧ Req.init.contentLength ≤ longMax := by decide

section Call

variable {c c' : ReadState} {s x : List UInt8}

/-- The next call begins in the head, and ends as `headRun` says of all bytes, or in the body. -/
theorem Received.call (h : Received c s) (hfit : c.readIndex + x.length ≤ readBufferSize) :
    HeadResult (c.deliver x) (headRun 0 Req.init (s ++ x)) ∨
      ∃ start pos r l H rest, BodyAt (c.deliver x) start pos r l ∧
        headRun 0 Req.init (s ++ x) = .body H r rest := by
  rcases h.place with ⟨pos, r, l, hat, hrun⟩ | ⟨start, pos, r, l, H, rest, hat, hrun⟩
  · left
    rw [headRun_append, hrun]
    exact processRead_head (deliver_headAt hat x hfit)
  · right
    refine ⟨start, pos, r, l ++ x, H, rest ++ x, deliver_bodyAt hat x hfit, ?_⟩
    rw [headRun_append, hrun]
    rfl

/-- A body that is not accepted is still a body, with too few bytes behind what was searched. -/
theorem BodyAt.waits {start pos : ℕ} {r : Req} {l : List UInt8} (h : BodyAt c start pos r l)
    (hr : longMin ≤ r.contentLength ∧ r.contentLength ≤ longMax)
    (hcall : c.processRead = (.noRequest, c')) :
    ∃ start' pos' l', BodyAt c' start' pos' r l' ∧ c'.readIndex = c.readIndex ∧
      (c'.readIndex : ℤ) < c'.contentLength + c'.checkedIndex := by
  have hresult := processRead_body h
  have hread := h.readIndex
  have hfits := h.fits
  cases hrun : bodyRun r.contentLength start pos l with
  | accepted start' =>
    rw [hrun] at hresult
    obtain ⟨c'', heq, -⟩ := hresult
    cases Eq.trans heq.symm hcall
  | waiting start' pos' l' =>
    rw [hrun] at hresult
    obtain ⟨c'', heq, hat, -⟩ := hresult
    have hsame : c'' = c' := congrArg Prod.snd (Eq.trans heq.symm hcall)
    subst hsame
    -- the body would have been accepted had all bytes announced been there
    have hshort : ¬ r.contentLength ≤ l.length := by
      intro hall
      have haccepted := (bodyRun_accepted_iff hr.1 hr.2 start pos l (by omega)).mpr (Or.inl hall)
      rw [hrun] at haccepted
      obtain ⟨_, habs⟩ := haccepted
      cases habs
    obtain ⟨-, hpos, hl⟩ := bodyRun_waiting hrun
    have hsearch := (scanBody_le l).2
    have hread' := hat.readIndex
    rw [hl, List.length_drop] at hread'
    refine ⟨start', pos', l', hat, by omega, ?_⟩
    rw [hat.contentLength, hat.checked]
    omega

theorem Received.receive (h : Received c s) (hx : c.receive x = some c') :
    Received c' (s ++ x) := by
  obtain ⟨hfit, hcall⟩ := receive_eq_some hx
  have hread : (c.deliver x).readIndex = (s ++ x).length := by
    show c.readIndex + x.length = _
    rw [h.readIndex, List.length_append]
  have hbody : ∀ {d : ReadState} {start pos : ℕ} {r : Req} {l rest : List UInt8} {H : ℕ},
      d.readIndex = (s ++ x).length → d.processRead = (.noRequest, c') →
      BodyAt d start pos r l → headRun 0 Req.init (s ++ x) = .body H r rest →
      Received c' (s ++ x) := by
    intro d start pos r l rest H hd hcall' hat hrun
    obtain ⟨start', pos', l', hat', hread', -⟩ :=
      hat.waits (headRun_body hrun reqInit_range).1 hcall'
    exact ⟨hread'.trans hd, Or.inr ⟨start', pos', r, l', H, rest, hat', hrun⟩⟩
  rcases h.call hfit with hresult | ⟨start, pos, r, l, H, rest, hat, hrun⟩
  · cases hrun : headRun 0 Req.init (s ++ x) with
    | waiting pos r l =>
      rw [hrun] at hresult
      obtain ⟨c'', heq, hwithin, hat⟩ := hresult
      have hsame : c'' = c' := congrArg Prod.snd (Eq.trans heq.symm hcall)
      subst hsame
      exact ⟨hwithin.readIndex.trans hread, Or.inl ⟨pos, r, l, hat, hrun⟩⟩
    | bad =>
      rw [hrun] at hresult
      obtain ⟨c'', heq, -⟩ := hresult
      cases Eq.trans heq.symm hcall
    | complete r =>
      rw [hrun] at hresult
      obtain ⟨c'', heq, -⟩ := hresult
      cases Eq.trans heq.symm hcall
    | body H r rest =>
      rw [hrun] at hresult
      obtain ⟨c'', heq, hwithin, hat⟩ := hresult
      exact hbody (hwithin.readIndex.trans hread) (Eq.trans heq.symm hcall) hat hrun
  · exact hbody hread hcall hat hrun

end Call

/-- Whatever the segments, the slot stands where their bytes say. -/
theorem exec_receive {segs : List (List UInt8)} {c : ReadState}
    (h : Machine.exec receive init segs = some c) : Received c segs.flatten := by
  have hrun : ∀ (segs : List (List UInt8)) (c₀ : ReadState) (s : List UInt8), Received c₀ s →
      Machine.exec receive c₀ segs = some c → Received c (s ++ segs.flatten) := by
    intro segs
    induction segs with
    | nil =>
      intro c₀ s hc₀ hexec
      cases hexec
      rw [List.flatten_nil, List.append_nil]
      exact hc₀
    | cons x xs ih =>
      intro c₀ s hc₀ hexec
      obtain ⟨c₁, hx, hrest⟩ := Machine.exec_cons_eq_some.mp hexec
      rw [List.flatten_cons, ← List.append_assoc]
      exact ih c₁ (s ++ x) (hc₀.receive hx) hrest
  exact hrun segs init [] received_init h

/-! ## What `parse_line` reports -/

set_option linter.unusedVariables false in
/-- The results of `parse_line` in the loop of `process_read`, each with `m_check_state` at the
call. -/
def lineReports (lineStatus : LineStatus) (c : ReadState) : List (CheckState × LineStatus) :=
  if hcontent : c.checkState = .content ∧ lineStatus = .lineOk then
    match hswitch : c.mainSwitch with
    | .inl _ => []
    | .inr (status, c') => lineReports status c'
  else
    match hline : c.parseLine with
    | (.lineOk, c') =>
      match hswitch : c'.mainSwitch with
      | .inl _ => [(c.checkState, .lineOk)]
      | .inr (status, c'') => (c.checkState, .lineOk) :: lineReports status c''
    | (.lineBad, _) => [(c.checkState, .lineBad)]
    | (.lineOpen, _) => [(c.checkState, .lineOpen)]
termination_by 2 * (c.readIndex - c.checkedIndex) + (if lineStatus = .lineOk then 1 else 0)
decreasing_by
  · obtain ⟨hchecked, hread, hstatus⟩ := mainSwitch_continue hswitch
    rw [hchecked, hread, hstatus hcontent.1, hcontent.2]
    simp
  · obtain ⟨hchecked, hread, -⟩ := mainSwitch_continue hswitch
    obtain ⟨hlt, hle, hread'⟩ := parseLine_progress hline
    rw [hchecked, hread]
    split <;> omega

/-- The body announced has not been received behind `m_checked_index`. -/
def BodyIncomplete (c : ReadState) : Prop :=
  c.checkState = .content ∧ (c.readIndex : ℤ) < c.contentLength + c.checkedIndex

/-- A call of `process_read` that returns `NO_REQUEST` for an incomplete line or body only, and
`BAD_REQUEST` for every malformed line of the head. -/
def LinesHonoured (c : ReadState) : Prop :=
  (c.processRead.1 = .noRequest →
      (c.lineReports .lineOk).getLast?.map Prod.snd = some .lineOpen ∨
        BodyIncomplete c.processRead.2) ∧
    ∀ report ∈ c.lineReports .lineOk, report.1 ≠ .content → report.2 = .lineBad →
      c.processRead.1 = .badRequest

/-- Reading the head has come to a CR without an LF or to an LF without a CR. -/
def Stuck : Found → Prop
  | .waiting _ _ l => (scanLine l).1 = .lineBad
  | _ => False

instance : DecidablePred Stuck := fun
  | .waiting _ _ _ => inferInstanceAs (Decidable (_ = _))
  | .bad | .complete _ | .body _ _ _ => inferInstanceAs (Decidable False)

/-- The lines of the head of `s`, as far as they are read, end with a malformed one. -/
def Malformed (s : List UInt8) : Prop := Stuck (headRun 0 Req.init s)

instance : DecidablePred Malformed := fun _ => inferInstanceAs (Decidable (Stuck _))

/-- `parse_line` stops where it would stop again, in the same state of the main machine. -/
theorem parseLine_stops {c c' : ReadState} {status : LineStatus}
    (h : c.parseLine = (status, c')) (hstatus : status ≠ .lineOk) :
    c'.parseLine = (status, c') ∧ c'.checkState = c.checkState := by
  fun_induction parseLine c with
  | case1 c hlt temp hcr hlast =>
    cases h
    rw [parseLine, if_pos hlt, if_pos hcr, if_pos hlast]
    exact ⟨rfl, rfl⟩
  | case2 c hlt temp hcr hlast hlf =>
    cases h
    exact absurd rfl hstatus
  | case3 c hlt temp hcr hlast hlf =>
    cases h
    rw [parseLine, if_pos hlt, if_pos hcr, if_neg hlast, if_neg hlf]
    exact ⟨rfl, rfl⟩
  | case4 c hlt temp hcr hlf hprev =>
    cases h
    exact absurd rfl hstatus
  | case5 c hlt temp hcr hlf hprev =>
    cases h
    rw [parseLine, if_pos hlt, if_neg hcr, if_pos hlf, if_neg hprev]
    exact ⟨rfl, rfl⟩
  | case6 c hlt temp hcr hlf ih => exact ih h
  | case7 c hge =>
    cases h
    rw [parseLine, if_neg hge]
    exact ⟨rfl, rfl⟩

/-- How the reports of a call end: with a line that is not complete where the call returns
`NO_REQUEST`, and with a complete one otherwise. -/
def ReportsEnd (reports : List (CheckState × LineStatus)) : ParseResult × ReadState → Prop
  | (.noRequest, c') => ∃ oks, (∀ report ∈ oks, report.2 = .lineOk) ∧
      reports = oks ++ [(c'.checkState, c'.parseLine.1)]
  | _ => ∀ report ∈ reports, report.2 = .lineOk

theorem ReportsEnd.cons {reports : List (CheckState × LineStatus)}
    {res : ParseResult × ReadState} (h : ReportsEnd reports res) (state : CheckState) :
    ReportsEnd ((state, .lineOk) :: reports) res := by
  obtain ⟨result, c'⟩ := res
  cases result with
  | noRequest =>
    obtain ⟨oks, hoks, hreports⟩ := h
    refine ⟨(state, .lineOk) :: oks, ?_, by rw [hreports, List.cons_append]⟩
    exact List.forall_mem_cons.mpr ⟨rfl, hoks⟩
  | badRequest => exact List.forall_mem_cons.mpr ⟨rfl, h⟩
  | doRequest => exact List.forall_mem_cons.mpr ⟨rfl, h⟩

theorem reportsEnd_of_stop {c c' : ReadState} {status : LineStatus}
    (h : c.parseLine = (status, c')) (hstatus : status ≠ .lineOk) :
    ReportsEnd [(c.checkState, status)] (.noRequest, c') := by
  obtain ⟨hagain, hstate⟩ := parseLine_stops h hstatus
  refine ⟨[], fun report hmem => absurd hmem List.not_mem_nil, ?_⟩
  rw [hagain, hstate]
  rfl

/-- No branch of the loop's body returns `NO_REQUEST`. -/
theorem mainSwitch_answers {c : ReadState} {res : ParseResult × ReadState}
    (h : c.mainSwitch = .inl res) : res.1 ≠ .noRequest := by
  unfold mainSwitch at h
  simp only at h
  split at h <;> split at h <;> cases h <;> exact fun habs => by cases habs

theorem reportsEnd_of_answer {c : ReadState} {res : ParseResult × ReadState}
    (h : c.mainSwitch = .inl res) {reports : List (CheckState × LineStatus)}
    (hreports : ∀ report ∈ reports, report.2 = .lineOk) : ReportsEnd reports res := by
  have hres := mainSwitch_answers h
  obtain ⟨result, c'⟩ := res
  cases result with
  | noRequest => exact absurd rfl hres
  | badRequest => exact hreports
  | doRequest => exact hreports

section Unroll

variable {c c' : ReadState} {status : LineStatus}

theorem lineReports_content (h : c.checkState = .content ∧ status = .lineOk) :
    c.lineReports status =
      match c.mainSwitch with
      | .inl _ => []
      | .inr (status', c') => lineReports status' c' := by
  rw [lineReports, dif_pos h]
  split <;> rename_i heq <;> rw [heq]

theorem lineReports_line (h : ¬ (c.checkState = .content ∧ status = .lineOk))
    (hline : c.parseLine = (.lineOk, c')) :
    c.lineReports status =
      (c.checkState, .lineOk) ::
        match c'.mainSwitch with
        | .inl _ => []
        | .inr (status', c'') => lineReports status' c'' := by
  rw [lineReports, dif_neg h]
  split <;> rename_i heq <;> rw [hline] at heq <;> cases heq
  split <;> rename_i heq <;> rw [heq]

theorem lineReports_stops (h : ¬ (c.checkState = .content ∧ status = .lineOk))
    {status' : LineStatus} (hline : c.parseLine = (status', c')) (hstatus : status' ≠ .lineOk) :
    c.lineReports status = [(c.checkState, status')] := by
  rw [lineReports, dif_neg h]
  split <;> rename_i heq <;> rw [hline] at heq <;> cases heq
  · exact absurd rfl hstatus
  · rfl
  · rfl

end Unroll

theorem processReadLoop_reports (status : LineStatus) (c : ReadState) :
    ReportsEnd (c.lineReports status) (processReadLoop status c) := by
  fun_induction processReadLoop status c with
  | case1 status c hcontent res hswitch =>
    rw [lineReports_content hcontent, hswitch]
    exact reportsEnd_of_answer hswitch fun report hmem => absurd hmem List.not_mem_nil
  | case2 status c hcontent status' c' hswitch ih =>
    rw [lineReports_content hcontent, hswitch]
    exact ih
  | case3 status c hcontent c' hline res hswitch =>
    rw [lineReports_line hcontent hline, hswitch]
    refine reportsEnd_of_answer hswitch fun report hmem => ?_
    rw [List.mem_singleton.mp hmem]
  | case4 status c hcontent c' hline status' c'' hswitch ih =>
    rw [lineReports_line hcontent hline, hswitch]
    exact ih.cons c.checkState
  | case5 status c hcontent c' hline =>
    rw [lineReports_stops hcontent hline (by decide)]
    exact reportsEnd_of_stop hline (by decide)
  | case6 status c hcontent c' hline =>
    rw [lineReports_stops hcontent hline (by decide)]
    exact reportsEnd_of_stop hline (by decide)

/-! ## One call -/

section Honoured

variable {c c' : ReadState}

theorem honoured_of_answer (h : c.processRead.1 ≠ .noRequest) : LinesHonoured c := by
  have hreports := processReadLoop_reports .lineOk c
  change ReportsEnd _ c.processRead at hreports
  have hok : ∀ report ∈ c.lineReports .lineOk, report.2 = .lineOk := by
    generalize c.processRead = res at h hreports
    obtain ⟨result, c'⟩ := res
    cases result with
    | noRequest => exact absurd rfl h
    | badRequest => exact hreports
    | doRequest => exact hreports
  refine ⟨fun habs => absurd habs h, fun report hmem _ hbad => ?_⟩
  rw [hok report hmem] at hbad
  cases hbad

/-- A call that asks for more: only its last report is not `LINE_OK`. -/
theorem reports_of_noRequest (h : c.processRead = (.noRequest, c')) :
    ∃ oks, (∀ report ∈ oks, report.2 = .lineOk) ∧
      c.lineReports .lineOk = oks ++ [(c'.checkState, c'.parseLine.1)] := by
  have hreports := processReadLoop_reports .lineOk c
  change ReportsEnd _ c.processRead at hreports
  rw [h] at hreports
  exact hreports

theorem honoured_of_body (h : c.processRead = (.noRequest, c')) (hbody : BodyIncomplete c') :
    LinesHonoured c := by
  obtain ⟨oks, hoks, hreports⟩ := reports_of_noRequest h
  refine ⟨fun _ => Or.inr (by rw [h]; exact hbody), fun report hmem hstate hbad => ?_⟩
  rw [hreports] at hmem
  rcases List.mem_append.mp hmem with hmem | hmem
  · rw [hoks report hmem] at hbad
    cases hbad
  · rw [List.mem_singleton.mp hmem] at hstate
    exact absurd hbody.1 hstate

/-- A call that waits in the head is right exactly when the line it waits for may still be
completed. -/
theorem honoured_head_iff (h : c.processRead = (.noRequest, c')) (hhead : c'.checkState ≠ .content)
    (hline : c'.parseLine.1 ≠ .lineOk) : LinesHonoured c ↔ c'.parseLine.1 ≠ .lineBad := by
  obtain ⟨oks, hoks, hreports⟩ := reports_of_noRequest h
  have hlast : (c'.checkState, c'.parseLine.1) ∈ c.lineReports .lineOk := by
    rw [hreports]
    exact List.mem_append_right oks List.mem_cons_self
  constructor
  · intro hhonoured hbad
    have habs := hhonoured.2 _ hlast hhead hbad
    rw [h] at habs
    cases habs
  · intro hbad
    have hopen : c'.parseLine.1 = .lineOpen := by
      cases hstatus : c'.parseLine.1 with
      | lineOk => exact absurd hstatus hline
      | lineBad => exact absurd hstatus hbad
      | lineOpen => rfl
    refine ⟨fun _ => Or.inl ?_, fun report hmem _ hreport => ?_⟩
    · rw [hreports, List.getLast?_concat, hopen]
      rfl
    · rw [hreports] at hmem
      rcases List.mem_append.mp hmem with hmem | hmem
      · rw [hoks report hmem] at hreport
        cases hreport
      · rw [List.mem_singleton.mp hmem] at hreport
        exact absurd hreport hbad

end Honoured

/-- A call of `process_read` honours what `parse_line` reports, after any segments, exactly when
the bytes received have no malformed line in the head. -/
theorem lines_honoured_iff {segs : List (List UInt8)} {c : ReadState}
    (h : Machine.exec receive init segs = some c) (x : List UInt8)
    (hfit : (segs.flatten ++ x).length ≤ readBufferSize) :
    LinesHonoured (c.deliver x) ↔ ¬ Malformed (segs.flatten ++ x) := by
  have hreceived := exec_receive h
  rw [List.length_append, ← hreceived.readIndex] at hfit
  unfold Malformed
  -- a call that ends in the body
  have hbody : ∀ {d : ReadState} {start pos : ℕ} {r : Req} {l rest : List UInt8} {H : ℕ},
      (c.deliver x).processRead = d.processRead → BodyAt d start pos r l →
      headRun 0 Req.init (segs.flatten ++ x) = .body H r rest → LinesHonoured (c.deliver x) := by
    intro d start pos r l rest H heq hat hrun
    by_cases hanswer : (c.deliver x).processRead.1 = .noRequest
    · have hcall : (c.deliver x).processRead = (.noRequest, (c.deliver x).processRead.2) :=
        Prod.ext hanswer rfl
      obtain ⟨_, _, _, hat', -, hshort⟩ :=
        hat.waits (headRun_body hrun reqInit_range).1 (heq.symm.trans hcall)
      exact honoured_of_body hcall ⟨hat'.checkState, hshort⟩
    · exact honoured_of_answer hanswer
  rcases hreceived.call hfit with hresult | ⟨start, pos, r, l, H, rest, hat, hrun⟩
  · cases hrun : headRun 0 Req.init (segs.flatten ++ x) with
    | waiting pos r l =>
      rw [hrun] at hresult
      obtain ⟨c', heq, -, hat⟩ := hresult
      obtain ⟨-, hwait, -⟩ := headRun_waiting hrun reqInit_range
      have hstatus : c'.parseLine.1 = (scanLine l).1 := by
        rw [(hat.parseLine_waits hwait).1]
      rw [honoured_head_iff heq hat.checkState_ne (by rw [hstatus]; exact hwait), hstatus]
      rfl
    | bad =>
      rw [hrun] at hresult
      obtain ⟨c', heq, -⟩ := hresult
      have hanswer : (c.deliver x).processRead = (.badRequest, c') := heq
      exact iff_of_true (honoured_of_answer (by rw [hanswer]; exact nofun)) id
    | complete r =>
      rw [hrun] at hresult
      obtain ⟨c', heq, -⟩ := hresult
      have hanswer : (c.deliver x).processRead = (.doRequest, c') := heq
      exact iff_of_true (honoured_of_answer (by rw [hanswer]; exact nofun)) id
    | body H r rest =>
      rw [hrun] at hresult
      obtain ⟨c', heq, -, hat⟩ := hresult
      exact iff_of_true (hbody heq hat hrun) id
  · rw [hrun]
    exact iff_of_true (hbody rfl hat hrun) id

/-- A request line that arrives in two segments, cut between its CR and its LF. -/
def cutLine : List (List UInt8) := [ascii "GET / HTTP/1.1\r"]

/-- The second segment completes the line. -/
theorem lines_honoured_cut :
    ∃ c, Machine.exec receive init cutLine = some c ∧
      LinesHonoured (c.deliver (ascii "\nHost: a\r\n")) := by
  have hsome : (Machine.exec receive init cutLine).isSome = true := by decide +kernel
  obtain ⟨c, hc⟩ := Option.isSome_iff_exists.mp hsome
  exact ⟨c, hc, (lines_honoured_iff hc _ (by decide +kernel)).mpr (by decide +kernel)⟩

/-- A header line with a CR inside: `parse_line` reports `LINE_BAD`, and `process_read` asks for
more bytes. -/
theorem bad_line_waited_on :
    ¬ LinesHonoured (init.deliver (ascii "GET / HTTP/1.1\r\nHost: a\rb\r\n\r\n")) := by
  intro h
  have hreport : (CheckState.header, LineStatus.lineBad) ∈
      lineReports .lineOk (init.deliver (ascii "GET / HTTP/1.1\r\nHost: a\rb\r\n\r\n")) := by
    decide +kernel
  have hresult : (init.deliver (ascii "GET / HTTP/1.1\r\nHost: a\rb\r\n\r\n")).processRead.1 =
      .noRequest := by
    decide +kernel
  have habs := h.2 _ hreport (by decide) rfl
  rw [hresult] at habs
  cases habs

end ReadState
end Webservers
