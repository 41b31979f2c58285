import Mathlib.Data.List.TakeDrop
import Webservers.HttpConn.SegmentationTheorems
import Webservers.HttpConn.CompleteTheorems
import Webservers.HttpConn.PathTheorems

/-!
# From the URL to the file opened

`parse_request_line` accepts targets of any length that `m_read_buf` has room for, almost 2048
bytes. `do_request` copies at most `FILENAME_LEN - strlen(doc_root) - 1` of them behind `doc_root`
and opens what the shorter path names: nothing tells it that the copy was cut.

* `Reaches` says that the bytes of a request, in some segments, have come to `do_request`.
* `acceptedUrl` is `m_url` as `parse_request_line` left it. Until `do_request` only the NUL that
  `parse_request_content` stores at `text[m_content_length]` can still fall into it.
* `opens_named_iff` gives the requests whose file is the one named.
-/

namespace Webservers

/-! ## The target in the bytes of a request -/

/-- The request whose head has come to its end. -/
def Found.req : Found → Option Req
  | .complete r | .body _ r _ => some r
  | .waiting _ _ _ | .bad => none

/-- Headers leave the target alone. -/
theorem headRun_target {pos : ℕ} {r r' : Req} {l : List UInt8} {target : ℕ × List UInt8}
    (hr : r.target = some target) (h : (headRun pos r l).req = some r') :
    r'.target = some target := by
  fun_induction headRun pos r l with
  | case1 pos r l hline hnext => cases h
  | case2 pos r l hline pos₁ l₁ r₁ hnext ih =>
    apply ih _ h
    rcases Req.next_go hnext with ⟨hnone, -⟩ | ⟨-, -, rfl⟩
    · rw [hr] at hnone
      cases hnone
    · rw [Req.header_target, hr]
  | case3 pos r l hline pos₁ l₁ hnext hne =>
    cases h
    exact hr
  | case4 pos r l hline hnext hzero =>
    cases h
    exact hr
  | case5 pos r l hline => cases h

/-- A request is known by its first line. -/
theorem headRun_requestLine {s : List UInt8} {r : Req}
    (h : (headRun 0 Req.init s).req = some r) :
    (scanLine s).1 = .lineOk ∧
      ∃ u path, Req.requestLine (lineText s) = some (u, path) ∧ r.target = some (u, path) := by
  rw [headRun] at h
  split at h
  · rename_i hline
    refine ⟨hline, ?_⟩
    simp only at h
    split at h
    · cases h
    · rename_i r₁ hnext
      rcases Req.next_go hnext with ⟨-, u, path, hfound, rfl⟩ | ⟨hne, -⟩
      · refine ⟨u, path, hfound, headRun_target ?_ h⟩
        rw [Nat.zero_add]
      · exact absurd rfl hne
    · rename_i hnext
      exact absurd rfl (Req.next_finished hnext).1
  · cases h

namespace ReadState

/-- `m_url` as `parse_request_line` accepts it in the first line of `s`. -/
def acceptedUrl (s : List UInt8) : Option (List UInt8) :=
  match (init.deliver (s.take (scanLine s).2)).parseRequestLine 0 with
  | (.noRequest, c) => c.url.map c.text
  | _ => none

/-- The bytes `s` have arrived in some segments, and the last call of `process_read` calls
`do_request` with the slot `d`. -/
def Reaches (s : List UInt8) (d : ReadState) : Prop :=
  ∃ segs x c, segs.flatten ++ x = s ∧ s.length ≤ readBufferSize ∧
    Machine.exec receive init segs = some c ∧ (c.deliver x).processRead = (.doRequest, d)

theorem acceptedUrl_eq {s : List UInt8} (hfit : s.length ≤ readBufferSize)
    (hline : (scanLine s).1 = .lineOk) {u : ℕ} {path : List UInt8}
    (hfound : Req.requestLine (lineText s) = some (u, path)) : acceptedUrl s = some path := by
  have hlen := scanLine_lineOk hline
  have htake : (s.take (scanLine s).2).length < readBufferSize := by
    rw [List.length_take]
    omega
  have htext : (init.deliver (s.take (scanLine s).2)).text 0 = lineText s := text_deliver htake
  have htextLen := length_lineText_le s
  have hspec := parseRequestLine_spec (init.deliver (s.take (scanLine s).2)) 0
    (by rw [htext]; omega)
  rw [htext] at hspec
  obtain ⟨hcode, -, hurl, hpath⟩ := hspec.ok u path hfound
  unfold acceptedUrl
  generalize (init.deliver (s.take (scanLine s).2)).parseRequestLine 0 = res at hcode hurl hpath
  obtain ⟨code, c⟩ := res
  simp only at hcode hurl hpath
  subst hcode
  simp only [hurl, Option.map_some, hpath]

/-- Segments that are waited behind and one that is answered. -/
theorem feed_of_exec {segs : List (List UInt8)} {x : List UInt8} {c₀ c d : ReadState}
    (h : Machine.exec receive c₀ segs = some c)
    (hcall : (c.deliver x).processRead = (.doRequest, d)) :
    feed c₀ (segs ++ [x]) = outcome (.doRequest, d) := by
  induction segs generalizing c₀ with
  | nil =>
    rw [Machine.exec_nil, Option.some.injEq] at h
    subst h
    rw [List.nil_append, feed_whole, hcall]
  | cons y ys ih =>
    obtain ⟨c₁, hy, hrest⟩ := Machine.exec_cons_eq_some.mp h
    rw [List.cons_append, feed, (receive_eq_some hy).2]
    exact ih hrest

/-- What is left of the target when the request `s` reaches `do_request`. -/
def leftUrl (s : List UInt8) : List UInt8 :=
  match headRun 0 Req.init s with
  | .complete r => r.url none
  | .body H r _ => r.url (some (H + r.contentLength))
  | .waiting _ _ _ | .bad => []

/-- Behind a body that was announced with a positive length, the NUL spares the target. -/
theorem outcome_body {s rest : List UInt8} {H : ℕ} {r : Req}
    (hrun : headRun 0 Req.init s = .body H r rest) (hpos : 0 < r.contentLength) :
    r.outcome (some (H + r.contentLength)) = r.outcome none := by
  have hreq : (headRun 0 Req.init s).req = some r := by rw [hrun]; rfl
  obtain ⟨-, u, path, hfound, htarget⟩ := headRun_requestLine hreq
  obtain ⟨-, -, -, hH, -⟩ := headRun_body hrun reqInit_range
  have hle := Req.requestLine_le hfound
  have htextLen := length_lineText_le s
  exact Req.outcome_positive htarget (by omega) hpos

/-- However it is cut into segments, a request that reaches `do_request` has come to the end of its
head, and what is left of its target depends on its bytes only. -/
theorem Reaches.outcome_eq {s : List UInt8} {d : ReadState} (h : Reaches s d) :
    ∃ r, (headRun 0 Req.init s).req = some r ∧
      outcome (.doRequest, d) = .doRequest (leftUrl s) r.linger r.contentLength := by
  obtain ⟨segs, x, c, hs, hfit, hexec, hcall⟩ := h
  have hfeed := feed_of_exec hexec hcall
  have hflat : s = (segs ++ [x]).flatten := by
    rw [List.flatten_append, List.flatten_singleton, hs]
  have hfed := feed_head (s := s) (segs ++ [x]) headAt_init reqInit_range (by decide) rfl hflat
    (Nat.zero_le _) hfit
  rw [List.nil_append, ← hflat] at hfed
  have hdo : outcome (.doRequest, d) ≠ .noRequest ∧ outcome (.doRequest, d) ≠ .badRequest :=
    ⟨Outcome.noConfusion, Outcome.noConfusion⟩
  rw [← hfeed] at hdo ⊢
  unfold leftUrl
  cases hrun : headRun 0 Req.init s with
  | waiting pos r l =>
    rw [hrun] at hfed
    exact absurd hfed hdo.1
  | bad =>
    rw [hrun] at hfed
    exact absurd hfed hdo.2
  | complete r =>
    rw [hrun] at hfed
    exact ⟨r, rfl, hfed⟩
  | body H r rest =>
    rw [hrun] at hfed
    obtain ⟨-, hne, -⟩ := headRun_body hrun reqInit_range
    refine ⟨r, rfl, ?_⟩
    by_cases hneg : r.contentLength < 0
    · exact hfed.1 hneg
    · have hpos : 0 < r.contentLength := by omega
      have haccepted := hfed.2 hpos
      split at haccepted
      · rw [haccepted]
        exact (outcome_body hrun hpos).symm
      · exact absurd haccepted hdo.1

end ReadState

/-! ## The file behind a request -/

namespace HttpConn

/-- How many bytes of the target `do_request` copies. -/
def urlRoom : ℕ := filenameLen - docRoot.length - 1

/-- What is promised of a request `s` that reaches `do_request` with the slot `c`: whatever files
there are, the path is `doc_root` and the URL that was accepted, or the request is refused. -/
def OpensNamed (s : List UInt8) (c : HttpConn) : Prop :=
  ∃ url, ReadState.acceptedUrl s = some url ∧
    ∀ fs, (c.doRequest fs).2.realFile = docRoot ++ url ∨ (c.doRequest fs).1 ≠ .fileRequest

/-- Two requests with different URLs do not come to the same path. -/
def OpenApart (s s' : List UInt8) (c c' : HttpConn) : Prop :=
  ReadState.acceptedUrl s ≠ ReadState.acceptedUrl s' →
    ∀ fs, (c.doRequest fs).2.realFile ≠ (c'.doRequest fs).2.realFile

/-- The target of the request fits behind `doc_root`, and the NUL behind its body, at the length
announced from the end `H` of the head, does not fall into it. -/
def KeepsTarget : Found → Prop
  | .complete r => ∀ t ∈ r.target, t.2.length ≤ urlRoom
  | .body H r _ => ∀ t ∈ r.target, t.2.length ≤ urlRoom ∧
      ¬ (t.1 ≤ H + r.contentLength ∧ H + r.contentLength < t.1 + t.2.length)
  | .waiting _ _ _ | .bad => True

instance : DecidablePred KeepsTarget
  | .complete _ | .body _ _ _ => inferInstanceAs (Decidable (∀ t ∈ Req.target _, _))
  | .waiting _ _ _ | .bad => inferInstanceAs (Decidable True)

/-- Nothing of the target of the request `s` is lost. -/
def Whole (s : List UInt8) : Prop := KeepsTarget (headRun 0 Req.init s)

instance : DecidablePred Whole := fun _ => inferInstanceAs (Decidable (KeepsTarget _))

theorem whole_iff {s : List UInt8} {r : Req} {u : ℕ} {path : List UInt8}
    (hreq : (headRun 0 Req.init s).req = some r) (htarget : r.target = some (u, path)) :
    Whole s ↔ (ReadState.leftUrl s).take urlRoom = path := by
  unfold Whole ReadState.leftUrl
  generalize headRun 0 Req.init s = found at hreq
  cases found with
  | waiting pos r l => cases hreq
  | bad => cases hreq
  | complete r =>
    cases hreq
    simp only [KeepsTarget, htarget, Req.url, Option.mem_def, Option.some.injEq, forall_eq',
      List.take_eq_self_iff]
  | body H r rest =>
    cases hreq
    simp only [KeepsTarget, htarget, Req.url, Option.mem_def, Option.some.injEq, forall_eq']
    split
    · rw [List.take_take, List.take_eq_self_iff]
      omega
    · rw [List.take_eq_self_iff]
      omega

/-- A file system in which every path is a file refuses nothing. -/
theorem doRequest_everyFile (c : HttpConn) : (c.doRequest everyFile).1 = .fileRequest := by
  rw [doRequest_eq]
  exact congrArg Prod.fst (if_neg (by decide))

theorem target_of_reaches {s : List UInt8} {c : HttpConn}
    (h : ReadState.Reaches s c.toReadState) : c.target = ReadState.leftUrl s := by
  obtain ⟨r, -, hout⟩ := h.outcome_eq
  simp only [ReadState.outcome, Outcome.doRequest.injEq] at hout
  exact hout.1

/-- The path of a request, by its bytes. -/
theorem realFile_of_reaches {s : List UInt8} {c : HttpConn}
    (h : ReadState.Reaches s c.toReadState) (fs : FileSystem) :
    (c.doRequest fs).2.realFile = docRoot ++ (ReadState.leftUrl s).take urlRoom := by
  rw [doRequest_realFile, target_of_reaches h]
  rfl

/-- One request: the URL accepted, and when nothing of it is lost. -/
theorem whole_of_reaches {s : List UInt8} {c : HttpConn}
    (h : ReadState.Reaches s c.toReadState) :
    ∃ url, ReadState.acceptedUrl s = some url ∧
      (Whole s ↔ ∀ fs, (c.doRequest fs).2.realFile = docRoot ++ url) := by
  obtain ⟨r, hreq, -⟩ := h.outcome_eq
  obtain ⟨hline, u, path, hfound, htarget⟩ := headRun_requestLine hreq
  obtain ⟨_, _, _, -, hfit, -⟩ := id h
  refine ⟨path, ReadState.acceptedUrl_eq hfit hline hfound, ?_⟩
  rw [whole_iff hreq htarget]
  constructor
  · intro hleft fs
    rw [realFile_of_reaches h, hleft]
  · intro hall
    have hpath := hall everyFile
    rw [realFile_of_reaches h] at hpath
    exact List.append_cancel_left hpath

theorem opensNamed_iff {s : List UInt8} {c : HttpConn}
    (h : ReadState.Reaches s c.toReadState) : OpensNamed s c ↔ Whole s := by
  obtain ⟨url, haccepted, hwhole⟩ := whole_of_reaches h
  rw [hwhole]
  constructor
  · rintro ⟨url', haccepted', hnamed⟩ fs
    rw [haccepted, Option.some.injEq] at haccepted'
    subst haccepted'
    -- the path is the same with every file system, and one of them refuses nothing
    rcases hnamed everyFile with hpath | hrefused
    · rw [realFile_of_reaches h] at hpath ⊢
      exact hpath
    · exact absurd (doRequest_everyFile c) hrefused
  · exact fun hall => ⟨url, haccepted, fun fs => .inl (hall fs)⟩

/-- Of two requests that reach `do_request`, in any segments, both open the file they name, and
different files for different URLs, exactly when neither target is cut: it has at most
`FILENAME_LEN - strlen(doc_root) - 1` bytes, and no negative length announced puts a NUL into it. -/
theorem opens_named_iff {s s' : List UInt8} {c c' : HttpConn}
    (h : ReadState.Reaches s c.toReadState) (h' : ReadState.Reaches s' c'.toReadState) :
    (OpensNamed s c ∧ OpensNamed s' c' ∧ OpenApart s s' c c') ↔ Whole s ∧ Whole s' := by
  rw [opensNamed_iff h, opensNamed_iff h']
  constructor
  · exact fun hall => ⟨hall.1, hall.2.1⟩
  · rintro ⟨hwhole, hwhole'⟩
    refine ⟨hwhole, hwhole', fun hne fs hsame => hne ?_⟩
    obtain ⟨url, haccepted, hiff⟩ := whole_of_reaches h
    obtain ⟨url', haccepted', hiff'⟩ := whole_of_reaches h'
    rw [hiff.mp hwhole fs, hiff'.mp hwhole' fs] at hsame
    rw [haccepted, haccepted', List.append_cancel_left hsame]

/-- The slot of a request that arrives in one segment. -/
def asked (s : List UInt8) : HttpConn :=
  { new with toReadState := (ReadState.init.deliver s).processRead.2 }

theorem reaches_asked {s : List UInt8} (hfit : s.length ≤ readBufferSize)
    (hcall : (ReadState.init.deliver s).processRead.1 = .doRequest) :
    ReadState.Reaches s (asked s).toReadState :=
  ⟨[], s, ReadState.init, rfl, hfit, rfl, Prod.ext hcall rfl⟩

/-- Two short targets, one of them before a body. -/
theorem opens_named_short :
    let plain := ascii "GET /a.html HTTP/1.1\r\n\r\n"
    let body := ascii "GET /b.html HTTP/1.1\r\nContent-Length: 2\r\n\r\nhi"
    OpensNamed plain (asked plain) ∧ OpensNamed body (asked body) ∧
      OpenApart plain body (asked plain) (asked body) :=
  (opens_named_iff (reaches_asked (by decide +kernel) (by decide +kernel))
    (reaches_asked (by decide +kernel) (by decide +kernel))).mpr
    ⟨by decide +kernel, by decide +kernel⟩

/-- A slash, 157 bytes and one more. -/
def longTarget (last : UInt8) : List UInt8 := slash :: (List.replicate 157 97 ++ [last])

def longRequest (last : UInt8) : List UInt8 :=
  ascii "GET " ++ longTarget last ++ ascii " HTTP/1.1\r\n\r\n"

/-- What the bytes of a request without a body say of it. -/
theorem of_complete {s path : List UInt8} {u : ℕ} {linger : Bool} {contentLength : ℤ}
    (hfit : s.length ≤ readBufferSize)
    (hrun : headRun 0 Req.init s = .complete ⟨some (u, path), linger, contentLength⟩) :
    ReadState.Reaches s (asked s).toReadState ∧ ReadState.acceptedUrl s = some path ∧
      ReadState.leftUrl s = path := by
  have hreq : (headRun 0 Req.init s).req = some ⟨some (u, path), linger, contentLength⟩ := by
    rw [hrun]
    rfl
  obtain ⟨hline, u', path', hfound, htarget⟩ := headRun_requestLine hreq
  cases htarget
  have hroom : ReadState.init.readIndex + s.length ≤ readBufferSize := by
    show 0 + s.length ≤ readBufferSize
    omega
  have hresult :=
    ReadState.processRead_head (ReadState.deliver_headAt ReadState.headAt_init s hroom)
  rw [List.nil_append, hrun] at hresult
  obtain ⟨d, hloop, -⟩ := hresult
  refine ⟨reaches_asked hfit ?_, ReadState.acceptedUrl_eq hfit hline hfound, ?_⟩
  · rw [ReadState.processRead, hloop]
  · rw [ReadState.leftUrl, hrun]
    rfl

/-- Two targets of 159 bytes that differ in the last one: both requests come to the path without
it, and the file there is served. -/
theorem long_targets_share_file :
    let b := longRequest 98
    let c := longRequest 99
    ReadState.Reaches b (asked b).toReadState ∧ ReadState.Reaches c (asked c).toReadState ∧
      ReadState.acceptedUrl b ≠ ReadState.acceptedUrl c ∧
      ((asked b).doRequest everyFile).1 = .fileRequest ∧
      ((asked c).doRequest everyFile).1 = .fileRequest ∧
      ((asked b).doRequest everyFile).2.realFile = ((asked c).doRequest everyFile).2.realFile ∧
      ¬ OpensNamed b (asked b) := by
  intro b c
  have hrun : headRun 0 Req.init b = .complete ⟨some (4, longTarget 98), false, 0⟩ := by
    decide +kernel
  have hrun' : headRun 0 Req.init c = .complete ⟨some (4, longTarget 99), false, 0⟩ := by
    decide +kernel
  obtain ⟨hb, hurl, hleft⟩ := of_complete (by decide +kernel) hrun
  obtain ⟨hc, hurl', hleft'⟩ := of_complete (by decide +kernel) hrun'
  refine ⟨hb, hc, ?_, doRequest_everyFile _, doRequest_everyFile _, ?_, ?_⟩
  · rw [hurl, hurl']
    decide +kernel
  · rw [realFile_of_reaches hb, realFile_of_reaches hc, hleft, hleft']
    decide +kernel
  · rw [opensNamed_iff hb]
    decide +kernel

end HttpConn
end Webservers
