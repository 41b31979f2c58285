import Webservers.Lib.Path
import Webservers.HttpConn.Response

/-!
# Which files are served

`do_request` puts the target of the request behind `doc_root` and opens what it finds there. No
step looks at the segments of the target, so `..` leads out of the directory that http_conn.h
calls the root of the site. `served_below_docRoot_iff` says for which targets the file stays
below it: those that climb out of nothing, and those that descend again through the names they
climbed out of.
-/

namespace Webservers

/-! ## What the parser leaves of the target -/

namespace ReadState

/-- `m_url` is the same, and nothing but a NUL has been stored where it points. -/
structure Kept (c c' : ReadState) : Prop where
  url : c'.url = c.url
  byte : ∀ u, c.url = some u → c'.readBuf u = c.readBuf u ∨ c'.readBuf u = 0

theorem Kept.refl (c : ReadState) : Kept c c := ⟨rfl, fun _ _ => .inl rfl⟩

theorem Kept.trans {c c' c'' : ReadState} (h : Kept c c') (h' : Kept c' c'') : Kept c c'' where
  url := h'.url.trans h.url
  byte u hu := by
    rcases h'.byte u (h.url.trans hu) with heq | hnul
    · rw [heq]
      exact h.byte u hu
    · exact .inr hnul

theorem kept_store (c : ReadState) (i : ℤ) : Kept c (c.store i) where
  url := rfl
  byte k _ := by
    simp only [store]
    split
    · exact .inr rfl
    · exact .inl rfl

theorem parseLine_kept (c : ReadState) :
    Kept c c.parseLine.2 ∧ c.parseLine.2.checkState = c.checkState := by
  have htwo : ∀ (c : ReadState) (i j : ℤ) (k : ℕ),
      Kept c { (c.store i).store j with checkedIndex := k } := by
    intro c i j k
    obtain ⟨hurl, hbyte⟩ := (kept_store c i).trans (kept_store (c.store i) j)
    exact ⟨hurl, hbyte⟩
  fun_induction parseLine c with
  | case1 c hlt temp hcr hlast => exact ⟨.refl c, rfl⟩
  | case2 c hlt temp hcr hlast hlf => exact ⟨htwo c _ _ _, rfl⟩
  | case3 c hlt temp hcr hlast hlf => exact ⟨.refl c, rfl⟩
  | case4 c hlt temp hcr hlf hprev => exact ⟨htwo c _ _ _, rfl⟩
  | case5 c hlt temp hcr hlf hprev => exact ⟨.refl c, rfl⟩
  | case6 c hlt temp hcr hlf ih => exact ⟨⟨ih.1.url, ih.1.byte⟩, ih.2⟩
  | case7 c hge => exact ⟨.refl c, rfl⟩

/-- Once the request line has been accepted, no step looks for one again. -/
theorem parseRequestHeader_kept (c : ReadState) (text : ℕ) (h : c.checkState ≠ .requestLite) :
    Kept c (c.parseRequestHeader text).2 ∧
      (c.parseRequestHeader text).2.checkState ≠ .requestLite := by
  have hsame : ∀ c' : ReadState, c'.url = c.url → c'.readBuf = c.readBuf → Kept c c' :=
    fun c' hurl hbuf => ⟨hurl, fun u _ => .inl (by rw [hbuf])⟩
  unfold parseRequestHeader
  simp only
  repeat' split
  all_goals first
    | exact ⟨hsame _ rfl rfl, h⟩
    | exact ⟨hsame _ rfl rfl, by simp⟩

theorem parseRequestContent_kept (c : ReadState) (text : ℕ) :
    Kept c (c.parseRequestContent text).2 ∧
      (c.parseRequestContent text).2.checkState = c.checkState := by
  unfold parseRequestContent
  simp only
  split
  · obtain ⟨hurl, hbyte⟩ := kept_store c (text + c.contentLength)
    exact ⟨⟨hurl, hbyte⟩, rfl⟩
  · exact ⟨⟨rfl, fun _ _ => .inl rfl⟩, rfl⟩

/-- What one round of the loop of `process_read` leaves, whether it returns or goes on. -/
theorem mainSwitch_kept (c : ReadState) (h : c.checkState ≠ .requestLite) :
    Kept c (c.mainSwitch.elim Prod.snd Prod.snd) ∧
      (c.mainSwitch.elim Prod.snd Prod.snd).checkState ≠ .requestLite := by
  unfold mainSwitch
  simp only
  split
  · rename_i hstate
    exact absurd hstate h
  · have hheader := parseRequestHeader_kept { c with startLine := c.checkedIndex } c.startLine h
    generalize parseRequestHeader { c with startLine := c.checkedIndex } c.startLine = p at hheader
    obtain ⟨code, c'⟩ := p
    obtain ⟨⟨hurl, hbyte⟩, hcheck⟩ := hheader
    cases code <;> exact ⟨⟨hurl, hbyte⟩, hcheck⟩
  · have hcontent := parseRequestContent_kept { c with startLine := c.checkedIndex } c.startLine
    generalize parseRequestContent { c with startLine := c.checkedIndex } c.startLine = p
      at hcontent
    obtain ⟨code, c'⟩ := p
    obtain ⟨⟨hurl, hbyte⟩, hcheck⟩ := hcontent
    have hcheck' : c'.checkState ≠ .requestLite := fun hc => h (hcheck.symm.trans hc)
    cases code <;> exact ⟨⟨hurl, hbyte⟩, hcheck'⟩

/-- The rest of `process_read`, once the request line has been accepted. -/
theorem processReadLoop_kept (status : LineStatus) (c : ReadState)
    (h : c.checkState ≠ .requestLite) :
    Kept c (processReadLoop status c).2 ∧
      (processReadLoop status c).2.checkState ≠ .requestLite := by
  fun_induction processReadLoop status c
  case case1 status c hcontent r hswitch =>
    have hkept := mainSwitch_kept c h
    rwa [hswitch] at hkept
  case case2 status c hcontent status' c' hswitch ih =>
    have hkept := mainSwitch_kept c h
    rw [hswitch] at hkept
    obtain ⟨hrest, hcheck⟩ := ih hkept.2
    exact ⟨hkept.1.trans hrest, hcheck⟩
  case case3 status c hcontent c' hline r hswitch =>
    obtain ⟨hkept, hstate⟩ := parseLine_kept c
    rw [hline] at hkept hstate
    have hkept' := mainSwitch_kept c' (fun hc => h (hstate.symm.trans hc))
    rw [hswitch] at hkept'
    exact ⟨hkept.trans hkept'.1, hkept'.2⟩
  case case4 status c hcontent c' hline status' c'' hswitch ih =>
    obtain ⟨hkept, hstate⟩ := parseLine_kept c
    rw [hline] at hkept hstate
    have hkept' := mainSwitch_kept c' (fun hc => h (hstate.symm.trans hc))
    rw [hswitch] at hkept'
    obtain ⟨hrest, hcheck⟩ := ih hkept'.2
    exact ⟨(hkept.trans hkept'.1).trans hrest, hcheck⟩
  case case5 status c hcontent c' hline =>
    obtain ⟨hkept, hstate⟩ := parseLine_kept c
    rw [hline] at hkept hstate
    exact ⟨hkept, fun hc => h (hstate.symm.trans hc)⟩
  case case6 status c hcontent c' hline =>
    obtain ⟨hkept, hstate⟩ := parseLine_kept c
    rw [hline] at hkept hstate
    exact ⟨hkept, fun hc => h (hstate.symm.trans hc)⟩

/-- The states a slot passes after the request line has been accepted and before `do_request`:
more bytes are received behind the target, and `process_read` goes on. -/
inductive Later (r : ReadState) : ReadState → Prop where
  | accepted : Later r r
  | deliver {c : ReadState} (h : Later r c) (x : List UInt8)
      (hu : ∀ u, c.url = some u → u < c.readIndex) : Later r (c.deliver x)
  | processRead {c : ReadState} (h : Later r c) (status : LineStatus) :
      Later r (processReadLoop status c).2

theorem Later.kept {r c : ReadState} (h : Later r c) (hr : r.checkState ≠ .requestLite) :
    Kept r c ∧ c.checkState ≠ .requestLite := by
  induction h with
  | accepted => exact ⟨.refl r, hr⟩
  | @deliver c _ x hu ih =>
    obtain ⟨hkept, hcheck⟩ := ih
    have hdeliver : Kept c (c.deliver x) :=
      ⟨rfl, fun u hurl => .inl (storeBytes_lt x (hu u hurl))⟩
    exact ⟨hkept.trans hdeliver, hcheck⟩
  | processRead _ status ih =>
    obtain ⟨hkept, hcheck⟩ := ih
    obtain ⟨hrest, hcheck'⟩ := processReadLoop_kept status _ hcheck
    exact ⟨hkept.trans hrest, hcheck'⟩

/-- An accepted request line leaves `m_url` on a slash. -/
theorem parseRequestLine_accepted {c c' : ReadState} {text : ℕ}
    (h : c.parseRequestLine text = (.noRequest, c')) :
    c'.checkState = .header ∧ ∃ u, c'.url = some u ∧ c'.readBuf u = 47 := by
  have htarget : ∀ (c c' : ReadState) (url : ℕ), c.parseTarget url = (.noRequest, c') →
      c'.checkState = .header ∧ ∃ u, c'.url = some u ∧ c'.readBuf u = 47 := by
    intro c c' url h
    unfold parseTarget at h
    simp only at h
    split at h
    · cases h
    · rename_i u hu
      split at h
      · cases h
      · rename_i hslash
        cases h
        exact ⟨rfl, u, rfl, not_not.mp hslash⟩
  unfold parseRequestLine at h
  split at h
  · cases h
  · simp only at h
    split at h
    · cases h
    · unfold parseVersion at h
      split at h
      · cases h
      · simp only at h
        split at h
        · cases h
        · exact htarget _ _ _ h

end ReadState

/-! ## The file behind a target -/

namespace HttpConn

def slash : UInt8 := 47

def dot : UInt8 := 46

/-- The names of `doc_root`. -/
def docRootNames : List (List UInt8) := Path.resolve slash dot docRoot

/-- With its dot segments resolved, the path has `doc_root` as a prefix. -/
def BelowDocRoot (path : List UInt8) : Prop := docRootNames <+: Path.resolve slash dot path

/-- Of the target, as much as fits into `m_real_file`: the names of `doc_root` that its dot
segments climb out of are the first ones it descends through. -/
def Stays (target : List UInt8) : Prop :=
  let s := Path.summary (Path.moves slash dot (target.take (filenameLen - docRoot.length - 1)))
  docRootNames.drop (docRootNames.length - s.climbs) <+: s.names

instance (path : List UInt8) : Decidable (BelowDocRoot path) :=
  inferInstanceAs (Decidable (_ <+: _))

instance (target : List UInt8) : Decidable (Stays target) := inferInstanceAs (Decidable (_ <+: _))

theorem doRequest_realFile (fs : FileSystem) (c : HttpConn) :
    (c.doRequest fs).2.realFile =
      docRoot ++ c.target.take (filenameLen - docRoot.length - 1) := by
  rcases doRequest_inv fs c with ⟨-, heq⟩ | ⟨st, -, ⟨-, heq⟩ | ⟨-, heq⟩⟩
  all_goals
    rw [heq]
    rfl

/-- A target that starts with a slash, or that a NUL has cut to nothing. -/
theorem belowDocRoot_iff_stays {target : List UInt8}
    (h : target = [] ∨ ∃ rest, target = slash :: rest) :
    BelowDocRoot (docRoot ++ target.take (filenameLen - docRoot.length - 1)) ↔ Stays target := by
  rw [BelowDocRoot, Stays, ← Path.prefix_walk_iff]
  rcases h with rfl | ⟨rest, rfl⟩
  · -- the path is `doc_root` itself, and the empty target goes nowhere
    have hstay : Path.moves slash dot [] = [.stay] := rfl
    rw [List.take_nil, List.append_nil, hstay]
    rfl
  · have htake : (slash :: rest).take (filenameLen - docRoot.length - 1) =
        slash :: rest.take (filenameLen - docRoot.length - 2) := by
      have hpos : filenameLen - docRoot.length - 1 = filenameLen - docRoot.length - 2 + 1 := by
        decide +kernel
      rw [hpos, List.take_succ_cons]
    rw [htake, Path.resolve_append]
    rfl

/-- The string at `m_url`, where the parser or a later NUL has left its first byte. -/
theorem target_of_byte {c : HttpConn} {u : ℕ} (hurl : c.url = some u)
    (hbyte : c.readBuf u = slash ∨ c.readBuf u = 0) :
    c.target = [] ∨ ∃ rest, c.target = slash :: rest := by
  simp only [target, hurl, ReadState.text]
  cases hn : readBufferSize - u with
  | zero => exact .inl rfl
  | succ n =>
    rw [cstr, slice_succ, List.takeWhile_cons]
    rcases hbyte with hslash | hnul
    · refine .inr ⟨(slice c.readBuf (u + 1) n).takeWhile (· != 0), ?_⟩
      rw [hslash]
      rfl
    · exact .inl (by rw [hnul]; rfl)

/-- For every request line that is accepted, every later state of the slot and every file that
`do_request` then opens: the path stays below `doc_root` exactly when the target does. -/
theorem served_below_docRoot_iff (fs : FileSystem) {r r' : ReadState} {text : ℕ}
    (haccept : r.parseRequestLine text = (.noRequest, r')) {c d : HttpConn}
    (hlater : ReadState.Later r' c.toReadState) (hopen : c.doRequest fs = (.fileRequest, d)) :
    BelowDocRoot d.realFile ↔ Stays c.target := by
  obtain ⟨hheader, u, hu, hslash⟩ := ReadState.parseRequestLine_accepted haccept
  obtain ⟨hkept, -⟩ := hlater.kept (by simp [hheader])
  have hbyte : c.readBuf u = slash ∨ c.readBuf u = 0 := by
    have h := hkept.byte u hu
    rwa [hslash] at h
  have hpath : d.realFile = docRoot ++ c.target.take (filenameLen - docRoot.length - 1) := by
    rw [← doRequest_realFile fs c, hopen]
  rw [hpath]
  exact belowDocRoot_iff_stays (target_of_byte (hkept.url.trans hu) hbyte)

/-- A file system in which every path is a readable file of five bytes. -/
def everyFile : FileSystem where
  stat _ := some { stMode := 0o100644, stSize := 5 }
  mmap _ _ := .mapped (ascii "hello")

/-- A slot that has received a request and cut out its first line. -/
def received (request : String) : ReadState :=
  let c := (ReadState.init.deliver (ascii request)).parseLine.2
  { c with startLine := c.checkedIndex }

/-- The slot once the request line has been interpreted. -/
def lineRead (request : String) : ReadState := ((received request).parseRequestLine 0).2

/-- The slot once the whole request has been. -/
def requestRead (request : String) : HttpConn :=
  { new with toReadState := (ReadState.processReadLoop .lineOk (lineRead request)).2 }

/-- A target that leaves `doc_root` and comes back through its last name. -/
def back : String := "GET /../resources/./a.html HTTP/1.1\r\n\r\n"

/-- A target that climbs to the root of the file system. -/
def passwd : String := "GET /../../../../../etc/passwd HTTP/1.1\r\n\r\n"

theorem served_below_docRoot_back :
    BelowDocRoot ((requestRead back).doRequest everyFile).2.realFile := by
  have haccept : (received back).parseRequestLine 0 = (.noRequest, lineRead back) :=
    Prod.ext (by decide +kernel) rfl
  have hlater : ReadState.Later (lineRead back) (requestRead back).toReadState :=
    .processRead .accepted .lineOk
  have hopen : (requestRead back).doRequest everyFile =
      (.fileRequest, ((requestRead back).doRequest everyFile).2) :=
    Prod.ext (by decide +kernel) rfl
  exact (served_below_docRoot_iff everyFile haccept hlater hopen).mpr (by decide +kernel)

theorem passwd_served :
    ((received passwd).parseRequestLine 0).1 = .noRequest ∧
      (ReadState.processReadLoop .lineOk (lineRead passwd)).1 = .doRequest ∧
      ((requestRead passwd).doRequest everyFile).1 = .fileRequest ∧
      ¬ BelowDocRoot ((requestRead passwd).doRequest everyFile).2.realFile := by
  decide +kernel

end HttpConn
end Webservers
