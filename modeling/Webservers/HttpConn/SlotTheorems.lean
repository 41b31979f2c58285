import Webservers.HttpConn.StoreTheorems
import Webservers.HttpConn.WriteTheorems

/-!
# One slot, many clients

`init(sockfd, addr)` gives a slot to a new connection and changes nothing but the socket; the
members of the parser and of the response are reset by `init()`, which only `write` calls. What
the last client left in the slot is therefore still there.

* `Call` are the calls that main.cpp and the workers make for a connection, `results` what they
  return; `Event` adds the beginning and the end of a connection, `history` is a slot after any
  sequence of them.
* `Alike`: two slots that differ in nothing a call can look at.
* `no_interference_iff`: a slot serves a new client like one that was just reset exactly when
  its `m_read_index` is 0.
-/

namespace Webservers
namespace HttpConn

/-- A call on a slot, with what the system answers. -/
inductive Call where
  | read (rs : List ReadState.Recv)
  | process (fs : FileSystem)
  | write (rs : List WriteResult)

/-- What a call shows: its result, the file it looked for, the bytes it handed to `writev`. -/
inductive Result where
  | read (ok : Bool)
  | process (arm : Arm) (code : Option HttpCode) (realFile : List UInt8)
  | write (written : Written)
deriving Repr, DecidableEq

def call (typeText : List UInt8) (c : HttpConn) : Call → Result × HttpConn
  | .read rs =>
    let (ok, c) := c.read rs
    (.read ok, c)
  | .process fs =>
    let ((arm, code), c) := c.process typeText fs
    (.process arm code c.realFile, c)
  | .write rs =>
    let (written, c) := c.write rs
    (.write written, c)

def results (typeText : List UInt8) (c : HttpConn) : List Call → List Result
  | [] => []
  | a :: as => (c.call typeText a).1 :: results typeText (c.call typeText a).2 as

/-- What happens to a slot. -/
inductive Event where
  /-- `users[connfd].init(connfd, client_address)` -/
  | init (sockfd : ℤ)
  | closeConn
  | call (a : Call)

def serve (typeText : List UInt8) (c : HttpConn) : Event → HttpConn
  | .init sockfd => c.initConn sockfd
  | .closeConn => c.closeConn
  | .call a => (c.call typeText a).2

/-- The slot after the events `es`, the first of which met it unused. -/
def history (typeText : List UInt8) (es : List Event) : HttpConn :=
  es.foldl (serve typeText) new

/-! ## What a call does not look at -/

/-- The members that `init()` leaves alone: they describe a response, and are set when there
is one. -/
structure Leftover where
  fileStat : FileStat
  fileAddress : Mapping
  iv0 : Iovec
  iv1 : Iovec
  ivCount : ℕ

def withLeftover (c : HttpConn) (p : Leftover) : HttpConn :=
  { c with
    fileStat := p.fileStat
    fileAddress := p.fileAddress
    iv0 := p.iv0
    iv1 := p.iv1
    ivCount := p.ivCount }

/-- The slots are the same, or differ in leftovers only while there is nothing to send. -/
def Alike (c c' : HttpConn) : Prop :=
  c' = c ∨ (c.bytesToSend = 0 ∧ ∃ p, c' = c.withLeftover p)

section Leftovers

variable (typeText : List UInt8) (c : HttpConn) (p : Leftover)

theorem addResponse_withLeftover (text : List UInt8) :
    (c.withLeftover p).addResponse text =
      ((c.addResponse text).1, (c.addResponse text).2.withLeftover p) := by
  have hindex : (c.withLeftover p).writeIndex = c.writeIndex := rfl
  unfold addResponse
  rw [hindex]
  by_cases hfull : writeBufferSize ≤ c.writeIndex
  · rw [if_pos hfull, if_pos hfull]
  · rw [if_neg hfull, if_neg hfull]
    simp only
    split <;> rfl

theorem addLinger_withLeftover :
    (c.withLeftover p).addLinger = (c.addLinger.1, c.addLinger.2.withLeftover p) :=
  addResponse_withLeftover c p _

theorem addHeaders_withLeftover (contentLen : ℤ) :
    (c.withLeftover p).addHeaders typeText contentLen =
      (c.addHeaders typeText contentLen).withLeftover p := by
  simp only [addHeaders, addContentLength, addContentType, addBlankLine,
    addResponse_withLeftover, addLinger_withLeftover]

theorem addError_withLeftover (status : ℤ) (title form : List UInt8) :
    (c.withLeftover p).addError typeText status title form =
      ((c.addError typeText status title form).1,
        (c.addError typeText status title form).2.withLeftover p) := by
  simp only [addError, addStatusLine, addContent, addResponse_withLeftover,
    addHeaders_withLeftover]

end Leftovers

section Composing

variable {c c' : HttpConn} (h : Composed c c')
include h

theorem Composed.toReadState : c'.toReadState = c.toReadState := by
  obtain ⟨_, _, rfl, -⟩ := h
  rfl

theorem Composed.sockfd : c'.sockfd = c.sockfd := by
  obtain ⟨_, _, rfl, -⟩ := h
  rfl

theorem Composed.bytesToSend : c'.bytesToSend = c.bytesToSend := by
  obtain ⟨_, _, rfl, -⟩ := h
  rfl

theorem Composed.file : c'.fileStat = c.fileStat ∧ c'.fileAddress = c.fileAddress := by
  obtain ⟨_, _, rfl, -⟩ := h
  exact ⟨rfl, rfl⟩

end Composing

theorem composed_addError (typeText : List UInt8) (c : HttpConn) (status : ℤ)
    (title form : List UInt8) : Composed c (c.addError typeText status title form).2 := by
  have hstatus : Composed c (c.addStatusLine status title).2 := composed_addResponse _ _
  have hheaders := hstatus.trans (composed_addHeaders typeText _ (toInt form.length))
  exact hheaders.trans (composed_addResponse _ form)

/-- The members set last by `process_write(FILE_REQUEST)`. -/
def offering (c : HttpConn) : HttpConn :=
  { c with
    iv0 := ⟨.writeBuf 0, c.writeIndex⟩
    iv1 := ⟨.file c.fileAddress 0, toSizeT c.fileStat.stSize⟩
    ivCount := 2
    bytesToSend := toInt (c.writeIndex + c.fileStat.stSize) }

theorem offerFile_eq (typeText : List UInt8) (c : HttpConn) :
    c.offerFile typeText =
      ((c.addStatusLine 200 ok200Title).2.addHeaders typeText
        (toInt (c.addStatusLine 200 ok200Title).2.fileStat.stSize)).offering := rfl

theorem offering_withLeftover {c : HttpConn} {p : Leftover} (hstat : c.fileStat = p.fileStat)
    (haddress : c.fileAddress = p.fileAddress) : (c.withLeftover p).offering = c.offering := by
  unfold offering withLeftover
  simp only [hstat, haddress]

/-- A response with a file is composed from the file alone. -/
theorem offerFile_withLeftover (typeText : List UInt8) {c : HttpConn} {p : Leftover}
    (hstat : c.fileStat = p.fileStat) (haddress : c.fileAddress = p.fileAddress) :
    (c.withLeftover p).offerFile typeText = c.offerFile typeText := by
  have hstatus : Composed c (c.addStatusLine 200 ok200Title).2 := composed_addResponse _ _
  have hsize : (c.addStatusLine 200 ok200Title).2.fileStat = p.fileStat := by
    rw [hstatus.file.1, hstat]
  have hheaders := hstatus.trans (composed_addHeaders typeText _ (toInt p.fileStat.stSize))
  have hleft : (c.withLeftover p).addStatusLine 200 ok200Title =
      ((c.addStatusLine 200 ok200Title).1, (c.addStatusLine 200 ok200Title).2.withLeftover p) :=
    addResponse_withLeftover c p _
  rw [offerFile_eq, offerFile_eq, hleft, hsize, addHeaders_withLeftover]
  apply offering_withLeftover
  · exact hheaders.file.1.trans hstat
  · exact hheaders.file.2.trans haddress

/-! ## Calls on slots that are alike -/

theorem alike_closeConn {c c' : HttpConn} (h : Alike c c') : Alike c.closeConn c'.closeConn := by
  rcases h with rfl | ⟨hzero, p, rfl⟩
  · exact Or.inl rfl
  · right
    unfold closeConn
    have hsock : (c.withLeftover p).sockfd = c.sockfd := rfl
    rw [hsock]
    split
    · exact ⟨hzero, p, rfl⟩
    · exact ⟨hzero, p, rfl⟩

theorem Alike.realFile {c c' : HttpConn} (h : Alike c c') : c'.realFile = c.realFile := by
  rcases h with rfl | ⟨-, p, rfl⟩ <;> rfl

section Alike

variable (typeText : List UInt8) {c : HttpConn} (h : c.bytesToSend = 0) (p : Leftover)
include h

theorem alike_offerBuffer : Alike c.offerBuffer (c.withLeftover p).offerBuffer :=
  Or.inr ⟨h, { p with iv0 := ⟨.writeBuf 0, c.writeIndex⟩, ivCount := 1 }, rfl⟩

theorem alike_error (status : ℤ) (title form : List UInt8) :
    (processWrite.offered ((c.withLeftover p).addError typeText status title form)).1 =
        (processWrite.offered (c.addError typeText status title form)).1 ∧
      Alike (processWrite.offered (c.addError typeText status title form)).2
        (processWrite.offered ((c.withLeftover p).addError typeText status title form)).2 := by
  have hzero : (c.addError typeText status title form).2.bytesToSend = 0 := by
    rw [(composed_addError typeText c status title form).bytesToSend, h]
  rw [addError_withLeftover]
  generalize c.addError typeText status title form = r at hzero
  obtain ⟨ok, c'⟩ := r
  cases ok with
  | false => exact ⟨rfl, Or.inr ⟨hzero, p, rfl⟩⟩
  | true => exact ⟨rfl, alike_offerBuffer hzero p⟩

/-- The response to a verdict other than `FILE_REQUEST` overwrites or ignores the leftovers. -/
theorem alike_processWrite {code : HttpCode} (hcode : code ≠ .fileRequest) :
    ((c.withLeftover p).processWrite typeText code).1 = (c.processWrite typeText code).1 ∧
      Alike (c.processWrite typeText code).2
        ((c.withLeftover p).processWrite typeText code).2 := by
  cases code <;> simp only [processWrite]
  case fileRequest => exact absurd rfl hcode
  case internalError => exact alike_error typeText h p _ _ _
  case badRequest => exact alike_error typeText h p _ _ _
  case noResource => exact alike_error typeText h p _ _ _
  case forbiddenRequest => exact alike_error typeText h p _ _ _
  case noRequest => exact ⟨trivial, alike_offerBuffer h p⟩
  case getRequest => exact ⟨trivial, alike_offerBuffer h p⟩
  case closedConnection => exact ⟨trivial, alike_offerBuffer h p⟩

end Alike

/-- `do_request` looks at no leftovers, and sets those of a file it has found. -/
theorem doRequest_withLeftover (fs : FileSystem) (c : HttpConn) (p : Leftover) :
    ∃ p', (c.withLeftover p).doRequest fs =
        ((c.doRequest fs).1, (c.doRequest fs).2.withLeftover p') ∧
      ((c.doRequest fs).1 = .fileRequest →
        (c.doRequest fs).2.fileStat = p'.fileStat ∧
          (c.doRequest fs).2.fileAddress = p'.fileAddress) := by
  have hpath : (c.withLeftover p).pathOf = c.pathOf := rfl
  rw [doRequest_eq, doRequest_eq, hpath]
  cases fs.stat c.pathOf with
  | none => exact ⟨p, rfl, fun hcode => by cases hcode⟩
  | some st =>
    simp only
    split
    · exact ⟨{ p with fileStat := st }, rfl, fun hcode => by cases hcode⟩
    · exact ⟨{ p with fileStat := st, fileAddress := _ }, rfl, fun _ => ⟨rfl, rfl⟩⟩

theorem doRequest_kept (fs : FileSystem) (c : HttpConn) :
    (c.doRequest fs).2.bytesToSend = c.bytesToSend ∧
      (c.doRequest fs).2.toReadState = c.toReadState ∧
      (c.doRequest fs).2.sockfd = c.sockfd := by
  rcases doRequest_inv fs c with ⟨-, heq⟩ | ⟨st, -, ⟨-, heq⟩ | ⟨-, heq⟩⟩
  all_goals
    rw [heq]
    exact ⟨rfl, rfl, rfl⟩

theorem respond_eq (typeText : List UInt8) (code : HttpCode) (c : HttpConn) :
    process.respond typeText (code, c) =
      ((.epollout, some code),
        if (c.processWrite typeText code).1 then (c.processWrite typeText code).2
        else (c.processWrite typeText code).2.closeConn) := by
  rw [process.respond]
  generalize c.processWrite typeText code = r
  obtain ⟨ok, c'⟩ := r
  cases ok <;> rfl

/-- The answer of a worker, from slots that differ in leftovers. -/
theorem alike_respond (typeText : List UInt8) {c : HttpConn} (h : c.bytesToSend = 0)
    (p : Leftover) {code : HttpCode}
    (hfile : code = .fileRequest → c.fileStat = p.fileStat ∧ c.fileAddress = p.fileAddress) :
    (process.respond typeText (code, c.withLeftover p)).1 =
        (process.respond typeText (code, c)).1 ∧
      Alike (process.respond typeText (code, c)).2
        (process.respond typeText (code, c.withLeftover p)).2 := by
  rw [respond_eq, respond_eq]
  refine ⟨rfl, ?_⟩
  by_cases hcode : code = .fileRequest
  · obtain ⟨hstat, haddress⟩ := hfile hcode
    subst hcode
    left
    show (c.withLeftover p).offerFile typeText = c.offerFile typeText
    exact offerFile_withLeftover typeText hstat haddress
  · obtain ⟨hok, halike⟩ := alike_processWrite typeText h p hcode
    simp only [hok]
    split
    · exact halike
    · exact alike_closeConn halike

theorem alike_process (typeText : List UInt8) (fs : FileSystem) {c : HttpConn}
    (h : c.bytesToSend = 0) (p : Leftover) :
    ((c.withLeftover p).process typeText fs).1 = (c.process typeText fs).1 ∧
      Alike (c.process typeText fs).2 ((c.withLeftover p).process typeText fs).2 := by
  unfold process
  have hread : (c.withLeftover p).toReadState = c.toReadState := rfl
  simp only [hread]
  generalize c.toReadState.processRead = parsed
  obtain ⟨result, r⟩ := parsed
  have hzero : ({ c with toReadState := r } : HttpConn).bytesToSend = 0 := h
  cases result with
  | noRequest => exact ⟨rfl, Or.inr ⟨hzero, p, rfl⟩⟩
  | badRequest => exact alike_respond typeText hzero p (fun hcode => by cases hcode)
  | doRequest =>
    obtain ⟨p', heq, hfile⟩ := doRequest_withLeftover fs { c with toReadState := r } p
    have hsend := (doRequest_kept fs { c with toReadState := r }).1.trans hzero
    have heq' : ({ c.withLeftover p with toReadState := r } : HttpConn).doRequest fs = _ := heq
    simp only [heq']
    exact alike_respond typeText hsend p' hfile

/-- A call on slots that are alike returns the same, and leaves them alike. -/
theorem alike_call (typeText : List UInt8) {c c' : HttpConn} (h : Alike c c') (a : Call) :
    (c'.call typeText a).1 = (c.call typeText a).1 ∧
      Alike (c.call typeText a).2 (c'.call typeText a).2 := by
  rcases h with rfl | ⟨hzero, p, rfl⟩
  · exact ⟨rfl, Or.inl rfl⟩
  · cases a with
    | read rs => exact ⟨rfl, Or.inr ⟨hzero, p, rfl⟩⟩
    | process fs =>
      obtain ⟨hresult, halike⟩ := alike_process typeText fs hzero p
      refine ⟨?_, halike⟩
      have hcall : ∀ d : HttpConn, (d.call typeText (.process fs)).1 =
          .process (d.process typeText fs).1.1 (d.process typeText fs).1.2
            (d.process typeText fs).2.realFile := fun _ => rfl
      rw [hcall, hcall, hresult, halike.realFile]
    | write rs =>
      -- nothing to send: `write` only resets the slot
      have hzero' : (c.withLeftover p).bytesToSend = 0 := hzero
      simp only [call, write, if_pos hzero, if_pos hzero']
      exact ⟨trivial, Or.inr ⟨rfl, p, rfl⟩⟩

theorem alike_results (typeText : List UInt8) {c c' : HttpConn} (h : Alike c c')
    (as : List Call) : results typeText c' as = results typeText c as := by
  induction as generalizing c c' with
  | nil => rfl
  | cons a as ih =>
    obtain ⟨hresult, halike⟩ := alike_call typeText h a
    rw [results, results, hresult, ih halike]

end HttpConn

/-! ## `m_read_index` -/

namespace ReadState

theorem parseLine_readIndex (c : ReadState) : c.parseLine.2.readIndex = c.readIndex := by
  fun_induction parseLine c with
  | case6 c hlt temp hcr hlf ih => exact ih
  | _ => rfl

theorem mainSwitch_stops {c : ReadState} {res : ParseResult × ReadState}
    (h : c.mainSwitch = .inl res) : res.2.readIndex = c.readIndex := by
  unfold mainSwitch at h
  simp only at h
  split at h
  · have hsame := (parseRequestLine_same { c with startLine := c.checkedIndex } c.startLine)
    split at h <;> cases h
    rename_i heq
    rw [heq] at hsame
    exact hsame.readIndex
  · have hidx := (parseRequestHeader_indices { c with startLine := c.checkedIndex } c.startLine).2
    split at h <;> cases h
    all_goals
      rename_i heq
      rw [heq] at hidx
      exact hidx
  · have hidx := (parseRequestContent_indices { c with startLine := c.checkedIndex } c.startLine).2
    split at h <;> cases h
    rename_i heq
    rw [heq] at hidx
    exact hidx

theorem processReadLoop_readIndex (status : LineStatus) (c : ReadState) :
    (processReadLoop status c).2.readIndex = c.readIndex := by
  fun_induction processReadLoop status c with
  | case1 status c hcontent r hswitch => exact mainSwitch_stops hswitch
  | case2 status c hcontent status' c' hswitch ih =>
    rw [ih, (mainSwitch_continue hswitch).2.1]
  | case3 status c hcontent c' hline r hswitch =>
    have hread := parseLine_readIndex c
    rw [hline] at hread
    rw [mainSwitch_stops hswitch]
    exact hread
  | case4 status c hcontent c' hline status' c'' hswitch ih =>
    have hread := parseLine_readIndex c
    rw [hline] at hread
    rw [ih, (mainSwitch_continue hswitch).2.1]
    exact hread
  | case5 status c hcontent c' hline =>
    have hread := parseLine_readIndex c
    rw [hline] at hread
    exact hread
  | case6 status c hcontent c' hline =>
    have hread := parseLine_readIndex c
    rw [hline] at hread
    exact hread

/-- There is nothing to parse in a slot that was just reset. -/
theorem processRead_init : init.processRead = (.noRequest, init) := by
  have hline : init.parseLine = (.lineOpen, init) := by
    rw [parseLine, if_neg (by decide)]
  exact processReadLoop_stops .lineOk (by decide) hline (by decide)

end ReadState

namespace HttpConn

/-! ## What a slot keeps -/

/-- A slot without bytes received is as `init()` leaves it. -/
def ResetIfUnread (c : HttpConn) : Prop := c.readIndex = 0 → c.init = c

theorem resetIfUnread_of_read {c : HttpConn} (h : c.readIndex ≠ 0) : ResetIfUnread c :=
  fun hzero => absurd hzero h

theorem closeConn_toReadState (c : HttpConn) : c.closeConn.toReadState = c.toReadState := by
  unfold closeConn
  split <;> rfl

theorem unmap_kept (c : HttpConn) :
    c.unmap.toReadState = c.toReadState ∧ c.unmap.sockfd = c.sockfd := by
  unfold unmap
  split <;> exact ⟨rfl, rfl⟩

theorem advance_kept (c : HttpConn) (n : ℕ) :
    (c.advance n).toReadState = c.toReadState ∧ (c.advance n).sockfd = c.sockfd := by
  unfold advance
  simp only
  split <;> exact ⟨rfl, rfl⟩

/-- A piece that is taken is subtracted, as an `int`. -/
theorem bytesToSend_advance (c : HttpConn) (n : ℕ) :
    (c.advance n).bytesToSend = toInt (c.bytesToSend - n) := by
  unfold advance
  simp only
  split <;> rfl

/-- What `process_write` can do to a slot: it appends texts, and then sets the `iovec`s or stops. -/
theorem processWrite_composed (typeText : List UInt8) (c : HttpConn) (code : HttpCode) :
    ∃ d, Composed c d ∧ ((c.processWrite typeText code).2 = d ∨
      (c.processWrite typeText code).2 = d.offerBuffer ∨
      (c.processWrite typeText code).2 = d.offering) := by
  have herror : ∀ status title form, ∃ d, Composed c d ∧
      ((processWrite.offered (c.addError typeText status title form)).2 = d ∨
        (processWrite.offered (c.addError typeText status title form)).2 = d.offerBuffer ∨
        (processWrite.offered (c.addError typeText status title form)).2 = d.offering) := by
    intro status title form
    have hcomposed := composed_addError typeText c status title form
    generalize c.addError typeText status title form = p at hcomposed
    obtain ⟨ok, d⟩ := p
    cases ok with
    | true => exact ⟨d, hcomposed, Or.inr (Or.inl rfl)⟩
    | false => exact ⟨d, hcomposed, Or.inl rfl⟩
  have hstatus : Composed c (c.addStatusLine 200 ok200Title).2 := composed_addResponse _ _
  have hsame : Composed c c := ⟨c.writeBuf, c.writeIndex, rfl, Nat.le_refl _, id⟩
  cases code <;> simp only [processWrite]
  case internalError => exact herror _ _ _
  case badRequest => exact herror _ _ _
  case noResource => exact herror _ _ _
  case forbiddenRequest => exact herror _ _ _
  case fileRequest =>
    exact ⟨_, hstatus.trans (composed_addHeaders typeText _ _), Or.inr (Or.inr (offerFile_eq _ _))⟩
  case noRequest => exact ⟨c, hsame, Or.inr (Or.inl rfl)⟩
  case getRequest => exact ⟨c, hsame, Or.inr (Or.inl rfl)⟩
  case closedConnection => exact ⟨c, hsame, Or.inr (Or.inl rfl)⟩

theorem processWrite_kept (typeText : List UInt8) (c : HttpConn) (code : HttpCode) :
    (c.processWrite typeText code).2.toReadState = c.toReadState ∧
      (c.processWrite typeText code).2.sockfd = c.sockfd := by
  obtain ⟨d, hd, hwritten⟩ := processWrite_composed typeText c code
  rcases hwritten with hwritten | hwritten | hwritten
  all_goals
    rw [hwritten]
    exact ⟨hd.toReadState, hd.sockfd⟩

theorem respond_toReadState (typeText : List UInt8) (p : HttpCode × HttpConn) :
    (process.respond typeText p).2.toReadState = p.2.toReadState := by
  obtain ⟨code, c⟩ := p
  rw [respond_eq]
  simp only
  split
  · exact (processWrite_kept typeText c code).1
  · rw [closeConn_toReadState]
    exact (processWrite_kept typeText c code).1

/-- Of the members of the parser, `process` changes what `process_read` does. -/
theorem process_toReadState (typeText : List UInt8) (fs : FileSystem) (c : HttpConn) :
    (c.process typeText fs).2.toReadState = c.toReadState.processRead.2 := by
  unfold process
  generalize c.toReadState.processRead = parsed
  obtain ⟨result, r⟩ := parsed
  cases result with
  | noRequest => rfl
  | badRequest => simp only [respond_toReadState]
  | doRequest => simp only [respond_toReadState, doRequest_kept]

/-- Sending keeps the members of the parser, or ends with `init()`. -/
theorem writeLoop_toReadState (rs : List WriteResult) (c : HttpConn)
    (handed : List (Option (List UInt8))) :
    (c.writeLoop handed rs).2.toReadState = c.toReadState ∨
      ∃ d : HttpConn, (c.writeLoop handed rs).2 = d.init := by
  induction rs generalizing c handed with
  | nil => exact Or.inl rfl
  | cons r rs ih =>
    cases r with
    | failed e =>
      left
      rw [writeLoop]
      split
      · rfl
      · exact (unmap_kept c).1
    | wrote n =>
      rw [writeLoop]
      split
      · split
        · exact Or.inr ⟨_, rfl⟩
        · left
          show (c.advance n).unmap.toReadState = c.toReadState
          rw [(unmap_kept _).1, (advance_kept _ _).1]
      · rcases ih (c.advance n) (handed ++ [c.offered.map (List.take n)]) with hsame | hinit
        · left
          rw [hsame, (advance_kept _ _).1]
        · exact Or.inr hinit

/-! ## The socket -/

theorem sockfd_writeLoop (rs : List WriteResult) (c : HttpConn)
    (handed : List (Option (List UInt8))) : (c.writeLoop handed rs).2.sockfd = c.sockfd := by
  induction rs generalizing c handed with
  | nil => rfl
  | cons r rs ih =>
    cases r with
    | failed e =>
      rw [writeLoop]
      split
      · rfl
      · exact (unmap_kept c).2
    | wrote n =>
      have hdone : (c.advance n).unmap.sockfd = c.sockfd := by
        rw [(unmap_kept _).2, (advance_kept _ _).2]
      rw [writeLoop]
      split
      · split
        · exact hdone
        · exact hdone
      · exact (ih _ _).trans (advance_kept c n).2

theorem sockfd_write (c : HttpConn) (rs : List WriteResult) :
    (c.write rs).2.sockfd = c.sockfd := by
  unfold write
  split
  · rfl
  · exact sockfd_writeLoop rs c []

/-- When the response goes on or is complete, the socket is armed again. -/
theorem arm_writeLoop (rs : List WriteResult) (c : HttpConn)
    (handed : List (Option (List UInt8))) (h : (c.writeLoop handed rs).1.ret = true) :
    (c.writeLoop handed rs).1.arm ≠ .none := by
  induction rs generalizing c handed with
  | nil => exact Arm.noConfusion
  | cons r rs ih =>
    cases r with
    | failed e =>
      rw [writeLoop] at h ⊢
      split
      · exact Arm.noConfusion
      · rename_i hfatal
        rw [if_neg hfatal] at h
        cases h
    | wrote n =>
      rw [writeLoop] at h ⊢
      split
      · rename_i hdone
        simp only [if_pos hdone] at h
        split
        · exact Arm.noConfusion
        · exact Arm.noConfusion
      · rename_i hmore
        simp only [if_neg hmore] at h
        exact ih _ _ h

theorem arm_write {c : HttpConn} {rs : List WriteResult} (h : (c.write rs).1.ret = true) :
    (c.write rs).1.arm ≠ .none := by
  unfold write at h ⊢
  split
  · exact Arm.noConfusion
  · rename_i hne
    rw [if_neg hne] at h
    exact arm_writeLoop rs c [] h

theorem process_respond (typeText : List UInt8) (p : HttpCode × HttpConn) :
    (process.respond typeText p).1.1 ≠ .none ∧
      ((process.respond typeText p).2.sockfd = p.2.sockfd ∨
        (process.respond typeText p).2.sockfd = -1) := by
  obtain ⟨code, c⟩ := p
  rw [respond_eq]
  refine ⟨Arm.noConfusion, ?_⟩
  simp only
  split
  · exact .inl (processWrite_kept typeText c code).2
  · unfold closeConn
    split
    · exact .inr rfl
    · exact .inl (processWrite_kept typeText c code).2

/-- `process` ends with a `modfd`, on the socket it found or on the `-1` of its `close_conn`. -/
theorem process_socket (typeText : List UInt8) (fs : FileSystem) (c : HttpConn) :
    (c.process typeText fs).1.1 ≠ .none ∧
      ((c.process typeText fs).2.sockfd = c.sockfd ∨ (c.process typeText fs).2.sockfd = -1) := by
  unfold process
  simp only
  generalize c.toReadState.processRead = parsed
  obtain ⟨result, r⟩ := parsed
  have hsock : ({ c with toReadState := r } : HttpConn).sockfd = c.sockfd := rfl
  generalize ({ c with toReadState := r } : HttpConn) = c' at hsock
  rw [← hsock]
  cases result with
  | noRequest => exact ⟨Arm.noConfusion, .inl rfl⟩
  | badRequest =>
    simp only
    exact process_respond typeText (.badRequest, c')
  | doRequest =>
    simp only
    have hrespond := process_respond typeText (c'.doRequest fs)
    rw [(doRequest_kept fs c').2.2] at hrespond
    exact hrespond

/-! ## Slots without bytes -/

section Serve

variable {c : HttpConn}

theorem resetIfUnread_initConn (h : ResetIfUnread c) (sockfd : ℤ) :
    ResetIfUnread (c.initConn sockfd) := by
  intro hzero
  show { c.init with sockfd := sockfd } = { c with sockfd := sockfd }
  rw [h hzero]

theorem resetIfUnread_closeConn (h : ResetIfUnread c) : ResetIfUnread c.closeConn := by
  unfold closeConn
  split
  · exact resetIfUnread_initConn h (-1)
  · exact h

theorem resetIfUnread_read (h : ResetIfUnread c) (rs : List ReadState.Recv) :
    ResetIfUnread (c.read rs).2 := by
  obtain ⟨x, hx, -⟩ := ReadState.read_deliver rs c.toReadState
  have hread : (c.read rs).2 = { c with toReadState := c.toReadState.deliver x } := by
    rw [← hx]
    rfl
  rw [hread]
  intro hzero
  have hindex : c.readIndex + x.length = 0 := hzero
  have hnil : x = [] := List.length_eq_zero_iff.mp (by omega)
  rw [hnil, ReadState.deliver_nil]
  exact h (by omega)

/-- Without bytes received the parser asks for more. -/
theorem resetIfUnread_process (h : ResetIfUnread c) (typeText : List UInt8) (fs : FileSystem) :
    ResetIfUnread (c.process typeText fs).2 := by
  intro hzero
  rw [process_toReadState] at hzero
  have hindex : c.readIndex = 0 := by
    rw [← ReadState.processReadLoop_readIndex .lineOk c.toReadState]
    exact hzero
  have hinit := h hindex
  have hparse : c.toReadState.processRead = (.noRequest, c.toReadState) := by
    rw [← hinit]
    exact ReadState.processRead_init
  rw [process, hparse]
  exact hinit

/-- A slot with something to send has received a request. -/
theorem resetIfUnread_write (h : ResetIfUnread c) (rs : List WriteResult) :
    ResetIfUnread (c.write rs).2 := by
  rw [write]
  by_cases hsend : c.bytesToSend = 0
  · rw [if_pos hsend]
    exact fun _ => rfl
  · rw [if_neg hsend]
    have hread : c.readIndex ≠ 0 := by
      intro hzero
      rw [← h hzero] at hsend
      exact hsend rfl
    rcases writeLoop_toReadState rs c [] with hsame | ⟨d, hinit⟩
    · apply resetIfUnread_of_read
      rw [hsame]
      exact hread
    · rw [hinit]
      exact fun _ => rfl

/-- No call and no change of the client touches a slot without bytes, except to reset it. -/
theorem resetIfUnread_serve (typeText : List UInt8) (h : ResetIfUnread c) (e : Event) :
    ResetIfUnread (c.serve typeText e) := by
  cases e with
  | init sockfd => exact resetIfUnread_initConn h sockfd
  | closeConn => exact resetIfUnread_closeConn h
  | call a =>
    cases a with
    | read rs => exact resetIfUnread_read h rs
    | process fs => exact resetIfUnread_process h typeText fs
    | write rs => exact resetIfUnread_write h rs

end Serve

theorem resetIfUnread_history (typeText : List UInt8) (es : List Event) :
    ResetIfUnread (history typeText es) := by
  have hrun : ∀ (es : List Event) (c : HttpConn), ResetIfUnread c →
      ResetIfUnread (es.foldl (serve typeText) c) := by
    intro es
    induction es with
    | nil => exact fun _ h => h
    | cons e es ih => exact fun c h => ih _ (resetIfUnread_serve typeText h e)
  exact hrun es new (fun _ => rfl)

/-! ## The next client -/

/-- Slots that were just reset are alike. -/
theorem alike_init (c d : HttpConn) (sockfd : ℤ) :
    Alike (d.init.initConn sockfd) (c.init.initConn sockfd) :=
  Or.inr ⟨rfl, ⟨c.fileStat, c.fileAddress, c.iv0, c.iv1, c.ivCount⟩, rfl⟩

/-- As many bytes as `read()` accepts. -/
def fullBuffer : Call := .read [.data (List.replicate (readBufferSize - 1) 0)]

/-- They fit into a slot that was reset, and into no other. -/
theorem fullBuffer_result (typeText : List UInt8) (c : HttpConn) :
    (c.call typeText fullBuffer).1 = .read (decide (c.readIndex = 0)) := by
  have hcall : (c.call typeText fullBuffer).1 = .read
      (c.toReadState.read ([List.replicate (readBufferSize - 1) 0].map .data)).1 := rfl
  have hsize : readBufferSize = 2048 := rfl
  have hlen : (List.replicate (readBufferSize - 1) (0 : UInt8)).length = readBufferSize - 1 :=
    List.length_replicate
  rw [hcall]
  generalize List.replicate (readBufferSize - 1) (0 : UInt8) = bytes at hlen ⊢
  congr 1
  by_cases hfull : readBufferSize ≤ c.readIndex
  · rw [ReadState.read, if_pos hfull, decide_eq_false (by omega)]
  · have hne : bytes ≠ [] := List.length_pos_iff.mp (by omega)
    rw [ReadState.read_chunks (List.forall_mem_singleton.mpr hne) (by omega),
      List.flatten_singleton, hlen]
    have hiff : c.readIndex + (readBufferSize - 1) < readBufferSize ↔ c.readIndex = 0 := by omega
    rw [decide_eq_decide.mpr hiff]

/-- After any history, a new client gets what it would get from a slot just reset by `init()`
exactly when the slot holds no bytes of an earlier client. -/
theorem no_interference_iff (typeText : List UInt8) (es : List Event) :
    (∀ (sockfd : ℤ) (d : HttpConn) (as : List Call),
        results typeText ((history typeText es).initConn sockfd) as =
          results typeText (d.init.initConn sockfd) as) ↔
      (history typeText es).readIndex = 0 := by
  constructor
  · intro h
    -- one call tells them apart: a full buffer of bytes fits only a slot without any
    have hfirst := h 0 new [fullBuffer]
    simp only [results, fullBuffer_result, List.cons.injEq, Result.read.injEq, and_true] at hfirst
    have hreset : (new.init.initConn 0).readIndex = 0 := rfl
    rw [hreset, decide_eq_true rfl] at hfirst
    exact of_decide_eq_true hfirst
  · intro hzero sockfd d as
    have hinit := resetIfUnread_history typeText es hzero
    rw [← hinit]
    exact alike_results typeText (alike_init _ d sockfd) as

/-- A file system without files. -/
def noFiles : FileSystem := ⟨fun _ => none, fun _ _ => .mapFailed⟩

/-- A client that sends a request line and hangs up. -/
def secretClient : List Event :=
  [.init 5, .call (.read [.data (ascii "GET /secret HTTP/1.1\r\n")]), .call (.process noFiles),
    .closeConn]

/-- A client that sends an empty line. -/
def emptyLine : List Call := [.read [.data (ascii "\r\n")], .process noFiles]

/-- The empty line of the second client ends the request of the first. -/
theorem next_client_asks_for_secret :
    results [] ((history [] secretClient).initConn 6) emptyLine =
        [.read true, .process .epollout (some .noResource) (docRoot ++ ascii "/secret")] ∧
      results [] (new.init.initConn 6) emptyLine =
        [.read true, .process .epollout (some .badRequest) []] := by
  decide +kernel

end HttpConn
end Webservers
