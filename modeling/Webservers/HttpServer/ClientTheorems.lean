import Webservers.HttpConn.AnswerTheorems
import Webservers.HttpConn.AppendTheorems
import Webservers.HttpConn.LoopTheorems
import Webservers.HttpServer.OwnershipTheorems
import Webservers.Lib.View

/-!
# One connection among many

The slots of `users` are served by one main thread and by workers that take whatever is next. Seen
from one descriptor, all this comes down to the calls that are made on its slot.

* `initConn` commutes with every call: which socket a slot has decides nothing but whether
  `close_conn` does something.
* `callOn`: the call on the slot of `fd` that a step makes, `callsOn` those of a whole run.
* `results_of_slot_alone`: the calls return, and leave the slot, as if they were made on a slot
  of their own, whatever happens to the others.
* `slots_in_bounds`: what a call keeps, every run of the server keeps in every slot; here that the
  arrays of the slots suffice.

Both are about runs in which a call is over before the next one on its slot begins (`FreshFd`).
-/

namespace Webservers

namespace HttpConn

/-! ## The socket of a slot -/

section Socket

variable (typeText : List UInt8) (c : HttpConn) (sockfd : ℤ)

/-- Appending a text does not look at the socket. -/
theorem addResponse_initConn (text : List UInt8) :
    (c.initConn sockfd).addResponse text =
      ((c.addResponse text).1, (c.addResponse text).2.initConn sockfd) := by
  have hindex : (c.initConn sockfd).writeIndex = c.writeIndex := rfl
  unfold addResponse
  rw [hindex]
  split
  · rfl
  · simp only
    split <;> rfl

theorem addLinger_initConn :
    (c.initConn sockfd).addLinger = (c.addLinger.1, c.addLinger.2.initConn sockfd) :=
  addResponse_initConn c sockfd _

/-- The headers are composed alike, whatever the socket is. -/
theorem addHeaders_initConn (contentLen : ℤ) :
    (c.initConn sockfd).addHeaders typeText contentLen =
      (c.addHeaders typeText contentLen).initConn sockfd := by
  simp only [addHeaders, addContentLength, addContentType, addBlankLine, addResponse_initConn,
    addLinger_initConn]

/-- So is an error page. -/
theorem addError_initConn (status : ℤ) (title form : List UInt8) :
    (c.initConn sockfd).addError typeText status title form =
      ((c.addError typeText status title form).1,
        (c.addError typeText status title form).2.initConn sockfd) := by
  simp only [addError, addStatusLine, addContent, addResponse_initConn, addHeaders_initConn]

/-- So is the head of a response with a file. -/
theorem offerFile_initConn :
    (c.initConn sockfd).offerFile typeText = (c.offerFile typeText).initConn sockfd := by
  have hstat : ∀ d : HttpConn, (d.initConn sockfd).fileStat = d.fileStat := fun _ => rfl
  have hoffering : ∀ d : HttpConn, (d.initConn sockfd).offering = d.offering.initConn sockfd :=
    fun _ => rfl
  simp only [offerFile_eq, addStatusLine, addResponse_initConn, hstat, addHeaders_initConn,
    hoffering]

/-- `process_write`, for every verdict. -/
theorem processWrite_initConn (code : HttpCode) :
    (c.initConn sockfd).processWrite typeText code =
      ((c.processWrite typeText code).1, (c.processWrite typeText code).2.initConn sockfd) := by
  have herror : ∀ status title form,
      processWrite.offered ((c.initConn sockfd).addError typeText status title form) =
        ((processWrite.offered (c.addError typeText status title form)).1,
          (processWrite.offered (c.addError typeText status title form)).2.initConn sockfd) := by
    intro status title form
    rw [addError_initConn]
    generalize c.addError typeText status title form = r
    obtain ⟨ok, d⟩ := r
    cases ok <;> rfl
  cases code <;> simp only [processWrite]
  case internalError => exact herror _ _ _
  case badRequest => exact herror _ _ _
  case noResource => exact herror _ _ _
  case forbiddenRequest => exact herror _ _ _
  case fileRequest => rw [offerFile_initConn]
  all_goals rfl

/-- `do_request` looks at the target only. -/
theorem doRequest_initConn (fs : FileSystem) :
    (c.initConn sockfd).doRequest fs =
      ((c.doRequest fs).1, (c.doRequest fs).2.initConn sockfd) := by
  have hpath : (c.initConn sockfd).pathOf = c.pathOf := rfl
  rw [doRequest_eq, doRequest_eq, hpath]
  cases fs.stat c.pathOf with
  | none => rfl
  | some st =>
    simp only
    split <;> rfl

/-- `close_conn` changes the socket only. -/
theorem closeConn_initConn (c : HttpConn) (sockfd : ℤ) :
    c.closeConn.initConn sockfd = c.initConn sockfd := by
  unfold closeConn
  split <;> rfl

/-- The answer of a worker. Only its `close_conn` looks at the socket. -/
theorem respond_initConn (code : HttpCode) :
    (process.respond typeText (code, c.initConn sockfd)).1 =
        (process.respond typeText (code, c)).1 ∧
      ∀ sockfd', (process.respond typeText (code, c.initConn sockfd)).2.initConn sockfd' =
        (process.respond typeText (code, c)).2.initConn sockfd' := by
  rw [respond_eq, respond_eq, processWrite_initConn]
  refine ⟨rfl, fun sockfd' => ?_⟩
  simp only
  split
  · rfl
  · rw [closeConn_initConn, closeConn_initConn]
    rfl

/-- `process`, whatever the parser returns. -/
theorem process_initConn (fs : FileSystem) :
    ((c.initConn sockfd).process typeText fs).1 = (c.process typeText fs).1 ∧
      ∀ sockfd', ((c.initConn sockfd).process typeText fs).2.initConn sockfd' =
        (c.process typeText fs).2.initConn sockfd' := by
  have hread : (c.initConn sockfd).toReadState = c.toReadState := rfl
  unfold process
  simp only [hread]
  generalize c.toReadState.processRead = parsed
  obtain ⟨result, r⟩ := parsed
  cases result with
  | noRequest => exact ⟨rfl, fun _ => rfl⟩
  | badRequest => exact respond_initConn typeText { c with toReadState := r } sockfd .badRequest
  | doRequest =>
    have hfile := doRequest_initConn { c with toReadState := r } sockfd fs
    have hfile' : ({ c.initConn sockfd with toReadState := r } : HttpConn).doRequest fs = _ := hfile
    simp only [hfile']
    exact respond_initConn typeText _ sockfd _

theorem unmap_initConn : (c.initConn sockfd).unmap = c.unmap.initConn sockfd := by
  have haddress : (c.initConn sockfd).fileAddress = c.fileAddress := rfl
  unfold unmap
  rw [haddress]
  split <;> rfl

theorem advance_initConn (n : ℕ) :
    (c.initConn sockfd).advance n = (c.advance n).initConn sockfd := by
  by_cases hhead : c.iv0.iovLen ≤ toSizeT (toInt (c.bytesHaveSend + n))
  · simp only [advance, initConn, if_pos hhead]
    exact if_pos hhead
  · simp only [advance, initConn, if_neg hhead]
    exact if_neg hhead

/-- The loop of `write`, by induction on the results of `writev`. -/
theorem writeLoop_initConn (rs : List WriteResult) (handed : List (Option (List UInt8))) :
    (c.initConn sockfd).writeLoop handed rs =
      ((c.writeLoop handed rs).1, (c.writeLoop handed rs).2.initConn sockfd) := by
  induction rs generalizing c handed with
  | nil => rfl
  | cons r rs ih =>
    cases r with
    | failed e =>
      rw [writeLoop, writeLoop, unmap_initConn]
      split <;> rfl
    | wrote n =>
      have hoffered : (c.initConn sockfd).offered = c.offered := rfl
      have hsend : ((c.advance n).initConn sockfd).bytesToSend = (c.advance n).bytesToSend := rfl
      have hlinger : ((c.advance n).initConn sockfd).linger = (c.advance n).linger := rfl
      rw [writeLoop, writeLoop, advance_initConn, hoffered]
      simp only [hsend, hlinger, unmap_initConn, ih]
      split
      · split <;> rfl
      · rfl

/-- `write`, with the branch that finds nothing to send. -/
theorem write_initConn (rs : List WriteResult) :
    (c.initConn sockfd).write rs = ((c.write rs).1, (c.write rs).2.initConn sockfd) := by
  have hsend : (c.initConn sockfd).bytesToSend = c.bytesToSend := rfl
  unfold write
  rw [hsend, writeLoop_initConn]
  split <;> rfl

/-- A call on slots that differ in the socket returns the same, and changes them alike. -/
theorem call_initConn (a : Call) :
    ((c.initConn sockfd).call typeText a).1 = (c.call typeText a).1 ∧
      ∀ sockfd', ((c.initConn sockfd).call typeText a).2.initConn sockfd' =
        (c.call typeText a).2.initConn sockfd' := by
  cases a with
  | read rs => exact ⟨rfl, fun _ => rfl⟩
  | write rs =>
    simp only [call, write_initConn]
    exact ⟨trivial, fun _ => rfl⟩
  | process fs =>
    obtain ⟨hresult, hslot⟩ := process_initConn typeText c sockfd fs
    refine ⟨?_, hslot⟩
    have hfile : (((c.initConn sockfd).process typeText fs).2.initConn 0).realFile =
        ((c.process typeText fs).2.initConn 0).realFile := by rw [hslot 0]
    have hfile : ((c.initConn sockfd).process typeText fs).2.realFile =
        (c.process typeText fs).2.realFile := hfile
    simp only [call, hresult, hfile]

end Socket

/-- A call on a slot of which only the members apart from `m_sockfd` are known. -/
def callApart (typeText : List UInt8) (c : HttpConn) (a : Call) : HttpConn :=
  (c.call typeText a).2.initConn 0

/-- A sequence of calls leaves the same members, whatever the socket was. -/
theorem callApart_foldl (typeText : List UInt8) (as : List Call) (c : HttpConn) :
    as.foldl (callApart typeText) (c.initConn 0) =
      (as.foldl (fun c a => (c.call typeText a).2) c).initConn 0 := by
  induction as generalizing c with
  | nil => rfl
  | cons a as ih =>
    rw [List.foldl_cons, List.foldl_cons, ← ih, callApart,
      (call_initConn typeText c 0 a).2 0]

/-- And it returns the same. -/
theorem outputs_callApart (typeText : List UInt8) (as : List Call) (c : HttpConn) :
    Machine.outputs (callApart typeText) (fun c a => (c.call typeText a).1) (c.initConn 0) as =
      results typeText c as := by
  induction as generalizing c with
  | nil => rfl
  | cons a as ih =>
    obtain ⟨hresult, hslot⟩ := call_initConn typeText c 0 a
    rw [Machine.outputs, results, hresult, callApart, hslot 0, ih]

/-! ## The arrays of a slot -/

/-- What is counted in a slot fits into its arrays, a NUL behind it included. -/
structure Bounded (c : HttpConn) : Prop where
  inOrder : c.toReadState.InOrder
  writeIndex : c.writeIndex ≤ writeBufferSize - 2
  realFile : c.realFile.length < filenameLen

/-- `m_real_file` is the root and what `strncpy` copies behind it. -/
theorem length_pathOf_lt (c : HttpConn) : c.pathOf.length < filenameLen := by
  have hroot : docRoot.length = 41 := by decide
  have hlen : filenameLen = 200 := rfl
  rw [pathOf, List.length_append, List.length_take]
  omega

section Bounded

variable {c : HttpConn} (h : Bounded c)
include h

theorem Bounded.initConn (sockfd : ℤ) : Bounded (c.initConn sockfd) := ⟨h.1, h.2, h.3⟩

theorem Bounded.closeConn : Bounded c.closeConn := by
  unfold HttpConn.closeConn
  split
  · exact h.initConn (-1)
  · exact h

theorem Bounded.unmap : Bounded c.unmap := by
  unfold HttpConn.unmap
  split
  · exact h
  · exact ⟨h.1, h.2, h.3⟩

/-- Counting what was sent touches none of the arrays. -/
theorem Bounded.advance (n : ℕ) : Bounded (c.advance n) := by
  unfold HttpConn.advance
  simp only
  split
  · exact ⟨h.1, h.2, h.3⟩
  · exact ⟨h.1, h.2, h.3⟩

omit h in
/-- `init()` leaves a bounded slot, whatever it finds. -/
theorem bounded_init (c : HttpConn) : Bounded c.init :=
  ⟨ReadState.inOrder_init, Nat.zero_le _, show 0 < filenameLen by decide⟩

/-- A text that does not fit is not counted. -/
theorem Bounded.addResponse (text : List UInt8) : Bounded (c.addResponse text).2 := by
  have hindex := (addResponse_step h.writeIndex text).1
  obtain ⟨buf, index, heq, -⟩ := composed_addResponse c text
  rw [heq] at hindex ⊢
  exact ⟨h.1, hindex, h.3⟩

theorem Bounded.addResponses (texts : List (List UInt8)) : Bounded (c.addResponses texts).2 := by
  induction texts generalizing c with
  | nil => exact h
  | cons text texts ih =>
    rw [addResponses_cons]
    exact ih (h.addResponse text)

/-- An error page, reported as built or not. -/
theorem Bounded.offered (status : ℤ) (title form typeText : List UInt8) :
    Bounded (processWrite.offered (c.addError typeText status title form)).2 := by
  have herror : Bounded (c.addError typeText status title form).2 := by
    rw [addError_eq]
    exact (h.addResponses _).addResponse form
  generalize c.addError typeText status title form = r at herror
  obtain ⟨ok, d⟩ := r
  cases ok with
  | true => exact ⟨herror.1, herror.2, herror.3⟩
  | false => exact herror

/-- Every response of `process_write`. -/
theorem Bounded.processWrite (typeText : List UInt8) (code : HttpCode) :
    Bounded (c.processWrite typeText code).2 := by
  cases code <;> simp only [HttpConn.processWrite]
  case internalError => exact h.offered _ _ _ _
  case badRequest => exact h.offered _ _ _ _
  case noResource => exact h.offered _ _ _ _
  case forbiddenRequest => exact h.offered _ _ _ _
  case fileRequest =>
    rw [offerFile_pieces]
    generalize c.pieces typeText .fileRequest = texts
    have hhead := h.addResponses texts
    exact ⟨hhead.1, hhead.2, hhead.3⟩
  all_goals exact ⟨h.1, h.2, h.3⟩

/-- `do_request` writes a path that fits. -/
theorem Bounded.doRequest (fs : FileSystem) : Bounded (c.doRequest fs).2 := by
  rcases doRequest_inv fs c with ⟨-, heq⟩ | ⟨st, -, ⟨-, heq⟩ | ⟨-, heq⟩⟩
  all_goals
    rw [heq]
    exact ⟨h.1, h.2, length_pathOf_lt c⟩

theorem Bounded.respond (typeText : List UInt8) (code : HttpCode) :
    Bounded (process.respond typeText (code, c)).2 := by
  rw [respond_eq]
  simp only
  split
  · exact h.processWrite typeText code
  · exact (h.processWrite typeText code).closeConn

/-- `process`, whatever the parser returns. -/
theorem Bounded.process (typeText : List UInt8) (fs : FileSystem) :
    Bounded (c.process typeText fs).2 := by
  have horder := h.inOrder.processRead
  unfold HttpConn.process
  generalize c.toReadState.processRead = parsed at horder
  obtain ⟨result, r⟩ := parsed
  have hparsed : Bounded { c with toReadState := r } := ⟨horder, h.2, h.3⟩
  cases result with
  | noRequest => exact hparsed
  | badRequest => exact hparsed.respond typeText .badRequest
  | doRequest => exact (hparsed.doRequest fs).respond typeText _

/-- The loop of `write` ends in `init()`, or in a slot with the same arrays. -/
theorem Bounded.writeLoop (rs : List WriteResult) (handed : List (Option (List UInt8))) :
    Bounded (c.writeLoop handed rs).2 := by
  induction rs generalizing c handed with
  | nil => exact h
  | cons r rs ih =>
    cases r with
    | failed e =>
      rw [HttpConn.writeLoop]
      split
      · exact h
      · exact h.unmap
    | wrote n =>
      rw [HttpConn.writeLoop]
      split
      · split
        · exact bounded_init _
        · exact (h.advance n).unmap
      · exact ih (h.advance n) _

/-- Every call keeps the bounds, whatever it is given. -/
theorem Bounded.call (typeText : List UInt8) (a : Call) : Bounded (c.call typeText a).2 := by
  cases a with
  | read rs => exact ⟨h.inOrder.read rs, h.2, h.3⟩
  | process fs => exact h.process typeText fs
  | write rs =>
    show Bounded (c.write rs).2
    unfold HttpConn.write
    split
    · exact bounded_init c
    · exact h.writeLoop rs []

end Bounded
end HttpConn

namespace HttpServer

open HttpConn (Call Result callApart)

/-- The call that `main` makes for what is ready on a connection, if there is one. -/
def eventCall (events : Mask) (recvs : List ReadState.Recv) (writes : List WriteResult) :
    Option Call :=
  if events &&& (EPOLLRDHUP ||| EPOLLHUP ||| EPOLLERR) ≠ 0 then none
  else if events &&& EPOLLIN ≠ 0 then some (.read recvs)
  else if events &&& EPOLLOUT ≠ 0 then some (.write writes)
  else none

/-- The call that a step makes on the slot of `fd`. -/
def callOn (fd : ℕ) (s : HttpServer) : Label → Option Call
  | .handle recvs writes =>
    match s.events with
    | .conn fd' events :: _ => if fd' = fd then eventCall events recvs writes else none
    | _ => none
  | .process w fs => if s.workers[w]? = some (.processing fd) then some (.process fs) else none
  | _ => none

/-- What that call returns. -/
def resultOn (typeText : List UInt8) (fd : ℕ) (s : HttpServer) (a : Label) : Option Result :=
  (s.callOn fd a).map fun call => ((s.users fd).call typeText call).1

/-- The calls on the slot of `fd` along a run. -/
def callsOn (typeText : List UInt8) (maxRequests fd : ℕ) (s : HttpServer) (as : List Label) :
    List Call :=
  Machine.project (step typeText maxRequests) (callOn fd) s as

/-- What they return. -/
def resultsOn (typeText : List UInt8) (maxRequests fd : ℕ) (s : HttpServer) (as : List Label) :
    List Result :=
  Machine.project (step typeText maxRequests) (resultOn typeText fd) s as

/-- The slot of `fd`, `m_sockfd` apart. -/
def slotApart (fd : ℕ) (s : HttpServer) : HttpConn := (s.users fd).initConn 0

/-! ## Steps, seen from one slot -/

section Steps

variable {s t : HttpServer} {fd w : ℕ}

/-- Whatever a step calls on the slot, it has this effect on it. -/
def applied (typeText : List UInt8) (c : HttpConn) (a : Option Call) : HttpConn :=
  a.elim c (callApart typeText c)

@[simp] theorem slotApart_setWorker (s : HttpServer) (w : ℕ) (pc : WorkerPc) :
    (s.setWorker w pc).slotApart fd = s.slotApart fd := rfl

@[simp] theorem slotApart_rmfd (s : HttpServer) (sockfd : ℤ) :
    (s.rmfd sockfd).slotApart fd = s.slotApart fd := by
  unfold rmfd
  split <;> rfl

@[simp] theorem slotApart_modfd (s : HttpServer) (sockfd : ℤ) (ev : HttpConn.Arm) :
    (s.modfd sockfd ev).slotApart fd = s.slotApart fd := by
  unfold modfd
  split <;> rfl

@[simp] theorem slotApart_rearm (s : HttpServer) (sockfd : ℤ) (ev : HttpConn.Arm) :
    (s.rearm sockfd ev).slotApart fd = s.slotApart fd := by
  cases ev with
  | none => rfl
  | epollin | epollout => exact slotApart_modfd s sockfd _

@[simp] theorem slotApart_append (maxRequests : ℕ) (s : HttpServer) (fd' : ℕ) :
    (s.append maxRequests fd').2.slotApart fd = s.slotApart fd := by
  unfold append
  split <;> rfl

@[simp] theorem slotApart_addfd (s : HttpServer) (fd' : ℕ) :
    (s.addfd fd').slotApart fd = s.slotApart fd := rfl

theorem slotApart_setUser_self (s : HttpServer) (fd : ℕ) (c : HttpConn) :
    (s.setUser fd c).slotApart fd = c.initConn 0 := by
  simp only [slotApart, setUser, Function.update_self]

theorem slotApart_setUser_other {fd' : ℕ} (h : fd ≠ fd') (c : HttpConn) :
    (s.setUser fd' c).slotApart fd = s.slotApart fd := by
  simp only [slotApart, setUser, Function.update_of_ne h]

/-- A slot whose new value differs in the socket only. -/
theorem slotApart_setUser {fd' : ℕ} {c : HttpConn}
    (h : c.initConn 0 = (s.users fd').initConn 0) :
    (s.setUser fd' c).slotApart fd = s.slotApart fd := by
  by_cases heq : fd = fd'
  · subst heq
    rw [slotApart_setUser_self, h, slotApart]
  · exact slotApart_setUser_other heq c

/-- `close_conn` of any connection changes a socket only. -/
@[simp] theorem slotApart_closeConn (s : HttpServer) (fd' : ℕ) :
    (s.closeConn fd').slotApart fd = s.slotApart fd := by
  unfold closeConn
  split
  · have hslot : ((s.rmfd (s.users fd').sockfd).users fd').initConn 0 = (s.users fd').initConn 0 :=
      slotApart_rmfd s _
    rw [slotApart_setUser, slotApart_rmfd]
    rw [HttpConn.closeConn_initConn, hslot]
  · rfl

/-- A call made on the slot itself and on what the slot is apart from its socket. -/
theorem callApart_slotApart (typeText : List UInt8) (s : HttpServer) (fd : ℕ) (a : Call) :
    callApart typeText (s.slotApart fd) a = ((s.users fd).call typeText a).2.initConn 0 :=
  (HttpConn.call_initConn typeText (s.users fd) 0 a).2 0

/-- Handling an entry makes its call on the slot of the entry and none on another. -/
theorem slotApart_handleEvent (typeText : List UInt8) (maxRequests : ℕ) (s : HttpServer)
    (fd fd' : ℕ) (events : Mask) (recvs : List ReadState.Recv) (writes : List WriteResult) :
    (s.handleEvent maxRequests fd' events recvs writes).slotApart fd =
      applied typeText (s.slotApart fd)
        (if fd' = fd then eventCall events recvs writes else none) := by
  unfold handleEvent eventCall
  by_cases hhup : events &&& (EPOLLRDHUP ||| EPOLLHUP ||| EPOLLERR) ≠ 0
  · rw [if_pos hhup, if_pos hhup, ite_self, slotApart_closeConn]
    rfl
  · rw [if_neg hhup, if_neg hhup]
    have hset : ∀ a : Call, (s.setUser fd' ((s.users fd').call typeText a).2).slotApart fd =
        applied typeText (s.slotApart fd) (if fd' = fd then some a else none) := by
      intro a
      split
      · rename_i heq
        subst heq
        rw [slotApart_setUser_self, applied, Option.elim_some, callApart_slotApart]
      · rename_i hne
        rw [slotApart_setUser_other (Ne.symm hne)]
        rfl
    by_cases hin : events &&& EPOLLIN ≠ 0
    · rw [if_pos hin, if_pos hin, ← hset]
      simp only
      split
      · exact slotApart_append _ _ _
      · exact slotApart_closeConn _ _
    · rw [if_neg hin, if_neg hin]
      by_cases hout : events &&& EPOLLOUT ≠ 0
      · rw [if_pos hout, if_pos hout, ← hset]
        simp only
        split
        · exact slotApart_rearm _ _ _
        · rw [slotApart_closeConn]
          exact slotApart_rearm _ _ _
      · rw [if_neg hout, if_neg hout, ite_self]
        rfl

/-- `init(sockfd, addr)` changes the socket only. -/
theorem slotApart_accept {connfd : Option ℕ} {full : Bool}
    (h : s.accept connfd full = some t) : t.slotApart fd = s.slotApart fd := by
  unfold accept at h
  split at h
  · cases h
    rfl
  · split at h
    · cases h
    · split at h
      · cases h
        rfl
      · cases h
        rw [slotApart_addfd]
        exact slotApart_setUser rfl

/-- A worker calls `process` on the slot that it has taken, and on no other. -/
theorem slotApart_process {typeText : List UInt8} {fs : FileSystem}
    (h : s.process typeText w fs = some t) :
    t.slotApart fd = applied typeText (s.slotApart fd) (s.callOn fd (.process w fs)) := by
  unfold process at h
  split at h
  · rename_i fd' hw
    -- the slot that is processed, whatever its socket becomes
    have hset : ∀ c : HttpConn, c.initConn 0 = ((s.users fd').process typeText fs).2.initConn 0 →
        (s.setUser fd' c).slotApart fd =
          applied typeText (s.slotApart fd) (s.callOn fd (.process w fs)) := by
      intro c hc
      by_cases heq : fd = fd'
      · subst heq
        rw [slotApart_setUser_self, hc, callOn, if_pos hw, applied, Option.elim_some,
          callApart_slotApart]
        rfl
      · have hother : s.callOn fd (.process w fs) = none := by
          rw [callOn, hw, if_neg]
          intro h
          cases h
          exact heq rfl
        rw [slotApart_setUser_other heq, hother]
        rfl
    simp only at h
    split at h
    · cases h
      rw [slotApart_setWorker, slotApart_rmfd]
      exact hset _ rfl
    · cases h
      rw [slotApart_setWorker, slotApart_modfd]
      exact hset _ rfl
  · cases h

/-- What is left of `process` after `close(fd)` changes a socket only. -/
theorem slotApart_leave (h : s.leave w = some t) : t.slotApart fd = s.slotApart fd := by
  unfold leave at h
  split at h
  · cases h
    rw [slotApart_setWorker]
    exact slotApart_setUser rfl
  · cases h
    rw [slotApart_setWorker, slotApart_modfd]
  · cases h

/-- Every step makes the call that `callOn` gives on the slot, and nothing else. -/
theorem slotApart_step {typeText : List UInt8} {maxRequests : ℕ} {a : Label}
    (h : s.step typeText maxRequests a = some t) (hin : s.Contained a) :
    t.slotApart fd = applied typeText (s.slotApart fd) (s.callOn fd a) := by
  cases a with
  | wait reports =>
    simp only [step, Option.ite_none_right_eq_some, Option.some.injEq] at h
    obtain ⟨-, rfl⟩ := h
    rfl
  | accept connfd full =>
    simp only [step] at h
    split at h
    · rename_i rest _
      exact slotApart_accept (s := { s with events := rest }) h
    · cases h
  | handle recvs writes =>
    obtain ⟨fd', events, rest, hev, -, rfl⟩ := step_handle h
    rw [slotApart_handleEvent typeText, callOn, hev]
    rfl
  | take w =>
    simp only [step, take] at h
    split at h
    · cases h
      rfl
    · cases h
  | process w fs => exact slotApart_process (step_process h).2
  | overrun w left => exact hin.elim
  | leave w => exact slotApart_leave h

end Steps

/-! ## Runs -/

/-- In every run, with any number of workers and any limit of the queue, in which no descriptor is
given out while a worker is still in `process` of its last connection and no parser stores outside
its `m_read_buf`, the calls on the slot of `fd` return what they return on a slot of their own, and
leave the slot as that one apart from its socket. No other connection, and no order of the threads,
can be told from the answers. -/
theorem results_of_slot_alone (typeText : List UInt8) (maxRequests threadNum fd : ℕ)
    (as : List Label)
    (hfresh : Machine.Along (step typeText maxRequests) FreshFd (start threadNum) as) :
    resultsOn typeText maxRequests fd (start threadNum) as =
        HttpConn.results typeText HttpConn.new
          (callsOn typeText maxRequests fd (start threadNum) as) ∧
      ∀ s, Machine.exec (step typeText maxRequests) (start threadNum) as = some s →
        s.users fd =
          ((callsOn typeText maxRequests fd (start threadNum) as).foldl
            (fun c a => (c.call typeText a).2) HttpConn.new).initConn (s.users fd).sockfd := by
  have hview : ∀ (s : HttpServer) (a : Label) (t : HttpServer), s.FreshFd a →
      s.step typeText maxRequests a = some t →
        t.slotApart fd = (s.callOn fd a).elim (s.slotApart fd)
          (callApart typeText (s.slotApart fd)) :=
    fun s a t hfresh h => slotApart_step h hfresh.contained
  constructor
  · have hanswers := Machine.project_outputs (fun c a => (c.call typeText a).1) hview hfresh
    rw [show (start threadNum).slotApart fd = HttpConn.new.initConn 0 from rfl,
      HttpConn.outputs_callApart] at hanswers
    rw [callsOn, ← hanswers, resultsOn]
    congr 1
    funext s a
    rw [resultOn]
    congr 1
    funext call
    exact (HttpConn.call_initConn typeText (s.users fd) 0 call).1.symm
  · intro s hs
    have hslot := Machine.view_exec hview hfresh hs
    rw [show (start threadNum).slotApart fd = HttpConn.new.initConn 0 from rfl,
      HttpConn.callApart_foldl] at hslot
    calc s.users fd = (s.slotApart fd).initConn (s.users fd).sockfd := rfl
      _ = _ := by rw [hslot]; rfl

/-- The request of 5 arrives in two pieces, with 6 in between. -/
def interleaved : List Label :=
  [.wait [.listen], .accept (some 5) false, .wait [.listen], .accept (some 6) false,
    .wait [.conn 5 EPOLLIN, .conn 6 EPOLLIN], .handle [.data (ascii "GET /a HT")] [],
    .handle [.data (ascii "GET ")] [], .take 1, .take 0, .process 0 HttpConn.twoByteFiles,
    .process 1 HttpConn.twoByteFiles, .wait [.conn 5 EPOLLIN],
    .handle [.data (ascii "TP/1.1\r\n\r\n")] [], .take 0, .process 0 HttpConn.twoByteFiles,
    .wait [.conn 5 EPOLLOUT], .handle [] [.wrote 74]]

/-- Both connections are served at once, and 5 gets the results of a slot of its own. -/
theorem results_of_slot_alone_interleaved :
    (callsOn [] 1 5 (start 8) interleaved).length = 5 ∧
      resultsOn [] 1 5 (start 8) interleaved =
        HttpConn.results [] HttpConn.new (callsOn [] 1 5 (start 8) interleaved) := by
  have hfresh : Machine.Along (step [] 1) FreshFd (start 8) interleaved := by decide +kernel
  exact ⟨by decide +kernel, (results_of_slot_alone [] 1 8 5 interleaved hfresh).1⟩

/-- In every state of every such run, the cursors of every slot lie in order inside `m_read_buf`,
and what is counted in `m_write_buf` and `m_real_file` leaves room for a NUL. -/
theorem slots_in_bounds (typeText : List UInt8) (maxRequests threadNum : ℕ) (as : List Label)
    (hfresh : Machine.Along (step typeText maxRequests) FreshFd (start threadNum) as) :
    Machine.Always (step typeText maxRequests) (fun s => ∀ fd, (s.users fd).Bounded)
      (start threadNum) as := by
  apply Machine.always_of_along (K := fun s => ∀ fd, (s.slotApart fd).Bounded) _ _ _ hfresh
  · exact fun s h fd => (h fd).initConn (s.users fd).sockfd
  · intro s a t h ha hfresh fd
    rw [slotApart_step ha hfresh.contained]
    cases s.callOn fd a with
    | none => exact h fd
    | some call => exact ((h fd).call typeText call).initConn 0
  · exact fun _ => HttpConn.bounded_init HttpConn.new

/-- The head of the request on 6 is incomplete, and its four bytes are kept. -/
theorem slots_in_bounds_interleaved :
    ∃ s, Machine.exec (step [] 1) (start 8) interleaved = some s ∧
      (s.users 5).Bounded ∧ (s.users 6).readIndex = 4 ∧ (s.users 6).Bounded := by
  have hrun : (Machine.exec (step [] 1) (start 8) interleaved).map
      (fun s => (s.users 6).readIndex) = some 4 := by decide +kernel
  obtain ⟨s, hs, hread⟩ := Option.map_eq_some_iff.mp hrun
  have hfresh : Machine.Along (step [] 1) FreshFd (start 8) interleaved := by decide +kernel
  have hbounded := (slots_in_bounds [] 1 8 interleaved hfresh).last hs
  exact ⟨s, hs, hbounded 5, hread, hbounded 6⟩

end HttpServer
end Webservers
