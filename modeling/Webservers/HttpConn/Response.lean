import Webservers.HttpConn.Parse
import Webservers.Lib.Format

/-!
# Answering a request (bck/src/http_conn.cpp)

`do_request` finds the file, `process_write` composes the response and sets up the two
`iovec`s, `write` hands them to `writev`, and `process` is what a worker thread runs.

* The file system is a parameter: what `stat` says of a path, and what `open` followed by
  `mmap` yields for it.
* `add_content_type` passes a pointer for a `%d`. What the conversion prints is a parameter
  too, `typeText`.
* Conversions to `int` and `size_t` are explicit.
-/

namespace Webservers

structure FileSystem where
  /-- `stat(path)`, `none` when it fails -/
  stat : List UInt8 → Option FileStat
  /-- `open(path, O_RDONLY)` and `mmap(0, size, PROT_READ, MAP_PRIVATE, fd, 0)` -/
  mmap : List UInt8 → ℤ → Mapping

def ok200Title : List UInt8 := ascii "OK"

def error400Title : List UInt8 := ascii "Bad Request"

def error400Form : List UInt8 :=
  ascii "Your request has bad syntax or is inherently impossible to satisfy.\n"

def error403Title : List UInt8 := ascii "Forbidden"

def error403Form : List UInt8 :=
  ascii "You do not have permission to get file from this server.\n"

def error404Title : List UInt8 := ascii "Not Found"

def error404Form : List UInt8 := ascii "The requested file was not found on this server.\n"

def error500Title : List UInt8 := ascii "Internal Error"

def error500Form : List UInt8 :=
  ascii "There was an unusual problem serving the requested file.\n"

def docRoot : List UInt8 := ascii "/home/thatchlobe/cpp/webservers/resources"

/-- `S_IFMT` and `S_IFDIR`, and `S_IROTH` -/
def sIFMT : BitVec 32 := 0o170000

def sIFDIR : BitVec 32 := 0o040000

def sIROTH : BitVec 32 := 0o000004

namespace HttpConn

/-! ## Composing the response -/

/-- `add_response(format, ...)` for a text already formatted: `vsnprintf` stores what fits and
a NUL, and a text that does not fit is not counted. -/
def addResponse (c : HttpConn) (text : List UInt8) : Bool × HttpConn :=
  if writeBufferSize ≤ c.writeIndex then (false, c)
  else
    let size := writeBufferSize - 1 - c.writeIndex
    let stored := if size = 0 then [] else text.take (size - 1) ++ [0]
    let c' := { c with writeBuf := storeBytes c.writeBuf c.writeIndex stored }
    if size ≤ text.length then (false, c')
    else (true, { c' with writeIndex := c.writeIndex + text.length })

def addStatusLine (c : HttpConn) (status : ℤ) (title : List UInt8) : Bool × HttpConn :=
  c.addResponse
    (ascii "HTTP/1.1" ++ ascii " " ++ formatInt status ++ ascii " " ++ title ++ ascii "\r\n")

def addContentLength (c : HttpConn) (contentLen : ℤ) : Bool × HttpConn :=
  c.addResponse (ascii "Content-Length: " ++ formatInt contentLen ++ ascii "\r\n")

def addContentType (typeText : List UInt8) (c : HttpConn) : Bool × HttpConn :=
  c.addResponse (ascii "Content-Type: " ++ typeText ++ ascii "\r\n")

def addLinger (c : HttpConn) : Bool × HttpConn :=
  c.addResponse
    (ascii "Connection:" ++ (if c.linger then ascii "keep-alive" else ascii "close") ++
      ascii "\r\n")

def addBlankLine (c : HttpConn) : Bool × HttpConn := c.addResponse (ascii "\r\n")

def addContent (c : HttpConn) (content : List UInt8) : Bool × HttpConn := c.addResponse content

/-- `add_headers(content_len)`: the results of the four calls are dropped. -/
def addHeaders (typeText : List UInt8) (c : HttpConn) (contentLen : ℤ) : HttpConn :=
  let c := (c.addContentLength contentLen).2
  let c := (c.addContentType typeText).2
  let c := c.addLinger.2
  c.addBlankLine.2

/-- The error branches of `process_write`: status line, headers and the page. -/
def addError (typeText : List UInt8) (c : HttpConn) (status : ℤ) (title form : List UInt8) :
    Bool × HttpConn :=
  let c := (c.addStatusLine status title).2
  (c.addHeaders typeText (toInt form.length)).addContent form

/-- What `process_write` does after the `switch`: only the buffer is offered. -/
def offerBuffer (c : HttpConn) : HttpConn :=
  { c with iv0 := ⟨.writeBuf 0, c.writeIndex⟩, ivCount := 1 }

/-- The `FILE_REQUEST` branch of `process_write`. -/
def offerFile (typeText : List UInt8) (c : HttpConn) : HttpConn :=
  let c := (c.addStatusLine 200 ok200Title).2
  let c := c.addHeaders typeText (toInt c.fileStat.stSize)
  { c with
    iv0 := ⟨.writeBuf 0, c.writeIndex⟩
    iv1 := ⟨.file c.fileAddress 0, toSizeT c.fileStat.stSize⟩
    ivCount := 2
    bytesToSend := toInt (c.writeIndex + c.fileStat.stSize) }

/-- `process_write(ret)` -/
def processWrite (typeText : List UInt8) (c : HttpConn) : HttpCode → Bool × HttpConn
  | .internalError => offered (c.addError typeText 500 error500Title error500Form)
  | .badRequest => offered (c.addError typeText 400 error400Title error400Form)
  | .noResource => offered (c.addError typeText 404 error404Title error404Form)
  | .forbiddenRequest => offered (c.addError typeText 403 error403Title error403Form)
  | .fileRequest => (true, c.offerFile typeText)
  | .noRequest | .getRequest | .closedConnection => (true, c.offerBuffer)
where
  offered : Bool × HttpConn → Bool × HttpConn
    | (true, c) => (true, c.offerBuffer)
    | (false, c) => (false, c)

/-! ## Finding the file -/

/-- `do_request()`. The permission test negates before it masks, as in the source. -/
def doRequest (fs : FileSystem) (c : HttpConn) : HttpCode × HttpConn :=
  let url := match c.url with
    | some u => c.text u
    | none => []
  let path := docRoot ++ url.take (filenameLen - docRoot.length - 1)
  let c := { c with realFile := path }
  match fs.stat path with
  | none => (.noResource, c)
  | some st =>
    let c := { c with fileStat := st }
    if (if st.stMode = 0 then (1 : BitVec 32) else 0) &&& sIROTH ≠ 0 then (.forbiddenRequest, c)
    else if st.stMode &&& sIFMT = sIFDIR then (.badRequest, c)
    else (.fileRequest, { c with fileAddress := fs.mmap path st.stSize })

/-- The string `m_url` points to. -/
def target (c : HttpConn) : List UInt8 :=
  match c.url with
  | some u => c.text u
  | none => []

/-- The path that `do_request` builds in `m_real_file`. -/
def pathOf (c : HttpConn) : List UInt8 :=
  docRoot ++ c.target.take (filenameLen - docRoot.length - 1)

/-- `!(st_mode) & S_IROTH` is 0 for every mode: the negation is 0 or 1, and `S_IROTH` is 4. -/
theorem permission_test_never (mode : BitVec 32) :
    (if mode = 0 then (1 : BitVec 32) else 0) &&& sIROTH = 0 := by
  split <;> decide

/-- `do_request` without the test that never holds. -/
theorem doRequest_eq (fs : FileSystem) (c : HttpConn) :
    c.doRequest fs =
      match fs.stat c.pathOf with
      | none => (.noResource, { c with realFile := c.pathOf })
      | some st =>
        if st.stMode &&& sIFMT = sIFDIR then
          (.badRequest, { c with realFile := c.pathOf, fileStat := st })
        else
          (.fileRequest,
            { c with
              realFile := c.pathOf
              fileStat := st
              fileAddress := fs.mmap c.pathOf st.stSize }) := by
  unfold doRequest
  simp only [permission_test_never, ne_eq, not_true_eq_false, if_false]
  rfl

/-- What `do_request` can do: nothing is forbidden, and every file that is no directory is
granted. -/
theorem doRequest_inv (fs : FileSystem) (c : HttpConn) :
    (fs.stat c.pathOf = none ∧ c.doRequest fs = (.noResource, { c with realFile := c.pathOf })) ∨
      ∃ st, fs.stat c.pathOf = some st ∧
        (st.stMode &&& sIFMT = sIFDIR ∧
            c.doRequest fs = (.badRequest, { c with realFile := c.pathOf, fileStat := st }) ∨
          ¬ st.stMode &&& sIFMT = sIFDIR ∧
            c.doRequest fs =
              (.fileRequest,
                { c with
                  realFile := c.pathOf
                  fileStat := st
                  fileAddress := fs.mmap c.pathOf st.stSize })) := by
  rw [doRequest_eq]
  cases fs.stat c.pathOf with
  | none => exact .inl ⟨rfl, rfl⟩
  | some st =>
    refine .inr ⟨st, rfl, ?_⟩
    by_cases hdir : st.stMode &&& sIFMT = sIFDIR
    · exact .inl ⟨hdir, if_pos hdir⟩
    · exact .inr ⟨hdir, if_neg hdir⟩

/-- `unmap()` -/
def unmap (c : HttpConn) : HttpConn :=
  match c.fileAddress with
  | .null => c
  | _ => { c with fileAddress := .null }

/-! ## Sending the response -/

/-- `n` bytes of a mapping from `offset` on, `none` when they do not lie inside it. -/
def Mapping.read (offset : ℤ) (n : ℕ) : Mapping → Option (List UInt8)
  | .mapped bytes =>
    if 0 ≤ offset ∧ offset + n ≤ bytes.length then some ((bytes.drop offset.toNat).take n)
    else none
  | _ => none

/-- The bytes an `iovec` denotes, `none` when some of them are no part of the object that
`iov_base` points into. -/
def ivBytes (c : HttpConn) (iv : Iovec) : Option (List UInt8) :=
  if iv.iovLen = 0 then some []
  else
    match iv.iovBase with
    | .null => none
    | .writeBuf i =>
      if i + iv.iovLen ≤ writeBufferSize then some (slice c.writeBuf i iv.iovLen) else none
    | .file m offset => Mapping.read offset iv.iovLen m

/-- The bytes that `writev(m_sockfd, m_iv, m_iv_count)` is offered. -/
def offered (c : HttpConn) : Option (List UInt8) :=
  match c.ivCount with
  | 0 => some []
  | 1 => c.ivBytes c.iv0
  | _ => (c.ivBytes c.iv0).bind fun head => (c.ivBytes c.iv1).map (head ++ ·)

/-- How many bytes that is. -/
def offeredLen (c : HttpConn) : ℕ :=
  match c.ivCount with
  | 0 => 0
  | 1 => c.iv0.iovLen
  | _ => c.iv0.iovLen + c.iv1.iovLen

/-- The loop of `write()` after `writev` took `n` bytes: the counters and the `iovec`s. -/
def advance (c : HttpConn) (n : ℕ) : HttpConn :=
  let c :=
    { c with
      bytesHaveSend := toInt (c.bytesHaveSend + n)
      bytesToSend := toInt (c.bytesToSend - n) }
  if c.iv0.iovLen ≤ toSizeT c.bytesHaveSend then
    { c with
      iv0 := { c.iv0 with iovLen := 0 }
      iv1 := ⟨.file c.fileAddress (c.bytesHaveSend - c.writeIndex), toSizeT c.bytesToSend⟩ }
  else
    { c with iv0 := ⟨.writeBuf (toSizeT c.bytesHaveSend), c.iv0.iovLen - n⟩ }

/-- What the main thread sees of a call: the result and the event the socket is armed for. -/
inductive Arm where
  | none
  | epollin
  | epollout
deriving Repr, DecidableEq

structure Written where
  ret : Bool
  arm : Arm
  /-- the bytes of each `writev` that succeeded -/
  handed : List (Option (List UInt8))
deriving Repr, DecidableEq

/-- The loop of `write()`; once nothing more is listed, `writev` fails with `EAGAIN`. Whether it can
do so is the business of `LoopReturns`. -/
def writeLoop (c : HttpConn) (handed : List (Option (List UInt8))) :
    List WriteResult → Written × HttpConn
  | [] => (⟨true, .epollout, handed⟩, c)
  | .failed e :: _ =>
    if e = .EWOULDBLOCK then (⟨true, .epollout, handed⟩, c)
    else (⟨false, .none, handed⟩, c.unmap)
  | .wrote n :: rs =>
    let handed := handed ++ [c.offered.map (List.take n)]
    let c := c.advance n
    if c.bytesToSend ≤ 0 then
      if c.linger then (⟨true, .epollin, handed⟩, c.unmap.init)
      else (⟨false, .epollin, handed⟩, c.unmap)
    else writeLoop c handed rs

/-- `write()` -/
def write (c : HttpConn) (rs : List WriteResult) : Written × HttpConn :=
  if c.bytesToSend = 0 then (⟨true, .epollin, []⟩, c.init) else c.writeLoop [] rs

/-- The loop of `write()` comes to its end with these results. A `writev` that is offered nothing
takes 0 bytes and does not fail, so that the loop goes on as long as `m_bytes_to_send` says that
something is left. -/
def LoopReturns (c : HttpConn) : List WriteResult → Prop
  | [] => 0 < c.offeredLen
  | .failed _ :: _ => 0 < c.offeredLen
  | .wrote n :: rs =>
    n ≤ c.offeredLen ∧ (0 < (c.advance n).bytesToSend → LoopReturns (c.advance n) rs)

instance decidableLoopReturns : ∀ c rs, Decidable (LoopReturns c rs)
  | c, [] => inferInstanceAs (Decidable (0 < c.offeredLen))
  | c, .failed _ :: _ => inferInstanceAs (Decidable (0 < c.offeredLen))
  | c, .wrote n :: rs =>
    have := decidableLoopReturns (c.advance n) rs
    inferInstanceAs (Decidable (_ ∧ (_ → _)))

/-- `write()` returns, with these results of its calls of `writev`. -/
def WriteReturns (c : HttpConn) (rs : List WriteResult) : Prop :=
  c.bytesToSend ≠ 0 → LoopReturns c rs

instance (c : HttpConn) (rs : List WriteResult) : Decidable (c.WriteReturns rs) :=
  inferInstanceAs (Decidable (_ → _))

/-! ## The worker thread -/

/-- `process()`: the event the socket is armed for, and the result of the parser, `none` while
the request is incomplete. -/
def process (typeText : List UInt8) (fs : FileSystem) (c : HttpConn) :
    (Arm × Option HttpCode) × HttpConn :=
  let (result, r) := c.toReadState.processRead
  let c := { c with toReadState := r }
  match result with
  | .noRequest => ((.epollin, none), c)
  | .badRequest => respond (.badRequest, c)
  | .doRequest => respond (c.doRequest fs)
where
  respond : HttpCode × HttpConn → (Arm × Option HttpCode) × HttpConn
    | (code, c) =>
      match c.processWrite typeText code with
      | (true, c) => ((.epollout, some code), c)
      | (false, c) => ((.epollout, some code), c.closeConn)

end HttpConn
end Webservers
