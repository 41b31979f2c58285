import Webservers.Sys
import Webservers.Lib.CString

/-!
# `http_conn` (bck/src/http_conn.h, bck/src/http_conn.cpp)

The connection slot of the thread-pool server: its members, the two functions called `init`,
`close_conn` and `read`.

* `ReadState` holds the members that `read` and the parser work on. Pointers into `m_read_buf`
  are indices of it. `stores` and `sums` are history, for the accesses of the parser: the
  indices of its stores into `m_read_buf`, and the sums `m_content_length + m_checked_index`
  it forms.
* `HttpConn` adds the members of the response. `m_real_file` is the string it holds.

`http_conn::http_conn()` initialises nothing; a slot that was never used is taken to be filled
with zeroes, as the array of slots in main.cpp is.
-/

namespace Webservers

def readBufferSize : ℕ := 2048

def writeBufferSize : ℕ := 2048

def filenameLen : ℕ := 200

/-- `METHOD` -/
inductive Method where
  | GET | POST | HEAD | PUT | DELETE | TRACE | OPTIONS | CONNECT
deriving Repr, DecidableEq

/-- `CHECK_STATE`: the state of the main state machine. -/
inductive CheckState where
  | requestLite
  | header
  | content
deriving Repr, DecidableEq

/-- `HTTP_CODE` -/
inductive HttpCode where
  | noRequest
  | getRequest
  | badRequest
  | noResource
  | forbiddenRequest
  | fileRequest
  | internalError
  | closedConnection
deriving Repr, DecidableEq

/-- `LINE_STATUS` -/
inductive LineStatus where
  | lineOk
  | lineBad
  | lineOpen
deriving Repr, DecidableEq

/-! ## The members of the parser -/

structure ReadState where
  readBuf : ℕ → UInt8
  readIndex : ℕ
  url : Option ℕ
  version : Option ℕ
  method : Method
  host : Option ℕ
  linger : Bool
  contentLength : ℤ
  checkedIndex : ℕ
  startLine : ℕ
  checkState : CheckState
  stores : List ℤ
  sums : List ℤ

namespace ReadState

/-- `init()`, the members of the parser. -/
def init : ReadState where
  readBuf := fun _ => 0
  readIndex := 0
  url := none
  version := none
  method := .GET
  host := none
  linger := false
  contentLength := 0
  checkedIndex := 0
  startLine := 0
  checkState := .requestLite
  stores := []
  sums := []

/-- The string at index `i` of `m_read_buf`. -/
def text (c : ReadState) (i : ℕ) : List UInt8 := cstr c.readBuf i (readBufferSize - i)

/-- `m_read_buf[i] = '\0'`. An index outside the array is recorded like any other; what such a
store does to the members and the slots around the array is no part of the slot, but of the step
`overrun` of `HttpServer`. -/
def store (c : ReadState) (i : ℤ) : ReadState :=
  { c with
    readBuf := fun k => if (k : ℤ) = i then 0 else c.readBuf k
    stores := c.stores ++ [i] }

/-- Bytes arrive behind the ones already in `m_read_buf`. -/
def deliver (c : ReadState) (bytes : List UInt8) : ReadState :=
  { c with
    readBuf := storeBytes c.readBuf c.readIndex bytes
    readIndex := c.readIndex + bytes.length }

/-- What a call of `recv` finds: bytes in the socket, an error, or the end of the stream. -/
inductive Recv where
  | data (bytes : List UInt8)
  | failed (e : Errno)
  | eof
deriving Repr, DecidableEq

/-- The loop of `read()`. Once nothing more is listed, `recv` fails with `EAGAIN`. -/
def recvLoop (c : ReadState) (rs : List Recv) : Bool × ReadState :=
  -- into a full buffer `recv` is called with length 0, and returns 0
  if readBufferSize ≤ c.readIndex then (false, c)
  else
    match rs with
    | [] => (true, c)
    | .failed e :: _ => (e == .EWOULDBLOCK, c)
    | .eof :: _ => (false, c)
    | .data bytes :: rest =>
      let got := bytes.take (readBufferSize - c.readIndex)
      if got = [] then (false, c) else recvLoop (c.deliver got) rest

/-- `read()` -/
def read (c : ReadState) (rs : List Recv) : Bool × ReadState :=
  if readBufferSize ≤ c.readIndex then (false, c) else c.recvLoop rs

end ReadState

/-! ## The whole slot -/

/-- Where `m_file_address` points: nowhere, to `MAP_FAILED`, or to the mapped file. -/
inductive Mapping where
  | null
  | mapFailed
  | mapped (bytes : List UInt8)
deriving Repr, DecidableEq

/-- `iov_base`: an index of `m_write_buf`, or an offset from `m_file_address`. -/
inductive Pointer where
  | null
  | writeBuf (i : ℕ)
  | file (m : Mapping) (offset : ℤ)
deriving Repr, DecidableEq

structure Iovec where
  iovBase : Pointer
  iovLen : ℕ
deriving Repr, DecidableEq

/-- The fields of `struct stat` that are read. -/
structure FileStat where
  stMode : BitVec 32
  stSize : ℤ
deriving Repr, DecidableEq

structure HttpConn extends ReadState where
  sockfd : ℤ
  writeBuf : ℕ → UInt8
  writeIndex : ℕ
  realFile : List UInt8
  fileStat : FileStat
  fileAddress : Mapping
  iv0 : Iovec
  iv1 : Iovec
  ivCount : ℕ
  bytesToSend : ℤ
  bytesHaveSend : ℤ

namespace HttpConn

/-- A slot of the array `users` before its first connection. -/
def new : HttpConn where
  toReadState := .init
  sockfd := 0
  writeBuf := fun _ => 0
  writeIndex := 0
  realFile := []
  fileStat := ⟨0, 0⟩
  fileAddress := .null
  iv0 := ⟨.null, 0⟩
  iv1 := ⟨.null, 0⟩
  ivCount := 0
  bytesToSend := 0
  bytesHaveSend := 0

/-- `init()` -/
def init (c : HttpConn) : HttpConn :=
  { c with
    toReadState := .init
    writeIndex := 0
    bytesHaveSend := 0
    bytesToSend := 0
    writeBuf := fun _ => 0
    realFile := [] }

/-- `init(sockfd, addr)`: only the socket changes. -/
def initConn (c : HttpConn) (sockfd : ℤ) : HttpConn := { c with sockfd := sockfd }

/-- `close_conn()` -/
def closeConn (c : HttpConn) : HttpConn := if c.sockfd ≠ -1 then { c with sockfd := -1 } else c

/-- `read()` -/
def read (c : HttpConn) (rs : List ReadState.Recv) : Bool × HttpConn :=
  let (ok, r) := c.toReadState.read rs
  (ok, { c with toReadState := r })

end HttpConn
end Webservers
