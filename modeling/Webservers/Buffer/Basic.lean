import Webservers.Lib.Bytes
import Webservers.Sys

/-!
# `Buffer` (src/Buffer.h, src/Buffer.cc)

The vector with its reader and writer index, as the code keeps them:

    |  kCheapPrepend  |  readable  |  writable  |

Sizes are `size_t`. The two sums of `makeSpace` that a caller's `len` can push past the end of
the type are reduced modulo `2 ^ 64`; every other difference and sum stays in range on the
states the operations reach (`WellFormed`, in `Buffer.Theorems`). A `std::length_error` from
`vector::resize` is `none`.
-/

namespace Webservers

structure Buffer where
  buffer : List UInt8
  readerIndex : ℕ
  writerIndex : ℕ
deriving Repr, DecidableEq

namespace Buffer

def kCheapPrepend : ℕ := 8
def kInitialSize : ℕ := 1024

/-- `std::vector<char>::max_size()`. -/
def maxSize : ℕ := 2 ^ 63 - 1

/-- `sizeof(extrabuf)` in `readFd`. -/
def extrabufSize : ℕ := 65536

/-- The constructor. -/
def new (initialSize : ℕ) : Buffer where
  buffer := List.replicate (kCheapPrepend + initialSize) 0
  readerIndex := kCheapPrepend
  writerIndex := kCheapPrepend

def readableBytes (b : Buffer) : ℕ := b.writerIndex - b.readerIndex

def writableBytes (b : Buffer) : ℕ := b.buffer.length - b.writerIndex

def prependableBytes (b : Buffer) : ℕ := b.readerIndex

/-- The `len` bytes from `peek()` on. -/
def peek (b : Buffer) (len : ℕ) : List UInt8 := (b.buffer.drop b.readerIndex).take len

/-- `vector::resize`: new elements are zero, sizes above `max_size` throw. -/
def resize (v : List UInt8) (n : ℕ) : Option (List UInt8) :=
  if maxSize < n then none else some (v.take n ++ List.replicate (n - v.length) 0)

def makeSpace (b : Buffer) (len : ℕ) : Option Buffer :=
  if (b.writableBytes + b.prependableBytes) % 2 ^ 64 < (len + kCheapPrepend) % 2 ^ 64 then
    (resize b.buffer ((b.writerIndex + len) % 2 ^ 64)).map fun v => { b with buffer := v }
  else
    -- `std::copy` to the front, where source and target may overlap
    let readable := b.readableBytes
    some
      { buffer := copyForward b.buffer b.readerIndex kCheapPrepend readable
        readerIndex := kCheapPrepend
        writerIndex := kCheapPrepend + readable }

def ensureWritableBytes (b : Buffer) (len : ℕ) : Option Buffer :=
  if b.writableBytes < len then b.makeSpace len else some b

def retrieveAll (b : Buffer) : Buffer :=
  { b with readerIndex := kCheapPrepend, writerIndex := kCheapPrepend }

def retrieve (b : Buffer) (len : ℕ) : Buffer :=
  if len < b.readableBytes then { b with readerIndex := b.readerIndex + len }
  else b.retrieveAll

def retrieveAsString (b : Buffer) (len : ℕ) : List UInt8 × Buffer :=
  (b.peek len, b.retrieve len)

def retrieveAllAsString (b : Buffer) : List UInt8 × Buffer :=
  b.retrieveAsString b.readableBytes

def append (b : Buffer) (data : List UInt8) : Option Buffer :=
  (b.ensureWritableBytes data.length).map fun b =>
    { b with
      buffer := storeList b.buffer b.writerIndex data
      writerIndex := b.writerIndex + data.length }

/-! ## The operations as one step

`Op` is one call with the kernel's answer where it makes one, `Result` what the caller gets
back; `threw` is the `std::length_error` of `vector::resize` leaving the call. -/

inductive Result where
  | done
  | str (s : List UInt8)
  | count (n : ℕ)
  | failed (e : Errno)
  | threw
deriving Repr, DecidableEq

/-- How many bytes the iovecs of `readFd` offer: the second one only when less than
`sizeof(extrabuf)` is writable. -/
def offered (b : Buffer) : ℕ :=
  if b.writableBytes < extrabufSize then b.writableBytes + extrabufSize else b.writableBytes

def readFd (b : Buffer) : ReadvResult → Buffer × Result
  | .failed e => (b, .failed e)
  | .got data =>
    let writable := b.writableBytes
    -- readv fills vec[0] before vec[1], which is extrabuf
    let filled := { b with buffer := storeList b.buffer b.writerIndex (data.take writable) }
    if data.length ≤ writable then
      ({ filled with writerIndex := b.writerIndex + data.length }, .count data.length)
    else
      -- `writerIndex_ = buffer_.size()`, and the rest is appended from `extrabuf`
      let full := { filled with writerIndex := filled.buffer.length }
      match full.append (data.drop writable) with
      | some b' => (b', .count data.length)
      | none => (full, .threw)

def writeFd (_ : Buffer) : WriteResult → Result
  | .failed e => .failed e
  | .wrote n => .count n

inductive Op where
  | append (data : List UInt8)
  | ensureWritableBytes (len : ℕ)
  | retrieve (len : ℕ)
  | retrieveAll
  | retrieveAllAsString
  | retrieveAsString (len : ℕ)
  | writeFd (r : WriteResult)
  | readFd (r : ReadvResult)
deriving Repr, DecidableEq

/-- An operation that may throw: the buffer is what it was when `resize` threw. -/
def orThrew (b : Buffer) : Option Buffer → Buffer × Result
  | some b' => (b', .done)
  | none => (b, .threw)

def step (b : Buffer) : Op → Buffer × Result
  | .append data => b.orThrew (b.append data)
  | .ensureWritableBytes len => b.orThrew (b.ensureWritableBytes len)
  | .retrieve len => (b.retrieve len, .done)
  | .retrieveAll => (b.retrieveAll, .done)
  | .retrieveAllAsString => (b.retrieveAllAsString.2, .str b.retrieveAllAsString.1)
  | .retrieveAsString len => ((b.retrieveAsString len).2, .str (b.retrieveAsString len).1)
  | .writeFd r => (b, b.writeFd r)
  | .readFd r => b.readFd r

/-- A run of operations with the results it gave. -/
def run : Buffer → List Op → Buffer × List Result
  | b, [] => (b, [])
  | b, op :: ops =>
    let (b', r) := b.step op
    let (b'', rs) := run b' ops
    (b'', r :: rs)

/-- What an operation asks of the vector beyond its present size. -/
def Op.demand : Op → ℕ
  | .append data => data.length
  | .ensureWritableBytes len => len
  | .readFd (.got data) => data.length
  | _ => 0

/-- The calls the callers and the kernel can make in state `b`: `retrieveAsString` within the
readable bytes, `readv` and `write` within what they were offered. -/
def Op.Allowed (b : Buffer) : Op → Prop
  | .retrieveAsString len => len ≤ b.readableBytes
  | .writeFd r => r.Within b.readableBytes
  | .readFd (.got data) => data.length ≤ b.offered
  | _ => True

/-- No `size_t` sum of the call wraps. -/
def Op.NoWrap (b : Buffer) (op : Op) : Prop :=
  b.buffer.length + op.demand + kCheapPrepend < 2 ^ 64

/-- Every step of the run is allowed and wraps no `size_t`. -/
def Admissible : Buffer → List Op → Prop
  | _, [] => True
  | b, op :: ops => op.Allowed b ∧ op.NoWrap b ∧ Admissible (b.step op).1 ops

/-- The vector stays within `max_size` even if every call has to grow it. -/
def Fits : Buffer → List Op → Prop
  | _, [] => True
  | b, op :: ops => b.buffer.length + op.demand ≤ maxSize ∧ Fits (b.step op).1 ops

instance (b : Buffer) : DecidablePred (Op.Allowed b)
  | .retrieveAsString len => inferInstanceAs (Decidable (len ≤ b.readableBytes))
  | .writeFd r => inferInstanceAs (Decidable (r.Within b.readableBytes))
  | .readFd (.got data) => inferInstanceAs (Decidable (data.length ≤ b.offered))
  | .readFd (.failed _) | .append _ | .ensureWritableBytes _ | .retrieve _ | .retrieveAll
  | .retrieveAllAsString => inferInstanceAs (Decidable True)

end Buffer
end Webservers
