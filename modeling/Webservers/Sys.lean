import Mathlib.Data.Nat.Notation
import Mathlib.Data.Int.Notation
import Mathlib.Algebra.Group.Nat.Defs
import Mathlib.Algebra.Group.Int.Defs

/-!
# Answers of the kernel

The system calls of both servers are inputs of the model: each operation that makes a call
takes the call's result as an argument, and what the kernel may answer (never more bytes than
were offered) is stated where a run is defined.
-/

namespace Webservers

/-- The values of `errno` the sources look at. -/
inductive Errno where
  | EWOULDBLOCK
  | EPIPE
  | ECONNRESET
  | EINTR
  | other (n : ℕ)
deriving Repr, DecidableEq

/-- Result of `::write(fd, p, len)`: `-1` with `errno`, or the number of bytes taken. -/
inductive WriteResult where
  | failed (e : Errno)
  | wrote (n : ℕ)
deriving Repr, DecidableEq

/-- Result of `::readv`: `-1` with `errno`, or the bytes it stored (none at end of file). -/
inductive ReadvResult where
  | failed (e : Errno)
  | got (data : List UInt8)
deriving Repr, DecidableEq

/-- The kernel takes at most the `len` bytes it was offered. -/
def WriteResult.Within (len : ℕ) : WriteResult → Prop
  | .failed _ => True
  | .wrote n => n ≤ len

/-- The bytes of `bytes` that a `write` of them took. -/
def WriteResult.taken (bytes : List UInt8) : WriteResult → List UInt8
  | .failed _ => []
  | .wrote n => bytes.take n

instance (len : ℕ) : DecidablePred (WriteResult.Within len)
  | .failed _ => inferInstanceAs (Decidable True)
  | .wrote n => inferInstanceAs (Decidable (n ≤ len))

end Webservers
