import Mathlib.Algebra.Group.Nat.Defs
import Mathlib.Data.Nat.Basic

/-!
# Result codes and sizes of the C runtime

Runtime functions return an `int32_t`: zero on success and an `errno` value
otherwise. Only the identity of a code matters to the runtime's control flow,
so the codes it names are constructors; `other` stands for every code that a
callback or a system call may hand through unchanged.
-/

namespace Ciel.Runtime

inductive Code
  | OK
  | EINVAL
  | EBADF
  | EAGAIN
  | ENOMEM
  | ENOSPC
  | EPERM
  | EPIPE
  | EALREADY
  | EOVERFLOW
  | ECANCELED
  | EIO
  | other (code : Nat)
  deriving DecidableEq, Repr

/-- `SIZE_MAX` and `UINT64_MAX` of the 64-bit targets. -/
def sizeMax : Nat := 2 ^ 64 - 1

end Ciel.Runtime
