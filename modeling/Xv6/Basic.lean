import Mathlib.Algebra.GroupWithZero.Nat
import Mathlib.Order.Fin.Basic

/-!
The constants of `param.h` and the ways in which kernel code can end without returning.
-/

namespace Xv6

abbrev NPROC : Nat := 64
abbrev MAXOPBLOCKS : Nat := 10
abbrev LOGSIZE : Nat := MAXOPBLOCKS * 3

instance : NeZero NPROC := ⟨by decide⟩

instance neZeroOne : NeZero 1 := ⟨by decide⟩
instance neZeroTwo : NeZero 2 := ⟨by decide⟩
instance neZeroThree : NeZero 3 := ⟨by decide⟩

inductive Fault where
  | panic (msg : String)
  | nullDeref
  | outOfBounds
  | diverges
  deriving DecidableEq, Repr

end Xv6
