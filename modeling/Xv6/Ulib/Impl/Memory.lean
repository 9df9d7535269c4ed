import Xv6.Data.Copy

/-!
Functions of the kernel (`string.c`) and of the library of the user programs (`ulib.c`) on bytes in
memory. A loop `while(n-- > 0)` makes as many turns as `n` says.
-/

namespace Xv6

abbrev Memory := BitVec 32 → BitVec 8

namespace Kstring

def memcmp (m : Memory) : BitVec 32 → List (BitVec 8) → Int
  | _, [] => 0
  | s1, c :: s2 => if m s1 ≠ c then (m s1).toNat - c.toNat else memcmp m (s1 + 1) s2

-- while(n-- > 0) *--d = *--s;
def copyDown : Nat → Memory → BitVec 32 → BitVec 32 → Memory
  | 0, m, _, _ => m
  | n + 1, m, d, s => copyDown n (Function.update m (d - 1) (m (s - 1))) (d - 1) (s - 1)

def memmove (m : Memory) (dst src n : BitVec 32) : BitVec 32 × Memory :=
  if src < dst ∧ src + n > dst then
    (dst, copyDown n.toNat m (dst + n) (src + n))
  else
    (dst, Copy.run (· + 1) n.toNat m dst src)

end Kstring

namespace Ulib

def memmove (m : Memory) (vdst vsrc n : BitVec 32) : BitVec 32 × Memory :=
  (vdst, Copy.run (· + 1) n.toInt.toNat m vdst vsrc)

end Ulib

end Xv6
