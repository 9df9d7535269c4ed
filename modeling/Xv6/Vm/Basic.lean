import Mathlib.Logic.Function.Basic
import Xv6.Basic
import Xv6.Data.Bytes

/-!
Addresses and page-table entries as in `mmu.h` and `memlayout.h`, and the page allocator of
`kalloc.c`. A page is named by its physical address.
-/

namespace Xv6

abbrev PGSIZE : Nat := 4096

abbrev Page := Bytes PGSIZE

def KERNBASE : BitVec 32 := 0x80000000#32
def EXTMEM : BitVec 32 := 0x100000#32
def PHYSTOP : BitVec 32 := 0xE000000#32
def DEVSPACE : BitVec 32 := 0xFE000000#32
def KERNLINK : BitVec 32 := 0x80100000#32

@[simp]
theorem KERNBASE_toNat : KERNBASE.toNat = 0x80000000 := rfl

@[simp]
theorem EXTMEM_toNat : EXTMEM.toNat = 0x100000 := rfl

@[simp]
theorem PHYSTOP_toNat : PHYSTOP.toNat = 0xE000000 := rfl

@[simp]
theorem DEVSPACE_toNat : DEVSPACE.toNat = 0xFE000000 := rfl

@[simp]
theorem KERNLINK_toNat : KERNLINK.toNat = 0x80100000 := rfl

def v2p (a : BitVec 32) : BitVec 32 :=
  a - KERNBASE

def p2v (a : BitVec 32) : BitVec 32 :=
  a + KERNBASE

def pdx (va : BitVec 32) : Nat :=
  ((va >>> 22) &&& 0x3FF).toNat

def ptx (va : BitVec 32) : Nat :=
  ((va >>> 12) &&& 0x3FF).toNat

def pgaddr (d t o : BitVec 32) : BitVec 32 :=
  d <<< 22 ||| t <<< 12 ||| o

def pgroundup (sz : BitVec 32) : BitVec 32 :=
  (sz + 4095) &&& ~~~ 4095

def pgrounddown (a : BitVec 32) : BitVec 32 :=
  a &&& ~~~ 4095

abbrev PTE_P : BitVec 32 := 1
abbrev PTE_W : BitVec 32 := 2
abbrev PTE_U : BitVec 32 := 4

def pteAddr (pte : BitVec 32) : BitVec 32 :=
  pte &&& ~~~ 0xFFF

def pteFlags (pte : BitVec 32) : BitVec 32 :=
  pte &&& 0xFFF

def pteP (pte : BitVec 32) : Bool :=
  pte &&& PTE_P != 0

def pteU (pte : BitVec 32) : Bool :=
  pte &&& PTE_U != 0

/--
The symbols that `kernel.ld` defines: `data` starts a page and `end` follows it.
-/
structure Layout where
  data : BitVec 32
  kend : BitVec 32
  data_aligned : data.toNat % PGSIZE = 0
  kernlink_lt : KERNLINK.toNat < data.toNat
  data_lt : data.toNat < kend.toNat
  kend_lt : kend.toNat < (p2v PHYSTOP).toNat

-- `denied` tells which of the next calls of kalloc find no page, because others took them.
structure Mem where
  phys : BitVec 32 → Page
  freelist : List (BitVec 32)
  denied : List Bool

namespace Mem

def memset (m : Mem) (pa : BitVec 32) (c : BitVec 8) : Mem :=
  { m with phys := Function.update m.phys pa (fun _ => c) }

def entry (m : Mem) (pgtab : BitVec 32) (i : Nat) : BitVec 32 :=
  (m.phys pgtab).getWord (4 * i)

def setEntry (m : Mem) (pgtab : BitVec 32) (i : Nat) (w : BitVec 32) : Mem :=
  { m with phys := Function.update m.phys pgtab ((m.phys pgtab).setWord (4 * i) w) }

def kalloc (m : Mem) : Option (BitVec 32) × Mem :=
  match m.denied with
  | true :: denied => (none, { m with denied := denied })
  | denied =>
    let m := { m with denied := denied.tail }
    match m.freelist with
    | [] => (none, m)
    | r :: freelist => (some r, { m with freelist := freelist })

def kfree (L : Layout) (m : Mem) (pa : BitVec 32) : Except Fault Mem :=
  let v := p2v pa
  if v.toNat % PGSIZE ≠ 0 ∨ v < L.kend ∨ v2p v ≥ PHYSTOP then
    .error (.panic "kfree")
  else
    let m := m.memset pa 1
    let next := m.freelist.head?.elim 0 p2v
    let m := m.setEntry pa 0 next
    .ok { m with freelist := pa :: m.freelist }

end Mem

end Xv6
