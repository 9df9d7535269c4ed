import Xv6.Ulib.Impl.Memory
import Xv6.Vm.Basic

/-!
The processors that the kernel finds in the tables of the firmware (`mp.c`).
-/

namespace Xv6

abbrev NCPU : Nat := 8

namespace Mp

def half (m : Memory) (a : BitVec 32) : Nat :=
  (m a).toNat + 0x100 * (m (a + 1)).toNat

def word (m : Memory) (a : BitVec 32) : BitVec 32 :=
  BitVec.ofNat 32 (half m a + 0x10000 * half m (a + 2))

def SIZEOF_MP : Nat := 16

def physaddr (m : Memory) (mp : BitVec 32) : BitVec 32 := word m (mp + 4)

def imcrp (m : Memory) (mp : BitVec 32) : BitVec 8 := m (mp + 12)

def SIZEOF_MPCONF : BitVec 32 := 44

def length (m : Memory) (conf : BitVec 32) : Nat := half m (conf + 4)

def version (m : Memory) (conf : BitVec 32) : BitVec 8 := m (conf + 6)

def lapicaddr (m : Memory) (conf : BitVec 32) : BitVec 32 := word m (conf + 36)

def sum (m : Memory) (addr : BitVec 32) (len : Nat) : BitVec 8 :=
  BitVec.ofNat 8 ((List.range len).foldl (fun sum i => sum + (m (addr + BitVec.ofNat 32 i)).toNat) 0)

def MP_SIGNATURE : List (BitVec 8) := [0x5f, 0x4d, 0x50, 0x5f]

def PCMP_SIGNATURE : List (BitVec 8) := [0x50, 0x43, 0x4d, 0x50]

-- `e - addr` is a multiple of the size of the structure, so `p` comes to `e`
def mpsearch1 (m : Memory) (a : BitVec 32) (len : Nat) : Option (BitVec 32) :=
  let addr := p2v a
  loop (addr + BitVec.ofNat 32 len) (len / SIZEOF_MP + 1) addr
where
  loop (e : BitVec 32) : Nat → BitVec 32 → Option (BitVec 32)
    | 0, _ => none
    | fuel + 1, p =>
      if p < e then
        if Kstring.memcmp m p MP_SIGNATURE = 0 ∧ sum m p SIZEOF_MP = 0 then
          some p
        else
          loop e fuel (p + BitVec.ofNat 32 SIZEOF_MP)
      else
        none

def mpsearch (m : Memory) : Option (BitVec 32) :=
  let bda := p2v 0x400
  let p := ((m (bda + 0x0F)).setWidth 32 <<< 8 ||| (m (bda + 0x0E)).setWidth 32) <<< 4
  let mp :=
    if p ≠ 0 then
      mpsearch1 m p 1024
    else
      let p := ((m (bda + 0x14)).setWidth 32 <<< 8 ||| (m (bda + 0x13)).setWidth 32) * 1024
      mpsearch1 m (p - 1024) 1024
  match mp with
  | some mp => some mp
  | none => mpsearch1 m 0xF0000 0x10000

def mpconfig (m : Memory) : Option (BitVec 32 × BitVec 32) :=
  match mpsearch m with
  | none => none
  | some mp =>
    if physaddr m mp = 0 then
      none
    else
      let conf := p2v (physaddr m mp)
      if Kstring.memcmp m conf PCMP_SIGNATURE ≠ 0 then
        none
      else if version m conf ≠ 1 ∧ version m conf ≠ 4 then
        none
      else if sum m conf (length m conf) ≠ 0 then
        none
      else
        some (mp, conf)

abbrev MPPROC : BitVec 8 := 0
abbrev MPBUS : BitVec 8 := 1
abbrev MPIOAPIC : BitVec 8 := 2
abbrev MPIOINTR : BitVec 8 := 3
abbrev MPLINTR : BitVec 8 := 4

def SIZEOF_MPPROC : BitVec 32 := 20
def SIZEOF_MPIOAPIC : BitVec 32 := 8

structure Machine where
  ncpu : Nat
  apicid : Fin NCPU → BitVec 8
  ioapicid : BitVec 8
  lapic : BitVec 32
  -- the values given to outb
  ports : List (BitVec 16 × BitVec 8)

def Machine.addCpu (s : Machine) (apicid : BitVec 8) : Machine :=
  if h : s.ncpu < NCPU then
    { s with apicid := Function.update s.apicid ⟨s.ncpu, h⟩ apicid, ncpu := s.ncpu + 1 }
  else
    s

-- the loop over the entries, for at most `fuel` turns; an entry of another type leaves `p` as it is
def entryLoop (m : Memory) (e : BitVec 32)
    : Nat → BitVec 32 → Bool → Machine → Except Fault (Bool × Machine)
  | 0, _, _, _ => .error .diverges
  | fuel + 1, p, ismp, s =>
    if p < e then
      if m p = MPPROC then
        entryLoop m e fuel (p + SIZEOF_MPPROC) ismp (s.addCpu (m (p + 1)))
      else if m p = MPIOAPIC then
        entryLoop m e fuel (p + SIZEOF_MPIOAPIC) ismp { s with ioapicid := m (p + 1) }
      else if m p = MPBUS ∨ m p = MPIOINTR ∨ m p = MPLINTR then
        entryLoop m e fuel (p + 8) ismp s
      else
        entryLoop m e fuel p false s
    else
      .ok (ismp, s)

-- `inb` is what the port 0x23 answers
def mpinit (m : Memory) (inb : BitVec 8) (fuel : Nat) (s : Machine) : Except Fault Machine :=
  match mpconfig m with
  | none => .error (.panic "Expect to run on an SMP")
  | some (mp, conf) => do
    let e := conf + BitVec.ofNat 32 (length m conf)
    let (ismp, s) ← entryLoop m e fuel (conf + SIZEOF_MPCONF) true { s with lapic := lapicaddr m conf }
    if !ismp then
      .error (.panic "Didn't find a suitable machine")
    else if imcrp m mp ≠ 0 then
      return { s with ports := s.ports ++ [(0x22, 0x70), (0x23, inb ||| 1)] }
    else
      return s

end Mp

end Xv6
