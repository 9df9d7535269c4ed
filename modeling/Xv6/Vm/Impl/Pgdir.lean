import Xv6.Vm.Basic

/-!
The page tables of `vm.c`. A function that returns 0 or -1 returns `true` or `false` here. The loops
over addresses step through at most 2^20 pages before they repeat an address, so a loop that has
not ended by then never does.
-/

namespace Xv6

abbrev NPAGES : Nat := 2 ^ 20

abbrev NPDENTRIES : Nat := 1024

structure PtePtr where
  pgtab : BitVec 32
  idx : Nat

namespace Mem

def get (m : Mem) (pte : PtePtr) : BitVec 32 :=
  m.entry pte.pgtab pte.idx

def set (m : Mem) (pte : PtePtr) (w : BitVec 32) : Mem :=
  m.setEntry pte.pgtab pte.idx w

def walkpgdir (m : Mem) (pgdir va : BitVec 32) (alloc : Bool) : Option PtePtr × Mem :=
  let pde := m.entry pgdir (pdx va)
  if pteP pde then
    (some ⟨pteAddr pde, ptx va⟩, m)
  else if !alloc then
    (none, m)
  else
    match m.kalloc with
    | (none, m) => (none, m)
    | (some pgtab, m) =>
      let m := m.memset pgtab 0
      let m := m.setEntry pgdir (pdx va) (pgtab ||| PTE_P ||| PTE_W ||| PTE_U)
      (some ⟨pgtab, ptx va⟩, m)

def mappages (m : Mem) (pgdir va size pa perm : BitVec 32) : Except Fault (Bool × Mem) :=
  loop pgdir perm (pgrounddown (va + size - 1)) NPAGES m (pgrounddown va) pa
where
  loop (pgdir perm last : BitVec 32) : Nat → Mem → BitVec 32 → BitVec 32 → Except Fault (Bool × Mem)
    | 0, _, _, _ => .error .diverges
    | fuel + 1, m, a, pa =>
      match m.walkpgdir pgdir a true with
      | (none, m) => .ok (false, m)
      | (some pte, m) =>
        if pteP (m.get pte) then
          .error (.panic "remap")
        else
          let m := m.set pte (pa ||| perm ||| PTE_P)
          if a = last then
            .ok (true, m)
          else
            loop pgdir perm last fuel m (a + 4096) (pa + 4096)

end Mem

structure Kmap where
  virt : BitVec 32
  phys_start : BitVec 32
  phys_end : BitVec 32
  perm : BitVec 32

variable (L : Layout)

def Layout.kmap : List Kmap :=
  [⟨KERNBASE, 0, EXTMEM, PTE_W⟩,
    ⟨KERNLINK, v2p KERNLINK, v2p L.data, 0⟩,
    ⟨L.data, v2p L.data, PHYSTOP, PTE_W⟩,
    ⟨DEVSPACE, DEVSPACE, 0, PTE_W⟩]

namespace Mem

def deallocuvm (m : Mem) (pgdir oldsz newsz : BitVec 32) : Except Fault (BitVec 32 × Mem) :=
  if newsz ≥ oldsz then
    .ok (oldsz, m)
  else do
    let m ← loop pgdir oldsz NPAGES m (pgroundup newsz)
    return (newsz, m)
where
  loop (pgdir oldsz : BitVec 32) : Nat → Mem → BitVec 32 → Except Fault Mem
    | 0, _, _ => .error .diverges
    | fuel + 1, m, a =>
      if a < oldsz then
        match (m.walkpgdir pgdir a false).1 with
        | none =>
          let a := pgaddr (BitVec.ofNat 32 (pdx a) + 1) 0 0 - 4096
          loop pgdir oldsz fuel m (a + 4096)
        | some pte =>
          if pteP (m.get pte) then
            let pa := pteAddr (m.get pte)
            if pa = 0 then
              .error (.panic "kfree")
            else do
              let m ← m.kfree L pa
              loop pgdir oldsz fuel (m.set pte 0) (a + 4096)
          else
            loop pgdir oldsz fuel m (a + 4096)
      else
        .ok m

-- the loop of `freevm`
def freePgtabs (m : Mem) (pgdir : BitVec 32) : Except Fault Mem :=
  (List.range NPDENTRIES).foldlM go m
where
  go (m : Mem) (i : Nat) : Except Fault Mem :=
    if pteP (m.entry pgdir i) then
      m.kfree L (pteAddr (m.entry pgdir i))
    else
      .ok m

-- The null test of `freevm` is in its callers: here `pgdir` is a page.
def freevm (m : Mem) (pgdir : BitVec 32) (dodeallocuvm : Bool) : Except Fault Mem := do
  let m ← if dodeallocuvm then (·.2) <$> m.deallocuvm L pgdir KERNBASE 0 else pure m
  let m ← m.freePgtabs L pgdir
  m.kfree L pgdir

def setupkvm (m : Mem) : Except Fault (Option (BitVec 32) × Mem) :=
  match m.kalloc with
  | (none, m) => .ok (none, m)
  | (some pgdir, m) =>
    let m := m.memset pgdir 0
    if p2v PHYSTOP > DEVSPACE then
      .error (.panic "PHYSTOP too high")
    else
      loop pgdir m L.kmap
where
  loop (pgdir : BitVec 32) (m : Mem) : List Kmap → Except Fault (Option (BitVec 32) × Mem)
    | [] => .ok (some pgdir, m)
    | k :: ks => do
      let (ok, m) ← m.mappages pgdir k.virt (k.phys_end - k.phys_start) k.phys_start k.perm
      if ok then
        loop pgdir m ks
      else
        let m ← m.freevm L pgdir false
        return (none, m)

def allocuvm (m : Mem) (pgdir oldsz newsz : BitVec 32) : Except Fault (BitVec 32 × Mem) :=
  if newsz ≥ KERNBASE then
    .ok (0, m)
  else if newsz < oldsz then
    .ok (oldsz, m)
  else
    loop pgdir oldsz newsz NPAGES m (pgroundup oldsz)
where
  loop (pgdir oldsz newsz : BitVec 32) : Nat → Mem → BitVec 32 → Except Fault (BitVec 32 × Mem)
    | 0, _, _ => .error .diverges
    | fuel + 1, m, a =>
      if a < newsz then
        match m.kalloc with
        | (none, m) => do
          let (_, m) ← m.deallocuvm L pgdir newsz oldsz
          return (0, m)
        | (some mem, m) => do
          let m := m.memset mem 0
          let (ok, m) ← m.mappages pgdir a 4096 mem (PTE_W ||| PTE_U)
          if ok then
            loop pgdir oldsz newsz fuel m (a + 4096)
          else
            let (_, m) ← m.deallocuvm L pgdir newsz oldsz
            let m ← m.kfree L mem
            return (0, m)
      else
        .ok (newsz, m)

def copyuvm (m : Mem) (pgdir sz : BitVec 32) : Except Fault (Option (BitVec 32) × Mem) := do
  match ← m.setupkvm L with
  | (none, m) => return (none, m)
  | (some d, m) => loop pgdir sz d NPAGES m 0
where
  bad (d : BitVec 32) (m : Mem) : Except Fault (Option (BitVec 32) × Mem) := do
    let m ← m.freevm L d true
    return (none, m)
  loop (pgdir sz d : BitVec 32) : Nat → Mem → BitVec 32 → Except Fault (Option (BitVec 32) × Mem)
    | 0, _, _ => .error .diverges
    | fuel + 1, m, i =>
      if i < sz then
        match (m.walkpgdir pgdir i false).1 with
        | none => loop pgdir sz d fuel m (i + 4096)
        | some pte =>
          if !pteP (m.get pte) then
            loop pgdir sz d fuel m (i + 4096)
          else
            let pa := pteAddr (m.get pte)
            let flags := pteFlags (m.get pte)
            match m.kalloc with
            | (none, m) => bad d m
            | (some mem, m) => do
              let m := { m with phys := Function.update m.phys mem (m.phys pa) }
              let (ok, m) ← m.mappages d i 4096 mem flags
              if ok then
                loop pgdir sz d fuel m (i + 4096)
              else
                let m ← m.kfree L mem
                bad d m
      else
        .ok (some d, m)

def clearpteu (m : Mem) (pgdir uva : BitVec 32) : Except Fault Mem :=
  match (m.walkpgdir pgdir uva false).1 with
  | none => .error (.panic "clearpteu")
  | some pte => .ok (m.set pte (m.get pte &&& ~~~ PTE_U))

-- What a null `pte` points to: the word at virtual address 0 of the address space in use. If there
-- is no page at this address, this is a page fault in the kernel, which is not followed here.
def nullWord (m : Mem) (cr3 : BitVec 32) : Except Fault (BitVec 32) :=
  match (m.walkpgdir cr3 0 false).1 with
  | none => .error .nullDeref
  | some pte =>
    if pteP (m.get pte) then
      .ok ((m.phys (pteAddr (m.get pte))).getWord 0)
    else
      .error .nullDeref

def uva2ka (m : Mem) (cr3 pgdir uva : BitVec 32) : Except Fault (Option (BitVec 32)) := do
  let pte ← match (m.walkpgdir pgdir uva false).1 with
    | none => m.nullWord cr3
    | some pte => .ok (m.get pte)
  if !pteP pte then
    return none
  else if !pteU pte then
    return none
  else
    return some (pteAddr pte)

def copyout (m : Mem) (cr3 pgdir va : BitVec 32) (buf : List (BitVec 8))
    : Except Fault (Bool × Mem) :=
  loop cr3 pgdir buf.length m va buf
where
  -- every iteration copies at least one byte
  loop (cr3 pgdir : BitVec 32)
      : Nat → Mem → BitVec 32 → List (BitVec 8) → Except Fault (Bool × Mem)
    | 0, m, _, _ => .ok (true, m)
    | fuel + 1, m, va, buf =>
      if buf.length > 0 then do
        let va0 := pgrounddown va
        match ← m.uva2ka cr3 pgdir va0 with
        | none => return (false, m)
        | some pa0 =>
          let n := min (PGSIZE - (va - va0).toNat) buf.length
          let page := (m.phys pa0).blit (va - va0).toNat n (fun i => buf.getD i 0)
          let m := { m with phys := Function.update m.phys pa0 page }
          loop cr3 pgdir fuel m (va0 + 4096) (buf.drop n)
      else
        .ok (true, m)

end Mem

end Xv6
