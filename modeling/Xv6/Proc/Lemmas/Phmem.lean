import Mathlib.Algebra.BigOperators.Intervals
import Xv6.Proc.Lemmas.Pids
import Xv6.Vm.Lemmas.Copyout

/-!
What `sys_phmem` counts.
-/

namespace Xv6

variable {ncpu : Nat} {w : World ncpu} {s : LockSys ncpu} {sp : Spaces} {p : ProcId}

namespace Spaces

theorem pte_of_table {u : Nat} (hu : u < 2 ^ 20)
    (h : pteP (sp.mem.entry (sp.pgdir p) (u / 1024)))
    : sp.pte p (pageAddr u) = .ok (sp.mem.walk (sp.pgdir p) u) := by
  rw [← pdx_pageAddr hu] at h
  have hvpn : (pageAddr u).toNat / 4096 = u := by
    rw [pageAddr_toNat hu]
    omega
  unfold pte
  rw [Mem.walkpgdir_of_pde h]
  simp only
  rw [Mem.get_eq_walk h, hvpn]

-- the present pages below PGROUNDUP(sz)
def resident (sp : Spaces) (p : ProcId) : Finset Nat :=
  {u ∈ Finset.range ((pgroundup (sp.sz p)).toNat / 4096) | pteP (sp.mem.walk (sp.pgdir p) u)}

end Spaces

namespace LockSys

theorem phmemLoop_step {fuel : Nat} {a count x : BitVec 32} (hsp : ∀ i, w.spaces i = sp)
    (ha : a ≤ sp.sz p) (hread : sp.pte p a = .ok x)
    : phmemLoop w p (fuel + 1) a count s =
        phmemLoop w p fuel (a + 4096) (if pteP x then count + 1 else count) (s.unlocked w) := by
  rw [phmemLoop_succ, hsp, if_pos ha, hread, Fold.ok_bind]

theorem phmemLoop_counts {f : Nat → BitVec 32} (fuel : Nat) {v : Nat} (hsp : ∀ i, w.spaces i = sp)
    (hsz : (sp.sz p).toNat ≤ 2 ^ 31)
    (hread : ∀ u, 4096 * u ≤ (sp.sz p).toNat → sp.pte p (pageAddr u) = .ok (f u))
    (hv : v < 2 ^ 20) (hfuel : (sp.sz p).toNat < 4096 * (v + fuel)) (count : BitVec 32)
    : ∃ t, phmemLoop w p (fuel + 1) (pageAddr v) count s =
        .ok (count + BitVec.ofNat 32
          (∑ u ∈ Finset.Ico v ((sp.sz p).toNat / 4096 + 1), if pteP (f u) then 1 else 0), t) := by
  have hend : ∀ {s : LockSys ncpu} {fuel v : Nat} (count : BitVec 32), v < 2 ^ 20 →
      (sp.sz p).toNat < 4096 * v →
      ∃ t, phmemLoop w p (fuel + 1) (pageAddr v) count s =
        .ok (count + BitVec.ofNat 32
          (∑ u ∈ Finset.Ico v ((sp.sz p).toNat / 4096 + 1), if pteP (f u) then 1 else 0), t) := by
    intro s fuel v count hv hlt
    rw [Finset.Ico_eq_empty (by omega), Finset.sum_empty]
    refine ⟨s.unlocked w, ?_⟩
    rw [phmemLoop_succ, hsp]
    rw [if_neg (by rw [BitVec.le_def, pageAddr_toNat hv]; omega)]
    simp
  induction fuel generalizing s v count with
  | zero => exact hend count hv (by omega)
  | succ fuel ih =>
    by_cases hle : 4096 * v ≤ (sp.sz p).toNat
    . have ha : pageAddr v ≤ sp.sz p := by
        rw [BitVec.le_def, pageAddr_toNat hv]
        exact hle
      have hlt : v < (sp.sz p).toNat / 4096 + 1 := by omega
      rw [phmemLoop_step hsp ha (hread v hle), pageAddr_succ]
      rw [Finset.sum_eq_sum_Ico_succ_bot hlt, BitVec.ofNat_add]
      rcases ih (s := s.unlocked w) (v := v + 1) (by omega) (by omega)
        (if pteP (f v) then count + 1 else count) with ⟨t, ht⟩
      refine ⟨t, ?_⟩
      rw [ht]
      split
      . rw [BitVec.add_assoc]
        rfl
      . simp
    . exact hend count hv (by omega)

theorem phmemLoop_fails {fuel u v : Nat} {a count : BitVec 32} {r : BitVec 32 × LockSys ncpu}
    (hsp : ∀ i, w.spaces i = sp) (hu : 4096 * u ≤ (sp.sz p).toNat) (hbound : u < 2 ^ 20) (hv : v ≤ u)
    (ha : a = pageAddr v) (hread : sp.pte p (pageAddr u) = .error .nullDeref)
    : phmemLoop w p fuel a count s ≠ .ok r := by
  induction fuel generalizing s v a count with
  | zero => nofun
  | succ fuel ih =>
    have hle : a ≤ sp.sz p := by
      rw [ha, BitVec.le_def, pageAddr_toNat (by omega)]
      omega
    cases hpte : sp.pte p a with
    | error e =>
      rw [phmemLoop_succ, hsp, if_pos hle, hpte]
      nofun
    | ok x =>
      have hne : v ≠ u := by
        intro heq
        rw [ha, heq, hread] at hpte
        contradiction
      rw [phmemLoop_step hsp hle hpte]
      apply ih (v := v + 1) (by omega)
      rw [ha, pageAddr_succ]

theorem kib_of_count {n : Nat} (hn : n < 2 ^ 19)
    : (BitVec.ofNat 32 n * 4096).sdiv 1024 = BitVec.ofNat 32 (4 * n) := by
  have hmul : BitVec.ofNat 32 n * 4096 = BitVec.ofNat 32 (n * 4096) := by
    rw [BitVec.ofNat_mul]
    rfl
  have hmsb : (BitVec.ofNat 32 (n * 4096)).msb = false := by
    rw [BitVec.msb_eq_false_iff_two_mul_lt, BitVec.toNat_ofNat]
    omega
  have hmsb' : (1024 : BitVec 32).msb = false := by decide
  rw [hmul, BitVec.sdiv_eq, hmsb, hmsb']
  apply BitVec.eq_of_toNat_eq
  simp
  omega

theorem sysPhmem_returns {f : Nat → BitVec 32} (hw : w.Idle) (hsp : ∀ i, w.spaces i = sp)
    (hs : s.Entry) {pid : BitVec 32} (hfind : s.kernel.findPid pid = some p)
    (hsz : (sp.sz p).toNat ≤ 2 ^ 31)
    (hread : ∀ u, 4096 * u ≤ (sp.sz p).toNat → sp.pte p (pageAddr u) = .ok (f u))
    (hroom : {u ∈ Finset.range ((sp.sz p).toNat / 4096 + 1) | pteP (f u)}.card < 2 ^ 19) (fuel : Nat)
    : ∃ t, s.sysPhmem w (NPAGES + fuel) (some pid) =
        .ok (BitVec.ofNat 32 (4 * {u ∈ Finset.range ((sp.sz p).toNat / 4096 + 1) | pteP (f u)}.card),
          t) := by
  have hfree : Free (s.flags s.cpu).ncli s := ⟨⟨rfl, hs.interrupts⟩, hs.lock⟩
  rcases (getProcbyPID_idle (T := True) hw hs.ncli hfree pid).2 trivial with ⟨⟨o, t⟩, ht⟩
  rcases (getProcbyPID_idle (T := True) hw hs.ncli hfree pid).1 _ ht with ⟨ho, _⟩
  dsimp only at ho
  rw [hfind] at ho
  subst ho
  rcases phmemLoop_counts (1048575 + fuel) (s := t) (v := 0) hsp hsz hread (by omega) (by omega) 0
    with ⟨u, hu⟩
  refine ⟨u, ?_⟩
  rw [← Finset.card_filter, ← Finset.range_eq_Ico] at hu
  unfold sysPhmem
  dsimp only
  rw [ht, Fold.ok_bind]
  dsimp only
  rw [Mem.NPAGES_eq, Nat.add_right_comm]
  rw [show (0 : BitVec 32) = pageAddr 0 from rfl] at hu ⊢
  rw [hu, Fold.ok_bind]
  dsimp only
  rw [show pageAddr 0 = 0#32 from rfl, BitVec.zero_add, kib_of_count hroom]
  rfl

theorem sysPhmem_fails (hw : w.Idle) (hsp : ∀ i, w.spaces i = sp) (hs : s.Entry) {pid : BitVec 32}
    (hfind : s.kernel.findPid pid = some p) {u : Nat} (hu : 4096 * u ≤ (sp.sz p).toNat)
    (hbound : u < 2 ^ 20) (hread : sp.pte p (pageAddr u) = .error .nullDeref) (fuel : Nat)
    (r : BitVec 32 × LockSys ncpu)
    : s.sysPhmem w fuel (some pid) ≠ .ok r := by
  have hfree : Free (s.flags s.cpu).ncli s := ⟨⟨rfl, hs.interrupts⟩, hs.lock⟩
  intro hok
  unfold sysPhmem at hok
  dsimp only at hok
  rcases Fold.bind_eq_ok hok with ⟨⟨o, t⟩, ht, hok⟩
  rcases (getProcbyPID_idle (T := True) hw hs.ncli hfree pid).1 _ ht with ⟨ho, _⟩
  dsimp only at ho
  rw [hfind] at ho
  subst ho
  rcases Fold.bind_eq_ok hok with ⟨r', hloop, _⟩
  exact phmemLoop_fails hsp hu hbound (Nat.zero_le u) rfl hread hloop

end LockSys

def World.within (w : World ncpu) (sp : Spaces) (cr3 : BitVec 32) : World ncpu :=
  { w with spaces := fun _ => { sp with cr3 := cr3 } }

namespace LockSys

/--
`sys_phmem` returns the KiB of the present pages, whoever calls it, if and only if all page tables up
to `sz` are there and `sz` is not `KERNBASE`: the loop also looks at the page at `sz`.
-/
theorem phmem_counts_resident {e : BitVec 32} (hw : w.Idle) (hs : s.Entry) {pid : BitVec 32}
    (hfind : s.kernel.findPid pid = some p) (hsz : sp.sz p ≤ KERNBASE)
    (hbelow : ∀ u, u < 2 ^ 19 → pteP (sp.mem.walk (sp.pgdir p) u) →
      4096 * u < (pgroundup (sp.sz p)).toNat)
    (hkernel : sp.sz p = KERNBASE → pteP (sp.mem.walk (sp.pgdir p) (2 ^ 19)))
    (hroom : (sp.resident p).card + 1 < 2 ^ 19) (he : ¬ pteP (sp.mem.entry e 0)) (fuel : Nat)
    : (∀ cr3, ∃ t, s.sysPhmem (w.within sp cr3) (NPAGES + fuel) (some pid) =
        .ok (BitVec.ofNat 32 (4 * (sp.resident p).card), t)) ↔
        sp.sz p < KERNBASE ∧
          ∀ u, 4096 * u ≤ (sp.sz p).toNat → pteP (sp.mem.entry (sp.pgdir p) (u / 1024)) := by
  rw [BitVec.le_def, KERNBASE_toNat] at hsz
  rw [BitVec.lt_def, KERNBASE_toNat]
  have hidle : ∀ cr3, (w.within sp cr3).Idle := fun _ => hw
  have hup : (pgroundup (sp.sz p)).toNat = 4096 * (((sp.sz p).toNat + 4095) / 4096) :=
    pgroundup_toNat (by omega)
  have hreturns : ∀ cr3, (∀ u, 4096 * u ≤ (sp.sz p).toNat →
      pteP (sp.mem.entry (sp.pgdir p) (u / 1024))) →
      {u ∈ Finset.range ((sp.sz p).toNat / 4096 + 1) | pteP (sp.mem.walk (sp.pgdir p) u)}.card < 2 ^ 19 →
      ∃ t, s.sysPhmem (w.within sp cr3) (NPAGES + fuel) (some pid) =
        .ok (BitVec.ofNat 32 (4 * {u ∈ Finset.range ((sp.sz p).toNat / 4096 + 1) |
          pteP (sp.mem.walk (sp.pgdir p) u)}.card), t) := by
    intro cr3 htables hcard
    have hsp : ∀ i, (w.within sp cr3).spaces i = { sp with cr3 := cr3 } := fun _ => rfl
    apply sysPhmem_returns (hidle cr3) hsp hs hfind hsz _ hcard
    intro u hu
    exact Spaces.pte_of_table (by omega) (htables u hu)
  constructor
  . intro hall
    have htables : ∀ u, 4096 * u ≤ (sp.sz p).toNat → pteP (sp.mem.entry (sp.pgdir p) (u / 1024)) := by
      intro u hu
      by_contra hmissing
      rcases hall e with ⟨t, ht⟩
      have hread : Spaces.pte { sp with cr3 := e } p (pageAddr u) = .error .nullDeref := by
        rw [← pdx_pageAddr (by omega)] at hmissing
        unfold Spaces.pte
        rw [Mem.walkpgdir_false, if_neg hmissing]
        exact Mem.nullWord_of_absent he
      exact sysPhmem_fails (hidle e) (fun _ => rfl) hs hfind hu (by omega) hread _ _ ht
    refine ⟨?_, htables⟩
    by_contra htop
    have hsize : (sp.sz p).toNat = 2 ^ 31 := by omega
    have hpage := hkernel (BitVec.eq_of_toNat_eq hsize)
    -- the page at KERNBASE belongs to the kernel, and is counted
    have hmore : {u ∈ Finset.range ((sp.sz p).toNat / 4096 + 1) | pteP (sp.mem.walk (sp.pgdir p) u)} =
        insert (2 ^ 19) (sp.resident p) := by
      unfold Spaces.resident
      ext u
      simp only [Finset.mem_filter, Finset.mem_range, Finset.mem_insert]
      constructor
      . rintro ⟨hu, hp⟩
        by_cases heq : u = 2 ^ 19
        . exact .inl heq
        . exact .inr ⟨by omega, hp⟩
      . rintro (rfl | ⟨hu, hp⟩)
        . exact ⟨by omega, hpage⟩
        . exact ⟨by omega, hp⟩
    have hcard : (insert (2 ^ 19) (sp.resident p)).card = (sp.resident p).card + 1 := by
      apply Finset.card_insert_of_notMem
      unfold Spaces.resident
      rw [Finset.mem_filter, Finset.mem_range]
      omega
    rcases hall e with ⟨t, ht⟩
    rcases hreturns e htables (by rw [hmore, hcard]; exact hroom) with ⟨t', ht'⟩
    rw [hmore, hcard, ht] at ht'
    have hvalue := congrArg BitVec.toNat (Prod.mk.inj (Except.ok.inj ht')).1
    rw [BitVec.toNat_ofNat, BitVec.toNat_ofNat] at hvalue
    omega
  . rintro ⟨hlt, htables⟩ cr3
    -- the page at sz is not there
    have hsame : {u ∈ Finset.range ((sp.sz p).toNat / 4096 + 1) |
        pteP (sp.mem.walk (sp.pgdir p) u)} = sp.resident p := by
      unfold Spaces.resident
      ext u
      simp only [Finset.mem_filter, Finset.mem_range]
      constructor
      . rintro ⟨hu, hp⟩
        have := hbelow u (by omega) hp
        exact ⟨by omega, hp⟩
      . rintro ⟨hu, hp⟩
        exact ⟨by omega, hp⟩
    have h := hreturns cr3 htables (by rw [hsame]; omega)
    rw [hsame] at h
    exact h

def spacesOf (m : Mem) (sz : BitVec 32) : Spaces :=
  ⟨m, 0x400000, fun _ => 0x400000, fun _ => sz⟩

def quietWith (sp : Spaces) : World 1 :=
  { quiet with spaces := fun _ => sp }

theorem phmem_counts_resident_guarded
    : ∃ t, started.sysPhmem (quietWith (spacesOf VmSys.guarded.mem 0x3000)) NPAGES (some 1) =
        .ok (12, t) := by
  have hwalk : ∀ u, VmSys.guarded.mem.walk 0x400000 u =
      if u = 2 then 0x405007 else if u = 1 then 0x404003 else if u = 0 then 0x403007 else 0 :=
    VmSys.laid_walk _ _ _ _ _
  have hresident : (spacesOf VmSys.guarded.mem 0x3000).resident 0 = {0, 1, 2} := by
    unfold Spaces.resident spacesOf
    simp only [hwalk]
    decide
  have hbelow : ∀ u, u < 2 ^ 19 → pteP (VmSys.guarded.mem.walk 0x400000 u) → 4096 * u < 0x3000 := by
    intro u _ hp
    apply Classical.byContradiction
    intro hge
    rw [hwalk, if_neg (by omega), if_neg (by omega), if_neg (by omega)] at hp
    exact absurd hp (by decide)
  have htables : ∀ u, 4096 * u ≤ 0x3000 → pteP (VmSys.guarded.mem.entry 0x400000 (u / 1024)) := by
    intro u hu
    rw [show u / 1024 = 0 by omega]
    decide
  have hfind : started.kernel.findPid 1 = some 0 := rfl
  have hidle : quiet.Idle := fun _ _ => rfl
  have hsz : (spacesOf VmSys.guarded.mem 0x3000).sz 0 ≤ KERNBASE := by decide
  have hiff := phmem_counts_resident (e := 0x406000) hidle started_entry hfind hsz hbelow (fun h => absurd h (by decide))
    (by rw [hresident]; decide) (by decide) 0
  rw [hresident] at hiff
  exact hiff.mpr ⟨by decide, htables⟩ 0x400000

/--
The heap ends at 4 MB, where there is no page table, and one page is present. The loop also looks at
the page at `sz`: it takes the first word of the program for the entry, and counts it.
-/
theorem phmem_reads_null_pte
    : (∀ u, pteP (VmSys.starved.mem.walk 0x400000 u) ↔ u = 0) ∧
        ¬ pteP (VmSys.starved.mem.entry 0x400000 (pdx 0x400000)) ∧
        ∃ t, started.sysPhmem (quietWith (spacesOf VmSys.starved.mem 0x400000)) NPAGES (some 1) =
          .ok (8, t) := by
  have hwalk : ∀ u, VmSys.starved.mem.walk 0x400000 u =
      if u = 2 then 0 else if u = 1 then 0 else if u = 0 then 0x403007 else 0 :=
    VmSys.laid_walk _ _ _ _ _
  have hpresent : ∀ u, pteP (VmSys.starved.mem.walk 0x400000 u) ↔ u = 0 := by
    intro u
    rw [hwalk]
    by_cases h : u = 0
    . rw [h]
      decide
    . simp [h, pteP]
  refine ⟨hpresent, by decide, ?_⟩
  have hread : ∀ u, 4096 * u ≤ 0x400000 →
      (spacesOf VmSys.starved.mem 0x400000).pte 0 (pageAddr u) =
        .ok (if u = 1024 then 0xff else VmSys.starved.mem.walk 0x400000 u) := by
    intro u hu
    split
    next h =>
      rw [h]
      rfl
    next h =>
      apply Spaces.pte_of_table (by omega)
      show pteP (VmSys.starved.mem.entry 0x400000 (u / 1024))
      rw [show u / 1024 = 0 by omega]
      decide
  have hcount : {u ∈ Finset.range (0x400000 / 4096 + 1) |
      pteP (if u = 1024 then 0xff else VmSys.starved.mem.walk 0x400000 u)} = {0, 1024} := by
    ext u
    simp only [Finset.mem_filter, Finset.mem_range, Finset.mem_insert, Finset.mem_singleton]
    split
    next h => simp [h, pteP]
    next h =>
      rw [hpresent]
      omega
  have hspaces : ∀ i, (quietWith (spacesOf VmSys.starved.mem 0x400000)).spaces i =
      spacesOf VmSys.starved.mem 0x400000 := fun _ => rfl
  have hfind : started.kernel.findPid 1 = some 0 := rfl
  have hsz : ((spacesOf VmSys.starved.mem 0x400000).sz 0).toNat = 0x400000 := rfl
  have h := sysPhmem_returns (fun _ _ => rfl) hspaces started_entry hfind (by decide) hread
    (by rw [hsz, hcount]; decide) 0
  rw [hsz, hcount] at h
  exact h

end LockSys
end Xv6
