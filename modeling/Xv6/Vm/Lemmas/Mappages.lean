import Xv6.Vm.Lemmas.Confine

/-!
`mappages` on any range of addresses, seen through `walkpgdir`.
-/

namespace Xv6
namespace Mem

variable {L : Layout} {d : BitVec 32} {m m' : Mem}

def pte (m : Mem) (pgdir va : BitVec 32) : BitVec 32 :=
  match (m.walkpgdir pgdir va false).1 with
  | none => 0
  | some pte => m.get pte

theorem pte_eq_walk (m : Mem) (d va : BitVec 32) : m.pte d va = m.walk d (va.toNat / 4096) := by
  unfold pte
  rw [walkpgdir_false]
  by_cases h : pteP (m.entry d (pdx va))
  . rw [if_pos h]
    exact get_eq_walk h
  . rw [if_neg h]
    exact (walk_of_absent h).symm

theorem walkpgdir_of_present {va : BitVec 32} (h : pteP (m.pte d va))
    : ∃ pte, (m.walkpgdir d va false).1 = some pte ∧ m.get pte = m.pte d va := by
  unfold pte at *
  cases hwalk : (m.walkpgdir d va false).1 with
  | none =>
    rw [hwalk] at h
    dsimp only at h
    rw [pteP_zero] at h
    contradiction
  | some pte => exact ⟨pte, rfl, rfl⟩

theorem flags_lt {f : BitVec 32} (h : pteAddr f = 0) : f.toNat < 4096 := by
  have hnat := congrArg BitVec.toNat h
  rw [pteAddr_toNat] at hnat
  have hzero : (0 : BitVec 32).toNat = 0 := rfl
  omega

theorem or_flags {pa f : BitVec 32} (h : pa.toNat % 4096 = 0) (hf : pteAddr f = 0)
    : (pa ||| f) &&& 0xFFF = f := by
  have hlow : f &&& 0xFFF = f := by
    apply BitVec.eq_of_toNat_eq
    have hmask : (0xFFF : BitVec 32).toNat = 2 ^ 12 - 1 := rfl
    rw [BitVec.toNat_and, hmask, Nat.and_two_pow_sub_one_eq_mod]
    exact Nat.mod_eq_of_lt (flags_lt hf)
  rw [BitVec.and_comm, BitVec.and_or_distrib_left, BitVec.and_comm, and_of_aligned h (by decide),
    BitVec.and_comm, hlow, BitVec.ofNat_eq_ofNat, BitVec.zero_or]

theorem flags_or {f : BitVec 32} (h : pteAddr f = 0) : pteAddr (f ||| PTE_P) = 0 := by
  have hp : ~~~ 4095 &&& PTE_P = 0 := by decide
  unfold pteAddr at *
  rw [BitVec.and_comm, BitVec.and_or_distrib_left, BitVec.and_comm, h, hp]
  rfl

theorem aligned_add (pa : BitVec 32) (h : pa.toNat % 4096 = 0) {k : Nat} (hk : k < 2 ^ 20)
    : (pa + pageAddr k).toNat % 4096 = 0 := by
  rw [BitVec.toNat_add, pageAddr_toNat hk]
  omega

/--
The pages of the range are mapped one after the other, and nothing else is. When memory runs out on
the way, the page tables that have been made are in the page directory.
-/
theorem mappages_exact (h : Valid L m d) (va size pa perm : BitVec 32) (hsize : 0 < size.toNat)
    (hend : va.toNat + size.toNat ≤ 2 ^ 32) (hpa : pa.toNat % 4096 = 0) (hperm : pteAddr perm = 0)
    (habsent : ∀ a : BitVec 32, va.toNat / 4096 ≤ a.toNat / 4096 →
      a.toNat / 4096 ≤ (va.toNat + size.toNat - 1) / 4096 → ¬ pteP (m.pte d a))
    : ∃ r m', m.mappages d va size pa perm = .ok (r, m') ∧
        (r = true → ∀ (a : BitVec 32) k, a.toNat / 4096 = va.toNat / 4096 + k →
          a.toNat / 4096 ≤ (va.toNat + size.toNat - 1) / 4096 →
          ∃ pte, (m'.walkpgdir d a false).1 = some pte ∧ pteAddr (m'.get pte) = pa + pageAddr k ∧
            m'.get pte &&& 0xFFF = perm ||| PTE_P) ∧
        (∀ a : BitVec 32, a.toNat / 4096 < va.toNat / 4096 ∨
          (va.toNat + size.toNat - 1) / 4096 < a.toNat / 4096 → m'.pte d a = m.pte d a) ∧
        m'.tables d + m'.free = m.tables d + m.free ∧ m'.free ≤ m.free := by
  have hpages : va.toNat / 4096 + ((va.toNat + size.toNat - 1) / 4096 + 1 - va.toNat / 4096) =
      (va.toNat + size.toNat - 1) / 4096 + 1 := by
    omega
  have hrange : ∀ k, k < (va.toNat + size.toNat - 1) / 4096 + 1 - va.toNat / 4096 →
      ¬ pteP (m.walk d (va.toNat / 4096 + k)) := by
    intro k hk
    have hpage := pageAddr_toNat (v := va.toNat / 4096 + k) (by omega)
    have hnone := habsent (pageAddr (va.toNat / 4096 + k)) (by omega) (by omega)
    rw [pte_eq_walk, hpage, Nat.mul_div_cancel_left _ (by decide)] at hnone
    exact hnone
  have hmappages : ∃ r j m', m.mappages d va size pa perm = .ok (r, m') ∧
      Maps d m m' (va.toNat / 4096) j ((va.toNat + size.toNat - 1) / 4096 + 1 - va.toNat / 4096) pa perm ∧
      (r = true → j = (va.toNat + size.toNat - 1) / 4096 + 1 - va.toNat / 4096) ∧
      (r = false → j < (va.toNat + size.toNat - 1) / 4096 + 1 - va.toNat / 4096) :=
    h.mappages hsize hend rfl hpages hrange
  rcases hmappages with ⟨r, j, m', hok, hmaps, hall, hsome⟩
  refine ⟨r, m', hok, ?_, ?_, hmaps.grows.conserve, hmaps.grows.mono⟩
  . intro hr a k hk hin
    have hpte : m'.pte d a = (pa + pageAddr k) ||| perm ||| PTE_P := by
      have hlt := a.isLt
      rw [pte_eq_walk, hmaps.walk _ (by omega), hall hr, if_pos (by omega), hk,
        Nat.add_sub_cancel_left]
    have hpresent : pteP (m'.pte d a) := by
      rw [hpte]
      exact pteP_or _
    have halign := aligned_add pa hpa (k := k) (by omega)
    rcases walkpgdir_of_present hpresent with ⟨pte, hfound, hget⟩
    refine ⟨pte, hfound, ?_, ?_⟩
    . rw [hget, hpte, BitVec.or_assoc]
      exact pteAddr_or halign (flags_or hperm)
    . rw [hget, hpte, BitVec.or_assoc]
      exact or_flags halign (flags_or hperm)
  . intro a ha
    have hlt := a.isLt
    have hj : j ≤ (va.toNat + size.toNat - 1) / 4096 + 1 - va.toNat / 4096 := by
      cases r with
      | true => exact Nat.le_of_eq (hall rfl)
      | false => exact Nat.le_of_lt (hsome rfl)
    rw [pte_eq_walk, hmaps.walk _ (by omega), if_neg (by omega), pte_eq_walk]

def bare : Mem := ⟨fun _ => Bytes.zero, [0x401000, 0x402000], []⟩

theorem bare_entry (x : BitVec 32) (i : Nat) : bare.entry x i = 0 :=
  Bytes.getWord_zero _

theorem bare_valid : Valid VmSys.smallLayout bare 0x400000 := by
  have htables : bare.tables 0x400000 = {0x400000} := by
    unfold tables
    simp only [bare_entry, frameOf_of_absent pteP_zero, Finset.sum_const_zero, add_zero]
  have hpages : bare.tables 0x400000 + bare.free = ([0x400000, 0x401000, 0x402000] : List (BitVec 32)) := by
    rw [htables]
    rfl
  have hmanaged : ∀ x ∈ [0x400000, 0x401000, (0x402000 : BitVec 32)],
      x.toNat % 4096 = 0 ∧ 0x300000 ≤ x.toNat ∧ x.toNat < 0xE000000 := by
    simp
  constructor
  . rw [hpages]
    decide
  . rw [hpages]
    intro x hx
    rcases hmanaged x (Multiset.mem_coe.mp hx) with ⟨halign, hlow, hhigh⟩
    have hkend : VmSys.smallLayout.kend.toNat = 0x80300000 := rfl
    exact ⟨halign, by omega, hhigh⟩

theorem bare_pte (a : BitVec 32) : bare.pte 0x400000 a = 0 := by
  rw [pte_eq_walk]
  unfold walk
  rw [bare_entry, pteP_zero]
  rfl

theorem mappages_exact_bare
    : ∃ m', bare.mappages 0x400000 0xFFFFEFFF 0x1001 0xFE000000 PTE_W = .ok (true, m') ∧
        (∃ pte, (m'.walkpgdir 0x400000 0xFFFFFFFF false).1 = some pte ∧
          pteAddr (m'.get pte) = 0xFE001000) ∧
        m'.pte 0x400000 0xFFFFDFFF = 0 := by
  have habsent : ∀ a : BitVec 32, ¬ pteP (bare.pte 0x400000 a) := by
    intro a
    rw [bare_pte]
    decide
  have htrue : (bare.mappages 0x400000 0xFFFFEFFF 0x1001 0xFE000000 PTE_W).map (·.1) = .ok true := by
    decide +kernel
  rcases mappages_exact bare_valid 0xFFFFEFFF 0x1001 0xFE000000 PTE_W (by decide) (by decide)
    (by decide) (by decide) (fun a _ _ => habsent a) with ⟨r, m', hok, hin, hout, _⟩
  rw [hok] at htrue
  obtain rfl : r = true := Except.ok.inj htrue
  refine ⟨m', hok, ?_, ?_⟩
  . rcases hin rfl 0xFFFFFFFF 1 (by decide) (by decide) with ⟨pte, hpte, haddr, _⟩
    exact ⟨pte, hpte, haddr⟩
  . rw [hout _ (by decide), bare_pte]

end Mem
end Xv6
