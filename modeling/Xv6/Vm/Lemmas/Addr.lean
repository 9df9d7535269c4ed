import Mathlib.Tactic.IntervalCases
import Xv6.Vm.Basic

/-!
The address macros of `mmu.h` as arithmetic on page numbers.
-/

namespace Xv6

theorem p2v_toNat {pa : BitVec 32} (h : pa.toNat < 0xE000000) : (p2v pa).toNat = pa.toNat + 2 ^ 31 := by
  unfold p2v
  rw [BitVec.toNat_add, KERNBASE_toNat]
  omega

theorem v2p_p2v (pa : BitVec 32) : v2p (p2v pa) = pa := by
  unfold v2p p2v
  exact BitVec.add_sub_cancel pa KERNBASE

def pageAddr (v : Nat) : BitVec 32 :=
  BitVec.ofNat 32 (4096 * v)

theorem pageAddr_toNat {v : Nat} (hv : v < 2 ^ 20) : (pageAddr v).toNat = 4096 * v := by
  unfold pageAddr
  simp only [BitVec.toNat_ofNat]
  omega

theorem pageAddr_succ (v : Nat) : pageAddr v + 4096 = pageAddr (v + 1) := by
  unfold pageAddr
  apply BitVec.eq_of_toNat_eq
  simp only [BitVec.ofNat_eq_ofNat, BitVec.toNat_add, BitVec.toNat_ofNat]
  omega

theorem pageAddr_inj {v u : Nat} (hv : v < 2 ^ 20) (hu : u < 2 ^ 20)
    : pageAddr v = pageAddr u ↔ v = u := by
  constructor
  . intro h
    have := congrArg BitVec.toNat h
    rw [pageAddr_toNat hv, pageAddr_toNat hu] at this
    omega
  . intro h
    rw [h]

theorem and_mask_toNat (a : BitVec 32) : (a &&& ~~~ 4095#32).toNat = 4096 * (a.toNat / 4096) := by
  have h : a &&& ~~~ 4095#32 = a >>> 12 <<< 12 := by
    ext i hi
    simp only [BitVec.getElem_and, BitVec.getElem_not, BitVec.getElem_shiftLeft]
    interval_cases i <;> simp
  rw [h]
  simp only [BitVec.toNat_shiftLeft, BitVec.toNat_ushiftRight, Nat.shiftLeft_eq,
    Nat.shiftRight_eq_div_pow]
  have := a.isLt
  omega

theorem pgrounddown_toNat (a : BitVec 32) : (pgrounddown a).toNat = 4096 * (a.toNat / 4096) :=
  and_mask_toNat a

theorem pteAddr_toNat (w : BitVec 32) : (pteAddr w).toNat = 4096 * (w.toNat / 4096) :=
  and_mask_toNat w

theorem pgroundup_toNat {sz : BitVec 32} (h : sz.toNat + 4096 ≤ 2 ^ 32)
    : (pgroundup sz).toNat = 4096 * ((sz.toNat + 4095) / 4096) := by
  have hdown : pgroundup sz = pgrounddown (sz + 4095) := rfl
  rw [hdown, pgrounddown_toNat]
  simp only [BitVec.ofNat_eq_ofNat, BitVec.toNat_add, BitVec.toNat_ofNat]
  omega

theorem pdx_eq (va : BitVec 32) : pdx va = va.toNat / 4096 / 1024 := by
  unfold pdx
  have := va.isLt
  simp only [BitVec.ofNat_eq_ofNat, BitVec.toNat_and, BitVec.toNat_ushiftRight, BitVec.toNat_ofNat,
    Nat.shiftRight_eq_div_pow]
  rw [show 1023 % 2 ^ 32 = 2 ^ 10 - 1 from rfl, Nat.and_two_pow_sub_one_eq_mod]
  omega

theorem ptx_eq (va : BitVec 32) : ptx va = va.toNat / 4096 % 1024 := by
  unfold ptx
  simp only [BitVec.ofNat_eq_ofNat, BitVec.toNat_and, BitVec.toNat_ushiftRight, BitVec.toNat_ofNat,
    Nat.shiftRight_eq_div_pow]
  rw [show 1023 % 2 ^ 32 = 2 ^ 10 - 1 from rfl, Nat.and_two_pow_sub_one_eq_mod]

theorem pdx_pageAddr {v : Nat} (hv : v < 2 ^ 20) : pdx (pageAddr v) = v / 1024 := by
  rw [pdx_eq, pageAddr_toNat hv]
  omega

theorem pageAddr_vpn (va : BitVec 32) : pageAddr (va.toNat / 4096) = pgrounddown va := by
  apply BitVec.eq_of_toNat_eq
  rw [pgrounddown_toNat, pageAddr_toNat]
  have := va.isLt
  omega

theorem pgaddr_skip (i : Nat)
    : pgaddr (BitVec.ofNat 32 i + 1) 0 0 - 4096 + 4096 = pageAddr (1024 * (i + 1)) := by
  apply BitVec.eq_of_toNat_eq
  unfold pgaddr pageAddr
  simp only [BitVec.ofNat_eq_ofNat, BitVec.toNat_add, BitVec.toNat_sub, BitVec.toNat_or,
    BitVec.toNat_shiftLeft, BitVec.toNat_ofNat, Nat.shiftLeft_eq]
  simp only [Nat.zero_mod, Nat.zero_mul, Nat.or_zero]
  omega

theorem pteP_zero : pteP 0 = false := rfl

theorem pteP_or (w : BitVec 32) : pteP (w ||| PTE_P) = true := by
  unfold pteP
  rw [bne_iff_ne]
  intro h
  have := congrArg (fun x => x.getLsbD 0) h
  simp at this

theorem pteAddr_of_aligned {pa : BitVec 32} (h : pa.toNat % 4096 = 0) : pteAddr pa = pa := by
  apply BitVec.eq_of_toNat_eq
  rw [pteAddr_toNat]
  omega

theorem pteAddr_or {pa f : BitVec 32} (h : pa.toNat % 4096 = 0) (hf : pteAddr f = 0)
    : pteAddr (pa ||| f) = pa := by
  have hpa := pteAddr_of_aligned h
  unfold pteAddr at *
  rw [BitVec.and_comm, BitVec.and_or_distrib_left, BitVec.and_comm, hpa, BitVec.and_comm, hf]
  simp

theorem and_of_aligned {pa f : BitVec 32} (h : pa.toNat % 4096 = 0) (hf : pteAddr f = 0)
    : pa &&& f = 0 := by
  have hpa := pteAddr_of_aligned h
  unfold pteAddr at *
  rw [← hpa, BitVec.and_assoc, BitVec.and_comm _ f, hf]
  exact BitVec.and_zero

theorem pteU_or {pa : BitVec 32} (f : BitVec 32) (h : pa.toNat % 4096 = 0) : pteU (pa ||| f) = pteU f := by
  unfold pteU
  rw [BitVec.and_comm, BitVec.and_or_distrib_left, BitVec.and_comm, and_of_aligned h (by decide),
    BitVec.ofNat_eq_ofNat, BitVec.zero_or, BitVec.and_comm]

theorem pteP_clear (w : BitVec 32) : pteP (w &&& ~~~ PTE_U) = pteP w := by
  unfold pteP
  rw [BitVec.and_assoc]
  rfl

theorem pteU_clear (w : BitVec 32) : pteU (w &&& ~~~ PTE_U) = false := by
  unfold pteU
  rw [BitVec.and_assoc]
  show (w &&& 0#32 != 0#32) = false
  rw [BitVec.and_zero]
  rfl

theorem pteAddr_clear (w : BitVec 32) : pteAddr (w &&& ~~~ PTE_U) = pteAddr w := by
  unfold pteAddr
  rw [BitVec.and_assoc]
  rfl

theorem and_not_three_toNat (a : BitVec 32) : (a &&& ~~~ 3).toNat = 4 * (a.toNat / 4) := by
  have h : a &&& ~~~ 3#32 = a >>> 2 <<< 2 := by
    ext i hi
    simp only [BitVec.getElem_and, BitVec.getElem_not, BitVec.getElem_shiftLeft]
    interval_cases i <;> simp
  rw [BitVec.ofNat_eq_ofNat, h]
  simp only [BitVec.toNat_shiftLeft, BitVec.toNat_ushiftRight, Nat.shiftLeft_eq,
    Nat.shiftRight_eq_div_pow]
  have := a.isLt
  omega

end Xv6
