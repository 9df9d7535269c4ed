import Xv6.Basic
import Xv6.Ulib.Impl.Memory

/-!
Both functions move the bytes when no byte of the destination lies in the source behind its first one.
When one does, only the kernel looks which way to copy.
-/

namespace Xv6

variable {m : Memory} {dst src n : BitVec 32}

theorem up_iterate (a : BitVec 32) (i : Nat) : (· + 1)^[i] a = a + BitVec.ofNat 32 i := by
  induction i with
  | zero => simp
  | succ i ih =>
    rw [Function.iterate_succ_apply', ih, BitVec.ofNat_add, BitVec.add_assoc]
    rfl

theorem down_iterate (a : BitVec 32) (i : Nat) : (· - 1)^[i] a = a - BitVec.ofNat 32 i := by
  induction i with
  | zero => simp
  | succ i ih =>
    rw [Function.iterate_succ_apply', ih, BitVec.ofNat_add, ← BitVec.sub_sub]
    rfl

theorem toNat_add_ofNat {a : BitVec 32} {i : Nat} (h : a.toNat + i < 2 ^ 32)
    : (a + BitVec.ofNat 32 i).toNat = a.toNat + i := by
  rw [BitVec.toNat_add, BitVec.toNat_ofNat]
  omega

theorem add_ofNat_ne {a b : BitVec 32} {i j : Nat} (ha : a.toNat + i < 2 ^ 32)
    (hb : b.toNat + j < 2 ^ 32) (hne : a.toNat + i ≠ b.toNat + j)
    : a + BitVec.ofNat 32 i ≠ b + BitVec.ofNat 32 j := by
  intro h
  have hnat := congrArg BitVec.toNat h
  rw [toNat_add_ofNat ha, toNat_add_ofNat hb] at hnat
  exact hne hnat

theorem Kstring.copyDown_eq (k : Nat) (m : Memory) (d s : BitVec 32)
    : copyDown k m d s = Copy.run (· - 1) k m (d - 1) (s - 1) := by
  induction k generalizing m d s with
  | zero => rfl
  | succ k ih => rw [copyDown, Copy.run, ih]

structure Moved (m m' : Memory) (dst src n : BitVec 32) : Prop where
  inside : ∀ i, i < n.toNat → m' (dst + BitVec.ofNat 32 i) = m (src + BitVec.ofNat 32 i)
  outside : ∀ a : BitVec 32, a.toNat < dst.toNat ∨ dst.toNat + n.toNat ≤ a.toNat → m' a = m a

theorem ne_of_outside {a : BitVec 32} {i : Nat} (hdst : dst.toNat + n.toNat ≤ 2 ^ 32)
    (ha : a.toNat < dst.toNat ∨ dst.toNat + n.toNat ≤ a.toNat) (hi : i < n.toNat)
    : a ≠ dst + BitVec.ofNat 32 i := by
  intro h
  have hnat := congrArg BitVec.toNat h
  rw [toNat_add_ofNat (by omega)] at hnat
  omega

theorem up_moved (hsrc : src.toNat + n.toNat ≤ 2 ^ 32) (hdst : dst.toNat + n.toNat ≤ 2 ^ 32)
    (hapart : ¬ (src < dst ∧ dst.toNat < src.toNat + n.toNat))
    : Moved m (Copy.run (· + 1) n.toNat m dst src) dst src n := by
  rw [BitVec.lt_def] at hapart
  constructor
  . intro i hi
    rw [← up_iterate, Copy.run_written _ _ _ hi, up_iterate]
    . intro i j hij hj
      rw [up_iterate, up_iterate]
      exact add_ofNat_ne (by omega) (by omega) (by omega)
    . intro i j hij hj
      rw [up_iterate, up_iterate]
      exact add_ofNat_ne (by omega) (by omega) (by omega)
  . intro a ha
    apply Copy.run_of_ne
    intro i hi
    rw [up_iterate]
    exact ne_of_outside hdst ha hi

theorem down_iterate_last {a : BitVec 32} {i : Nat} (hi : i < n.toNat)
    : (· - 1)^[i] (a + n - 1) = a + BitVec.ofNat 32 (n.toNat - 1 - i) := by
  have hone : (1 : BitVec 32).toNat = 1 := rfl
  have hn := n.isLt
  rw [down_iterate]
  apply BitVec.eq_of_toNat_eq
  simp only [BitVec.toNat_sub, BitVec.toNat_add, BitVec.toNat_ofNat]
  omega

-- Copied from the end, a byte of the source is read before the destination reaches it.
theorem down_moved (hdst : dst.toNat + n.toNat ≤ 2 ^ 32) (hlt : src < dst)
    : Moved m (Kstring.copyDown n.toNat m (dst + n) (src + n)) dst src n := by
  rw [BitVec.lt_def] at hlt
  rw [Kstring.copyDown_eq]
  constructor
  . intro i hi
    have hback : n.toNat - 1 - (n.toNat - 1 - i) = i := by omega
    have hcell : Copy.run (· - 1) n.toNat m (dst + n - 1) (src + n - 1)
        ((· - 1)^[n.toNat - 1 - i] (dst + n - 1)) = m ((· - 1)^[n.toNat - 1 - i] (src + n - 1)) := by
      apply Copy.run_written m _ _ (by omega)
      . intro i j hij hj
        rw [down_iterate_last (by omega), down_iterate_last (by omega)]
        exact add_ofNat_ne (by omega) (by omega) (by omega)
      . intro i j hij hj
        rw [down_iterate_last (by omega), down_iterate_last (by omega)]
        exact add_ofNat_ne (by omega) (by omega) (by omega)
    rw [down_iterate_last (by omega), down_iterate_last (by omega), hback] at hcell
    exact hcell
  . intro a ha
    apply Copy.run_of_ne
    intro i hi
    rw [down_iterate_last hi]
    exact ne_of_outside hdst ha (by omega)

theorem Kstring.memmove_moved (m : Memory) (hsrc : src.toNat + n.toNat ≤ 2 ^ 32)
    (hdst : dst.toNat + n.toNat ≤ 2 ^ 32)
    : Moved m (memmove m dst src n).2 dst src n := by
  unfold memmove
  split
  next h => exact down_moved hdst h.1
  next h =>
    apply up_moved hsrc hdst
    rintro ⟨hlt, hover⟩
    -- the destination ends after the source, so `src + n` has not wrapped to 0
    have hend : (src + n).toNat = src.toNat + n.toNat := by
      rw [BitVec.lt_def] at hlt
      rw [BitVec.toNat_add]
      omega
    refine h ⟨hlt, ?_⟩
    rw [gt_iff_lt, BitVec.lt_def, hend]
    exact hover

theorem Ulib.turns (h : n.toNat < 2 ^ 31) : n.toInt.toNat = n.toNat := by
  rw [BitVec.toInt_eq_toNat_of_lt (by omega)]
  exact Int.toNat_natCast _

theorem Ulib.turns_negative (h : 2 ^ 31 ≤ n.toNat) : n.toInt.toNat = 0 := by
  have hn := n.isLt
  rw [BitVec.toInt_eq_toNat_cond]
  split
  . omega
  . omega

theorem exists_memory_ne (h : src ≠ dst) : ∃ m : Memory, m src ≠ m dst := by
  refine ⟨Function.update (fun _ => 0) src 1, ?_⟩
  rw [Function.update_self, Function.update_of_ne h.symm]
  decide

theorem Ulib.not_moved_of_negative (h : 2 ^ 31 ≤ n.toNat) (hne : src ≠ dst)
    : ∃ m, ¬ Moved m (memmove m dst src n).2 dst src n := by
  rcases exists_memory_ne hne with ⟨m, hm⟩
  refine ⟨m, ?_⟩
  rw [memmove, turns_negative h]
  intro hmoved
  have hzero := hmoved.inside 0 (by omega)
  simp only [BitVec.add_zero] at hzero
  exact hm hzero.symm

-- The byte at `dst` is to go to `dst + (dst - src)`, and has been overwritten when it is read.
theorem Ulib.not_moved_of_overlap (hdst : dst.toNat + n.toNat ≤ 2 ^ 32) (hn : n.toNat < 2 ^ 31)
    (hlt : src < dst) (hover : dst.toNat < src.toNat + n.toNat)
    : ∃ m, ¬ Moved m (memmove m dst src n).2 dst src n := by
  rw [BitVec.lt_def] at hlt
  have hne : src ≠ dst := fun h => by simp [h] at hlt
  have hback : src + BitVec.ofNat 32 (dst.toNat - src.toNat) = dst := by
    apply BitVec.eq_of_toNat_eq
    rw [toNat_add_ofNat (by omega)]
    omega
  rcases exists_memory_ne hne with ⟨m, hm⟩
  refine ⟨m, ?_⟩
  rw [memmove, turns hn]
  intro hmoved
  have hcell := hmoved.inside (dst.toNat - src.toNat) (by omega)
  rw [hback, ← up_iterate] at hcell
  refine hm (Eq.trans (Eq.symm (Copy.run_overwritten m (by omega) (by omega) ?_ ?_)) hcell)
  . rw [up_iterate]
    exact hback
  . intro i j hij hj
    rw [up_iterate, up_iterate]
    exact add_ofNat_ne (by omega) (by omega) (by omega)

/--
The kernel's `memmove` moves the bytes in every memory; that of the user programs does when they stay
where they are, or when there are less than 2^31 and no byte of the source is overwritten before it is
read.
-/
theorem memmove_agree (m : Memory) (dst src n : BitVec 32) (hsrc : src.toNat + n.toNat ≤ 2 ^ 32)
    (hdst : dst.toNat + n.toNat ≤ 2 ^ 32)
    : (Kstring.memmove m dst src n).1 = dst ∧ Moved m (Kstring.memmove m dst src n).2 dst src n ∧
        (Ulib.memmove m dst src n).1 = dst ∧
        ((∀ m, Moved m (Ulib.memmove m dst src n).2 dst src n) ↔
          src = dst ∨ n.toNat < 2 ^ 31 ∧ ¬ (src < dst ∧ dst.toNat < src.toNat + n.toNat)) := by
  refine ⟨?_, Kstring.memmove_moved m hsrc hdst, rfl, ?_, ?_⟩
  . unfold Kstring.memmove
    split
    . rfl
    . rfl
  . intro hall
    by_contra hout
    rcases not_or.mp hout with ⟨hne, hbad⟩
    by_cases hn : n.toNat < 2 ^ 31
    . by_cases hover : src < dst ∧ dst.toNat < src.toNat + n.toNat
      . rcases Ulib.not_moved_of_overlap hdst hn hover.1 hover.2 with ⟨m, hm⟩
        exact hm (hall m)
      . exact hbad ⟨hn, hover⟩
    . rcases Ulib.not_moved_of_negative (Nat.le_of_not_lt hn) hne with ⟨m, hm⟩
      exact hm (hall m)
  . rintro (rfl | ⟨hn, hapart⟩) m
    . rw [Ulib.memmove, Copy.run_self]
      exact ⟨fun _ _ => rfl, fun _ _ => rfl⟩
    . rw [Ulib.memmove, Ulib.turns hn]
      exact up_moved hsrc hdst hapart

def ramp : Memory := fun a => a.setWidth 8

theorem memmove_agree_scroll
    : Moved ramp (Kstring.memmove ramp 0x800b8000 0x800b80a0 3680).2 0x800b8000 0x800b80a0 3680 ∧
        Moved ramp (Ulib.memmove ramp 0x800b8000 0x800b80a0 3680).2 0x800b8000 0x800b80a0 3680 := by
  have h := memmove_agree ramp 0x800b8000 0x800b80a0 3680 (by decide) (by decide)
  exact ⟨h.2.1, h.2.2.2.mpr (.inr (by decide)) ramp⟩

-- two bytes one place up: the second one has been overwritten when it is read
theorem ulib_memmove_upwards
    : (Kstring.memmove ramp 1 0 2).2 2 = ramp 1 ∧ (Ulib.memmove ramp 1 0 2).2 2 = ramp 0 ∧
        ramp 1 ≠ ramp 0 := by
  decide

end Xv6
