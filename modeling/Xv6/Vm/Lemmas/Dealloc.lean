import Xv6.Vm.Lemmas.Fault

/-!
Which pages `deallocuvm` frees.
-/

namespace Xv6

namespace Mem

variable {L : Layout} {d : BitVec 32} {m m' : Mem} {P : Nat → Prop} [DecidablePred P]

theorem Frees.user_add (hf : Frees d P m m')
    : m'.user d + ∑ u ∈ userPages with P u, frameOf (m.walk d u) = m.user d := by
  unfold user
  rw [Finset.sum_filter, ← Finset.sum_add_distrib]
  apply Finset.sum_congr rfl
  intro u hu
  have hbound := mem_userPages.mp hu
  rw [hf.walk u (by omega)]
  by_cases hP : P u
  . by_cases hp : pteP (m.walk d u)
    . rw [if_pos ⟨hP, hp⟩, if_pos hP, frameOf_of_absent pteP_zero, zero_add]
    . rw [if_neg (fun h => hp h.2), if_pos hP]
      rw [frameOf_of_absent (Bool.eq_false_of_not_eq_true hp), add_zero]
  . rw [if_neg (fun h => hP h.1), if_neg hP, add_zero]

theorem Frees.free_eq (hf : Frees d P m m')
    : m'.free = m.free + ∑ u ∈ userPages with P u, frameOf (m.walk d u) := by
  have hconserve := hf.conserve
  unfold own at hconserve
  rw [hf.tables, ← hf.user_add, add_assoc, add_assoc, add_right_inj, add_assoc, add_right_inj]
    at hconserve
  rw [hconserve, add_comm]

def Between (newsz oldsz : BitVec 32) (u : Nat) : Prop :=
  pgroundup newsz ≤ pageAddr u ∧ pageAddr u < oldsz

instance (newsz oldsz : BitVec 32) : DecidablePred (Between newsz oldsz) := fun u =>
  inferInstanceAs (Decidable (pgroundup newsz ≤ pageAddr u ∧ pageAddr u < oldsz))

theorem between_iff {newsz oldsz : BitVec 32} (hnew : newsz ≤ KERNBASE) {u : Nat}
    (hu : u < 2 ^ 20)
    : Between newsz oldsz u ↔ newsz.toNat ≤ 4096 * u ∧ 4096 * u < oldsz.toNat := by
  rw [BitVec.le_def, KERNBASE_toNat] at hnew
  unfold Between
  rw [BitVec.le_def, BitVec.lt_def, pageAddr_toNat hu, pgroundup_toNat (by omega)]
  omega

/--
`deallocuvm` takes away the present pages from `PGROUNDUP(newsz)` up to `oldsz` and no others, and
gives each of their frames to the free list once. No directory entry changes.
-/
theorem deallocuvm_frees_exactly (hnodup : (m.own d).Nodup) (oldsz newsz : BitVec 32)
    (hold : oldsz ≤ KERNBASE) (hnew : newsz ≤ KERNBASE)
    (hman : ∀ u, u < 2 ^ 20 → Between newsz oldsz u → pteP (m.walk d u) →
      L.Managed (pteAddr (m.walk d u)))
    : (oldsz ≤ newsz → m.deallocuvm L d oldsz newsz = .ok (oldsz, m)) ∧
        (newsz < oldsz → ∃ m', m.deallocuvm L d oldsz newsz = .ok (newsz, m') ∧
          (∀ u, u < 2 ^ 20 → m'.walk d u =
            if Between newsz oldsz u ∧ pteP (m.walk d u) then 0 else m.walk d u) ∧
          (∀ i, m'.entry d i = m.entry d i) ∧
          m'.free = m.free + ∑ u ∈ userPages with Between newsz oldsz u, frameOf (m.walk d u) ∧
          (∑ u ∈ userPages with Between newsz oldsz u, frameOf (m.walk d u)).Nodup ∧
          ∀ x, x ∉ m.tables d → x ∉ m'.free → m'.phys x = m.phys x) := by
  constructor
  . intro hge
    unfold Mem.deallocuvm
    exact if_pos hge
  . intro hlt
    have hbound : oldsz.toNat ≤ 2 ^ 31 := hold
    rcases deallocuvm_frees hnodup oldsz newsz hbound (L := L)
      (fun u hlow hhigh => hman u (by omega) ((between_iff hnew (by omega)).mpr ⟨hlow, hhigh⟩))
      with ⟨m', hok, hfrees⟩
    rw [if_neg (BitVec.not_le.mpr hlt)] at hok
    have hsum : ∑ u ∈ userPages with Between newsz oldsz u, frameOf (m.walk d u) =
        ∑ u ∈ userPages with (newsz.toNat ≤ 4096 * u ∧ 4096 * u < oldsz.toNat),
          frameOf (m.walk d u) := by
      congr 1
      apply Finset.filter_congr
      intro u hu
      have := mem_userPages.mp hu
      exact between_iff hnew (by omega)
    refine ⟨m', hok, ?_, hfrees.entry, ?_, ?_, hfrees.frame⟩
    . intro u hu
      rw [hfrees.walk u hu]
      simp only [between_iff hnew hu]
    . rw [hsum]
      exact hfrees.free_eq
    . rw [hsum]
      apply Multiset.nodup_of_le _ (Multiset.nodup_add.mp hnodup).2.1
      rw [← hfrees.user_add]
      exact Multiset.le_add_left _ _

end Mem

namespace VmSys

theorem deallocuvm_frees_exactly_guarded
    : ∃ m', guarded.mem.deallocuvm smallLayout 0x400000 0x3000 0x1001 = .ok (0x1001, m') ∧
        m'.walk 0x400000 1 = guarded.mem.walk 0x400000 1 ∧ m'.walk 0x400000 2 = 0 := by
  have howned := guarded_inv.owned (p := 0) (d := 0x400000) (by decide) rfl
  have hman : ∀ u, u < 2 ^ 20 → Mem.Between 0x1001 0x3000 u → pteP (guarded.mem.walk 0x400000 u) →
      smallLayout.Managed (pteAddr (guarded.mem.walk 0x400000 u)) := by
    intro u hu hbetween hp
    rw [Mem.between_iff (by decide) hu] at hbetween
    exact howned.managed_user (by simp at hbetween; omega) hp
  rcases (Mem.deallocuvm_frees_exactly (Multiset.nodup_add.mp howned.nodup).1 0x3000 0x1001
    (by decide) (by decide) hman).2 (by decide) with ⟨m', hok, hwalk, _⟩
  refine ⟨m', hok, ?_, ?_⟩
  . rw [hwalk 1 (by decide), if_neg (by decide)]
  . rw [hwalk 2 (by decide)]
    apply if_pos
    rw [show guarded.mem.walk 0x400000 2 = 0x405007 from laid_walk _ _ _ _ _ _]
    decide

-- The process of `starved` after its fault: page 1 has the frame `V2P(0)`.
def nullFrame : VmSys :=
  laid 0x2000 0x403007 0x80000007 0 []

theorem deallocuvm_null_frame_panics
    : (nullFrame.mem.own 0x400000).Nodup ∧ nullFrame.mem.walk 0x400000 1 = 0x80000007 ∧
        (∀ x ∈ nullFrame.mem.own 0x400000, x ≠ 0) ∧
        nullFrame.mem.deallocuvm smallLayout 0x400000 0x2000 0x1000 = .error (.panic "kfree") := by
  have hown : nullFrame.mem.own 0x400000 = {0x400000, 0x402000, 0x403000, 0x80000000} := by
    unfold Mem.own nullFrame
    rw [laid_tables, laid_user]
    decide
  refine ⟨?_, laid_walk _ _ _ _ _ _, ?_, rfl⟩
  . rw [hown]
    decide
  . rw [hown]
    simp

end VmSys

end Xv6
