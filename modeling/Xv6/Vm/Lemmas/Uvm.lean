import Xv6.Data.Fold
import Xv6.Vm.Lemmas.Pgdir

/-!
What the functions of `vm.c` do to the pages of an address space: pages move between the free list,
the page tables and user memory, and none is lost or taken twice.
-/

namespace Xv6

theorem Layout.Managed.ne_zero {L : Layout} {pa : BitVec 32} (h : L.Managed pa) : pa ≠ 0 := by
  intro heq
  have h1 := L.kernlink_lt
  have h2 := L.data_lt
  have h3 := h.2.1
  rw [KERNLINK_toNat] at h1
  rw [heq] at h3
  simp only [BitVec.ofNat_eq_ofNat, BitVec.toNat_ofNat, Nat.zero_mod] at h3
  omega

namespace Mem

def own (m : Mem) (d : BitVec 32) : Multiset (BitVec 32) :=
  m.tables d + m.user d

/--
The pages of the address space `d` and the free pages are pairwise distinct pages that `kalloc`
manages.
-/
structure Owned (L : Layout) (m : Mem) (d : BitVec 32) : Prop where
  nodup : (m.own d + m.free).Nodup
  managed : ∀ x ∈ m.own d + m.free, L.Managed x

variable {L : Layout} {d : BitVec 32} {m m' m'' : Mem}

theorem Owned.of_eq (h : Owned L m d) (heq : m'.own d + m'.free = m.own d + m.free)
    : Owned L m' d := by
  constructor
  . rw [heq]
    exact h.nodup
  . rw [heq]
    exact h.managed

theorem own_of_phys (h : m'.phys = m.phys) (d : BitVec 32) : m'.own d = m.own d := by
  unfold own tables user walk entry
  rw [h]

theorem Owned.of_le (h : Owned L m d) (hle : m'.own d + m'.free ≤ m.own d + m.free)
    : Owned L m' d :=
  ⟨Multiset.nodup_of_le hle h.nodup, fun x hx => h.managed x (Multiset.mem_of_le hle hx)⟩

theorem Owned.kalloc_none (h : Owned L m d) (hk : m.kalloc = (none, m')) : Owned L m' d := by
  rcases Mem.kalloc_none hk with ⟨hphys, hfree⟩
  apply h.of_eq
  rw [own_of_phys hphys, hfree]

theorem Owned.kalloc_some {pa : BitVec 32} (h : Owned L m d) (hk : m.kalloc = (some pa, m'))
    : Owned L m' d := by
  rcases Mem.kalloc_some hk with ⟨hphys, hfree⟩
  apply h.of_le
  rw [own_of_phys hphys, hfree]
  exact add_le_add le_rfl (Multiset.le_cons_self _ _)

theorem own_add_free (m : Mem) (d : BitVec 32)
    : m.own d + m.free = (m.tables d + m.free) + m.user d := by
  unfold own
  ac_rfl

theorem Owned.valid (h : Owned L m d) : Valid L m d := by
  have hnodup := h.nodup
  rw [own_add_free, Multiset.nodup_add] at hnodup
  refine ⟨hnodup.1, ?_⟩
  intro x hx
  apply h.managed
  rw [own_add_free, Multiset.mem_add]
  exact .inl hx

theorem Owned.user_disjoint (h : Owned L m d) {x : BitVec 32} (hx : x ∈ m.user d)
    : x ∉ m.tables d ∧ x ∉ m.free := by
  have hnodup := h.nodup
  rw [own_add_free, Multiset.nodup_add] at hnodup
  have hdisj := Multiset.disjoint_right.mp hnodup.2.2 hx
  rw [Multiset.mem_add, not_or] at hdisj
  exact hdisj

theorem Owned.managed_user (h : Owned L m d) {v : Nat} (hv : v < 2 ^ 19) (hp : pteP (m.walk d v))
    : L.Managed (pteAddr (m.walk d v)) := by
  apply h.managed
  rw [own_add_free, Multiset.mem_add]
  exact .inr (mem_user hv hp)

structure Frees (d : BitVec 32) (P : Nat → Prop) [DecidablePred P] (m m' : Mem) : Prop where
  conserve : m'.own d + m'.free = m.own d + m.free
  mono : m.free ≤ m'.free
  frame : ∀ x, x ∉ m.tables d → x ∉ m'.free → m'.phys x = m.phys x
  tables : m'.tables d = m.tables d
  entry : ∀ i, m'.entry d i = m.entry d i
  walk : ∀ u, u < 2 ^ 20 → m'.walk d u = if P u ∧ pteP (m.walk d u) then 0 else m.walk d u

section

variable {P Q : Nat → Prop} [DecidablePred P] [DecidablePred Q]

theorem Frees.refl (d : BitVec 32) (m : Mem) (h : ∀ u, u < 2 ^ 20 → P u → ¬ pteP (m.walk d u))
    : Frees d P m m := by
  refine ⟨rfl, le_refl _, fun _ _ _ => rfl, rfl, fun _ => rfl, ?_⟩
  intro u hu
  rw [if_neg]
  intro hP
  exact h u hu hP.1 hP.2

theorem Frees.trans {R : Nat → Prop} [DecidablePred R] (h₁ : Frees d P m m')
    (h₂ : Frees d Q m' m'')
    (h : ∀ u, u < 2 ^ 20 → pteP (m.walk d u) → (R u ↔ P u ∨ Q u))
    : Frees d R m m'' := by
  refine ⟨?_, le_trans h₁.mono h₂.mono, ?_, ?_, ?_, ?_⟩
  . rw [h₂.conserve, h₁.conserve]
  . intro x hx hfree
    rw [h₂.frame x (by rw [h₁.tables]; exact hx) hfree]
    apply h₁.frame x hx
    intro hin
    exact hfree (Multiset.mem_of_le h₂.mono hin)
  . rw [h₂.tables, h₁.tables]
  . intro i
    rw [h₂.entry, h₁.entry]
  . intro u hu
    rw [h₂.walk u hu, h₁.walk u hu]
    have := h u hu
    have hzero := pteP_zero
    grind

theorem Frees.owned (h : Owned L m d) (hf : Frees d P m m') : Owned L m' d :=
  h.of_eq hf.conserve

theorem Frees.own_le (hf : Frees d P m m') : m'.own d ≤ m.own d := by
  apply le_of_add_le_add_right (a := m'.free)
  rw [hf.conserve]
  exact add_le_add le_rfl hf.mono

theorem Frees.walk_of_present (hf : Frees d P m m') {u : Nat} (hu : u < 2 ^ 20)
    (hp : pteP (m'.walk d u))
    : m'.walk d u = m.walk d u ∧ pteP (m.walk d u) := by
  rw [hf.walk u hu] at hp ⊢
  split at hp
  next => cases hp
  next h =>
    rw [if_neg h]
    exact ⟨rfl, hp⟩

end

theorem freePage {va : BitVec 32} {v : Nat} (hnodup : (m.own d).Nodup) (hv : v < 2 ^ 19)
    (hva : va.toNat / 4096 = v) (hpde : pteP (m.entry d (pdx va))) (hp : pteP (m.walk d v))
    (hman : L.Managed (pteAddr (m.walk d v)))
    : ∃ m₁, m.kfree L (pteAddr (m.walk d v)) = .ok m₁ ∧
        Frees d (· = v) m (m₁.set ⟨pteAddr (m.entry d (pdx va)), ptx va⟩ 0) := by
  unfold own at hnodup
  rw [Multiset.nodup_add] at hnodup
  have hout := Multiset.disjoint_right.mp hnodup.2.2 (mem_user hv hp)
  rcases kfree_ok m hman with ⟨m₁, hok, hfree, hphys⟩
  refine ⟨m₁, hok, ?_⟩
  generalize hpa : pteAddr (m.walk d v) = pa at *
  have hsame : ∀ x ∈ m.tables d, m₁.phys x = m.phys x := by
    intro x hx
    apply hphys
    intro heq
    apply hout
    rw [← heq]
    exact hx
  have htables := tables_congr hsame
  have hentry := entry_congr (hsame d (self_mem_tables m d))
  have hwalk : ∀ u, u < 2 ^ 20 → m₁.walk d u = m.walk d u := fun u hu => walk_congr hsame hu
  have hpde₁ : pteP (m₁.entry d (pdx va)) := by
    rw [hentry]
    exact hpde
  have hstores : Stores d m₁ (m₁.set ⟨pteAddr (m₁.entry d (pdx va)), ptx va⟩ 0) _ 0 :=
    set_stores (by rw [htables]; exact hnodup.1) hpde₁ 0
  rw [hva, hentry] at hstores
  generalize hm₂ : m₁.set ⟨pteAddr (m.entry d (pdx va)), ptx va⟩ 0 = m₂ at hstores
  have huser : m₂.user d + {pa} = m.user d := by
    have hkeep : ∀ u, u < 2 ^ 19 → u ≠ v → m₂.walk d u = m.walk d u := by
      intro u hu hne
      rw [hstores.walk u (by omega), if_neg hne, hwalk u (by omega)]
    have hupd := user_update hv hkeep
    rw [hstores.walk v (by omega), if_pos rfl, frameOf_of_present hp, hpa,
      frameOf_of_absent pteP_zero, add_zero] at hupd
    exact hupd
  refine ⟨?_, ?_, ?_, ?_, ?_, ?_⟩
  . unfold own
    rw [hstores.tables, hstores.free, htables, hfree, ← huser, ← Multiset.singleton_add]
    ac_rfl
  . rw [hstores.free, hfree]
    exact Multiset.le_cons_self _ _
  . intro x hx hfree'
    rw [hstores.free, hfree, Multiset.mem_cons, not_or] at hfree'
    rw [hstores.grows.frame, hphys x hfree'.1]
    rw [htables, hfree, Multiset.mem_add, Multiset.mem_cons]
    grind
  . rw [hstores.tables, htables]
  . intro i
    rw [hstores.entry, hentry]
  . intro u hu
    rw [hstores.walk u hu, hwalk u hu]
    grind

theorem deallocuvm_loop {oldsz : BitVec 32} {k v : Nat} (hnodup : (m.own d).Nodup)
    (hold : oldsz.toNat ≤ 2 ^ 31) (hv : v ≤ 2 ^ 19) (hk : oldsz.toNat ≤ 4096 * v + 4096 * k)
    (hman : ∀ u, v ≤ u → 4096 * u < oldsz.toNat → pteP (m.walk d u) →
      L.Managed (pteAddr (m.walk d u)))
    : ∃ m', deallocuvm.loop L d oldsz (k + 1) m (pageAddr v) = .ok m' ∧
        Frees d (fun u => v ≤ u ∧ 4096 * u < oldsz.toNat) m m' := by
  induction k generalizing m v with
  | zero =>
    have hva : (pageAddr v).toNat = 4096 * v := pageAddr_toNat (by omega)
    unfold deallocuvm.loop
    rw [if_neg (by rw [BitVec.lt_def]; omega)]
    refine ⟨m, rfl, Frees.refl d m ?_⟩
    omega
  | succ k ih =>
    have hva : (pageAddr v).toNat = 4096 * v := pageAddr_toNat (by omega)
    unfold deallocuvm.loop
    split
    next hlt =>
      rw [BitVec.lt_def, hva] at hlt
      rw [walkpgdir_false]
      have hvpn : (pageAddr v).toNat / 4096 = v := by omega
      by_cases hpde : pteP (m.entry d (pdx (pageAddr v)))
      . rw [if_pos hpde]
        simp only
        have hget := get_eq_walk hpde
        rw [hvpn] at hget
        rw [hget, pageAddr_succ]
        by_cases hp : pteP (m.walk d v)
        . have hmanv := hman v (le_refl v) hlt hp
          rw [if_pos hp, if_neg hmanv.ne_zero]
          rcases freePage hnodup (by omega) hvpn hpde hp hmanv with ⟨m₁, hok, hfrees⟩
          rw [hok]
          have hman₁ : ∀ u, v + 1 ≤ u → 4096 * u < oldsz.toNat →
              pteP ((m₁.set ⟨pteAddr (m.entry d (pdx (pageAddr v))), ptx (pageAddr v)⟩ 0).walk d u) →
              L.Managed (pteAddr
                ((m₁.set ⟨pteAddr (m.entry d (pdx (pageAddr v))), ptx (pageAddr v)⟩ 0).walk d u)) := by
            intro u hu hlt' hpu
            have hkeep := hfrees.walk_of_present (by omega) hpu
            rw [hkeep.1]
            exact hman u (by omega) hlt' hkeep.2
          rcases ih (v := v + 1) (Multiset.nodup_of_le hfrees.own_le hnodup) (by omega) (by omega)
            hman₁ with ⟨m', hok', hfrees'⟩
          refine ⟨m', hok', hfrees.trans hfrees' ?_⟩
          omega
        . rw [if_neg hp]
          rcases ih (v := v + 1) hnodup (by omega) (by omega) (fun u hu => hman u (by omega))
            with ⟨m', hok', hfrees'⟩
          refine ⟨m', hok', (Frees.refl (P := (· = v)) d m ?_).trans hfrees' ?_⟩
          . intro u _ hu
            rw [hu]
            exact hp
          . omega
      . -- the page table is absent, and with it all pages up to the next one
        rw [if_neg hpde]
        simp only
        rw [pgaddr_skip, pdx_pageAddr (by omega)]
        have habsent : ∀ u, v / 1024 = u / 1024 → ¬ pteP (m.walk d u) := by
          intro u hu
          rw [pdx_pageAddr (by omega), hu] at hpde
          unfold walk
          rw [if_neg hpde, pteP_zero]
          simp
        rcases ih (v := 1024 * (v / 1024 + 1)) hnodup (by omega) (by omega)
          (fun u hu => hman u (by omega)) with ⟨m', hok', hfrees'⟩
        refine ⟨m', hok', (Frees.refl (P := (fun u => v / 1024 = u / 1024)) d m ?_).trans hfrees' ?_⟩
        . intro u _ hu
          exact habsent u hu
        . intro u _ hu
          have := habsent u
          constructor
          . intro hP
            by_cases heq : v / 1024 = u / 1024
            . exact .inl heq
            . exact .inr (by omega)
          . intro hP
            cases hP with
            | inl heq => exact absurd hu (this heq)
            | inr hP => omega
    next hge =>
      rw [BitVec.lt_def, hva] at hge
      refine ⟨m, rfl, Frees.refl d m ?_⟩
      omega

theorem kfree_managed {pa : BitVec 32} (h : m.kfree L pa = .ok m') : L.Managed pa := by
  unfold kfree at h
  simp only at h
  split at h
  . contradiction
  next hpass =>
    rw [v2p_p2v, not_or, not_or, Classical.not_not, BitVec.not_lt, ge_iff_le, BitVec.not_le] at hpass
    rcases hpass with ⟨halign, hlow, hhigh⟩
    rw [BitVec.lt_def, PHYSTOP_toNat] at hhigh
    rw [BitVec.le_def] at hlow
    have hv := p2v_toNat hhigh
    rw [PGSIZE] at halign
    exact ⟨by omega, by omega, hhigh⟩

-- The loop returns only if it could free every page on its way.
theorem deallocuvm_loop_managed {oldsz : BitVec 32} {k v : Nat} (hnodup : (m.own d).Nodup)
    (hold : oldsz.toNat ≤ 2 ^ 31) (hv : v ≤ 2 ^ 19)
    (hok : deallocuvm.loop L d oldsz k m (pageAddr v) = .ok m') {u : Nat} (hu : v ≤ u)
    (hlt : 4096 * u < oldsz.toNat) (hp : pteP (m.walk d u))
    : L.Managed (pteAddr (m.walk d u)) := by
  induction k generalizing m v with
  | zero => contradiction
  | succ k ih =>
    have hva : (pageAddr v).toNat = 4096 * v := pageAddr_toNat (by omega)
    have hvpn : (pageAddr v).toNat / 4096 = v := by omega
    unfold deallocuvm.loop at hok
    rw [if_pos (by rw [BitVec.lt_def]; omega), walkpgdir_false] at hok
    by_cases hpde : pteP (m.entry d (pdx (pageAddr v)))
    . have hget := get_eq_walk hpde
      rw [hvpn] at hget
      rw [if_pos hpde] at hok
      simp only at hok
      rw [hget, pageAddr_succ] at hok
      by_cases hpv : pteP (m.walk d v)
      . rw [if_pos hpv] at hok
        split at hok
        . contradiction
        . rcases Fold.bind_eq_ok hok with ⟨m₁, hkfree, hrest⟩
          have hman := kfree_managed hkfree
          by_cases heq : u = v
          . rw [heq]
            exact hman
          . rcases freePage hnodup (by omega) hvpn hpde hpv hman with ⟨m₁', hkfree', hfrees⟩
            rw [hkfree] at hkfree'
            cases hkfree'
            have hwalk := hfrees.walk u (by omega)
            rw [if_neg (fun h => heq h.1)] at hwalk
            rw [← hwalk]
            apply ih (Multiset.nodup_of_le hfrees.own_le hnodup) (by omega) hrest (by omega)
            rw [hwalk]
            exact hp
      . rw [if_neg hpv] at hok
        have hne : u ≠ v := by
          intro heq
          rw [heq] at hp
          exact hpv hp
        exact ih hnodup (by omega) hok (by omega) hp
    . rw [if_neg hpde] at hok
      simp only at hok
      rw [pgaddr_skip, pdx_pageAddr (by omega)] at hok
      rw [pdx_pageAddr (by omega)] at hpde
      have hnext : 1024 * (v / 1024 + 1) ≤ u := by
        by_contra hin
        have hsame : u / 1024 = v / 1024 := by omega
        unfold walk at hp
        rw [hsame, if_neg hpde] at hp
        contradiction
      exact ih hnodup (by omega) hok hnext hp

theorem deallocuvm_all_managed {r : BitVec 32 × Mem} (hnodup : (m.own d).Nodup)
    (hok : m.deallocuvm L d KERNBASE 0 = .ok r) {u : Nat} (hu : u < 2 ^ 19) (hp : pteP (m.walk d u))
    : L.Managed (pteAddr (m.walk d u)) := by
  unfold Mem.deallocuvm at hok
  rw [if_neg (by decide)] at hok
  rcases Fold.bind_eq_ok hok with ⟨m₁, hloop, _⟩
  exact deallocuvm_loop_managed (v := 0) hnodup (by decide) (by omega) hloop (by omega)
    (by rw [KERNBASE_toNat]; omega) hp

theorem deallocuvm_frees (hnodup : (m.own d).Nodup) (oldsz newsz : BitVec 32)
    (hold : oldsz.toNat ≤ 2 ^ 31)
    (hman : ∀ u, newsz.toNat ≤ 4096 * u → 4096 * u < oldsz.toNat → pteP (m.walk d u) →
      L.Managed (pteAddr (m.walk d u)))
    : ∃ m', m.deallocuvm L d oldsz newsz = .ok (if newsz ≥ oldsz then oldsz else newsz, m') ∧
        Frees d (fun u => newsz.toNat ≤ 4096 * u ∧ 4096 * u < oldsz.toNat) m m' := by
  unfold Mem.deallocuvm
  split
  next hge =>
    rw [ge_iff_le, BitVec.le_def] at hge
    refine ⟨m, rfl, Frees.refl d m ?_⟩
    omega
  next hlt =>
    rw [ge_iff_le, BitVec.le_def] at hlt
    have hup : (pgroundup newsz).toNat = 4096 * ((newsz.toNat + 4095) / 4096) :=
      pgroundup_toNat (by omega)
    have hva : pgroundup newsz = pageAddr ((newsz.toNat + 4095) / 4096) := by
      apply BitVec.eq_of_toNat_eq
      rw [hup, pageAddr_toNat (by omega)]
    rw [hva, NPAGES_eq]
    rcases deallocuvm_loop (v := (newsz.toNat + 4095) / 4096) (k := 1048575) hnodup hold
      (by omega) (by omega) (fun u hu => hman u (by omega)) with ⟨m', hok, hfrees⟩
    rw [hok]
    refine ⟨m', rfl, (Frees.refl (P := fun _ => False) d m (by simp)).trans hfrees ?_⟩
    intro u _ _
    rw [false_or]
    omega

theorem Owned.deallocuvm (h : Owned L m d) (oldsz newsz : BitVec 32) (hold : oldsz.toNat ≤ 2 ^ 31)
    : ∃ m', m.deallocuvm L d oldsz newsz = .ok (if newsz ≥ oldsz then oldsz else newsz, m') ∧
        Frees d (fun u => newsz.toNat ≤ 4096 * u ∧ 4096 * u < oldsz.toNat) m m' := by
  apply deallocuvm_frees (Multiset.nodup_add.mp h.nodup).1 oldsz newsz hold
  intro u _ hlt hp
  exact h.managed_user (by omega) hp

theorem pdIndices_eq : pdIndices = Finset.range 1024 := by
  unfold pdIndices
  rfl

theorem Valid.freePgtabs (h : Valid L m d)
    : ∃ m', m.freePgtabs L d = .ok m' ∧ {d} + m'.free = m.tables d + m.free ∧
        ∀ x, x ∉ m.tables d → m'.phys x = m.phys x := by
  have hloop : ∃ m', m.freePgtabs L d = .ok m' ∧
      m'.free = ∑ i ∈ Finset.range 1024, frameOf (m.entry d i) + m.free ∧
      m'.phys d = m.phys d ∧ ∀ x, x ∉ m.tables d → m'.phys x = m.phys x := by
    unfold Mem.freePgtabs
    apply Fold.foldlM_range (P := fun (k : Nat) (m' : Mem) =>
      m'.free = ∑ i ∈ Finset.range k, frameOf (m.entry d i) + m.free ∧
      m'.phys d = m.phys d ∧ ∀ x, x ∉ m.tables d → m'.phys x = m.phys x)
    . simp
    . intro i m' hi hm'
      rcases hm' with ⟨hfree, hself, hframe⟩
      unfold freePgtabs.go
      rw [entry_congr hself, Finset.sum_range_succ]
      split
      next hp =>
        rcases kfree_ok m' (h.managed_table hi hp) with ⟨m₁, hok, hfree₁, hphys₁⟩
        refine ⟨m₁, hok, ?_, ?_, ?_⟩
        . rw [hfree₁, hfree, frameOf_of_present hp, ← Multiset.singleton_add]
          ac_rfl
        . rw [hphys₁ d (Ne.symm (table_ne_self h.nodup_tables hi hp)), hself]
        . intro x hx
          rw [hphys₁, hframe x hx]
          intro heq
          apply hx
          rw [heq]
          exact mem_tables hi hp
      next hp =>
        refine ⟨m', rfl, ?_, hself, hframe⟩
        rw [hfree, frameOf_of_absent (by simpa using hp), add_zero]
  rcases hloop with ⟨m₁, hok, hfree, _, hframe⟩
  refine ⟨m₁, hok, ?_, hframe⟩
  unfold tables
  rw [hfree, pdIndices_eq, add_assoc]

theorem freevm_false (L : Layout) (m : Mem) (d : BitVec 32)
    : m.freevm L d false = (m.freePgtabs L d >>= fun m => m.kfree L d) := by
  unfold freevm
  simp only [Bool.false_eq_true, ↓reduceIte, pure_bind]

theorem freevm_true (L : Layout) (m : Mem) (d : BitVec 32)
    : m.freevm L d true =
        (m.deallocuvm L d KERNBASE 0 >>= fun r => r.2.freevm L d false) := by
  simp only [freevm_false]
  unfold freevm
  simp only [↓reduceIte, map_eq_pure_bind, bind_assoc, pure_bind]

theorem Valid.freevm (h : Valid L m d)
    : ∃ m', m.freevm L d false = .ok m' ∧ m'.free = m.tables d + m.free ∧
        ∀ x, x ∉ m.tables d → m'.phys x = m.phys x := by
  rcases h.freePgtabs with ⟨m₁, hok, hfree, hframe⟩
  have hmanaged := h.managed d (Multiset.mem_add.mpr (.inl (self_mem_tables m d)))
  rcases kfree_ok m₁ hmanaged with ⟨m₂, hok₂, hfree₂, hphys₂⟩
  refine ⟨m₂, ?_, ?_, ?_⟩
  . rw [freevm_false, hok, Fold.ok_bind, hok₂]
  . rw [hfree₂, ← hfree, Multiset.singleton_add]
  . intro x hx
    rw [hphys₂, hframe x hx]
    intro heq
    apply hx
    rw [heq]
    exact self_mem_tables m d

theorem user_eq_zero (h : ∀ v, v < 2 ^ 19 → ¬ pteP (m.walk d v)) : m.user d = 0 := by
  unfold user
  apply Finset.sum_eq_zero
  intro v hv
  rw [frameOf_of_absent (by simpa using h v (mem_userPages.mp hv))]

theorem Owned.deallocuvm_all (h : Owned L m d)
    : ∃ m', m.deallocuvm L d KERNBASE 0 = .ok (0, m') ∧ Frees d (· < 2 ^ 19) m m' ∧
        m'.user d = 0 := by
  rcases h.deallocuvm KERNBASE 0 (by decide) with ⟨m', hok, hfrees⟩
  have hall : Frees d (· < 2 ^ 19) m m' := by
    apply (Frees.refl (P := fun _ => False) d m (by simp)).trans hfrees
    intro u _ _
    rw [KERNBASE_toNat, false_or]
    constructor
    . intro hu
      refine ⟨?_, ?_⟩
      . exact Nat.zero_le _
      . omega
    . intro hu
      omega
  refine ⟨m', ?_, hall, ?_⟩
  . rw [hok, if_neg (by decide)]
  . apply user_eq_zero
    intro v hv
    rw [hall.walk v (by omega)]
    have hzero := pteP_zero
    grind

theorem Owned.freevm (h : Owned L m d)
    : ∃ m', m.freevm L d true = .ok m' ∧ m'.free = m.own d + m.free ∧
        ∀ x, x ∉ m.own d + m.free → m'.phys x = m.phys x := by
  rcases h.deallocuvm_all with ⟨m₁, hok, hfrees, huser⟩
  rcases (hfrees.owned h).valid.freevm with ⟨m₂, hok₂, hfree₂, hframe₂⟩
  have hfree : m₂.free = m.own d + m.free := by
    rw [← hfrees.conserve, hfree₂, own, huser, add_zero]
  refine ⟨m₂, ?_, hfree, ?_⟩
  . rw [freevm_true, hok, Fold.ok_bind, hok₂]
  . intro x hx
    have htables : x ∉ m.tables d := by
      intro hin
      apply hx
      rw [own_add_free, add_assoc, Multiset.mem_add]
      exact .inl hin
    rw [hframe₂ x (by rw [hfrees.tables]; exact htables)]
    apply hfrees.frame x htables
    intro hin
    apply hx
    rw [← hfrees.conserve, Multiset.mem_add]
    exact .inr hin

end Mem

end Xv6
