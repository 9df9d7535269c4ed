import Xv6.Vm.Lemmas.Kvm

/-!
`allocuvm` and `copyuvm`: user pages are added with given contents and flags, and after a failed
call the pages that were added are gone.
-/

namespace Xv6

namespace Mem

variable {L : Layout} {d : BitVec 32} {m m' m'' : Mem}

/--
The pages with a number in `P` are new: each is in a frame from the free list, with the given
contents and flags.
-/
structure Allocs (d : BitVec 32) (P : Nat → Prop) (content : Nat → Page) (perm : Nat → BitVec 32)
    (m m' : Mem) : Prop where
  conserve : m'.own d + m'.free = m.own d + m.free
  mono : m'.free ≤ m.free
  le : m'.tables d + m'.free ≤ m.tables d + m.free
  frame : ∀ x, x ∉ m.tables d + m.free → m'.phys x = m.phys x
  entry : ∀ i, 512 ≤ i → m'.entry d i = m.entry d i
  walk : ∀ u, u < 2 ^ 20 → ¬ P u → m'.walk d u = m.walk d u
  fresh : ∀ u, P u → u < 2 ^ 19 ∧ ∃ pa, pa ∈ m.free ∧ m'.walk d u = pa ||| perm u ||| PTE_P ∧
    pteAddr (m'.walk d u) = pa ∧ m'.phys pa = content u

section

variable {P Q : Nat → Prop} {content : Nat → Page} {perm : Nat → BitVec 32}

theorem Allocs.refl (d : BitVec 32) (m : Mem) (h : ∀ u, ¬ P u) : Allocs d P content perm m m := by
  refine ⟨rfl, le_refl _, le_refl _, fun _ _ => rfl, fun _ _ => rfl, fun _ _ _ => rfl, ?_⟩
  intro u hu
  exact absurd hu (h u)

theorem Allocs.present (h : Allocs d P content perm m m') {u : Nat} (hu : P u)
    : pteP (m'.walk d u) := by
  rcases (h.fresh u hu).2 with ⟨pa, _, hwalk, _⟩
  rw [hwalk, pteP_or]

theorem Allocs.owned (h : Allocs d P content perm m m') (hm : Owned L m d) : Owned L m' d :=
  hm.of_eq h.conserve

theorem Allocs.trans {R : Nat → Prop} (hm : Owned L m d) (h₁ : Allocs d P content perm m m')
    (h₂ : Allocs d Q content perm m' m'') (h : ∀ u, R u ↔ P u ∨ Q u)
    : Allocs d R content perm m m'' := by
  refine ⟨?_, le_trans h₂.mono h₁.mono, le_trans h₂.le h₁.le, ?_, ?_, ?_, ?_⟩
  . rw [h₂.conserve, h₁.conserve]
  . intro x hx
    rw [h₂.frame, h₁.frame x hx]
    intro hin
    exact hx (Multiset.mem_of_le h₁.le hin)
  . intro i hi
    rw [h₂.entry i hi, h₁.entry i hi]
  . intro u hu hR
    rw [h, not_or] at hR
    rw [h₂.walk u hu hR.2, h₁.walk u hu hR.1]
  . intro u hR
    by_cases hQ : Q u
    . rcases h₂.fresh u hQ with ⟨hu, pa, hpa, hpost⟩
      exact ⟨hu, pa, Multiset.mem_of_le h₁.mono hpa, hpost⟩
    . have hP : P u := by
        rw [h] at hR
        exact hR.resolve_right hQ
      rcases h₁.fresh u hP with ⟨hu, pa, hpa, hwalk, haddr, hcontent⟩
      refine ⟨hu, pa, hpa, ?_, ?_, ?_⟩
      . rw [h₂.walk u (by omega) hQ, hwalk]
      . rw [h₂.walk u (by omega) hQ, haddr]
      . -- the page is a user page now, so the second part leaves it alone
        have hmem := mem_user hu (h₁.present hP)
        rw [haddr] at hmem
        have hout := (h₁.owned hm).user_disjoint hmem
        rw [h₂.frame pa, hcontent]
        rw [Multiset.mem_add]
        exact not_or.mpr hout

end

-- The page `pa` is out of the free list, and page number `v` could not be mapped to it.
structure Lacks (d pa : BitVec 32) (v : Nat) (m m' : Mem) : Prop where
  conserve : pa ::ₘ (m'.tables d + m'.free) = m.tables d + m.free
  mono : pa ::ₘ m'.free ≤ m.free
  frame : ∀ x, x ∉ m.tables d + m.free → m'.phys x = m.phys x
  entry : ∀ i, i ≠ v / 1024 → m'.entry d i = m.entry d i
  walk : ∀ u, u < 2 ^ 20 → m'.walk d u = m.walk d u

theorem Lacks.own {pa : BitVec 32} {v : Nat} (h : Lacks d pa v m m')
    : pa ::ₘ (m'.own d + m'.free) = m.own d + m.free := by
  have huser : m'.user d = m.user d := by
    apply user_congr
    intro u hu
    exact h.walk u (by omega)
  rw [own_add_free, own_add_free, huser, ← h.conserve, Multiset.cons_add]

theorem Lacks.owned {pa : BitVec 32} {v : Nat} (h : Lacks d pa v m m') (hm : Owned L m d)
    : Owned L m' d := by
  have hle : m'.own d + m'.free ≤ m.own d + m.free := by
    rw [← h.own]
    exact Multiset.le_cons_self _ _
  exact hm.of_le hle

theorem Lacks.notMem {pa : BitVec 32} {v : Nat} (h : Lacks d pa v m m') (hm : Owned L m d)
    : pa ∉ m'.own d + m'.free := by
  have hnodup := hm.nodup
  rw [← h.own, Multiset.nodup_cons] at hnodup
  exact hnodup.1

theorem Lacks.managed {pa : BitVec 32} {v : Nat} (h : Lacks d pa v m m') (hm : Owned L m d)
    : L.Managed pa := by
  apply hm.managed
  rw [← h.own]
  exact Multiset.mem_cons_self _ _

theorem Lacks.kfree {pa : BitVec 32} {v : Nat} (h : Lacks d pa v m m') (hm : Owned L m d)
    : ∃ m'', m'.kfree L pa = .ok m'' ∧ Extends d (· = v / 1024) m m'' := by
  rcases kfree_ok m' (h.managed hm) with ⟨m'', hok, hfree, hphys⟩
  have hnotin := h.notMem hm
  rw [own_add_free, Multiset.mem_add, Multiset.mem_add, not_or, not_or] at hnotin
  have hsame : ∀ x ∈ m'.tables d, m''.phys x = m'.phys x := by
    intro x hx
    apply hphys
    intro heq
    apply hnotin.1.1
    rw [← heq]
    exact hx
  refine ⟨m'', hok, ⟨?_, ?_, ?_⟩, ?_, ?_⟩
  . rw [tables_congr hsame, hfree, ← h.conserve, Multiset.add_cons]
  . rw [hfree]
    exact h.mono
  . intro x hx
    rw [hphys, h.frame x hx]
    intro heq
    apply hx
    rw [← h.conserve, heq]
    exact Multiset.mem_cons_self _ _
  . intro i hi
    rw [entry_congr (hsame d (self_mem_tables m' d)), h.entry i hi]
  . intro u hu
    rw [walk_congr hsame hu, h.walk u hu]

theorem Owned.phys_tables {pa : BitVec 32} (h : Owned L m d) (hmem : pa ∈ m.free)
    (hother : ∀ x, x ≠ pa → m'.phys x = m.phys x)
    : ∀ x ∈ m.tables d, m'.phys x = m.phys x := by
  intro x hx
  apply hother
  intro heq
  rw [heq] at hx
  exact Multiset.disjoint_left.mp (Multiset.nodup_add.mp h.valid.nodup).2.2 hx hmem

theorem Owned.addPage {pa : BitVec 32} {content : Nat → Page} {perm : Nat → BitVec 32} {v : Nat}
    {m₁ : Mem} (h : Owned L m d) (hv : v < 2 ^ 19) (habsent : ¬ pteP (m.walk d v))
    (hperm : pteAddr (perm v) = 0) (hfree : m.free = pa ::ₘ m₁.free) (hpa : m₁.phys pa = content v)
    (hother : ∀ x, x ≠ pa → m₁.phys x = m.phys x)
    : ∃ r m', m₁.mappages d (pageAddr v) 4096 pa (perm v) = .ok (r, m') ∧
        (r = true → Allocs d (· = v) content perm m m') ∧
        (r = false → Lacks d pa v m m') := by
  have hmem : pa ∈ m.free := by
    rw [hfree]
    exact Multiset.mem_cons_self _ _
  have hmanaged := h.valid.managed pa (Multiset.mem_add.mpr (.inr hmem))
  have hnodup := h.valid.nodup
  have hsame := h.phys_tables hmem hother
  have htables := tables_congr hsame
  have hwalk₁ : ∀ u, u < 2 ^ 20 → m₁.walk d u = m.walk d u := fun u hu => walk_congr hsame hu
  have hconserve₁ : pa ::ₘ (m₁.tables d + m₁.free) = m.tables d + m.free := by
    rw [htables, hfree, Multiset.add_cons]
  have hle₁ : m₁.tables d + m₁.free ≤ m.tables d + m.free := by
    rw [← hconserve₁]
    exact Multiset.le_cons_self _ _
  have hvalid : Valid L m₁ d :=
    ⟨Multiset.nodup_of_le hle₁ hnodup, fun x hx => h.valid.managed x (Multiset.mem_of_le hle₁ hx)⟩
  have hpaout : pa ∉ m₁.tables d + m₁.free := by
    rw [← hconserve₁, Multiset.nodup_cons] at hnodup
    exact hnodup.1
  have hmap : ∃ r m', m₁.mappages d (pageAddr v) 4096 pa (perm v) = .ok (r, m') ∧ Grows d m₁ m' ∧
      (∀ i, i ≠ v / 1024 → m'.entry d i = m₁.entry d i) ∧
      ∀ u, u < 2 ^ 20 → m'.walk d u =
        if u = v ∧ r = true then pa ||| perm v ||| PTE_P else m₁.walk d u := by
    apply hvalid.mappages_page
    . omega
    . rw [hwalk₁ v (by omega)]
      exact habsent
  rcases hmap with ⟨r, m', hok, hgrows, hentry, hwalk⟩
  have hframe : ∀ x, x ∉ m.tables d + m.free → m'.phys x = m.phys x := by
    intro x hx
    rw [hgrows.frame, hother]
    . intro heq
      apply hx
      rw [heq, Multiset.mem_add]
      exact .inr hmem
    . intro hin
      exact hx (Multiset.mem_of_le hle₁ hin)
  have hmono : pa ::ₘ m'.free ≤ m.free := by
    rw [hfree]
    exact (Multiset.cons_le_cons_iff pa).mpr hgrows.mono
  refine ⟨r, m', hok, ?_, ?_⟩
  . intro hr
    have haddr : pteAddr (pa ||| perm v ||| PTE_P) = pa := by
      rw [BitVec.or_assoc]
      apply pteAddr_or hmanaged.1
      unfold pteAddr at *
      rw [BitVec.and_comm, BitVec.and_or_distrib_left, BitVec.and_comm, hperm]
      decide
    have huser : m'.user d = m.user d + {pa} := by
      have hkeep : ∀ u, u < 2 ^ 19 → u ≠ v → m'.walk d u = m.walk d u := by
        intro u hu hne
        rw [hwalk u (by omega), if_neg (by simp [hne]), hwalk₁ u (by omega)]
      have hupd := user_update hv hkeep
      rw [hwalk v (by omega), if_pos ⟨rfl, hr⟩, frameOf_of_absent (by simpa using habsent),
        frameOf_of_present (pteP_or _), haddr, add_zero] at hupd
      exact hupd
    refine ⟨?_, ?_, ?_, hframe, ?_, ?_, ?_⟩
    . rw [own_add_free, own_add_free, huser, hgrows.conserve, ← hconserve₁,
        ← Multiset.singleton_add]
      ac_rfl
    . exact le_trans (Multiset.le_cons_self _ _) hmono
    . rw [hgrows.conserve]
      exact hle₁
    . intro i hi
      rw [hentry i (by omega), entry_congr (hsame d (self_mem_tables m d))]
    . intro u hu hne
      rw [hwalk u hu, if_neg (by simp [hne]), hwalk₁ u hu]
    . intro u hu
      rw [hu]
      refine ⟨hv, pa, hmem, ?_, ?_, ?_⟩
      . rw [hwalk v (by omega), if_pos ⟨rfl, hr⟩]
      . rw [hwalk v (by omega), if_pos ⟨rfl, hr⟩, haddr]
      . rw [hgrows.frame pa hpaout, hpa]
  . intro hr
    refine ⟨?_, hmono, hframe, ?_, ?_⟩
    . rw [hgrows.conserve, hconserve₁]
    . intro i hi
      rw [hentry i hi, entry_congr (hsame d (self_mem_tables m d))]
    . intro u hu
      rw [hwalk u hu, if_neg (by simp [hr]), hwalk₁ u hu]

theorem user_le (h : ∀ u, u < 2 ^ 19 → pteP (m'.walk d u) → m'.walk d u = m.walk d u)
    : m'.user d ≤ m.user d := by
  unfold user
  apply Finset.sum_le_sum
  intro u hu
  by_cases hp : pteP (m'.walk d u)
  . rw [h u (mem_userPages.mp hu) hp]
  . rw [frameOf_of_absent (by simpa using hp)]
    exact Multiset.zero_le _

/--
The pages with a number in `P` are gone. Whatever was written is in the tables or in the free list
at the end.
-/
structure Undoes (d : BitVec 32) (P : Nat → Prop) (m m' : Mem) : Prop where
  conserve : m'.own d + m'.free = m.own d + m.free
  frame : ∀ x, x ∉ m'.tables d + m'.free → m'.phys x = m.phys x
  entry : ∀ i, 512 ≤ i → m'.entry d i = m.entry d i
  walk : ∀ u, u < 2 ^ 20 → ¬ P u → m'.walk d u = m.walk d u
  absent : ∀ u, u < 2 ^ 20 → P u → ¬ pteP (m'.walk d u)

section

variable {P : Nat → Prop}

theorem Undoes.congr {Q : Nat → Prop} (h : Undoes d P m m') (hPQ : ∀ u, P u ↔ Q u)
    : Undoes d Q m m' := by
  refine ⟨h.conserve, h.frame, h.entry, ?_, ?_⟩
  . intro u hu hQ
    exact h.walk u hu (by rw [hPQ]; exact hQ)
  . intro u hu hQ
    exact h.absent u hu ((hPQ u).mpr hQ)

theorem Undoes.user_le (h : Undoes d P m m') : m'.user d ≤ m.user d := by
  apply Mem.user_le
  intro u hu hp
  apply h.walk u (by omega)
  intro hP
  exact h.absent u (by omega) hP hp

theorem Undoes.le (h : Undoes d P m m') : m.tables d + m.free ≤ m'.tables d + m'.free := by
  have hconserve := h.conserve
  rw [own_add_free, own_add_free] at hconserve
  apply le_of_add_le_add_right (a := m'.user d)
  rw [hconserve]
  exact add_le_add le_rfl h.user_le

theorem Undoes.of_allocs {Q : Nat → Prop} {content : Nat → Page} {perm : Nat → BitVec 32}
    (h₁ : Allocs d Q content perm m m') (h₂ : Undoes d P m' m'') (h : ∀ u, Q u → P u)
    : Undoes d P m m'' := by
  have hle : m.tables d + m.free ≤ m''.tables d + m''.free := by
    have hconserve : m''.own d + m''.free = m.own d + m.free := by
      rw [h₂.conserve, h₁.conserve]
    rw [own_add_free, own_add_free] at hconserve
    apply le_of_add_le_add_right (a := m''.user d)
    rw [hconserve]
    apply add_le_add le_rfl
    apply Mem.user_le
    intro u hu hp
    have hP : ¬ P u := fun hP => h₂.absent u (by omega) hP hp
    rw [h₂.walk u (by omega) hP, h₁.walk u (by omega) (fun hQ => hP (h u hQ))]
  refine ⟨?_, ?_, ?_, ?_, h₂.absent⟩
  . rw [h₂.conserve, h₁.conserve]
  . intro x hx
    rw [h₂.frame x hx, h₁.frame]
    intro hin
    exact hx (Multiset.mem_of_le hle hin)
  . intro i hi
    rw [h₂.entry i hi, h₁.entry i hi]
  . intro u hu hP
    rw [h₂.walk u hu hP, h₁.walk u hu (fun hQ => hP (h u hQ))]

theorem Undoes.of_frees [DecidablePred P] (h : Frees d P m m') : Undoes d P m m' := by
  refine ⟨h.conserve, ?_, fun i _ => h.entry i, ?_, ?_⟩
  . intro x hx
    rw [Multiset.mem_add, not_or, h.tables] at hx
    exact h.frame x hx.1 hx.2
  . intro u hu hP
    rw [h.walk u hu, if_neg (by simp [hP])]
  . intro u hu hP
    rw [h.walk u hu]
    have hzero := pteP_zero
    grind

theorem Undoes.of_phys (h : Undoes d P m' m'') (hphys : m'.phys = m.phys) (hfree : m'.free = m.free)
    : Undoes d P m m'' := by
  have hentry : ∀ t i, m'.entry t i = m.entry t i := fun t => entry_congr (by rw [hphys])
  have hwalk : ∀ u, m'.walk d u = m.walk d u := by
    intro u
    unfold Mem.walk
    simp only [hentry]
  have hown : m'.own d = m.own d := by
    unfold own tables user
    simp only [hentry, hwalk]
  refine ⟨?_, ?_, ?_, ?_, h.absent⟩
  . rw [h.conserve, hown, hfree]
  . intro x hx
    rw [h.frame x hx, hphys]
  . intro i hi
    rw [h.entry i hi, hentry]
  . intro u hu hP
    rw [h.walk u hu hP, hwalk]

theorem Lacks.undoes [DecidablePred P] {pa : BitVec 32} {v : Nat} {m₁ m₂ : Mem} (hm : Owned L m d)
    (hv : v < 2 ^ 19) (h₁ : Lacks d pa v m m₁) (h₂ : Frees d P m₁ m₂)
    : ∃ m', m₂.kfree L pa = .ok m' ∧ Undoes d P m m' := by
  rcases kfree_ok m₂ (h₁.managed hm) with ⟨m', hok, hfree, hphys⟩
  have hnotin := h₁.notMem hm
  rw [← h₂.conserve, own_add_free, Multiset.mem_add, Multiset.mem_add, not_or, not_or] at hnotin
  have hsame : ∀ x ∈ m₂.tables d, m'.phys x = m₂.phys x := by
    intro x hx
    apply hphys
    intro heq
    apply hnotin.1.1
    rw [← heq]
    exact hx
  have htables := tables_congr hsame
  have hentry := entry_congr (hsame d (self_mem_tables m₂ d))
  have hwalk : ∀ u, u < 2 ^ 20 → m'.walk d u = m₂.walk d u := fun u hu => walk_congr hsame hu
  have huser : m'.user d = m₂.user d := user_congr (fun u hu => hwalk u (by omega))
  have hundo := Undoes.of_frees h₂
  refine ⟨m', hok, ?_, ?_, ?_, ?_, ?_⟩
  . rw [← h₁.own, ← h₂.conserve, own_add_free, own_add_free, htables, huser, hfree,
      Multiset.add_cons, Multiset.cons_add]
  . intro x hx
    rw [htables, hfree, Multiset.add_cons, Multiset.mem_cons, not_or] at hx
    rw [hphys x hx.1, hundo.frame x hx.2, h₁.frame]
    rw [← h₁.conserve, Multiset.mem_cons, not_or]
    refine ⟨hx.1, ?_⟩
    intro hin
    exact hx.2 (Multiset.mem_of_le hundo.le hin)
  . intro i hi
    rw [hentry, hundo.entry i hi, h₁.entry i (by omega)]
  . intro u hu hP
    rw [hwalk u hu, hundo.walk u hu hP, h₁.walk u hu]
  . intro u hu hP
    rw [hwalk u hu]
    exact hundo.absent u hu hP

end

abbrev AllocsZero (d : BitVec 32) (P : Nat → Prop) (m m' : Mem) : Prop :=
  Allocs d P (fun _ _ => 0) (fun _ => PTE_W ||| PTE_U) m m'

theorem Owned.walk_zeroed {pa : BitVec 32} {m₁ : Mem} {v : Nat} (h : Owned L m d)
    (hkalloc : m.kalloc = (some pa, m₁)) (hv : v < 2 ^ 20)
    : (m₁.memset pa 0).walk d v = m.walk d v := by
  have hmem : pa ∈ m.free := by
    rw [(Mem.kalloc_some hkalloc).2]
    exact Multiset.mem_cons_self _ _
  exact walk_congr (h.phys_tables hmem fun x hx => memset_kalloc_phys 0 hkalloc hx) hv

theorem Owned.addZeroPage {pa : BitVec 32} {m₁ : Mem} {v : Nat} (h : Owned L m d) (hv : v < 2 ^ 19)
    (habsent : ¬ pteP (m.walk d v)) (hkalloc : m.kalloc = (some pa, m₁))
    : ∃ r m', (m₁.memset pa 0).mappages d (pageAddr v) 4096 pa (PTE_W ||| PTE_U) = .ok (r, m') ∧
        (r = true → AllocsZero d (· = v) m m') ∧ (r = false → Lacks d pa v m m') := by
  apply h.addPage hv habsent
  . decide
  . exact (Mem.kalloc_some hkalloc).2
  . simp [memset]
  . intro x hx
    exact memset_kalloc_phys 0 hkalloc hx

theorem allocuvm_loop (oldsz : BitVec 32) {newsz : BitVec 32} {k v : Nat} (h : Owned L m d)
    (hnew : newsz.toNat < 2 ^ 31) (hv : v ≤ 2 ^ 19) (hold : oldsz.toNat ≤ 4096 * v)
    (hk : newsz.toNat ≤ 4096 * v + 4096 * k)
    (habsent : ∀ u, v ≤ u → 4096 * u < newsz.toNat → ¬ pteP (m.walk d u))
    : ∃ r m', allocuvm.loop L d oldsz newsz (k + 1) m (pageAddr v) = .ok (r, m') ∧
        ((r = newsz ∧ AllocsZero d (fun u => v ≤ u ∧ 4096 * u < newsz.toNat) m m') ∨
          (r = 0 ∧ Undoes d (fun u => oldsz.toNat ≤ 4096 * u ∧ 4096 * u < newsz.toNat) m m')) := by
  induction k generalizing m v with
  | zero =>
    have hva : (pageAddr v).toNat = 4096 * v := pageAddr_toNat (by omega)
    unfold allocuvm.loop
    rw [if_neg (by rw [BitVec.lt_def]; omega)]
    exact ⟨newsz, m, rfl, .inl ⟨rfl, Allocs.refl d m (by omega)⟩⟩
  | succ k ih =>
    have hva : (pageAddr v).toNat = 4096 * v := pageAddr_toNat (by omega)
    unfold allocuvm.loop
    split
    next hlt =>
      rw [BitVec.lt_def, hva] at hlt
      generalize hres : m.kalloc = res
      rcases res with ⟨r, m₁⟩
      cases r with
      | none =>
        rcases kalloc_none hres with ⟨hphys, hfree⟩
        rcases (h.kalloc_none hres).deallocuvm newsz oldsz (Nat.le_of_lt hnew) with ⟨m₂, hok, hfrees⟩
        simp only
        rw [hok, Fold.ok_bind]
        exact ⟨0, m₂, rfl, .inr ⟨rfl, (Undoes.of_frees hfrees).of_phys hphys hfree⟩⟩
      | some pa =>
        rcases h.addZeroPage (by omega) (habsent v (by omega) hlt) hres with
          ⟨r, m₂, hok, htrue, hfalse⟩
        simp only
        rw [hok, Fold.ok_bind]
        cases r with
        | false =>
          have hlacks := hfalse rfl
          rcases (hlacks.owned h).deallocuvm newsz oldsz (Nat.le_of_lt hnew)
            with ⟨m₃, hok₃, hfrees⟩
          rcases hlacks.undoes h (by omega) hfrees with ⟨m₄, hok₄, hundoes⟩
          simp only [Bool.false_eq_true, ↓reduceIte]
          rw [hok₃, Fold.ok_bind, hok₄, Fold.ok_bind]
          exact ⟨0, m₄, rfl, .inr ⟨rfl, hundoes⟩⟩
        | true =>
          have hallocs := htrue rfl
          simp only [↓reduceIte]
          rw [pageAddr_succ]
          rcases ih (v := v + 1) (hallocs.owned h) (by omega) (by omega) (by omega) (by
            intro u hu hlt
            rw [hallocs.walk u (by omega) (by omega)]
            exact habsent u (by omega) hlt) with ⟨r, m', hok', hres'⟩
          refine ⟨r, m', hok', ?_⟩
          cases hres' with
          | inl hsome => exact .inl ⟨hsome.1, hallocs.trans h hsome.2 (by omega)⟩
          | inr hzero => exact .inr ⟨hzero.1, Undoes.of_allocs hallocs hzero.2 (by omega)⟩
    next hge =>
      rw [BitVec.lt_def, hva] at hge
      exact ⟨newsz, m, rfl, .inl ⟨rfl, Allocs.refl d m (by omega)⟩⟩

theorem Owned.allocuvm {oldsz newsz : BitVec 32} (h : Owned L m d)
    (habsent : ∀ u, u < 2 ^ 19 → oldsz.toNat ≤ 4096 * u → 4096 * u < newsz.toNat →
      ¬ pteP (m.walk d u))
    : ∃ r m', m.allocuvm L d oldsz newsz = .ok (r, m') ∧
        ((newsz.toNat < 2 ^ 31 ∧ r = (if newsz < oldsz then oldsz else newsz) ∧
            AllocsZero d (fun u => oldsz.toNat ≤ 4096 * u ∧ 4096 * u < newsz.toNat) m m') ∨
          (r = 0 ∧ Undoes d
            (fun u => u < 2 ^ 19 ∧ oldsz.toNat ≤ 4096 * u ∧ 4096 * u < newsz.toNat) m m')) := by
  unfold Mem.allocuvm
  split
  next hge =>
    rw [ge_iff_le, BitVec.le_def, KERNBASE_toNat] at hge
    refine ⟨0, m, rfl, .inr ⟨rfl, rfl, fun _ _ => rfl, fun _ _ => rfl, fun _ _ _ => rfl, ?_⟩⟩
    intro u _ hu
    exact habsent u hu.1 hu.2.1 hu.2.2
  next hlt =>
    rw [ge_iff_le, BitVec.le_def, KERNBASE_toNat] at hlt
    have hnew : newsz.toNat < 2 ^ 31 := by omega
    split
    next hless =>
      rw [BitVec.lt_def] at hless
      exact ⟨oldsz, m, rfl, .inl ⟨hnew, rfl, Allocs.refl d m (by omega)⟩⟩
    next hle =>
      rw [BitVec.lt_def] at hle
      have hva : pgroundup oldsz = pageAddr ((oldsz.toNat + 4095) / 4096) := by
        apply BitVec.eq_of_toNat_eq
        rw [pgroundup_toNat (by omega), pageAddr_toNat (by omega)]
      rw [hva, NPAGES_eq]
      rcases allocuvm_loop oldsz (v := (oldsz.toNat + 4095) / 4096) (k := 1048575) h hnew
        (by omega) (by omega) (by omega) (fun u hu hlt => habsent u (by omega) (by omega) hlt)
        with ⟨r, m', hok, hres⟩
      refine ⟨r, m', hok, ?_⟩
      cases hres with
      | inl hsome =>
        refine .inl ⟨hnew, hsome.1, ?_⟩
        apply (Allocs.refl (P := fun _ => False) d m (by simp)).trans h hsome.2
        intro u
        rw [false_or]
        omega
      | inr hzero => exact .inr ⟨hzero.1, hzero.2.congr (by omega)⟩

theorem Extends.own {I : Nat → Prop} (h : Extends d I m m')
    : m'.own d + m'.free = m.own d + m.free := by
  rw [own_add_free, own_add_free, h.grows.conserve]
  rw [user_congr (fun u hu => h.walk u (by omega))]

theorem pteAddr_pteFlags (w : BitVec 32) : pteAddr (pteFlags w) = 0 := by
  unfold pteAddr pteFlags
  rw [BitVec.and_assoc]
  simp

/--
An address space `d₀` that is copied, with the entries `src` and the contents `content` of its pages
below `sz`. None of its pages belongs to the copy or is free.
-/
structure Source (d₀ d : BitVec 32) (sz : Nat) (src : Nat → BitVec 32) (content : Nat → Page)
    (m : Mem) : Prop where
  walk : ∀ u, 4096 * u < sz → m.walk d₀ u = src u
  content : ∀ u, 4096 * u < sz → pteP (src u) → m.phys (pteAddr (src u)) = content u
  tables : ∀ x ∈ m.tables d₀, x ∉ m.own d + m.free
  pages : ∀ u, 4096 * u < sz → pteP (src u) → pteAddr (src u) ∉ m.own d + m.free

section

variable {d₀ : BitVec 32} {sz : Nat} {src : Nat → BitVec 32} {content : Nat → Page}

theorem Source.step (h : Source d₀ d sz src content m) (hsz : sz ≤ 2 ^ 31)
    (hconserve : m'.own d + m'.free = m.own d + m.free)
    (hframe : ∀ x, x ∉ m.own d + m.free → m'.phys x = m.phys x)
    : Source d₀ d sz src content m' := by
  have hsame : ∀ x ∈ m.tables d₀, m'.phys x = m.phys x := fun x hx => hframe x (h.tables x hx)
  refine ⟨?_, ?_, ?_, ?_⟩
  . intro u hu
    rw [walk_congr hsame (by omega), h.walk u hu]
  . intro u hu hp
    rw [hframe _ (h.pages u hu hp), h.content u hu hp]
  . intro x hx
    rw [tables_congr hsame] at hx
    rw [hconserve]
    exact h.tables x hx
  . intro u hu hp
    rw [hconserve]
    exact h.pages u hu hp

theorem Allocs.frame_own {P : Nat → Prop} {perm : Nat → BitVec 32}
    (h : Allocs d P content perm m m') {x : BitVec 32} (hx : x ∉ m.own d + m.free)
    : m'.phys x = m.phys x := by
  apply h.frame
  intro hin
  apply hx
  rw [own_add_free, Multiset.mem_add]
  exact .inl hin

def Copies (d : BitVec 32) (sz v : Nat) (src : Nat → BitVec 32) (content : Nat → Page) (m m' : Mem)
    (r : Option (BitVec 32)) : Prop :=
  (r = some d ∧ Allocs d (fun u => v ≤ u ∧ 4096 * u < sz ∧ pteP (src u)) content
      (fun u => pteFlags (src u)) m m') ∨
    (r = none ∧ m'.free = m.own d + m.free ∧ ∀ x, x ∉ m.own d + m.free → m'.phys x = m.phys x)

theorem Copies.of_allocs {v : Nat} {r : Option (BitVec 32)} (h : Owned L m d)
    (h₁ : Allocs d (· = v) content (fun u => pteFlags (src u)) m m')
    (h₂ : Copies d sz (v + 1) src content m' m'' r) (hv : 4096 * v < sz) (hp : pteP (src v))
    : Copies d sz v src content m m'' r := by
  cases h₂ with
  | inl hsome =>
    refine .inl ⟨hsome.1, h₁.trans h hsome.2 ?_⟩
    intro u
    constructor
    . intro hu
      by_cases heq : u = v
      . exact .inl heq
      . exact .inr ⟨by omega, hu.2⟩
    . intro hu
      cases hu with
      | inl heq =>
        rw [heq]
        exact ⟨le_refl v, hv, hp⟩
      | inr hu => exact ⟨by omega, hu.2⟩
  | inr hnone =>
    rcases hnone with ⟨hr, hfree, hframe⟩
    refine .inr ⟨hr, ?_, ?_⟩
    . rw [hfree, h₁.conserve]
    . intro x hx
      rw [hframe x (by rw [h₁.conserve]; exact hx), h₁.frame_own hx]

theorem copyuvm_bad (h : Owned L m d)
    : ∃ m', copyuvm.bad L d m = .ok (none, m') ∧ m'.free = m.own d + m.free ∧
        ∀ x, x ∉ m.own d + m.free → m'.phys x = m.phys x := by
  rcases h.freevm with ⟨m', hok, hpost⟩
  refine ⟨m', ?_, hpost⟩
  unfold copyuvm.bad
  rw [hok, Fold.ok_bind]
  rfl

theorem Source.copyPage {pa : BitVec 32} {v : Nat} {m₁ : Mem} (hs : Source d₀ d sz src content m)
    (h : Owned L m d) (hres : m.kalloc = (some pa, m₁)) (hv : v < 2 ^ 19)
    (habsent : ¬ pteP (m.walk d v)) (hlt : 4096 * v < sz) (hp : pteP (src v))
    : ∃ r m', ({ m₁ with phys := Function.update m₁.phys pa (m₁.phys (pteAddr (src v))) } : Mem).mappages
          d (pageAddr v) 4096 pa (pteFlags (src v)) = .ok (r, m') ∧
        (r = true → Allocs d (· = v) content (fun u => pteFlags (src u)) m m') ∧
        (r = false → Lacks d pa v m m') := by
  rcases kalloc_some hres with ⟨hphys, hfree⟩
  apply h.addPage hv habsent (pteAddr_pteFlags _)
  . exact hfree
  . dsimp only
    rw [Function.update_self, hphys, hs.content v hlt hp]
  . intro x hx
    dsimp only
    rw [Function.update_of_ne hx, hphys]

theorem copyuvm_loop {size : BitVec 32} {k v : Nat} (h : Owned L m d)
    (hs : Source d₀ d size.toNat src content m) (hsz : size.toNat ≤ 2 ^ 31) (hv : v ≤ 2 ^ 19)
    (hk : size.toNat ≤ 4096 * v + 4096 * k)
    (habsent : ∀ u, v ≤ u → u < 2 ^ 19 → ¬ pteP (m.walk d u))
    : ∃ r m', copyuvm.loop L d₀ size d (k + 1) m (pageAddr v) = .ok (r, m') ∧
        Copies d size.toNat v src content m m' r := by
  induction k generalizing m v with
  | zero =>
    have hva : (pageAddr v).toNat = 4096 * v := pageAddr_toNat (by omega)
    unfold copyuvm.loop
    rw [if_neg (by rw [BitVec.lt_def]; omega)]
    exact ⟨some d, m, rfl, .inl ⟨rfl, Allocs.refl d m (by omega)⟩⟩
  | succ k ih =>
    have hva : (pageAddr v).toNat = 4096 * v := pageAddr_toNat (by omega)
    unfold copyuvm.loop
    split
    next hlt =>
      rw [BitVec.lt_def, hva] at hlt
      have hvpn : (pageAddr v).toNat / 4096 = v := by omega
      rw [walkpgdir_false, pageAddr_succ]
      -- an absent page is skipped, whether or not its page table exists
      have hskip : ¬ pteP (src v) → ∃ r m', copyuvm.loop L d₀ size d (k + 1) m (pageAddr (v + 1))
          = .ok (r, m') ∧ Copies d size.toNat v src content m m' r := by
        intro hp
        rcases ih (v := v + 1) h hs (by omega) (by omega) (fun u hu => habsent u (by omega))
          with ⟨r, m', hok, hres⟩
        refine ⟨r, m', hok, ?_⟩
        cases hres with
        | inl hsome =>
          refine .inl ⟨hsome.1, ?_⟩
          apply (Allocs.refl (P := fun _ => False) d m (by simp)).trans h hsome.2
          intro u
          rw [false_or]
          constructor
          . intro hu
            have hne : u ≠ v := by
              intro heq
              rw [heq] at hu
              exact hp hu.2.2
            exact ⟨by omega, hu.2⟩
          . intro hu
            exact ⟨by omega, hu.2⟩
        | inr hnone => exact .inr hnone
      by_cases hpde : pteP (m.entry d₀ (pdx (pageAddr v)))
      . rw [if_pos hpde]
        simp only
        have hget := get_eq_walk hpde
        rw [hvpn, hs.walk v hlt] at hget
        rw [hget]
        by_cases hp : pteP (src v)
        . rw [if_neg (by simp [hp])]
          generalize hres : m.kalloc = res
          rcases res with ⟨r, m₁⟩
          cases r with
          | none =>
            rcases kalloc_none hres with ⟨hphys, hfree⟩
            have hown : m₁.own d + m₁.free = m.own d + m.free := by
              rw [own_of_phys hphys, hfree]
            rcases copyuvm_bad (h.of_eq hown) with ⟨m₂, hok, hfree₂, hframe₂⟩
            refine ⟨none, m₂, hok, .inr ⟨rfl, ?_, ?_⟩⟩
            . rw [hfree₂, hown]
            . intro x hx
              rw [hframe₂ x (by rw [hown]; exact hx), hphys]
          | some pa =>
            simp only
            rcases hs.copyPage h hres (by omega) (habsent v (by omega) (by omega)) hlt hp with
              ⟨r, m₃, hok, htrue, hfalse⟩
            rw [hok, Fold.ok_bind]
            cases r with
            | false =>
              rcases (hfalse rfl).kfree h with ⟨m₄, hok₄, hext⟩
              rcases copyuvm_bad (h.of_eq hext.own) with ⟨m₅, hok₅, hfree₅, hframe₅⟩
              simp only [Bool.false_eq_true, ↓reduceIte]
              rw [hok₄, Fold.ok_bind]
              refine ⟨none, m₅, hok₅, .inr ⟨rfl, ?_, ?_⟩⟩
              . rw [hfree₅, hext.own]
              . intro x hx
                rw [hframe₅ x (by rw [hext.own]; exact hx), hext.grows.frame]
                intro hin
                apply hx
                rw [own_add_free, Multiset.mem_add]
                exact .inl hin
            | true =>
              have hallocs := htrue rfl
              simp only [↓reduceIte]
              rcases ih (v := v + 1) (hallocs.owned h)
                (hs.step hsz hallocs.conserve (fun x => hallocs.frame_own)) (by omega) (by omega) (by
                  intro u hu hlt
                  rw [hallocs.walk u (by omega) (by omega)]
                  exact habsent u (by omega) hlt) with ⟨r, m', hok', hres'⟩
              exact ⟨r, m', hok', hres'.of_allocs h hallocs hlt hp⟩
        . rw [if_pos (by simp [hp])]
          exact hskip hp
      . rw [if_neg hpde]
        apply hskip
        have hwalk := walk_of_absent hpde
        rw [hvpn, hs.walk v hlt] at hwalk
        rw [hwalk, pteP_zero]
        simp
    next hge =>
      rw [BitVec.lt_def, hva] at hge
      exact ⟨some d, m, rfl, .inl ⟨rfl, Allocs.refl d m (by omega)⟩⟩

end

/--
`d` is a new address space with copies of the pages of `d₀` below `sz` and with the kernel half of
`setupkvm`.
-/
structure Clones (L : Layout) (d₀ d : BitVec 32) (sz : Nat) (m m' : Mem) : Prop where
  conserve : m'.own d + m'.free = m.free
  frame : ∀ x, x ∉ m.free → m'.phys x = m.phys x
  walk : ∀ u, u < 2 ^ 20 → ¬ (4096 * u < sz ∧ pteP (m.walk d₀ u)) →
    m'.walk d u = Kmap.walk L.kmap u
  fresh : ∀ u, 4096 * u < sz → pteP (m.walk d₀ u) → ∃ pa, pa ∈ m.free ∧
    m'.walk d u = pa ||| pteFlags (m.walk d₀ u) ||| PTE_P ∧ pteAddr (m'.walk d u) = pa ∧
    m'.phys pa = m.phys (pteAddr (m.walk d₀ u))

theorem Owned.free (h : Owned L m d) : Free L m := by
  refine ⟨(Multiset.nodup_add.mp h.nodup).2.1, ?_⟩
  intro x hx
  exact h.managed x (Multiset.mem_add.mpr (.inr hx))

theorem Owned.notMem_free (h : Owned L m d) {x : BitVec 32} (hx : x ∈ m.own d) : x ∉ m.free :=
  Multiset.disjoint_left.mp (Multiset.nodup_add.mp h.nodup).2.2 hx

theorem Owned.source {d₀ : BitVec 32} {sz : Nat} (h : Owned L m d₀) (hkvm : Kvm L d m m')
    (hsz : sz ≤ 2 ^ 31)
    : Source d₀ d sz (m.walk d₀) (fun u => m.phys (pteAddr (m.walk d₀ u))) m' := by
  have htables : ∀ x ∈ m.tables d₀, x ∉ m.free := by
    intro x hx
    exact h.notMem_free (Multiset.mem_add.mpr (.inl hx))
  have hpages : ∀ u, 4096 * u < sz → pteP (m.walk d₀ u) → pteAddr (m.walk d₀ u) ∉ m.free := by
    intro u hu hp
    exact (h.user_disjoint (mem_user (by omega) hp)).2
  have hsame : ∀ x ∈ m.tables d₀, m'.phys x = m.phys x := fun x hx => hkvm.frame x (htables x hx)
  refine ⟨?_, ?_, ?_, ?_⟩
  . intro u hu
    exact walk_congr hsame (by omega)
  . intro u hu hp
    exact hkvm.frame _ (hpages u hu hp)
  . intro x hx
    rw [tables_congr hsame] at hx
    rw [hkvm.own]
    exact htables x hx
  . intro u hu hp
    rw [hkvm.own]
    exact hpages u hu hp

theorem Owned.copyuvm {d₀ sz : BitVec 32} (h : Owned L m d₀) (hsz : sz.toNat ≤ 2 ^ 31)
    : ∃ r m', m.copyuvm L d₀ sz = .ok (r, m') ∧
        ((r = none ∧ Restores m m') ∨ ∃ d, r = some d ∧ Clones L d₀ d sz.toNat m m') := by
  unfold Mem.copyuvm
  rcases h.free.setupkvm with ⟨r, m₁, hok, hres⟩
  rw [hok, Fold.ok_bind]
  cases hres with
  | inl hnone =>
    rw [hnone.1]
    exact ⟨none, m₁, rfl, .inl ⟨rfl, hnone.2⟩⟩
  | inr hsome =>
    rcases hsome with ⟨d, hr, hkvm⟩
    rw [hr]
    have hzero : (0 : BitVec 32) = pageAddr 0 := rfl
    simp only
    rw [hzero, NPAGES_eq]
    rcases copyuvm_loop (v := 0) (k := 1048575) (hkvm.owned h.free) (h.source hkvm hsz) hsz (by omega)
      (by omega) (by
        intro u _ hu
        rw [hkvm.walk u (by omega), L.kmap_ascending.walk_of_lt hu, pteP_zero]
        simp) with ⟨r, m', hok', hres'⟩
    refine ⟨r, m', hok', ?_⟩
    cases hres' with
    | inl hsome =>
      rcases hsome with ⟨hr, hallocs⟩
      refine .inr ⟨d, hr, ?_, ?_, ?_, ?_⟩
      . rw [hallocs.conserve, hkvm.own]
      . intro x hx
        rw [hallocs.frame_own (by rw [hkvm.own]; exact hx), hkvm.frame x hx]
      . intro u hu hP
        rw [hallocs.walk u hu (by simpa using hP), hkvm.walk u hu]
      . intro u hu hp
        rcases hallocs.fresh u ⟨Nat.zero_le u, hu, hp⟩ with ⟨_, pa, hpa, hpost⟩
        refine ⟨pa, ?_, hpost⟩
        rw [← hkvm.conserve, Multiset.mem_add]
        exact .inr hpa
    | inr hnone =>
      rcases hnone with ⟨hr, hfree, hframe⟩
      refine .inl ⟨hr, ?_, ?_⟩
      . rw [hfree, hkvm.own]
      . intro x hx
        rw [hframe x (by rw [hkvm.own]; exact hx), hkvm.frame x hx]

end Mem

end Xv6
