import Xv6.Data.Ledger
import Xv6.Vm.Impl.Pgdir
import Xv6.Vm.Lemmas.Addr

/-!
The translations of a page directory and the pages that it is made of. `walk m d v` is the entry for
page number `v`, or 0 if its page table is absent.
-/

namespace Xv6

def Layout.Managed (L : Layout) (pa : BitVec 32) : Prop :=
  pa.toNat % 4096 = 0 ∧ L.kend.toNat ≤ pa.toNat + 2 ^ 31 ∧ pa.toNat < 0xE000000

namespace Mem

def free (m : Mem) : Multiset (BitVec 32) :=
  m.freelist

theorem kalloc_none {m m' : Mem} (h : m.kalloc = (none, m')) : m'.phys = m.phys ∧ m'.free = m.free := by
  unfold kalloc at h
  unfold free
  split at h
  . cases h
    exact ⟨rfl, rfl⟩
  . simp only at h
    split at h
    . cases h
      exact ⟨rfl, rfl⟩
    . simp at h

theorem kalloc_some {m m' : Mem} {pa : BitVec 32} (h : m.kalloc = (some pa, m'))
    : m'.phys = m.phys ∧ m.free = pa ::ₘ m'.free := by
  unfold kalloc at h
  unfold free
  split at h
  . simp at h
  . simp only at h
    split at h
    . simp at h
    next heq =>
      cases h
      exact ⟨rfl, by rw [heq]; rfl⟩

theorem kfree_ok {L : Layout} (m : Mem) {pa : BitVec 32} (h : L.Managed pa)
    : ∃ m', m.kfree L pa = .ok m' ∧ m'.free = pa ::ₘ m.free ∧
        ∀ x, x ≠ pa → m'.phys x = m.phys x := by
  have hv := p2v_toNat h.2.2
  have hv1 : ¬ (p2v pa).toNat % PGSIZE ≠ 0 := by
    have := h.1
    rw [hv, PGSIZE]
    omega
  have hv2 : ¬ p2v pa < L.kend := by
    have := h.2.1
    rw [BitVec.lt_def, hv]
    omega
  have hv3 : ¬ v2p (p2v pa) ≥ PHYSTOP := by
    have := h.2.2
    rw [v2p_p2v, ge_iff_le, BitVec.le_def, PHYSTOP_toNat]
    omega
  unfold kfree
  simp only [hv1, hv2, hv3, or_self, ↓reduceIte]
  refine ⟨_, rfl, rfl, ?_⟩
  intro x hx
  simp [memset, setEntry, hx]

@[simp]
theorem memset_free (m : Mem) (pa : BitVec 32) (c : BitVec 8) : (m.memset pa c).free = m.free := rfl

@[simp]
theorem setEntry_free (m : Mem) (t : BitVec 32) (i : Nat) (w : BitVec 32)
    : (m.setEntry t i w).free = m.free := rfl

@[simp]
theorem set_free (m : Mem) (pte : PtePtr) (w : BitVec 32) : (m.set pte w).free = m.free := rfl

theorem memset_phys_of_ne (m : Mem) {pa x : BitVec 32} (c : BitVec 8) (h : x ≠ pa)
    : (m.memset pa c).phys x = m.phys x := by
  simp [memset, h]

theorem memset_kalloc_phys {m m' : Mem} {pa x : BitVec 32} (c : BitVec 8)
    (h : m.kalloc = (some pa, m')) (hx : x ≠ pa)
    : (m'.memset pa c).phys x = m.phys x := by
  rw [memset_phys_of_ne _ _ hx, (kalloc_some h).1]

theorem setEntry_phys_of_ne (m : Mem) {t x : BitVec 32} (i : Nat) (w : BitVec 32) (h : x ≠ t)
    : (m.setEntry t i w).phys x = m.phys x := by
  simp [setEntry, h]

theorem entry_congr {m m' : Mem} {t : BitVec 32} (h : m'.phys t = m.phys t) (i : Nat)
    : m'.entry t i = m.entry t i := by
  unfold entry
  rw [h]

theorem entry_memset (m : Mem) (pa : BitVec 32) (i : Nat) : (m.memset pa 0).entry pa i = 0 := by
  unfold entry memset
  simp only [Function.update_self]
  exact Bytes.getWord_zero _

theorem entry_setEntry (m : Mem) (t : BitVec 32) {i : Nat} (w : BitVec 32) (j : Nat)
    (hi : i < 1024)
    : (m.setEntry t i w).entry t j = if j = i then w else m.entry t j := by
  unfold entry setEntry
  simp only [Function.update_self]
  split
  next h =>
    rw [h]
    apply Bytes.getWord_setWord
    simp only [PGSIZE]
    omega
  next h =>
    apply Bytes.getWord_setWord_of_disjoint
    omega

def walk (m : Mem) (d : BitVec 32) (v : Nat) : BitVec 32 :=
  if pteP (m.entry d (v / 1024)) then m.entry (pteAddr (m.entry d (v / 1024))) (v % 1024) else 0

@[irreducible]
def pdIndices : Finset Nat :=
  Finset.range 1024

@[irreducible]
def userPages : Finset Nat :=
  Finset.range (2 ^ 19)

theorem mem_pdIndices {i : Nat} : i ∈ pdIndices ↔ i < 1024 := by
  unfold pdIndices
  exact Finset.mem_range

theorem mem_userPages {v : Nat} : v ∈ userPages ↔ v < 2 ^ 19 := by
  unfold userPages
  exact Finset.mem_range

def frameOf (w : BitVec 32) : Multiset (BitVec 32) :=
  if pteP w then {pteAddr w} else 0

def tables (m : Mem) (d : BitVec 32) : Multiset (BitVec 32) :=
  {d} + ∑ i ∈ pdIndices, frameOf (m.entry d i)

def user (m : Mem) (d : BitVec 32) : Multiset (BitVec 32) :=
  ∑ v ∈ userPages, frameOf (m.walk d v)

theorem mem_frameOf {w x : BitVec 32} : x ∈ frameOf w ↔ pteP w ∧ x = pteAddr w := by
  unfold frameOf
  split
  next h => simp [h]
  next h => simp [h]

theorem frameOf_of_present {w : BitVec 32} (h : pteP w) : frameOf w = {pteAddr w} := by
  simp [frameOf, h]

theorem frameOf_of_absent {w : BitVec 32} (h : pteP w = false) : frameOf w = 0 := by
  simp [frameOf, h]

theorem self_mem_tables (m : Mem) (d : BitVec 32) : d ∈ m.tables d := by
  simp [tables]

theorem mem_tables {m : Mem} {d : BitVec 32} {i : Nat} (hi : i < 1024) (h : pteP (m.entry d i))
    : pteAddr (m.entry d i) ∈ m.tables d := by
  unfold tables
  rw [Multiset.mem_add, Multiset.mem_sum]
  exact .inr ⟨i, mem_pdIndices.mpr hi, mem_frameOf.mpr ⟨h, rfl⟩⟩

theorem mem_user {m : Mem} {d : BitVec 32} {v : Nat} (hv : v < 2 ^ 19) (h : pteP (m.walk d v))
    : pteAddr (m.walk d v) ∈ m.user d := by
  unfold user
  rw [Multiset.mem_sum]
  exact ⟨v, mem_userPages.mpr hv, mem_frameOf.mpr ⟨h, rfl⟩⟩

theorem walk_congr {m m' : Mem} {d : BitVec 32} (h : ∀ pa ∈ m.tables d, m'.phys pa = m.phys pa)
    {v : Nat} (hv : v < 2 ^ 20)
    : m'.walk d v = m.walk d v := by
  have hd := entry_congr (h d (self_mem_tables m d))
  unfold walk
  rw [hd]
  split
  next hp =>
    apply entry_congr
    exact h _ (mem_tables (by omega) hp)
  . rfl

theorem tables_congr {m m' : Mem} {d : BitVec 32} (h : ∀ pa ∈ m.tables d, m'.phys pa = m.phys pa)
    : m'.tables d = m.tables d := by
  unfold tables
  simp only [entry_congr (h d (self_mem_tables m d))]

theorem user_congr {m m' : Mem} {d : BitVec 32}
    (h : ∀ v, v < 2 ^ 19 → m'.walk d v = m.walk d v)
    : m'.user d = m.user d := by
  unfold user
  apply Finset.sum_congr rfl
  intro v hv
  rw [h v (mem_userPages.mp hv)]

theorem user_update {m m' : Mem} {d : BitVec 32} {v : Nat} (hv : v < 2 ^ 19)
    (h : ∀ u, u < 2 ^ 19 → u ≠ v → m'.walk d u = m.walk d u)
    : m'.user d + frameOf (m.walk d v) = m.user d + frameOf (m'.walk d v) := by
  unfold user
  apply Ledger.sum_replace (mem_userPages.mpr hv)
  intro u hu hne
  rw [h u (mem_userPages.mp hu) hne]

/--
The tables of `d` and the free pages are pairwise distinct pages that `kalloc` manages.
-/
structure Valid (L : Layout) (m : Mem) (d : BitVec 32) : Prop where
  nodup : (m.tables d + m.free).Nodup
  managed : ∀ x ∈ m.tables d + m.free, L.Managed x

/--
Some free pages may have become page tables of `d`, and nothing else has changed but what is in
these pages.
-/
structure Grows (d : BitVec 32) (m m' : Mem) : Prop where
  conserve : m'.tables d + m'.free = m.tables d + m.free
  mono : m'.free ≤ m.free
  frame : ∀ x, x ∉ m.tables d + m.free → m'.phys x = m.phys x

variable {L : Layout} {d : BitVec 32} {m m' m'' : Mem}

theorem Grows.refl (d : BitVec 32) (m : Mem) : Grows d m m :=
  ⟨rfl, le_refl _, fun _ _ => rfl⟩

theorem Grows.trans (h₁ : Grows d m m') (h₂ : Grows d m' m'') : Grows d m m'' := by
  refine ⟨?_, le_trans h₂.mono h₁.mono, ?_⟩
  . rw [h₂.conserve, h₁.conserve]
  . intro x hx
    rw [h₂.frame, h₁.frame x hx]
    rw [h₁.conserve]
    exact hx

theorem Valid.grows (h : Valid L m d) (hg : Grows d m m') : Valid L m' d := by
  constructor
  . rw [hg.conserve]
    exact h.nodup
  . rw [hg.conserve]
    exact h.managed

theorem Valid.nodup_tables (h : Valid L m d) : (m.tables d).Nodup :=
  (Multiset.nodup_add.mp h.nodup).1

theorem table_ne_self (hnodup : (m.tables d).Nodup) {i : Nat} (hi : i < 1024)
    (hp : pteP (m.entry d i))
    : pteAddr (m.entry d i) ≠ d := by
  unfold tables at hnodup
  rw [Multiset.nodup_add] at hnodup
  have hdisj := Multiset.disjoint_left.mp hnodup.2.2 (Multiset.mem_singleton_self d)
  intro heq
  apply hdisj
  rw [Multiset.mem_sum]
  exact ⟨i, mem_pdIndices.mpr hi, mem_frameOf.mpr ⟨hp, heq.symm⟩⟩

theorem table_inj (hnodup : (m.tables d).Nodup) {i j : Nat} (hi : i < 1024) (hj : j < 1024)
    (hpi : pteP (m.entry d i)) (hpj : pteP (m.entry d j))
    (heq : pteAddr (m.entry d i) = pteAddr (m.entry d j))
    : i = j := by
  unfold tables at hnodup
  rw [Multiset.nodup_add] at hnodup
  apply Ledger.eq_of_mem hnodup.2.1 (mem_pdIndices.mpr hi) (mem_pdIndices.mpr hj)
    (mem_frameOf.mpr ⟨hpi, rfl⟩)
  exact mem_frameOf.mpr ⟨hpj, heq⟩

theorem Valid.managed_table (h : Valid L m d) {i : Nat} (hi : i < 1024) (hp : pteP (m.entry d i))
    : L.Managed (pteAddr (m.entry d i)) :=
  h.managed _ (Multiset.mem_add.mpr (.inl (mem_tables hi hp)))

theorem walkpgdir_false (m : Mem) (d va : BitVec 32)
    : (m.walkpgdir d va false).1 =
        if pteP (m.entry d (pdx va)) then some ⟨pteAddr (m.entry d (pdx va)), ptx va⟩ else none := by
  unfold walkpgdir
  simp only [Bool.not_false, ↓reduceIte]
  split
  . rfl
  . rfl

theorem walkpgdir_of_pde {va : BitVec 32} (h : pteP (m.entry d (pdx va))) {alloc : Bool}
    : m.walkpgdir d va alloc = (some ⟨pteAddr (m.entry d (pdx va)), ptx va⟩, m) := by
  unfold walkpgdir
  simp only
  rw [if_pos h]

theorem get_eq_walk {va : BitVec 32} (h : pteP (m.entry d (pdx va)))
    : m.get ⟨pteAddr (m.entry d (pdx va)), ptx va⟩ = m.walk d (va.toNat / 4096) := by
  unfold get walk
  rw [pdx_eq] at h
  rw [pdx_eq, ptx_eq, if_pos h]

theorem walk_of_absent {va : BitVec 32} (h : ¬ pteP (m.entry d (pdx va)))
    : m.walk d (va.toNat / 4096) = 0 := by
  unfold walk
  rw [pdx_eq] at h
  rw [if_neg h]

structure Stores (d : BitVec 32) (m m' : Mem) (v : Nat) (w : BitVec 32) : Prop where
  grows : Grows d m m'
  tables : m'.tables d = m.tables d
  free : m'.free = m.free
  entry : ∀ i, m'.entry d i = m.entry d i
  walk : ∀ u, u < 2 ^ 20 → m'.walk d u = if u = v then w else m.walk d u

theorem set_stores (hnodup : (m.tables d).Nodup) {va : BitVec 32}
    (hp : pteP (m.entry d (pdx va))) (w : BitVec 32)
    : Stores d m (m.set ⟨pteAddr (m.entry d (pdx va)), ptx va⟩ w) (va.toNat / 4096) w := by
  have hi : pdx va < 1024 := by
    rw [pdx_eq]
    have := va.isLt
    omega
  have hj : ptx va < 1024 := by
    rw [ptx_eq]
    omega
  have hne := table_ne_self hnodup hi hp
  have hentry : ∀ k, (m.set ⟨pteAddr (m.entry d (pdx va)), ptx va⟩ w).entry d k = m.entry d k := by
    intro k
    apply entry_congr
    exact setEntry_phys_of_ne m _ _ (Ne.symm hne)
  have htables : (m.set ⟨pteAddr (m.entry d (pdx va)), ptx va⟩ w).tables d = m.tables d := by
    unfold Mem.tables
    simp only [hentry]
  refine ⟨⟨?_, le_refl _, ?_⟩, htables, rfl, hentry, ?_⟩
  . rw [htables, set_free]
  . intro x hx
    apply setEntry_phys_of_ne
    intro heq
    apply hx
    rw [heq, Multiset.mem_add]
    exact .inl (mem_tables hi hp)
  . intro u hu
    unfold Mem.walk
    rw [hentry]
    by_cases hpu : pteP (m.entry d (u / 1024))
    . rw [if_pos hpu, if_pos hpu]
      by_cases hiu : u / 1024 = pdx va
      . rw [hiu]
        unfold Mem.set
        rw [entry_setEntry _ _ _ _ hj]
        rw [pdx_eq] at hiu
        rw [ptx_eq]
        split
        . rw [if_pos (by omega)]
        . rw [if_neg (by omega)]
      . have htab : pteAddr (m.entry d (u / 1024)) ≠ pteAddr (m.entry d (pdx va)) := by
          intro heq
          exact hiu (table_inj hnodup (by omega) hi hpu hp heq)
        rw [pdx_eq] at hiu
        rw [if_neg (by omega)]
        apply entry_congr
        exact setEntry_phys_of_ne m _ _ htab
    . rw [if_neg hpu, if_neg hpu, if_neg]
      intro heq
      apply hpu
      rw [heq, ← pdx_eq]
      exact hp

theorem Valid.set (h : Valid L m d) {va : BitVec 32} (hp : pteP (m.entry d (pdx va))) (w : BitVec 32)
    : Stores d m (m.set ⟨pteAddr (m.entry d (pdx va)), ptx va⟩ w) (va.toNat / 4096) w :=
  set_stores h.nodup_tables hp w

theorem pde_present (pgtab : BitVec 32) : pteP (pgtab ||| PTE_P ||| PTE_W ||| PTE_U) = true := by
  have h : pgtab ||| PTE_P ||| PTE_W ||| PTE_U = (pgtab ||| PTE_W ||| PTE_U) ||| PTE_P := by
    ac_rfl
  rw [h]
  exact pteP_or _

theorem pde_addr {pgtab : BitVec 32} (h : pgtab.toNat % 4096 = 0)
    : pteAddr (pgtab ||| PTE_P ||| PTE_W ||| PTE_U) = pgtab := by
  rw [BitVec.or_assoc, BitVec.or_assoc]
  exact pteAddr_or h (by decide)

/--
The same translations, with more page tables perhaps: only the directory entries in `I` may differ.
-/
structure Extends (d : BitVec 32) (I : Nat → Prop) (m m' : Mem) : Prop where
  grows : Grows d m m'
  entry : ∀ i, ¬ I i → m'.entry d i = m.entry d i
  walk : ∀ u, u < 2 ^ 20 → m'.walk d u = m.walk d u

theorem Valid.addTable (h : Valid L m d) {pgtab : BitVec 32} {i : Nat} (hi : i < 1024)
    (habsent : ¬ pteP (m.entry d i)) (hphys : m'.phys = m.phys) (hfree : m.free = pgtab ::ₘ m'.free)
    : Extends d (· = i) m
        ((m'.memset pgtab 0).setEntry d i (pgtab ||| PTE_P ||| PTE_W ||| PTE_U)) := by
  have hmem : pgtab ∈ m.free := by simp [hfree]
  have hmanaged := h.managed pgtab (Multiset.mem_add.mpr (.inr hmem))
  have hnotin : pgtab ∉ m.tables d := by
    intro hin
    exact Multiset.disjoint_left.mp (Multiset.nodup_add.mp h.nodup).2.2 hin hmem
  have hne : d ≠ pgtab := by
    intro heq
    apply hnotin
    rw [← heq]
    exact self_mem_tables m d
  generalize hm₂ : (m'.memset pgtab 0).setEntry d i (pgtab ||| PTE_P ||| PTE_W ||| PTE_U) = m₂
  have hother : ∀ x, x ≠ pgtab → x ≠ d → m₂.phys x = m.phys x := by
    intro x h1 h2
    rw [← hm₂, setEntry_phys_of_ne _ _ _ h2, memset_phys_of_ne _ _ h1, hphys]
  have hentry : ∀ k, m₂.entry d k =
      if k = i then pgtab ||| PTE_P ||| PTE_W ||| PTE_U else m.entry d k := by
    intro k
    rw [← hm₂, entry_setEntry _ _ _ _ hi]
    have : (m'.memset pgtab 0).entry d k = m.entry d k := by
      apply entry_congr
      rw [memset_phys_of_ne _ _ hne, hphys]
    rw [this]
  have hnew : ∀ k, m₂.entry pgtab k = 0 := by
    intro k
    rw [← hm₂, entry_congr (setEntry_phys_of_ne _ _ _ (Ne.symm hne))]
    exact entry_memset m' pgtab k
  have htables : m₂.tables d = m.tables d + {pgtab} := by
    unfold tables
    have hsum := Ledger.sum_replace (f := fun k => frameOf (m.entry d k))
      (g := fun k => frameOf (m₂.entry d k)) (mem_pdIndices.mpr hi) (by
        intro j _ hj
        rw [hentry, if_neg hj])
    simp only [hentry, ↓reduceIte] at hsum
    rw [frameOf_of_absent (by simpa using habsent), frameOf_of_present (pde_present pgtab),
      pde_addr hmanaged.1, add_zero] at hsum
    simp only [hentry]
    rw [hsum, add_assoc]
  have hfree₂ : m₂.free = m'.free := by
    rw [← hm₂]
    rfl
  refine ⟨⟨?_, ?_, ?_⟩, ?_, ?_⟩
  . rw [htables, hfree₂, hfree, add_assoc, Multiset.singleton_add]
  . rw [hfree₂, hfree]
    exact Multiset.le_cons_self _ _
  . intro x hx
    rw [Multiset.mem_add, not_or] at hx
    apply hother
    . intro heq
      rw [heq] at hx
      exact hx.2 hmem
    . intro heq
      rw [heq] at hx
      exact hx.1 (self_mem_tables m d)
  . intro k hk
    rw [hentry, if_neg hk]
  . intro u hu
    unfold walk
    rw [hentry]
    by_cases hui : u / 1024 = i
    . rw [if_pos hui, if_pos (pde_present pgtab), pde_addr hmanaged.1, hui, if_neg habsent, hnew]
    . rw [if_neg hui]
      split
      next hp =>
        apply entry_congr
        apply hother
        . intro heq
          apply hnotin
          rw [← heq]
          exact mem_tables (by omega) hp
        . exact table_ne_self h.nodup_tables (by omega) hp
      . rfl

theorem Valid.walkpgdir (h : Valid L m d) (va : BitVec 32)
    : ∃ m', Extends d (· = pdx va) m m' ∧
        ((m.walkpgdir d va true = (none, m') ∧ m'.phys = m.phys ∧ m'.free = m.free) ∨
          (pteP (m'.entry d (pdx va)) ∧
            m.walkpgdir d va true = (some ⟨pteAddr (m'.entry d (pdx va)), ptx va⟩, m'))) := by
  have hi : pdx va < 1024 := by
    rw [pdx_eq]
    have := va.isLt
    omega
  unfold Mem.walkpgdir
  simp only [Bool.not_true, Bool.false_eq_true, ↓reduceIte]
  by_cases hp : pteP (m.entry d (pdx va))
  . exact ⟨m, ⟨.refl d m, fun _ _ => rfl, fun _ _ => rfl⟩, .inr ⟨hp, by rw [if_pos hp]⟩⟩
  . rw [if_neg hp]
    generalize hres : m.kalloc = res
    rcases res with ⟨r, m₁⟩
    cases r with
    | none =>
      rcases kalloc_none hres with ⟨hphys, hfree⟩
      have hentry : ∀ i, m₁.entry d i = m.entry d i := entry_congr (by rw [hphys])
      have htables : m₁.tables d = m.tables d := tables_congr (fun x _ => by rw [hphys])
      refine ⟨m₁, ⟨⟨by rw [htables, hfree], le_of_eq hfree, fun x _ => by rw [hphys]⟩,
        fun i _ => hentry i, ?_⟩, .inl ⟨rfl, hphys, hfree⟩⟩
      intro u hu
      exact walk_congr (fun x _ => by rw [hphys]) hu
    | some pgtab =>
      rcases kalloc_some hres with ⟨hphys, hfree⟩
      have hext := h.addTable hi hp hphys hfree
      have hmanaged := h.managed pgtab (Multiset.mem_add.mpr (.inr (by simp [hfree])))
      refine ⟨_, hext, .inr ?_⟩
      simp only
      rw [entry_setEntry _ _ _ _ hi, if_pos rfl, pde_addr hmanaged.1]
      exact ⟨pde_present pgtab, rfl⟩

/--
What `mappages` does when it maps the `n` pages from page number `v` on: the first `j` of them are
mapped.
-/
structure Maps (d : BitVec 32) (m m' : Mem) (v j n : Nat) (pa perm : BitVec 32) : Prop where
  grows : Grows d m m'
  entry : ∀ i, i < v / 1024 ∨ (v + n - 1) / 1024 < i → m'.entry d i = m.entry d i
  walk : ∀ u, u < 2 ^ 20 → m'.walk d u =
    if v ≤ u ∧ u < v + j then (pa + pageAddr (u - v)) ||| perm ||| PTE_P else m.walk d u

theorem mappages_loop {perm last : BitVec 32} {fuel v n : Nat} {pa : BitVec 32} (h : Valid L m d)
    (hn : 0 < n) (hv : v + n ≤ 2 ^ 20) (hlast : last = pageAddr (v + n - 1)) (hfuel : n ≤ fuel)
    (habsent : ∀ k, k < n → ¬ pteP (m.walk d (v + k)))
    : ∃ r j m', mappages.loop d perm last fuel m (pageAddr v) pa = .ok (r, m') ∧
        Maps d m m' v j n pa perm ∧ (r = true → j = n) ∧ (r = false → j < n) := by
  induction fuel generalizing m v n pa with
  | zero => omega
  | succ fuel ih =>
    rcases h.walkpgdir (pageAddr v) with ⟨m₁, hext, hres⟩
    have hpdx : pdx (pageAddr v) = v / 1024 := pdx_pageAddr (by omega)
    have hvpn : (pageAddr v).toNat / 4096 = v := by
      rw [pageAddr_toNat (by omega)]
      omega
    unfold mappages.loop
    cases hres with
    | inl hnone =>
      rw [hnone.1]
      refine ⟨false, 0, m₁, rfl, ⟨hext.grows, ?_, ?_⟩, by simp, fun _ => hn⟩
      . intro i hi
        apply hext.entry
        omega
      . intro u hu
        rw [if_neg (by omega)]
        exact hext.walk u hu
    | inr hsome =>
      rcases hsome with ⟨hp, hsome⟩
      rw [hsome]
      simp only
      have hvalid := h.grows hext.grows
      have hget := get_eq_walk hp
      rw [hvpn, hext.walk v (by omega)] at hget
      have habs : ¬ pteP (m₁.get ⟨pteAddr (m₁.entry d (pdx (pageAddr v))), ptx (pageAddr v)⟩) := by
        rw [hget]
        exact habsent 0 hn
      rw [if_neg habs]
      have hstores := hvalid.set hp (pa ||| perm ||| PTE_P)
      rw [hvpn] at hstores
      generalize hm₂ : m₁.set ⟨pteAddr (m₁.entry d (pdx (pageAddr v))), ptx (pageAddr v)⟩
        (pa ||| perm ||| PTE_P) = m₂ at hstores
      have hpa : pa + pageAddr 0 = pa := by
        simp [pageAddr]
      split
      next heq =>
        rw [hlast, pageAddr_inj (by omega) (by omega)] at heq
        refine ⟨true, 1, m₂, rfl, ⟨hext.grows.trans hstores.grows, ?_, ?_⟩, by omega, by simp⟩
        . intro i hi
          rw [hstores.entry, hext.entry]
          omega
        . intro u hu
          rw [hstores.walk u hu, hext.walk u hu]
          by_cases huv : u = v
          . rw [if_pos huv, if_pos (by omega), huv, Nat.sub_self, hpa]
          . rw [if_neg huv, if_neg (by omega)]
      next hne =>
        have hn1 : 0 < n - 1 := by
          apply Nat.pos_of_ne_zero
          intro hzero
          apply hne
          rw [hlast, pageAddr_inj (by omega) (by omega)]
          omega
        rw [pageAddr_succ]
        have hrec : ∃ r j m',
            mappages.loop d perm last fuel m₂ (pageAddr (v + 1)) (pa + 4096) = .ok (r, m') ∧
            Maps d m₂ m' (v + 1) j (n - 1) (pa + 4096) perm ∧ (r = true → j = n - 1) ∧
            (r = false → j < n - 1) := by
          apply ih (hvalid.grows hstores.grows) hn1
          . omega
          . rw [hlast]
            congr 1
            omega
          . omega
          . intro k hk
            rw [hstores.walk _ (by omega), if_neg (by omega), hext.walk _ (by omega)]
            have := habsent (k + 1) (by omega)
            rw [Nat.add_assoc, Nat.add_comm 1 k]
            exact this
        rcases hrec with ⟨r, j, m', hok, hmaps, htrue, hfalse⟩
        refine ⟨r, j + 1, m', hok,
          ⟨(hext.grows.trans hstores.grows).trans hmaps.grows, ?_, ?_⟩, ?_, ?_⟩
        . intro i hi
          rw [hmaps.entry i (by omega), hstores.entry, hext.entry]
          omega
        . intro u hu
          rw [hmaps.walk u hu, hstores.walk u hu, hext.walk u hu]
          by_cases huv : u = v
          . rw [if_neg (by omega), if_pos huv, if_pos (by omega), huv, Nat.sub_self, hpa]
          . rw [if_neg huv]
            by_cases hin : v + 1 ≤ u ∧ u < v + 1 + j
            . have hsub : u - v = (u - (v + 1)) + 1 := by omega
              rw [if_pos hin, if_pos (by omega), hsub, ← pageAddr_succ, BitVec.add_assoc,
                BitVec.add_comm 4096]
            . rw [if_neg hin, if_neg (by omega)]
        . intro hr
          have := htrue hr
          omega
        . intro hr
          have := hfalse hr
          omega

theorem Valid.mappages {va size pa perm : BitVec 32} {v n : Nat} (h : Valid L m d)
    (hsize : 0 < size.toNat) (hend : va.toNat + size.toNat ≤ 2 ^ 32) (hv : v = va.toNat / 4096)
    (hn : v + n = (va.toNat + size.toNat - 1) / 4096 + 1)
    (habsent : ∀ k, k < n → ¬ pteP (m.walk d (v + k)))
    : ∃ r j m', m.mappages d va size pa perm = .ok (r, m') ∧
        Maps d m m' v j n pa perm ∧ (r = true → j = n) ∧ (r = false → j < n) := by
  unfold Mem.mappages
  have hva : pgrounddown va = pageAddr v := by
    rw [hv, pageAddr_vpn]
  have hlast : pgrounddown (va + size - 1) = pageAddr (v + n - 1) := by
    rw [← pageAddr_vpn]
    congr 1
    rw [BitVec.toNat_sub, BitVec.toNat_add]
    simp only [BitVec.ofNat_eq_ofNat, BitVec.toNat_ofNat]
    omega
  rw [hva, hlast]
  exact mappages_loop h (by omega) (by omega) rfl (by unfold NPAGES; omega) habsent

theorem Valid.mappages_page {pa perm : BitVec 32} {v : Nat} (h : Valid L m d) (hv : v < 2 ^ 20)
    (habsent : ¬ pteP (m.walk d v))
    : ∃ r m', m.mappages d (pageAddr v) 4096 pa perm = .ok (r, m') ∧ Grows d m m' ∧
        (∀ i, i ≠ v / 1024 → m'.entry d i = m.entry d i) ∧
        ∀ u, u < 2 ^ 20 → m'.walk d u =
          if u = v ∧ r = true then pa ||| perm ||| PTE_P else m.walk d u := by
  have hva := pageAddr_toNat hv
  have hmap : ∃ r j m', m.mappages d (pageAddr v) 4096 pa perm = .ok (r, m') ∧
      Maps d m m' v j 1 pa perm ∧ (r = true → j = 1) ∧ (r = false → j < 1) := by
    apply h.mappages
    . decide
    . rw [hva]
      simp only [BitVec.ofNat_eq_ofNat, BitVec.toNat_ofNat]
      omega
    . omega
    . rw [hva]
      simp only [BitVec.ofNat_eq_ofNat, BitVec.toNat_ofNat]
      omega
    . intro k hk
      have : k = 0 := by omega
      rw [this]
      exact habsent
  rcases hmap with ⟨r, j, m', hok, hmaps, htrue, hfalse⟩
  refine ⟨r, m', hok, hmaps.grows, ?_, ?_⟩
  . intro i hi
    apply hmaps.entry
    omega
  . intro u hu
    rw [hmaps.walk u hu]
    cases r with
    | true =>
      have := htrue rfl
      by_cases huv : u = v
      . rw [if_pos (by omega), if_pos ⟨huv, rfl⟩, huv, Nat.sub_self]
        simp [pageAddr]
      . rw [if_neg (by omega), if_neg (by simp [huv])]
    | false =>
      have := hfalse rfl
      rw [if_neg (by omega), if_neg (by simp)]

theorem NPAGES_eq : NPAGES = 1048575 + 1 := rfl

theorem mappages_remap {pa perm : BitVec 32} {v : Nat} (hv : v < 2 ^ 20) (hp : pteP (m.walk d v))
    : m.mappages d (pageAddr v) 4096 pa perm = .error (.panic "remap") := by
  have hpde : pteP (m.entry d (pdx (pageAddr v))) := by
    rw [pdx_pageAddr hv]
    apply Classical.byContradiction
    intro habsent
    unfold walk at hp
    rw [if_neg habsent, pteP_zero] at hp
    contradiction
  have hdown : pgrounddown (pageAddr v) = pageAddr v := by
    apply pteAddr_of_aligned
    rw [pageAddr_toNat hv]
    omega
  have hget := get_eq_walk hpde
  rw [pageAddr_toNat hv, Nat.mul_div_cancel_left v (by decide)] at hget
  unfold Mem.mappages
  rw [hdown, NPAGES_eq]
  unfold mappages.loop
  rw [walkpgdir_of_pde hpde]
  simp only
  rw [hget, if_pos hp]

end Mem

end Xv6
