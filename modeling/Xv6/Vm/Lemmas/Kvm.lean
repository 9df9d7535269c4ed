import Xv6.Vm.Lemmas.Uvm

/-!
`setupkvm`: the kernel half of an address space is the table `kmap`, and a failed call gives back
what it took.
-/

namespace Xv6

namespace Kmap

def size (k : Kmap) : BitVec 32 :=
  k.phys_end - k.phys_start

def covers (k : Kmap) (u : Nat) : Bool :=
  k.virt.toNat / 4096 ≤ u ∧ u < k.virt.toNat / 4096 + k.size.toNat / 4096

theorem covers_iff {k : Kmap} {u : Nat}
    : k.covers u = true ↔
        k.virt.toNat / 4096 ≤ u ∧ u < k.virt.toNat / 4096 + k.size.toNat / 4096 := by
  unfold covers
  rw [decide_eq_true_eq]

def walk (ks : List Kmap) (u : Nat) : BitVec 32 :=
  match ks.find? (covers · u) with
  | none => 0
  | some k => (k.phys_start + pageAddr (u - k.virt.toNat / 4096)) ||| k.perm ||| PTE_P

-- no page of the range is in the part of the address space for which entry `i` of a directory is
def spares (k : Kmap) (i : Nat) : Prop :=
  i < k.virt.toNat / 4096 / 1024 ∨
    (k.virt.toNat / 4096 + k.size.toNat / 4096 - 1) / 1024 < i

-- The ranges are made of pages from page `lo` on and follow one another.
def Ascending : Nat → List Kmap → Prop
  | _, [] => True
  | lo, k :: ks =>
    lo ≤ k.virt.toNat / 4096 ∧ k.virt.toNat % 4096 = 0 ∧ 0 < k.size.toNat ∧
      k.size.toNat % 4096 = 0 ∧ k.virt.toNat + k.size.toNat ≤ 2 ^ 32 ∧
      Ascending (k.virt.toNat / 4096 + k.size.toNat / 4096) ks

theorem walk_nil (u : Nat) : walk [] u = 0 := rfl

theorem walk_cons_of_covers {k : Kmap} (ks : List Kmap) {u : Nat} (h : k.covers u = true)
    : walk (k :: ks) u =
        (k.phys_start + pageAddr (u - k.virt.toNat / 4096)) ||| k.perm ||| PTE_P := by
  simp [walk, h]

theorem walk_cons_of_not_covers {k : Kmap} (ks : List Kmap) {u : Nat} (h : k.covers u = false)
    : walk (k :: ks) u = walk ks u := by
  simp [walk, h]

theorem walk_present {ks : List Kmap} {k : Kmap} {u : Nat} (hk : k ∈ ks) (h : k.covers u = true)
    : pteP (walk ks u) := by
  unfold walk
  split
  next hnone =>
    rw [List.find?_eq_none] at hnone
    exact absurd h (hnone k hk)
  next hsome => exact pteP_or _

theorem walk_pteU {ks : List Kmap} (u : Nat)
    (h : ∀ k ∈ ks, k.phys_start.toNat % 4096 = 0 ∧ pteU (k.perm ||| PTE_P) = false)
    : pteU (walk ks u) = false := by
  unfold walk
  split
  . rfl
  next k hk =>
    have hmem := h k (List.mem_of_find?_eq_some hk)
    rw [BitVec.or_assoc, pteU_or _ _, hmem.2]
    rw [BitVec.toNat_add]
    unfold pageAddr
    rw [BitVec.toNat_ofNat]
    omega

theorem Ascending.walk_of_lt {lo : Nat} {ks : List Kmap} (h : Ascending lo ks) {u : Nat} (hu : u < lo)
    : walk ks u = 0 := by
  induction ks generalizing lo with
  | nil => rfl
  | cons k ks ih =>
    rcases h with ⟨hlo, _, hpos, hmod, _, hks⟩
    rw [walk_cons_of_not_covers]
    . apply ih hks
      omega
    . rw [← Bool.not_eq_true, covers_iff]
      omega

end Kmap

theorem Layout.data_range (L : Layout)
    : L.data.toNat % 4096 = 0 ∧ 0x80100000 < L.data.toNat ∧ L.data.toNat < 0x8E000000 := by
  have h2 := L.kernlink_lt
  have h3 := L.data_lt
  have h4 := L.kend_lt
  have h5 : (p2v PHYSTOP).toNat = 0x8E000000 := by decide
  rw [KERNLINK_toNat] at h2
  rw [h5] at h4
  exact ⟨L.data_aligned, h2, by omega⟩

theorem Layout.kmap_sizes (L : Layout)
    : (EXTMEM - 0 : BitVec 32).toNat = 0x100000 ∧
      (v2p L.data - v2p KERNLINK).toNat = L.data.toNat - 0x80100000 ∧
      (PHYSTOP - v2p L.data).toNat = 0x8E000000 - L.data.toNat ∧
      (0 - DEVSPACE : BitVec 32).toNat = 0x2000000 := by
  have hrange := L.data_range
  have hlink : (v2p KERNLINK).toNat = 0x100000 := by decide
  have hdata : (v2p L.data).toNat = L.data.toNat - 0x80000000 := by
    unfold v2p
    rw [BitVec.toNat_sub, KERNBASE_toNat]
    omega
  refine ⟨by decide, ?_, ?_, by decide⟩
  . rw [BitVec.toNat_sub, hdata, hlink]
    omega
  . rw [BitVec.toNat_sub, hdata, PHYSTOP_toNat]
    omega

theorem Layout.kmap_ascending (L : Layout) : Kmap.Ascending (2 ^ 19) L.kmap := by
  have hrange := L.data_range
  rcases L.kmap_sizes with ⟨hs1, hs2, hs3, hs4⟩
  unfold Layout.kmap
  simp only [Kmap.Ascending, Kmap.size, and_true]
  rw [hs1, hs2, hs3, hs4, KERNBASE_toNat, KERNLINK_toNat, DEVSPACE_toNat]
  omega

theorem Layout.kmap_pteU (L : Layout) (u : Nat) : pteU (Kmap.walk L.kmap u) = false := by
  apply Kmap.walk_pteU
  have h1 := L.data_aligned
  rw [PGSIZE] at h1
  have hdata : (v2p L.data).toNat % 4096 = 0 := by
    unfold v2p
    rw [BitVec.toNat_sub, KERNBASE_toNat]
    omega
  intro k hk
  simp only [Layout.kmap, List.mem_cons, List.not_mem_nil, or_false] at hk
  rcases hk with rfl | rfl | rfl | rfl
  . decide
  . exact ⟨(by decide : (v2p KERNLINK).toNat % 4096 = 0), (by decide : pteU (0 ||| PTE_P) = false)⟩
  . exact ⟨hdata, (by decide : pteU (PTE_W ||| PTE_P) = false)⟩
  . decide

theorem Layout.kmap_devspace (L : Layout) {u : Nat} (hlo : 0xFE000 ≤ u) (hu : u < 2 ^ 20)
    : pteP (Kmap.walk L.kmap u) := by
  have hmem : (⟨DEVSPACE, DEVSPACE, 0, PTE_W⟩ : Kmap) ∈ L.kmap := by
    simp [Layout.kmap]
  apply Kmap.walk_present hmem
  have hsize : (0 - DEVSPACE : BitVec 32).toNat = 0x2000000 := by decide
  rw [Kmap.covers_iff]
  simp only [Kmap.size, hsize, DEVSPACE_toNat]
  omega

-- between the end of physical memory and the devices
theorem Layout.kmap_spares (L : Layout) {i : Nat} (hlo : 568 ≤ i) (hi : i < 1016)
    : ∀ k ∈ L.kmap, k.spares i := by
  have hrange := L.data_range
  rcases L.kmap_sizes with ⟨hs1, hs2, hs3, hs4⟩
  unfold Layout.kmap
  simp only [List.forall_mem_cons, Kmap.spares, Kmap.size]
  rw [hs1, hs2, hs3, hs4, KERNBASE_toNat, KERNLINK_toNat, DEVSPACE_toNat]
  refine ⟨?_, ?_, ?_, ?_, nofun⟩
  . omega
  . omega
  . omega
  . omega

namespace Mem

structure Restores (m m' : Mem) : Prop where
  free : m'.free = m.free
  frame : ∀ x, x ∉ m.free → m'.phys x = m.phys x

structure Free (L : Layout) (m : Mem) : Prop where
  nodup : m.free.Nodup
  managed : ∀ x ∈ m.free, L.Managed x

structure Kvm (L : Layout) (d : BitVec 32) (m m' : Mem) : Prop where
  conserve : m'.tables d + m'.free = m.free
  frame : ∀ x, x ∉ m.free → m'.phys x = m.phys x
  entry : ∀ i, (∀ k ∈ L.kmap, k.spares i) → m'.entry d i = 0
  walk : ∀ u, u < 2 ^ 20 → m'.walk d u = Kmap.walk L.kmap u

variable {L : Layout} {d : BitVec 32} {m m' m'' : Mem}

theorem Valid.mappages_kmap {k : Kmap} {ks : List Kmap} {lo : Nat} (h : Valid L m d)
    (hks : Kmap.Ascending lo (k :: ks)) (habsent : ∀ u, lo ≤ u → u < 2 ^ 20 → m.walk d u = 0)
    : ∃ r j m', m.mappages d k.virt k.size k.phys_start k.perm = .ok (r, m') ∧
        Maps d m m' (k.virt.toNat / 4096) j (k.size.toNat / 4096) k.phys_start k.perm ∧
        (r = true → j = k.size.toNat / 4096) ∧ (r = false → j < k.size.toNat / 4096) := by
  rcases hks with ⟨hk, hvirt, hpos, hmod, hend, _⟩
  apply h.mappages hpos hend rfl
  . omega
  . intro i hi
    rw [habsent _ (by omega) (by omega), pteP_zero]
    simp

theorem setupkvm_loop {ks : List Kmap} {lo : Nat} (h : Valid L m d) (hks : Kmap.Ascending lo ks)
    (habsent : ∀ u, lo ≤ u → u < 2 ^ 20 → m.walk d u = 0)
    : ∃ r m', setupkvm.loop L d m ks = .ok (r, m') ∧
        ((r = none ∧ m'.free = m.tables d + m.free ∧
            ∀ x, x ∉ m.tables d + m.free → m'.phys x = m.phys x) ∨
          (r = some d ∧ Grows d m m' ∧
            (∀ i, (∀ k ∈ ks, k.spares i) → m'.entry d i = m.entry d i) ∧
            ∀ u, u < 2 ^ 20 → m'.walk d u = if u < lo then m.walk d u else Kmap.walk ks u)) := by
  induction ks generalizing m lo with
  | nil =>
    refine ⟨some d, m, rfl, .inr ⟨rfl, .refl d m, fun _ _ => rfl, ?_⟩⟩
    intro u hu
    rw [Kmap.walk_nil]
    split
    . rfl
    next hge => exact habsent u (by omega) hu
  | cons k ks ih =>
    rcases h.mappages_kmap hks habsent with ⟨r, j, m₁, hok, hmaps, htrue, _⟩
    rcases hks with ⟨hk, hvirt, hpos, hmod, hend, hks⟩
    unfold setupkvm.loop
    unfold Kmap.size at hok
    rw [hok, Fold.ok_bind]
    have hvalid := h.grows hmaps.grows
    cases r with
    | false =>
      rcases hvalid.freevm with ⟨m₂, hok₂, hfree₂, hframe₂⟩
      simp only [Bool.false_eq_true, ↓reduceIte]
      rw [hok₂, Fold.ok_bind]
      refine ⟨none, m₂, rfl, .inl ⟨rfl, ?_, ?_⟩⟩
      . rw [hfree₂, hmaps.grows.conserve]
      . intro x hx
        rw [hframe₂, hmaps.grows.frame x hx]
        intro hin
        apply hx
        rw [← hmaps.grows.conserve, Multiset.mem_add]
        exact .inl hin
    | true =>
      have hj := htrue rfl
      simp only [↓reduceIte]
      rcases ih hvalid hks (by
        intro u hu hlt
        rw [hmaps.walk u hlt, if_neg (by omega)]
        exact habsent u (by omega) hlt) with ⟨r, m₂, hok₂, hres⟩
      refine ⟨r, m₂, hok₂, ?_⟩
      cases hres with
      | inl hnone =>
        rcases hnone with ⟨hr, hfree₂, hframe₂⟩
        refine .inl ⟨hr, ?_, ?_⟩
        . rw [hfree₂, hmaps.grows.conserve]
        . intro x hx
          rw [hframe₂ x (by rw [hmaps.grows.conserve]; exact hx), hmaps.grows.frame x hx]
      | inr hsome =>
        rcases hsome with ⟨hr, hgrows₂, hentry₂, hwalk₂⟩
        refine .inr ⟨hr, hmaps.grows.trans hgrows₂, ?_, ?_⟩
        . intro i hi
          rw [List.forall_mem_cons] at hi
          rw [hentry₂ i hi.2, hmaps.entry i hi.1]
        . intro u hu
          rw [hwalk₂ u hu, hmaps.walk u hu, hj]
          by_cases hc : k.covers u = true
          . rw [Kmap.walk_cons_of_covers ks hc]
            rw [Kmap.covers_iff] at hc
            rw [if_pos (by omega), if_pos (by omega), if_neg (by omega)]
          . rw [Kmap.walk_cons_of_not_covers ks (by simpa using hc)]
            rw [Kmap.covers_iff] at hc
            rw [if_neg (by omega : ¬ (k.virt.toNat / 4096 ≤ u ∧
              u < k.virt.toNat / 4096 + k.size.toNat / 4096))]
            by_cases hlt : u < k.virt.toNat / 4096 + k.size.toNat / 4096
            . rw [if_pos hlt]
              split
              . rfl
              next hge => rw [habsent u (by omega) hu, hks.walk_of_lt hlt]
            . rw [if_neg hlt, if_neg (by omega)]

theorem tables_memset (m : Mem) (d : BitVec 32) : (m.memset d 0).tables d = {d} := by
  unfold tables
  simp only [entry_memset, frameOf_of_absent pteP_zero, Finset.sum_const_zero, add_zero]

theorem walk_memset (m : Mem) (d : BitVec 32) (u : Nat) : (m.memset d 0).walk d u = 0 := by
  unfold walk
  rw [entry_memset, pteP_zero]
  simp

theorem Free.setupkvm (h : Free L m)
    : ∃ r m', m.setupkvm L = .ok (r, m') ∧
        ((r = none ∧ Restores m m') ∨ ∃ d, r = some d ∧ Kvm L d m m') := by
  unfold Mem.setupkvm
  generalize hres : m.kalloc = res
  rcases res with ⟨r, m₁⟩
  cases r with
  | none =>
    rcases kalloc_none hres with ⟨hphys, hfree⟩
    exact ⟨none, m₁, rfl, .inl ⟨rfl, hfree, fun x _ => by rw [hphys]⟩⟩
  | some d =>
    rcases kalloc_some hres with ⟨hphys, hfree⟩
    simp only
    rw [if_neg (by decide)]
    have hconserve : (m₁.memset d 0).tables d + (m₁.memset d 0).free = m.free := by
      rw [tables_memset, memset_free, hfree, Multiset.singleton_add]
    have hvalid : Valid L (m₁.memset d 0) d := by
      constructor
      . rw [hconserve]
        exact h.nodup
      . rw [hconserve]
        exact h.managed
    have hframe : ∀ x, x ∉ m.free → (m₁.memset d 0).phys x = m.phys x := by
      intro x hx
      rw [memset_phys_of_ne, hphys]
      intro heq
      apply hx
      rw [heq, hfree]
      exact Multiset.mem_cons_self _ _
    rcases setupkvm_loop hvalid L.kmap_ascending (fun u _ _ => walk_memset m₁ d u)
      with ⟨r, m₂, hok, hr⟩
    refine ⟨r, m₂, hok, ?_⟩
    rw [hconserve] at hr
    cases hr with
    | inl hnone =>
      rcases hnone with ⟨hr, hfree₂, hframe₂⟩
      refine .inl ⟨hr, hfree₂, ?_⟩
      intro x hx
      rw [hframe₂ x hx, hframe x hx]
    | inr hsome =>
      rcases hsome with ⟨hr, hgrows, hentry, hwalk⟩
      refine .inr ⟨d, hr, ?_, ?_, ?_, ?_⟩
      . rw [hgrows.conserve, hconserve]
      . intro x hx
        rw [hgrows.frame x (by rw [hconserve]; exact hx), hframe x hx]
      . intro i hi
        rw [hentry i hi, entry_memset]
      . intro u hu
        rw [hwalk u hu, walk_memset]
        split
        next hlt => rw [L.kmap_ascending.walk_of_lt hlt]
        . rfl

theorem Kvm.user (h : Kvm L d m m') : m'.user d = 0 := by
  apply user_eq_zero
  intro v hv
  rw [h.walk v (by omega), L.kmap_ascending.walk_of_lt hv, pteP_zero]
  simp

theorem Kvm.own (h : Kvm L d m m') : m'.own d + m'.free = m.free := by
  rw [own_add_free, h.user, add_zero, h.conserve]

theorem Kvm.owned (h : Kvm L d m m') (hm : Free L m) : Owned L m' d := by
  constructor
  . rw [h.own]
    exact hm.nodup
  . rw [h.own]
    exact hm.managed

end Mem

end Xv6
