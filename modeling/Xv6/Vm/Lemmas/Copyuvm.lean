import Xv6.Vm.Lemmas.Copyout

/-!
What `copyuvm` makes: parent and child see the same memory at first, and then each only its own
writes.
-/

namespace Xv6

theorem and_one_of_pteP {w : BitVec 32} (h : pteP w) : w &&& 1#32 = 1#32 := by
  have hbit : (w &&& 1#32).toNat = w.toNat % 2 := by
    rw [BitVec.toNat_and]
    exact Nat.and_one_is_mod _
  unfold pteP at h
  rw [bne_iff_ne] at h
  apply BitVec.eq_of_toNat_eq
  rw [hbit]
  apply Classical.byContradiction
  intro hne
  apply h
  apply BitVec.eq_of_toNat_eq
  have hone : (1#32).toNat = 1 := rfl
  show (w &&& 1#32).toNat = 0
  omega

theorem pteFlags_or {pa w : BitVec 32} (hpa : pa.toNat % 4096 = 0) (hp : pteP w)
    : pteFlags (pa ||| pteFlags w ||| PTE_P) = pteFlags w := by
  have haligned : pa &&& 0xFFF#32 = 0#32 := and_of_aligned hpa (by decide)
  have hflags : (w &&& 0xFFF#32) ||| 1#32 = w &&& 0xFFF#32 := by
    calc (w &&& 0xFFF#32) ||| 1#32
      _ = (w &&& 0xFFF#32) ||| (w &&& 1#32) := by rw [and_one_of_pteP hp]
      _ = w &&& (0xFFF#32 ||| 1#32) := by rw [BitVec.and_or_distrib_left]
      _ = w &&& 0xFFF#32 := rfl
  unfold pteFlags PTE_P
  simp only [BitVec.ofNat_eq_ofNat]
  rw [BitVec.or_assoc, hflags, BitVec.and_comm, BitVec.and_or_distrib_left, BitVec.and_comm _ pa,
    haligned, BitVec.and_comm _ (w &&& 0xFFF#32), BitVec.and_assoc, BitVec.and_self, BitVec.zero_or]

namespace Mem

variable {L : Layout} {d e va : BitVec 32} {c : BitVec 8} {m m' m₁ m₂ : Mem}

def load (m : Mem) (d va : BitVec 32) : Option (BitVec 8) :=
  if pteP (m.walk d (va.toNat / 4096)) then
    some ((m.phys (m.frameAt d va.toNat)).byte (va.toNat % 4096))
  else
    none

def store (m : Mem) (d va : BitVec 32) (c : BitVec 8) : Mem :=
  if pteP (m.walk d (va.toNat / 4096)) then
    m.pour d va.toNat 1 [c]
  else
    m

structure Store where
  pgdir : BitVec 32
  va : BitVec 32
  byte : BitVec 8

def stores (m : Mem) : List Store → Mem
  | [] => m
  | w :: ws => (m.store w.pgdir w.va w.byte).stores ws

theorem store_pours (h : va.toNat < 2 ^ 31) : Pours d m (m.store d va c) := by
  unfold store
  split
  next hp => exact pours_update (by omega) hp _
  next => exact .refl d m

structure Apart (L : Layout) (d e : BitVec 32) (m : Mem) : Prop where
  left : Owned L m d
  right : Owned L m e
  disjoint : ∀ x ∈ m.own d, x ∉ m.own e

theorem Apart.symm (h : Apart L d e m) : Apart L e d m :=
  ⟨h.right, h.left, fun x hx hin => h.disjoint x hin hx⟩

def Agree (d : BitVec 32) (m m' : Mem) : Prop :=
  ∀ x ∈ m.own d, m'.phys x = m.phys x

theorem Agree.walk (h : Agree d m m') {u : Nat} (hu : u < 2 ^ 20) : m'.walk d u = m.walk d u :=
  walk_congr (fun x hx => h x (Multiset.mem_add.mpr (.inl hx))) hu

theorem Agree.own (h : Agree d m m') : m'.own d = m.own d := by
  unfold Mem.own
  rw [tables_congr (fun x hx => h x (Multiset.mem_add.mpr (.inl hx))),
    user_congr (fun u hu => h.walk (by omega))]

theorem frameAt_mem_own (h : va.toNat < 2 ^ 31) (hp : pteP (m.walk d (va.toNat / 4096)))
    : m.frameAt d va.toNat ∈ m.own d :=
  Multiset.mem_add.mpr (.inr (mem_user (by omega) hp))

theorem Agree.view (h : Agree d m m') {a : Nat} (ha : a < 2 ^ 31) : m'.view d a = m.view d a := by
  unfold Mem.view
  rw [h.walk (by omega)]
  split
  next hp => rw [h _ (Multiset.mem_add.mpr (.inr (mem_user (by omega) hp)))]
  next => rfl

theorem Agree.load (h : Agree d m m') (hva : va.toNat < 2 ^ 31) : m'.load d va = m.load d va := by
  unfold Mem.load
  rw [h.walk (by omega)]
  split
  next hp =>
    have hframe : m'.frameAt d va.toNat = m.frameAt d va.toNat := by
      unfold frameAt
      rw [h.walk (by omega)]
    rw [hframe, h _ (frameAt_mem_own hva hp)]
  next => rfl

theorem Pours.agree (h : Pours e m m') (ha : Apart L d e m) : Agree d m m' := by
  intro x hx
  apply h.frame
  intro hin
  exact ha.disjoint x hx (Multiset.mem_add.mpr (.inr hin))

theorem Apart.pours (h : Apart L d e m) (hp : Pours e m m') : Apart L d e m' := by
  have hown := (hp.agree h).own
  refine ⟨?_, hp.owned h.right, ?_⟩
  . apply h.left.of_eq
    rw [hown, hp.free]
  . rw [hown, hp.own h.right]
    exact h.disjoint

theorem Agree.trans (h₁ : Agree d m m₁) (h₂ : Agree d m₁ m₂) : Agree d m m₂ := by
  intro x hx
  rw [h₂ x (by rw [h₁.own]; exact hx), h₁ x hx]

theorem Agree.store (h : Agree d m m') (hm : Owned L m d) (hva : va.toNat < 2 ^ 31)
    : Agree d (m.store d va c) (m'.store d va c) := by
  intro x hx
  rw [(store_pours hva).own hm] at hx
  unfold Mem.store
  rw [h.walk (by omega)]
  split
  next hp =>
    have hframe : m'.frameAt d va.toNat = m.frameAt d va.toNat := by
      unfold frameAt
      rw [h.walk (by omega)]
    by_cases heq : x = m.frameAt d va.toNat
    . rw [heq, pour_phys_self, ← hframe, pour_phys_self, hframe, h _ (frameAt_mem_own hva hp)]
    . rw [pour_phys_of_ne m _ _ heq, pour_phys_of_ne m' _ _ (by rw [hframe]; exact heq), h x hx]
  next => exact h x hx

-- What `d` sees after stores of `d` and `e` are its own stores.
theorem Apart.stores (ws : List Store)
    (hws : ∀ w ∈ ws, (w.pgdir = d ∨ w.pgdir = e) ∧ w.va.toNat < 2 ^ 31) (h : Apart L d e m)
    (h' : Apart L d e m') (hagree : Agree d m m')
    : Agree d (m.stores (ws.filter (·.pgdir = d))) (m'.stores ws) := by
  induction ws generalizing m m' with
  | nil => exact hagree
  | cons w ws ih =>
    have hrest : ∀ w ∈ ws, (w.pgdir = d ∨ w.pgdir = e) ∧ w.va.toNat < 2 ^ 31 :=
      fun w hw => hws w (List.mem_cons_of_mem _ hw)
    rcases hws w List.mem_cons_self with ⟨hdir, hva⟩
    by_cases hd : w.pgdir = d
    . rw [List.filter_cons_of_pos (by simpa using hd), Mem.stores, Mem.stores, hd]
      apply ih hrest
      . exact (h.symm.pours (store_pours hva)).symm
      . exact (h'.symm.pours (store_pours hva)).symm
      . exact hagree.store h.left hva
    . have he : w.pgdir = e := hdir.resolve_left hd
      have hpours : Pours e m' (m'.store e w.va w.byte) := store_pours hva
      rw [List.filter_cons_of_neg (by simpa using hd), Mem.stores, he]
      apply ih hrest h
      . exact h'.pours hpours
      . exact hagree.trans (hpours.agree h')

/--
`d` is a copy of the address space `d₀` below `sz`, which `d₀` itself has kept.
-/
structure IsClone (L : Layout) (d₀ d : BitVec 32) (sz : Nat) (m m' : Mem) : Prop where
  present : ∀ u, u < 2 ^ 19 → (pteP (m'.walk d u) ↔ 4096 * u < sz ∧ pteP (m.walk d₀ u))
  flags : ∀ u, 4096 * u < sz → pteP (m.walk d₀ u) →
    pteFlags (m'.walk d u) = pteFlags (m.walk d₀ u)
  content : ∀ u, 4096 * u < sz → pteP (m.walk d₀ u) →
    m'.phys (pteAddr (m'.walk d u)) = m.phys (pteAddr (m.walk d₀ u))
  fresh : ∀ u, 4096 * u < sz → pteP (m.walk d₀ u) → pteAddr (m'.walk d u) ∈ m.free
  distinct : ∀ u v, u < 2 ^ 19 → v < 2 ^ 19 → pteP (m'.walk d u) → pteP (m'.walk d v) →
    pteAddr (m'.walk d u) = pteAddr (m'.walk d v) → u = v
  disjoint : ∀ x ∈ m'.own d, x ∉ m'.own d₀
  kernel : ∀ u, 2 ^ 19 ≤ u → u < 2 ^ 20 → m'.walk d u = Kmap.walk L.kmap u
  parent : ∀ u, u < 2 ^ 20 → m'.walk d₀ u = m.walk d₀ u
  parent_phys : ∀ x ∈ m.own d₀, m'.phys x = m.phys x

theorem Clones.agree {d₀ : BitVec 32} {sz : Nat} (h : Clones L d₀ d sz m m') (hm : Owned L m d₀)
    : Agree d₀ m m' :=
  fun x hx => h.frame x (hm.notMem_free hx)

theorem Clones.apart {d₀ : BitVec 32} {sz : Nat} (h : Clones L d₀ d sz m m') (hm : Owned L m d₀)
    : Apart L d₀ d m' := by
  have hown := (h.agree hm).own
  have hle : m'.own d ≤ m.free := by
    rw [← h.conserve]
    exact Multiset.le_add_right _ _
  refine ⟨?_, ?_, ?_⟩
  . apply hm.of_le
    rw [hown]
    apply add_le_add le_rfl
    rw [← h.conserve]
    exact Multiset.le_add_left _ _
  . constructor
    . rw [h.conserve]
      exact hm.free.nodup
    . rw [h.conserve]
      exact hm.free.managed
  . rw [hown]
    intro x hx hin
    exact hm.notMem_free hx (Multiset.mem_of_le hle hin)

theorem Clones.present {d₀ : BitVec 32} {sz : Nat} (h : Clones L d₀ d sz m m') {u : Nat}
    (hu : u < 2 ^ 19)
    : pteP (m'.walk d u) ↔ 4096 * u < sz ∧ pteP (m.walk d₀ u) := by
  by_cases hp : 4096 * u < sz ∧ pteP (m.walk d₀ u)
  . rcases h.fresh u hp.1 hp.2 with ⟨pa, _, hwalk, _⟩
    rw [hwalk, pteP_or]
    simp only [true_iff]
    exact hp
  . rw [h.walk u (by omega) hp, L.kmap_ascending.walk_of_lt hu, pteP_zero]
    simp only [Bool.false_eq_true, false_iff]
    exact hp

theorem Clones.isClone {d₀ : BitVec 32} {sz : Nat} (h : Clones L d₀ d sz m m') (hm : Owned L m d₀)
    (hsz : sz ≤ 2 ^ 31)
    : IsClone L d₀ d sz m m' := by
  have hapart := h.apart hm
  refine ⟨fun u hu => h.present hu, ?_, ?_, ?_, ?_, hapart.symm.disjoint, ?_, ?_, h.agree hm⟩
  . intro u hu hp
    rcases h.fresh u hu hp with ⟨pa, hpa, hwalk, _⟩
    rw [hwalk]
    exact pteFlags_or (hm.free.managed pa hpa).1 hp
  . intro u hu hp
    rcases h.fresh u hu hp with ⟨pa, _, _, haddr, hphys⟩
    rw [haddr, hphys]
  . intro u hu hp
    rcases h.fresh u hu hp with ⟨pa, hpa, _, haddr, _⟩
    rw [haddr]
    exact hpa
  . intro u v hu hv hpu hpv
    exact hapart.right.user_inj hu hv hpu hpv
  . intro u hge hu
    apply h.walk u hu
    intro hlt
    omega
  . intro u hu
    exact (h.agree hm).walk hu

theorem IsClone.load {d₀ : BitVec 32} {sz : Nat} (h : IsClone L d₀ d sz m m') (hsz : sz ≤ 2 ^ 31)
    (hva : va.toNat < sz)
    : m'.load d va = m'.load d₀ va := by
  have hlt : 4096 * (va.toNat / 4096) < sz := by omega
  have hagree : Agree d₀ m m' := h.parent_phys
  rw [hagree.load (by omega)]
  unfold Mem.load frameAt
  by_cases hp : pteP (m.walk d₀ (va.toNat / 4096))
  . rw [if_pos hp, if_pos ((h.present _ (by omega)).mpr ⟨hlt, hp⟩), h.content _ hlt hp]
  . rw [if_neg hp, if_neg]
    intro hchild
    exact hp ((h.present _ (by omega)).mp hchild).2

/--
`copyuvm` returns a copy of the address space or gives back all pages it took. Parent and child read
the same below `sz`, and whatever both write later, each reads as if the other had written nothing.
-/
theorem copyuvm_clones_sparse {d₀ : BitVec 32} (h : Owned L m d₀) (sz : BitVec 32)
    (hsz : sz ≤ KERNBASE)
    : ∃ r m', m.copyuvm L d₀ sz = .ok (r, m') ∧ (r = none → Restores m m') ∧
        ∀ d, r = some d → IsClone L d₀ d sz.toNat m m' ∧
          (∀ va, va < sz → m'.load d va = m'.load d₀ va) ∧
          ∀ ws : List Store, (∀ w ∈ ws, (w.pgdir = d₀ ∨ w.pgdir = d) ∧ w.va < KERNBASE) →
            ∀ va, va < KERNBASE →
              (m'.stores ws).load d₀ va = (m'.stores (ws.filter (·.pgdir = d₀))).load d₀ va ∧
              (m'.stores ws).load d va = (m'.stores (ws.filter (·.pgdir = d))).load d va := by
  have hsize : sz.toNat ≤ 2 ^ 31 := by
    rw [BitVec.le_def] at hsz
    exact hsz
  rcases h.copyuvm hsize with ⟨r, m', hok, hres⟩
  refine ⟨r, m', hok, ?_, ?_⟩
  . intro hr
    rcases hres with ⟨_, hrestores⟩ | ⟨d, hd, _⟩
    . exact hrestores
    . rw [hr] at hd
      contradiction
  . intro d hr
    rcases hres with ⟨hnone, _⟩ | ⟨d', hd, hclones⟩
    . rw [hr] at hnone
      contradiction
    . rw [hr] at hd
      cases hd
      have hclone := hclones.isClone h hsize
      have hapart := hclones.apart h
      have hrefl : ∀ e, Agree e m' m' := fun _ _ _ => rfl
      refine ⟨hclone, ?_, ?_⟩
      . intro va hva
        exact hclone.load hsize (BitVec.lt_def.mp hva)
      . intro ws hws va hva
        have hleft := hapart.stores ws hws hapart (hrefl d₀)
        have hright := hapart.symm.stores ws (fun w hw => ⟨(hws w hw).1.symm, (hws w hw).2⟩)
          hapart.symm (hrefl d)
        exact ⟨hleft.load hva, hright.load hva⟩

end Mem

end Xv6
