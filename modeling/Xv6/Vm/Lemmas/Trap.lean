import Xv6.Vm.Lemmas.Owner

/-!
The page-fault case of `trap`: what it does if there is memory.
-/

namespace Xv6

namespace VmSys

variable {L : Layout} {s s' : VmSys} {p q : ProcId} {d cr2 err : BitVec 32} {fuel : Nat}

def kill (s : VmSys) (p : ProcId) : VmSys :=
  s.modifyProc p ({ · with killed := true })

@[simp]
theorem kill_sz (s : VmSys) (p : ProcId) : ((s.kill p).proc p).sz = (s.proc p).sz := by
  simp [kill]

@[simp]
theorem kill_pgdir (s : VmSys) (p : ProcId) : ((s.kill p).proc p).pgdir = (s.proc p).pgdir := by
  simp [kill]

theorem kill_sameSpace (s : VmSys) (p q : ProcId) : SameSpace (s.proc q) ((s.kill p).proc q) := by
  by_cases h : q = p
  . rw [h]
    simp [kill, SameSpace]
  . unfold kill
    rw [modifyProc_of_ne s _ h]
    exact .refl _

/--
The outcomes of a page fault at page number `v`: nothing, a kill, a new page, or a kill because
there was no memory for a page table.
-/
inductive Pgflt (p : ProcId) (d : BitVec 32) (v : Nat) (s : VmSys) : VmSys → Prop where
  | ignored : (s.proc p).sz.toNat ≤ 4096 * v → Pgflt p d v s s
  | killed : Pgflt p d v s (s.kill p)
  | mapped {m : Mem} :
      4096 * v < (s.proc p).sz.toNat → ¬ pteP (s.mem.walk d v) → Mem.AllocsZero d (· = v) s.mem m →
        Pgflt p d v s { s with mem := m }
  | refused {m : Mem} :
      Mem.Extends d (· = v / 1024) s.mem m → Pgflt p d v s ({ s with mem := m }.kill p)

/--
There is no free page, but the one at virtual address 0, which is cleared instead. The page that was
missing gets the frame `V2P(0)`.
-/
structure OutOfMemory (p : ProcId) (d : BitVec 32) (v : Nat) (s s' : VmSys) : Prop where
  kalloc : s.mem.kalloc.1 = none
  lt : 4096 * v < (s.proc p).sz.toNat
  present : pteP (s.mem.walk d 0)
  absent : ¬ pteP (s.mem.walk d v)
  state : s' = { s.kill p with mem := s'.mem }
  mem : ∃ m, Mem.Pours d s.mem m ∧ Mem.Grows d m s'.mem ∧
    (∀ i, i ≠ v / 1024 → s'.mem.entry d i = m.entry d i) ∧
    ∀ u, u < 2 ^ 20 → s'.mem.walk d u =
      if u = v then v2p 0 ||| (PTE_W ||| PTE_U) ||| PTE_P else s.mem.walk d u

theorem kfree_null (L : Layout) (m : Mem) : m.kfree L (v2p 0) = .error (.panic "kfree") := by
  have hv : p2v (v2p 0) = 0 := by decide
  have hlt : (0 : BitVec 32) < L.kend := by
    have h1 := L.kernlink_lt
    have h2 := L.data_lt
    rw [KERNLINK_toNat] at h1
    rw [BitVec.lt_def]
    simp only [BitVec.ofNat_eq_ofNat, BitVec.toNat_ofNat, Nat.zero_mod]
    omega
  unfold Mem.kfree
  simp only [hv, hlt, true_or, or_true, ↓reduceIte]

theorem get_zero (m : Mem) (h : pteP (m.entry d (pdx 0)))
    : m.get ⟨pteAddr (m.entry d (pdx 0)), ptx 0⟩ = m.walk d 0 :=
  Mem.get_eq_walk h

theorem walk_zero_of_mapNull {va : BitVec 32} (h : s.mapNull L d va = .ok s')
    : pteP (s.mem.walk d 0) := by
  unfold VmSys.mapNull at h
  rw [Mem.walkpgdir_false] at h
  split at h
  . contradiction
  next pte hpte =>
    split at hpte
    next hpde =>
      cases hpte
      rw [get_zero s.mem hpde] at h
      split at h
      . contradiction
      next hp => simpa using hp
    . contradiction

theorem mapNull_cases {v : Nat} (h : s.mapNull L d (pageAddr v) = .ok s')
    (howned : Mem.Owned L s.mem d) (hv : v < 2 ^ 19)
    : ¬ pteP (s.mem.walk d v) ∧ s' = { s with mem := s'.mem } ∧
        ∃ m, Mem.Pours d s.mem m ∧ Mem.Grows d m s'.mem ∧
          (∀ i, i ≠ v / 1024 → s'.mem.entry d i = m.entry d i) ∧
          ∀ u, u < 2 ^ 20 → s'.mem.walk d u =
            if u = v then v2p 0 ||| (PTE_W ||| PTE_U) ||| PTE_P else s.mem.walk d u := by
  have hp := walk_zero_of_mapNull h
  have hpde : pteP (s.mem.entry d (pdx 0)) := Mem.pde_of_walk hp
  unfold VmSys.mapNull at h
  rw [Mem.walkpgdir_false, if_pos hpde] at h
  simp only at h
  rw [get_zero s.mem hpde, if_neg (by simp [hp])] at h
  have hpours : Mem.Pours d s.mem (s.mem.memset (pteAddr (s.mem.walk d 0)) 0) :=
    Mem.pours_update (by omega) hp _
  generalize s.mem.memset (pteAddr (s.mem.walk d 0)) 0 = m₁ at h hpours
  have hvalid := (hpours.owned howned).valid
  have hwalk : ∀ u, u < 2 ^ 20 → m₁.walk d u = s.mem.walk d u :=
    fun u hu => hpours.walk howned hu
  by_cases hpv : pteP (m₁.walk d v)
  . rw [Mem.mappages_remap (by omega) hpv] at h
    contradiction
  . have hmap : ∃ r m', m₁.mappages d (pageAddr v) 4096 (v2p 0) (PTE_W ||| PTE_U) = .ok (r, m') ∧
        Mem.Grows d m₁ m' ∧ (∀ i, i ≠ v / 1024 → m'.entry d i = m₁.entry d i) ∧
        ∀ u, u < 2 ^ 20 → m'.walk d u =
          if u = v ∧ r = true then v2p 0 ||| (PTE_W ||| PTE_U) ||| PTE_P else m₁.walk d u :=
      hvalid.mappages_page (by omega) hpv
    rcases hmap with ⟨r, m₂, hok, hgrows, hentry, hmapped⟩
    rw [hok, Fold.ok_bind] at h
    cases r with
    | false =>
      simp only [Bool.false_eq_true, ↓reduceIte] at h
      rw [kfree_null] at h
      contradiction
    | true =>
      cases h
      refine ⟨by rw [← hwalk v (by omega)]; exact hpv, rfl, m₁, hpours, hgrows, hentry, ?_⟩
      intro u hu
      rw [hmapped u hu, hwalk u hu]
      simp

theorem null_cases {v : Nat} {nested : Except Fault VmSys}
    (hnested : ¬ pteP (s.mem.walk d 0) → nested ≠ .ok s')
    (h : (match (s.mem.walkpgdir d 0 false).1 with
      | none => nested
      | some pte => if pteP (s.mem.get pte) then s.mapNull L d (pageAddr v) else nested) = .ok s')
    : pteP (s.mem.walk d 0) ∧ s.mapNull L d (pageAddr v) = .ok s' := by
  by_cases hp : pteP (s.mem.walk d 0)
  . have hpde : pteP (s.mem.entry d (pdx 0)) := Mem.pde_of_walk hp
    rw [Mem.walkpgdir_false, if_pos hpde] at h
    simp only at h
    rw [get_zero s.mem hpde, if_pos hp] at h
    exact ⟨hp, h⟩
  . exfalso
    apply hnested hp
    rw [Mem.walkpgdir_false] at h
    split at h
    . exact h
    next pte hpte =>
      split at hpte
      next hpde =>
        cases hpte
        rw [get_zero s.mem hpde, if_neg hp] at h
        exact h
      . contradiction

-- After a nested fault page 0 is still absent, or `mappages` finds it present.
theorem nested_fails {s₁ : VmSys} (howned : Mem.Owned L s.mem d) (hp : ¬ pteP (s.mem.walk d 0))
    (h : s₁.mapNull L d 0 = .ok s') (hcases : Pgflt p d 0 s s₁ ∨ OutOfMemory p d 0 s s₁)
    : False := by
  have hp₁ := walk_zero_of_mapNull h
  cases hcases with
  | inl hpgflt =>
    cases hpgflt with
    | ignored _ => exact hp hp₁
    | killed => exact hp hp₁
    | mapped _ _ hallocs =>
      have habsent := (mapNull_cases (v := 0) h (hallocs.owned howned) (by omega)).1
      exact habsent hp₁
    | refused hext =>
      apply hp
      rw [← hext.walk 0 (by omega)]
      exact hp₁
  | inr hoom => exact hp hoom.present

-- What remains of the case when `kalloc` has failed, if the nested fault has one of the outcomes.
theorem outOfMemory_of_kalloc {v : Nat} {m₁ : Mem} (hkalloc : s.mem.kalloc = (none, m₁))
    (howned : Mem.Owned L s.mem d) (hd : (s.proc p).pgdir = some d)
    (hsz : (s.proc p).sz.toNat ≤ 2 ^ 31) (hlt : 4096 * v < (s.proc p).sz.toNat)
    (hcases : ∀ {s₁ s₂}, trapPgflt L p fuel s₁ 0 2 = .ok s₂ → Mem.Owned L s₁.mem d →
      (s₁.proc p).pgdir = some d → (s₁.proc p).sz.toNat ≤ 2 ^ 31 →
      Pgflt p d 0 s₁ s₂ ∨ OutOfMemory p d 0 s₁ s₂)
    (h : (do
        let s := { s with mem := m₁ }.modifyProc p ({ · with killed := true })
        let pgdir ← s.pgdir p
        let nested := do
          let s ← trapPgflt L p fuel s 0 2
          s.mapNull L pgdir 0
        match (s.mem.walkpgdir pgdir 0 false).1 with
        | none => nested
        | some pte => if pteP (s.mem.get pte) then s.mapNull L pgdir (pageAddr v) else nested) = .ok s')
    : OutOfMemory p d v s s' := by
  have hv : v < 2 ^ 19 := by omega
  rcases Mem.kalloc_none hkalloc with ⟨hphys, hfree⟩
  have howned₁ := howned.kalloc_none hkalloc
  have hwalk : ∀ u, m₁.walk d u = s.mem.walk d u := by
    intro u
    unfold Mem.walk Mem.entry
    rw [hphys]
  generalize hs₁ : { s with mem := m₁ }.kill p = s₁
  have hmem : s₁.mem = m₁ := by
    rw [← hs₁]
    rfl
  have hd₁ : (s₁.proc p).pgdir = some d := by
    rw [← hs₁]
    simpa using hd
  have hsz₁ : (s₁.proc p).sz = (s.proc p).sz := by
    rw [← hs₁]
    simp
  have hkill : ({ s with mem := m₁ } : VmSys).modifyProc p ({ · with killed := true }) = s₁ := hs₁
  rw [hkill] at h
  simp only at h
  rw [pgdir_eq hd₁, Fold.ok_bind] at h
  rw [← hmem] at howned₁
  have hnested : ¬ pteP (s₁.mem.walk d 0) →
      (trapPgflt L p fuel s₁ 0 2 >>= fun s => s.mapNull L d 0) ≠ .ok s' := by
    intro hp hok
    rcases Fold.bind_eq_ok hok with ⟨s₂, hres, hok⟩
    exact nested_fails howned₁ hp hok (hcases hres howned₁ hd₁ (by rw [hsz₁]; exact hsz))
  rcases null_cases hnested h with ⟨hp, hnull⟩
  rcases mapNull_cases hnull howned₁ hv with ⟨habsent, hstate, m₂, hpours, hgrows, hpost⟩
  refine ⟨by rw [hkalloc], hlt, ?_, ?_, ?_, m₂, ?_, hgrows, ?_⟩
  . rw [hmem, hwalk] at hp
    exact hp
  . rw [hmem, hwalk] at habsent
    exact habsent
  . rw [hstate, ← hs₁]
    rfl
  . have huser : m₁.user d = s.mem.user d := Mem.user_congr (fun u _ => hwalk u)
    rw [hmem] at hpours
    refine ⟨by rw [hpours.free, hfree], ?_⟩
    intro x hx
    rw [hpours.frame x (by rw [huser]; exact hx), hphys]
  . simp only [hmem, hwalk] at hpost
    exact hpost

theorem trapPgflt_cases (h : trapPgflt L p fuel s cr2 err = .ok s')
    (howned : Mem.Owned L s.mem d) (hd : (s.proc p).pgdir = some d)
    (hsz : (s.proc p).sz.toNat ≤ 2 ^ 31)
    : Pgflt p d (cr2.toNat / 4096) s s' ∨ OutOfMemory p d (cr2.toNat / 4096) s s' := by
  induction fuel generalizing s s' cr2 err with
  | zero => contradiction
  | succ fuel ih =>
    have hva := pageAddr_vpn cr2
    have hround := pgrounddown_toNat cr2
    unfold trapPgflt at h
    simp only at h
    split at h
    . cases h
      exact .inl .killed
    . split at h
      . cases h
        exact .inl .killed
      . split at h
        next hlt =>
          rw [BitVec.lt_def, hround] at hlt
          rw [← hva] at h
          generalize cr2.toNat / 4096 = v at *
          have hv : v < 2 ^ 19 := by omega
          split at h
          next mem m₁ hkalloc =>
            rw [pgdir_eq hd, Fold.ok_bind] at h
            by_cases hp : pteP (s.mem.walk d v)
            . rw [← howned.walk_zeroed hkalloc (by omega)] at hp
              rw [Mem.mappages_remap (by omega) hp] at h
              contradiction
            . rcases howned.addZeroPage hv hp hkalloc with ⟨r, m₂, hok, htrue, hfalse⟩
              rw [hok, Fold.ok_bind] at h
              cases r with
              | true =>
                cases h
                exact .inl (.mapped hlt hp (htrue rfl))
              | false =>
                rcases (hfalse rfl).kfree howned with ⟨m₃, hok₃, hext⟩
                simp only [Bool.false_eq_true, ↓reduceIte] at h
                rw [hok₃, Fold.ok_bind] at h
                cases h
                exact .inl (.refused hext)
          next m₁ hkalloc =>
            exact .inr (outOfMemory_of_kalloc hkalloc howned hd hsz hlt ih h)
        next hge =>
          rw [BitVec.lt_def, hround] at hge
          cases h
          exact .inl (.ignored (by omega))

theorem trapPgflt_outOfMemory (h : trapPgflt L p fuel s cr2 err = .ok s')
    (howned : Mem.Owned L s.mem d) (hd : (s.proc p).pgdir = some d)
    (hsz : (s.proc p).sz.toNat ≤ 2 ^ 31) (herr : err &&& 7 ≠ 7)
    (hlt : pgrounddown cr2 < (s.proc p).sz) (hk : s.mem.kalloc.1 = none)
    : OutOfMemory p d (cr2.toNat / 4096) s s' := by
  cases fuel with
  | zero => contradiction
  | succ fuel =>
    have hva := pageAddr_vpn cr2
    have hbelow := hlt
    rw [BitVec.lt_def, pgrounddown_toNat] at hbelow
    have hnot : ¬ (pgrounddown cr2 ≥ (s.proc p).sz ∧ err &&& 6 ≠ 0) := fun h =>
      BitVec.not_le.mpr hlt h.1
    rcases hkalloc : s.mem.kalloc with ⟨r, m₁⟩
    rw [hkalloc] at hk
    simp only at hk
    rw [hk] at hkalloc
    unfold trapPgflt at h
    simp only [if_neg herr, if_neg hnot, if_pos hlt, hkalloc] at h
    rw [← hva] at h
    exact outOfMemory_of_kalloc hkalloc howned hd hsz hbelow trapPgflt_cases h

theorem OutOfMemory.frame {v : Nat} (h : OutOfMemory p d v s s') (hv : v < 2 ^ 19)
    : pteP (s'.mem.walk d v) ∧ pteAddr (s'.mem.walk d v) = v2p 0 := by
  rcases h.mem with ⟨m, _, _, _, hwalk⟩
  rw [hwalk v (by omega), if_pos rfl]
  decide

theorem OutOfMemory.nodup {v : Nat} (h : OutOfMemory p d v s s') (howned : Mem.Owned L s.mem d)
    (hv : v < 2 ^ 19)
    : (s'.mem.own d).Nodup := by
  rcases h.frame hv with ⟨hp, hframe⟩
  rcases h.mem with ⟨m, hpours, hgrows, _, hwalk⟩
  have htables : s'.mem.tables d + s'.mem.free = s.mem.tables d + s.mem.free := by
    rw [hgrows.conserve, Mem.tables_congr (hpours.phys_tables howned), hpours.free]
  have huser : s'.mem.user d = s.mem.user d + {v2p 0} := by
    have hkeep : ∀ u, u < 2 ^ 19 → u ≠ v → s'.mem.walk d u = s.mem.walk d u := by
      intro u hu hne
      rw [hwalk u (by omega), if_neg hne]
    have hupdate := Mem.user_update hv hkeep
    rw [Mem.frameOf_of_absent (Bool.eq_false_of_not_eq_true h.absent), add_zero,
      Mem.frameOf_of_present hp, hframe] at hupdate
    exact hupdate
  have hnull : v2p 0 ∉ s.mem.own d + s.mem.free := by
    intro hin
    have hman := (howned.managed _ hin).2.2
    have hvalue : (v2p 0).toNat = 0x80000000 := by decide
    omega
  have hle : s'.mem.tables d + s.mem.user d ≤ s.mem.own d + s.mem.free := by
    calc s'.mem.tables d + s.mem.user d
      _ ≤ s'.mem.tables d + s'.mem.free + s.mem.user d :=
        add_le_add (Multiset.le_add_right _ _) le_rfl
      _ = s.mem.own d + s.mem.free := by
        rw [htables, Mem.own_add_free]
  unfold Mem.own
  rw [huser, ← add_assoc, add_comm, Multiset.singleton_add, Multiset.nodup_cons]
  exact ⟨fun hin => hnull (Multiset.mem_of_le hle hin), Multiset.nodup_of_le hle howned.nodup⟩

-- exit comes to the frame `V2P(0)`, which `kfree` refuses
theorem OutOfMemory.exit_fails {v : Nat} {t : VmSys} (h : OutOfMemory p d v s s')
    (howned : Mem.Owned L s.mem d) (hd : (s.proc p).pgdir = some d)
    (hsz : (s.proc p).sz.toNat ≤ 2 ^ 31)
    : s'.exit L p ≠ .ok t := by
  intro hok
  have hlt := h.lt
  have hv : v < 2 ^ 19 := by omega
  have hd' : (s'.proc p).pgdir = some d := by
    rw [h.state]
    simpa using hd
  unfold VmSys.exit at hok
  split at hok
  . contradiction
  . simp only at hok
    rw [pgdir_eq (d := d) (by simp only; split <;> exact hd'), Fold.ok_bind] at hok
    rcases Fold.bind_eq_ok hok with ⟨r, hdealloc, _⟩
    rcases h.frame hv with ⟨hp, hframe⟩
    have hman := Mem.deallocuvm_all_managed (h.nodup howned hv) hdealloc hv hp
    rw [hframe] at hman
    have hvalue : (v2p 0).toNat = 0x80000000 := by decide
    have := hman.2.2
    omega

theorem Pgflt.steps {v : Nat} (hs : Inv L s) (hp : (s.proc p).state ≠ .unused)
    (hzombie : (s.proc p).state ≠ .zombie) (hd : (s.proc p).pgdir = some d)
    (h : Pgflt p d v s s')
    : Steps p s s' := by
  have hmoves : ∀ m', Mem.Moves d s.mem m' → Steps p s { s with mem := m' } ∧
      Steps p s ({ s with mem := m' }.kill p) := by
    intro m' hm'
    constructor
    . apply Steps.of_moves hs hp hd hm'
      . intro q _
        exact .refl _
      . rfl
      . rfl
      . rfl
      . exact hp
      . intro hz
        exact absurd hz hzombie
      . exact hs.sz p hp
    . have hsame := kill_sameSpace { s with mem := m' } p
      rcases hsame p with ⟨hstate, hkstack, hpgdir, hsz⟩
      apply Steps.of_moves hs hp hd hm'
      . intro q _
        exact hsame q
      . rfl
      . exact hkstack
      . exact hpgdir
      . rw [hstate]
        exact hp
      . intro hz
        rw [hstate] at hz
        exact absurd hz hzombie
      . rw [hsz]
        exact hs.sz p hp
  have hrefl := Mem.Moves.refl d s.mem
  cases h with
  | ignored _ => exact (hmoves s.mem hrefl).1
  | killed => exact (hmoves s.mem hrefl).2
  | mapped _ _ hallocs => exact (hmoves _ hallocs.moves).1
  | refused hext => exact (hmoves _ hext.moves).2

end VmSys

end Xv6
