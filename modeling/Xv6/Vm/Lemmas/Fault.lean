import Xv6.Vm.Lemmas.Confine

/-!
Page faults in user mode: which accesses are survived, and what happens when there is no memory.
-/

namespace Xv6

namespace Mem

variable {L : Layout} {m m' : Mem} {d pa perm : BitVec 32} {v : Nat}

theorem kalloc_freelist_some (h : m.kalloc = (some pa, m')) : m.freelist = pa :: m'.freelist := by
  unfold kalloc at h
  split at h
  . simp at h
  . simp only at h
    split at h
    . simp at h
    next r freelist hlist =>
      cases h
      exact hlist

theorem kalloc_freelist_none (h : m.kalloc = (none, m')) : m'.freelist = m.freelist := by
  unfold kalloc at h
  split at h
  . cases h
    rfl
  . simp only at h
    split at h
    . cases h
      rfl
    . simp at h

theorem kalloc_memset (m : Mem) (x : BitVec 32) (c : BitVec 8)
    : (m.memset x c).kalloc.1 = m.kalloc.1 := by
  unfold kalloc memset
  simp only
  split
  . rfl
  . split <;> rfl

theorem kfree_freelist (h : m.kfree L pa = .ok m') : m'.freelist = pa :: m.freelist := by
  unfold kfree at h
  simp only at h
  split at h
  . contradiction
  . cases h
    rfl

theorem kfree_phys_of_ne {x : BitVec 32} (h : m.kfree L pa = .ok m') (hx : x ≠ pa)
    : m'.phys x = m.phys x := by
  unfold kfree at h
  simp only at h
  split at h
  . contradiction
  . cases h
    simp only
    rw [setEntry_phys_of_ne _ _ _ hx, memset_phys_of_ne _ _ hx]

theorem entry_setEntry_of_ne (m : Mem) {t x : BitVec 32} (i : Nat) (w : BitVec 32) (j : Nat)
    (h : x ≠ t)
    : (m.setEntry t i w).entry x j = m.entry x j :=
  entry_congr (setEntry_phys_of_ne m i w h) j

theorem mappages_none (hv : v < 2 ^ 20) (hpde : ¬ pteP (m.entry d (v / 1024)))
    (hkalloc : m.kalloc = (none, m'))
    : m.mappages d (pageAddr v) 4096 pa perm = .ok (false, m') := by
  have hdown : pgrounddown (pageAddr v) = pageAddr v := by
    apply pteAddr_of_aligned
    rw [pageAddr_toNat hv]
    omega
  have hwalk : m.walkpgdir d (pageAddr v) true = (none, m') := by
    unfold walkpgdir
    rw [pdx_pageAddr hv]
    simp only [if_neg hpde, hkalloc]
    rfl
  unfold Mem.mappages
  rw [hdown, NPAGES_eq]
  unfold mappages.loop
  rw [hwalk]

end Mem

namespace VmSys

variable {L : Layout} {s t : VmSys} {p : ProcId} {d cr2 err w mem : BitVec 32} {m₁ : Mem}
  {fuel v : Nat}

-- the error code of an access in user mode to a page with the entry `w`
def errcode (w : BitVec 32) (write : Bool) : BitVec 32 :=
  (if pteP w then 1 else 0) ||| (if write then 2 else 0) ||| 4

theorem errcode_user (w : BitVec 32) (write : Bool) : errcode w write &&& 6 ≠ 0 := by
  unfold errcode
  cases pteP w <;> cases write <;> decide

theorem errcode_present (h : pteP w) : errcode w true &&& 7 = 7 := by
  unfold errcode
  rw [h]
  decide

theorem errcode_absent (h : ¬ pteP w) (write : Bool) : errcode w write &&& 7 ≠ 7 := by
  unfold errcode
  rw [Bool.eq_false_of_not_eq_true h]
  cases write <;> decide

theorem trapPgflt_violation (h : err &&& 7 = 7)
    : trapPgflt L p (fuel + 1) s cr2 err = .ok (s.kill p) := by
  unfold trapPgflt
  rw [if_pos h]
  rfl

theorem trapPgflt_beyond (h : err &&& 6 ≠ 0) (hsz : (s.proc p).sz ≤ pgrounddown cr2)
    : trapPgflt L p (fuel + 1) s cr2 err = .ok (s.kill p) := by
  by_cases herr : err &&& 7 = 7
  . exact trapPgflt_violation herr
  . unfold trapPgflt
    rw [if_neg herr, if_pos ⟨hsz, h⟩]
    rfl

theorem trapPgflt_remap (howned : Mem.Owned L s.mem d) (hd : (s.proc p).pgdir = some d)
    (herr : err &&& 7 ≠ 7) (hlt : pgrounddown cr2 < (s.proc p).sz)
    (hpresent : pteP (s.mem.walk d (cr2.toNat / 4096))) (hk : s.mem.kalloc.1 ≠ none)
    : trapPgflt L p (fuel + 1) s cr2 err = .error (.panic "remap") := by
  have hva := pageAddr_vpn cr2
  rcases hkalloc : s.mem.kalloc with ⟨_ | mem, m₁⟩
  . rw [hkalloc] at hk
    exact absurd rfl hk
  . have hv : cr2.toNat / 4096 < 2 ^ 20 := by omega
    rw [← howned.walk_zeroed hkalloc hv] at hpresent
    have hnot : ¬ (pgrounddown cr2 ≥ (s.proc p).sz ∧ err &&& 6 ≠ 0) := fun h =>
      BitVec.not_le.mpr hlt h.1
    unfold trapPgflt
    simp only [if_neg herr, if_neg hnot, if_pos hlt, hkalloc]
    rw [pgdir_eq hd, Fold.ok_bind, ← hva, Mem.mappages_remap hv hpresent]
    rfl

theorem trapPgflt_absent (howned : Mem.Owned L s.mem d) (hd : (s.proc p).pgdir = some d)
    (hsz : (s.proc p).sz.toNat ≤ 2 ^ 31) (herr : err &&& 7 ≠ 7) (hv : cr2.toNat / 4096 = v)
    (hlt : pgrounddown cr2 < (s.proc p).sz) (habsent : ¬ pteP (s.mem.walk d v))
    (hkalloc : s.mem.kalloc = (some mem, m₁)) (fuel : Nat)
    : ∃ r m', (m₁.memset mem 0).mappages d (pageAddr v) 4096 mem (PTE_W ||| PTE_U) = .ok (r, m') ∧
        (r = true → trapPgflt L p (fuel + 1) s cr2 err = .ok { s with mem := m' } ∧
          Mem.AllocsZero d (· = v) s.mem m') ∧
        (r = false → ∃ m'', m'.kfree L mem = .ok m'' ∧
          trapPgflt L p (fuel + 1) s cr2 err = .ok ({ s with mem := m'' }.kill p) ∧
          Mem.Extends d (· = v / 1024) s.mem m'') := by
  have hva := pageAddr_vpn cr2
  rw [hv] at hva
  have hbound : v < 2 ^ 19 := by
    rw [BitVec.lt_def, pgrounddown_toNat] at hlt
    omega
  have hnot : ¬ (pgrounddown cr2 ≥ (s.proc p).sz ∧ err &&& 6 ≠ 0) := fun h =>
    BitVec.not_le.mpr hlt h.1
  rcases howned.addZeroPage hbound habsent hkalloc with ⟨r, m', hok, htrue, hfalse⟩
  have htrap : trapPgflt L p (fuel + 1) s cr2 err =
      if r then .ok { s with mem := m' } else do
        let m ← m'.kfree L mem
        return { s with mem := m }.kill p := by
    unfold trapPgflt
    simp only [if_neg herr, if_neg hnot, if_pos hlt, hkalloc]
    rw [pgdir_eq hd, Fold.ok_bind, ← hva, hok, Fold.ok_bind]
    rfl
  refine ⟨r, m', hok, ?_, ?_⟩
  . intro hr
    rw [htrap, if_pos hr]
    exact ⟨rfl, htrue hr⟩
  . intro hr
    rcases (hfalse hr).kfree howned with ⟨m'', hfreed, hext⟩
    refine ⟨m'', hfreed, ?_, hext⟩
    rw [htrap, if_neg (by rw [hr]; decide), hfreed]
    rfl

theorem Inv.user_fault (hinv : Inv L t) (hp : t.Active p) (hd : (t.proc p).pgdir = some d)
    (cr2 : BitVec 32) (write : Bool)
    (hread : write = true ∨ ¬ pteP (t.mem.walk d (cr2.toNat / 4096)) ∨
      (t.proc p).sz ≤ pgrounddown cr2)
    (hk : t.mem.kalloc.1 ≠ none) (fuel : Nat)
    : ∃ u, trapPgflt L p (fuel + 1) t cr2
          (errcode (t.mem.walk d (cr2.toNat / 4096)) write) = .ok u ∧
        ((∃ m, u = { t with mem := m } ∧ pgrounddown cr2 < (t.proc p).sz ∧
            ¬ pteP (t.mem.walk d (cr2.toNat / 4096)) ∧
            Mem.AllocsZero d (· = cr2.toNat / 4096) t.mem m) ∨
          ∃ m, u = { t with mem := m }.kill p ∧ ∀ n, n < 2 ^ 20 → m.walk d n = t.mem.walk d n) := by
  have howned := hinv.owned hp.1 hd
  by_cases hsz : (t.proc p).sz ≤ pgrounddown cr2
  . refine ⟨t.kill p, trapPgflt_beyond (errcode_user _ _) hsz, .inr ⟨t.mem, rfl, fun _ _ => rfl⟩⟩
  . have hlt : pgrounddown cr2 < (t.proc p).sz := by
      rw [BitVec.le_def] at hsz
      rw [BitVec.lt_def]
      omega
    by_cases hpresent : pteP (t.mem.walk d (cr2.toNat / 4096))
    . have hwrite : write = true := by
        rcases hread with h | h | h
        . exact h
        . exact absurd hpresent h
        . exact absurd h hsz
      subst hwrite
      exact ⟨t.kill p, trapPgflt_violation (errcode_present hpresent),
        .inr ⟨t.mem, rfl, fun _ _ => rfl⟩⟩
    . rcases hkalloc : t.mem.kalloc with ⟨_ | mem, m₁⟩
      . rw [hkalloc] at hk
        exact absurd rfl hk
      . rcases trapPgflt_absent howned hd (hinv.sz p hp.1) (errcode_absent hpresent write) rfl
          hlt hpresent hkalloc fuel with ⟨r, m', _, htrue, hfalse⟩
        cases r with
        | true => exact ⟨_, (htrue rfl).1, .inl ⟨m', rfl, hlt, hpresent, (htrue rfl).2⟩⟩
        | false =>
          rcases hfalse rfl with ⟨m'', _, htrap, hext⟩
          exact ⟨_, htrap, .inr ⟨m'', rfl, hext.walk⟩⟩

theorem errcode_read (h : pteP w) : errcode w false &&& 7 ≠ 7 := by
  unfold errcode
  rw [h]
  decide

/--
A fault of an access in user mode gives the process the missing page, or kills it and leaves its
translations as they are, unless it is the read of a page below sz that is there: such a read faults
on the page under the stack, which is then mapped a second time.
-/
theorem user_fault_contained {es : List Event} (hs : Inv L s) (hrun : EventRun L s es t)
    (hp : t.Active p) (hd : (t.proc p).pgdir = some d) (cr2 : BitVec 32) (write : Bool)
    (hk : t.mem.kalloc.1 ≠ none) (fuel : Nat)
    : (∃ u, trapPgflt L p (fuel + 1) t cr2
          (errcode (t.mem.walk d (cr2.toNat / 4096)) write) = .ok u ∧
        ((∃ m, u = { t with mem := m } ∧ pgrounddown cr2 < (t.proc p).sz ∧
            ¬ pteP (t.mem.walk d (cr2.toNat / 4096)) ∧
            Mem.AllocsZero d (· = cr2.toNat / 4096) t.mem m) ∨
          ∃ m, u = { t with mem := m }.kill p ∧ ∀ n, n < 2 ^ 20 → m.walk d n = t.mem.walk d n)) ↔
        write = true ∨ ¬ pteP (t.mem.walk d (cr2.toNat / 4096)) ∨
          (t.proc p).sz ≤ pgrounddown cr2 := by
  have hinv : Inv L t := hrun.invariant (fun _ _ _ h hrange hstep => h.step hrange hstep) hs
  refine ⟨?_, fun hread => hinv.user_fault hp hd cr2 write hread hk fuel⟩
  rintro ⟨u, hok, _⟩
  by_contra hout
  rw [not_or, not_or, Bool.not_eq_true, Classical.not_not, BitVec.not_le] at hout
  rcases hout with ⟨hwrite, hpresent, hlt⟩
  subst hwrite
  rw [trapPgflt_remap (hinv.owned hp.1 hd) hd (errcode_read hpresent) hlt hpresent hk] at hok
  contradiction

theorem trapPgflt_no_table (howned : Mem.Owned L s.mem d) (hd : (s.proc p).pgdir = some d)
    (hsz : (s.proc p).sz.toNat ≤ 2 ^ 31) (herr : err &&& 7 ≠ 7)
    (hlt : pgrounddown cr2 < (s.proc p).sz) (hpde : ¬ pteP (s.mem.entry d (pdx cr2)))
    (hkalloc : s.mem.kalloc = (some mem, m₁)) (hfail : m₁.kalloc.1 = none) (fuel : Nat)
    : ∃ m, trapPgflt L p (fuel + 1) s cr2 err = .ok ({ s with mem := m }.kill p) ∧
        Mem.Extends d (· = cr2.toNat / 4096 / 1024) s.mem m ∧ m.freelist = s.mem.freelist ∧
        ∀ x, x ∉ s.mem.free → m.phys x = s.mem.phys x := by
  generalize hv : cr2.toNat / 4096 = v
  rw [pdx_eq, hv] at hpde
  have hbound : v < 2 ^ 20 := by omega
  have habsent : ¬ pteP (s.mem.walk d v) := by
    unfold Mem.walk
    rw [if_neg hpde, pteP_zero]
    decide
  have hlist := Mem.kalloc_freelist_some hkalloc
  have hmem : mem ∈ s.mem.free := by
    rw [(Mem.kalloc_some hkalloc).2]
    exact Multiset.mem_cons_self _ _
  have hother : ∀ x, x ≠ mem → (m₁.memset mem 0).phys x = s.mem.phys x := fun x hx =>
    Mem.memset_kalloc_phys 0 hkalloc hx
  have hsame := howned.phys_tables hmem hother d (Mem.self_mem_tables _ _)
  rw [← Mem.entry_congr hsame] at hpde
  rcases hkalloc₂ : (m₁.memset mem 0).kalloc with ⟨r₂, m₂⟩
  have hr₂ : r₂ = none := by
    have := Mem.kalloc_memset m₁ mem 0
    rw [hkalloc₂, hfail] at this
    exact this
  subst hr₂
  rcases trapPgflt_absent howned hd hsz herr hv hlt habsent hkalloc fuel
    with ⟨r, m', hok, _, hfalse⟩
  rw [Mem.mappages_none hbound hpde hkalloc₂] at hok
  cases hok
  rcases hfalse rfl with ⟨m, hkfree, htrap, hext⟩
  refine ⟨m, htrap, hext, ?_, ?_⟩
  . rw [Mem.kfree_freelist hkfree, Mem.kalloc_freelist_none hkalloc₂, hlist]
    rfl
  . intro x hx
    have hxne : x ≠ mem := by
      intro heq
      rw [heq] at hx
      exact hx hmem
    rw [Mem.kfree_phys_of_ne hkfree hxne, (Mem.kalloc_none hkalloc₂).1, hother x hxne]

/--
The process is killed, the pages in use, the translations and the free list are as before, and the
process can exit at any later time.
-/
structure Contained (L : Layout) (p : ProcId) (s : VmSys) (m : Mem) : Prop where
  phys : ∀ x, x ∉ s.mem.free → m.phys x = s.mem.phys x
  freelist : m.freelist = s.mem.freelist
  walk : ∀ q e n, (s.proc q).state ≠ .unused → (s.proc q).pgdir = some e → n < 2 ^ 20 →
    m.walk e n = s.mem.walk e n
  exit : ∀ es u, EventRun L ({ s with mem := m }.kill p) es u → u.Active p →
    (∃ e r, (u.proc p).pgdir = some e ∧ u.mem.deallocuvm L e KERNBASE 0 = .ok r) ∧
      (u.initproc ≠ some p → ∃ w, u.exit L p = .ok w)

theorem Inv.contained_no_table (hs : Inv L s) (hp : s.Active p) (hd : (s.proc p).pgdir = some d)
    (herr : err &&& 7 ≠ 7) (hlt : pgrounddown cr2 < (s.proc p).sz)
    (hpde : ¬ pteP (s.mem.entry d (pdx cr2))) (hkalloc : s.mem.kalloc = (some mem, m₁))
    (hfail : m₁.kalloc.1 = none) (fuel : Nat)
    : ∃ m, trapPgflt L p (fuel + 1) s cr2 err = .ok ({ s with mem := m }.kill p) ∧
        Contained L p s m := by
  rcases trapPgflt_no_table (hs.owned hp.1 hd) hd (hs.sz p hp.1) herr hlt hpde hkalloc hfail
    fuel with ⟨m, htrap, hext, hlist, hphys⟩
  refine ⟨m, htrap, hphys, hlist, ?_, ?_⟩
  . intro q e n hq he hn
    apply Mem.walk_congr _ hn
    intro x hx
    apply hphys
    exact Multiset.disjoint_left.mp (Multiset.nodup_add.mp (hs.owned hq he).valid.nodup).2.2 hx
  . intro es u hrun hactive
    have hinv : Inv L u :=
      hrun.invariant (fun _ _ _ h hrange hstep => h.step hrange hstep)
        ((Pgflt.steps hs hp.1 hp.2 hd (.refused hext)).inv hs)
    rcases hinv.pgdir p hactive.1 with ⟨e, he⟩
    constructor
    . rcases (hinv.owned hactive.1 he).deallocuvm_all with ⟨m', hok, _⟩
      exact ⟨e, _, he, hok⟩
    . intro hinit
      rcases hinv.exit hactive.1 hinit he with ⟨w, hok, _⟩
      exact ⟨w, hok⟩

/--
`kalloc` fails for the page of the data or for the page table. The fault is contained if it is the
page table; for want of the page of the data, the missing page gets the frame `V2P(0)`.
-/
theorem pgflt_no_memory_contained (hs : Inv L s) (hp : s.Active p) (hd : (s.proc p).pgdir = some d)
    (cr2 err : BitVec 32) (herr : err &&& 7 ≠ 7) (hlt : pgrounddown cr2 < (s.proc p).sz)
    (habsent : ¬ pteP (s.mem.walk d (cr2.toNat / 4096)))
    (hfail : s.mem.kalloc.1 = none ∨
      ¬ pteP (s.mem.entry d (pdx cr2)) ∧ s.mem.kalloc.2.kalloc.1 = none) (fuel : Nat)
    : (∃ m, trapPgflt L p (fuel + 1) s cr2 err = .ok ({ s with mem := m }.kill p) ∧
        Contained L p s m) ↔ s.mem.kalloc.1 ≠ none := by
  constructor
  . rintro ⟨m, htrap, hcontained⟩ hk
    have hoom := trapPgflt_outOfMemory htrap (hs.owned hp.1 hd) hd (hs.sz p hp.1) herr hlt hk
    have hbelow := hoom.lt
    have hsz := hs.sz p hp.1
    have hmapped := (hoom.frame (by omega)).1
    have hsame := hcontained.walk p d (cr2.toNat / 4096) hp.1 hd (by omega)
    apply habsent
    rw [← hsame]
    exact hmapped
  . intro hk
    rcases hkalloc : s.mem.kalloc with ⟨_ | mem, m₁⟩
    . rw [hkalloc] at hk
      exact absurd rfl hk
    . rw [hkalloc] at hfail
      have htable := hfail.resolve_left nofun
      exact hs.contained_no_table hp hd herr hlt htable.1 hkalloc htable.2 fuel

/-!
A process with three entries in its page table; the first frame holds a word of data.
-/

def laidMem (w₀ w₁ w₂ : BitVec 32) : Mem :=
  ((((single.mem.setEntry 0x400000 0 0x402007).setEntry 0x402000 0 w₀).setEntry 0x402000 1
    w₁).setEntry 0x402000 2 w₂).setEntry 0x403000 0 0xff

def alone (m : Mem) (sz : BitVec 32) : VmSys where
  mem := m
  proc p :=
    if p = 0 then
      ⟨.runnable, none, some 0x401000, some 0x400000, sz, 0, sz, false⟩
    else
      ⟨.unused, none, none, none, 0, 0, 0, false⟩
  initproc := some 1
  pipes := []

theorem alone_pages (m : Mem) (sz : BitVec 32)
    : (alone m sz).pages = m.free + ({0x401000} + m.own 0x400000) := by
  have hsum : ∑ p, procPages m ((alone m sz).proc p) = procPages m ((alone m sz).proc 0) := by
    apply Finset.sum_eq_single_of_mem 0 (Finset.mem_univ 0)
    intro p _ hp
    apply procPages_unused
    simp [alone, hp]
  have hzero : procPages m ((alone m sz).proc 0) = {0x401000} + m.own 0x400000 :=
    procPages_used (by simp [alone]) rfl rfl
  unfold pages
  rw [show (alone m sz).mem = m from rfl, hsum, hzero]
  exact add_zero _

theorem alone_inv {m : Mem} {sz : BitVec 32} {l : List (BitVec 32)} (hsz : sz.toNat ≤ 2 ^ 31)
    (hl : m.free + ({0x401000} + m.own 0x400000) = l) (hnodup : l.Nodup)
    (hmanaged : ∀ x ∈ l, x.toNat % 4096 = 0 ∧ 0x300000 ≤ x.toNat ∧ x.toNat < 0xE000000)
    : Inv smallLayout (alone m sz) := by
  have hproc : ∀ p, ((alone m sz).proc p).state ≠ .unused → p = 0 := by
    intro p hp
    by_cases h : p = 0
    . exact h
    . simp [alone, h] at hp
  refine ⟨?_, ?_, ?_, ?_, ?_, ?_⟩
  . rw [alone_pages, hl]
    exact Multiset.coe_nodup.mpr hnodup
  . rw [alone_pages, hl]
    intro x hx
    rcases hmanaged x (Multiset.mem_coe.mp hx) with ⟨halign, hlow, hhigh⟩
    have hkend : smallLayout.kend.toNat = 0x80300000 := rfl
    exact ⟨halign, by omega, hhigh⟩
  . intro p hp
    rw [hproc p hp]
    exact ⟨_, rfl⟩
  . intro p hp
    rw [hproc p hp]
    exact ⟨_, rfl⟩
  . intro p hp
    rw [hproc p hp]
    exact hsz
  . intro p d hz _
    rw [hproc p (by rw [hz]; decide)] at hz
    contradiction

def laid (sz w₀ w₁ w₂ : BitVec 32) (freelist : List (BitVec 32)) : VmSys :=
  alone { laidMem w₀ w₁ w₂ with freelist := freelist } sz

section

variable (sz w₀ w₁ w₂ : BitVec 32) (freelist : List (BitVec 32))

theorem laidMem_pde (i : Nat)
    : (laidMem w₀ w₁ w₂).entry 0x400000 i = if i = 0 then 0x402007 else 0 := by
  unfold laidMem
  rw [Mem.entry_setEntry_of_ne _ _ _ _ (by decide), Mem.entry_setEntry_of_ne _ _ _ _ (by decide),
    Mem.entry_setEntry_of_ne _ _ _ _ (by decide), Mem.entry_setEntry_of_ne _ _ _ _ (by decide),
    Mem.entry_setEntry _ _ _ _ (by decide), single_entry]

theorem laidMem_pte (i : Nat)
    : (laidMem w₀ w₁ w₂).entry 0x402000 i =
        if i = 2 then w₂ else if i = 1 then w₁ else if i = 0 then w₀ else 0 := by
  unfold laidMem
  rw [Mem.entry_setEntry_of_ne _ _ _ _ (by decide), Mem.entry_setEntry _ _ _ _ (by decide),
    Mem.entry_setEntry _ _ _ _ (by decide), Mem.entry_setEntry _ _ _ _ (by decide),
    Mem.entry_setEntry_of_ne _ _ _ _ (by decide), single_entry]

theorem laid_entry (x : BitVec 32) (i : Nat)
    : (laid sz w₀ w₁ w₂ freelist).mem.entry x i = (laidMem w₀ w₁ w₂).entry x i := rfl

theorem laid_freelist : (laid sz w₀ w₁ w₂ freelist).mem.freelist = freelist := rfl

theorem laid_walk (v : Nat)
    : (laid sz w₀ w₁ w₂ freelist).mem.walk 0x400000 v =
        if v = 2 then w₂ else if v = 1 then w₁ else if v = 0 then w₀ else 0 := by
  unfold Mem.walk
  rw [laid_entry, laidMem_pde]
  by_cases h : v / 1024 = 0
  . rw [if_pos h, if_pos (by decide), laid_entry]
    rw [show pteAddr 0x402007 = 0x402000 by decide, laidMem_pte, Nat.mod_eq_of_lt (by omega)]
  . rw [if_neg h, if_neg (by decide), if_neg (by omega), if_neg (by omega), if_neg (by omega)]

theorem laid_tables : (laid sz w₀ w₁ w₂ freelist).mem.tables 0x400000 = {0x400000, 0x402000} := by
  have hsum : ∑ i ∈ Mem.pdIndices, Mem.frameOf ((laid sz w₀ w₁ w₂ freelist).mem.entry 0x400000 i) =
      Mem.frameOf ((laid sz w₀ w₁ w₂ freelist).mem.entry 0x400000 0) := by
    apply Finset.sum_eq_single_of_mem 0 (Mem.mem_pdIndices.mpr (by decide))
    intro i _ hi
    rw [laid_entry, laidMem_pde, if_neg hi, Mem.frameOf_of_absent pteP_zero]
  unfold Mem.tables
  rw [hsum, laid_entry, laidMem_pde, if_pos rfl]
  decide

theorem laid_user
    : (laid sz w₀ w₁ w₂ freelist).mem.user 0x400000 =
        Mem.frameOf w₀ + Mem.frameOf w₁ + Mem.frameOf w₂ := by
  have hsub : Finset.range 3 ⊆ Mem.userPages := by
    intro v hv
    rw [Finset.mem_range] at hv
    exact Mem.mem_userPages.mpr (by omega)
  unfold Mem.user
  rw [← Finset.sum_subset hsub]
  . simp only [laid_walk, Finset.sum_range_succ, Finset.sum_range_zero, zero_add]
    rfl
  . intro v _ hv
    rw [Finset.mem_range] at hv
    rw [laid_walk, if_neg (by omega), if_neg (by omega), if_neg (by omega),
      Mem.frameOf_of_absent pteP_zero]

variable {sz w₀ w₁ w₂ freelist} {l : List (BitVec 32)}

theorem laid_inv (hsz : sz.toNat ≤ 2 ^ 31)
    (hl : (freelist : Multiset (BitVec 32)) + ({0x401000} + ({0x400000, 0x402000} +
      (Mem.frameOf w₀ + Mem.frameOf w₁ + Mem.frameOf w₂))) = l)
    (hnodup : l.Nodup)
    (hmanaged : ∀ x ∈ l, x.toNat % 4096 = 0 ∧ 0x300000 ≤ x.toNat ∧ x.toNat < 0xE000000)
    : Inv smallLayout (laid sz w₀ w₁ w₂ freelist) := by
  apply alone_inv hsz _ hnodup hmanaged
  rw [← hl, ← laid_tables sz w₀ w₁ w₂ freelist, ← laid_user sz w₀ w₁ w₂ freelist]
  rfl

end

def guarded : VmSys :=
  laid 0x3000 0x403007 0x404003 0x405007 [0x406000]

theorem guarded_inv : Inv smallLayout guarded := by
  apply laid_inv (l := [0x406000, 0x401000, 0x400000, 0x402000, 0x403000, 0x404000, 0x405000])
  . decide
  . decide
  . decide
  . simp

-- A page more, which is written to, and two pages less.
theorem confined_of_eventRun_guarded
    : ∃ t, EventRun smallLayout guarded [.sbrk 0 4096, .pgflt 0 0x3000 6, .sbrk 0 (-8192)] t ∧
        (t.proc 0).sz = 0x2000 ∧ Confined smallLayout t 0 := by
  have hrun : EventRun smallLayout guarded [.sbrk 0 4096, .pgflt 0 0x3000 6, .sbrk 0 (-8192)] _ :=
    .cons (show ((guarded.proc 0).sz + 4096).toNat ≤ KERNBASE.toNat by decide)
      (.sbrk ⟨by decide, by decide⟩ rfl) <|
    .cons trivial (.pgflt ⟨by decide, by decide⟩ rfl) <|
    .cons (Nat.le_of_ble_eq_true rfl) (.sbrk ⟨by decide, by decide⟩ rfl) (.nil _)
  exact ⟨_, hrun, rfl, confined_of_eventRun guarded_inv hrun (by decide)⟩

theorem user_fault_contained_guarded
    : ∃ t u, EventRun smallLayout guarded [.sbrk 0 4096] t ∧
        trapPgflt smallLayout 0 1 t 0x3000 (errcode (t.mem.walk 0x400000 3) true) = .ok u := by
  have hrun : EventRun smallLayout guarded [.sbrk 0 4096]
      (guarded.modifyProc 0 ({ · with sz := (guarded.proc 0).sz + 4096 })) :=
    .cons (show ((guarded.proc 0).sz + 4096).toNat ≤ KERNBASE.toNat by decide)
      (.sbrk ⟨by decide, by decide⟩ rfl) (.nil _)
  rcases (user_fault_contained guarded_inv hrun (p := 0) (d := 0x400000) ⟨by decide, by decide⟩ rfl
    0x3000 true (by decide) 0).mpr (.inl rfl) with ⟨u, hok, _⟩
  exact ⟨_, u, hrun, hok⟩

-- A read of the page under the stack: trap maps the page again, and the kernel panics.
theorem guard_read_panics
    : Inv smallLayout guarded ∧ guarded.Active 0 ∧ guarded.mem.kalloc.1 = some 0x406000 ∧
        (guarded.proc 0).pgdir = some 0x400000 ∧ (guarded.proc 0).sz = 0x3000 ∧
        guarded.mem.walk 0x400000 1 = 0x404000 ||| PTE_W ||| PTE_P ∧
        errcode (guarded.mem.walk 0x400000 1) false = 5 ∧
        trapPgflt smallLayout 0 2 guarded 0x1000 5 = .error (.panic "remap") := by
  have hwalk : guarded.mem.walk 0x400000 1 = 0x404003 := laid_walk _ _ _ _ _ _
  refine ⟨guarded_inv, ⟨by decide, by decide⟩, rfl, rfl, rfl, ?_, ?_, ?_⟩
  . rw [hwalk]
    decide
  . rw [hwalk]
    decide
  . apply trapPgflt_remap (guarded_inv.owned (p := 0) (d := 0x400000) (by decide) rfl) rfl
    . decide
    . decide
    . rw [show (0x1000 : BitVec 32).toNat / 4096 = 1 by decide, hwalk]
      decide
    . decide

def starved : VmSys :=
  laid 0x2000 0x403007 0 0 []

theorem starved_inv : Inv smallLayout starved := by
  apply laid_inv (l := [0x401000, 0x400000, 0x402000, 0x403000])
  . decide
  . decide
  . decide
  . simp

/--
No page for the data: the handler goes on with a null page, so the page at virtual address 0 is
cleared and the missing page gets the frame `V2P(0)`, on which exit panics.
-/
theorem no_data_page_not_contained
    : Inv smallLayout starved ∧ starved.Active 0 ∧ (starved.proc 0).pgdir = some 0x400000 ∧
        (starved.proc 0).sz = 0x2000 ∧ ¬ pteP (starved.mem.walk 0x400000 1) ∧
        starved.mem.kalloc.1 = none ∧ starved.mem.walk 0x400000 0 = 0x403007 ∧
        starved.mem.entry 0x403000 0 = 0xff ∧
        ∃ t, trapPgflt smallLayout 0 2 starved 0x1000 6 = .ok t ∧ (t.proc 0).killed = true ∧
          t.mem.entry 0x403000 0 = 0 ∧ t.mem.walk 0x400000 1 = 0x80000007 ∧
          t.exit smallLayout 0 = .error (.panic "kfree") := by
  have hwalk : starved.mem.walk 0x400000 1 = 0 := laid_walk _ _ _ _ _ _
  refine ⟨starved_inv, ⟨by decide, by decide⟩, rfl, rfl, ?_, rfl, laid_walk _ _ _ _ _ _, rfl, ?_⟩
  . rw [hwalk]
    decide
  . exact ⟨{ starved.kill 0 with
      mem := (starved.mem.memset 0x403000 0).setEntry 0x402000 1 0x80000007 }, rfl, rfl, rfl, rfl, rfl⟩

def scarce : VmSys :=
  laid 0x401000 0x403007 0 0 [0x406000]

theorem scarce_inv : Inv smallLayout scarce := by
  apply laid_inv (l := [0x406000, 0x401000, 0x400000, 0x402000, 0x403000])
  . decide
  . decide
  . decide
  . simp

theorem pgflt_no_memory_contained_scarce
    : ∃ m, trapPgflt smallLayout 0 1 scarce 0x400000 6 = .ok ({ scarce with mem := m }.kill 0) ∧
        m.freelist = [0x406000] := by
  have hpde : ¬ pteP (scarce.mem.entry 0x400000 (pdx 0x400000)) := by
    rw [show scarce.mem.entry 0x400000 (pdx 0x400000) = 0 from laidMem_pde 0x403007 0 0 1]
    decide
  have habsent : ¬ pteP (scarce.mem.walk 0x400000 ((0x400000 : BitVec 32).toNat / 4096)) := by
    rw [Mem.walk_of_absent hpde]
    decide
  rcases (pgflt_no_memory_contained scarce_inv (p := 0) ⟨by decide, by decide⟩ rfl 0x400000 6
    (by decide) (by decide) habsent (.inr ⟨hpde, rfl⟩) 0).mpr nofun with ⟨m, htrap, hcontained⟩
  exact ⟨m, htrap, hcontained.freelist⟩

end VmSys

end Xv6
