import Xv6.Vm.Lemmas.Stack

/-!
With enough free pages no call of `kalloc` fails: an address space never needs more than its page
directory and 1024 page tables.
-/

namespace Xv6

namespace Mem

variable {L : Layout} {d : BitVec 32} {m m' : Mem}

theorem card_frameOf_le (w : BitVec 32) : (frameOf w).card ≤ 1 := by
  unfold frameOf
  split
  . exact le_refl 1
  . exact Nat.zero_le 1

theorem card_tables_le (m : Mem) (d : BitVec 32) : (m.tables d).card ≤ 1025 := by
  have hsum : (∑ i ∈ pdIndices, frameOf (m.entry d i)).card ≤ ∑ i ∈ pdIndices, 1 := by
    rw [Multiset.card_sum]
    exact Finset.sum_le_sum (fun i _ => card_frameOf_le _)
  rw [← Finset.card_eq_sum_ones, pdIndices_eq, Finset.card_range] at hsum
  unfold tables
  rw [Multiset.card_add, Multiset.card_singleton, pdIndices_eq]
  omega

-- No call of `kalloc` is to fail while there is memory.
theorem kalloc_undenied (h : m.denied = [])
    : m.kalloc.2.denied = [] ∧ (m.kalloc.1 = none → m.kalloc.2.freelist = []) := by
  cases hlist : m.freelist with
  | nil => simp [kalloc, h, hlist]
  | cons r rest => simp [kalloc, h, hlist]

theorem walkpgdir_undenied (h : m.denied = []) (va : BitVec 32)
    : (m.walkpgdir d va true).2.denied = [] ∧
        ((m.walkpgdir d va true).1 = none → (m.walkpgdir d va true).2.freelist = []) := by
  have hkalloc := kalloc_undenied h
  unfold walkpgdir
  simp only [Bool.not_true, Bool.false_eq_true, ↓reduceIte]
  split
  . exact ⟨h, nofun⟩
  . generalize m.kalloc = res at hkalloc
    rcases res with ⟨r, m₁⟩
    simp only at hkalloc ⊢
    cases r with
    | none => exact ⟨hkalloc.1, fun _ => hkalloc.2 rfl⟩
    | some pgtab => exact ⟨hkalloc.1, nofun⟩

theorem mappages_loop_undenied {perm last : BitVec 32} {fuel : Nat} {a pa : BitVec 32} {r : Bool}
    (h : m.denied = []) (hok : mappages.loop d perm last fuel m a pa = .ok (r, m'))
    : m'.denied = [] ∧ (r = false → m'.freelist = []) := by
  induction fuel generalizing m a pa with
  | zero => contradiction
  | succ fuel ih =>
    have hwalk := walkpgdir_undenied (d := d) h a
    unfold mappages.loop at hok
    generalize m.walkpgdir d a true = res at hwalk hok
    rcases res with ⟨pte, m₁⟩
    simp only at hwalk
    cases pte with
    | none =>
      cases hok
      exact ⟨hwalk.1, fun _ => hwalk.2 rfl⟩
    | some pte =>
      simp only at hok
      split at hok
      . contradiction
      . split at hok
        . cases hok
          exact ⟨hwalk.1, Bool.noConfusion⟩
        . have hdenied : (m₁.set pte (pa ||| perm ||| PTE_P)).denied = [] := hwalk.1
          exact ih hdenied hok

theorem mappages_undenied {va size pa perm : BitVec 32} {r : Bool} (h : m.denied = [])
    (hok : m.mappages d va size pa perm = .ok (r, m'))
    : m'.denied = [] ∧ (r = false → m'.free = 0) := by
  rcases mappages_loop_undenied h hok with ⟨hdenied, hlist⟩
  refine ⟨hdenied, ?_⟩
  intro hr
  unfold free
  rw [hlist hr]
  rfl

-- There are more pages than page tables can be needed, and `n` more.
structure Supplied (d : BitVec 32) (n : Nat) (m : Mem) : Prop where
  denied : m.denied = []
  card : 1026 + n ≤ (m.tables d + m.free).card

theorem Grows.supplied {n : Nat} {perm va size pa : BitVec 32} {r : Bool} (hg : Grows d m m')
    (hs : Supplied d n m) (hok : m.mappages d va size pa perm = .ok (r, m'))
    : r = true ∧ Supplied d n m' := by
  have hloop := mappages_undenied hs.denied hok
  have hcard : 1026 + n ≤ (m'.tables d + m'.free).card := by
    rw [hg.conserve]
    exact hs.card
  refine ⟨?_, hloop.1, hcard⟩
  cases r with
  | true => rfl
  | false =>
    have := card_tables_le m' d
    rw [hloop.2 rfl, add_zero] at hcard
    omega

theorem setupkvm_loop_supplied {ks : List Kmap} {lo n : Nat} (h : Valid L m d)
    (hks : Kmap.Ascending lo ks) (habsent : ∀ u, lo ≤ u → u < 2 ^ 20 → m.walk d u = 0)
    (hs : Supplied d n m)
    : ∃ m', setupkvm.loop L d m ks = .ok (some d, m') ∧ Supplied d n m' := by
  induction ks generalizing m lo with
  | nil => exact ⟨m, rfl, hs⟩
  | cons k ks ih =>
    rcases h.mappages_kmap hks habsent with ⟨r, j, m₁, hok, hmaps, htrue, _⟩
    rcases hks with ⟨hk, hvirt, hpos, hmod, hend, hks⟩
    rcases hmaps.grows.supplied hs hok with ⟨hr, hs₁⟩
    have hj := htrue hr
    unfold setupkvm.loop
    unfold Kmap.size at hok
    rw [hok, hr, Fold.ok_bind]
    apply ih (h.grows hmaps.grows) hks _ hs₁
    intro u hu hlt
    rw [hmaps.walk u hlt, if_neg (by omega)]
    exact habsent u (by omega) hlt

theorem Free.setupkvm_supplied {n : Nat} (h : Free L m) (hdenied : m.denied = [])
    (hcard : 1026 + n ≤ m.free.card)
    : ∃ d m', m.setupkvm L = .ok (some d, m') ∧ Kvm L d m m' ∧ Supplied d n m' := by
  have hall : ∃ d m', m.setupkvm L = .ok (some d, m') ∧ Supplied d n m' := by
    have hkalloc := kalloc_undenied hdenied
    unfold Mem.setupkvm
    generalize hres : m.kalloc = res at hkalloc
    rcases res with ⟨r, m₁⟩
    cases r with
    | none =>
      have hfree := (kalloc_none hres).2
      unfold free at hfree hcard
      rw [← hfree, hkalloc.2 rfl] at hcard
      simp at hcard
    | some d =>
      rcases kalloc_some hres with ⟨_, hfree⟩
      have hsum : (m₁.memset d 0).tables d + (m₁.memset d 0).free = m.free := by
        rw [tables_memset, memset_free, hfree]
        exact Multiset.singleton_add d m₁.free
      have hvalid : Valid L (m₁.memset d 0) d := by
        constructor
        . rw [hsum]
          exact h.nodup
        . rw [hsum]
          exact h.managed
      have hs : Supplied d n (m₁.memset d 0) := ⟨hkalloc.1, by rw [hsum]; exact hcard⟩
      rcases setupkvm_loop_supplied hvalid L.kmap_ascending (fun u _ _ => walk_memset m₁ d u) hs
        with ⟨m', hok, hs'⟩
      simp only
      rw [if_neg (by decide)]
      exact ⟨d, m', hok, hs'⟩
  rcases hall with ⟨d, m', hok, hs⟩
  rcases h.setupkvm with ⟨r, m'', hok', hres⟩
  rw [hok] at hok'
  cases hok'
  cases hres with
  | inl hnone => exact absurd hnone.1 (by simp)
  | inr hsome =>
    rcases hsome with ⟨e, he, hkvm⟩
    cases he
    exact ⟨d, m', hok, hkvm, hs⟩

theorem Supplied.kalloc {n : Nat} (hs : Supplied d n m)
    : ∃ pa m₁, m.kalloc = (some pa, m₁) ∧ m₁.denied = [] := by
  have hkalloc := kalloc_undenied hs.denied
  have hcard := hs.card
  have htables := card_tables_le m d
  generalize hres : m.kalloc = res at hkalloc
  rcases res with ⟨r, m₁⟩
  cases r with
  | none =>
    have hfree := (kalloc_none hres).2
    unfold free at hfree hcard
    rw [Multiset.card_add, ← hfree, hkalloc.2 rfl] at hcard
    simp only [Multiset.coe_nil, Multiset.card_zero] at hcard
    omega
  | some pa => exact ⟨pa, m₁, rfl, hkalloc.1⟩

theorem Supplied.addPage {content : Nat → Page} {perm : Nat → BitVec 32} {n v : Nat} {pa w : BitVec 32}
    {r : Bool} {m₁ : Mem} (hs : Supplied d (n + 1) m) (hv : v < 2 ^ 19) (hdenied : m₁.denied = [])
    (hok : m₁.mappages d (pageAddr v) 4096 pa w = .ok (r, m'))
    (htrue : r = true → Allocs d (· = v) content perm m m') (hfalse : r = false → Lacks d pa v m m')
    : r = true ∧ Allocs d (· = v) content perm m m' ∧ Supplied d n m' := by
  have hmap := mappages_undenied hdenied hok
  have hcard := hs.card
  rw [Multiset.card_add] at hcard
  cases r with
  | false =>
    have hconserve := (hfalse rfl).conserve
    rw [hmap.2 rfl, add_zero] at hconserve
    have htaken := congrArg Multiset.card hconserve
    rw [Multiset.card_cons, Multiset.card_add] at htaken
    have := card_tables_le m' d
    omega
  | true =>
    have hallocs := htrue rfl
    have huser : (m'.user d).card ≤ (m.user d).card + 1 := by
      have hframes : m'.user d + frameOf (m.walk d v) = m.user d + frameOf (m'.walk d v) :=
        user_update hv (fun u hu hne => hallocs.walk u (by omega) hne)
      have hupdate := congrArg Multiset.card hframes
      have := card_frameOf_le (m'.walk d v)
      rw [Multiset.card_add, Multiset.card_add] at hupdate
      omega
    have htotal := congrArg Multiset.card hallocs.conserve
    unfold Mem.own at htotal
    simp only [Multiset.card_add] at htotal
    refine ⟨rfl, hallocs, hmap.1, ?_⟩
    rw [Multiset.card_add]
    omega

theorem Supplied.mono {k n : Nat} (hs : Supplied d n m) (hk : k ≤ n) : Supplied d k m :=
  ⟨hs.denied, Nat.le_trans (Nat.add_le_add_left hk 1026) hs.card⟩

theorem Supplied.pours {n : Nat} (hs : Supplied d n m) (h : Pours d m m') (hm : Owned L m d)
    (hdenied : m'.denied = m.denied)
    : Supplied d n m' := by
  refine ⟨hdenied.trans hs.denied, ?_⟩
  rw [tables_congr (h.phys_tables hm), h.free]
  exact hs.card

theorem allocuvm_loop_supplied (oldsz : BitVec 32) {newsz : BitVec 32} {k l v n : Nat}
    (h : Owned L m d) (hnew : newsz.toNat < 2 ^ 31) (hv : v ≤ 2 ^ 19)
    (hk : newsz.toNat ≤ 4096 * v + 4096 * k)
    (habsent : ∀ u, v ≤ u → 4096 * u < newsz.toNat → ¬ pteP (m.walk d u))
    (hs : Supplied d (n + l) m) (hl : newsz.toNat ≤ 4096 * v + 4096 * l)
    : ∃ m', allocuvm.loop L d oldsz newsz (k + 1) m (pageAddr v) = .ok (newsz, m') ∧
        Supplied d n m' := by
  induction k generalizing m v l with
  | zero =>
    have hva : (pageAddr v).toNat = 4096 * v := pageAddr_toNat (by omega)
    unfold allocuvm.loop
    rw [if_neg (by rw [BitVec.lt_def]; omega)]
    exact ⟨m, rfl, hs.mono (Nat.le_add_right n l)⟩
  | succ k ih =>
    have hva : (pageAddr v).toNat = 4096 * v := pageAddr_toNat (by omega)
    unfold allocuvm.loop
    split
    next hlt =>
      rw [BitVec.lt_def, hva] at hlt
      obtain ⟨l, rfl⟩ : ∃ i, l = i + 1 := ⟨l - 1, by omega⟩
      rcases hs.kalloc with ⟨pa, m₁, hres, hdenied⟩
      rcases h.addZeroPage (by omega) (habsent v (by omega) hlt) hres with
        ⟨r, m₂, hok, htrue, hfalse⟩
      have hzeroed : (m₁.memset pa 0).denied = [] := hdenied
      rcases hs.addPage (by omega) hzeroed hok htrue hfalse with ⟨hr, hallocs, hs₂⟩
      rw [hres]
      simp only
      rw [hok, Fold.ok_bind, hr]
      simp only [↓reduceIte]
      rw [pageAddr_succ]
      apply ih (v := v + 1) (l := l) (hallocs.owned h)
      . omega
      . omega
      . intro u hu hlt
        rw [hallocs.walk u (by omega) (by omega)]
        exact habsent u (by omega) hlt
      . exact hs₂
      . omega
    next => exact ⟨m, rfl, hs.mono (Nat.le_add_right n l)⟩

theorem Spans.allocuvm_supplied {sz : BitVec 32} {l n : Nat} (h : Spans L d sz.toNat m) (new : BitVec 32)
    (hnew : new.toNat < 2 ^ 31) (hle : sz.toNat ≤ new.toNat) (hs : Supplied d (n + l) m)
    (hl : new.toNat ≤ sz.toNat + 4096 * l)
    : ∃ m', m.allocuvm L d sz new = .ok (new, m') ∧ Supplied d n m' := by
  have hup : pgroundup sz = pageAddr ((sz.toNat + 4095) / 4096) := by
    apply BitVec.eq_of_toNat_eq
    rw [pgroundup_toNat (by omega), pageAddr_toNat (by omega)]
  unfold Mem.allocuvm
  rw [if_neg (by rw [ge_iff_le, BitVec.le_def, KERNBASE_toNat]; omega),
    if_neg (by rw [BitVec.lt_def]; omega), NPAGES_eq, hup]
  apply allocuvm_loop_supplied sz (k := 1048575) h.owned hnew (by omega) (by omega) _ hs (by omega)
  intro u hu hlt
  rw [h.present u (by omega)]
  omega

theorem copyuvm_loop_supplied {d₀ size : BitVec 32} {src : Nat → BitVec 32} {content : Nat → Page}
    {k v n : Nat} (h : Owned L m d) (hsrc : Source d₀ d size.toNat src content m)
    (hsz : size.toNat ≤ 2 ^ 31) (hv : v ≤ 2 ^ 19) (hk : size.toNat ≤ 4096 * v + 4096 * k)
    (habsent : ∀ u, v ≤ u → u < 2 ^ 19 → ¬ pteP (m.walk d u)) (hs : Supplied d n m)
    (hn : size.toNat ≤ 4096 * v + 4096 * n)
    : ∃ m', copyuvm.loop L d₀ size d (k + 1) m (pageAddr v) = .ok (some d, m') := by
  induction k generalizing m v n with
  | zero =>
    have hva : (pageAddr v).toNat = 4096 * v := pageAddr_toNat (by omega)
    unfold copyuvm.loop
    rw [if_neg (by rw [BitVec.lt_def]; omega)]
    exact ⟨m, rfl⟩
  | succ k ih =>
    have hva : (pageAddr v).toNat = 4096 * v := pageAddr_toNat (by omega)
    unfold copyuvm.loop
    split
    next hlt =>
      rw [BitVec.lt_def, hva] at hlt
      have hvpn : (pageAddr v).toNat / 4096 = v := by omega
      obtain ⟨n, rfl⟩ : ∃ l, n = l + 1 := ⟨n - 1, by omega⟩
      have hskip : ∃ m', copyuvm.loop L d₀ size d (k + 1) m (pageAddr (v + 1)) = .ok (some d, m') :=
        ih (v := v + 1) (n := n) h hsrc (by omega) (by omega) (fun u hu => habsent u (by omega))
          ⟨hs.denied, by have := hs.card; omega⟩ (by omega)
      rw [walkpgdir_false, pageAddr_succ]
      by_cases hpde : pteP (m.entry d₀ (pdx (pageAddr v)))
      . rw [if_pos hpde]
        simp only
        have hget := get_eq_walk hpde
        rw [hvpn, hsrc.walk v hlt] at hget
        rw [hget]
        by_cases hp : pteP (src v)
        . rw [if_neg (by simp [hp])]
          rcases hs.kalloc with ⟨pa, m₁, hres, hdenied⟩
          rw [hres]
          simp only
          have hadd := hsrc.copyPage h hres (by omega) (habsent v (by omega) (by omega)) hlt hp
          generalize hm₂ : ({ m₁ with
            phys := Function.update m₁.phys pa (m₁.phys (pteAddr (src v))) } : Mem) = m₂ at hadd ⊢
          rcases hadd with ⟨r, m₃, hok, htrue, hfalse⟩
          have hdenied₂ : m₂.denied = [] := by
            rw [← hm₂]
            exact hdenied
          rcases hs.addPage (by omega) hdenied₂ hok htrue hfalse with ⟨hr, hallocs, hs₃⟩
          rw [hok, Fold.ok_bind, hr]
          simp only [↓reduceIte]
          apply ih (v := v + 1) (n := n) (hallocs.owned h)
          . exact hsrc.step hsz hallocs.conserve (fun x => hallocs.frame_own)
          . omega
          . omega
          . intro u hu hlt
            rw [hallocs.walk u (by omega) (by omega)]
            exact habsent u (by omega) hlt
          . exact hs₃
          . omega
        . rw [if_pos (by simp [hp])]
          exact hskip
      . rw [if_neg hpde]
        exact hskip
    next => exact ⟨m, rfl⟩

theorem Owned.copyuvm_supplied {d₀ : BitVec 32} {n : Nat} (h : Owned L m d₀) (sz : BitVec 32)
    (hsz : sz.toNat ≤ 2 ^ 31) (hdenied : m.denied = []) (hcard : 1026 + n ≤ m.free.card)
    (hn : sz.toNat ≤ 4096 * n)
    : ∃ d m', m.copyuvm L d₀ sz = .ok (some d, m') := by
  rcases h.free.setupkvm_supplied hdenied hcard with ⟨d, m₁, hok, hkvm, hs⟩
  have hzero : (0 : BitVec 32) = pageAddr 0 := rfl
  unfold Mem.copyuvm
  rw [hok, Fold.ok_bind]
  simp only
  rw [hzero, NPAGES_eq]
  refine ⟨d, copyuvm_loop_supplied (k := 1048575) (hkvm.owned h.free) (h.source hkvm hsz) hsz
    (Nat.zero_le _) (by omega) ?_ hs (by omega)⟩
  intro u _ hu
  rw [hkvm.walk u (by omega), L.kmap_ascending.walk_of_lt hu, pteP_zero]
  simp

theorem execBuild_supplied (cr3 : BitVec 32) {sz : BitVec 32} {file : Binary} {elf : Elfhdr} {m₁ : Mem}
    {argv : List (List (BitVec 8))} (h : Spans L d 0 m)
    (hload : execLoad L d file elf.phnum m elf.phoff 0 = .ok (some sz, m₁)) (hs : Supplied d 2 m₁)
    (hsz : sz.toNat + 3 * 4096 < 2 ^ 31) (hargv : ∀ s ∈ argv, s.length < 4096)
    (hcount : argv.length ≤ MAXARG) (hfits : argSpace argv ≤ 4096)
    : ∃ image m', m.execBuild L cr3 d file elf argv = .ok (some image, m') := by
  have hspans : Spans L d sz.toNat m₁ := by
    have hzero : Spans L d (0 : BitVec 32).toNat m := h
    rcases execLoad_ok file elf.phnum elf.phoff hzero (by decide) with
      ⟨r, m', hok, _, hpost⟩
    rw [hload] at hok
    cases hok
    exact (hpost sz rfl).spans
  rcases hspans.rounded (by omega) with ⟨hup, hspans', hsum⟩
  generalize hsz₁ : pgroundup sz + 2 * 4096 = sz₁ at hsum
  rcases hspans'.allocuvm_supplied sz₁ (n := 0) (l := 2) (by omega) (by omega) hs (by omega)
    with ⟨m₂, hok₂, _⟩
  have hne : sz₁ ≠ 0 := by
    intro heq
    rw [heq] at hsum
    simp at hsum
  have hgrown : Spans L d sz₁.toNat m₂ ∧
      ∀ u, (pgroundup sz).toNat ≤ 4096 * u → 4096 * u < sz₁.toNat → pteU (m₂.walk d u) = true := by
    rcases hspans'.allocuvm sz₁ with ⟨r, m', hok, _, hpost⟩
    rw [hok₂] at hok
    cases hok
    rcases hpost hne with ⟨_, _, hspans₂, _, huser⟩
    exact ⟨hspans₂, huser⟩
  rcases hgrown.1.clearpteu (v := (sz.toNat + 4095) / 4096) (by omega) (by omega)
    with ⟨m₃, hok₃, _, hspans₃, hwalk₃, _⟩
  have hguarded : Guarded L d sz₁.toNat m₃ := by
    refine ⟨hspans₃, by omega, by omega, by omega, ?_, ?_⟩
    . rw [hwalk₃ _ (by omega), if_neg (by omega)]
      exact hgrown.2 _ (by omega) (by omega)
    . rw [hwalk₃ _ (by omega), if_pos (by omega)]
      exact pteU_clear _
  have hstack : ∃ sp m₄, m₃.execStack cr3 d sz₁ argv = .ok (some sp, m₄) := by
    have hshort : ∀ s ∈ argv, s.length + 1 < 2 ^ 32 := by
      intro s hs
      have := hargv s hs
      omega
    have hnull : (∀ s ∈ argv, s.length < 4096) ∨ NullStops cr3 d m₃ := .inl hargv
    rcases execStack_spec hguarded hshort hnull with ⟨r, m₄, hok, _, hnone, _⟩
    cases r with
    | none =>
      have := hnone rfl
      omega
    | some sp => exact ⟨sp, m₄, hok⟩
  rcases hstack with ⟨sp, m₄, hok₄⟩
  refine ⟨⟨d, sz₁, elf.entry, sp⟩, m₄, ?_⟩
  unfold execBuild
  rw [hload, Fold.ok_bind]
  simp only
  rw [hsz₁, hok₂, Fold.ok_bind]
  simp only
  rw [if_neg hne, guard_eq (hsum.trans (by rw [hup])), hok₃, Fold.ok_bind, hok₄, Fold.ok_bind]
  rfl

theorem Free.execImage_supplied {b : Bytes 52} {n : Nat} (h : Free L m) (cr3 sz : BitVec 32)
    (file : Binary) (argv : List (List (BitVec 8))) (hdenied : m.denied = [])
    (hcard : 1026 + n ≤ m.free.card) (hread : file.read 52 0 = some b)
    (hmagic : (Elfhdr.ofBytes b).magic = ELF_MAGIC)
    (hload : ∀ d m, Spans L d 0 m → Supplied d n m → ∃ m', Supplied d 2 m' ∧
      execLoad L d file (Elfhdr.ofBytes b).phnum m (Elfhdr.ofBytes b).phoff 0 = .ok (some sz, m'))
    (hsz : sz.toNat + 3 * 4096 < 2 ^ 31) (hargv : ∀ s ∈ argv, s.length < 4096)
    (hcount : argv.length ≤ MAXARG) (hfits : argSpace argv ≤ 4096)
    : ∃ image m', m.execImage L cr3 (some file) argv = .ok (some image, m') := by
  rcases h.setupkvm_supplied hdenied hcard with ⟨d, m₁, hok₁, hkvm, hs⟩
  rcases hload d m₁ (hkvm.spans h) hs with ⟨m₂, hs₂, hok₂⟩
  rcases execBuild_supplied cr3 (hkvm.spans h) hok₂ hs₂ hsz hargv hcount hfits
    with ⟨image, m₃, hok₃⟩
  refine ⟨image, m₃, ?_⟩
  unfold Mem.execImage
  simp only
  rw [hread]
  simp only
  rw [if_neg (by simpa using hmagic), hok₁, Fold.ok_bind]
  simp only
  rw [hok₃, Fold.ok_bind]
  rfl

-- A segment of at most one page that the file has as a whole.
theorem loaduvm_onePage (addr offset sz : BitVec 32) (ip : Binary) (halign : addr.toNat % PGSIZE = 0)
    (hp : pteP (m.walk d (addr.toNat / 4096))) (hpos : 0 < sz.toNat) (hsz : sz.toNat < 4096)
    (hread : ip.readi offset sz = some sz.toNat)
    : ∃ m', m.loaduvm d addr ip offset sz = .ok (true, m') ∧ m'.denied = m.denied := by
  have hpde := pde_of_walk hp
  have hnext : ¬ (0 + 4096 : BitVec 32) < sz := by
    rw [BitVec.lt_def, show (0 + 4096 : BitVec 32).toNat = 4096 from rfl]
    omega
  have hmin : (if sz - 0 < 4096 then sz - 0 else 4096) = sz := by
    rw [show sz - 0 = sz from BitVec.sub_zero sz, if_pos]
    rw [BitVec.lt_def]
    exact hsz
  unfold Mem.loaduvm
  rw [if_neg (by simpa using halign), NPAGES_eq]
  unfold loaduvm.loop
  rw [if_pos (by rw [BitVec.lt_def]; exact hpos),
    show addr + 0 = addr from BitVec.add_zero addr,
    show offset + 0 = offset from BitVec.add_zero offset, walkpgdir_false, if_pos hpde]
  simp only
  rw [hmin, hread]
  simp only [ne_eq, not_true_eq_false, ↓reduceIte]
  unfold loaduvm.loop
  rw [if_neg hnext]
  exact ⟨_, rfl, rfl⟩

end Mem

namespace VmSys

def pageRun (start n : Nat) : List (BitVec 32) :=
  (List.range n).map (fun i => BitVec.ofNat 32 (start + 4096 * i))

theorem mem_pageRun {start n : Nat} {x : BitVec 32} (hend : start + 4096 * n ≤ 2 ^ 32)
    (h : x ∈ pageRun start n)
    : ∃ i, i < n ∧ x.toNat = start + 4096 * i := by
  unfold pageRun at h
  rw [List.mem_map] at h
  rcases h with ⟨i, hi, rfl⟩
  rw [List.mem_range] at hi
  refine ⟨i, hi, ?_⟩
  rw [BitVec.toNat_ofNat]
  omega

theorem nodup_pageRun {start n : Nat} (hend : start + 4096 * n ≤ 2 ^ 32) : (pageRun start n).Nodup := by
  unfold pageRun
  apply List.Nodup.map_on _ List.nodup_range
  intro i hi j hj heq
  rw [List.mem_range] at hi hj
  have := congrArg BitVec.toNat heq
  rw [BitVec.toNat_ofNat, BitVec.toNat_ofNat] at this
  omega

def pool : List (BitVec 32) := pageRun 0x500000 1100

def roomy : VmSys :=
  laid 0x1000 0x404007 0 0 pool

theorem mem_pool {x : BitVec 32} (h : x ∈ pool) : ∃ i, i < 1100 ∧ x.toNat = 0x500000 + 4096 * i :=
  mem_pageRun (by decide) h

theorem length_pool : pool.length = 1100 := by
  unfold pool pageRun
  rw [List.length_map, List.length_range]

theorem nodup_pool : pool.Nodup := nodup_pageRun (by decide)

section

variable {sz w₀ w₁ w₂ : BitVec 32} {l : List (BitVec 32)}

theorem laid_pool_inv (hsz : sz.toNat ≤ 2 ^ 31)
    (hl : {0x401000} + ({0x400000, 0x402000} +
      (Mem.frameOf w₀ + Mem.frameOf w₁ + Mem.frameOf w₂)) = (l : Multiset (BitVec 32)))
    (hnodup : l.Nodup) (hmanaged : ∀ x ∈ l, x.toNat % 4096 = 0 ∧ 0x300000 ≤ x.toNat ∧ x.toNat < 0x500000)
    : Inv smallLayout (laid sz w₀ w₁ w₂ pool) := by
  apply laid_inv (l := pool ++ l)
  . exact hsz
  . rw [hl]
    exact Multiset.coe_add pool l
  . rw [List.nodup_append]
    refine ⟨nodup_pool, hnodup, ?_⟩
    rintro x hx y hy rfl
    rcases mem_pool hx with ⟨i, _, hval⟩
    have := (hmanaged x hy).2.2
    omega
  . intro x hx
    cases List.mem_append.mp hx with
    | inl hpool =>
      rcases mem_pool hpool with ⟨i, hi, hval⟩
      omega
    | inr hold =>
      have := hmanaged x hold
      omega

end

theorem roomy_inv : Inv smallLayout roomy := by
  apply laid_pool_inv (l := [0x401000, 0x400000, 0x402000, 0x404000])
  . decide
  . decide
  . decide
  . simp

-- The middle one of the three pages below `sz` has not been touched.
def sparse : VmSys :=
  laid 0x3000 0x403007 0 0x405007 pool

theorem sparse_inv : Inv smallLayout sparse := by
  apply laid_pool_inv (l := [0x401000, 0x400000, 0x402000, 0x403000, 0x405000])
  . decide
  . decide
  . decide
  . simp

theorem copyuvm_clones_sparse_pool
    : ∃ d m', sparse.mem.copyuvm smallLayout 0x400000 0x3000 = .ok (some d, m') ∧
        Mem.IsClone smallLayout 0x400000 d 0x3000 sparse.mem m' := by
  have howned := sparse_inv.owned (p := 0) (d := 0x400000) (by decide) rfl
  have hcard : sparse.mem.free.card = 1100 := by
    have hlist : sparse.mem.freelist = pool := laid_freelist _ _ _ _ _
    rw [Mem.free, hlist, Multiset.coe_card, length_pool]
  rcases howned.copyuvm_supplied 0x3000 (n := 3) (by decide) rfl (by omega) (by decide)
    with ⟨d, m', hok⟩
  rcases Mem.copyuvm_clones_sparse howned 0x3000 (by decide) with ⟨r, m'', hok', _, hclone⟩
  rw [hok] at hok'
  cases hok'
  exact ⟨d, m', hok, (hclone d rfl).1⟩

end VmSys

-- A file with one program header, of type PT_LOAD, for the address 0.
def segment (filesz memsz : BitVec 8) : Binary where
  size := 84
  byte i :=
    if i = 0 then 0x7f
    else if i = 1 then 0x45
    else if i = 2 then 0x4c
    else if i = 3 then 0x46
    else if i = 28 then 52
    else if i = 44 ∨ i = 52 then 1
    else if i = 68 then filesz
    else if i = 72 then memsz
    else 0

def hollow : Binary := segment 1 0

theorem hollow_execLoad (L : Layout) (d : BitVec 32) (m : Mem)
    : Mem.execLoad L d hollow 1 m 52 0 = .ok (some 0, m) := by
  have hread : hollow.read 32 52 = some (fun i => hollow.byte (52 + i.val)) := rfl
  unfold Mem.execLoad
  rw [hread]
  simp only
  rw [if_pos (.inr (by decide))]
  rfl

def filled : Binary := segment 84 100

theorem filled_execLoad {L : Layout} {d : BitVec 32} {m : Mem} (h : Mem.Spans L d 0 m)
    (hs : Mem.Supplied d 3 m)
    : ∃ m', Mem.Supplied d 2 m' ∧ Mem.execLoad L d filled 1 m 52 0 = .ok (some 100, m') := by
  have hzero : Mem.Spans L d (0 : BitVec 32).toNat m := h
  rcases hzero.allocuvm_supplied 100 (n := 2) (l := 1) (by decide) (by decide) hs (by decide)
    with ⟨m₁, hok₁, hs₁⟩
  have hspans : Mem.Spans L d (100 : BitVec 32).toNat m₁ := by
    rcases hzero.allocuvm 100 with ⟨r, m', hok, _, hpost⟩
    rw [hok₁] at hok
    cases hok
    exact (hpost (by decide)).2.2.1
  have hpresent : pteP (m₁.walk d ((0 : BitVec 32).toNat / 4096)) := by
    rw [hspans.present _ (by decide)]
    decide
  rcases Mem.loaduvm_onePage 0 0 84 filled rfl hpresent
    (by decide) (by decide) rfl with ⟨m₂, hok₂, hdenied⟩
  have hpages : ∀ u, (0 : BitVec 32).toNat ≤ 4096 * u →
      4096 * u < (0 : BitVec 32).toNat + (84 : BitVec 32).toNat → pteP (m₁.walk d u) := by
    intro u _ hu
    have hfirst : u = 0 := by
      simp only [BitVec.ofNat_eq_ofNat, BitVec.toNat_ofNat] at hu
      omega
    rw [hfirst]
    exact hpresent
  have hpours : Mem.Pours d m₁ m₂ := by
    rcases hspans.owned.loaduvm filled 0 rfl (by decide) hpages with
      ⟨r, m', hok, hpours, _⟩
    rw [hok₂] at hok
    cases hok
    exact hpours
  refine ⟨m₂, hs₁.pours hpours hspans.owned hdenied, ?_⟩
  have hread : filled.read 32 52 = some (fun i => filled.byte (52 + i.val)) := rfl
  unfold Mem.execLoad
  rw [hread]
  simp only
  rw [if_neg (by decide), if_neg (by decide), if_neg (by decide),
    show (Proghdr.ofBytes fun i => filled.byte (52 + i.val)).vaddr +
      (Proghdr.ofBytes fun i => filled.byte (52 + i.val)).memsz = 100 from rfl, hok₁, Fold.ok_bind]
  simp only
  rw [if_neg (by decide), if_neg (by decide),
    show (Proghdr.ofBytes fun i => filled.byte (52 + i.val)).vaddr = 0 from rfl,
    show (Proghdr.ofBytes fun i => filled.byte (52 + i.val)).off = 0 from rfl,
    show (Proghdr.ofBytes fun i => filled.byte (52 + i.val)).filesz = 84 from rfl, hok₂, Fold.ok_bind]
  rfl

end Xv6
