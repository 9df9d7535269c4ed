import Xv6.Data.Ensures
import Xv6.Vm.Impl.Wait
import Xv6.Vm.Lemmas.Copyuvm

/-!
What `sys_wait` changes in the memory of its caller: the word at the status pointer, whatever the
pointer is, and nothing else.
-/

namespace Xv6

namespace Mem

variable {L : Layout} {d va : BitVec 32} {m m' m₁ m₂ : Mem} {n : Nat}

theorem frame_eq (m : Mem) (d va : BitVec 32)
    : m.frame d va =
        if pteP (m.walk d (va.toNat / 4096)) then some (pteAddr (m.walk d (va.toNat / 4096))) else none := by
  unfold frame
  by_cases hpde : pteP (m.entry d (pdx va))
  . rw [walkpgdir_of_pde hpde]
    simp only [get_eq_walk hpde]
  . have hwalk : (m.walkpgdir d va false).1 = none := by
      unfold walkpgdir
      simp only
      rw [if_neg hpde]
      rfl
    rw [hwalk, walk_of_absent hpde, pteP_zero]
    rfl

theorem peek_eq_view (m : Mem) (d va : BitVec 32) : m.peek d va = m.view d va.toNat := by
  unfold peek view
  rw [frame_eq]
  split
  next pa heq =>
    split at heq
    . cases heq
    next hp => rw [if_neg hp]
  next pa heq =>
    split at heq
    next hp =>
      cases heq
      rw [if_pos hp]
    . cases heq

theorem poke_view {c : BitVec 8} (h : Owned L m d) (hva : va.toNat < 2 ^ 31)
    (hp : pteP (m.walk d (va.toNat / 4096)))
    : Pours d m (m.poke d va c) ∧
        ∀ a, a < 2 ^ 31 → (m.poke d va c).view d a = if a = va.toNat then c else m.view d a := by
  have hu : va.toNat / 4096 < 2 ^ 19 := by omega
  have hpoke : m.poke d va c = { m with
      phys := Function.update m.phys (pteAddr (m.walk d (va.toNat / 4096)))
        ((m.phys (pteAddr (m.walk d (va.toNat / 4096)))).blit (va.toNat % 4096) 1 (fun _ => c)) } := by
    unfold poke
    rw [frame_eq, if_pos hp]
  rw [hpoke]
  refine ⟨pours_update hu hp _, ?_⟩
  intro a ha
  rw [view_blit h hu hp (by omega) ha]
  by_cases heq : a = va.toNat
  . rw [if_pos heq, if_pos (by omega)]
  . rw [if_neg heq, if_neg (by omega)]

theorem pokeBytes_view (va : BitVec 32) (cs : List (BitVec 8)) (h : Owned L m d)
    (hend : va.toNat + cs.length ≤ 2 ^ 31)
    (hp : ∀ i, i < cs.length → pteP (m.walk d ((va.toNat + i) / 4096)))
    : Pours d m (pokeBytes d m va cs) ∧
        ∀ a, a < 2 ^ 31 → (pokeBytes d m va cs).view d a =
          if va.toNat ≤ a ∧ a < va.toNat + cs.length then cs.getD (a - va.toNat) 0 else m.view d a := by
  induction cs generalizing m va with
  | nil =>
    refine ⟨.refl d m, ?_⟩
    intro a _
    rw [if_neg (by simp only [List.length_nil]; omega)]
    rfl
  | cons c cs ih =>
    rw [List.length_cons] at hend hp
    have hnext : (va + 1).toNat = va.toNat + 1 := by
      rw [BitVec.toNat_add]
      simp only [BitVec.ofNat_eq_ofNat, BitVec.toNat_ofNat]
      omega
    rcases poke_view (c := c) h (by omega) (hp 0 (by omega)) with ⟨hpours, hview⟩
    have hih := ih (va + 1) (hpours.owned h) (by omega) (by
      intro i hi
      rw [hnext, hpours.walk h (by omega), Nat.add_right_comm]
      exact hp (i + 1) (by omega))
    refine ⟨hpours.trans hih.1 h, ?_⟩
    intro a ha
    rw [pokeBytes, hih.2 a ha, hview a ha, hnext, List.length_cons]
    by_cases hin : va.toNat + 1 ≤ a ∧ a < va.toNat + 1 + cs.length
    . have hsub : a - va.toNat = (a - (va.toNat + 1)) + 1 := by omega
      rw [if_pos hin, if_pos (by omega), hsub, List.getD_cons_succ]
    . rw [if_neg hin]
      by_cases heq : a = va.toNat
      . rw [if_pos heq, if_pos (by omega), heq, Nat.sub_self, List.getD_cons_zero]
      . rw [if_neg heq, if_neg (by omega)]

-- the next `n` calls of kalloc find a page
def Has (m : Mem) (n : Nat) : Prop := n ≤ m.freelist.length ∧ true ∉ m.denied.take n

theorem Has.mono (h : m.Has n) {k : Nat} (hk : k ≤ n) : m.Has k := by
  refine ⟨Nat.le_trans hk h.1, ?_⟩
  intro hmem
  exact h.2 ((List.take_prefix_take_left hk).subset hmem)

theorem Has.of_eq (h : m.Has n) (hfree : m'.freelist = m.freelist) (hdenied : m'.denied = m.denied)
    : m'.Has n := by
  unfold Has
  rw [hfree, hdenied]
  exact h

theorem Has.kalloc (h : m.Has (n + 1)) : ∃ pa m', m.kalloc = (some pa, m') ∧ m'.Has n := by
  rcases h with ⟨hfree, hdenied⟩
  cases hlist : m.freelist with
  | nil =>
    rw [hlist] at hfree
    exact absurd hfree (Nat.not_succ_le_zero n)
  | cons pa rest =>
    rw [hlist] at hfree
    unfold Mem.kalloc
    cases hd : m.denied with
    | nil =>
      simp only [hlist]
      exact ⟨pa, _, rfl, Nat.le_of_succ_le_succ hfree, by simp⟩
    | cons b denied =>
      rw [hd, List.take_succ_cons, List.mem_cons, not_or] at hdenied
      cases b with
      | true => exact absurd rfl hdenied.1
      | false =>
        simp only [hlist]
        exact ⟨pa, _, rfl, Nat.le_of_succ_le_succ hfree, hdenied.2⟩

theorem Has.kfree {pa : BitVec 32} (h : m.Has n) (hok : m.kfree L pa = .ok m') : m'.Has n := by
  have hfree := kfree_freelist hok
  have hdenied : m'.denied = m.denied := by
    unfold Mem.kfree at hok
    simp only at hok
    split at hok
    . contradiction
    . cases hok
      rfl
  unfold Has
  rw [hfree, hdenied, List.length_cons]
  exact ⟨Nat.le_succ_of_le h.1, h.2⟩

theorem Has.mappages {v : Nat} {pa perm : BitVec 32} {r : Bool} (h : m.Has (n + 1)) (hv : v < 2 ^ 20)
    (hok : m.mappages d (pageAddr v) 4096 pa perm = .ok (r, m'))
    : r = true ∧ m'.Has n := by
  have hdown : pgrounddown (pageAddr v) = pageAddr v := by
    apply pteAddr_of_aligned
    rw [pageAddr_toNat hv]
    omega
  have hlast : pgrounddown (pageAddr v + 4096 - 1) = pageAddr v := by
    rw [← pageAddr_vpn]
    congr 1
    rw [BitVec.toNat_sub, BitVec.toNat_add, pageAddr_toNat hv]
    simp only [BitVec.ofNat_eq_ofNat, BitVec.toNat_ofNat]
    omega
  have hwalk : ∃ pte m₁, m.walkpgdir d (pageAddr v) true = (some pte, m₁) ∧ m₁.Has n := by
    by_cases hpde : pteP (m.entry d (pdx (pageAddr v)))
    . exact ⟨_, m, walkpgdir_of_pde hpde, h.mono (Nat.le_succ n)⟩
    . rcases h.kalloc with ⟨pgtab, m₁, hkalloc, hm₁⟩
      have hwalk : m.walkpgdir d (pageAddr v) true = (some ⟨pgtab, ptx (pageAddr v)⟩,
          (m₁.memset pgtab 0).setEntry d (pdx (pageAddr v)) (pgtab ||| PTE_P ||| PTE_W ||| PTE_U)) := by
        unfold walkpgdir
        simp only
        rw [if_neg hpde, hkalloc]
        rfl
      exact ⟨_, _, hwalk, hm₁.of_eq rfl rfl⟩
  rcases hwalk with ⟨pte, m₁, hwalk, hm₁⟩
  unfold Mem.mappages at hok
  rw [hdown, hlast, NPAGES_eq] at hok
  unfold mappages.loop at hok
  rw [hwalk] at hok
  simp only [↓reduceIte] at hok
  split at hok
  . contradiction
  . cases hok
    exact ⟨rfl, hm₁⟩

-- Pages of `d` are brought in, and what user code sees is the same.
structure Brings (d : BitVec 32) (m m' : Mem) : Prop where
  moves : Moves d m m'
  view : ∀ a, a < 2 ^ 31 → m'.view d a = m.view d a
  present : ∀ u, u < 2 ^ 19 → pteP (m.walk d u) → pteP (m'.walk d u)

theorem Brings.refl (d : BitVec 32) (m : Mem) : Brings d m m :=
  ⟨.refl d m, fun _ _ => rfl, fun _ _ => id⟩

theorem Brings.trans (h₁ : Brings d m m₁) (h₂ : Brings d m₁ m₂) : Brings d m m₂ := by
  refine ⟨h₁.moves.trans h₂.moves, ?_, ?_⟩
  . intro a ha
    rw [h₂.view a ha, h₁.view a ha]
  . intro u hu hp
    exact h₂.present u hu (h₁.present u hu hp)

theorem Brings.peekWord (h : Brings d m m') (hva : va.toNat + 4 ≤ 2 ^ 31)
    : m'.peekWord d va = m.peekWord d va := by
  have hpeek : ∀ i, i < 4 → m'.peek d (va + BitVec.ofNat 32 i) = m.peek d (va + BitVec.ofNat 32 i) := by
    intro i hi
    rw [peek_eq_view, peek_eq_view]
    apply h.view
    rw [BitVec.toNat_add, BitVec.toNat_ofNat]
    omega
  have hfirst := hpeek 0 (by omega)
  rw [BitVec.add_zero] at hfirst
  unfold Mem.peekWord
  rw [hfirst]
  have h1 := hpeek 1 (by omega)
  have h2 := hpeek 2 (by omega)
  have h3 := hpeek 3 (by omega)
  simp only [BitVec.ofNat_eq_ofNat] at h1 h2 h3 ⊢
  rw [h1, h2, h3]

theorem Allocs.brings {v : Nat} (h : AllocsZero d (· = v) m m') (hm : Owned L m d)
    (habsent : ¬ pteP (m.walk d v))
    : Brings d m m' := by
  refine ⟨h.moves, ?_, ?_⟩
  . intro a ha
    apply Allocs.view h hm _ ha
    rintro u rfl
    exact habsent
  . intro u hu hp
    by_cases heq : u = v
    . exact h.present heq
    . rw [h.walk u (by omega) heq]
      exact hp

end Mem

namespace VmSys

variable {L : Layout} {s t : VmSys} {p q : ProcId} {d va err : BitVec 32} {n : Nat}

theorem touch_brings (howned : Mem.Owned L s.mem d) (hd : (s.proc p).pgdir = some d)
    (hsz : (s.proc p).sz.toNat ≤ 2 ^ 31) (herr : err &&& 7 ≠ 7) (hlt : va < (s.proc p).sz)
    (hmem : pteP (s.mem.walk d (va.toNat / 4096)) ∨ s.mem.Has 2) (fuel : Nat)
    : ∃ m, touch L p va err (fuel + 2) s = .ok { s with mem := m } ∧ Mem.Brings d s.mem m ∧
        pteP (m.walk d (va.toNat / 4096)) ∧ ∀ k, s.mem.Has (k + 2) → m.Has k := by
  have hthere : ∀ (t : VmSys) fuel, t.proc = s.proc → pteP (t.mem.walk d (va.toNat / 4096)) →
      touch L p va err (fuel + 1) t = .ok t := by
    intro t fuel hproc hp
    unfold touch
    rw [pgdir_eq (by rw [hproc]; exact hd), Fold.ok_bind, Mem.frame_eq, if_pos hp]
    rfl
  by_cases hp : pteP (s.mem.walk d (va.toNat / 4096))
  . exact ⟨s.mem, hthere s _ rfl hp, .refl d s.mem, hp, fun k hk => hk.mono (by omega)⟩
  . have hhas := hmem.resolve_left hp
    rcases hhas.kalloc with ⟨mem, m₁, hkalloc, hm₁⟩
    have hdown : pgrounddown va < (s.proc p).sz := by
      rw [BitVec.lt_def] at hlt ⊢
      rw [pgrounddown_toNat]
      omega
    rcases trapPgflt_absent howned hd hsz herr rfl hdown hp hkalloc (s.mem.denied.length + 1) with
      ⟨r, m, hmap, htrue, _⟩
    have hv : va.toNat / 4096 < 2 ^ 20 := by omega
    have hzeroed : (m₁.memset mem 0).Has 1 := hm₁.of_eq rfl rfl
    have hr := (hzeroed.mappages hv hmap).1
    rcases htrue hr with ⟨htrap, hallocs⟩
    refine ⟨m, ?_, hallocs.brings howned hp, hallocs.present rfl, ?_⟩
    . unfold touch
      rw [pgdir_eq hd, Fold.ok_bind, Mem.frame_eq, if_neg hp]
      dsimp only
      rw [htrap, Fold.ok_bind]
      exact hthere _ fuel rfl (hallocs.present rfl)
    . intro k hk
      rcases Mem.Has.kalloc hk with ⟨mem', m₁', hkalloc', hm₁'⟩
      rw [hkalloc] at hkalloc'
      cases hkalloc'
      have hzeroed : (m₁.memset mem 0).Has (k + 1) := hm₁'.of_eq rfl rfl
      exact (hzeroed.mappages hv hmap).2

def Backed (m : Mem) (d a : BitVec 32) : Prop := ∀ i, i < 4 → pteP (m.walk d ((a.toNat + i) / 4096))

theorem touchWord_brings (howned : Mem.Owned L s.mem d) (hd : (s.proc p).pgdir = some d)
    (hsz : (s.proc p).sz.toNat ≤ 2 ^ 31) (herr : err &&& 7 ≠ 7)
    (hend : va.toNat + 4 ≤ (s.proc p).sz.toNat) (hmem : Backed s.mem d va ∨ s.mem.Has 4)
    : ∃ m, s.touchWord L p va err = .ok { s with mem := m } ∧ Mem.Brings d s.mem m ∧
        Backed m d va ∧ ∀ k, s.mem.Has (k + 4) → m.Has k := by
  have hlast : (va + 3).toNat = va.toNat + 3 := by
    rw [BitVec.toNat_add]
    simp only [BitVec.ofNat_eq_ofNat, BitVec.toNat_ofNat]
    omega
  have hlt : va < (s.proc p).sz := by
    rw [BitVec.lt_def]
    omega
  have hlt3 : va + 3 < (s.proc p).sz := by
    rw [BitVec.lt_def, hlast]
    omega
  have hfirst : pteP (s.mem.walk d (va.toNat / 4096)) ∨ s.mem.Has 2 :=
    hmem.imp (fun hb => hb 0 (by omega)) (fun hh => hh.mono (by omega))
  rcases touch_brings howned hd hsz herr hlt hfirst s.mem.denied.length with
    ⟨m₁, htouch₁, hbrings₁, hp₁, hhas₁⟩
  have hsecond : pteP (m₁.walk d ((va + 3).toNat / 4096)) ∨ m₁.Has 2 := by
    rcases hmem with hb | hh
    . left
      rw [hlast]
      exact hbrings₁.present _ (by omega) (hb 3 (by omega))
    . exact .inr (hhas₁ 2 hh)
  have howned₁ := hbrings₁.moves.owned howned
  rcases touch_brings (s := { s with mem := m₁ }) howned₁ hd hsz herr hlt3 hsecond m₁.denied.length with
    ⟨m₂, htouch₂, hbrings₂, hp₂, hhas₂⟩
  refine ⟨m₂, ?_, hbrings₁.trans hbrings₂, ?_, fun k hk => hhas₂ k (hhas₁ (k + 2) hk)⟩
  . unfold touchWord
    rw [htouch₁, Fold.ok_bind]
    exact htouch₂
  . intro i hi
    rw [hlast] at hp₂
    -- a word is in the page of its first byte or in that of its last one
    have hpage : (va.toNat + i) / 4096 = va.toNat / 4096 ∨
        (va.toNat + i) / 4096 = (va.toNat + 3) / 4096 := by omega
    rcases hpage with hpage | hpage
    . rw [hpage]
      exact hbrings₂.present _ (by omega) hp₁
    . rw [hpage]
      exact hp₂

theorem storeInt_view (howned : Mem.Owned L s.mem d) (hd : (s.proc p).pgdir = some d)
    (hsz : (s.proc p).sz.toNat ≤ 2 ^ 31) (hend : va.toNat + 4 ≤ (s.proc p).sz.toNat)
    (hmem : Backed s.mem d va ∨ s.mem.Has 4) (w : BitVec 32)
    : ∃ m, s.storeInt L p va w = .ok { s with mem := m } ∧ Mem.Moves d s.mem m ∧
        ∀ a, a < 2 ^ 31 → m.view d a =
          if va.toNat ≤ a ∧ a < va.toNat + 4 then (wordBytes w).getD (a - va.toNat) 0
          else s.mem.view d a := by
  rcases touchWord_brings howned hd hsz (by decide : (2 : BitVec 32) &&& 7 ≠ 7) hend hmem with
    ⟨m, htouch, hbrings, hbacked, _⟩
  have hm := hbrings.moves.owned howned
  have hlen := Mem.length_wordBytes w
  rcases Mem.pokeBytes_view va (wordBytes w) hm (by omega) (by rw [hlen]; exact hbacked) with
    ⟨hpours, hview⟩
  refine ⟨Mem.pokeBytes d m va (wordBytes w), ?_, hbrings.moves.trans (hpours.moves hm), ?_⟩
  . have hpgdir : VmSys.pgdir { s with mem := m } p = .ok d := pgdir_eq hd
    unfold storeInt
    rw [htouch, Fold.ok_bind, hpgdir, Fold.ok_bind]
    rfl
  . intro a ha
    rw [hview a ha, hbrings.view a ha, hlen]

theorem argptrLoad_brings (howned : Mem.Owned L s.mem d) (hd : (s.proc p).pgdir = some d)
    (hsz : (s.proc p).sz.toNat ≤ 2 ^ 31) (n size : BitVec 32)
    (hmem : Backed s.mem d ((s.proc p).esp + 4 + 4 * n) ∨ s.mem.Has 4)
    : ∃ m, s.argptrLoad L p n size =
          .ok (argptr (s.proc p).sz (s.proc p).esp (s.mem.peekWord d) n size, { s with mem := m }) ∧
        Mem.Brings d s.mem m ∧ ∀ k, s.mem.Has (k + 4) → m.Has k := by
  unfold argptrLoad
  dsimp only
  split
  next hout =>
    have hnone : argptr (s.proc p).sz (s.proc p).esp (s.mem.peekWord d) n size = none := by
      unfold argptr argint fetchint
      rw [if_pos hout]
      rfl
    rw [hnone]
    exact ⟨s.mem, rfl, .refl d s.mem, fun k hk => hk.mono (by omega)⟩
  next hin =>
    have hend : ((s.proc p).esp + 4 + 4 * n).toNat + 4 ≤ (s.proc p).sz.toNat := by
      have hfetch : fetchint (s.proc p).sz (s.mem.peekWord d) ((s.proc p).esp + 4 + 4 * n) =
          some (s.mem.peekWord d ((s.proc p).esp + 4 + 4 * n)) := by
        unfold fetchint
        rw [if_neg hin]
      exact fetchint_le hsz hfetch
    rcases touchWord_brings howned hd hsz (by decide : (0 : BitVec 32) &&& 7 ≠ 7) hend hmem with
      ⟨m, htouch, hbrings, _, hhas⟩
    refine ⟨m, ?_, hbrings, hhas⟩
    have hpgdir : VmSys.pgdir { s with mem := m } p = .ok d := pgdir_eq hd
    have hword : m.peekWord d ((s.proc p).esp + 4 + 4 * n) =
        s.mem.peekWord d ((s.proc p).esp + 4 + 4 * n) := hbrings.peekWord (by omega)
    have hload : s.loadInt L p ((s.proc p).esp + 4 + 4 * n) =
        .ok (s.mem.peekWord d ((s.proc p).esp + 4 + 4 * n), { s with mem := m }) := by
      unfold loadInt
      rw [htouch, Fold.ok_bind, hpgdir, Fold.ok_bind]
      exact congrArg (fun w => Except.ok (w, { s with mem := m })) hword
    have hargptr : argptr (s.proc p).sz (s.proc p).esp
          (fun _ => s.mem.peekWord d ((s.proc p).esp + 4 + 4 * n)) n size =
        argptr (s.proc p).sz (s.proc p).esp (s.mem.peekWord d) n size := by
      unfold argptr argint fetchint
      rw [if_neg hin]
    rw [hload, Fold.ok_bind]
    dsimp only
    rw [hargptr]
    rfl

/--
What may happen to the others while `p` is asleep: the address space of `p` is left as it is.
-/
structure Keeps (L : Layout) (p : ProcId) (s t : VmSys) : Prop where
  inv : Inv L t
  active : t.Active p
  pgdir : (t.proc p).pgdir = (s.proc p).pgdir
  sz : (t.proc p).sz = (s.proc p).sz
  view : ∀ d, (s.proc p).pgdir = some d → ∀ a, a < 2 ^ 31 → t.mem.view d a = s.mem.view d a
  present : ∀ d, (s.proc p).pgdir = some d → ∀ u, u < 2 ^ 19 → pteP (s.mem.walk d u) →
    pteP (t.mem.walk d u)

theorem Steps.keeps (h : Steps q s t) (hs : Inv L s) (hne : p ≠ q) (hp : s.Active p)
    : Keeps L p s t := by
  rcases h.other p hne with ⟨hstate, _, hpgdir, hsz⟩
  have hagree : ∀ d, (s.proc p).pgdir = some d → Mem.Agree d s.mem t.mem := by
    intro d hd
    exact hs.phys_other hne hp.1 hd h.frame
  refine ⟨h.inv hs, ?_, hpgdir, hsz, ?_, ?_⟩
  . unfold Active
    rw [hstate]
    exact hp
  . intro d hd a ha
    exact (hagree d hd).view ha
  . intro d hd u hu hpresent
    rw [(hagree d hd).walk (by omega)]
    exact hpresent

theorem Keeps.refl (h : Inv L s) (hp : s.Active p) : Keeps L p s s :=
  ⟨h, hp, rfl, rfl, fun _ _ _ _ => rfl, fun _ _ _ _ => id⟩

theorem Keeps.trans {u : VmSys} (h : Keeps L p s t) (h' : Keeps L p t u) : Keeps L p s u := by
  refine ⟨h'.inv, h'.active, h'.pgdir.trans h.pgdir, h'.sz.trans h.sz, ?_, ?_⟩
  . intro d hd a ha
    rw [h'.view d (h.pgdir.trans hd) a ha, h.view d hd a ha]
  . intro d hd u hu hpresent
    exact h'.present d (h.pgdir.trans hd) u hu (h.present d hd u hu hpresent)

theorem Keeps.of_brings {m : Mem} {x : VmProc} (h : Inv L s) (hp : s.Active p)
    (hd : (s.proc p).pgdir = some d) (hm : Mem.Brings d s.mem m)
    (hx : x.kstack = (s.proc p).kstack ∧ x.pgdir = (s.proc p).pgdir ∧ x.sz = (s.proc p).sz)
    (hstate : x.state ≠ .unused ∧ x.state ≠ .zombie)
    : Keeps L p s { s.setProc p x with mem := m } := by
  have hself : (s.setProc p x).proc p = x := Function.update_self ..
  have hother : ∀ q, q ≠ p → (s.setProc p x).proc q = s.proc q := fun q hq => Function.update_of_ne hq ..
  have hsteps : Steps p s { s.setProc p x with mem := m } := by
    apply Steps.of_moves h hp.1 hd hm.moves
    . intro q hq
      dsimp only
      rw [hother q hq]
      exact .refl _
    . rfl
    . dsimp only
      rw [hself]
      exact hx.1
    . dsimp only
      rw [hself]
      exact hx.2.1
    . dsimp only
      rw [hself]
      exact hstate.1
    . dsimp only
      rw [hself]
      exact fun hz => absurd hz hstate.2
    . dsimp only
      rw [hself, hx.2.2]
      exact h.sz p hp.1
  refine ⟨hsteps.inv h, ?_, ?_, ?_, ?_, ?_⟩
  . unfold Active
    dsimp only
    rw [hself]
    exact hstate
  . dsimp only
    rw [hself]
    exact hx.2.1
  . dsimp only
    rw [hself]
    exact hx.2.2
  . intro d' hd'
    cases hd.symm.trans hd'
    exact hm.view
  . intro d' hd'
    cases hd.symm.trans hd'
    exact hm.present

theorem Keeps.brings {m : Mem} (h : Inv L s) (hp : s.Active p) (hd : (s.proc p).pgdir = some d)
    (hm : Mem.Brings d s.mem m)
    : Keeps L p s { s with mem := m } := by
  have hset : s.setProc p (s.proc p) = s := by
    unfold setProc
    rw [Function.update_eq_self]
  have hkeeps := Keeps.of_brings h hp hd hm ⟨rfl, rfl, rfl⟩ hp
  rw [hset] at hkeeps
  exact hkeeps

end VmSys

namespace StatusSys

open VmSys

variable {L : Layout} {s t : StatusSys} {p q : ProcId} {d status : BitVec 32}

def WordAt (d va w : BitVec 32) (m m' : Mem) : Prop :=
  ∀ a, a < 2 ^ 31 → m'.view d a =
    if va.toNat ≤ a ∧ a < va.toNat + 4 then (wordBytes w).getD (a - va.toNat) 0 else m.view d a

theorem reap_wordAt (h : Inv L s.sys) (hp : s.sys.Active p) (hd : (s.sys.proc p).pgdir = some d)
    (hend : status.toNat + 4 ≤ (s.sys.proc p).sz.toNat)
    (hmem : Backed s.sys.mem d status ∨ s.sys.mem.Has 4) (hq : (s.sys.proc q).state = .zombie)
    : ∃ t, s.reap L p status q = .ok (s.pid q, t) ∧ t.sys.proc p = s.sys.proc p ∧
        WordAt d status (s.status q) s.sys.mem t.sys.mem := by
  have hne : q ≠ p := by
    rintro rfl
    exact hp.2 hq
  have hused : (s.sys.proc q).state ≠ .unused := by
    rw [hq]
    nofun
  rcases h.kstack q hused with ⟨k, hk⟩
  rcases h.pgdir q hused with ⟨e, he⟩
  -- the pages of the two processes and the free pages are all different
  have hle : s.sys.mem.tables e + (s.sys.mem.own d + (k ::ₘ s.sys.mem.free)) ≤ s.sys.pages := by
    refine le_trans ?_ (procPages_add_le s.sys hne)
    rw [procPages_used hused hk he, ← Multiset.singleton_add]
    have hown := own_le_procPages (m := s.sys.mem) hp.1 hd
    have htables : s.sys.mem.tables e ≤ s.sys.mem.own e := by
      unfold Mem.own
      exact Multiset.le_add_right _ _
    calc s.sys.mem.tables e + (s.sys.mem.own d + ({k} + s.sys.mem.free))
      _ = {k} + s.sys.mem.tables e + (s.sys.mem.free + s.sys.mem.own d) := by ac_rfl
      _ ≤ _ := add_le_add (add_le_add le_rfl htables) (add_le_add le_rfl hown)
  have hnodup := Multiset.nodup_add.mp (Multiset.nodup_of_le hle h.nodup)
  have hmanaged := fun x hx => h.managed x (Multiset.mem_of_le hle hx)
  have hapart : ∀ x ∈ s.sys.mem.own d + (k ::ₘ s.sys.mem.free), x ∉ s.sys.mem.tables e :=
    fun x hx hin => Multiset.disjoint_left.mp hnodup.2.2 hin hx
  -- kfree(p->kstack)
  rcases Mem.kfree_ok s.sys.mem (hmanaged k (by simp)) with ⟨m₁, hok₁, hfree₁, hphys₁⟩
  have hagree₁ : Mem.Agree d s.sys.mem m₁ := by
    intro x hx
    apply hphys₁
    rintro rfl
    exact Multiset.disjoint_left.mp (Multiset.nodup_add.mp hnodup.2.1).2.2 hx
      (Multiset.mem_cons_self _ _)
  have howned₁ : Mem.Owned L m₁ d := by
    constructor
    . rw [hagree₁.own, hfree₁]
      exact hnodup.2.1
    . rw [hagree₁.own, hfree₁]
      exact fun x hx => hmanaged x (Multiset.mem_add.mpr (.inr hx))
  have hmem₁ : Backed m₁ d status ∨ m₁.Has 4 := by
    refine hmem.imp ?_ (fun hhas => hhas.kfree hok₁)
    intro hbacked i hi
    have hsz := h.sz p hp.1
    rw [hagree₁.walk (by omega)]
    exact hbacked i hi
  -- *status = p->status
  have hspec := storeInt_view (s := { s.sys with mem := m₁ }) howned₁ hd (h.sz p hp.1) hend hmem₁
    (s.status q)
  dsimp only at hspec
  rcases hspec with ⟨m₂, hstore, hmoves, hview⟩
  have htables : ∀ x ∈ s.sys.mem.tables e, m₂.phys x = s.sys.mem.phys x := by
    intro x hx
    have hnot : x ∉ s.sys.mem.own d + (k ::ₘ s.sys.mem.free) := fun hin => hapart x hin hx
    have hframe := hmoves.frame x
    rw [hagree₁.own, hfree₁] at hframe
    rw [hframe hnot]
    apply hphys₁
    rintro rfl
    exact hnot (by simp)
  have hconserve : m₂.own d + m₂.free = s.sys.mem.own d + (k ::ₘ s.sys.mem.free) := by
    rw [hmoves.conserve, ← hfree₁, ← hagree₁.own]
  have hvalid : Mem.Valid L m₂ e := by
    have hle₂ : m₂.tables e + m₂.free ≤
        s.sys.mem.tables e + (s.sys.mem.own d + (k ::ₘ s.sys.mem.free)) := by
      rw [Mem.tables_congr htables, ← hconserve]
      exact add_le_add le_rfl (Multiset.le_add_left _ _)
    constructor
    . exact Multiset.nodup_of_le (le_trans hle₂ hle) h.nodup
    . exact fun x hx => hmanaged x (Multiset.mem_of_le hle₂ hx)
  -- freevm(p->pgdir, 0)
  rcases hvalid.freevm with ⟨m₃, hok₃, _, hframe₃⟩
  have hagree₃ : Mem.Agree d m₂ m₃ := by
    intro x hx
    apply hframe₃
    rw [Mem.tables_congr htables]
    apply hapart
    rw [← hconserve]
    exact Multiset.mem_add.mpr (.inl hx)
  refine ⟨{ s with
      sys := { VmSys.modifyProc { s.sys with mem := m₂ } q
        ({ · with kstack := none, parent := none, killed := false, state := .unused }) with mem := m₃ }
      pid := Function.update s.pid q 0 }, ?_, ?_, ?_⟩
  . unfold reap
    simp only [hk]
    rw [hok₁, Fold.ok_bind, hstore, Fold.ok_bind]
    simp only [he]
    rw [hok₃, Fold.ok_bind]
    rfl
  . dsimp only
    rw [modifyProc_of_ne _ _ (Ne.symm hne)]
  . intro a ha
    dsimp only
    rw [hagree₃.view ha, hview a ha, hagree₁.view ha]

def zombieChild (p : ProcId) (s : StatusSys) : Option ProcId :=
  (List.finRange NPROC).find? (fun q => (s.sys.proc q).parent = some p ∧ (s.sys.proc q).state = .zombie)

def gone (p : ProcId) (s : StatusSys) : Bool :=
  !(List.finRange NPROC).any (fun q => (s.sys.proc q).parent = some p) || (s.sys.proc p).killed

/--
The pid and the status of the child that has exited when `wait` looks at the table, if there is one
before `wait` gives up.
-/
def found (p : ProcId) : List (StatusSys → StatusSys) → StatusSys → Option (BitVec 32 × BitVec 32)
  | others, s =>
    match zombieChild p s with
    | some q => some (s.pid q, s.status q)
    | none =>
      if gone p s then
        none
      else
        match others with
        | [] => none
        | other :: others => found p others (other (s.sleep p))

theorem scan_reaps (h : Inv L s.sys) (hp : s.sys.Active p) (hd : (s.sys.proc p).pgdir = some d)
    (hend : status.toNat + 4 ≤ (s.sys.proc p).sz.toNat)
    (hmem : Backed s.sys.mem d status ∨ s.sys.mem.Has 4) (hq : zombieChild p s = some q)
    : ∃ t, s.scan L p status = .ok (some (s.pid q), t) ∧ t.sys.proc p = s.sys.proc p ∧
        WordAt d status (s.status q) s.sys.mem t.sys.mem := by
  have hzombie := List.find?_some hq
  rw [decide_eq_true_iff] at hzombie
  rcases reap_wordAt h hp hd hend hmem hzombie.2 with ⟨t, hreap, hproc, hword⟩
  refine ⟨t, ?_, hproc, hword⟩
  unfold zombieChild at hq
  unfold scan
  dsimp only
  rw [hq]
  dsimp only
  rw [hreap]
  rfl

theorem scan_none (hq : zombieChild p s = none)
    : s.scan L p status = .ok (if gone p s then some (-1) else none, s) := by
  unfold zombieChild at hq
  unfold scan gone
  dsimp only
  rw [hq]
  dsimp only
  split
  . rfl
  . rfl

theorem Keeps.sleep (h : Inv L s.sys) (hp : s.sys.Active p) : Keeps L p s.sys (s.sleep p).sys := by
  rcases h.pgdir p hp.1 with ⟨d, hd⟩
  exact .of_brings h hp hd (.refl d _) ⟨rfl, rfl, rfl⟩ ⟨nofun, nofun⟩

-- How a call of `wait` ends that found `q`, with the memory `m` before it.
def Waited (d status : BitVec 32) (m : Mem) (r : BitVec 32 × StatusSys)
    : Option (BitVec 32 × BitVec 32) → Prop
  | none => r.1 = -1 ∧ ∀ a, a < 2 ^ 31 → r.2.sys.mem.view d a = m.view d a
  | some q => r.1 = q.1 ∧ WordAt d status q.2 m r.2.sys.mem

theorem Waited.congr {m m' : Mem} {r : BitVec 32 × StatusSys} {q : Option (BitVec 32 × BitVec 32)}
    (h : Waited d status m r q) (hview : ∀ a, a < 2 ^ 31 → m.view d a = m'.view d a)
    : Waited d status m' r q := by
  cases q with
  | none =>
    refine ⟨h.1, ?_⟩
    intro a ha
    rw [h.2 a ha, hview a ha]
  | some q =>
    refine ⟨h.1, ?_⟩
    intro a ha
    rw [h.2 a ha, hview a ha]

theorem wait_returns (others : List (StatusSys → StatusSys)) (h : Inv L s.sys) (hp : s.sys.Active p)
    (hd : (s.sys.proc p).pgdir = some d) (hend : status.toNat + 4 ≤ (s.sys.proc p).sz.toNat)
    (hmem : Backed s.sys.mem d status ∨ s.sys.mem.Has 4)
    (hnow : zombieChild p s ≠ none ∨ gone p s = true)
    : ∃ r, wait L p status others s = .ok r ∧ (r.2.sys.proc p).pgdir = some d ∧
        Waited d status s.sys.mem r (found p others s) := by
  unfold wait found
  cases hq : zombieChild p s with
  | some q =>
    rcases scan_reaps h hp hd hend hmem hq with ⟨t, hscan, hproc, hword⟩
    rw [hscan]
    refine ⟨(s.pid q, t), rfl, ?_, rfl, hword⟩
    rw [← hd, ← hproc]
  | none =>
    have hgone := hnow.resolve_left (fun hne => hne hq)
    rw [scan_none hq, hgone]
    exact ⟨(-1, s), rfl, hd, rfl, fun _ _ => rfl⟩

theorem wait_outcome (others : List (StatusSys → StatusSys)) (h : Inv L s.sys) (hp : s.sys.Active p)
    (hd : (s.sys.proc p).pgdir = some d) (hend : status.toNat + 4 ≤ (s.sys.proc p).sz.toNat)
    (hothers : ∀ other ∈ others, ∀ u : StatusSys, Inv L u.sys → u.sys.Active p →
      Keeps L p u.sys (other u).sys)
    (hmem : Backed s.sys.mem d status ∨ s.sys.mem.Has 4 ∧
      ∀ other ∈ others, ∀ u : StatusSys, u.sys.mem.Has 4 → (other u).sys.mem.Has 4)
    : Outcome (· = .diverges) (wait L p status others s)
        (fun r => (r.2.sys.proc p).pgdir = some d ∧ Waited d status s.sys.mem r (found p others s)) := by
  induction others generalizing s with
  | nil =>
    by_cases hnow : zombieChild p s ≠ none ∨ gone p s = true
    . rcases wait_returns [] h hp hd hend (hmem.imp_right And.left) hnow with ⟨r, hr, hwaited⟩
      rw [hr]
      exact hwaited
    . rw [not_or, Classical.not_not, Bool.not_eq_true] at hnow
      rw [wait, scan_none hnow.1, hnow.2]
      exact rfl
  | cons other others ih =>
    by_cases hnow : zombieChild p s ≠ none ∨ gone p s = true
    . rcases wait_returns (other :: others) h hp hd hend (hmem.imp_right And.left) hnow with
        ⟨r, hr, hwaited⟩
      rw [hr]
      exact hwaited
    . rw [not_or, Classical.not_not, Bool.not_eq_true] at hnow
      have hsleep := Keeps.sleep h hp
      have hkeeps := hsleep.trans
        (hothers other List.mem_cons_self (s.sleep p) hsleep.inv hsleep.active)
      rw [wait, scan_none hnow.1, hnow.2, found, hnow.1, hnow.2]
      refine (ih hkeeps.inv hkeeps.active (hkeeps.pgdir.trans hd) ?_ ?_ ?_).mono ?_
      . rw [hkeeps.sz]
        exact hend
      . exact fun o ho => hothers o (List.mem_cons_of_mem other ho)
      . refine hmem.imp ?_ ?_
        . intro hbacked i hi
          have hsz := h.sz p hp.1
          exact hkeeps.present d hd _ (by omega) (hbacked i hi)
        . rintro ⟨hhas, hmore⟩
          exact ⟨hmore other List.mem_cons_self (s.sleep p) hhas,
            fun o ho => hmore o (List.mem_cons_of_mem other ho)⟩
      . rintro r ⟨hpgdir, hwaited⟩
        exact ⟨hpgdir, hwaited.congr (hkeeps.view d hd)⟩

/--
The pages of the argument and of the status word are there, or there is memory for the page faults
that bring them in.
-/
def Provided (p : ProcId) (d : BitVec 32) (others : List (StatusSys → StatusSys)) (s : StatusSys) : Prop :=
  (Backed s.sys.mem d ((s.sys.proc p).esp + 4) ∧
    ∀ status, argptr (s.sys.proc p).sz (s.sys.proc p).esp (s.sys.mem.peekWord d) 0 4 = some status →
      Backed s.sys.mem d status) ∨
    s.sys.mem.Has 8 ∧
      ∀ other ∈ others, ∀ u : StatusSys, u.sys.mem.Has 4 → (other u).sys.mem.Has 4

/--
What `sys_wait` is to do to the memory of its caller, with the child `q` that it finds: the word at the
status pointer receives the status of the child, unless the pointer is null, and nothing else changes.
-/
def StatusOnly (d status : BitVec 32) (m : Mem) (r : BitVec 32 × StatusSys)
    : Option (BitVec 32 × BitVec 32) → Prop
  | none => r.1 = -1 ∧ ∀ a, a < 2 ^ 31 → r.2.sys.mem.view d a = m.view d a
  | some q => r.1 = q.1 ∧
    if status = 0 then ∀ a, a < 2 ^ 31 → r.2.sys.mem.view d a = m.view d a
    else WordAt d status q.2 m r.2.sys.mem

theorem Waited.statusOnly_iff {m : Mem} {r : BitVec 32 × StatusSys}
    {q : Option (BitVec 32 × BitVec 32)} (h : Waited d status m r q)
    : StatusOnly d status m r q ↔ status ≠ 0 ∨ ∀ x, q = some x → WordAt d 0 x.2 m m := by
  cases q with
  | none => exact ⟨fun _ => .inr nofun, fun _ => h⟩
  | some q =>
    unfold StatusOnly
    dsimp only
    by_cases hnull : status = 0
    . subst hnull
      simp only [h.1, ↓reduceIte, true_and, ne_eq, not_true_eq_false, false_or]
      constructor
      . rintro hsame x hx a ha
        cases hx
        rw [← h.2 a ha, hsame a ha]
      . intro hword a ha
        rw [h.2 a ha, ← hword q rfl a ha]
    . rw [if_neg hnull]
      exact ⟨fun _ => .inl hnull, fun _ => h⟩

/--
A call of `sys_wait` that returns changes no user memory of its caller but the word at the status
pointer, and that only with a child that has exited. It does so at a null pointer too: the call is right
if and only if the pointer is another one, or there is no such child, or its status is at address 0
already.
-/
theorem sysWait_changes_status_word (others : List (StatusSys → StatusSys)) (h : Inv L s.sys)
    (hp : s.sys.Active p) (hd : (s.sys.proc p).pgdir = some d)
    (hothers : ∀ other ∈ others, ∀ u : StatusSys, Inv L u.sys → u.sys.Active p →
      Keeps L p u.sys (other u).sys)
    (hmem : Provided p d others s)
    : Outcome (· = .diverges) (s.sysWait L p others)
        (fun r => (r.2.sys.proc p).pgdir = some d ∧ ∃ m : Mem,
          (∀ a, a < 2 ^ 31 → m.view d a = s.sys.mem.view d a) ∧
          match argptr (s.sys.proc p).sz (s.sys.proc p).esp (s.sys.mem.peekWord d) 0 4 with
          | none => r = (-1, { s with sys := { s.sys with mem := m } })
          | some status =>
            ∃ q, q = found p others { s with sys := { s.sys with mem := m } } ∧
              Waited d status s.sys.mem r q ∧
              (StatusOnly d status s.sys.mem r q ↔
                status ≠ 0 ∨ ∀ x, q = some x → WordAt d 0 x.2 s.sys.mem s.sys.mem)) := by
  have howned := h.owned hp.1 hd
  have hsz := h.sz p hp.1
  have haddr : (s.sys.proc p).esp + 4 + 4 * 0 = (s.sys.proc p).esp + 4 := by simp
  have harg : Backed s.sys.mem d ((s.sys.proc p).esp + 4 + 4 * 0) ∨ s.sys.mem.Has 4 := by
    rw [haddr]
    exact hmem.imp And.left (fun hhas => hhas.1.mono (by omega))
  rcases argptrLoad_brings howned hd hsz 0 4 harg with ⟨m, hload, hbrings, hhas⟩
  have hkeeps := Keeps.brings h hp hd hbrings
  unfold sysWait
  rw [hload, Fold.ok_bind]
  dsimp only
  cases hptr : argptr (s.sys.proc p).sz (s.sys.proc p).esp (s.sys.mem.peekWord d) 0 4 with
  | none => exact ⟨hd, m, hbrings.view, rfl⟩
  | some status =>
    have hend : status.toNat + 4 ≤ (s.sys.proc p).sz.toNat := argptr_le hsz hptr
    refine (wait_outcome (s := { s with sys := { s.sys with mem := m } }) others hkeeps.inv hkeeps.active hd hend hothers ?_).mono ?_
    . refine hmem.imp ?_ ?_
      . rintro ⟨_, hbacked⟩ i hi
        exact hbrings.present _ (by omega) (hbacked status hptr i hi)
      . rintro ⟨hhas8, hmore⟩
        exact ⟨hhas 4 hhas8, hmore⟩
    . rintro r ⟨hpgdir, hwaited⟩
      have hfound := hwaited.congr hbrings.view
      exact ⟨hpgdir, m, hbrings.view, _, rfl, hfound, hfound.statusOnly_iff⟩

def exits (L : Layout) (q : ProcId) (status : BitVec 32) (s : StatusSys) : StatusSys :=
  if (s.sys.proc q).state ≠ .unused ∧ s.sys.initproc ≠ some q then
    match s.sys.exit L q with
    | .ok sys => { s with sys := sys, status := Function.update s.status q status }
    | .error _ => s
  else
    s

theorem exits_keeps (h : Inv L s.sys) (hp : s.sys.Active p) (hne : p ≠ q) (status : BitVec 32)
    : Keeps L p s.sys (exits L q status s).sys := by
  unfold exits
  split
  next hq =>
    rcases h.pgdir q hq.1 with ⟨e, he⟩
    rcases h.exit hq.1 hq.2 he with ⟨sys, hexit, hsteps, _⟩
    rw [hexit]
    exact hsteps.keeps h hne hp
  . exact .refl h hp

def family (state : ProcState) (arg : BitVec 32) : StatusSys where
  sys :=
    { mem := (laid 0x1000 0x403007 0 0 []).mem.setEntry 0x403000 65 arg
      proc := fun p =>
        if p = 0 then
          ⟨.running, none, some 0x401000, some 0x400000, 0x1000, 0, 0x100, false⟩
        else if p = 1 then
          ⟨state, some 0, some 0x404000, some 0x405000, 0x1000, 0, 0x100, false⟩
        else
          ⟨.unused, none, none, none, 0, 0, 0, false⟩
      initproc := some 2
      pipes := [] }
  pid p := if p = 0 then 3 else if p = 1 then 4 else 0
  status p := if p = 1 then 0x700 else 0

section

variable (state : ProcState) (arg : BitVec 32)

theorem family_own_parent
    : (family state arg).sys.mem.own 0x400000 = {0x400000, 0x402000} + Mem.frameOf 0x403007 := by
  have hown : (family state arg).sys.mem.own 0x400000 =
      (laid 0x1000 0x403007 0 0 []).mem.own 0x400000 := by
    apply Mem.own_congr
    rw [laid_tables]
    intro x hx
    apply Mem.setEntry_phys_of_ne
    rintro rfl
    revert hx
    decide
  rw [hown, Mem.own, laid_tables, laid_user, Mem.frameOf_of_absent pteP_zero, add_zero, add_zero]

theorem family_entry_child (i : Nat) : (family state arg).sys.mem.entry 0x405000 i = 0 := by
  have hlaid : (laidMem 0x403007 0 0).entry 0x405000 i = 0 := by
    unfold laidMem
    rw [Mem.entry_setEntry_of_ne _ _ _ _ (by decide), Mem.entry_setEntry_of_ne _ _ _ _ (by decide),
      Mem.entry_setEntry_of_ne _ _ _ _ (by decide), Mem.entry_setEntry_of_ne _ _ _ _ (by decide),
      Mem.entry_setEntry_of_ne _ _ _ _ (by decide), single_entry]
  exact (Mem.entry_setEntry_of_ne _ _ _ _ (by decide)).trans hlaid

theorem family_user_child : (family state arg).sys.mem.user 0x405000 = 0 := by
  unfold Mem.user Mem.walk
  simp only [family_entry_child, pteP_zero, Bool.false_eq_true, ↓reduceIte,
    Mem.frameOf_of_absent pteP_zero, Finset.sum_const_zero]

theorem family_own_child : (family state arg).sys.mem.own 0x405000 = {0x405000} := by
  unfold Mem.own Mem.tables
  rw [family_user_child]
  simp only [family_entry_child, Mem.frameOf_of_absent pteP_zero, Finset.sum_const_zero, add_zero]

variable {state}

theorem family_pages (hstate : state ≠ .unused)
    : (family state arg).sys.pages =
        {0x401000, 0x400000, 0x402000, 0x403000, 0x404000, 0x405000} := by
  have hsum : ∑ p, procPages (family state arg).sys.mem ((family state arg).sys.proc p) =
      procPages (family state arg).sys.mem ((family state arg).sys.proc 0) +
        procPages (family state arg).sys.mem ((family state arg).sys.proc 1) := by
    apply Finset.sum_eq_add_of_mem 0 1 (Finset.mem_univ 0) (Finset.mem_univ 1) (by decide)
    intro p _ hp
    apply procPages_unused
    simp [family, hp.1, hp.2]
  have hparent : procPages (family state arg).sys.mem ((family state arg).sys.proc 0) =
      {0x401000} + (family state arg).sys.mem.own 0x400000 :=
    procPages_used (by simp [family]) rfl rfl
  have hchild : procPages (family state arg).sys.mem ((family state arg).sys.proc 1) =
      {0x404000} + (family state arg).sys.mem.own 0x405000 :=
    procPages_used hstate rfl rfl
  unfold pages
  rw [hsum, hparent, hchild, family_own_parent, family_own_child]
  exact (add_zero _).trans ((zero_add _).trans (by decide))

theorem family_inv (hstate : state ≠ .unused) : Inv smallLayout (family state arg).sys := by
  have hproc : ∀ p, ((family state arg).sys.proc p).state ≠ .unused → p = 0 ∨ p = 1 := by
    intro p hp
    by_contra hne
    rw [not_or] at hne
    simp [family, hne.1, hne.2] at hp
  refine ⟨?_, ?_, ?_, ?_, ?_, ?_⟩
  . rw [family_pages arg hstate]
    decide
  . rw [family_pages arg hstate]
    have hmanaged : ∀ x ∈ [0x401000, 0x400000, 0x402000, 0x403000, 0x404000, (0x405000 : BitVec 32)],
        x.toNat % 4096 = 0 ∧ 0x300000 ≤ x.toNat ∧ x.toNat < 0xE000000 := by
      simp
    intro x hx
    rcases hmanaged x (Multiset.mem_coe.mp hx) with ⟨halign, hlow, hhigh⟩
    have hkend : smallLayout.kend.toNat = 0x80300000 := rfl
    exact ⟨halign, by omega, hhigh⟩
  . intro p hp
    rcases hproc p hp with rfl | rfl
    . exact ⟨_, rfl⟩
    . exact ⟨_, rfl⟩
  . intro p hp
    rcases hproc p hp with rfl | rfl
    . exact ⟨_, rfl⟩
    . exact ⟨_, rfl⟩
  . intro p hp
    have hsz : (0x1000 : BitVec 32).toNat ≤ 2 ^ 31 := by decide
    rcases hproc p hp with rfl | rfl
    . exact hsz
    . exact hsz
  . intro p d hz hd
    have hp := hproc p (by rw [hz]; nofun)
    rcases hp with rfl | rfl
    . cases hz
    . cases hd
      exact family_user_child state arg

end

theorem sysWait_changes_status_word_family
    : ∃ r, (family .running 0x200).sysWait smallLayout 0 [exits smallLayout 1 0x700] = .ok r ∧
        r.1 = 4 ∧ r.2.sys.mem.peekWord 0x400000 0x200 = 0x700 ∧
        ∃ q, StatusOnly 0x400000 0x200 (family .running 0x200).sys.mem r q := by
  have hargptr : argptr ((family .running 0x200).sys.proc 0).sz
      ((family .running 0x200).sys.proc 0).esp
      ((family .running 0x200).sys.mem.peekWord 0x400000) 0 4 = some 0x200 := by
    decide +kernel
  have hprovided : Provided 0 0x400000 [exits smallLayout 1 0x700] (family .running 0x200) := by
    refine .inl ⟨?_, ?_⟩
    . unfold Backed
      decide +kernel
    . intro status hstatus
      rw [hargptr] at hstatus
      cases hstatus
      unfold Backed
      decide +kernel
  have houtcome := sysWait_changes_status_word (p := 0) (d := 0x400000) [exits smallLayout 1 0x700]
    (family_inv 0x200 (nofun : ProcState.running ≠ .unused)) ⟨nofun, nofun⟩ rfl
    (by
      intro other hother u hu hactive
      rw [List.mem_singleton.mp hother]
      exact exits_keeps hu hactive (by decide) 0x700)
    hprovided
  rw [hargptr] at houtcome
  have hrun : (((family .running 0x200).sysWait smallLayout 0 [exits smallLayout 1 0x700]).map
      fun r => (r.1, r.2.sys.mem.peekWord 0x400000 0x200)) = .ok (4, 0x700) := by
    decide +kernel
  cases hr : (family .running 0x200).sysWait smallLayout 0 [exits smallLayout 1 0x700] with
  | error e => rw [hr] at hrun; cases hrun
  | ok r =>
    rw [hr] at houtcome hrun
    have hresult := Except.ok.inj hrun
    rcases houtcome with ⟨_, _, _, q, _, _, hiff⟩
    exact ⟨r, rfl, congrArg Prod.fst hresult, congrArg Prod.snd hresult, q, hiff.mpr (.inl nofun)⟩

/--
`wait` does not test the status pointer, and `argptr` lets 0 through: `wait(NULL)` puts the status of
the child over the first instruction of the program.
-/
theorem sysWait_null_overwrites_text
    : Inv smallLayout (family .zombie 0).sys ∧ (family .zombie 0).sys.Active 0 ∧
        argptr ((family .zombie 0).sys.proc 0).sz ((family .zombie 0).sys.proc 0).esp
          ((family .zombie 0).sys.mem.peekWord 0x400000) 0 4 = some 0 ∧
        (family .zombie 0).sys.mem.peekWord 0x400000 0 = 0xff ∧
        (((family .zombie 0).sysWait smallLayout 0 []).map fun r =>
          (r.1, r.2.sys.mem.peekWord 0x400000 0)) = .ok (4, 0x700) := by
  refine ⟨family_inv 0 nofun, ⟨nofun, nofun⟩, ?_, ?_, ?_⟩
  . decide +kernel
  . decide +kernel
  . decide +kernel

end StatusSys

end Xv6
