import Xv6.Vm.Lemmas.Fault

/-!
What `copyout` writes, byte by byte, and what it must not write.
-/

namespace Xv6

def pteUser (w : BitVec 32) : Bool :=
  pteP w && pteU w

namespace Mem

variable {d : BitVec 32} {m m' : Mem} {buf : List (BitVec 8)} {a : Nat}

/--
The pages that user code can access are in different frames, none of which is one of the page
tables.
-/
structure Protects (d : BitVec 32) (m : Mem) : Prop where
  inj : ∀ u v, u < 2 ^ 20 → v < 2 ^ 20 → pteUser (m.walk d u) → pteUser (m.walk d v) →
    pteAddr (m.walk d u) = pteAddr (m.walk d v) → u = v
  table : ∀ u, u < 2 ^ 20 → pteUser (m.walk d u) → pteAddr (m.walk d u) ∉ m.tables d

def Touches (a n u : Nat) : Prop :=
  0 < n ∧ a / 4096 ≤ u ∧ 4096 * u < a + n

def frameAt (m : Mem) (d : BitVec 32) (a : Nat) : BitVec 32 :=
  pteAddr (m.walk d (a / 4096))

structure Copied (d : BitVec 32) (a : Nat) (buf : List (BitVec 8)) (m m' : Mem) : Prop where
  byte : ∀ i, i < buf.length → (m'.phys (m.frameAt d (a + i))).byte ((a + i) % 4096) = buf.getD i 0
  other : ∀ x j, (∀ i, i < buf.length → ¬ (x = m.frameAt d (a + i) ∧ j = (a + i) % 4096)) →
    (m'.phys x).byte j = (m.phys x).byte j
  freelist : m'.freelist = m.freelist
  denied : m'.denied = m.denied

structure Spares (d : BitVec 32) (a n : Nat) (m m' : Mem) : Prop where
  phys : ∀ x, (∀ u, Touches a n u → pteUser (m.walk d u) → x ≠ pteAddr (m.walk d u)) →
    m'.phys x = m.phys x
  freelist : m'.freelist = m.freelist
  denied : m'.denied = m.denied

-- The search of `uva2ka` finds a page table for every page before which no other fails.
def HasTables (d : BitVec 32) (a n : Nat) (m : Mem) : Prop :=
  ∀ u, Touches a n u → (∀ v, Touches a n v → v < u → pteUser (m.walk d v)) →
    pteP (m.entry d (u / 1024))

def pour (m : Mem) (d : BitVec 32) (a n : Nat) (buf : List (BitVec 8)) : Mem :=
  let page := (m.phys (m.frameAt d a)).blit (a % 4096) n (fun i => buf.getD i 0)
  { m with phys := Function.update m.phys (m.frameAt d a) page }

theorem pour_phys_self (m : Mem) (d : BitVec 32) (a n : Nat) (buf : List (BitVec 8))
    : (m.pour d a n buf).phys (m.frameAt d a) =
        (m.phys (m.frameAt d a)).blit (a % 4096) n (fun i => buf.getD i 0) := by
  unfold pour
  exact Function.update_self _ _ _

theorem pour_phys_of_ne (m : Mem) {x : BitVec 32} (n : Nat) (buf : List (BitVec 8))
    (h : x ≠ m.frameAt d a)
    : (m.pour d a n buf).phys x = m.phys x := by
  unfold pour
  exact Function.update_of_ne h _ _

theorem pour_phys_tables (h : Protects d m) (ha : a < 2 ^ 32) (hu : pteUser (m.walk d (a / 4096)))
    (n : Nat) (buf : List (BitVec 8))
    : ∀ x ∈ m.tables d, (m.pour d a n buf).phys x = m.phys x := by
  intro x hx
  apply pour_phys_of_ne
  intro heq
  rw [heq] at hx
  exact h.table _ (by omega) hu hx

theorem Protects.congr (h : Protects d m) (hsame : ∀ x ∈ m.tables d, m'.phys x = m.phys x)
    : Protects d m' := by
  constructor
  . intro u v hu hv
    rw [walk_congr hsame hu, walk_congr hsame hv]
    exact h.inj u v hu hv
  . intro u hu
    rw [walk_congr hsame hu, tables_congr hsame]
    exact h.table u hu

theorem copied_nil (d : BitVec 32) (a : Nat) (m : Mem) : Copied d a [] m m := by
  refine ⟨?_, fun _ _ _ => rfl, rfl, rfl⟩
  intro i hi
  contradiction

theorem spares_refl (d : BitVec 32) (a n : Nat) (m : Mem) : Spares d a n m m :=
  ⟨fun _ _ => rfl, rfl, rfl⟩

theorem Copied.cons {n : Nat} (h : Protects d m) (hend : a + buf.length ≤ 2 ^ 32)
    (hn : n = min (4096 - a % 4096) buf.length)
    (huser : ∀ u, Touches a buf.length u → pteUser (m.walk d u))
    (hrest : Copied d (4096 * (a / 4096 + 1)) (buf.drop n) (m.pour d a n buf) m')
    (hpos : 0 < buf.length)
    : Copied d a buf m m' := by
  have hsame := pour_phys_tables h (by omega) (huser _ ⟨hpos, le_refl _, by omega⟩) n buf
  have hframe : ∀ b, b < 2 ^ 32 → (m.pour d a n buf).frameAt d b = m.frameAt d b := by
    intro b hb
    unfold frameAt
    rw [walk_congr hsame (by omega)]
  have hlen : (buf.drop n).length = buf.length - n := List.length_drop
  refine ⟨?_, ?_, by rw [hrest.freelist]; rfl, by rw [hrest.denied]; rfl⟩
  . intro i hi
    by_cases hlt : i < n
    . have hpage : (a + i) / 4096 = a / 4096 := by omega
      have hoff : (a + i) % 4096 = a % 4096 + i := by omega
      have hsameFrame : m.frameAt d (a + i) = m.frameAt d a := by
        unfold frameAt
        rw [hpage]
      have hlt' : a % 4096 + i < PGSIZE := by
        rw [PGSIZE]
        omega
      rw [hrest.other, hsameFrame, pour_phys_self, hoff, Bytes.byte_blit _ _ _ _ _ hlt']
      . rw [if_pos (by omega), Nat.add_sub_cancel_left]
      . -- the later pages are in other frames
        intro k hk heq
        rw [hframe _ (by omega)] at heq
        have := h.inj _ _ (by omega) (by omega) (huser _ ⟨hpos, by omega, by omega⟩)
          (huser ((4096 * (a / 4096 + 1) + k) / 4096) ⟨hpos, by omega, by omega⟩) heq.1
        omega
    . have hge := hrest.byte (i - n) (by omega)
      have haddr : 4096 * (a / 4096 + 1) + (i - n) = a + i := by omega
      rw [haddr, hframe _ (by omega)] at hge
      rw [hge, List.getD_eq_getElem?_getD, List.getD_eq_getElem?_getD, List.getElem?_drop,
        Nat.add_sub_cancel' (by omega)]
  . intro x j hx
    rw [hrest.other]
    . by_cases hxa : x = m.frameAt d a
      . rw [hxa, pour_phys_self]
        apply Bytes.byte_blit_of_disjoint
        apply Classical.byContradiction
        intro hin
        apply hx (j - a % 4096) (by omega)
        have hpage : (a + (j - a % 4096)) / 4096 = a / 4096 := by omega
        refine ⟨?_, by omega⟩
        unfold frameAt
        rw [hpage]
        exact hxa
      . rw [pour_phys_of_ne m n buf hxa]
    . intro k hk heq
      rw [hframe _ (by omega)] at heq
      apply hx (n + k) (by omega)
      have haddr : 4096 * (a / 4096 + 1) + k = a + (n + k) := by omega
      rw [← haddr]
      exact heq

theorem Spares.cons {n : Nat} (h : Protects d m) (hend : a + buf.length ≤ 2 ^ 32)
    (hn : n = min (4096 - a % 4096) buf.length) (hpos : 0 < buf.length)
    (hu : pteUser (m.walk d (a / 4096)))
    (hrest : Spares d (4096 * (a / 4096 + 1)) (buf.length - n) (m.pour d a n buf) m')
    : Spares d a buf.length m m' := by
  have hsame := pour_phys_tables h (by omega) hu n buf
  refine ⟨?_, by rw [hrest.freelist]; rfl, by rw [hrest.denied]; rfl⟩
  intro x hx
  rw [hrest.phys]
  . exact pour_phys_of_ne m n buf (hx _ ⟨hpos, le_refl _, by omega⟩ hu)
  . rintro u ⟨_, hu1, hu2⟩
    rw [walk_congr hsame (by omega)]
    exact hx u ⟨hpos, by omega, by omega⟩

theorem copyout_nil (cr3 d : BitVec 32) (fuel : Nat) (m : Mem) (va : BitVec 32)
    : copyout.loop cr3 d fuel m va [] = .ok (true, m) := by
  cases fuel with
  | zero => rfl
  | succ fuel => rfl

theorem copyout_step {va : BitVec 32} (hpos : 0 < buf.length) (hpde : pteP (m.entry d (pdx va)))
    (fuel : Nat) (cr3 : BitVec 32)
    : copyout.loop cr3 d (fuel + 1) m va buf =
        if pteUser (m.walk d (va.toNat / 4096)) then
          copyout.loop cr3 d fuel
            (m.pour d va.toNat (min (4096 - va.toNat % 4096) buf.length) buf) (pgrounddown va + 4096)
            (buf.drop (min (4096 - va.toNat % 4096) buf.length))
        else
          .ok (false, m) := by
  have hva0 := pgrounddown_toNat va
  have hvpn : (pgrounddown va).toNat / 4096 = va.toNat / 4096 := by omega
  have hsub : (va - pgrounddown va).toNat = va.toNat % 4096 := by
    rw [BitVec.toNat_sub, hva0]
    omega
  have hpde0 : pteP (m.entry d (pdx (pgrounddown va))) := by
    rw [pdx_eq, hvpn, ← pdx_eq]
    exact hpde
  rw [copyout.loop]
  rw [if_pos hpos]
  simp only
  rw [uva2ka_of_pde hpde0, Fold.ok_bind, hvpn]
  by_cases hu : pteUser (m.walk d (va.toNat / 4096))
  . rw [if_pos hu]
    unfold pteUser at hu
    rw [if_pos hu]
    simp only
    rw [hsub]
    rfl
  . rw [if_neg hu]
    unfold pteUser at hu
    rw [if_neg hu]
    rfl

theorem copyout_loop_spec {va : BitVec 32} {fuel : Nat} (h : Protects d m)
    (hfuel : buf.length ≤ fuel) (hend : va.toNat + buf.length ≤ 2 ^ 32)
    (htables : HasTables d va.toNat buf.length m)
    : ∃ r m', (∀ cr3, copyout.loop cr3 d fuel m va buf = .ok (r, m')) ∧
        (r = true ↔ ∀ u, Touches va.toNat buf.length u → pteUser (m.walk d u)) ∧
        (r = true → Copied d va.toNat buf m m') ∧ Spares d va.toNat buf.length m m' := by
  induction fuel generalizing m va buf with
  | zero =>
    have hbuf : buf = [] := List.length_eq_zero_iff.mp (by omega)
    subst hbuf
    refine ⟨true, m, fun _ => rfl, ?_, fun _ => copied_nil _ _ _, spares_refl _ _ _ _⟩
    simp [Touches]
  | succ fuel ih =>
    by_cases hpos : 0 < buf.length
    . have hpde : pteP (m.entry d (pdx va)) := by
        rw [pdx_eq]
        exact htables _ ⟨hpos, le_refl _, by omega⟩ (by unfold Touches; omega)
      have hstep := copyout_step hpos hpde fuel
      generalize hn : min (4096 - va.toNat % 4096) buf.length = n at hstep
      by_cases hu : pteUser (m.walk d (va.toNat / 4096))
      . simp only [if_pos hu] at hstep
        have hsame := pour_phys_tables h va.isLt hu n buf
        have hlen : (buf.drop n).length = buf.length - n := List.length_drop
        have hwalk : ∀ u, u < 2 ^ 20 → (m.pour d va.toNat n buf).walk d u = m.walk d u :=
          fun u hu => walk_congr hsame hu
        generalize hb : 4096 * (va.toNat / 4096 + 1) = b
        generalize hm₁ : m.pour d va.toNat n buf = m₁ at hsame hwalk hstep
        have hrec : ∃ r m', (∀ cr3, copyout.loop cr3 d fuel m₁ (pgrounddown va + 4096) (buf.drop n) =
              .ok (r, m')) ∧
            (r = true ↔ ∀ u, Touches b (buf.length - n) u → pteUser (m₁.walk d u)) ∧
            (r = true → Copied d b (buf.drop n) m₁ m') ∧ Spares d b (buf.length - n) m₁ m' := by
          by_cases hmore : n < buf.length
          . have hnext : (pgrounddown va + 4096).toNat = b := by
              rw [BitVec.toNat_add, pgrounddown_toNat]
              simp only [BitVec.ofNat_eq_ofNat, BitVec.toNat_ofNat]
              omega
            rw [← hnext, ← hlen]
            apply ih (h.congr hsame)
            . omega
            . omega
            . rintro u ⟨_, hu1, hu2⟩ hbefore
              rw [entry_congr (hsame d (self_mem_tables m d))]
              apply htables u ⟨hpos, by omega, by omega⟩
              rintro v ⟨_, hv1, hv2⟩ hlt
              by_cases hfirst : v = va.toNat / 4096
              . rw [hfirst]
                exact hu
              . rw [← hwalk v (by omega)]
                exact hbefore v ⟨by omega, by omega, by omega⟩ hlt
          . rw [List.drop_of_length_le (by omega)]
            refine ⟨true, m₁, fun cr3 => copyout_nil _ _ _ _ _, ?_, fun _ => copied_nil _ _ _,
              spares_refl _ _ _ _⟩
            rw [Nat.sub_eq_zero_of_le (by omega)]
            simp [Touches]
        rcases hrec with ⟨r, m', hok, hiff, hcopied, hspares⟩
        have hall : r = true ↔ ∀ u, Touches va.toNat buf.length u → pteUser (m.walk d u) := by
          rw [hiff]
          constructor
          . rintro hrest u ⟨_, hu1, hu2⟩
            by_cases hfirst : u = va.toNat / 4096
            . rw [hfirst]
              exact hu
            . rw [← hwalk u (by omega)]
              exact hrest u ⟨by omega, by omega, by omega⟩
          . rintro hrange u ⟨_, hu1, hu2⟩
            rw [hwalk u (by omega)]
            exact hrange u ⟨hpos, by omega, by omega⟩
        subst hb hm₁
        refine ⟨r, m', fun cr3 => by rw [hstep, hok], hall, ?_, .cons h hend hn.symm hpos hu hspares⟩
        intro hr
        exact .cons h hend hn.symm (hall.mp hr) (hcopied hr) hpos
      . simp only [if_neg hu] at hstep
        refine ⟨false, m, hstep, ?_, nofun, spares_refl _ _ _ _⟩
        constructor
        . nofun
        . intro hall
          exact absurd (hall _ ⟨hpos, le_refl _, by omega⟩) hu
    . have hbuf : buf = [] := List.length_eq_zero_iff.mp (by omega)
      subst hbuf
      refine ⟨true, m, fun cr3 => copyout_nil _ _ _ _ _, ?_, fun _ => copied_nil _ _ _,
        spares_refl _ _ _ _⟩
      simp [Touches]

theorem nullWord_of_absent {e : BitVec 32} (h : ¬ pteP (m.entry e 0))
    : m.nullWord e = .error .nullDeref := by
  unfold nullWord
  rw [walkpgdir_false, show pdx 0 = 0 from rfl, if_neg h]

/--
A page directory with nothing at address 0, as `kpgdir`, which is none of the pages that user code can
access through `d`.
-/
structure Kernel (e d : BitVec 32) (m : Mem) : Prop where
  absent : ¬ pteP (m.entry e 0)
  apart : ∀ u, u < 2 ^ 20 → pteUser (m.walk d u) → e ≠ pteAddr (m.walk d u)

-- On the way to the missing page table every page is written, and then the null pointer is followed.
theorem copyout_loop_null {e va : BitVec 32} {fuel : Nat} (h : Protects d m) (he : Kernel e d m)
    (hfuel : buf.length ≤ fuel) (hend : va.toNat + buf.length ≤ 2 ^ 32)
    (htables : ¬ HasTables d va.toNat buf.length m)
    : copyout.loop e d fuel m va buf = .error .nullDeref := by
  induction fuel generalizing m va buf with
  | zero =>
    exfalso
    apply htables
    rintro u ⟨hpos, _⟩
    omega
  | succ fuel ih =>
    unfold HasTables at htables
    push Not at htables
    rcases htables with ⟨u, ⟨hpos, hu1, hu2⟩, hbefore, hmissing⟩
    by_cases hpde : pteP (m.entry d (pdx va))
    . have hne : u ≠ va.toNat / 4096 := by
        intro heq
        rw [pdx_eq, ← heq] at hpde
        exact hmissing hpde
      have hu := hbefore (va.toNat / 4096) ⟨hpos, le_refl _, by omega⟩ (by omega)
      rw [copyout_step hpos hpde, if_pos hu]
      generalize hn : min (4096 - va.toNat % 4096) buf.length = n
      have hsame := pour_phys_tables h va.isLt hu n buf
      have hlen : (buf.drop n).length = buf.length - n := List.length_drop
      have hwalk : ∀ u, u < 2 ^ 20 → (m.pour d va.toNat n buf).walk d u = m.walk d u :=
        fun u hu => walk_congr hsame hu
      have hempty : (m.pour d va.toNat n buf).entry e 0 = m.entry e 0 :=
        entry_congr (pour_phys_of_ne m n buf (he.apart _ (by omega) hu)) 0
      have hnext : (pgrounddown va + 4096).toNat = 4096 * (va.toNat / 4096 + 1) := by
        rw [BitVec.toNat_add, pgrounddown_toNat]
        simp only [BitVec.ofNat_eq_ofNat, BitVec.toNat_ofNat]
        omega
      apply ih (h.congr hsame)
      . refine ⟨by rw [hempty]; exact he.absent, ?_⟩
        intro u hu
        rw [hwalk u hu]
        exact he.apart u hu
      . omega
      . omega
      . rw [hnext, hlen]
        intro hall
        apply hmissing
        rw [← entry_congr (hsame d (self_mem_tables m d))]
        apply hall u ⟨by omega, by omega, by omega⟩
        rintro v ⟨_, hv1, hv2⟩ hlt
        rw [hwalk v (by omega)]
        exact hbefore v ⟨hpos, by omega, by omega⟩ hlt
    . have hvpn : (pgrounddown va).toNat / 4096 = va.toNat / 4096 := by
        have := pgrounddown_toNat va
        omega
      have hnull : m.uva2ka e d (pgrounddown va) = .error .nullDeref := by
        unfold uva2ka
        rw [pdx_eq, ← hvpn, ← pdx_eq] at hpde
        rw [walkpgdir_false, if_neg hpde, nullWord_of_absent he.absent]
        rfl
      rw [copyout.loop, if_pos hpos]
      simp only
      rw [hnull]
      rfl

theorem Owned.protects {L : Layout} (h : Owned L m d)
    (hkernel : ∀ u, 2 ^ 19 ≤ u → u < 2 ^ 20 → pteU (m.walk d u) = false)
    : Protects d m := by
  have huser : ∀ u, u < 2 ^ 20 → pteUser (m.walk d u) → u < 2 ^ 19 ∧ pteP (m.walk d u) := by
    intro u hu hw
    rw [pteUser, Bool.and_eq_true] at hw
    refine ⟨?_, hw.1⟩
    apply Classical.byContradiction
    intro hge
    rw [hkernel u (by omega) hu] at hw
    exact absurd hw.2 (by decide)
  constructor
  . intro u v hu hv hwu hwv
    exact h.user_inj (huser u hu hwu).1 (huser v hv hwv).1 (huser u hu hwu).2 (huser v hv hwv).2
  . intro u hu hw
    exact (h.user_disjoint (mem_user (huser u hu hw).1 (huser u hu hw).2)).1

/--
`copyout` succeeds if and only if all pages it touches are accessible to user code; it writes the
buffer and nothing else, or only to pages it may access; and the result does not depend on the address
space in use. All this holds if and only if a missing page table is not met on the way.
-/
theorem copyout_respects_protection {e : BitVec 32} (h : Protects d m) (he : Kernel e d m)
    (va : BitVec 32) (buf : List (BitVec 8)) (hend : va.toNat + buf.length ≤ 2 ^ 32)
    : (∃ r m', (∀ cr3, m.copyout cr3 d va buf = .ok (r, m')) ∧
        (r = true ↔ ∀ u, Touches va.toNat buf.length u → pteUser (m.walk d u)) ∧
        (r = true → Copied d va.toNat buf m m') ∧ Spares d va.toNat buf.length m m') ↔
        HasTables d va.toNat buf.length m := by
  refine ⟨?_, copyout_loop_spec h (le_refl _) hend⟩
  rintro ⟨r, m', hok, _⟩
  by_contra htables
  have hnull : m.copyout e d va buf = .error .nullDeref :=
    copyout_loop_null h he (le_refl _) hend htables
  rw [hok e] at hnull
  contradiction

end Mem

namespace VmSys

theorem guarded_walk (v : Nat)
    : guarded.mem.walk 0x400000 v =
        if v = 2 then 0x405007 else if v = 1 then 0x404003 else if v = 0 then 0x403007 else 0 :=
  laid_walk _ _ _ _ _ v

theorem copyout_respects_protection_guarded
    : ∃ m', guarded.mem.copyout 0x400000 0x400000 0x2ffc [1, 2, 3, 4] = .ok (true, m') ∧
        Mem.Copied 0x400000 0x2ffc [1, 2, 3, 4] guarded.mem m' := by
  have hprotects : Mem.Protects 0x400000 guarded.mem := by
    apply (guarded_inv.owned (p := 0) (by decide) rfl).protects
    intro u hu _
    rw [guarded_walk, if_neg (by omega), if_neg (by omega), if_neg (by omega)]
    decide
  have htouch : ∀ u, Mem.Touches 0x2ffc 4 u → u = 2 := by
    unfold Mem.Touches
    omega
  have htables : Mem.HasTables 0x400000 0x2ffc 4 guarded.mem := by
    intro u hu _
    rw [htouch u hu]
    decide
  have hkernel : Mem.Kernel 0x406000 0x400000 guarded.mem := by
    refine ⟨by decide, ?_⟩
    intro u _
    rw [guarded_walk]
    split
    . decide
    . split
      . decide
      . split
        . decide
        . decide
  rcases (Mem.copyout_respects_protection hprotects hkernel 0x2ffc [1, 2, 3, 4] (by decide)).mpr
    htables with ⟨r, m', hok, hiff, hcopied, _⟩
  have hr : r = true := by
    rw [hiff]
    intro u hu
    rw [htouch u hu, guarded_walk]
    decide
  rw [hr] at hok
  exact ⟨m', hok 0x400000, hcopied hr⟩

/--
The directory at 0x405000 is empty. The null pointer that `walkpgdir` returns is taken for an entry,
which is the first word of the program in use: physical page 0 is overwritten. Without a program
this is a fault in the kernel.
-/
theorem copyout_reads_null_pte
    : (∀ v, starved.mem.walk 0x405000 v = 0) ∧
        (∃ m', starved.mem.copyout 0x400000 0x405000 0x1000 [7] = .ok (true, m') ∧
          (starved.mem.phys 0).byte 0 = 0 ∧ (m'.phys 0).byte 0 = 7) ∧
        single.mem.copyout 0x400000 0x405000 0x1000 [7] = .error .nullDeref := by
  refine ⟨?_, ⟨_, rfl, rfl, rfl⟩, rfl⟩
  intro v
  have hentry : ∀ i, starved.mem.entry 0x405000 i = 0 := by
    intro i
    exact Bytes.getWord_zero _
  unfold Mem.walk
  rw [hentry, if_neg (by decide)]

end VmSys

end Xv6
