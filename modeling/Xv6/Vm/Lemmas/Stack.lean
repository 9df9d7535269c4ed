import Mathlib.Data.List.GetD
import Xv6.Vm.Lemmas.Copyuvm

/-!
The argument strings on the stack page of the address space that `exec` builds, and the words that
lead to them.
-/

namespace Xv6

def stringSpace (s : List (BitVec 8)) : Nat :=
  4 * ((s.length + 4) / 4)

def stringsSpace : List (List (BitVec 8)) → Nat
  | [] => 0
  | s :: argv => stringSpace s + stringsSpace argv

def argSpace (argv : List (List (BitVec 8))) : Nat :=
  stringsSpace argv + 4 * (argv.length + 4)

theorem stringsSpace_mod (argv : List (List (BitVec 8))) : stringsSpace argv % 4 = 0 := by
  induction argv with
  | nil => rfl
  | cons s argv ih =>
    simp only [stringsSpace, stringSpace]
    omega

namespace Mem

variable {L : Layout} {d cr3 : BitVec 32} {m m' : Mem} {sz : Nat}

-- The word that `uva2ka` reads where there is no page table is not an entry that it accepts, so
-- `copyout` fails there as it does on any other page that is not present or not accessible.
def FailsOnNull (cr3 : BitVec 32) (m : Mem) : Prop :=
  ∃ w, m.nullWord cr3 = .ok w ∧ pteUser w = false

theorem FailsOnNull.uva2ka {va : BitVec 32} (h : FailsOnNull cr3 m)
    (hpde : ¬ pteP (m.entry d (pdx va)))
    : m.uva2ka cr3 d va = .ok none := by
  rcases h with ⟨w, hw, huser⟩
  unfold Mem.uva2ka
  rw [walkpgdir_false, if_neg hpde]
  simp only
  rw [hw, Fold.ok_bind]
  unfold pteUser at huser
  cases hp : pteP w with
  | false => rfl
  | true =>
    rw [hp, Bool.true_and] at huser
    rw [huser]
    rfl

def NullStops (cr3 d : BitVec 32) (m : Mem) : Prop :=
  ∀ m', Moves d m m' → FailsOnNull cr3 m'

theorem NullStops.moves (h : NullStops cr3 d m) (hm : Moves d m m') : NullStops cr3 d m' :=
  fun m'' hm' => h m'' (hm.trans hm')

theorem copyout_no_table {va : BitVec 32} {buf : List (BitVec 8)} (h : NullStops cr3 d m)
    (hpos : 0 < buf.length) (hpde : ¬ pteP (m.entry d (pdx va))) (fuel : Nat)
    : copyout.loop cr3 d (fuel + 1) m va buf = .ok (false, m) := by
  have hpde0 : ¬ pteP (m.entry d (pdx (pgrounddown va))) := by
    rw [pdx_eq, pgrounddown_toNat, Nat.mul_div_cancel_left _ (by decide), ← pdx_eq]
    exact hpde
  rw [copyout.loop]
  rw [if_pos hpos]
  simp only
  rw [(h m (.refl d m)).uva2ka hpde0]
  rfl

theorem Spans.pteUser_iff (h : Spans L d sz m) {u : Nat} (hu : u < 2 ^ 20)
    : pteUser (m.walk d u) = true ↔ u < 2 ^ 19 ∧ 4096 * u < sz ∧ pteU (m.walk d u) = true := by
  unfold pteUser
  rw [Bool.and_eq_true]
  by_cases hlow : u < 2 ^ 19
  . rw [h.present u hlow]
    simp only [hlow, true_and]
  . rw [h.kernel u (by omega) hu, L.kmap_pteU]
    simp

/--
`copyout` stops at the latest at the page `u` if this is not accessible to user code; there is a page
table for each page up to it, or the null pointer does no harm.
-/
theorem copyout_loop_fails {va : BitVec 32} {buf : List (BitVec 8)} {u fuel : Nat}
    (h : Spans L d sz m) (hfuel : buf.length ≤ fuel) (hpos : 0 < buf.length)
    (hu1 : va.toNat / 4096 ≤ u) (hu2 : 4096 * u < va.toNat + buf.length) (hu : u < 2 ^ 20)
    (hnot : pteUser (m.walk d u) = false)
    (hnull : (∀ v, v ≤ u → pteP (m.entry d (v / 1024))) ∨ NullStops cr3 d m)
    : ∃ m', copyout.loop cr3 d fuel m va buf = .ok (false, m') ∧ Pours d m m' := by
  induction fuel generalizing m va buf with
  | zero => omega
  | succ fuel ih =>
    by_cases hpde : pteP (m.entry d (pdx va))
    . rw [copyout_step hpos hpde]
      split
      next huser =>
        have hva := (h.pteUser_iff (by omega)).mp huser
        have hne : va.toNat / 4096 ≠ u := by
          intro heq
          rw [heq, hnot] at huser
          contradiction
        generalize hn : min (4096 - va.toNat % 4096) buf.length = n
        have hpours : Pours d m (m.pour d va.toNat n buf) :=
          pours_update hva.1 ((h.present _ hva.1).mpr hva.2.1) _
        generalize m.pour d va.toNat n buf = m₁ at hpours ⊢
        have hlen : (buf.drop n).length = buf.length - n := List.length_drop
        have hnext : (pgrounddown va + 4096).toNat = 4096 * (va.toNat / 4096 + 1) := by
          rw [BitVec.toNat_add, pgrounddown_toNat]
          simp only [BitVec.ofNat_eq_ofNat, BitVec.toNat_ofNat]
          omega
        have hrest : ∃ m', copyout.loop cr3 d fuel m₁ (pgrounddown va + 4096) (buf.drop n) =
            .ok (false, m') ∧ Pours d m₁ m' := by
          apply ih (h.pours hpours)
          . omega
          . omega
          . omega
          . omega
          . rw [hpours.walk h.owned hu]
            exact hnot
          . cases hnull with
            | inl htables =>
              apply Or.inl
              intro v hv
              rw [entry_congr (hpours.phys_tables h.owned d (self_mem_tables m d))]
              exact htables v hv
            | inr hstops => exact .inr (hstops.moves (hpours.moves h.owned))
        rcases hrest with ⟨m', hok, hpours'⟩
        exact ⟨m', hok, hpours.trans hpours' h.owned⟩
      next => exact ⟨m, rfl, .refl d m⟩
    . cases hnull with
      | inl htables =>
        rw [pdx_eq] at hpde
        exact absurd (htables _ hu1) hpde
      | inr hstops => exact ⟨m, copyout_no_table hstops hpos hpde fuel, .refl d m⟩

theorem Guarded.copyout_fails {va : BitVec 32} {buf : List (BitVec 8)} (h : Guarded L d sz m)
    (hpos : 0 < buf.length) (hva : va.toNat < sz - 4096) (hend : sz - 8192 < va.toNat + buf.length)
    : ∃ m', m.copyout cr3 d va buf = .ok (false, m') ∧ Pours d m m' := by
  have h1 := h.align
  have h2 := h.two
  have h3 := h.below
  apply copyout_loop_fails h.spans (le_refl _) hpos (u := sz / 4096 - 2)
  . omega
  . omega
  . omega
  . unfold pteUser
    rw [h.guard, Bool.and_false]
  . apply Or.inl
    intro v hv
    have hp : pteP (m.walk d ((pageAddr v).toNat / 4096)) := by
      rw [pageAddr_toNat (by omega), Nat.mul_div_cancel_left _ (by decide), h.spans.present _ (by omega)]
      omega
    have hpde := pde_of_walk hp
    rw [pdx_eq, pageAddr_toNat (by omega), Nat.mul_div_cancel_left _ (by decide)] at hpde
    exact hpde

theorem Guarded.copyout_ok {va : BitVec 32} {buf : List (BitVec 8)} (h : Guarded L d sz m)
    (hpos : 0 < buf.length) (hva : sz - 4096 ≤ va.toNat) (hend : va.toNat + buf.length ≤ sz)
    : ∃ m', m.copyout cr3 d va buf = .ok (true, m') ∧ Pours d m m' ∧
        ∀ a, a < 2 ^ 31 → m'.view d a =
          if va.toNat ≤ a ∧ a < va.toNat + buf.length then buf.getD (a - va.toNat) 0
          else m.view d a := by
  have h1 := h.align
  have h2 := h.two
  have h3 := h.below
  have hpage : va.toNat / 4096 = sz / 4096 - 1 := by omega
  have hp : pteP (m.walk d (va.toNat / 4096)) := by
    rw [h.spans.present _ (by omega)]
    omega
  have huser : pteUser (m.walk d (va.toNat / 4096)) := by
    unfold pteUser
    rw [hp, hpage, h.stack]
    rfl
  rcases Nat.exists_eq_succ_of_ne_zero (by omega : buf.length ≠ 0) with ⟨fuel, hfuel⟩
  have hn : min (4096 - va.toNat % 4096) buf.length = buf.length := by omega
  have hok : copyout.loop cr3 d (fuel + 1) m va buf =
      .ok (true, m.pour d va.toNat buf.length buf) := by
    rw [copyout_step hpos (pde_of_walk hp), if_pos huser, hn, List.drop_length, copyout_nil]
  rw [← Nat.succ_eq_add_one, ← hfuel] at hok
  refine ⟨m.pour d va.toNat buf.length buf, hok, pours_update (by omega) hp _, ?_⟩
  intro a ha
  have hview : (m.pour d va.toNat buf.length buf).view d a = _ :=
    view_blit h.spans.owned (by omega) hp (by omega) ha
  have haddr : 4096 * (va.toNat / 4096) + va.toNat % 4096 = va.toNat := Nat.div_add_mod _ _
  rw [hview, haddr]

section

variable {sp : BitVec 32} {n : Nat}

-- Up to the bottom of the stack page the stack pointer goes down by whole words.
theorem push_toNat (hsp : sp.toNat % 4 = 0) (hn : n < 2 ^ 32) (hfit : 4 * ((n + 3) / 4) ≤ sp.toNat)
    : ((sp - BitVec.ofNat 32 n) &&& ~~~ 3).toNat = sp.toNat - 4 * ((n + 3) / 4) := by
  rw [and_not_three_toNat, BitVec.toNat_sub, BitVec.toNat_ofNat]
  have := sp.isLt
  omega

theorem push_wraps (hsp : sp.toNat % 4 = 0) (hn : n < 2 ^ 32) (hfit : sp.toNat < 4 * ((n + 3) / 4))
    : ((sp - BitVec.ofNat 32 n) &&& ~~~ 3).toNat = 2 ^ 32 + sp.toNat - 4 * ((n + 3) / 4) := by
  rw [and_not_three_toNat, BitVec.toNat_sub, BitVec.toNat_ofNat]
  have := sp.isLt
  omega

/--
A buffer that is too long for the rest of the stack page is not copied: it touches the page below, or,
if the address wraps around, memory that is not there.
-/
theorem Guarded.push_fails {buf : List (BitVec 8)} (h : Guarded L d sz m) (hpos : 0 < buf.length)
    (hlen : buf.length < 2 ^ 32) (hsp : sp.toNat % 4 = 0) (hlo : sz - 4096 ≤ sp.toNat)
    (hhi : sp.toNat ≤ sz) (hnull : buf.length ≤ 4096 ∨ NullStops cr3 d m)
    (hfit : sp.toNat < sz - 4096 + 4 * ((buf.length + 3) / 4))
    : ∃ m', m.copyout cr3 d ((sp - BitVec.ofNat 32 buf.length) &&& ~~~ 3) buf = .ok (false, m') ∧
        Pours d m m' := by
  have h1 := h.align
  have h2 := h.two
  have h3 := h.below
  by_cases hwrap : sp.toNat < 4 * ((buf.length + 3) / 4)
  . have hva := push_wraps hsp hlen hwrap
    generalize (sp - BitVec.ofNat 32 buf.length) &&& ~~~ 3 = va at hva ⊢
    have hstops : NullStops cr3 d m := hnull.resolve_left (by omega)
    have := va.isLt
    by_cases hbelow : va.toNat < sz
    . -- the buffer goes past the end
      apply copyout_loop_fails h.spans (le_refl _) hpos (u := sz / 4096)
      . omega
      . omega
      . omega
      . rw [← Bool.not_eq_true, h.spans.pteUser_iff (by omega)]
        omega
      . exact .inr hstops
    . apply copyout_loop_fails h.spans (le_refl _) hpos (u := va.toNat / 4096)
      . exact le_refl _
      . omega
      . omega
      . rw [← Bool.not_eq_true, h.spans.pteUser_iff (by omega)]
        omega
      . exact .inr hstops
  . have hva := push_toNat hsp hlen (by omega)
    generalize (sp - BitVec.ofNat 32 buf.length) &&& ~~~ 3 = va at hva ⊢
    apply h.copyout_fails hpos
    . omega
    . omega

end

inductive Pushed (m : Mem) (d : BitVec 32) : Nat → List (List (BitVec 8)) → List (BitVec 32) → Prop
  | nil (sp : Nat) : Pushed m d sp [] []
  | cons {sp : Nat} {s : List (BitVec 8)} {argv : List (List (BitVec 8))} {ptr : BitVec 32}
      {ptrs : List (BitVec 32)} (hptr : ptr.toNat + stringSpace s = sp)
      (hbytes : ∀ j, j < s.length + 1 → m.view d (ptr.toNat + j) = (s ++ [0]).getD j 0)
      (hrest : Pushed m d ptr.toNat argv ptrs)
    : Pushed m d sp (s :: argv) (ptr :: ptrs)

theorem Pushed.length_eq {sp : Nat} {argv : List (List (BitVec 8))} {ptrs : List (BitVec 32)}
    (h : Pushed m d sp argv ptrs)
    : ptrs.length = argv.length := by
  induction h with
  | nil => rfl
  | cons _ _ _ ih => rw [List.length_cons, List.length_cons, ih]

theorem Pushed.get {sp : Nat} {argv : List (List (BitVec 8))} {ptrs : List (BitVec 32)}
    (h : Pushed m d sp argv ptrs) {i : Nat} (hi : i < argv.length)
    : (∀ j, j < (argv.getD i []).length + 1 →
        m.view d ((ptrs.getD i 0).toNat + j) = (argv.getD i [] ++ [0]).getD j 0) ∧
      (ptrs.getD i 0).toNat + stringSpace (argv.getD i []) ≤ sp ∧
      sp ≤ (ptrs.getD i 0).toNat + stringsSpace argv ∧
      (sp % 4 = 0 → (ptrs.getD i 0).toNat % 4 = 0) ∧
      ∀ k, i < k → k < argv.length →
        (ptrs.getD k 0).toNat + stringSpace (argv.getD k []) ≤ (ptrs.getD i 0).toNat := by
  induction h generalizing i with
  | nil => contradiction
  | cons hptr hbytes hrest ih =>
    simp only [stringsSpace, stringSpace] at *
    cases i with
    | zero =>
      simp only [List.getD_cons_zero]
      refine ⟨hbytes, by omega, by omega, by omega, ?_⟩
      intro k hk hlt
      rcases Nat.exists_eq_succ_of_ne_zero (by omega : k ≠ 0) with ⟨k, rfl⟩
      simp only [List.getD_cons_succ]
      exact (ih (Nat.lt_of_succ_lt_succ hlt)).2.1
    | succ i =>
      simp only [List.getD_cons_succ]
      rcases ih (Nat.lt_of_succ_lt_succ hi) with ⟨hview, htop, hbottom, hmod, hnext⟩
      refine ⟨hview, by omega, by omega, fun hsp => hmod (by omega), ?_⟩
      intro k hk hlt
      rcases Nat.exists_eq_succ_of_ne_zero (by omega : k ≠ 0) with ⟨k, rfl⟩
      simp only [List.getD_cons_succ]
      exact hnext k (by omega) (Nat.lt_of_succ_lt_succ hlt)

theorem Pushed.congr {sp : Nat} {argv : List (List (BitVec 8))} {ptrs : List (BitVec 32)}
    (h : Pushed m d sp argv ptrs) {bottom : Nat} (hbottom : bottom + stringsSpace argv ≤ sp)
    (hsame : ∀ a, bottom ≤ a → a < sp → m'.view d a = m.view d a)
    : Pushed m' d sp argv ptrs := by
  induction h with
  | nil sp => exact .nil sp
  | cons hptr hbytes hrest ih =>
    simp only [stringsSpace, stringSpace] at *
    refine .cons hptr ?_ (ih (by omega) (fun a h1 h2 => hsame a h1 (by omega)))
    intro j hj
    rw [hsame _ (by omega) (by omega)]
    exact hbytes j hj

section

variable {argv : List (List (BitVec 8))}

/--
The strings fit on the stack page and their number is allowed if and only if `exec` goes on; then they
are there, and below the stack pointer and above the old one nothing has changed.
-/
theorem execArgs_spec (argc : Nat) (sp : BitVec 32) (ustack : List (BitVec 32))
    (h : Guarded L d sz m) (hargv : ∀ s ∈ argv, s.length + 1 < 2 ^ 32)
    (hnull : (∀ s ∈ argv, s.length < 4096) ∨ NullStops cr3 d m) (hargc : argc ≤ MAXARG)
    (hsp : sp.toNat % 4 = 0) (hlo : sz - 4096 ≤ sp.toNat) (hhi : sp.toNat ≤ sz)
    : ∃ r m', execArgs cr3 d argv argc m sp ustack = .ok (r, m') ∧ Pours d m m' ∧
        (r = none → MAXARG < argc + argv.length ∨ sp.toNat < sz - 4096 + stringsSpace argv) ∧
        ∀ x, r = some x → x.1 = argc + argv.length ∧ x.1 ≤ MAXARG ∧
          x.2.1.toNat + stringsSpace argv = sp.toNat ∧ sz - 4096 ≤ x.2.1.toNat ∧
          (∀ a, a < 2 ^ 31 → (a < x.2.1.toNat ∨ sp.toNat ≤ a) → m'.view d a = m.view d a) ∧
          ∃ ptrs, x.2.2 = ustack ++ ptrs ∧ Pushed m' d sp.toNat argv ptrs := by
  have h3 := h.below
  induction argv generalizing m sp argc ustack with
  | nil =>
    refine ⟨some (argc, sp, ustack), m, rfl, .refl d m, fun h => absurd h (Option.some_ne_none _), ?_⟩
    intro x hx
    cases hx
    exact ⟨rfl, hargc, rfl, hlo, fun _ _ _ => rfl, [], (List.append_nil ustack).symm, .nil _⟩
  | cons s argv ih =>
    unfold execArgs
    have hcons : (s :: argv).length = argv.length + 1 := List.length_cons
    split
    next hge =>
      refine ⟨none, m, rfl, .refl d m, fun _ => .inl (by omega), ?_⟩
      rintro _ ⟨⟩
    next hlt =>
      have hlen : (s ++ [0]).length = s.length + 1 := by simp
      have hs := hargv s List.mem_cons_self
      have hnull' : (s ++ [0]).length ≤ 4096 ∨ NullStops cr3 d m := by
        rw [hlen]
        exact hnull.imp_left (fun hshort => hshort s List.mem_cons_self)
      simp only
      rw [← hlen]
      by_cases hfit : sz - 4096 + stringSpace s ≤ sp.toNat
      . unfold stringSpace at hfit
        have hva := push_toNat hsp (by omega : (s ++ [0]).length < 2 ^ 32) (by omega)
        generalize (sp - BitVec.ofNat 32 (s ++ [0]).length) &&& ~~~ 3 = sp' at hva ⊢
        have hcopy : ∃ m', m.copyout cr3 d sp' (s ++ [0]) = .ok (true, m') ∧ Pours d m m' ∧
            ∀ a, a < 2 ^ 31 → m'.view d a =
              if sp'.toNat ≤ a ∧ a < sp'.toNat + (s ++ [0]).length then
                (s ++ [0]).getD (a - sp'.toNat) 0
              else
                m.view d a := by
          apply h.copyout_ok
          . omega
          . omega
          . omega
        rcases hcopy with ⟨m₁, hok, hpours, hview⟩
        rw [hok, Fold.ok_bind]
        simp only
        have hnull₁ : (∀ s ∈ argv, s.length < 4096) ∨ NullStops cr3 d m₁ := by
          cases hnull with
          | inl hshort => exact .inl (fun t ht => hshort t (List.mem_cons_of_mem s ht))
          | inr hstops => exact .inr (hstops.moves (hpours.moves h.spans.owned))
        rcases ih (argc + 1) sp' (ustack ++ [sp']) (h.pours hpours)
            (fun t ht => hargv t (List.mem_cons_of_mem s ht)) hnull₁ (by omega) (by omega) (by omega)
            (by omega)
          with ⟨r, m', hok', hpours', hnone, hpost⟩
        have hspace' : stringSpace s = 4 * ((s.length + 4) / 4) := rfl
        refine ⟨r, m', hok', hpours.trans hpours' h.spans.owned, ?_, ?_⟩
        . intro hr
          unfold stringsSpace
          have := hnone hr
          omega
        intro x hx
        rcases hpost x hx with ⟨hcount, hmax, hspace, hbottom, hsame, ptrs, hptrs, hpushed⟩
        refine ⟨by omega, hmax, ?_, hbottom, ?_, sp' :: ptrs, ?_, ?_⟩
        . unfold stringsSpace
          omega
        . intro a ha hout
          rw [hsame a ha (by omega), hview a ha, if_neg (by omega)]
        . rw [hptrs, List.append_assoc]
          rfl
        . refine .cons (by omega) ?_ hpushed
          intro j hj
          rw [hsame _ (by omega) (by omega), hview _ (by omega), if_pos (by omega),
            Nat.add_sub_cancel_left]
      . have hfail := h.push_fails (by omega) (by omega) hsp hlo hhi hnull' (by
          unfold stringSpace at hfit
          omega)
        rcases hfail with ⟨m', hok, hpours⟩
        rw [hok, Fold.ok_bind]
        refine ⟨none, m', rfl, hpours, ?_, ?_⟩
        . intro _
          unfold stringsSpace
          omega
        . rintro _ ⟨⟩

def argWords (sp : BitVec 32) (argv : List (List (BitVec 8))) (ptrs : List (BitVec 32))
    : List (BitVec 32) :=
  [0xffffffff, BitVec.ofNat 32 argv.length, sp + 12] ++ ptrs ++ [0]

structure ArgStack (d : BitVec 32) (sz : Nat) (sp : BitVec 32) (argv : List (List (BitVec 8)))
    (m m' : Mem) : Prop where
  count : argv.length ≤ MAXARG
  bottom : sz - 4096 ≤ sp.toNat
  top : sp.toNat + argSpace argv = sz
  below : ∀ a, a < sz - 4096 → m'.view d a = m.view d a
  decode : ∃ ptrs, Pushed m' d sz argv ptrs ∧ ∀ i, i < 4 * (argv.length + 4) →
    m'.view d (sp.toNat + i) = ((argWords sp argv ptrs).flatMap wordBytes).getD i 0

theorem and_not_three_of_aligned {a : BitVec 32} (h : a.toNat % 4 = 0) : a &&& ~~~ 3 = a := by
  apply BitVec.eq_of_toNat_eq
  rw [and_not_three_toNat]
  omega

theorem execStack_spec {sz : BitVec 32} (h : Guarded L d sz.toNat m)
    (hargv : ∀ s ∈ argv, s.length + 1 < 2 ^ 32)
    (hnull : (∀ s ∈ argv, s.length < 4096) ∨ NullStops cr3 d m)
    : ∃ r m', m.execStack cr3 d sz argv = .ok (r, m') ∧ Pours d m m' ∧
        (r = none → MAXARG < argv.length ∨ 4096 < argSpace argv) ∧
        ∀ sp, r = some sp → ArgStack d sz.toNat sp argv m m' := by
  have h1 := h.align
  have h2 := h.two
  have h3 := h.below
  unfold execStack
  rcases execArgs_spec 0 sz [] h hargv hnull (by decide) (by omega) (by omega) (le_refl _)
    with ⟨r, m₁, hok, hpours, hnone, hpost⟩
  rw [hok, Fold.ok_bind]
  cases r with
  | none =>
    refine ⟨none, m₁, rfl, hpours, ?_, nofun⟩
    intro _
    have := hnone rfl
    unfold argSpace
    omega
  | some x =>
    rcases x with ⟨argc, sp, ustack⟩
    rcases hpost _ rfl with ⟨hcount, hmax, hspace, hbottom, hsame, ptrs, hptrs, hpushed⟩
    simp only [List.nil_append, Nat.zero_add, MAXARG] at *
    rw [hcount, hptrs]
    rw [hcount] at hmax
    have hmod := stringsSpace_mod argv
    have hlt := sp.isLt
    have hwords : sp - BitVec.ofNat 32 ((argv.length + 1) * 4) =
        sp - BitVec.ofNat 32 ((3 + argv.length + 1) * 4) + 12 := by
      apply BitVec.eq_of_toNat_eq
      rw [BitVec.toNat_add, BitVec.toNat_sub, BitVec.toNat_sub, BitVec.toNat_ofNat, BitVec.toNat_ofNat]
      simp only [BitVec.ofNat_eq_ofNat, BitVec.toNat_ofNat]
      omega
    have halign : (sp - BitVec.ofNat 32 ((3 + argv.length + 1) * 4)) &&& ~~~ 3 =
        sp - BitVec.ofNat 32 ((3 + argv.length + 1) * 4) := by
      apply and_not_three_of_aligned
      rw [BitVec.toNat_sub, BitVec.toNat_ofNat]
      omega
    rw [hwords]
    generalize hbuf : ([0xffffffff, BitVec.ofNat 32 argv.length,
      sp - BitVec.ofNat 32 ((3 + argv.length + 1) * 4) + 12] ++ ptrs ++ [0]).flatMap wordBytes = buf
    have hbuflen : buf.length = (3 + argv.length + 1) * 4 := by
      rw [← hbuf, length_flatMap_wordBytes]
      simp only [List.length_append, List.length_cons, List.length_nil, hpushed.length_eq]
      omega
    have hguarded := h.pours hpours
    by_cases hfit : sz.toNat - 4096 + buf.length ≤ sp.toNat
    . have hva := push_toNat (by omega : sp.toNat % 4 = 0) (by omega : buf.length < 2 ^ 32) (by omega)
      rw [hbuflen, halign] at hva
      generalize sp - BitVec.ofNat 32 ((3 + argv.length + 1) * 4) = sp' at hva hbuf ⊢
      have hcopy : ∃ m', m₁.copyout cr3 d sp' buf = .ok (true, m') ∧ Pours d m₁ m' ∧
          ∀ a, a < 2 ^ 31 → m'.view d a =
            if sp'.toNat ≤ a ∧ a < sp'.toNat + buf.length then buf.getD (a - sp'.toNat) 0
            else m₁.view d a := by
        apply hguarded.copyout_ok
        . omega
        . omega
        . omega
      rcases hcopy with ⟨m₂, hok₂, hpours₂, hview⟩
      rw [hok₂, Fold.ok_bind]
      refine ⟨some sp', m₂, rfl, hpours.trans hpours₂ h.spans.owned, nofun, ?_⟩
      intro sp'' heq
      cases heq
      refine ⟨hmax, by omega, ?_, ?_, ptrs, ?_, ?_⟩
      . unfold argSpace
        omega
      . intro a ha
        rw [hview a (by omega), if_neg (by omega), hsame a (by omega) (by omega)]
      . apply hpushed.congr (le_of_eq hspace)
        intro a ha1 ha2
        rw [hview a (by omega), if_neg (by omega)]
      . intro i hi
        rw [hview _ (by omega), if_pos (by omega), Nat.add_sub_cancel_left, ← hbuf]
        rfl
    . have hnull₁ : buf.length ≤ 4096 ∨ NullStops cr3 d m₁ := .inl (by omega)
      have hfail := hguarded.push_fails (by omega) (by omega) (by omega : sp.toNat % 4 = 0) hbottom
        (by omega) hnull₁ (by omega)
      rw [hbuflen, halign] at hfail
      rcases hfail with ⟨m₂, hok₂, hpours₂⟩
      rw [hok₂, Fold.ok_bind]
      refine ⟨none, m₂, rfl, hpours.trans hpours₂ h.spans.owned, ?_, nofun⟩
      intro _
      unfold argSpace
      omega

end

def loadWord (m : Mem) (d va : BitVec 32) : Option (BitVec 32) := do
  let b₀ ← m.load d va
  let b₁ ← m.load d (va + 1)
  let b₂ ← m.load d (va + 2)
  let b₃ ← m.load d (va + 3)
  return BitVec.ofNat 32 (b₀.toNat + 0x100 * b₁.toNat + 0x10000 * b₂.toNat + 0x1000000 * b₃.toNat)

theorem load_of_present {va : BitVec 32} (h : pteP (m.walk d (va.toNat / 4096)))
    : m.load d va = some (m.view d va.toNat) := by
  unfold load view
  rw [if_pos h, if_pos h]
  rfl

theorem loadWord_of_bytes {va w : BitVec 32}
    (h : ∀ k, k < 4 → m.load d (va + BitVec.ofNat 32 k) = some ((wordBytes w).getD k 0))
    : m.loadWord d va = some w := by
  have h₀ := h 0 (by decide)
  have h₁ := h 1 (by decide)
  have h₂ := h 2 (by decide)
  have h₃ := h 3 (by decide)
  rw [show va + BitVec.ofNat 32 0 = va from BitVec.add_zero va] at h₀
  unfold loadWord
  rw [h₀]
  simp only [Option.bind_eq_bind, Option.bind_some]
  rw [show va + 1 = va + BitVec.ofNat 32 1 from rfl, h₁,
    show va + 2 = va + BitVec.ofNat 32 2 from rfl, h₂,
    show va + 3 = va + BitVec.ofNat 32 3 from rfl, h₃]
  simp only [Option.bind_some]
  have hw := w.isLt
  congr 1
  apply BitVec.eq_of_toNat_eq
  simp only [wordBytes, BitVec.toNat_ofNat, List.range, List.range.loop, List.map_cons, List.map_nil,
    List.getD_cons_zero, List.getD_cons_succ]
  omega

theorem getD_flatMap_wordBytes (ws : List (BitVec 32)) {i k : Nat} (hi : i < ws.length) (hk : k < 4)
    : (ws.flatMap wordBytes).getD (4 * i + k) 0 = (wordBytes (ws.getD i 0)).getD k 0 := by
  induction ws generalizing i with
  | nil => contradiction
  | cons w ws ih =>
    rw [List.flatMap_cons]
    cases i with
    | zero =>
      rw [List.getD_append _ _ _ _ (by rw [length_wordBytes]; omega), Nat.mul_zero, Nat.zero_add,
        List.getD_cons_zero]
    | succ i =>
      rw [List.getD_append_right _ _ _ _ (by rw [length_wordBytes]; omega), length_wordBytes,
        List.getD_cons_succ, ← ih (Nat.lt_of_succ_lt_succ hi)]
      congr 1
      omega

/--
What a program finds at its stack pointer: a return address that is none, `argc`, and the pointer `P`
to the pointers to its arguments. All of it is on the stack page, in parts that do not overlap.
-/
structure Decodes (m : Mem) (d : BitVec 32) (sz : Nat) (esp : BitVec 32) (argv : List (List (BitVec 8)))
    (P : BitVec 32) (ptrs : List (BitVec 32)) : Prop where
  ret : m.loadWord d esp = some 0xffffffff
  count : m.loadWord d (esp + 4) = some (BitVec.ofNat 32 argv.length)
  array : m.loadWord d (esp + 8) = some P
  pointer : ∀ i, i < argv.length → m.loadWord d (P + BitVec.ofNat 32 (4 * i)) = some (ptrs.getD i 0)
  null : m.loadWord d (P + BitVec.ofNat 32 (4 * argv.length)) = some 0
  string : ∀ i, i < argv.length → ∀ j, j < (argv.getD i []).length →
    m.load d (ptrs.getD i 0 + BitVec.ofNat 32 j) = some ((argv.getD i []).getD j 0)
  nul : ∀ i, i < argv.length →
    m.load d (ptrs.getD i 0 + BitVec.ofNat 32 (argv.getD i []).length) = some 0
  aligned : esp.toNat % 4 = 0 ∧ P.toNat % 4 = 0 ∧
    ∀ i, i < argv.length → (ptrs.getD i 0).toNat % 4 = 0
  words : esp.toNat + 12 ≤ P.toNat
  strings : ∀ i, i < argv.length → P.toNat + 4 * (argv.length + 1) ≤ (ptrs.getD i 0).toNat
  disjoint : ∀ i k, i < k → k < argv.length →
    (ptrs.getD k 0).toNat + ((argv.getD k []).length + 1) ≤ (ptrs.getD i 0).toNat
  bottom : sz - 4096 ≤ esp.toNat
  top : P.toNat + 4 * (argv.length + 1) ≤ sz ∧
    ∀ i, i < argv.length → (ptrs.getD i 0).toNat + ((argv.getD i []).length + 1) ≤ sz

theorem Guarded.load (h : Guarded L d sz m) {a : BitVec 32} {k : Nat} (ha : a.toNat + k < sz)
    : m.load d (a + BitVec.ofNat 32 k) = some (m.view d (a.toNat + k)) := by
  have h3 := h.below
  have haddr : (a + BitVec.ofNat 32 k).toNat = a.toNat + k := by
    rw [BitVec.toNat_add, BitVec.toNat_ofNat]
    omega
  have hp : pteP (m.walk d ((a + BitVec.ofNat 32 k).toNat / 4096)) := by
    rw [h.spans.present _ (by omega)]
    omega
  rw [load_of_present hp, haddr]

theorem ArgStack.decodes {sp : BitVec 32} {argv : List (List (BitVec 8))} {sz : Nat}
    (hguarded : Guarded L d sz m') (h : ArgStack d sz sp argv m m')
    : ∃ P ptrs, Decodes m' d sz sp argv P ptrs := by
  have h1 := hguarded.align
  have h2 := hguarded.two
  have h3 := hguarded.below
  have hmod := stringsSpace_mod argv
  have htop := h.top
  have hbottom := h.bottom
  have hcount := h.count
  rw [MAXARG] at hcount
  unfold argSpace at htop
  rcases h.decode with ⟨ptrs, hpushed, hwords⟩
  have hlen : (argWords sp argv ptrs).length = argv.length + 4 := by
    simp only [argWords, List.length_append, List.length_cons, List.length_nil, hpushed.length_eq]
    omega
  have hP : (sp + 12).toNat = sp.toNat + 12 := by
    rw [BitVec.toNat_add]
    simp only [BitVec.ofNat_eq_ofNat, BitVec.toNat_ofNat]
    omega
  have hword : ∀ i, i < argv.length + 4 → m'.loadWord d (sp + BitVec.ofNat 32 (4 * i)) =
      some ((argWords sp argv ptrs).getD i 0) := by
    intro i hi
    apply loadWord_of_bytes
    intro k hk
    have haddr : sp + BitVec.ofNat 32 (4 * i) + BitVec.ofNat 32 k = sp + BitVec.ofNat 32 (4 * i + k) := by
      rw [BitVec.add_assoc, BitVec.ofNat_add]
    rw [haddr, hguarded.load (by omega), hwords _ (by omega),
      getD_flatMap_wordBytes _ (by omega) hk]
  have hptr : ∀ i, sp + 12 + BitVec.ofNat 32 (4 * i) = sp + BitVec.ofNat 32 (4 * (i + 3)) := by
    intro i
    rw [BitVec.add_assoc, Nat.mul_add, Nat.add_comm, BitVec.ofNat_add]
    rfl
  have hspace : ∀ s : List (BitVec 8), s.length + 1 ≤ stringSpace s := by
    intro s
    unfold stringSpace
    omega
  refine ⟨sp + 12, ptrs, ?_, ?_, ?_, ?_, ?_, ?_, ?_, ⟨by omega, by omega, ?_⟩, by omega, ?_, ?_, by omega,
    by omega, ?_⟩
  . have := hword 0 (by omega)
    rw [show sp + BitVec.ofNat 32 (4 * 0) = sp from BitVec.add_zero sp] at this
    exact this
  . exact hword 1 (by omega)
  . exact hword 2 (by omega)
  . intro i hi
    rw [hptr, hword _ (by omega)]
    unfold argWords
    rw [List.getD_append _ _ _ _ (by simp [hpushed.length_eq]; omega),
      List.getD_append_right _ _ _ _ (by simp), List.length_cons, List.length_cons, List.length_cons,
      List.length_nil, Nat.add_sub_cancel]
  . rw [hptr, hword _ (by omega)]
    unfold argWords
    rw [List.getD_append_right _ _ _ _ (by simp [hpushed.length_eq])]
    simp [hpushed.length_eq]
  . intro i hi j hj
    rcases hpushed.get hi with ⟨hview, hbelow, _⟩
    have := hspace (argv.getD i [])
    rw [hguarded.load (by omega), hview j (by omega), List.getD_append _ _ _ _ hj]
  . intro i hi
    rcases hpushed.get hi with ⟨hview, hbelow, _⟩
    have := hspace (argv.getD i [])
    rw [hguarded.load (by omega), hview _ (by omega), List.getD_append_right _ _ _ _ (le_refl _),
      Nat.sub_self]
    rfl
  . intro i hi
    exact (hpushed.get hi).2.2.2.1 (by omega)
  . intro i hi
    have := (hpushed.get hi).2.2.1
    omega
  . intro i k hik hk
    have := hspace (argv.getD k [])
    have := (hpushed.get (by omega : i < argv.length)).2.2.2.2 k hik hk
    omega
  . intro i hi
    have := hspace (argv.getD i [])
    have := (hpushed.get hi).2.1
    omega

end Mem

end Xv6
