import Xv6.Vm.Impl.Sys
import Xv6.Vm.Lemmas.Exec

/-!
Who has which page: the free list, the processes with their kernel stacks and address spaces, and the
pipes. No page is lost, and none has two owners.
-/

namespace Xv6

theorem Mem.own_congr {m m' : Mem} {d : BitVec 32} (h : ∀ x ∈ m.tables d, m'.phys x = m.phys x)
    : m'.own d = m.own d := by
  unfold own
  rw [tables_congr h, user_congr (fun u hu => walk_congr h (by omega))]

namespace VmSys

def procPages (m : Mem) (x : VmProc) : Multiset (BitVec 32) :=
  if x.state = .unused then 0 else x.kstack.elim 0 ({·}) + x.pgdir.elim 0 m.own

def pages (s : VmSys) : Multiset (BitVec 32) :=
  s.mem.free + ∑ p, procPages s.mem (s.proc p) + (s.pipes.map PipePage.page : Multiset (BitVec 32))

/--
The pages in the system are pairwise distinct, a process in use has a kernel stack and an address
space of at most `KERNBASE` bytes, and a zombie has no user pages.
-/
structure Inv (L : Layout) (s : VmSys) : Prop where
  nodup : s.pages.Nodup
  managed : ∀ x ∈ s.pages, L.Managed x
  kstack : ∀ p, (s.proc p).state ≠ .unused → ∃ k, (s.proc p).kstack = some k
  pgdir : ∀ p, (s.proc p).state ≠ .unused → ∃ d, (s.proc p).pgdir = some d
  sz : ∀ p, (s.proc p).state ≠ .unused → (s.proc p).sz.toNat ≤ 2 ^ 31
  zombie : ∀ p d, (s.proc p).state = .zombie → (s.proc p).pgdir = some d → s.mem.user d = 0

variable {L : Layout} {s s' : VmSys} {p q : ProcId} {m m' : Mem} {k d : BitVec 32}

theorem procPages_unused {x : VmProc} (h : x.state = .unused) : procPages m x = 0 := by
  unfold procPages
  rw [if_pos h]

theorem procPages_used {x : VmProc} (h : x.state ≠ .unused) (hk : x.kstack = some k)
    (hd : x.pgdir = some d)
    : procPages m x = {k} + m.own d := by
  unfold procPages
  rw [if_neg h, hk, hd]
  rfl

theorem own_le_procPages {x : VmProc} (h : x.state ≠ .unused) (hd : x.pgdir = some d)
    : m.own d ≤ procPages m x := by
  unfold procPages
  rw [if_neg h, hd]
  exact Multiset.le_add_left _ _

theorem free_add_procPages_le (s : VmSys) (p : ProcId)
    : s.mem.free + procPages s.mem (s.proc p) ≤ s.pages := by
  unfold pages
  rw [← Finset.add_sum_erase Finset.univ _ (Finset.mem_univ p), ← add_assoc, add_assoc]
  exact Multiset.le_add_right _ _

theorem procPages_add_le (s : VmSys) (h : q ≠ p)
    : procPages s.mem (s.proc q) + (s.mem.free + procPages s.mem (s.proc p)) ≤ s.pages := by
  have hq : q ∈ Finset.univ.erase p := Finset.mem_erase.mpr ⟨h, Finset.mem_univ q⟩
  unfold pages
  rw [← Finset.add_sum_erase Finset.univ _ (Finset.mem_univ p), ← Finset.add_sum_erase _ _ hq]
  rw [Multiset.le_iff_exists_add]
  refine ⟨∑ r ∈ (Finset.univ.erase p).erase q, procPages s.mem (s.proc r) +
    (s.pipes.map PipePage.page : Multiset (BitVec 32)), ?_⟩
  ac_rfl

theorem Inv.owned (h : Inv L s) (hp : (s.proc p).state ≠ .unused) (hd : (s.proc p).pgdir = some d)
    : Mem.Owned L s.mem d := by
  have hle : s.mem.own d + s.mem.free ≤ s.pages := by
    apply le_trans _ (free_add_procPages_le s p)
    rw [add_comm]
    exact add_le_add le_rfl (own_le_procPages hp hd)
  exact ⟨Multiset.nodup_of_le hle h.nodup, fun x hx => h.managed x (Multiset.mem_of_le hle hx)⟩

-- Another process does not notice what is written to the free pages and to those of `p`.
theorem Inv.phys_other (h : Inv L s) (hne : q ≠ p) (hq : (s.proc q).state ≠ .unused)
    (hd : (s.proc q).pgdir = some d)
    (hframe : ∀ x, x ∉ s.mem.free + procPages s.mem (s.proc p) → m'.phys x = s.mem.phys x)
    : ∀ x ∈ s.mem.own d, m'.phys x = s.mem.phys x := by
  intro x hx
  apply hframe
  have hnodup := Multiset.nodup_of_le (procPages_add_le s hne) h.nodup
  exact Multiset.disjoint_left.mp (Multiset.nodup_add.mp hnodup).2.2
    (Multiset.mem_of_le (own_le_procPages hq hd) hx)

theorem pages_eq_of_replace
    (hother : ∀ q, q ≠ p → procPages s'.mem (s'.proc q) = procPages s.mem (s.proc q))
    (hself : s'.mem.free + procPages s'.mem (s'.proc p) = s.mem.free + procPages s.mem (s.proc p))
    (hpipes : s'.pipes = s.pipes)
    : s'.pages = s.pages := by
  unfold pages
  rw [← Finset.add_sum_erase Finset.univ (fun q => procPages s.mem (s.proc q)) (Finset.mem_univ p),
    ← Finset.add_sum_erase Finset.univ (fun q => procPages s'.mem (s'.proc q)) (Finset.mem_univ p),
    ← add_assoc, ← add_assoc, hself, hpipes]
  congr 2
  apply Finset.sum_congr rfl
  intro q hq
  exact hother q (Finset.mem_erase.mp hq).1

def SameSpace (x y : VmProc) : Prop :=
  y.state = x.state ∧ y.kstack = x.kstack ∧ y.pgdir = x.pgdir ∧ y.sz = x.sz

-- A step that concerns one process, which may be a new one.
structure Steps (p : ProcId) (s s' : VmSys) : Prop where
  other : ∀ q, q ≠ p → SameSpace (s.proc q) (s'.proc q)
  frame : ∀ x, x ∉ s.mem.free + procPages s.mem (s.proc p) → s'.mem.phys x = s.mem.phys x
  conserve : s'.mem.free + procPages s'.mem (s'.proc p) = s.mem.free + procPages s.mem (s.proc p)
  pipes : s'.pipes = s.pipes
  kstack : (s'.proc p).state ≠ .unused → ∃ k, (s'.proc p).kstack = some k
  pgdir : (s'.proc p).state ≠ .unused → ∃ d, (s'.proc p).pgdir = some d
  sz : (s'.proc p).state ≠ .unused → (s'.proc p).sz.toNat ≤ 2 ^ 31
  zombie : ∀ d, (s'.proc p).state = .zombie → (s'.proc p).pgdir = some d → s'.mem.user d = 0

theorem Steps.pages (h : Steps p s s') (hs : Inv L s) : s'.pages = s.pages := by
  apply pages_eq_of_replace (p := p) _ h.conserve h.pipes
  intro q hne
  rcases h.other q hne with ⟨hstate, hkstack, hpgdir, _⟩
  unfold procPages
  rw [hstate, hkstack, hpgdir]
  split
  . rfl
  next hq =>
    rcases hs.pgdir q hq with ⟨d, hd⟩
    rw [hd]
    simp only [Option.elim_some]
    rw [Mem.own_congr]
    intro x hx
    exact hs.phys_other hne hq hd h.frame x (Multiset.mem_add.mpr (.inl hx))

theorem Steps.inv (h : Steps p s s') (hs : Inv L s) : Inv L s' := by
  have hpages := h.pages hs
  refine ⟨?_, ?_, ?_, ?_, ?_, ?_⟩
  . rw [hpages]
    exact hs.nodup
  . rw [hpages]
    exact hs.managed
  . intro q hq
    by_cases heq : q = p
    . rw [heq] at hq ⊢
      exact h.kstack hq
    . rcases h.other q heq with ⟨hstate, hkstack, _, _⟩
      rw [hstate] at hq
      rw [hkstack]
      exact hs.kstack q hq
  . intro q hq
    by_cases heq : q = p
    . rw [heq] at hq ⊢
      exact h.pgdir hq
    . rcases h.other q heq with ⟨hstate, _, hpgdir, _⟩
      rw [hstate] at hq
      rw [hpgdir]
      exact hs.pgdir q hq
  . intro q hq
    by_cases heq : q = p
    . rw [heq] at hq ⊢
      exact h.sz hq
    . rcases h.other q heq with ⟨hstate, _, _, hsz⟩
      rw [hstate] at hq
      rw [hsz]
      exact hs.sz q hq
  . intro q d hq hd
    by_cases heq : q = p
    . rw [heq] at hq hd
      exact h.zombie d hq hd
    . rcases h.other q heq with ⟨hstate, _, hpgdir, _⟩
      rw [hstate] at hq
      rw [hpgdir] at hd
      have hused : (s.proc q).state ≠ .unused := by
        rw [hq]
        simp
      rw [Mem.user_congr, hs.zombie q d hq hd]
      intro u hu
      apply Mem.walk_congr _ (by omega)
      intro x hx
      exact hs.phys_other heq hused hd h.frame x (Multiset.mem_add.mpr (.inl hx))

theorem pgdir_eq (h : (s.proc p).pgdir = some d) : s.pgdir p = .ok d := by
  unfold VmSys.pgdir
  rw [h]

@[simp]
theorem modifyProc_self (s : VmSys) (p : ProcId) (f : VmProc → VmProc)
    : (s.modifyProc p f).proc p = f (s.proc p) := by
  simp [modifyProc, setProc]

theorem modifyProc_of_ne (s : VmSys) (f : VmProc → VmProc) (h : q ≠ p)
    : (s.modifyProc p f).proc q = s.proc q := by
  simp [modifyProc, setProc, h]

@[simp]
theorem modifyProc_mem (s : VmSys) (p : ProcId) (f : VmProc → VmProc)
    : (s.modifyProc p f).mem = s.mem := rfl

theorem SameSpace.refl (x : VmProc) : SameSpace x x :=
  ⟨rfl, rfl, rfl, rfl⟩

theorem Steps.of_unused (hp : (s.proc p).state = .unused) (hp' : (s'.proc p).state = .unused)
    (hother : ∀ q, q ≠ p → s'.proc q = s.proc q) (hpipes : s'.pipes = s.pipes)
    (hmem : Mem.Restores s.mem s'.mem)
    : Steps p s s' := by
  refine ⟨?_, ?_, ?_, hpipes, ?_, ?_, ?_, ?_⟩
  . intro q hne
    rw [hother q hne]
    exact .refl _
  . intro x hx
    rw [procPages_unused hp, add_zero] at hx
    exact hmem.frame x hx
  . rw [procPages_unused hp, procPages_unused hp', hmem.free]
  . intro hne
    exact absurd hp' hne
  . intro hne
    exact absurd hp' hne
  . intro hne
    exact absurd hp' hne
  . intro d hzombie
    rw [hp'] at hzombie
    contradiction

theorem allocproc_cases (s : VmSys)
    : (s.allocproc = (none, s)) ∨
        ∃ np, (s.proc np).state = .unused ∧
          ((∃ m, s.mem.kalloc = (none, m) ∧ s.allocproc = (none,
              { s.modifyProc np ({ · with kstack := none, state := .unused }) with mem := m })) ∨
            ∃ k m, s.mem.kalloc = (some k, m) ∧ s.allocproc = (some np,
              { s.modifyProc np ({ · with kstack := some k, state := .embryo }) with mem := m })) := by
  unfold allocproc
  generalize hfind : (List.finRange NPROC).find? (fun p => (s.proc p).state = .unused) = res
  cases res with
  | none => exact .inl rfl
  | some np =>
    have hunused := List.find?_some hfind
    refine .inr ⟨np, by simpa using hunused, ?_⟩
    generalize hres : s.mem.kalloc = res
    rcases res with ⟨r, m⟩
    cases r with
    | none => exact .inl ⟨m, rfl, rfl⟩
    | some k => exact .inr ⟨k, m, rfl, rfl⟩

theorem Inv.fork (h : Inv L s) (hp : (s.proc p).state ≠ .unused)
    : ∃ r s', s.fork L p = .ok (r, s') ∧ (s' = s ∨ ∃ np, Steps np s s') ∧
        (r = none → s'.mem.free = s.mem.free) := by
  unfold VmSys.fork
  cases allocproc_cases s with
  | inl hnone =>
    rw [hnone]
    exact ⟨none, s, rfl, .inl rfl, fun _ => rfl⟩
  | inr halloc =>
    rcases halloc with ⟨np, hnp, hres⟩
    cases hres with
    | inl hnone =>
      rcases hnone with ⟨m, hkalloc, halloc⟩
      rcases Mem.kalloc_none hkalloc with ⟨hphys, hfree⟩
      rw [halloc]
      refine ⟨none, _, rfl, .inr ⟨np, ?_⟩, fun _ => hfree⟩
      apply Steps.of_unused hnp
      . simp
      . intro q hne
        simp only [modifyProc_of_ne s _ hne]
      . rfl
      . exact ⟨hfree, fun x _ => by rw [hphys]⟩
    | inr hsome =>
      rcases hsome with ⟨k, m, hkalloc, halloc⟩
      rcases Mem.kalloc_some hkalloc with ⟨hphys, hfree⟩
      rw [halloc]
      have hne : p ≠ np := by
        intro heq
        rw [heq] at hp
        exact hp hnp
      rcases h.pgdir p hp with ⟨d, hd⟩
      have howned := (h.owned hp hd).kalloc_some hkalloc
      generalize hs₁ : ({ s.modifyProc np ({ · with kstack := some k, state := .embryo }) with
        mem := m } : VmSys) = s₁
      simp only
      have hmem : s₁.mem = m := by rw [← hs₁]
      have hcur : s₁.proc p = s.proc p := by
        rw [← hs₁]
        simp only [modifyProc_of_ne s _ hne]
      have hother : ∀ q, q ≠ np → s₁.proc q = s.proc q := by
        intro q hq
        rw [← hs₁]
        simp only [modifyProc_of_ne s _ hq]
      have hkstack : (s₁.proc np).kstack = some k := by
        rw [← hs₁]
        simp
      have hpipes : s₁.pipes = s.pipes := by
        rw [← hs₁]
        rfl
      rw [pgdir_eq (by rw [hcur]; exact hd), Fold.ok_bind, hmem, hcur]
      rcases howned.copyuvm (h.sz p hp) with ⟨r, m', hok, hres⟩
      rw [hok, Fold.ok_bind]
      cases hres with
      | inl hnone =>
        rcases hnone with ⟨hr, hrestores⟩
        have hmanaged : L.Managed k := by
          apply (h.owned hp hd).managed
          rw [hfree, Multiset.add_cons]
          exact Multiset.mem_cons_self _ _
        rcases Mem.kfree_ok m' hmanaged with ⟨m₂, hok₂, hfree₂, hphys₂⟩
        have hfree' : m₂.free = s.mem.free := by
          rw [hfree₂, hrestores.free, hfree]
        rw [hr, hkstack]
        simp only
        rw [hok₂, Fold.ok_bind]
        refine ⟨none, _, rfl, .inr ⟨np, ?_⟩, fun _ => hfree'⟩
        apply Steps.of_unused hnp
        . simp
        . intro q hq
          simp only [modifyProc_of_ne s₁ _ hq, hother q hq]
        . exact hpipes
        . refine ⟨hfree', ?_⟩
          intro x hx
          rw [hfree, Multiset.mem_cons, not_or] at hx
          rw [hphys₂ x hx.1, hrestores.frame x hx.2, hphys]
      | inr hsome =>
        rcases hsome with ⟨d', hr, hclones⟩
        rw [hr]
        refine ⟨some np, _, rfl, .inr ⟨np, ?_⟩, by simp⟩
        refine ⟨?_, ?_, ?_, ?_, ?_, ?_, ?_, ?_⟩
        . intro q hq
          simp only [modifyProc_of_ne s₁ _ hq, hother q hq]
          exact .refl _
        . intro x hx
          rw [procPages_unused hnp, add_zero, hfree, Multiset.mem_cons, not_or] at hx
          simp only
          rw [hclones.frame x hx.2, hphys]
        . rw [procPages_unused hnp, add_zero, procPages_used (k := k) (d := d')]
          . simp only
            rw [hfree, ← hclones.conserve, ← Multiset.singleton_add]
            ac_rfl
          . simp
          . simp [hkstack]
          . simp
        . exact hpipes
        . intro _
          simp [hkstack]
        . intro _
          simp
        . intro _
          simp only [modifyProc_self]
          exact h.sz p hp
        . intro d hzombie
          simp at hzombie

theorem Steps.of_moves (h : Inv L s) (hp : (s.proc p).state ≠ .unused)
    (hd : (s.proc p).pgdir = some d) (hmoves : Mem.Moves d s.mem s'.mem)
    (hother : ∀ q, q ≠ p → SameSpace (s.proc q) (s'.proc q)) (hpipes : s'.pipes = s.pipes)
    (hkstack : (s'.proc p).kstack = (s.proc p).kstack)
    (hpgdir : (s'.proc p).pgdir = (s.proc p).pgdir) (hstate : (s'.proc p).state ≠ .unused)
    (hzombie : (s'.proc p).state = .zombie → s'.mem.user d = 0)
    (hsz : (s'.proc p).sz.toNat ≤ 2 ^ 31)
    : Steps p s s' := by
  rcases h.kstack p hp with ⟨k, hk⟩
  have hpages := procPages_used (m := s.mem) hp hk hd
  have hpages' : procPages s'.mem (s'.proc p) = {k} + s'.mem.own d :=
    procPages_used hstate (by rw [hkstack, hk]) (by rw [hpgdir, hd])
  refine ⟨hother, ?_, ?_, hpipes, ?_, ?_, fun _ => hsz, ?_⟩
  . intro x hx
    apply hmoves.frame
    intro hin
    apply hx
    rw [hpages]
    rw [Multiset.mem_add] at hin
    rw [Multiset.mem_add, Multiset.mem_add]
    cases hin with
    | inl hown => exact .inr (.inr hown)
    | inr hfree => exact .inl hfree
  . rw [hpages, hpages', add_left_comm, add_comm _ (s'.mem.own d), hmoves.conserve]
    ac_rfl
  . intro _
    exact ⟨k, by rw [hkstack, hk]⟩
  . intro _
    exact ⟨d, by rw [hpgdir, hd]⟩
  . intro d' hz hd'
    rw [hpgdir, hd] at hd'
    cases hd'
    exact hzombie hz

theorem Inv.sysSbrk {n : BitVec 32} (h : Inv L s) (hp : (s.proc p).state ≠ .unused)
    (hzombie : (s.proc p).state ≠ .zombie) (hsz : ((s.proc p).sz + n).toNat ≤ 2 ^ 31)
    : ∃ s', s.sysSbrk L p n = .ok ((s.proc p).sz, s') ∧ Steps p s s' := by
  rcases h.pgdir p hp with ⟨d, hd⟩
  generalize hs₁ : s.modifyProc p ({ · with sz := (s.proc p).sz + n }) = s₁
  have hself : s₁.proc p = { s.proc p with sz := (s.proc p).sz + n } := by
    rw [← hs₁]
    simp
  have hmoves : ∀ m', Mem.Moves d s.mem m' → Steps p s { s₁ with mem := m' } := by
    intro m' hm'
    apply Steps.of_moves h hp hd hm'
    . intro q hne
      rw [← hs₁]
      simp only [modifyProc_of_ne s _ hne]
      exact .refl _
    . rw [← hs₁]
      rfl
    . simp only [hself]
    . simp only [hself]
    . simpa only [hself] using hp
    . intro hz
      simp only [hself] at hz
      exact absurd hz hzombie
    . simpa only [hself] using hsz
  unfold VmSys.sysSbrk
  simp only
  rw [hs₁]
  have hmem : s₁.mem = s.mem := by
    rw [← hs₁]
    rfl
  split
  next hneg =>
    rcases (h.owned hp hd).deallocuvm (s.proc p).sz ((s.proc p).sz + n) (h.sz p hp)
      with ⟨m', hok, hfrees⟩
    rw [pgdir_eq (by rw [hself]; exact hd), Fold.ok_bind, hmem, hok, Fold.ok_bind]
    exact ⟨_, rfl, hmoves m' hfrees.moves⟩
  next hpos =>
    refine ⟨s₁, rfl, ?_⟩
    have hrefl := hmoves s.mem (.refl d s.mem)
    rw [← hmem] at hrefl
    exact hrefl

theorem Inv.exit (h : Inv L s) (hp : (s.proc p).state ≠ .unused) (hinit : s.initproc ≠ some p)
    (hd : (s.proc p).pgdir = some d)
    : ∃ s', s.exit L p = .ok s' ∧ Steps p s s' ∧ (s'.proc p).state = .zombie ∧
        s'.mem.free = s.mem.user d + s.mem.free := by
  unfold VmSys.exit
  rw [if_neg hinit]
  simp only
  generalize hs₁ : ({ s with proc := fun q =>
    if (s.proc q).parent = some p then { s.proc q with parent := s.initproc } else s.proc q }
      : VmSys) = s₁
  have hsame : ∀ q, SameSpace (s.proc q) (s₁.proc q) := by
    intro q
    rw [← hs₁]
    simp only
    split
    . exact ⟨rfl, rfl, rfl, rfl⟩
    . exact .refl _
  have hpipes : s₁.pipes = s.pipes := by rw [← hs₁]
  rcases hsame p with ⟨_, hkstack, hpgdir, hsz⟩
  rcases (h.owned hp hd).deallocuvm_all with ⟨m', hok, hfrees, huser⟩
  rw [pgdir_eq (by rw [hpgdir]; exact hd), Fold.ok_bind, hok, Fold.ok_bind]
  have hfree : m'.free = s.mem.user d + s.mem.free := by
    have hconserve := hfrees.conserve
    rw [Mem.own_add_free, Mem.own_add_free, huser, hfrees.tables, add_zero, add_assoc] at hconserve
    rw [add_left_cancel hconserve, add_comm]
  refine ⟨_, rfl, ?_, by simp, hfree⟩
  apply Steps.of_moves h hp hd hfrees.moves
  . intro q hne
    simp only [modifyProc_of_ne s₁ _ hne]
    exact hsame q
  . exact hpipes
  . simp [hkstack]
  . simp [hpgdir]
  . simp
  . intro _
    exact huser
  . simp only [modifyProc_self]
    rw [hsz]
    exact h.sz p hp

theorem Inv.nodup_procPages (h : Inv L s) (p : ProcId)
    : (s.mem.free + procPages s.mem (s.proc p)).Nodup :=
  Multiset.nodup_of_le (free_add_procPages_le s p) h.nodup

theorem Inv.managed_procPages (h : Inv L s) (p : ProcId)
    : ∀ x ∈ s.mem.free + procPages s.mem (s.proc p), L.Managed x :=
  fun x hx => h.managed x (Multiset.mem_of_le (free_add_procPages_le s p) hx)

theorem Inv.wait (h : Inv L s) (p : ProcId)
    : ∃ r s', s.wait L p = .ok (r, s') ∧
        ((r = none ∧ s' = s) ∨
          ∃ q, r = some q ∧ Steps q s s' ∧ (s.proc q).parent = some p ∧
            (s.proc q).state = .zombie ∧ (s'.proc q).state = .unused ∧
            s'.mem.free = procPages s.mem (s.proc q) + s.mem.free) := by
  unfold VmSys.wait
  simp only
  generalize hfind : (List.finRange NPROC).find?
    (fun q => decide ((s.proc q).parent = some p ∧ (s.proc q).state = .zombie)) = res
  cases res with
  | none => exact ⟨none, s, rfl, .inl ⟨rfl, rfl⟩⟩
  | some q =>
    have hq := List.find?_some hfind
    simp only [decide_eq_true_eq] at hq
    have hused : (s.proc q).state ≠ .unused := by
      rw [hq.2]
      simp
    rcases h.kstack q hused with ⟨k, hk⟩
    rcases h.pgdir q hused with ⟨d, hd⟩
    have hpages := procPages_used (m := s.mem) hused hk hd
    have hnodup := h.nodup_procPages q
    have hmanaged := h.managed_procPages q
    have howntables : s.mem.own d = s.mem.tables d := by
      unfold Mem.own
      rw [h.zombie q d hq.2 hd, add_zero]
    rw [hpages, howntables] at hnodup hmanaged
    simp only [hk, hd]
    rcases Mem.kfree_ok s.mem (hmanaged k (by simp)) with ⟨m₁, hok₁, hfree₁, hphys₁⟩
    have hsame : ∀ x ∈ s.mem.tables d, m₁.phys x = s.mem.phys x := by
      intro x hx
      apply hphys₁
      intro heq
      have hdisj := (Multiset.nodup_add.mp (Multiset.nodup_add.mp hnodup).2.1).2.2
      exact Multiset.disjoint_left.mp hdisj (Multiset.mem_singleton_self k) (heq ▸ hx)
    have htotal : m₁.tables d + m₁.free = s.mem.free + ({k} + s.mem.tables d) := by
      rw [Mem.tables_congr hsame, hfree₁, ← Multiset.singleton_add]
      ac_rfl
    have hvalid : Mem.Valid L m₁ d := by
      constructor
      . rw [htotal]
        exact hnodup
      . rw [htotal]
        exact hmanaged
    rcases hvalid.freevm with ⟨m₂, hok₂, hfree₂, hframe₂⟩
    rw [hok₁, Fold.ok_bind, hok₂, Fold.ok_bind]
    have hfree : m₂.free = procPages s.mem (s.proc q) + s.mem.free := by
      rw [hfree₂, htotal, hpages, howntables, add_comm]
    refine ⟨some q, _, rfl, .inr ⟨q, rfl, ?_, hq.1, hq.2, by simp, hfree⟩⟩
    refine ⟨?_, ?_, ?_, rfl, by simp, by simp, by simp, by simp⟩
    . intro r hne
      simp only [modifyProc_of_ne s _ hne]
      exact .refl _
    . intro x hx
      rw [hpages, howntables, Multiset.mem_add, Multiset.mem_add, not_or, not_or] at hx
      simp only
      rw [hframe₂, hphys₁]
      . simpa using hx.2.1
      . rw [Mem.tables_congr hsame]
        exact hx.2.2
    . rw [procPages_unused (by simp), add_zero]
      simp only
      rw [hfree, add_comm]

-- What `exec` makes of the image: it takes the place of the old address space, or there is none.
def Execs (m m₁ : Mem) (r : Option Image) : Prop :=
  (r = none ∧ Mem.Restores m m₁) ∨
    ∃ image, r = some image ∧ image.sz.toNat < 2 ^ 31 ∧ m₁.own image.pgdir + m₁.free = m.free ∧
      ∀ x, x ∉ m.free → m₁.phys x = m.phys x

theorem Inv.exec_of {ip : Option Binary} {argv : List (List (BitVec 8))} {r : Option Image} {m₁ : Mem}
    (h : Inv L s) (hp : (s.proc p).state ≠ .unused) (hzombie : (s.proc p).state ≠ .zombie)
    (hd : (s.proc p).pgdir = some d) (hok : s.mem.execImage L d ip argv = .ok (r, m₁))
    (hres : Execs s.mem m₁ r)
    : ∃ s', s.exec L p ip argv = .ok (r.isSome, s') ∧ Steps p s s' ∧
        (r = none → s' = { s with mem := m₁ }) ∧
        ∀ image, r = some image → s'.proc = Function.update s.proc p
            { s.proc p with
              pgdir := some image.pgdir, sz := image.sz, eip := image.eip, esp := image.esp } ∧
          ∀ x ∈ m₁.own image.pgdir, s'.mem.phys x = m₁.phys x := by
  rcases h.kstack p hp with ⟨k, hk⟩
  have howned := h.owned hp hd
  unfold VmSys.exec
  rw [pgdir_eq hd, Fold.ok_bind, hok, Fold.ok_bind]
  cases hres with
  | inl hnone =>
    rcases hnone with ⟨hr, hrestores⟩
    rw [hr]
    refine ⟨_, rfl, ?_, fun _ => rfl, nofun⟩
    have hsame : ∀ x ∈ s.mem.tables d, m₁.phys x = s.mem.phys x := by
      intro x hx
      exact hrestores.frame x (howned.notMem_free (Multiset.mem_add.mpr (.inl hx)))
    apply Steps.of_moves h hp hd
    . constructor
      . simp only
        rw [Mem.own_congr hsame, hrestores.free]
      . intro x hx
        rw [Multiset.mem_add, not_or] at hx
        exact hrestores.frame x hx.2
    . intro q hne
      exact .refl _
    . rfl
    . rfl
    . rfl
    . exact hp
    . intro hz
      exact absurd hz hzombie
    . exact h.sz p hp
  | inr hsome =>
    rcases hsome with ⟨image, hr, hsz, hown, hframe⟩
    rw [hr]
    simp only
    have hsame : ∀ x ∈ s.mem.tables d, m₁.phys x = s.mem.phys x := by
      intro x hx
      exact hframe x (howned.notMem_free (Multiset.mem_add.mpr (.inl hx)))
    have hold : m₁.own d = s.mem.own d := Mem.own_congr hsame
    -- the old and the new address space have no page in common
    have htotal : m₁.own image.pgdir + (m₁.own d + m₁.free) = s.mem.own d + s.mem.free := by
      rw [hold, ← hown]
      ac_rfl
    have hnodup := howned.nodup
    rw [← htotal] at hnodup
    have howned₁ : Mem.Owned L m₁ d := by
      refine ⟨(Multiset.nodup_add.mp hnodup).2.1, ?_⟩
      intro x hx
      apply howned.managed
      rw [← htotal, Multiset.mem_add]
      exact .inr hx
    rcases howned₁.freevm with ⟨m₂, hok₂, hfree₂, hframe₂⟩
    have hkeep : ∀ x ∈ m₁.own image.pgdir, m₂.phys x = m₁.phys x := by
      intro x hx
      apply hframe₂
      exact Multiset.disjoint_left.mp (Multiset.nodup_add.mp hnodup).2.2 hx
    have hnew : m₂.own image.pgdir = m₁.own image.pgdir :=
      Mem.own_congr (fun x hx => hkeep x (Multiset.mem_add.mpr (.inl hx)))
    rw [hok₂, Fold.ok_bind]
    refine ⟨_, rfl, ?_, nofun, ?_⟩
    rotate_left
    . intro image' himage
      cases himage
      exact ⟨rfl, hkeep⟩
    refine ⟨?_, ?_, ?_, rfl, ?_, ?_, ?_, ?_⟩
    . intro q hne
      simp only [modifyProc_of_ne s _ hne]
      exact .refl _
    . intro x hx
      rw [procPages_used hp hk hd, Multiset.mem_add, Multiset.mem_add, not_or, not_or] at hx
      simp only
      rw [hframe₂, hframe x hx.1]
      rw [hold, Multiset.mem_add, not_or]
      refine ⟨hx.2.2, ?_⟩
      intro hin
      apply hx.1
      rw [← hown, Multiset.mem_add]
      exact .inr hin
    . rw [procPages_used hp hk hd, procPages_used (k := k) (d := image.pgdir)]
      . simp only
        rw [hfree₂, hnew, hold, ← hown]
        ac_rfl
      . simpa using hp
      . simpa using hk
      . simp
    . intro _
      exact ⟨k, by simpa using hk⟩
    . intro _
      exact ⟨image.pgdir, by simp⟩
    . intro _
      simp only [modifyProc_self]
      omega
    . intro d' hz
      simp only [modifyProc_self] at hz
      exact absurd hz hzombie

theorem Inv.exec {ip : Option Binary} {argv : List (List (BitVec 8))} (h : Inv L s)
    (hp : (s.proc p).state ≠ .unused) (hzombie : (s.proc p).state ≠ .zombie)
    (hargv : ∀ a ∈ argv, a.length + 4 ≤ 2 ^ 25)
    : ∃ r s', s.exec L p ip argv = .ok (r, s') ∧ Steps p s s' ∧
        (r = false → s'.mem.free = s.mem.free) := by
  rcases h.pgdir p hp with ⟨d, hd⟩
  rcases (h.owned hp hd).free.execImage hargv with ⟨r, m₁, hok, hres⟩
  have hres' : Execs s.mem m₁ r := by
    apply hres.imp_right
    rintro ⟨image, hr, _, hsz, _, hown, hframe⟩
    exact ⟨image, hr, hsz, hown, hframe⟩
  rcases h.exec_of hp hzombie hd hok hres' with ⟨s', hs', hsteps, hfail, _⟩
  refine ⟨r.isSome, s', hs', hsteps, ?_⟩
  intro hr
  cases hres with
  | inl hnone => rw [hfail hnone.1, hnone.2.free]
  | inr hsome =>
    rcases hsome with ⟨image, hsome, _⟩
    rw [hsome] at hr
    contradiction

end VmSys

end Xv6
