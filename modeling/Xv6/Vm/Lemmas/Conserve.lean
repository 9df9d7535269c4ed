import Xv6.Vm.Lemmas.Fault

/-!
No page is lost or shared by a run of the calls that allocate and free pages, whichever calls of
`kalloc` in them fail.
-/

namespace Xv6
namespace VmSys

variable {L : Layout} {s t : VmSys} {p : ProcId}

def pipePages (s : VmSys) : Multiset (BitVec 32) := (s.pipes.map PipePage.page : List (BitVec 32))

theorem pages_eq (s : VmSys)
    : s.pages = (s.mem.free + s.pipePages) + ∑ p, procPages s.mem (s.proc p) :=
  add_right_comm _ _ _

-- The pages of the processes stay what they are, and the others change hands.
theorem Inv.exchange (h : Inv L s) (hproc : t.proc = s.proc)
    (hpages : t.mem.free + t.pipePages = s.mem.free + s.pipePages)
    (hframe : ∀ x, x ∉ s.mem.free + s.pipePages → t.mem.phys x = s.mem.phys x)
    : Inv L t ∧ t.pages = s.pages := by
  have hsame : ∀ p d, (s.proc p).state ≠ .unused → (s.proc p).pgdir = some d →
      ∀ x ∈ s.mem.tables d, t.mem.phys x = s.mem.phys x := by
    intro p d hp hd x hx
    apply hframe
    have hnodup := h.nodup
    rw [pages_eq] at hnodup
    apply Multiset.disjoint_right.mp (Multiset.nodup_add.mp hnodup).2.2
    have hle : procPages s.mem (s.proc p) ≤ ∑ q, procPages s.mem (s.proc q) :=
      Finset.single_le_sum (fun _ _ => Multiset.zero_le _) (Finset.mem_univ p)
    apply Multiset.mem_of_le (le_trans (own_le_procPages hp hd) hle)
    exact Multiset.mem_add.mpr (.inl hx)
  have hprocs : ∀ p, procPages t.mem (s.proc p) = procPages s.mem (s.proc p) := by
    intro p
    unfold procPages
    split
    . rfl
    next hp =>
      rcases h.pgdir p hp with ⟨d, hd⟩
      rw [hd]
      simp only [Option.elim_some]
      rw [Mem.own_congr (hsame p d hp hd)]
  have heq : t.pages = s.pages := by
    rw [pages_eq, pages_eq, hpages, hproc]
    simp only [hprocs]
  refine ⟨⟨?_, ?_, ?_, ?_, ?_, ?_⟩, heq⟩
  . rw [heq]
    exact h.nodup
  . rw [heq]
    exact h.managed
  . rw [hproc]
    exact h.kstack
  . rw [hproc]
    exact h.pgdir
  . rw [hproc]
    exact h.sz
  . rw [hproc]
    intro p d hz hd
    have hp : (s.proc p).state ≠ .unused := by
      rw [hz]
      decide
    rw [Mem.user_congr, h.zombie p d hz hd]
    intro u hu
    exact Mem.walk_congr (hsame p d hp hd) (by omega)

theorem Inv.pipealloc {f0 f1 r : Bool} (h : Inv L s) (hok : s.pipealloc f0 f1 = (r, t))
    : (Inv L t ∧ t.pages = s.pages) ∧ (r = false → t.mem.free = s.mem.free) := by
  unfold VmSys.pipealloc at hok
  split at hok
  . cases hok
    exact ⟨⟨h, rfl⟩, fun _ => rfl⟩
  . split at hok
    next hkalloc =>
      cases hok
      rcases Mem.kalloc_none hkalloc with ⟨hphys, hfree⟩
      refine ⟨h.exchange rfl ?_ ?_, fun _ => hfree⟩
      . dsimp only
        rw [hfree]
        rfl
      . intro x _
        rw [hphys]
    next page m hkalloc =>
      cases hok
      rcases Mem.kalloc_some hkalloc with ⟨hphys, hfree⟩
      refine ⟨h.exchange rfl ?_ ?_, fun hr => nomatch hr⟩
      . rw [hfree, Multiset.cons_add, ← Multiset.add_cons]
        rfl
      . intro x _
        rw [hphys]

theorem Inv.pipeclose {i : Nat} {writable : Bool} (h : Inv L s)
    (hok : s.pipeclose L i writable = .ok t)
    : Inv L t ∧ t.pages = s.pages := by
  unfold VmSys.pipeclose at hok
  split at hok
  . contradiction
  next pipe hpipe =>
    rcases List.getElem?_eq_some_iff.mp hpipe with ⟨hi, hget⟩
    have hpage : (if writable then { pipe with writeopen := false }
        else { pipe with readopen := false }).page = pipe.page := by
      split
      . rfl
      . rfl
    generalize (if writable then { pipe with writeopen := false }
        else { pipe with readopen := false }) = closed at hok hpage
    have hpages : s.pipePages = closed.page ::ₘ ((s.pipes.eraseIdx i).map PipePage.page : List _) := by
      have hperm := (List.getElem_cons_eraseIdx_perm hi).map PipePage.page
      rw [hget, List.map_cons, ← hpage] at hperm
      exact (Multiset.coe_eq_coe.mpr hperm).symm
    dsimp only at hok
    split at hok
    . have hmem : closed.page ∈ s.mem.free + s.pipePages := by
        rw [hpages]
        simp
      have hmanaged : L.Managed closed.page := by
        apply h.managed
        rw [pages_eq]
        exact Multiset.mem_add.mpr (.inl hmem)
      rcases Mem.kfree_ok s.mem hmanaged with ⟨m, hkfree, hfree, hphys⟩
      rw [hkfree, Fold.ok_bind] at hok
      cases hok
      apply h.exchange
      . rfl
      . rw [hpages, hfree, Multiset.cons_add, ← Multiset.add_cons]
        rfl
      . intro x hx
        apply hphys
        rintro rfl
        exact hx hmem
    . cases hok
      have hset : (s.pipes.set i closed).map PipePage.page = s.pipes.map PipePage.page := by
        have hlen : i < (s.pipes.map PipePage.page).length := by
          rw [List.length_map]
          exact hi
        have hat : closed.page = (s.pipes.map PipePage.page)[i] := by
          rw [List.getElem_map, hget, hpage]
        rw [List.map_set, hat, List.set_getElem_self]
      apply h.exchange
      . rfl
      . unfold pipePages
        dsimp only
        rw [hset]
      . intro x _
        rfl

def PageRange (s : VmSys) : PageEvent → Prop
  | .call e => InRange s e
  | _ => True

abbrev PageRun (L : Layout) : VmSys → List PageEvent → VmSys → Prop :=
  Transition.Run (PageStep L) PageRange

theorem Inv.pageStep {e : PageEvent} (h : Inv L s) (hrange : PageRange s e) (hstep : PageStep L s e t)
    : Inv L t ∧ t.pages = s.pages := by
  cases hstep with
  | call hstep => exact h.call hrange hstep
  | exit hp hok => exact h.exit_of hp.1 hok
  | @wait _ p _ hp hok =>
    rcases h.wait p with ⟨r, u, hu, hres⟩
    rw [hu] at hok
    cases hok
    rcases hres with ⟨_, heq⟩ | ⟨q, _, hsteps, _⟩
    . rw [heq]
      exact ⟨h, rfl⟩
    . exact ⟨hsteps.inv h, hsteps.pages h⟩
  | pipealloc hok => exact (h.pipealloc hok).1
  | pipeclose hok => exact h.pipeclose hok

/--
Every page stays in one place: on the free list, with one process, or with one pipe. A failed `fork`,
`exec` or `pipealloc` gives back what it took, and with `wait` all that a child had is free again.
-/
theorem pages_conserved {es : List PageEvent} (hs : Inv L s) (hrun : PageRun L s es t)
    : t.pages = s.pages ∧ t.pages.Nodup ∧
        (∀ p u, t.Active p → t.fork L p = .ok (none, u) → u.mem.free = t.mem.free) ∧
        (∀ p ip argv u, t.Active p → (∀ a ∈ argv, a.length + 4 ≤ 2 ^ 25) →
          t.exec L p ip argv = .ok (false, u) → u.mem.free = t.mem.free) ∧
        (∀ f0 f1 u, t.pipealloc f0 f1 = (false, u) → u.mem.free = t.mem.free) ∧
        ∀ p q u, t.wait L p = .ok (some q, u) →
          u.mem.free = procPages t.mem (t.proc q) + t.mem.free := by
  have hkeep : Inv L t ∧ t.pages = s.pages := by
    apply hrun.invariant _ ⟨hs, rfl⟩
    rintro u e v ⟨hu, hpages⟩ hrange hstep
    rcases hu.pageStep hrange hstep with ⟨hv, heq⟩
    exact ⟨hv, heq.trans hpages⟩
  rcases hkeep with ⟨ht, hpages⟩
  refine ⟨hpages, ht.nodup, ?_, ?_, ?_, ?_⟩
  . intro p u hp hfork
    rcases ht.fork hp.1 with ⟨r, v, hv, _, hfree⟩
    rw [hv] at hfork
    cases hfork
    exact hfree rfl
  . intro p ip argv u hp hargv hexec
    rcases ht.exec hp.1 hp.2 hargv with ⟨r, v, hv, _, hfree⟩
    rw [hv] at hexec
    cases hexec
    exact hfree rfl
  . intro f0 f1 u hpipe
    exact (ht.pipealloc hpipe).2 rfl
  . intro p q u hwait
    rcases ht.wait p with ⟨r, v, hv, hres⟩
    rw [hv] at hwait
    cases hwait
    rcases hres with ⟨hnone, _⟩ | ⟨q', hq, _, _, _, _, hfree⟩
    . contradiction
    . cases hq
      exact hfree

def pipeAndFork : List PageEvent :=
  [.pipealloc true true, .call (.fork 0), .pipeclose 0 true, .pipeclose 0 false]

theorem pages_conserved_scarce
    : ∃ t, PageRun smallLayout scarce pipeAndFork t ∧ t.mem.freelist = [0x406000] ∧
        t.pages = scarce.pages ∧ t.pages.Nodup := by
  have hrun : PageRun smallLayout scarce pipeAndFork _ :=
    .cons trivial (.pipealloc rfl) <|
    .cons trivial (.call (.fork ⟨by decide, by decide⟩ rfl)) <|
    .cons trivial (.pipeclose rfl) <|
    .cons trivial (.pipeclose rfl) (.nil _)
  have hkeep := pages_conserved scarce_inv hrun
  exact ⟨_, hrun, rfl, hkeep.1, hkeep.2.1⟩

end VmSys
end Xv6
