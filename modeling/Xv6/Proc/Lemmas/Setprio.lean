import Mathlib.Data.Fintype.Card
import Xv6.Proc.Impl.Setprio
import Xv6.Proc.Lemmas.Sched

open Linked

namespace Xv6
namespace Kernel

variable {ncpu : Nat}

theorem Queued.onQueue_iff {s : Kernel ncpu} {L : Fin NPRIO → List ProcId} (h : s.Queued L)
    (q : Fin NPRIO) (p : ProcId)
    : s.OnQueue q p ↔ (s.proc p).state = .runnable ∧ (s.proc p).prio.toNat = q := by
  unfold OnQueue
  rw [(h.queue q).chain.reaches_iff]
  rw [h.mem_iff]

theorem setNewPrio.search_eq (s : Kernel ncpu) (p : ProcId) (l₁ l₂ : List ProcId) (hp : p ∉ l₁)
    : ∀ (fuel : Nat) (anterior actual : Option ProcId),
        Chain s.sigprio actual (l₁ ++ p :: l₂)
          →
        l₁.length < fuel
          →
        search s p fuel anterior actual = .ok (l₁.getLast?.or anterior) := by
  induction l₁ with
  | nil =>
    intro fuel anterior actual hchain hfuel
    cases fuel with
    | zero => contradiction
    | succ fuel =>
      unfold search
      simp [hchain.1]
  | cons a l₁ ih =>
    intro fuel anterior actual hchain hfuel
    cases fuel with
    | zero => contradiction
    | succ fuel =>
      simp only [List.mem_cons, not_or] at hp
      unfold search
      rw [hchain.1]
      simp only [Option.some.injEq, Ne.symm hp.1, ↓reduceIte]
      rw [ih hp.2]
      . simp [List.getLast?_cons, Option.getD]
      . exact hchain.2
      . simp only [List.length_cons] at hfuel
        omega

theorem setNewPrio.relink_eq (s : Kernel ncpu) (p : ProcId) (prio : BitVec 32) (prt : Fin NPRIO)
    (anterior : ProcId) (hsig : (s.proc p).sigprio ≠ none)
    : relink s p prio prt anterior =
        (((s.modifyProc anterior ({ · with sigprio := (s.proc p).sigprio })).modifyProc p
          ({ · with sigprio := none })).modifyProc p ({ · with prio := prio })).insertProc p prio := by
  unfold relink
  simp only [modifyProc_proc_self, hsig, ↓reduceIte]

theorem length_le_of_nodup {l : List ProcId} (h : l.Nodup) : l.length ≤ NPROC := by
  have := h.length_le_card
  rwa [Fintype.card_fin] at this

namespace Represents

variable {s : Kernel ncpu} {L : Fin NPRIO → List ProcId}

theorem unlink (h : s.Represents L) {q : Fin NPRIO} {p anterior : ProcId} {l₁ l₂ : List ProcId}
    (hl : L q = l₁ ++ anterior :: p :: l₂) (hlast : (s.priotable q).ultimo ≠ some p)
    : ((s.modifyProc anterior ({ · with sigprio := (s.proc p).sigprio })).modifyProc p
        ({ · with sigprio := none })).Represents (Function.update L q (l₁ ++ anterior :: l₂)) := by
  constructor
  . intro r
    rw [modifyProc_sigprio, modifyProc_sigprio]
    by_cases hrq : r = q
    . subst hrq
      have hr := h.queue r
      rw [hl] at hr
      simpa [Kernel.sigprio] using hr.unlink hlast
    . have hnotMem : ∀ x ∈ L q, x ∉ L r := by
        intro x hx hmem
        exact hrq (h.disjoint r q x hmem hx)
      have hr := (h.queue r).update_of_notMem (v := (s.proc p).sigprio)
        (hnotMem anterior (by simp [hl]))
      have hr := hr.update_of_notMem (v := none) (hnotMem p (by simp [hl]))
      simpa [hrq] using hr
  . apply h.update_disjoint
    intro x hx
    left
    rw [hl]
    simp only [List.mem_append, List.mem_cons] at hx ⊢
    grind

end Represents

theorem Queued.move {s t : Kernel ncpu} {L M : Fin NPRIO → List ProcId} (h : s.Queued L)
    {p : ProcId} {r : Fin NPRIO} {a : BitVec 32}
    (hp : (s.proc p).state = .runnable) (ha : a.toNat = r)
    (hM : ∀ x k, x ∈ M k ↔ x ≠ p ∧ x ∈ L k)
    (hrep : t.Represents (Function.update M r (M r ++ [p])))
    (hproc : ∀ x, (t.proc x).state = (s.proc x).state ∧
      (t.proc x).prio = if x = p then a else (s.proc x).prio)
    : t.Queued (Function.update M r (M r ++ [p])) := by
  refine ⟨hrep, ?_⟩
  intro k x
  rw [(hproc x).1, (hproc x).2]
  have hx := h.mem_iff k x
  by_cases hxp : x = p
  . subst hxp
    simp only [hp, true_and, ↓reduceIte, ha]
    by_cases hkr : k = r
    . subst hkr
      simp
    . simp only [ne_eq, hkr, not_false_eq_true, Function.update_of_ne, hM, not_true_eq_false,
        false_and, false_iff]
      intro heq
      apply hkr
      apply Fin.ext
      exact heq.symm
  . by_cases hkr : k = r
    . subst hkr
      simpa [hxp, hM] using hx
    . simpa [hxp, hkr, hM] using hx

def remove (L : Fin NPRIO → List ProcId) (q : Fin NPRIO) (p : ProcId) : Fin NPRIO → List ProcId :=
  Function.update L q ((L q).erase p)

theorem Represents.mem_remove {s : Kernel ncpu} {L : Fin NPRIO → List ProcId} (hL : s.Represents L)
    {p : ProcId} {q : Fin NPRIO} (hp : p ∈ L q) (x : ProcId) (k : Fin NPRIO)
    : x ∈ remove L q p k ↔ x ≠ p ∧ x ∈ L k := by
  unfold remove
  by_cases hkq : k = q
  . subst hkq
    rw [Function.update_self]
    exact (hL.queue k).nodup.mem_erase_iff
  . have hne : x ∈ L k → x ≠ p := by
      intro hx heq
      exact hkq (hL.disjoint k q p (heq ▸ hx) hp)
    rw [Function.update_of_ne hkq]
    exact ⟨fun hx => ⟨hne hx, hx⟩, fun hx => hx.2⟩

structure Moves (s : Kernel ncpu) (L : Fin NPRIO → List ProcId) (p : ProcId) (a : BitVec 32)
    (q r : Fin NPRIO) (t : Kernel ncpu) : Prop where
  represents : t.Represents (Function.update (remove L q p) r (remove L q p r ++ [p]))
  links : LinksOnly (s.modifyProc p ({ · with prio := a })) t

theorem setNewPrio_first {s : Kernel ncpu} {L : Fin NPRIO → List ProcId} (hL : s.Queued L)
    {p : ProcId} {a : BitVec 32} {q r : Fin NPRIO} (ha : a.toNat = r)
    (hfirst : (s.priotable q).primero = some p)
    : ∃ t, s.setNewPrio p a q = .ok t ∧ s.Moves L p a q r t := by
  rcases hL.of_primero hfirst with ⟨l, hl, _, hq⟩
  have hM := hL.mem_remove (p := p) (q := q) (by simp [hl])
  have hremove : remove L q p = Function.update L q l := by
    unfold remove
    rw [hl, List.erase_cons_head]
  have hrep := hL.toRepresents.quitarProcAt hl
  rw [← hremove] at hrep
  have hrep := hrep.insertProcAt (p := p) (by simp [hM]) r
  have hlinks := (quitarProcAt_linksOnly s p q).trans (insertProcAt_linksOnly _ p r)
  refine ⟨((s.quitarProcAt p q).2.insertProcAt p r).modifyProc p ({ · with prio := a }), ?_,
    hrep.of_eq ?_ ?_, ?_⟩
  . unfold setNewPrio
    simp only [hfirst, ↓reduceIte]
    rw [quitarProc_eq s p hq]
    change (do let s ← (s.quitarProcAt p q).2.insertProc p a; _) = _
    rw [insertProc_eq _ p ha]
    rfl
  . apply modifyProc_sigprio_of_eq
    rfl
  . rfl
  . constructor
    . intro x
      rw [modifyProc_proc, modifyProc_proc]
      split
      . next heq =>
        subst heq
        rw [hlinks.proc]
      . rw [hlinks.proc]
    . exact hlinks.cpu
    . exact hlinks.initproc

section

variable {s : Kernel ncpu} {L : Fin NPRIO → List ProcId} {p anterior : ProcId}
  {l₁ l₂ : List ProcId} {a : BitVec 32} {q r : Fin NPRIO}

theorem Represents.next_eq (hL : s.Represents L) (hl : L q = l₁ ++ anterior :: p :: l₂)
    : (s.proc p).sigprio = l₂.head? := by
  have hqueue := hL.queue q
  have hchain : Chain s.sigprio (s.priotable q).primero ((l₁ ++ [anterior]) ++ p :: l₂) := by
    simpa [hl] using hqueue.chain
  exact hchain.next_eq_of_append

theorem setNewPrio_relinks (hL : s.Represents L) (hl : L q = l₁ ++ anterior :: p :: l₂)
    : s.setNewPrio p a q = setNewPrio.relink s p a q anterior := by
  have hqueue := hL.queue q
  rw [hl] at hqueue
  have hnodup := hqueue.nodup
  have hp : p ∉ l₁ ++ [anterior] := by
    simp only [List.nodup_append, List.nodup_cons, List.mem_cons] at hnodup
    grind
  have hsearch := setNewPrio.search_eq s p (l₁ ++ [anterior]) l₂ hp (NPROC + 1)
  have hlen : (l₁ ++ [anterior]).length < NPROC + 1 := by
    have := length_le_of_nodup hnodup
    simp only [List.length_append, List.length_cons, List.length_nil] at this ⊢
    omega
  have hchain : Chain s.sigprio (s.priotable q).primero ((l₁ ++ [anterior]) ++ p :: l₂) := by
    simpa using hqueue.chain
  cases hprimero : (s.priotable q).primero with
  | none =>
    have := hchain.head_eq
    simp [hprimero] at this
  | some primero =>
    have hfirst : primero ≠ p := by
      intro heq
      have := hchain.head_eq
      rw [hprimero, heq] at this
      apply hp
      rw [List.append_assoc, ← List.append_assoc] at this
      rw [List.head?_append_of_ne_nil _ (by simp)] at this
      exact List.mem_of_head? this.symm
    rw [hprimero] at hchain
    have hsearch := hsearch (s.proc primero).sigprio (some primero) hchain hlen
    unfold setNewPrio
    simp only [hprimero, Option.some.injEq, hfirst, ↓reduceIte]
    rw [hsearch]
    simp only [List.getLast?_append, List.getLast?_singleton, Option.some_or]
    rfl

-- ultimo becomes the link of anterior, which is null by then
theorem setNewPrio_last (hL : s.Represents L) (ha : a.toNat = r) (hl : L q = l₁ ++ [anterior, p])
    : ∃ t, s.setNewPrio p a q = .ok t ∧
        t.priotable q = if q = r then ⟨some p, some p⟩ else ⟨(s.priotable q).primero, none⟩ := by
  have hsig : (s.proc p).sigprio = none := hL.next_eq hl
  rw [setNewPrio_relinks hL hl]
  unfold setNewPrio.relink
  simp only [modifyProc_proc_self, hsig, ↓reduceIte]
  rw [insertProc_eq _ p ha]
  refine ⟨_, rfl, ?_⟩
  unfold insertProcAt
  by_cases hqr : q = r
  . subst hqr
    simp [setPriotable, modifyProc]
  . rw [if_neg hqr]
    split
    . simp [setPriotable, modifyProc, hqr]
    . simp [setPriotable, modifyProc, hqr]

end

theorem setNewPrio_middle {s : Kernel ncpu} {L : Fin NPRIO → List ProcId} (hL : s.Queued L)
    {p anterior : ProcId} {l₁ l₂ : List ProcId} {a : BitVec 32} {q r : Fin NPRIO}
    (ha : a.toNat = r) (hl : L q = l₁ ++ anterior :: p :: l₂)
    (hlast : (s.priotable q).ultimo ≠ some p)
    : ∃ t, s.setNewPrio p a q = .ok t ∧ s.Moves L p a q r t := by
  have hqueue := hL.queue q
  rw [hl] at hqueue
  have hnodup := hqueue.nodup
  have hne : anterior ≠ p := by
    intro heq
    simp [List.nodup_append, heq] at hnodup
  have hp : p ∉ l₁ ++ [anterior] := by
    simp only [List.nodup_append, List.nodup_cons, List.mem_cons] at hnodup
    grind
  have hsig : (s.proc p).sigprio ≠ none := by
    rw [hL.next_eq hl]
    cases l₂ with
    | nil => simp [hqueue.last_eq] at hlast
    | cons b l₂ => simp
  have hM := hL.mem_remove (p := p) (q := q) (by simp [hl])
  have hremove : remove L q p = Function.update L q (l₁ ++ anterior :: l₂) := by
    have hp₁ : p ∉ l₁ := by
      intro hmem
      exact hp (List.mem_append_left _ hmem)
    have herase : (anterior :: p :: l₂).erase p = anterior :: l₂ := by
      rw [List.erase_cons_tail (by simp [hne]), List.erase_cons_head]
    unfold remove
    rw [hl, List.erase_append_right _ hp₁, herase]
  have hrep := hL.toRepresents.unlink hl hlast
  rw [← hremove] at hrep
  generalize hs₁ : (s.modifyProc anterior ({ · with sigprio := (s.proc p).sigprio })).modifyProc p
    ({ · with sigprio := none }) = s₁ at hrep
  have hlinks₁ : LinksOnly s s₁ := by
    rw [← hs₁]
    apply LinksOnly.trans (.setSigprio s anterior _)
    apply LinksOnly.setSigprio
  have hrep₂ : (s₁.modifyProc p ({ · with prio := a })).Represents
      (remove L q p) := by
    apply hrep.of_eq
    . apply modifyProc_sigprio_of_eq
      rfl
    . rfl
  have hrep₃ := hrep₂.insertProcAt (p := p) (by simp [hM]) r
  refine ⟨_, ?_, hrep₃, ?_⟩
  . rw [setNewPrio_relinks hL.toRepresents hl, setNewPrio.relink_eq s p a q anterior hsig, hs₁]
    exact insertProc_eq _ p ha
  . apply LinksOnly.trans _ (insertProcAt_linksOnly _ p r)
    constructor
    . intro x
      rw [modifyProc_proc, modifyProc_proc]
      split
      . next heq =>
        subst heq
        rw [hlinks₁.proc]
      . rw [hlinks₁.proc]
    . exact hlinks₁.cpu
    . exact hlinks₁.initproc

theorem Queued.anterior {s : Kernel ncpu} {L : Fin NPRIO → List ProcId} (hL : s.Queued L) {p : ProcId}
    {q : Fin NPRIO} (hp : (s.proc p).state = .runnable) (hq : (s.proc p).prio.toNat = q)
    (hfirst : (s.priotable q).primero ≠ some p)
    : ∃ l₁ anterior l₂, L q = l₁ ++ anterior :: p :: l₂ := by
  rcases List.append_of_mem ((hL.mem_iff q p).mpr ⟨hp, hq⟩) with ⟨l₀, l₂, hl⟩
  rcases List.eq_nil_or_concat l₀ with hnil | ⟨l₁, anterior, hl₀⟩
  . have hchain := (hL.queue q).chain
    rw [hl, hnil] at hchain
    exact absurd hchain.1 hfirst
  . refine ⟨l₁, anterior, l₂, ?_⟩
    rw [hl, hl₀]
    simp

theorem setNewPrio_moves {s : Kernel ncpu} {L : Fin NPRIO → List ProcId} (hL : s.Queued L)
    {p : ProcId} {a : BitVec 32} {q r : Fin NPRIO} (hp : (s.proc p).state = .runnable)
    (hq : (s.proc p).prio.toNat = q) (ha : a.toNat = r)
    (hend : (s.priotable q).primero = some p ∨ (s.priotable q).ultimo ≠ some p)
    : ∃ t, s.setNewPrio p a q = .ok t ∧ s.Moves L p a q r t := by
  by_cases hfirst : (s.priotable q).primero = some p
  . exact setNewPrio_first hL ha hfirst
  . rcases hL.anterior hp hq hfirst with ⟨l₁, anterior, l₂, hl⟩
    exact setNewPrio_middle hL ha hl (hend.resolve_left hfirst)

namespace Moves

variable {s t : Kernel ncpu} {L : Fin NPRIO → List ProcId} {p : ProcId} {a : BitVec 32}
  {q r : Fin NPRIO}

theorem state_eq (h : s.Moves L p a q r t) (x : ProcId) : (t.proc x).state = (s.proc x).state := by
  rw [h.links.state_eq, modifyProc_proc]
  split
  . next heq => rw [heq]
  . rfl

theorem prio_eq (h : s.Moves L p a q r t) (x : ProcId)
    : (t.proc x).prio = if x = p then a else (s.proc x).prio := by
  rw [h.links.prio_eq, modifyProc_proc]
  split <;> rfl

theorem queued (h : s.Moves L p a q r t) (hL : s.Queued L) (hp : (s.proc p).state = .runnable)
    (hq : (s.proc p).prio.toNat = q) (ha : a.toNat = r)
    : t.Queued (Function.update (remove L q p) r (remove L q p r ++ [p])) := by
  have hM := hL.mem_remove ((hL.mem_iff q p).mpr ⟨hp, hq⟩)
  exact hL.move hp ha hM h.represents fun x => ⟨h.state_eq x, h.prio_eq x⟩

end Moves

theorem setNewPrio_spec {s : Kernel ncpu} (h : s.WellFormed) (hprio : s.PrioOk) {p : ProcId}
    {a : BitVec 32} {q : Fin NPRIO} (hp : (s.proc p).state = .runnable)
    (hq : (s.proc p).prio.toNat = q) (ha : a.toNat < NPRIO)
    (hend : (s.priotable q).primero = some p ∨ (s.priotable q).ultimo ≠ some p)
    : ∃ t, s.setNewPrio p a q = .ok t ∧ t.WellFormed ∧ t.PrioOk := by
  rcases h.toQueuesOk.exists_queued with ⟨L, hL⟩
  rcases setNewPrio_moves (r := ⟨a.toNat, ha⟩) hL hp hq rfl hend with ⟨t, ht, hmoves⟩
  refine ⟨t, ht, ⟨?_, ?_⟩, ?_⟩
  . exact (hmoves.queued hL hp hq rfl).queuesOk
  . apply h.toCpusOk.of_eq
    . exact hmoves.links.cpu
    . intro x
      rw [hmoves.state_eq]
  . intro x
    rw [hmoves.prio_eq]
    split
    . exact ha
    . apply hprio

theorem setNewPrio_last_breaks {s t : Kernel ncpu} {L : Fin NPRIO → List ProcId} (hL : s.Queued L)
    {p : ProcId} {a : BitVec 32} {q r : Fin NPRIO} (hp : (s.proc p).state = .runnable)
    (hq : (s.proc p).prio.toNat = q) (ha : a.toNat = r) (hfirst : (s.priotable q).primero ≠ some p)
    (hlast : (s.priotable q).ultimo = some p) (ht : s.setNewPrio p a q = .ok t)
    : ¬ t.Represents (Function.update (remove L q p) r (remove L q p r ++ [p])) := by
  rcases hL.anterior hp hq hfirst with ⟨l₁, anterior, l₂, hl⟩
  have hmem := hL.mem_remove ((hL.mem_iff q p).mpr ⟨hp, hq⟩)
  have hqueue := hL.queue q
  have hnil : l₂ = [] := by
    have hnodup := hqueue.nodup
    have hend := hqueue.last_eq
    rw [hlast, hl] at hend
    rw [hl] at hnodup
    cases hl₂ : l₂.getLast? with
    | none => exact List.getLast?_eq_none_iff.mp hl₂
    | some x =>
      have hin := List.mem_of_getLast? hl₂
      simp only [List.getLast?_append, List.getLast?_cons, hl₂] at hend
      simp at hend
      simp only [List.nodup_append, List.nodup_cons, List.mem_cons] at hnodup
      grind
  subst hnil
  have hanterior : anterior ∈ remove L q p q := by
    have hnodup := hqueue.nodup
    rw [hl] at hnodup
    rw [hmem, hl]
    simp only [List.nodup_append, List.nodup_cons, List.mem_cons] at hnodup
    grind
  rcases setNewPrio_last hL.toRepresents ha hl with ⟨t', ht', htable⟩
  rw [ht] at ht'
  cases ht'
  intro hrep
  have hbroken := hrep.queue q
  rw [htable] at hbroken
  by_cases hqr : q = r
  . subst hqr
    rw [if_pos rfl, Function.update_self] at hbroken
    have hhead := hbroken.chain.head_eq
    rw [List.head?_append_of_ne_nil _ (List.ne_nil_of_mem hanterior)] at hhead
    exact ((hmem p q).mp (List.mem_of_head? hhead.symm)).1 rfl
  . rw [if_neg hqr, Function.update_of_ne hqr] at hbroken
    rw [hbroken.last_none_iff.mp rfl] at hanterior
    contradiction

/--
setNewPrio takes a process out of its queue and appends it to the queue of the new priority, if and
only if the process is the first one or not the last one of its queue.
-/
theorem setNewPrio_moves_one (s : Kernel ncpu) (h : s.QueuesOk) (p : ProcId) (a : BitVec 32)
    (q r : Fin NPRIO) (hp : (s.proc p).state = .runnable) (hq : (s.proc p).prio.toNat = q)
    (ha : a.toNat = r)
    : (∃ L M t, s.Queued L ∧ s.setNewPrio p a q = .ok t ∧
        M = Function.update L q ((L q).erase p) ∧
        t.Queued (Function.update M r (M r ++ [p])) ∧
        (t.proc p).prio = a ∧
        (∀ x, t.proc x =
          { s.proc x with prio := (t.proc x).prio, sigprio := (t.proc x).sigprio }) ∧
        ∀ x, x ≠ p → (t.proc x).prio = (s.proc x).prio) ↔
        (s.priotable q).primero = some p ∨ (s.priotable q).ultimo ≠ some p := by
  constructor
  . rintro ⟨L, M, t, hL, ht, rfl, hqueued, _⟩
    by_contra hend
    rw [not_or, Classical.not_not] at hend
    exact setNewPrio_last_breaks hL hp hq ha hend.1 hend.2 ht hqueued.toRepresents
  . intro hend
    rcases h.exists_queued with ⟨L, hL⟩
    rcases setNewPrio_moves hL hp hq ha hend with ⟨t, ht, hmoves⟩
    refine ⟨L, remove L q p, t, hL, ht, rfl, hmoves.queued hL hp hq ha, ?_, ?_, ?_⟩
    . rw [hmoves.prio_eq, if_pos rfl]
    . intro x
      rw [hmoves.links.proc, modifyProc_proc]
      split
      . next heq => rw [heq]
      . rfl
    . intro x hx
      rw [hmoves.prio_eq, if_neg hx]

end Kernel

namespace SetprioEvent

variable {ncpu : Nat}

def ArgOk : SetprioEvent ncpu → Prop
  | .getProcbyPID _ _ a => a.toNat < NPRIO
  | _ => True

end SetprioEvent

namespace SetprioSys

variable {ncpu : Nat}

structure Safe (s : SetprioSys ncpu) : Prop where
  onQueue : ∀ p, (s.kernel.proc p).state = .runnable →
    ∀ q : Fin NPRIO, s.kernel.OnQueue q p ↔ (s.kernel.proc p).prio.toNat = q
  offQueue : ∀ p, (s.kernel.proc p).state ≠ .runnable → ∀ q, ¬ s.kernel.OnQueue q p
  noNullDeref : s.fault ≠ some .nullDeref

abbrev EventRun (ok : SetprioSys ncpu → SetprioEvent ncpu → Prop) (s : SetprioSys ncpu)
    (es : List (SetprioEvent ncpu)) (t : SetprioSys ncpu) : Prop :=
  Transition.Run Step ok s es t

/--
The steps that do not go wrong: when `setNewPrio` gets the lock its process is still runnable and in
the queue that was looked up, and it is the first one or not the last one of it; when the priority is
written without the lock the process is not runnable.
-/
def InTime (s : SetprioSys ncpu) : SetprioEvent ncpu → Prop
  | .setNewPrio c => ∀ cur p a prt, s.kernel.cpu c = some cur → s.pc cur = .gotPrt p a prt →
      (s.kernel.proc p).state = .runnable ∧ (s.kernel.proc p).prio.toNat = prt ∧
        ((s.kernel.priotable prt).primero = some p ∨ (s.kernel.priotable prt).ultimo ≠ some p)
  | .writePrio c => ∀ cur p a, s.kernel.cpu c = some cur → s.pc cur = .sawOther p a →
      (s.kernel.proc p).state ≠ .runnable ∨ (s.kernel.proc p).prio = a
  | _ => True

end SetprioSys

namespace SetprioPc

def arg : SetprioPc → Option (BitVec 32)
  | .outside => none
  | .gotProc _ a | .sawRunnable _ a | .sawOther _ a | .gotPrt _ a _ => some a

end SetprioPc

namespace SetprioSys

variable {ncpu : Nat}

structure Inv (s : SetprioSys ncpu) : Prop where
  wellFormed : s.kernel.WellFormed
  prioOk : s.kernel.PrioOk
  fault : s.fault ≠ some .nullDeref
  arg : ∀ p a, (s.pc p).arg = some a → a.toNat < NPRIO

theorem Inv.safe {s : SetprioSys ncpu} (h : s.Inv) : s.Safe := by
  rcases h.wellFormed.toQueuesOk.exists_queued with ⟨L, hL⟩
  constructor
  . intro p hp q
    rw [hL.onQueue_iff]
    simp [hp]
  . intro p hp q
    rw [hL.onQueue_iff]
    simp [hp]
  . exact h.fault

theorem Inv.setPc {s : SetprioSys ncpu} (h : s.Inv) (cur : ProcId) {pc : SetprioPc}
    (hpc : ∀ a, pc.arg = some a → a.toNat < NPRIO)
    : (s.setPc cur pc).Inv where
  wellFormed := h.wellFormed
  prioOk := h.prioOk
  fault := h.fault
  arg := by
    intro p a ha
    simp only [SetprioSys.setPc, Function.update_apply] at ha
    split at ha
    . exact hpc a ha
    . exact h.arg p a ha

theorem Inv.finish_ok {s : SetprioSys ncpu} (h : s.Inv) {k : Kernel ncpu} (hk : k.WellFormed)
    (hprio : k.PrioOk)
    : (s.finish (.ok k)).Inv where
  wellFormed := hk
  prioOk := hprio
  fault := h.fault
  arg := h.arg

theorem Step.inv {s t : SetprioSys ncpu} {e : SetprioEvent ncpu} (hstep : s.Step e t) (h : s.Inv)
    (harg : e.ArgOk) (hok : s.InTime e)
    : t.Inv := by
  cases hstep with
  | @op o r _ _ _ hop =>
    cases hop.ok h.wellFormed h.prioOk with
    | inl hr =>
      rcases hr with ⟨k, hr, hk, hprio⟩
      subst hr
      exact h.finish_ok hk hprio
    | inr hpanic =>
      rcases hpanic with ⟨_, _, _, _, hr⟩
      subst hr
      exact ⟨h.wellFormed, h.prioOk, by simp [finish], h.arg⟩
  | found =>
    apply h.setPc
    intro a ha
    cases ha
    exact harg
  | notFound => exact ⟨h.wellFormed, h.prioOk, h.fault, h.arg⟩
  | @readState c cur p a _ _ hpc =>
    apply h.setPc
    intro b hb
    apply h.arg cur
    rw [hpc, ← hb]
    split <;> rfl
  | @readPrt c cur p a prt _ _ hpc =>
    apply h.setPc
    intro b hb
    apply h.arg cur
    rw [hpc, ← hb]
    rfl
  | @readPrtOut c cur p a f _ _ _ hf =>
    rw [Kernel.priotableIdx_eq (q := ⟨_, h.prioOk p⟩) rfl] at hf
    contradiction
  | @setNewPrio c cur p a prt _ _ hc hpc =>
    have ha : a.toNat < NPRIO := by
      apply h.arg cur
      rw [hpc]
      rfl
    rcases hok cur p a prt hc.1 hpc with ⟨hp, hq, hend⟩
    rcases Kernel.setNewPrio_spec h.wellFormed h.prioOk hp hq ha hend with ⟨k, hk, hwf, hprio⟩
    rw [hk]
    apply Inv.finish_ok _ hwf hprio
    apply h.setPc
    intro b hb
    cases hb
  | @writePrio c cur p a _ hc hpc =>
    have ha : a.toNat < NPRIO := by
      apply h.arg cur
      rw [hpc]
      rfl
    apply Inv.finish_ok
    . apply h.setPc
      intro b hb
      cases hb
    . refine ⟨?_, ?_⟩
      . cases hok cur p a hc.1 hpc with
        | inl hp => exact h.wellFormed.toQueuesOk.modifyProc hp hp rfl
        | inr hp =>
          apply h.wellFormed.toQueuesOk.modifyProc_of_eq
          . rfl
          . exact hp.symm
          . rfl
      . apply h.wellFormed.toCpusOk.modifyProc
        rfl
    . apply h.prioOk.modifyProc
      exact ha

theorem safe_of_inTime {s t : SetprioSys ncpu} {es : List (SetprioEvent ncpu)} (hstart : s.Start)
    (h : s.kernel.WellFormed) (hprio : s.kernel.PrioOk)
    (hrun : EventRun (fun s e => e.ArgOk ∧ s.InTime e) s es t)
    : t.Safe := by
  have hinv : s.Inv := by
    refine ⟨h, hprio, ?_, ?_⟩
    . simp [hstart.fault]
    . simp [hstart.pc, SetprioPc.arg]
  apply Inv.safe
  apply hrun.invariant _ hinv
  intro u e v hu hok hstep
  exact hstep.inv hu hok.1 hok.2

def forkedTwice : SetprioSys 1 where
  kernel :=
    {
        proc := fun p =>
          match p.val with
          | 0 => { (default : Proc) with state := .running, pid := 1, prio := 5 }
          | 1 => ⟨.runnable, 2, some 0, .null, false, 0, 5, some 2⟩
          | 2 => ⟨.runnable, 3, some 0, .null, false, 0, 5, none⟩
          | _ => default
        priotable := fun q => if q = 5 then ⟨some 1, some 2⟩ else ⟨none, none⟩
        nextpid := 4
        initproc := some 0
        cpu := fun _ => some 0
    }
  pc := fun _ => .outside
  lockLeaked := false
  fault := none

theorem forkedTwice_start : forkedTwice.Start where
  pc := by intros; rfl
  lockLeaked := rfl
  fault := rfl

theorem forkedTwice_wellFormed : forkedTwice.kernel.WellFormed where
  queues := by
    intro q
    refine ⟨if q = 5 then [1, 2] else [], ?_, ?_⟩
    . by_cases hq : q = 5
      . subst hq
        exact ⟨by decide, by decide, by decide⟩
      . simp only [forkedTwice, hq, ↓reduceIte]
        apply IsQueue.empty
    . revert q
      decide
  running := by
    intro p hp
    refine ⟨0, ?_, ?_⟩
    . revert p
      decide
    . intro c _
      exact Subsingleton.elim c 0
  executes := by decide

theorem forkedTwice_prioOk : forkedTwice.kernel.PrioOk := by
  unfold Kernel.PrioOk
  decide

theorem setNewPrio_moves_one_forkedTwice
    : ∃ t, forkedTwice.kernel.setNewPrio 1 7 5 = .ok t ∧ (t.proc 1).prio = 7 ∧ t.QueuesOk := by
  rcases (Kernel.setNewPrio_moves_one forkedTwice.kernel forkedTwice_wellFormed.toQueuesOk 1 7 5 7
    rfl rfl rfl).mpr (.inl rfl) with ⟨_, _, t, _, ht, _, hqueued, hprio, _⟩
  exact ⟨t, ht, hprio, hqueued.queuesOk⟩

-- Process 2 is the last one of level 5. The level has no last process then, and the next one that is
-- appended to it takes the place of process 1.
theorem setNewPrio_last_loses_queue
    : forkedTwice.kernel.QueuesOk ∧ (forkedTwice.kernel.proc 2).state = .runnable ∧
      (forkedTwice.kernel.proc 2).prio = 5 ∧
      ∃ t u, forkedTwice.kernel.setNewPrio 2 7 5 = .ok t ∧ t.priotable 5 = ⟨some 1, none⟩ ∧
        ¬ t.QueuesOk ∧ t.insertProc 0 5 = .ok u ∧ u.priotable 5 = ⟨some 0, some 0⟩ ∧
        (u.proc 0).sigprio = none ∧ (u.proc 1).state = .runnable ∧ (u.proc 1).prio = 5 := by
  refine ⟨forkedTwice_wellFormed.toQueuesOk, rfl, rfl, _, _, rfl, rfl, ?_, rfl, rfl, rfl, rfl, rfl⟩
  intro h
  rcases h.queues 5 with ⟨l, hqueue, _⟩
  have hnil := hqueue.last_none_iff.mp rfl
  rw [hnil] at hqueue
  cases hqueue.chain

def setprioEvents (pid a : BitVec 32) : List (SetprioEvent 1) :=
  [.getProcbyPID 0 pid a, .readState 0, .readPrt 0, .setNewPrio 0]

theorem setprio_loses_process
    : ¬ ∀ (s t : SetprioSys 1) (es : List (SetprioEvent 1)), s.Start → s.kernel.WellFormed →
        s.kernel.PrioOk → EventRun (fun _ e => e.ArgOk) s es t → t.Safe := by
  intro hsafe
  have hrun : EventRun (fun _ e => e.ArgOk) forkedTwice (setprioEvents 3 5) _ :=
    .cons (show 5 < NPRIO by decide) 
      (.found (u := 0) (p := 2) rfl rfl (by decide) rfl (by decide)) <|
    .cons trivial (.readState (u := 0) (p := 2) (a := 5) rfl (by decide) rfl) <|
    .cons trivial (.readPrt (u := 0) (p := 2) (a := 5) (q := 5) rfl (by decide) rfl rfl) <|
    .cons trivial (.setNewPrio (u := 0) (p := 2) (a := 5) (q := 5) rfl rfl (by decide) rfl) (.nil _)
  have h := hsafe _ _ _ forkedTwice_start forkedTwice_wellFormed forkedTwice_prioOk hrun
  have honQueue := (h.onQueue 1 (by decide) 5).mpr (by decide)
  -- process 2 is the only one left on level 5
  have hmem := (Chain.reaches_iff (l := [2]) ⟨by decide, by decide⟩).mp honQueue
  simp at hmem

theorem safe_of_inTime_forkedTwice
    : ∃ t, EventRun (fun s e => e.ArgOk ∧ s.InTime e) forkedTwice (setprioEvents 2 7) t ∧
        (t.kernel.proc 1).prio = 7 ∧ t.Safe := by
  have hrun : EventRun (fun s e => e.ArgOk ∧ s.InTime e) forkedTwice (setprioEvents 2 7) _ :=
    .cons ⟨show 7 < NPRIO by decide, trivial⟩ 
      (.found (u := 0) (p := 1) rfl rfl (by decide) rfl (by decide)) <|
    .cons ⟨trivial, trivial⟩ (.readState (u := 0) (p := 1) (a := 7) rfl (by decide) rfl) <|
    .cons ⟨trivial, trivial⟩ (.readPrt (u := 0) (p := 1) (a := 7) (q := 5) rfl (by decide) rfl rfl) <|
    .cons ⟨trivial, by
      intro cur p a prt hcur hpc
      cases hcur
      cases hpc
      exact ⟨by decide, by decide, by decide⟩⟩
      (.setNewPrio (u := 0) (p := 1) (a := 7) (q := 5) rfl rfl (by decide) rfl) (.nil _)
  refine ⟨_, hrun, by decide, ?_⟩
  exact safe_of_inTime forkedTwice_start forkedTwice_wellFormed forkedTwice_prioOk hrun

end SetprioSys
end Xv6
