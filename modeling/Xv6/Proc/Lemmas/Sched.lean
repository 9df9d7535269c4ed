import Xv6.Data.Fold
import Xv6.Data.Transition
import Xv6.Proc.Impl.Sched
import Xv6.Proc.Lemmas.Queue

open Linked

namespace Xv6
namespace Kernel

variable {ncpu : Nat}

def PrioOk (s : Kernel ncpu) : Prop :=
  ∀ p, (s.proc p).prio.toNat < NPRIO

structure QueuesOk (s : Kernel ncpu) : Prop where
  queues : ∀ q : Fin NPRIO, ∃ l,
    IsQueue s.sigprio (s.priotable q).primero (s.priotable q).ultimo l ∧
      ∀ p, p ∈ l ↔ (s.proc p).state = .runnable ∧ (s.proc p).prio.toNat = q

structure CpusOk (s : Kernel ncpu) : Prop where
  running : ∀ p, (s.proc p).state = .running → ∃! c, s.cpu c = some p
  executes : ∀ c p, s.cpu c = some p → (s.proc p).state = .running

/--
The well-formed states: level `q` is a queue of exactly the runnable processes with priority `q`, and
the running processes are exactly those that a CPU executes, each on one CPU.
-/
structure WellFormed (s : Kernel ncpu) : Prop extends QueuesOk s, CpusOk s

structure Queued (s : Kernel ncpu) (L : Fin NPRIO → List ProcId) : Prop extends Represents s L where
  mem_iff : ∀ q p, p ∈ L q ↔ (s.proc p).state = .runnable ∧ (s.proc p).prio.toNat = q

theorem QueuesOk.exists_queued {s : Kernel ncpu} (h : s.QueuesOk) : ∃ L, s.Queued L := by
  choose L hL using h.queues
  refine ⟨L, ⟨fun q => (hL q).1, ?_⟩, fun q => (hL q).2⟩
  intro q r p hq hr
  have hq := ((hL q).2 p).mp hq
  have hr := ((hL r).2 p).mp hr
  apply Fin.ext
  omega

theorem Queued.queuesOk {s : Kernel ncpu} {L : Fin NPRIO → List ProcId} (h : s.Queued L)
    : s.QueuesOk :=
  ⟨fun q => ⟨L q, h.queue q, h.mem_iff q⟩⟩

theorem Queued.notMem {s : Kernel ncpu} {L : Fin NPRIO → List ProcId} (h : s.Queued L) {p : ProcId}
    (hp : (s.proc p).state ≠ .runnable)
    : ∀ q, p ∉ L q := by
  intro q hmem
  exact hp ((h.mem_iff q p).mp hmem).1

theorem Queued.of_eq {s t : Kernel ncpu} {L : Fin NPRIO → List ProcId} (h : s.Queued L)
    (hsig : t.sigprio = s.sigprio) (hprt : t.priotable = s.priotable)
    (hmem : ∀ p q, ((t.proc p).state = .runnable ∧ (t.proc p).prio.toNat = q) ↔
      ((s.proc p).state = .runnable ∧ (s.proc p).prio.toNat = q))
    : t.Queued L where
  toRepresents := h.toRepresents.of_eq hsig hprt
  mem_iff := by
    intro q p
    rw [h.mem_iff, hmem]

theorem Queued.modifyProc {s : Kernel ncpu} {L : Fin NPRIO → List ProcId} (hL : s.Queued L)
    {p : ProcId} {f : Proc → Proc} (hp : (s.proc p).state ≠ .runnable)
    (hf : (f (s.proc p)).state ≠ .runnable) (hsig : (f (s.proc p)).sigprio = (s.proc p).sigprio)
    : (s.modifyProc p f).Queued L := by
  apply hL.of_eq
  . exact modifyProc_sigprio_of_eq s p f hsig
  . rfl
  . intro r q
    rw [modifyProc_proc]
    split
    . next heq =>
      subst heq
      simp [hp, hf]
    . rfl

theorem QueuesOk.modifyProc {s : Kernel ncpu} (h : s.QueuesOk) {p : ProcId} {f : Proc → Proc}
    (hp : (s.proc p).state ≠ .runnable) (hf : (f (s.proc p)).state ≠ .runnable)
    (hsig : (f (s.proc p)).sigprio = (s.proc p).sigprio)
    : (s.modifyProc p f).QueuesOk := by
  rcases h.exists_queued with ⟨L, hL⟩
  exact (hL.modifyProc hp hf hsig).queuesOk

theorem QueuesOk.modifyProc_of_eq {s : Kernel ncpu} (h : s.QueuesOk) {p : ProcId} {f : Proc → Proc}
    (hstate : (f (s.proc p)).state = (s.proc p).state)
    (hprio : (f (s.proc p)).prio = (s.proc p).prio)
    (hsig : (f (s.proc p)).sigprio = (s.proc p).sigprio)
    : (s.modifyProc p f).QueuesOk := by
  rcases h.exists_queued with ⟨L, hL⟩
  apply Queued.queuesOk (L := L)
  apply hL.of_eq
  . exact modifyProc_sigprio_of_eq s p f hsig
  . rfl
  . intro r q
    rw [modifyProc_proc]
    split
    . next heq =>
      subst heq
      simp [hstate, hprio]
    . rfl

theorem QueuesOk.setCpu {s : Kernel ncpu} (h : s.QueuesOk) (c : Fin ncpu) (o : Option ProcId)
    : (s.setCpu c o).QueuesOk :=
  ⟨h.queues⟩

theorem PrioOk.modifyProc {s : Kernel ncpu} (h : s.PrioOk) {p : ProcId} {f : Proc → Proc}
    (hf : (f (s.proc p)).prio.toNat < NPRIO)
    : (s.modifyProc p f).PrioOk := by
  intro r
  rw [modifyProc_proc]
  split
  . exact hf
  . apply h

theorem PrioOk.setCpu {s : Kernel ncpu} (h : s.PrioOk) (c : Fin ncpu) (o : Option ProcId)
    : (s.setCpu c o).PrioOk :=
  h

theorem PrioOk.of_linksOnly {s t : Kernel ncpu} (h : s.PrioOk) (hlinks : LinksOnly s t)
    : t.PrioOk := by
  intro p
  rw [hlinks.prio_eq]
  apply h

theorem CpusOk.of_eq {s t : Kernel ncpu} (h : s.CpusOk) (hcpu : t.cpu = s.cpu)
    (hstate : ∀ p, (t.proc p).state = .running ↔ (s.proc p).state = .running)
    : t.CpusOk where
  running := by
    intro p hp
    rw [hcpu]
    exact h.running p ((hstate p).mp hp)
  executes := by
    intro c p hc
    rw [hcpu] at hc
    exact (hstate p).mpr (h.executes c p hc)

theorem CpusOk.modifyProc {s : Kernel ncpu} (h : s.CpusOk) {p : ProcId} {f : Proc → Proc}
    (hf : (f (s.proc p)).state = .running ↔ (s.proc p).state = .running)
    : (s.modifyProc p f).CpusOk := by
  apply h.of_eq
  . rfl
  . intro r
    rw [modifyProc_proc]
    split
    . next heq =>
      subst heq
      exact hf
    . rfl

theorem CpusOk.leave {s t : Kernel ncpu} (h : s.CpusOk) {c : Fin ncpu} {p : ProcId}
    (hc : s.Executes c p) (hcpu : t.cpu = Function.update s.cpu c none)
    (hp : (t.proc p).state ≠ .running)
    (hstate : ∀ r, r ≠ p → ((t.proc r).state = .running ↔ (s.proc r).state = .running))
    : t.CpusOk where
  running := by
    intro r hr
    have hrp : r ≠ p := by
      intro heq
      subst heq
      contradiction
    rcases h.running r ((hstate r hrp).mp hr) with ⟨c', hc', huniq⟩
    have hcc' : c' ≠ c := by
      intro heq
      subst heq
      rw [hc.1] at hc'
      exact hrp (Option.some.inj hc').symm
    refine ⟨c', by simp [hcpu, hcc', hc'], ?_⟩
    intro d hd
    apply huniq
    simp only [hcpu, Function.update_apply] at hd
    split at hd
    . contradiction
    . assumption
  executes := by
    intro d r hd
    simp only [hcpu, Function.update_apply] at hd
    split at hd
    . contradiction
    . next hdc =>
      have hr := h.executes d r hd
      have hrp : r ≠ p := by
        intro heq
        subst heq
        exact hdc ((h.running r hr).unique hd hc.1)
      exact (hstate r hrp).mpr hr

theorem CpusOk.enter {s t : Kernel ncpu} (h : s.CpusOk) {c : Fin ncpu} {p : ProcId}
    (hc : s.cpu c = none) (hp : (s.proc p).state ≠ .running)
    (hcpu : t.cpu = Function.update s.cpu c (some p)) (hp' : (t.proc p).state = .running)
    (hstate : ∀ r, r ≠ p → ((t.proc r).state = .running ↔ (s.proc r).state = .running))
    : t.CpusOk where
  running := by
    intro r hr
    by_cases hrp : r = p
    . subst hrp
      refine ⟨c, by simp [hcpu], ?_⟩
      intro d hd
      simp only [hcpu, Function.update_apply] at hd
      split at hd
      . assumption
      . exact absurd (h.executes d r hd) hp
    . rcases h.running r ((hstate r hrp).mp hr) with ⟨c', hc', huniq⟩
      have hcc' : c' ≠ c := by
        intro heq
        subst heq
        rw [hc] at hc'
        contradiction
      refine ⟨c', by simp [hcpu, hcc', hc'], ?_⟩
      intro d hd
      simp only [hcpu, Function.update_apply] at hd
      split at hd
      . exact absurd (Option.some.inj hd).symm hrp
      . exact huniq d hd
  executes := by
    intro d r hd
    simp only [hcpu, Function.update_apply] at hd
    split at hd
    . rw [← Option.some.inj hd]
      exact hp'
    . next hdc =>
      have hr := h.executes d r hd
      have hrp : r ≠ p := by
        intro heq
        subst heq
        contradiction
      exact (hstate r hrp).mpr hr

theorem Queued.makeRunnable {s : Kernel ncpu} {L : Fin NPRIO → List ProcId} (hL : s.Queued L)
    {p : ProcId} (hp : (s.proc p).state ≠ .runnable) {q : Fin NPRIO} (hq : (s.proc p).prio.toNat = q)
    : ∃ t, s.makeRunnable p = .ok t ∧ t.Queued (Function.update L q (L q ++ [p])) ∧
        LinksOnly (s.modifyProc p ({ · with state := .runnable })) t := by
  generalize hs₁ : s.modifyProc p ({ · with state := .runnable }) = s₁
  have hproc : s₁.proc p = { s.proc p with state := .runnable } := by
    rw [← hs₁]
    simp
  have hproc_ne : ∀ r, r ≠ p → s₁.proc r = s.proc r := by
    intro r hr
    rw [← hs₁]
    exact modifyProc_proc_ne s p r _ hr
  have hrep : s₁.Represents L := by
    apply hL.toRepresents.of_eq
    . rw [← hs₁]
      apply modifyProc_sigprio_of_eq
      rfl
    . rw [← hs₁]
      rfl
  have hlinks := insertProcAt_linksOnly s₁ p q
  refine ⟨s₁.insertProcAt p q, ?_, ?_, hlinks⟩
  . simp only [Kernel.makeRunnable, hs₁]
    apply insertProc_eq
    rw [hproc]
    exact hq
  . refine ⟨hrep.insertProcAt (hL.notMem hp) q, ?_⟩
    intro r x
    rw [hlinks.state_eq, hlinks.prio_eq]
    have hx := hL.mem_iff r x
    by_cases hxp : x = p
    . subst hxp
      rw [hproc]
      simp only [true_and]
      simp only [hp, false_and, iff_false] at hx
      by_cases hrq : r = q
      . subst hrq
        simp [hq]
      . simp only [ne_eq, hrq, not_false_eq_true, Function.update_of_ne, hx, false_iff]
        intro heq
        apply hrq
        apply Fin.ext
        exact heq.symm.trans hq
    . rw [hproc_ne x hxp]
      by_cases hrq : r = q
      . subst hrq
        simp [hx, hxp]
      . simpa [hrq] using hx

theorem makeRunnable_spec {s : Kernel ncpu} (h : s.QueuesOk) (hprio : s.PrioOk) {p : ProcId}
    (hp : (s.proc p).state ≠ .runnable)
    : ∃ t, s.makeRunnable p = .ok t ∧ t.QueuesOk ∧
        LinksOnly (s.modifyProc p ({ · with state := .runnable })) t := by
  rcases h.exists_queued with ⟨L, hL⟩
  rcases hL.makeRunnable hp (q := ⟨(s.proc p).prio.toNat, hprio p⟩) rfl with ⟨t, ht, hqueued, hlinks⟩
  exact ⟨t, ht, hqueued.queuesOk, hlinks⟩

structure SameRunning (s t : Kernel ncpu) : Prop where
  cpu : t.cpu = s.cpu
  initproc : t.initproc = s.initproc
  running : ∀ p, (t.proc p).state = .running ↔ (s.proc p).state = .running

namespace SameRunning

variable {s t u : Kernel ncpu}

theorem refl (s : Kernel ncpu) : SameRunning s s where
  cpu := rfl
  initproc := rfl
  running := by simp

theorem trans (h₁ : SameRunning s t) (h₂ : SameRunning t u) : SameRunning s u where
  cpu := by rw [h₂.cpu, h₁.cpu]
  initproc := by rw [h₂.initproc, h₁.initproc]
  running := by
    intro p
    rw [h₂.running, h₁.running]

theorem of_linksOnly (h : LinksOnly s t) : SameRunning s t where
  cpu := h.cpu
  initproc := h.initproc
  running := by
    intro p
    rw [h.state_eq]

theorem modifyProc (s : Kernel ncpu) (p : ProcId) (f : Proc → Proc)
    (hf : (f (s.proc p)).state = .running ↔ (s.proc p).state = .running)
    : SameRunning s (s.modifyProc p f) where
  cpu := rfl
  initproc := rfl
  running := by
    intro r
    rw [modifyProc_proc]
    split
    . next heq =>
      subst heq
      exact hf
    . rfl

theorem cpusOk (h : SameRunning s t) (hs : s.CpusOk) : t.CpusOk :=
  hs.of_eq h.cpu h.running

end SameRunning

/--
What all parts of an operation keep, those in the middle of it included.
-/
structure KeepsQueues (s t : Kernel ncpu) : Prop extends SameRunning s t where
  queuesOk : t.QueuesOk
  prioOk : t.PrioOk

namespace KeepsQueues

variable {s t u : Kernel ncpu}

theorem refl (h : s.QueuesOk) (hprio : s.PrioOk) : KeepsQueues s s where
  toSameRunning := .refl s
  queuesOk := h
  prioOk := hprio

theorem trans (h₁ : KeepsQueues s t) (h₂ : KeepsQueues t u) : KeepsQueues s u where
  toSameRunning := h₁.toSameRunning.trans h₂.toSameRunning
  queuesOk := h₂.queuesOk
  prioOk := h₂.prioOk

theorem modifyProc (h : s.QueuesOk) (hprio : s.PrioOk) {p : ProcId} {f : Proc → Proc}
    (hstate : (f (s.proc p)).state = (s.proc p).state)
    (hf : (f (s.proc p)).prio = (s.proc p).prio)
    (hsig : (f (s.proc p)).sigprio = (s.proc p).sigprio)
    : KeepsQueues s (s.modifyProc p f) where
  toSameRunning := by
    apply SameRunning.modifyProc
    rw [hstate]
  queuesOk := h.modifyProc_of_eq hstate hf hsig
  prioOk := by
    apply hprio.modifyProc
    rw [hf]
    apply hprio

end KeepsQueues

theorem makeRunnable_keepsQueues {s : Kernel ncpu} (h : s.QueuesOk) (hprio : s.PrioOk) {p : ProcId}
    (hp : (s.proc p).state ≠ .runnable) (hp' : (s.proc p).state ≠ .running)
    : ∃ t, s.makeRunnable p = .ok t ∧ KeepsQueues s t := by
  rcases makeRunnable_spec h hprio hp with ⟨t, ht, hqueues, hlinks⟩
  refine ⟨t, ht, ?_, hqueues, ?_⟩
  . apply SameRunning.trans _ (.of_linksOnly hlinks)
    apply SameRunning.modifyProc
    simp [hp']
  . apply PrioOk.of_linksOnly _ hlinks
    apply hprio.modifyProc
    apply hprio

theorem wakeup1_keepsQueues {s : Kernel ncpu} (h : s.QueuesOk) (hprio : s.PrioOk) (chan : Chan)
    : ∃ t, s.wakeup1 chan = .ok t ∧ KeepsQueues s t := by
  unfold wakeup1
  apply Fold.foldlM_ok
  . intro t p ht
    unfold wakeup1Step
    split
    . next hp =>
      rcases makeRunnable_keepsQueues (p := p) ht.queuesOk ht.prioOk
        (by simp [hp.1]) (by simp [hp.1]) with ⟨u, hu, htu⟩
      exact ⟨u, hu, ht.trans htu⟩
    . exact ⟨t, rfl, ht⟩
  . exact .refl h hprio

theorem kill_keepsQueues {s : Kernel ncpu} (h : s.QueuesOk) (hprio : s.PrioOk) (pid : BitVec 32)
    : ∃ r t, s.kill pid = .ok (r, t) ∧ KeepsQueues s t := by
  unfold kill
  split
  . exact ⟨-1, s, rfl, .refl h hprio⟩
  . next p _ =>
    have hkilled : KeepsQueues s (s.modifyProc p ({ · with killed := true })) := by
      apply KeepsQueues.modifyProc h hprio <;> rfl
    dsimp
    split
    . next hp =>
      rcases makeRunnable_keepsQueues (p := p) hkilled.queuesOk hkilled.prioOk
        (by rw [hp]; simp) (by rw [hp]; simp) with ⟨t, ht, hst⟩
      refine ⟨0, t, ?_, hkilled.trans hst⟩
      rw [ht]
      rfl
    . exact ⟨0, _, rfl, hkilled⟩

theorem exitChildStep_keepsQueues {s : Kernel ncpu} (h : s.QueuesOk) (hprio : s.PrioOk)
    (curproc p : ProcId)
    : ∃ t, exitChildStep curproc s p = .ok t ∧ KeepsQueues s t := by
  unfold exitChildStep
  split
  . have hparent : KeepsQueues s (s.modifyProc p ({ · with parent := s.initproc })) := by
      apply KeepsQueues.modifyProc h hprio <;> rfl
    dsimp
    split
    . rcases wakeup1_keepsQueues hparent.queuesOk hparent.prioOk (Chan.ofProc s.initproc)
        with ⟨t, ht, hst⟩
      exact ⟨t, ht, hparent.trans hst⟩
    . exact ⟨_, rfl, hparent⟩
  . exact ⟨s, rfl, .refl h hprio⟩

theorem modifyProc_ok {s : Kernel ncpu} (h : s.WellFormed) (hprio : s.PrioOk) {p : ProcId}
    {f : Proc → Proc} (hp : (s.proc p).state ≠ .runnable) (hf : (f (s.proc p)).state ≠ .runnable)
    (hsig : (f (s.proc p)).sigprio = (s.proc p).sigprio)
    (hrun : (f (s.proc p)).state = .running ↔ (s.proc p).state = .running)
    (hfprio : (f (s.proc p)).prio.toNat < NPRIO)
    : (s.modifyProc p f).WellFormed ∧ (s.modifyProc p f).PrioOk := by
  refine ⟨⟨h.toQueuesOk.modifyProc hp hf hsig, h.toCpusOk.modifyProc hrun⟩, ?_⟩
  exact hprio.modifyProc hfprio

theorem allocproc_ok {s : Kernel ncpu} (h : s.WellFormed) (hprio : s.PrioOk)
    : s.allocproc.2.WellFormed ∧ s.allocproc.2.PrioOk := by
  unfold allocproc
  split
  . exact ⟨h, hprio⟩
  . next p hfind =>
    have hp : (s.proc p).state = .unused := by simpa using List.find?_some hfind
    have := modifyProc_ok h hprio (p := p)
      (f := ({ · with state := .embryo, pid := s.nextpid, prio := 5 }))
      (by simp [hp]) (by simp) rfl (by simp [hp]) (by dsimp; decide)
    exact ⟨⟨⟨this.1.queues⟩, ⟨this.1.running, this.1.executes⟩⟩, this.2⟩

theorem yield_ok {s : Kernel ncpu} (h : s.WellFormed) (hprio : s.PrioOk) {c : Fin ncpu} {p : ProcId}
    (hc : s.Executes c p)
    : ∃ t, s.yield c p = .ok t ∧ t.WellFormed ∧ t.PrioOk := by
  rcases makeRunnable_spec (p := p) h.toQueuesOk hprio (by simp [hc.2]) with ⟨t, ht, hqueues, hlinks⟩
  refine ⟨t.setCpu c none, ?_, ⟨hqueues.setCpu c none, ?_⟩, ?_⟩
  . unfold yield
    rw [ht]
    rfl
  . apply h.toCpusOk.leave hc
    . rw [setCpu_cpu, hlinks.cpu]
      rfl
    . rw [setCpu_proc, hlinks.state_eq]
      simp
    . intro r hr
      rw [setCpu_proc, hlinks.state_eq]
      rw [modifyProc_proc_ne _ _ _ _ hr]
  . apply PrioOk.setCpu
    apply PrioOk.of_linksOnly _ hlinks
    apply hprio.modifyProc
    apply hprio

theorem sleep_ok {s : Kernel ncpu} (h : s.WellFormed) (hprio : s.PrioOk) {c : Fin ncpu} {p : ProcId}
    (hc : s.Executes c p) (chan : Chan)
    : (s.sleep c p chan).WellFormed ∧ (s.sleep c p chan).PrioOk := by
  unfold sleep
  refine ⟨⟨?_, ?_⟩, ?_⟩
  . apply QueuesOk.setCpu
    apply h.toQueuesOk.modifyProc
    . simp [hc.2]
    . simp
    . rfl
  . apply h.toCpusOk.leave hc
    . rfl
    . simp
    . intro r hr
      rw [setCpu_proc, modifyProc_proc_ne _ _ _ _ hr]
  . apply PrioOk.setCpu
    apply hprio.modifyProc
    apply hprio

theorem exit_ok {s : Kernel ncpu} (h : s.WellFormed) (hprio : s.PrioOk) {c : Fin ncpu} {p : ProcId}
    (hc : s.Executes c p) (status : BitVec 32) (hinit : s.initproc ≠ some p)
    : ∃ t, s.exit c p status = .ok t ∧ t.WellFormed ∧ t.PrioOk := by
  have hstatus : KeepsQueues s (s.modifyProc p ({ · with status := status })) := by
    apply KeepsQueues.modifyProc h.toQueuesOk hprio <;> rfl
  unfold exit
  generalize s.modifyProc p ({ · with status := status }) = s₁ at hstatus
  have hinit₁ : s₁.initproc ≠ some p := by
    rw [hstatus.initproc]
    exact hinit
  rcases wakeup1_keepsQueues hstatus.queuesOk hstatus.prioOk (Chan.ofProc (s₁.proc p).parent)
    with ⟨s₂, hs₂, h₁₂⟩
  have h₂ := hstatus.trans h₁₂
  rcases Fold.foldlM_ok (f := exitChildStep p) (P := KeepsQueues s) (by
      intro t r ht
      rcases exitChildStep_keepsQueues ht.queuesOk ht.prioOk p r with ⟨u, hu, htu⟩
      exact ⟨u, hu, ht.trans htu⟩) (List.finRange NPROC) s₂ h₂ with ⟨s₃, hs₃, h₃⟩
  have hp : (s₃.proc p).state = .running := (h₃.running p).mpr hc.2
  refine ⟨(s₃.modifyProc p ({ · with state := .zombie })).setCpu c none, ?_, ⟨?_, ?_⟩, ?_⟩
  . simp only [hinit₁, ↓reduceIte]
    rw [hs₂]
    change (do let s ← (List.finRange NPROC).foldlM (exitChildStep p) s₂; _) = _
    rw [hs₃]
    rfl
  . apply QueuesOk.setCpu
    apply h₃.queuesOk.modifyProc
    . simp [hp]
    . simp
    . rfl
  . apply h.toCpusOk.leave hc
    . rw [setCpu_cpu, modifyProc_cpu, h₃.cpu]
    . simp
    . intro r hr
      rw [setCpu_proc, modifyProc_proc_ne _ _ _ _ hr]
      exact h₃.running r
  . apply PrioOk.setCpu
    apply h₃.prioOk.modifyProc
    apply h₃.prioOk

theorem wait_ok {s : Kernel ncpu} (h : s.WellFormed) (hprio : s.PrioOk) {c : Fin ncpu} {p : ProcId}
    (hc : s.Executes c p)
    : (s.wait c p).2.WellFormed ∧ (s.wait c p).2.PrioOk := by
  unfold wait
  dsimp
  split
  . next r hfind =>
    have hr : (s.proc r).state = .zombie := by
      have := List.find?_some hfind
      simp only [decide_eq_true_eq] at this
      exact this.2
    dsimp
    apply modifyProc_ok h hprio
    . simp [hr]
    . simp
    . rfl
    . simp [hr]
    . apply hprio
  . split
    . exact ⟨h, hprio⟩
    . exact sleep_ok h hprio hc _

theorem choose_eq_some {s : Kernel ncpu} {p : ProcId} (h : s.choose = some p)
    : ∃ q, (s.priotable q).primero = some p ∧ (s.proc p).state = .runnable := by
  unfold choose at h
  rcases List.exists_of_findSome?_eq_some h with ⟨q, _, hq⟩
  split at hq
  . contradiction
  . next r hfirst =>
    split at hq
    . contradiction
    . next hr =>
      simp only [Option.some.injEq] at hq
      subst hq
      exact ⟨q, hfirst, by simpa using hr⟩

theorem Queued.of_primero {s : Kernel ncpu} {L : Fin NPRIO → List ProcId} (h : s.Queued L)
    {q : Fin NPRIO} {p : ProcId} (hfirst : (s.priotable q).primero = some p)
    : ∃ l, L q = p :: l ∧ (s.proc p).state = .runnable ∧ (s.proc p).prio.toNat = q := by
  have hhead := (h.queue q).chain.head_eq
  rw [hfirst] at hhead
  rcases List.head?_eq_some_iff.mp hhead.symm with ⟨l, hl⟩
  refine ⟨l, hl, ?_⟩
  rw [← h.mem_iff, hl]
  simp

theorem Queued.scheduler {s : Kernel ncpu} {L : Fin NPRIO → List ProcId} (hL : s.Queued L)
    (c : Fin ncpu) {p : ProcId} (hchoose : s.choose = some p) {q : Fin NPRIO} {l : List ProcId}
    (hl : L q = p :: l) (hpq : (s.proc p).prio.toNat = q)
    : ∃ t, s.scheduler c = .ok t ∧ t.Queued (Function.update L q l) ∧
        LinksOnly ((s.setCpu c (some p)).modifyProc p ({ · with state := .running })) t := by
  generalize hs₁ : (s.setCpu c (some p)).modifyProc p ({ · with state := .running }) = s₁
  have hproc : s₁.proc p = { s.proc p with state := .running } := by
    rw [← hs₁]
    simp
  have hproc_ne : ∀ r, r ≠ p → s₁.proc r = s.proc r := by
    intro r hr
    rw [← hs₁]
    exact modifyProc_proc_ne _ p r _ hr
  have hrep : s₁.Represents L := by
    apply hL.toRepresents.of_eq
    . rw [← hs₁]
      apply modifyProc_sigprio_of_eq
      rfl
    . rw [← hs₁]
      rfl
  have hlinks := quitarProcAt_linksOnly s₁ p q
  refine ⟨(s₁.quitarProcAt p q).2, ?_, ?_, hlinks⟩
  . unfold Kernel.scheduler
    rw [hchoose]
    dsimp
    rw [hs₁, quitarProc_eq (q := q)]
    . rfl
    . rw [hproc]
      exact hpq
  . refine ⟨hrep.quitarProcAt hl, ?_⟩
    intro r x
    rw [hlinks.state_eq, hlinks.prio_eq]
    have hx := hL.mem_iff r x
    have hnodup := List.nodup_cons.mp (hl ▸ (hL.queue q).nodup)
    by_cases hxp : x = p
    . subst hxp
      rw [hproc]
      simp only [reduceCtorEq, false_and, iff_false]
      by_cases hrq : r = q
      . subst hrq
        simpa using hnodup.1
      . simp only [ne_eq, hrq, not_false_eq_true, Function.update_of_ne]
        intro hmem
        exact hrq (hL.disjoint r q x hmem (by simp [hl]))
    . rw [hproc_ne x hxp]
      by_cases hrq : r = q
      . subst hrq
        simpa [hl, hxp] using hx
      . simpa [hrq] using hx

theorem scheduler_ok {s : Kernel ncpu} (h : s.WellFormed) (hprio : s.PrioOk) {c : Fin ncpu}
    (hc : s.cpu c = none)
    : ∃ t, s.scheduler c = .ok t ∧ t.WellFormed ∧ t.PrioOk := by
  cases hchoose : s.choose with
  | none =>
    unfold scheduler
    rw [hchoose]
    exact ⟨s, rfl, h, hprio⟩
  | some p =>
    rcases h.toQueuesOk.exists_queued with ⟨L, hL⟩
    rcases choose_eq_some hchoose with ⟨q, hfirst, hp⟩
    rcases hL.of_primero hfirst with ⟨l, hl, _, hpq⟩
    rcases hL.scheduler c hchoose hl hpq with ⟨t, ht, hqueued, hlinks⟩
    refine ⟨t, ht, ⟨hqueued.queuesOk, ?_⟩, ?_⟩
    . apply h.toCpusOk.enter hc (p := p)
      . simp [hp]
      . rw [hlinks.cpu]
        rfl
      . rw [hlinks.state_eq]
        simp
      . intro r hr
        rw [hlinks.state_eq, modifyProc_proc_ne _ _ _ _ hr]
        rfl
    . apply PrioOk.of_linksOnly _ hlinks
      apply PrioOk.modifyProc
      . exact hprio
      . exact hprio p

theorem Step.ok {s : Kernel ncpu} {op : Op ncpu} {r : Except Fault (Kernel ncpu)} (hstep : s.Step op r)
    (h : s.WellFormed) (hprio : s.PrioOk)
    : (∃ t, r = .ok t ∧ t.WellFormed ∧ t.PrioOk) ∨
        (∃ c status, op = .exit c status ∧ s.cpu c = s.initproc ∧
          r = .error (.panic "init exiting")) := by
  cases hstep with
  | allocproc => exact .inl ⟨_, rfl, allocproc_ok h hprio⟩
  | @allocFail np hnp =>
    refine .inl ⟨_, rfl, ?_⟩
    apply modifyProc_ok h hprio
    . simp [hnp]
    . simp
    . rfl
    . simp [hnp]
    . apply hprio
  | @userinitSetup p hp =>
    have := modifyProc_ok h hprio (p := p) (f := ({ · with prio := 5 }))
      (by simp [hp]) (by simp [hp]) rfl (by simp) (by dsimp; decide)
    exact .inl ⟨_, rfl, ⟨⟨this.1.queues⟩, ⟨this.1.running, this.1.executes⟩⟩, this.2⟩
  | @forkCopy c np p hc hnp =>
    refine .inl ⟨_, rfl, ?_⟩
    apply modifyProc_ok h hprio
    . simp [hnp]
    . simp [hnp]
    . rfl
    . simp [hnp]
    . apply hprio
  | @enqueueNew np hnp =>
    rcases makeRunnable_keepsQueues h.toQueuesOk hprio (p := np) (by simp [hnp]) (by simp [hnp])
      with ⟨t, ht, hst⟩
    exact .inl ⟨t, ht, ⟨hst.queuesOk, hst.cpusOk h.toCpusOk⟩, hst.prioOk⟩
  | yield hc => exact .inl (yield_ok h hprio hc)
  | sleep hc => exact .inl ⟨_, rfl, sleep_ok h hprio hc _⟩
  | @sleepResume c p hc =>
    refine .inl ⟨_, rfl, ?_⟩
    apply modifyProc_ok h hprio
    . simp [hc.2]
    . simp [hc.2]
    . rfl
    . simp
    . apply hprio
  | @wakeup chan =>
    rcases wakeup1_keepsQueues h.toQueuesOk hprio chan with ⟨t, ht, hst⟩
    exact .inl ⟨t, ht, ⟨hst.queuesOk, hst.cpusOk h.toCpusOk⟩, hst.prioOk⟩
  | @kill pid =>
    rcases kill_keepsQueues h.toQueuesOk hprio pid with ⟨r, t, ht, hst⟩
    refine .inl ⟨t, ?_, ⟨hst.queuesOk, hst.cpusOk h.toCpusOk⟩, hst.prioOk⟩
    rw [ht]
    rfl
  | @exit c p status hc =>
    by_cases hinit : s.initproc = some p
    . refine .inr ⟨c, status, rfl, ?_, ?_⟩
      . rw [hc.1, hinit]
      . unfold Kernel.exit
        simp [hinit]
        rfl
    . exact .inl (exit_ok h hprio hc status hinit)
  | wait hc => exact .inl ⟨_, rfl, wait_ok h hprio hc⟩
  | schedule hc => exact .inl (scheduler_ok h hprio hc)

abbrev OpRun (s : Kernel ncpu) (ops : List (Op ncpu)) (t : Kernel ncpu) : Prop :=
  Transition.Run (fun s op t => Step s op (.ok t)) (fun _ _ => True) s ops t

theorem OpRun.ok {s t : Kernel ncpu} {ops : List (Op ncpu)} (hrun : OpRun s ops t)
    (h : s.WellFormed) (hprio : s.PrioOk)
    : t.WellFormed ∧ t.PrioOk := by
  apply hrun.invariant (P := fun s => s.WellFormed ∧ s.PrioOk)
  . intro u op v hu _ hstep
    cases hstep.ok hu.1 hu.2 with
    | inl hv =>
      rcases hv with ⟨w, hw, hok⟩
      cases hw
      exact hok
    | inr hpanic =>
      rcases hpanic with ⟨_, _, _, _, hpanic⟩
      contradiction
  . exact ⟨h, hprio⟩

theorem boot_wellFormed : (boot : Kernel ncpu).WellFormed where
  queues := by
    intro q
    refine ⟨[], .empty _, ?_⟩
    simp [boot, default]
  running := by simp [boot, default]
  executes := by simp [boot]

theorem boot_prioOk : (boot : Kernel ncpu).PrioOk := by
  intro p
  simp [boot, default]

theorem wellFormed_of_opRun {s t : Kernel ncpu} {ops : List (Op ncpu)} (h : s.WellFormed)
    (hprio : s.PrioOk) (hrun : OpRun s ops t)
    : t.WellFormed ∧ t.PrioOk ∧
        ∀ op r, t.Step op r →
          (∃ u, r = .ok u ∧ u.WellFormed ∧ u.PrioOk) ∨
            (∃ c status, op = .exit c status ∧ t.cpu c = t.initproc ∧
              r = .error (.panic "init exiting")) := by
  have ht := hrun.ok h hprio
  refine ⟨ht.1, ht.2, ?_⟩
  intro op r hstep
  exact hstep.ok ht.1 ht.2

theorem wellFormed_of_boot
    : ∃ t : Kernel 2,
        OpRun boot [.allocproc, .userinitSetup 0, .enqueueNew 0, .schedule 1, .yield 1] t ∧
          (t.proc 0).state = .runnable ∧ t.WellFormed := by
  have hrun : OpRun (boot : Kernel 2)
      [.allocproc, .userinitSetup 0, .enqueueNew 0, .schedule 1, .yield 1] _ :=
    .cons trivial .allocproc <|
    .cons trivial (.userinitSetup (by decide)) <|
    .cons trivial (.enqueueNew (by decide)) <|
    .cons trivial (.schedule (by decide)) <|
    .cons trivial (.yield (p := 0) (by decide)) (.nil _)
  exact ⟨_, hrun, by decide, (wellFormed_of_opRun boot_wellFormed boot_prioOk hrun).1⟩

end Kernel
end Xv6
