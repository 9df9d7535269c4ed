import Xv6.Proc.Impl.Fifo
import Xv6.Proc.Lemmas.Sched

/-!
The scheduler is a strict priority scheduler, and each level is a FIFO queue. The queues are kept in
the order of the stamps, whatever mix of operations fills and empties them.
-/

namespace Xv6
namespace Kernel

variable {ncpu : Nat} {s t u : Kernel ncpu} {L : Fin NPRIO → List ProcId} {p : ProcId}

def atLevel (s : Kernel ncpu) (l : List ProcId) (q : Fin NPRIO) : List ProcId :=
  l.filter (fun p => (s.proc p).prio.toNat = q)

structure Filled (s : Kernel ncpu) (L : Fin NPRIO → List ProcId) : Prop extends Queued s L where
  level : ∀ p, (s.proc p).state = .runnable → ∃ q, p ∈ L q

theorem Filled.modifyProc {f : Proc → Proc} (h : s.Filled L) (hp : (s.proc p).state ≠ .runnable)
    (hf : (f (s.proc p)).state ≠ .runnable) (hsig : (f (s.proc p)).sigprio = (s.proc p).sigprio)
    : (s.modifyProc p f).Filled L := by
  refine ⟨h.toQueued.modifyProc hp hf hsig, ?_⟩
  intro r hr
  by_cases hrp : r = p
  . rw [hrp, modifyProc_proc_self] at hr
    exact absurd hr hf
  . rw [modifyProc_proc_ne _ _ _ _ hrp] at hr
    exact h.level r hr

theorem Filled.of_proc (h : s.Filled L) (hproc : t.proc = s.proc) (hprt : t.priotable = s.priotable)
    : t.Filled L := by
  have hsig : t.sigprio = s.sigprio := by
    unfold sigprio
    rw [hproc]
  refine ⟨h.toQueued.of_eq hsig hprt ?_, ?_⟩
  . intro p q
    rw [hproc]
  . rw [hproc]
    exact h.level

theorem Filled.setCpu (h : s.Filled L) (c : Fin ncpu) (o : Option ProcId) : (s.setCpu c o).Filled L :=
  h.of_proc rfl rfl

theorem Filled.sleep (h : s.Filled L) (hp : (s.proc p).state = .running) (c : Fin ncpu) (chan : Chan)
    : (s.sleep c p chan).Filled L := by
  apply Filled.setCpu
  apply h.modifyProc
  . rw [hp]
    nofun
  . nofun
  . rfl

/--
The processes of `l` have become runnable, one after the other, and are at the end of their queues.
-/
structure Enqueues (s : Kernel ncpu) (l : List ProcId) (t : Kernel ncpu) : Prop where
  state : ∀ p, (t.proc p).state = if p ∈ l then .runnable else (s.proc p).state
  prio : ∀ p, (t.proc p).prio = (s.proc p).prio
  chan : ∀ p, (t.proc p).chan = (s.proc p).chan
  fresh : ∀ p ∈ l, (s.proc p).state ≠ .runnable
  nodup : l.Nodup
  filled : ∀ L, s.Filled L → t.Filled (fun q => L q ++ s.atLevel l q)

namespace Enqueues

theorem of_eq (hsig : t.sigprio = s.sigprio) (hprt : t.priotable = s.priotable)
    (hstate : ∀ p, (t.proc p).state = (s.proc p).state)
    (hprio : ∀ p, (t.proc p).prio = (s.proc p).prio)
    (hchan : ∀ p, (t.proc p).chan = (s.proc p).chan)
    : Enqueues s [] t where
  state := by simpa using hstate
  prio := hprio
  chan := hchan
  fresh := by simp
  nodup := List.nodup_nil
  filled := by
    intro L hL
    simp only [atLevel, List.filter_nil, List.append_nil]
    refine ⟨hL.toQueued.of_eq hsig hprt ?_, ?_⟩
    . intro p q
      rw [hstate, hprio]
    . intro p hp
      rw [hstate] at hp
      exact hL.level p hp

theorem state_of_ne {l : List ProcId} (h : Enqueues s l t) (hp : (t.proc p).state ≠ .runnable)
    : (t.proc p).state = (s.proc p).state := by
  rw [h.state] at hp ⊢
  by_cases hmem : p ∈ l
  . rw [if_pos hmem] at hp
    exact absurd rfl hp
  . rw [if_neg hmem]

theorem refl (s : Kernel ncpu) : Enqueues s [] s :=
  of_eq rfl rfl (fun _ => rfl) (fun _ => rfl) (fun _ => rfl)

theorem modifyProc (s : Kernel ncpu) (p : ProcId) {f : Proc → Proc}
    (hsig : (f (s.proc p)).sigprio = (s.proc p).sigprio)
    (hstate : (f (s.proc p)).state = (s.proc p).state)
    (hprio : (f (s.proc p)).prio = (s.proc p).prio)
    (hchan : (f (s.proc p)).chan = (s.proc p).chan)
    : Enqueues s [] (s.modifyProc p f) := by
  have hproc : ∀ {α : Type} (g : Proc → α), g (f (s.proc p)) = g (s.proc p) →
      ∀ r, g ((s.modifyProc p f).proc r) = g (s.proc r) := by
    intro α g hg r
    rw [modifyProc_proc]
    split
    next h => rw [h, hg]
    . rfl
  apply of_eq
  . exact modifyProc_sigprio_of_eq s p f hsig
  . rfl
  . exact hproc Proc.state hstate
  . exact hproc Proc.prio hprio
  . exact hproc Proc.chan hchan

theorem trans {l k : List ProcId} (h : Enqueues s l t) (h' : Enqueues t k u)
    : Enqueues s (l ++ k) u where
  state := by
    intro p
    rw [h'.state, h.state]
    by_cases hk : p ∈ k
    . simp [hk]
    . simp [hk]
  prio := by
    intro p
    rw [h'.prio, h.prio]
  chan := by
    intro p
    rw [h'.chan, h.chan]
  fresh := by
    intro p hp
    rcases List.mem_append.1 hp with hp | hp
    . exact h.fresh p hp
    . have hfresh := h'.fresh p hp
      rw [h.state] at hfresh
      split at hfresh
      . exact absurd rfl hfresh
      . exact hfresh
  nodup := by
    rw [List.nodup_append']
    refine ⟨h.nodup, h'.nodup, ?_⟩
    intro p hp hp'
    apply h'.fresh p hp'
    rw [h.state, if_pos hp]
  filled := by
    intro L hL
    have hu := h'.filled _ (h.filled L hL)
    have hlevel : ∀ q, t.atLevel k q = s.atLevel k q := by
      intro q
      unfold atLevel
      simp only [h.prio]
    simp only [hlevel, List.append_assoc] at hu
    simp only [atLevel, List.filter_append] at hu ⊢
    exact hu

theorem makeRunnable (h : s.makeRunnable p = .ok t) (hp : (s.proc p).state ≠ .runnable)
    : Enqueues s [p] t := by
  have hprio : ∃ q : Fin NPRIO, (s.proc p).prio.toNat = q := by
    unfold Kernel.makeRunnable insertProc priotableIdx at h
    simp only [modifyProc_proc_self] at h
    split at h
    next hlt => exact ⟨⟨_, hlt⟩, rfl⟩
    . contradiction
  rcases hprio with ⟨q, hq⟩
  have hlinks : LinksOnly (s.modifyProc p ({ · with state := .runnable })) t := by
    unfold Kernel.makeRunnable at h
    dsimp only at h
    rw [insertProc_eq (q := q)] at h
    . cases h
      exact insertProcAt_linksOnly _ p q
    . simpa using hq
  have hproc : ∀ r, r ≠ p → t.proc r = { s.proc r with sigprio := (t.proc r).sigprio } := by
    intro r hr
    rw [hlinks.proc r, modifyProc_proc_ne _ _ _ _ hr]
  have hself : t.proc p = { s.proc p with state := .runnable, sigprio := (t.proc p).sigprio } := by
    rw [hlinks.proc p, modifyProc_proc_self]
  refine ⟨?_, ?_, ?_, ?_, List.nodup_singleton p, ?_⟩
  . intro r
    by_cases hr : r = p
    . rw [hr, hself]
      simp
    . rw [hproc r hr]
      simp [hr]
  . intro r
    by_cases hr : r = p
    . rw [hr, hself]
    . rw [hproc r hr]
  . intro r
    by_cases hr : r = p
    . rw [hr, hself]
    . rw [hproc r hr]
  . intro r hr
    rw [List.mem_singleton] at hr
    rw [hr]
    exact hp
  . intro L hL
    rcases hL.makeRunnable hp hq with ⟨t', ht', hqueued, _⟩
    rw [h] at ht'
    cases ht'
    have hL' : (fun r => L r ++ s.atLevel [p] r) = Function.update L q (L q ++ [p]) := by
      funext r
      unfold atLevel
      by_cases hr : r = q
      . rw [hr, Function.update_self]
        simp [hq]
      . rw [Function.update_of_ne hr]
        have hne : ¬ (s.proc p).prio.toNat = r := by
          rw [hq]
          exact fun heq => hr (Fin.ext heq.symm)
        simp [hne]
    rw [hL']
    refine ⟨hqueued, ?_⟩
    intro r hr
    by_cases hrp : r = p
    . refine ⟨q, ?_⟩
      rw [hrp, Function.update_self]
      simp
    . rw [hproc r hrp] at hr
      rcases hL.level r hr with ⟨x, hx⟩
      refine ⟨x, ?_⟩
      by_cases hxq : x = q
      . rw [hxq] at hx ⊢
        rw [Function.update_self]
        exact List.mem_append_left _ hx
      . rw [Function.update_of_ne hxq]
        exact hx

theorem wakeup1Loop {chan : Chan} {ps : List ProcId} (hps : ps.Nodup)
    (h : ps.foldlM (wakeup1Step chan) s = .ok t)
    : Enqueues s (ps.filter (fun p => (s.proc p).state = .sleeping ∧ (s.proc p).chan = chan)) t := by
  induction ps generalizing s with
  | nil =>
    cases h
    exact refl _
  | cons p ps ih =>
    rw [List.nodup_cons] at hps
    rw [List.foldlM_cons] at h
    rcases Fold.bind_eq_ok h with ⟨u, hstep, h⟩
    unfold wakeup1Step at hstep
    split at hstep
    next hp =>
      have hu := makeRunnable hstep (by rw [hp.1]; nofun)
      rw [List.filter_cons_of_pos (by simpa using hp)]
      have hrest := ih hps.2 h
      -- the others sleep as before
      have hsame : ps.filter (fun p => (u.proc p).state = .sleeping ∧ (u.proc p).chan = chan) =
          ps.filter (fun p => (s.proc p).state = .sleeping ∧ (s.proc p).chan = chan) := by
        apply List.filter_congr
        intro r hr
        have hne : r ≠ p := by
          intro heq
          rw [heq] at hr
          exact hps.1 hr
        rw [hu.state, hu.chan, if_neg (by simpa using hne)]
      rw [hsame] at hrest
      exact hu.trans hrest
    next hp =>
      cases hstep
      rw [List.filter_cons_of_neg (by simpa using hp)]
      exact ih hps.2 h

theorem wakeup1 {chan : Chan} (h : s.wakeup1 chan = .ok t) : Enqueues s (s.woken chan) t :=
  wakeup1Loop (List.nodup_finRange NPROC) h

end Enqueues

theorem sleeping_of_woken {chan : Chan} (h : p ∈ s.woken chan) : (s.proc p).state = .sleeping := by
  unfold woken at h
  rw [List.mem_filter, decide_eq_true_iff] at h
  exact h.2.1

namespace Enqueues

theorem exitChildStep {curproc : ProcId} (h : exitChildStep curproc s p = .ok t)
    : Enqueues s (if (s.proc p).parent = some curproc ∧ (s.proc p).state = .zombie then
        s.woken (Chan.ofProc s.initproc) else []) t := by
  unfold Kernel.exitChildStep at h
  split at h
  next hparent =>
    have hmod : Enqueues s [] (s.modifyProc p ({ · with parent := s.initproc })) :=
      modifyProc s p rfl rfl rfl rfl
    have hstate : ((s.modifyProc p ({ · with parent := s.initproc })).proc p).state =
        (s.proc p).state := by
      simp
    dsimp only at h
    rw [hstate] at h
    split at h
    next hzombie =>
      rw [if_pos ⟨hparent, hzombie⟩]
      have hwake : Enqueues s ([] ++
          (s.modifyProc p ({ · with parent := s.initproc })).woken (Chan.ofProc s.initproc)) t :=
        hmod.trans (wakeup1 h)
      have hsame : (s.modifyProc p ({ · with parent := s.initproc })).woken (Chan.ofProc s.initproc) =
          s.woken (Chan.ofProc s.initproc) := by
        unfold woken
        apply List.filter_congr
        intro r _
        rw [hmod.state, hmod.chan]
        simp
      rw [hsame] at hwake
      exact hwake
    next hzombie =>
      cases h
      rw [if_neg (fun hc => hzombie hc.2)]
      exact hmod
  next hparent =>
    cases h
    rw [if_neg (fun hc => hparent hc.1)]
    exact refl s

theorem exitLoop {curproc : ProcId} {ps : List ProcId}
    (h : ps.foldlM (Kernel.exitChildStep curproc) s = .ok t)
    : Enqueues s (exitWoken curproc ps s) t ∧
        ∀ p ∈ exitWoken curproc ps s, (s.proc p).state = .sleeping := by
  induction ps generalizing s with
  | nil =>
    cases h
    exact ⟨refl _, by simp [exitWoken]⟩
  | cons p ps ih =>
    rw [List.foldlM_cons] at h
    rcases Fold.bind_eq_ok h with ⟨u, hstep, h⟩
    have hu := exitChildStep hstep
    have hrest := ih h
    rw [exitWoken, hstep]
    refine ⟨hu.trans hrest.1, ?_⟩
    intro q hq
    rcases List.mem_append.1 hq with hq | hq
    . split at hq
      . exact sleeping_of_woken hq
      . contradiction
    . have hsleep := hrest.2 q hq
      rw [← hu.state_of_ne (by rw [hsleep]; nofun)]
      exact hsleep

end Enqueues

/--
An operation takes at most the first process of one level out of its queue, and puts the processes
that it enqueues behind the others.
-/
structure Serves (s : Kernel ncpu) (L : Fin NPRIO → List ProcId) (l : List ProcId)
    (t : Kernel ncpu) : Prop where
  filled : ∃ M : Fin NPRIO → List ProcId, t.Filled (fun q => M q ++ s.atLevel l q) ∧ ∀ q, (M q).Sublist (L q)
  fresh : ∀ p ∈ l, (s.proc p).state ≠ .runnable
  nodup : l.Nodup

theorem Serves.of_filled (h : t.Filled L) : Serves s L [] t := by
  refine ⟨⟨L, ?_, fun _ => .refl _⟩, by simp, List.nodup_nil⟩
  simpa [atLevel] using h

theorem Enqueues.serves {l : List ProcId} (h : Enqueues s l t) (hL : s.Filled L) : Serves s L l t :=
  ⟨⟨L, h.filled L hL, fun _ => .refl _⟩, h.fresh, h.nodup⟩

theorem Serves.setCpu {l : List ProcId} (h : Serves s L l t) (c : Fin ncpu) (o : Option ProcId)
    : Serves s L l (t.setCpu c o) := by
  rcases h.filled with ⟨M, hM, hsub⟩
  exact ⟨⟨M, hM.setCpu c o, hsub⟩, h.fresh, h.nodup⟩

theorem exit_serves {c : Fin ncpu} {status : BitVec 32} (hL : s.Filled L)
    (hp : (s.proc p).state = .running) (h : s.exit c p status = .ok t)
    : Serves s L ((s.modifyProc p ({ · with status := status })).exitEnqueued p) t := by
  unfold exit at h
  have hmod : Enqueues s [] (s.modifyProc p ({ · with status := status })) :=
    .modifyProc s p rfl rfl rfl rfl
  generalize hs₁ : s.modifyProc p ({ · with status := status }) = s₁ at h hmod
  dsimp only at h
  split at h
  . contradiction
  . rcases Fold.bind_eq_ok h with ⟨s₂, hwake, h⟩
    rcases Fold.bind_eq_ok h with ⟨s₃, hloop, h⟩
    cases h
    unfold exitEnqueued
    simp only [hwake]
    have henq := hmod.trans ((Enqueues.wakeup1 hwake).trans (Enqueues.exitLoop hloop).1)
    have hstate₁ : (s₁.proc p).state = .running := by
      rw [hmod.state]
      simpa using hp
    have hstate₂ : (s₂.proc p).state = .running := by
      rw [(Enqueues.wakeup1 hwake).state, if_neg]
      . exact hstate₁
      . intro hmem
        rw [sleeping_of_woken hmem] at hstate₁
        contradiction
    have hstate₃ : (s₃.proc p).state = .running := by
      rw [(Enqueues.exitLoop hloop).1.state, if_neg]
      . exact hstate₂
      . intro hmem
        rw [(Enqueues.exitLoop hloop).2 p hmem] at hstate₂
        contradiction
    refine ⟨⟨L, ?_, fun _ => .refl _⟩, henq.fresh, henq.nodup⟩
    apply Filled.setCpu
    apply (henq.filled L hL).modifyProc
    . rw [hstate₃]
      nofun
    . nofun
    . rfl

theorem scheduler_serves {c : Fin ncpu} (hL : s.Filled L) (h : s.scheduler c = .ok t)
    : Serves s L [] t := by
  cases hchoose : s.choose with
  | none =>
    unfold scheduler at h
    rw [hchoose] at h
    cases h
    exact .of_filled hL
  | some p =>
    rcases choose_eq_some hchoose with ⟨q, hfirst, _⟩
    rcases hL.of_primero hfirst with ⟨l, hl, _, hpq⟩
    rcases hL.toQueued.scheduler c hchoose hl hpq with ⟨t', ht', hqueued, hlinks⟩
    rw [h] at ht'
    cases ht'
    have hfilled : t.Filled (Function.update L q l) := by
      refine ⟨hqueued, ?_⟩
      intro r hr
      rw [hlinks.state_eq] at hr
      by_cases hrp : r = p
      . rw [hrp, modifyProc_proc_self] at hr
        contradiction
      . rw [modifyProc_proc_ne _ _ _ _ hrp, setCpu_proc] at hr
        rcases hL.level r hr with ⟨x, hx⟩
        refine ⟨x, ?_⟩
        by_cases hxq : x = q
        . rw [hxq, hl] at hx
          rw [hxq, Function.update_self]
          exact (List.mem_cons.1 hx).resolve_left hrp
        . rw [Function.update_of_ne hxq]
          exact hx
    refine ⟨⟨Function.update L q l, ?_, ?_⟩, by simp, List.nodup_nil⟩
    . simpa [atLevel] using hfilled
    . intro r
      by_cases hr : r = q
      . rw [hr, Function.update_self, hl]
        exact List.sublist_cons_self p l
      . rw [Function.update_of_ne hr]

theorem Step.serves {op : Op ncpu} (hstep : s.Step op (.ok t)) (hL : s.Filled L)
    : Serves s L (s.enqueued op) t := by
  generalize hr : (Except.ok t : Except Fault (Kernel ncpu)) = r at hstep
  cases hstep with
  | allocproc =>
    cases hr
    apply Serves.of_filled
    unfold Kernel.allocproc
    split
    . exact hL
    next p hfind =>
      have hp : (s.proc p).state = .unused := by simpa using List.find?_some hfind
      have hmod := hL.modifyProc (p := p)
        (f := fun x => { x with state := .embryo, pid := s.nextpid, prio := 5 })
        (by rw [hp]; nofun) nofun rfl
      exact hmod.of_proc rfl rfl
  | allocFail hp =>
    cases hr
    exact .of_filled (hL.modifyProc (by rw [hp]; nofun) nofun rfl)
  | userinitSetup hp =>
    cases hr
    have hmod := hL.modifyProc (f := fun x => { x with prio := 5 }) (by rw [hp]; nofun)
      (by rw [hp]; nofun) rfl
    exact .of_filled (hmod.of_proc rfl rfl)
  | forkCopy _ hp =>
    cases hr
    exact .of_filled (hL.modifyProc (by rw [hp]; nofun) (by rw [hp]; nofun) rfl)
  | enqueueNew hp => exact (Enqueues.makeRunnable hr.symm (by rw [hp]; nofun)).serves hL
  | @yield c p hc =>
    unfold Kernel.yield at hr
    rcases Fold.bind_eq_ok hr.symm with ⟨u, hrun, hr⟩
    cases hr
    unfold enqueued
    dsimp only
    rw [hc.1]
    exact ((Enqueues.makeRunnable hrun (by rw [hc.2]; nofun)).serves hL).setCpu c none
  | @sleep c p chan hc =>
    cases hr
    exact .of_filled (hL.sleep hc.2 c chan)
  | sleepResume hc =>
    cases hr
    exact .of_filled (hL.modifyProc (by rw [hc.2]; nofun) (by rw [hc.2]; nofun) rfl)
  | wakeup => exact (Enqueues.wakeup1 hr.symm).serves hL
  | @kill pid =>
    unfold Kernel.kill at hr
    unfold enqueued
    dsimp only
    cases hfind : s.findPid pid with
    | none =>
      rw [hfind] at hr
      cases hr
      exact .of_filled hL
    | some p =>
      rw [hfind] at hr
      dsimp only at hr ⊢
      have hmod : Enqueues s [] (s.modifyProc p ({ · with killed := true })) :=
        .modifyProc s p rfl rfl rfl rfl
      have hstate : ((s.modifyProc p ({ · with killed := true })).proc p).state = (s.proc p).state := by
        simp
      rw [hstate] at hr
      split at hr
      next hsleep =>
        rw [if_pos hsleep]
        generalize hrun : (s.modifyProc p ({ · with killed := true })).makeRunnable p = r at hr
        cases r with
        | error e => contradiction
        | ok u =>
          cases hr
          exact (hmod.trans (Enqueues.makeRunnable hrun (by rw [hstate, hsleep]; nofun))).serves hL
      next hsleep =>
        cases hr
        rw [if_neg hsleep]
        exact hmod.serves hL
  | @exit c p status hc =>
    unfold enqueued
    dsimp only
    rw [hc.1]
    exact exit_serves hL hc.2 hr.symm
  | @wait c p hc =>
    cases hr
    apply Serves.of_filled
    unfold Kernel.wait
    dsimp only
    split
    next r hfind =>
      have hr := List.find?_some hfind
      rw [decide_eq_true_iff] at hr
      exact hL.modifyProc
        (f := fun x => { x with pid := 0, parent := none, killed := false, state := .unused })
        (by rw [hr.2]; nofun) nofun rfl
    . split
      . exact hL
      . exact hL.sleep hc.2 c _
  | schedule _ => exact scheduler_serves hL hr.symm

theorem Queued.choose_first (hL : s.Queued L) (h : s.choose = some p)
    : ∃ (q : Fin NPRIO) (l : List ProcId), L q = p :: l ∧ (s.proc p).state = .runnable ∧
        (s.proc p).prio.toNat = q ∧ ∀ r < q, L r = [] := by
  unfold choose at h
  rcases List.findSome?_eq_some_iff.1 h with ⟨before, q, after, hsplit, hq, hbefore⟩
  split at hq
  . contradiction
  next p' hfirst =>
    split at hq
    . contradiction
    . cases hq
      rcases hL.of_primero hfirst with ⟨l, hl, hp, hpq⟩
      refine ⟨q, l, hl, hp, hpq, ?_⟩
      intro r hr
      have hsorted := List.pairwise_lt_finRange NPRIO
      rw [hsplit, List.pairwise_append, List.pairwise_cons] at hsorted
      have hmem : r ∈ before := by
        have hall : r ∈ before ++ q :: after := by
          rw [← hsplit]
          exact List.mem_finRange r
        rw [List.mem_append, List.mem_cons] at hall
        rcases hall with hmem | hmem | hmem
        . exact hmem
        . exact absurd hmem (Fin.ne_of_lt hr)
        . exact absurd (hsorted.2.1.1 r hmem) (Fin.lt_asymm hr)
      -- a process at the head of the level would have been chosen
      cases hlr : L r with
      | nil => rfl
      | cons x xs =>
        have hhead := (hL.queue r).chain.head_eq
        rw [hlr] at hhead
        have hx := (hL.mem_iff r x).1 (by rw [hlr]; exact List.mem_cons_self)
        have hnone := hbefore r hmem
        rw [hhead] at hnone
        simp [hx.1] at hnone

theorem Queued.choose_none (hL : s.Queued L) (h : s.choose = none) (q : Fin NPRIO) : L q = [] := by
  unfold choose at h
  rw [List.findSome?_eq_none_iff] at h
  cases hlq : L q with
  | nil => rfl
  | cons x xs =>
    have hhead := (hL.queue q).chain.head_eq
    rw [hlq] at hhead
    have hx := (hL.mem_iff q x).1 (by rw [hlq]; exact List.mem_cons_self)
    have hnone := h q (List.mem_finRange q)
    rw [hhead] at hnone
    simp [hx.1] at hnone

end Kernel

namespace FifoSys

variable {ncpu : Nat} {s t : FifoSys ncpu} {p : ProcId} {l : List ProcId}

def Sorted (s : FifoSys ncpu) (l : List ProcId) : Prop :=
  l.Pairwise (fun p q => s.stamp p < s.stamp q) ∧ ∀ p ∈ l, s.stamp p < s.clock

theorem Sorted.mark_of_notMem (h : s.Sorted l) (hp : p ∉ l) : (s.mark p).Sorted l := by
  have hstamp : ∀ q ∈ l, (s.mark p).stamp q = s.stamp q := by
    intro q hq
    have hne : q ≠ p := by
      intro heq
      rw [heq] at hq
      exact hp hq
    exact Function.update_of_ne hne _ _
  constructor
  . refine List.Pairwise.imp_of_mem ?_ h.1
    intro a b ha hb hlt
    rw [hstamp a ha, hstamp b hb]
    exact hlt
  . intro q hq
    have hlt := h.2 q hq
    rw [hstamp q hq]
    show s.stamp q < s.clock + 1
    omega

theorem Sorted.push (h : s.Sorted l) (hp : p ∉ l) : (s.mark p).Sorted (l ++ [p]) := by
  have hold := h.mark_of_notMem hp
  have hself : (s.mark p).stamp p = s.clock := Function.update_self ..
  constructor
  . rw [List.pairwise_append]
    refine ⟨hold.1, List.pairwise_singleton _ _, ?_⟩
    intro a ha b hb
    rw [List.mem_singleton] at hb
    have hne : a ≠ p := by
      intro heq
      rw [heq] at ha
      exact hp ha
    have hsame : (s.mark p).stamp a = s.stamp a := Function.update_of_ne hne _ _
    rw [hb, hself, hsame]
    exact h.2 a ha
  . intro q hq
    rcases List.mem_append.1 hq with hq | hq
    . exact hold.2 q hq
    . rw [List.mem_singleton] at hq
      rw [hq, hself]
      exact Nat.lt_succ_self s.clock

theorem Sorted.foldl_mark {k : List ProcId} (f : ProcId → Bool) (h : s.Sorted k) (hnodup : l.Nodup)
    (hfresh : ∀ p ∈ l, p ∉ k)
    : (l.foldl mark s).Sorted (k ++ l.filter f) := by
  induction l generalizing s k with
  | nil => simpa using h
  | cons p l ih =>
    rw [List.nodup_cons] at hnodup
    have hp := hfresh p List.mem_cons_self
    rw [List.foldl_cons]
    cases hf : f p with
    | false =>
      rw [List.filter_cons_of_neg (by simp [hf])]
      apply ih (h.mark_of_notMem hp) hnodup.2
      intro q hq
      exact hfresh q (List.mem_cons_of_mem p hq)
    | true =>
      rw [List.filter_cons_of_pos hf, List.append_cons]
      apply ih (h.push hp) hnodup.2
      intro q hq hmem
      rcases List.mem_append.1 hmem with hmem | hmem
      . exact hfresh q (List.mem_cons_of_mem p hq) hmem
      . rw [List.mem_singleton] at hmem
        rw [hmem] at hq
        exact hnodup.1 hq

theorem Sorted.sublist {k : List ProcId} (h : s.Sorted l) (hsub : k.Sublist l) : s.Sorted k :=
  ⟨h.1.sublist hsub, fun p hp => h.2 p (hsub.subset hp)⟩

structure Ordered (s : FifoSys ncpu) (L : Fin NPRIO → List ProcId) : Prop where
  filled : s.kernel.Filled L
  sorted : ∀ q, s.Sorted (L q)

theorem Ordered.step {L : Fin NPRIO → List ProcId} {e : Event ncpu} (h : s.Ordered L) (hstep : s.Step e t)
    : ∃ M, t.Ordered M := by
  cases hstep with
  | @op op u hop =>
    have hserves := hop.serves h.filled
    rcases hserves.filled with ⟨M, hM, hsub⟩
    refine ⟨_, hM, ?_⟩
    intro q
    apply Sorted.foldl_mark _ ((h.sorted q).sublist (hsub q)) hserves.nodup
    intro p hp hmem
    exact hserves.fresh p hp ((h.filled.mem_iff q p).1 ((hsub q).subset hmem)).1
  | setprio hp =>
    refine ⟨L, ?_, h.sorted⟩
    exact h.filled.modifyProc (f := fun x => { x with prio := _ }) hp hp rfl

abbrev EventRun (s : FifoSys ncpu) (es : List (Event ncpu)) (t : FifoSys ncpu) : Prop :=
  Transition.Run Step (fun _ _ => True) s es t

theorem boot_ordered : (boot : FifoSys ncpu).Ordered (fun _ => []) where
  filled := by
    refine ⟨⟨⟨fun q => .empty _, by simp⟩, ?_⟩, ?_⟩
    . simp [boot, Kernel.boot, default]
    . simp [boot, Kernel.boot, default]
  sorted := fun _ => ⟨List.Pairwise.nil, by simp⟩

theorem dispatched {k : Kernel ncpu} {c : Fin ncpu} (hc : s.kernel.cpu c = none)
    (hk : s.kernel.scheduler c = .ok k) (hcpu : k.cpu c = some p)
    : s.kernel.choose = some p := by
  unfold Kernel.scheduler at hk
  cases hchoose : s.kernel.choose with
  | none =>
    rw [hchoose] at hk
    cases hk
    rw [hc] at hcpu
    contradiction
  | some r =>
    rw [hchoose] at hk
    dsimp only at hk
    unfold Kernel.quitarProc at hk
    generalize Kernel.priotableIdx _ = i at hk
    cases i with
    | error e => contradiction
    | ok q =>
      cases hk
      rw [(Kernel.quitarProcAt_linksOnly _ r q).cpu] at hcpu
      have hself : Function.update s.kernel.cpu c (some r) c = some p := hcpu
      rw [Function.update_self] at hself
      exact hself

/--
In a run from boot, a process that the scheduler of a CPU dispatches has the smallest priority value
of the runnable processes, and of those with this value it has been runnable for the longest time;
and the scheduler dispatches a process if one is runnable.
-/
theorem dispatch_order {es : List (Event ncpu)} (hrun : EventRun boot es s) {c : Fin ncpu}
    (hc : s.kernel.cpu c = none)
    : (∀ k p, s.kernel.scheduler c = .ok k → k.cpu c = some p →
        (s.kernel.proc p).state = .runnable ∧
          ∀ r, (s.kernel.proc r).state = .runnable →
            (s.kernel.proc p).prio ≤ (s.kernel.proc r).prio ∧
              (r ≠ p → (s.kernel.proc r).prio = (s.kernel.proc p).prio → s.stamp p < s.stamp r)) ∧
        ((∃ r, (s.kernel.proc r).state = .runnable) →
          ∃ k p, s.kernel.scheduler c = .ok k ∧ k.cpu c = some p ∧ (k.proc p).state = .running) := by
  have hinv : ∃ L, s.Ordered L := by
    apply hrun.invariant (P := fun s => ∃ L, s.Ordered L)
    . rintro s e t ⟨L, hL⟩ _ hstep
      exact hL.step hstep
    . exact ⟨_, boot_ordered⟩
  rcases hinv with ⟨L, hL⟩
  constructor
  . intro k p hk hcpu
    have hchoose : s.kernel.choose = some p := dispatched hc hk hcpu
    rcases hL.filled.choose_first hchoose with ⟨q, l, hl, hp, hpq, hbefore⟩
    refine ⟨hp, ?_⟩
    intro r hr
    rcases hL.filled.level r hr with ⟨x, hx⟩
    have hrx := ((hL.filled.mem_iff x r).1 hx).2
    constructor
    . rw [BitVec.le_def, hpq, hrx]
      by_contra hlt
      rw [hbefore x (by omega)] at hx
      contradiction
    . intro hne heq
      have hxq : x = q := by
        apply Fin.ext
        rw [← hrx, heq, hpq]
      have hsorted := (hL.sorted q).1
      rw [hxq, hl] at hx
      rw [hl, List.pairwise_cons] at hsorted
      exact hsorted.1 r ((List.mem_cons.1 hx).resolve_left hne)
  . rintro ⟨r, hr⟩
    cases hchoose : s.kernel.choose with
    | none =>
      rcases hL.filled.level r hr with ⟨q, hq⟩
      rw [hL.filled.choose_none hchoose q] at hq
      contradiction
    | some p =>
      rcases hL.filled.choose_first hchoose with ⟨q, l, hl, _, hpq, _⟩
      rcases hL.filled.toQueued.scheduler c hchoose hl hpq with ⟨k, hk, _, hlinks⟩
      refine ⟨k, p, hk, ?_, ?_⟩
      . rw [hlinks.cpu]
        exact Function.update_self ..
      . rw [hlinks.state_eq]
        simp

def fork (np : ProcId) : List (Event 2) :=
  [.op .allocproc, .op (.forkCopy 0 np), .op (.enqueueNew np)]

-- The first process has three children, and the last two have the level that it gave itself before.
def threeForks : List (Event 2) :=
  [.op .allocproc, .op (.userinitSetup 0), .op (.enqueueNew 0), .op (.schedule 0)] ++ fork 1 ++
    [.setprio 0 3] ++ fork 2 ++ fork 3

theorem dispatch_order_forked
    : ∃ (s : FifoSys 2) (k : Kernel 2), EventRun boot threeForks s ∧ s.kernel.scheduler 1 = .ok k ∧
        k.cpu 1 = some 2 ∧ (s.kernel.proc 2).prio ≤ (s.kernel.proc 1).prio ∧ s.stamp 2 < s.stamp 3 := by
  have hrun : EventRun (boot : FifoSys 2) threeForks _ :=
    .cons trivial (.op .allocproc) <|
    .cons trivial (.op (.userinitSetup (by decide))) <|
    .cons trivial (.op (.enqueueNew (by decide))) <|
    .cons trivial (.op (.schedule (by decide))) <|
    .cons trivial (.op .allocproc) <|
    .cons trivial (.op (.forkCopy (p := 0) (by decide) (by decide))) <|
    .cons trivial (.op (.enqueueNew (by decide))) <|
    .cons trivial (.setprio (by decide)) <|
    .cons trivial (.op .allocproc) <|
    .cons trivial (.op (.forkCopy (p := 0) (by decide) (by decide))) <|
    .cons trivial (.op (.enqueueNew (by decide))) <|
    .cons trivial (.op .allocproc) <|
    .cons trivial (.op (.forkCopy (p := 0) (by decide) (by decide))) <|
    .cons trivial (.op (.enqueueNew (by decide))) <|
    .nil _
  have hfirst := (dispatch_order hrun (c := 1) (by decide)).1 _ 2 rfl rfl
  exact ⟨_, _, hrun, rfl, rfl, (hfirst.2 1 (by decide)).1,
    (hfirst.2 3 (by decide)).2 (by decide) (by decide)⟩

end FifoSys
end Xv6
