import Xv6.Proc.Lemmas.Sched

/-!
The process table without its queues: who is whose child, who sleeps, who has exited. The operations
of `Sched` act on this view as functions, whatever the queues look like.
-/

namespace Xv6

structure Life where
  state : ProcState
  pid : BitVec 32
  parent : Option ProcId
  chan : Chan
  killed : Bool
  status : BitVec 32
  deriving DecidableEq, Repr

attribute [ext] Life

def Proc.life (x : Proc) : Life :=
  ⟨x.state, x.pid, x.parent, x.chan, x.killed, x.status⟩

abbrev Family := ProcId → Life

namespace Family

def modify (F : Family) (p : ProcId) (f : Life → Life) : Family :=
  Function.update F p (f (F p))

def wake (F : Family) (chan : Chan) : Family := fun r =>
  if (F r).state = .sleeping ∧ (F r).chan = chan then { F r with state := .runnable } else F r

def inherit (F : Family) (init : Option ProcId) (p : ProcId) (l : List ProcId) : Family := fun r =>
  if r ∈ l ∧ (F r).parent = some p then { F r with parent := init } else F r

def zombieChild (F : Family) (p : ProcId) (l : List ProcId) : Prop :=
  ∃ q ∈ l, (F q).parent = some p ∧ (F q).state = .zombie

instance (F : Family) (p : ProcId) (l : List ProcId) : Decidable (F.zombieChild p l) :=
  inferInstanceAs (Decidable (∃ q ∈ l, _))

def pass (F : Family) (init : Option ProcId) (p : ProcId) (l : List ProcId) : Family :=
  let G := F.inherit init p l
  if F.zombieChild p l then G.wake (Chan.ofProc init) else G

def exit (F : Family) (init : Option ProcId) (p : ProcId) (status : BitVec 32) : Family :=
  let F := F.modify p ({ · with status := status })
  let F := F.wake (Chan.ofProc (F p).parent)
  let F := F.pass init p (List.finRange NPROC)
  F.modify p ({ · with state := .zombie })

def findPid (F : Family) (pid : BitVec 32) : Option ProcId :=
  (List.finRange NPROC).find? (fun p => (F p).pid = pid)

def kill (F : Family) (pid : BitVec 32) : Family :=
  match F.findPid pid with
  | none => F
  | some p =>
    F.modify p fun x =>
      { x with killed := true, state := if x.state = .sleeping then .runnable else x.state }

variable (F : Family) (p r : ProcId) (f : Life → Life) (chan : Chan) (init : Option ProcId)
  (l : List ProcId)

theorem modify_apply : F.modify p f r = if r = p then f (F p) else F r := by
  simp only [modify, Function.update_apply]

@[simp]
theorem modify_self : F.modify p f p = f (F p) := by
  simp [modify_apply]

@[simp]
theorem modify_of_ne (h : r ≠ p) : F.modify p f r = F r := by
  simp [modify_apply, h]

@[simp]
theorem wake_parent : (F.wake chan r).parent = (F r).parent := by
  unfold wake
  split <;> rfl

@[simp]
theorem wake_pid : (F.wake chan r).pid = (F r).pid := by
  unfold wake
  split <;> rfl

@[simp]
theorem wake_chan : (F.wake chan r).chan = (F r).chan := by
  unfold wake
  split <;> rfl

@[simp]
theorem wake_killed : (F.wake chan r).killed = (F r).killed := by
  unfold wake
  split <;> rfl

@[simp]
theorem wake_status : (F.wake chan r).status = (F r).status := by
  unfold wake
  split <;> rfl

theorem wake_state
    : (F.wake chan r).state =
        if (F r).state = .sleeping ∧ (F r).chan = chan then .runnable else (F r).state := by
  unfold wake
  split <;> rfl

@[simp]
theorem wake_zombie : (F.wake chan r).state = .zombie ↔ (F r).state = .zombie := by
  rw [wake_state]
  split
  next h => simp [h.1]
  . rfl

theorem inherit_parent
    : (F.inherit init p l r).parent =
        if r ∈ l ∧ (F r).parent = some p then init else (F r).parent := by
  unfold inherit
  split <;> rfl

theorem inherit_same
    : F.inherit init p l r = { F r with parent := (F.inherit init p l r).parent } := by
  unfold inherit
  split <;> rfl

theorem pass_state
    : (F.pass init p l r).state =
        if F.zombieChild p l ∧ (F r).state = .sleeping ∧ (F r).chan = Chan.ofProc init then
          .runnable
        else
          (F r).state := by
  unfold pass
  split
  next h =>
    rw [wake_state, inherit_same]
    simp [h]
  next h =>
    rw [inherit_same]
    simp [h]

theorem pass_parent
    : (F.pass init p l r).parent =
        if r ∈ l ∧ (F r).parent = some p then init else (F r).parent := by
  unfold pass
  split
  . rw [wake_parent, inherit_parent]
  . rw [inherit_parent]

theorem pass_same
    : (F.pass init p l r).pid = (F r).pid ∧ (F.pass init p l r).chan = (F r).chan ∧
        (F.pass init p l r).killed = (F r).killed ∧ (F.pass init p l r).status = (F r).status := by
  unfold pass
  split
  . simp only [wake_pid, wake_chan, wake_killed, wake_status]
    rw [inherit_same]
    simp
  . rw [inherit_same]
    simp

@[simp]
theorem pass_pid : (F.pass init p l r).pid = (F r).pid := (F.pass_same p r init l).1

@[simp]
theorem pass_chan : (F.pass init p l r).chan = (F r).chan := (F.pass_same p r init l).2.1

@[simp]
theorem pass_killed : (F.pass init p l r).killed = (F r).killed := (F.pass_same p r init l).2.2.1

@[simp]
theorem pass_status : (F.pass init p l r).status = (F r).status := (F.pass_same p r init l).2.2.2

@[simp]
theorem pass_zombie : (F.pass init p l r).state = .zombie ↔ (F r).state = .zombie := by
  rw [pass_state]
  split
  next h => simp [h.2.1]
  . rfl

theorem pass_nil : F.pass init p [] = F := by
  funext r
  simp [pass, zombieChild, inherit]

theorem pass_cons {F : Family} {p q : ProcId} {init : Option ProcId} {l : List ProcId}
    (hinit : init ≠ some p) (hq : q ∉ l)
    : (F.pass init p [q]).pass init p l = F.pass init p (q :: l) := by
  have hchild : (F.pass init p [q]).zombieChild p l ↔ F.zombieChild p l := by
    unfold zombieChild
    simp only [pass_zombie, pass_parent, List.mem_singleton]
    constructor
    . rintro ⟨x, hx, hpar, hz⟩
      refine ⟨x, hx, ?_, hz⟩
      split at hpar
      . exact absurd hpar hinit
      . exact hpar
    . rintro ⟨x, hx, hpar, hz⟩
      refine ⟨x, hx, ?_, hz⟩
      have hxq : x ≠ q := by
        intro h
        exact hq (h ▸ hx)
      simp [hxq, hpar]
  have hcons : F.zombieChild p (q :: l) ↔ F.zombieChild p [q] ∨ F.zombieChild p l := by
    unfold zombieChild
    simp
  funext r
  apply Life.ext
  . simp only [pass_state, hchild, hcons, pass_chan]
    by_cases h₁ : F.zombieChild p [q] <;> by_cases h₂ : F.zombieChild p l <;> simp only [h₁, h₂]
    . simp only [true_and, true_or]
      split
      . simp
      . rfl
    . simp
    . simp
    . simp
  . simp
  . simp only [pass_parent, List.mem_cons]
    by_cases hr : r = q
    . subst hr
      simp [hq]
    . simp [hr]
  . simp
  . simp
  . simp

end Family

namespace Kernel

variable {ncpu : Nat} {s t : Kernel ncpu} {p : ProcId}

def life (s : Kernel ncpu) : Family := fun p => (s.proc p).life

@[simp]
theorem life_state : (s.life p).state = (s.proc p).state := rfl

@[simp]
theorem life_pid : (s.life p).pid = (s.proc p).pid := rfl

@[simp]
theorem life_parent : (s.life p).parent = (s.proc p).parent := rfl

@[simp]
theorem life_chan : (s.life p).chan = (s.proc p).chan := rfl

@[simp]
theorem life_killed : (s.life p).killed = (s.proc p).killed := rfl

@[simp]
theorem life_status : (s.life p).status = (s.proc p).status := rfl

theorem LinksOnly.life_eq (h : LinksOnly s t) : t.life = s.life := by
  funext p
  unfold life
  rw [h.proc]
  rfl

theorem modifyProc_life {f : Proc → Proc} {g : Life → Life} (h : (f (s.proc p)).life = g (s.life p))
    : (s.modifyProc p f).life = s.life.modify p g := by
  funext r
  rw [Family.modify_apply, ← h]
  unfold life
  rw [modifyProc_proc]
  split <;> rfl

structure Yields (s : Kernel ncpu) (r : Except Fault (Kernel ncpu)) (F : Family) : Prop where
  life : ∀ t, r = .ok t → t.life = F
  initproc : ∀ t, r = .ok t → t.initproc = s.initproc

theorem Yields.ok {F : Family} (hlife : t.life = F) (hinit : t.initproc = s.initproc)
    : Yields s (.ok t) F := by
  constructor
  . intro u hu
    cases hu
    exact hlife
  . intro u hu
    cases hu
    exact hinit

theorem Yields.bind {r : Except Fault (Kernel ncpu)} {f : Kernel ncpu → Except Fault (Kernel ncpu)}
    {F G : Family} (h : Yields s r F) (hf : ∀ t, t.life = F → t.initproc = s.initproc → Yields t (f t) G)
    : Yields s (r >>= f) G := by
  cases r with
  | error e => constructor <;> intro t ht <;> cases ht
  | ok t =>
    have ht := hf t (h.life t rfl) (h.initproc t rfl)
    refine ⟨ht.life, ?_⟩
    intro u hu
    rw [ht.initproc u hu, h.initproc t rfl]

theorem insertProc_yields (s : Kernel ncpu) (p : ProcId) (prio : BitVec 32)
    : Yields s (s.insertProc p prio) s.life := by
  unfold insertProc
  cases priotableIdx prio with
  | error e => constructor <;> intro t ht <;> cases ht
  | ok q =>
    have hlinks := insertProcAt_linksOnly s p q
    exact .ok hlinks.life_eq hlinks.initproc

theorem makeRunnable_yields (s : Kernel ncpu) (p : ProcId)
    : Yields s (s.makeRunnable p) (s.life.modify p ({ · with state := .runnable })) := by
  unfold makeRunnable
  have hins := insertProc_yields (s.modifyProc p ({ · with state := .runnable })) p
    (s.proc p).prio
  simp only [modifyProc_proc_self]
  refine ⟨?_, hins.initproc⟩
  intro t ht
  rw [hins.life t ht]
  apply modifyProc_life
  rfl

theorem wakeup1_yields (s : Kernel ncpu) (chan : Chan)
    : Yields s (s.wakeup1 chan) (s.life.wake chan) := by
  -- the loop has woken the sleepers among the processes it has passed
  have hfold : ∀ (l : List ProcId) (s : Kernel ncpu), l.Nodup →
      Yields s (l.foldlM (wakeup1Step chan) s)
        (fun r => if r ∈ l then s.life.wake chan r else s.life r) := by
    intro l
    induction l with
    | nil =>
      intro s _
      apply Yields.ok
      . simp
      . rfl
    | cons p l ih =>
      intro s hl
      rw [List.nodup_cons] at hl
      rw [List.foldlM_cons]
      have hstep : Yields s (wakeup1Step chan s p) (Function.update s.life p (s.life.wake chan p)) := by
        unfold wakeup1Step
        split
        next h =>
          have hwake : s.life.wake chan p = { s.life p with state := .runnable } := if_pos h
          rw [hwake]
          exact makeRunnable_yields s p
        next h =>
          have hwake : s.life.wake chan p = s.life p := if_neg h
          rw [hwake]
          apply Yields.ok
          . simp
          . rfl
      refine hstep.bind ?_
      intro t ht hinit
      have hrest := ih t hl.2
      refine ⟨?_, hrest.initproc⟩
      intro u hu
      rw [hrest.life u hu]
      funext r
      have hwake : ∀ F G : Family, F r = G r → F.wake chan r = G.wake chan r := by
        intro F G h
        unfold Family.wake
        rw [h]
      by_cases hr : r = p
      . subst hr
        simp [hl.1, ht]
      . rw [hwake t.life s.life (by simp [ht, hr])]
        simp [ht, hr]
  have hall := hfold (List.finRange NPROC) s (List.nodup_finRange _)
  refine ⟨?_, hall.initproc⟩
  intro t ht
  rw [hall.life t ht]
  funext r
  simp

theorem kill_yields (s : Kernel ncpu) (pid : BitVec 32)
    : Yields s ((s.kill pid).map Prod.snd) (s.life.kill pid) := by
  unfold Kernel.kill Family.kill
  rw [show s.life.findPid pid = s.findPid pid from rfl]
  generalize s.findPid pid = o
  cases o with
  | none => exact .ok rfl rfl
  | some p =>
    have hkilled : (s.modifyProc p ({ · with killed := true })).life =
        s.life.modify p ({ · with killed := true }) := modifyProc_life rfl
    simp only
    split
    next h =>
      rw [modifyProc_proc_self] at h
      dsimp only at h
      have hrun := makeRunnable_yields (s.modifyProc p ({ · with killed := true })) p
      generalize (s.modifyProc p ({ · with killed := true })).makeRunnable p = r at hrun ⊢
      cases r with
      | error e => constructor <;> intro t ht <;> cases ht
      | ok t =>
        apply Yields.ok
        . show t.life = _
          rw [hrun.life t rfl, hkilled]
          funext r
          by_cases hr : r = p
          . subst hr
            simp [h]
          . simp [hr]
        . exact hrun.initproc t rfl
    next h =>
      rw [modifyProc_proc_self] at h
      apply Yields.ok
      . dsimp only
        apply modifyProc_life
        dsimp only at h
        simp [Proc.life, life, h]
      . rfl

theorem exitChildren_yields (s : Kernel ncpu) (p : ProcId) (l : List ProcId) (hl : l.Nodup)
    (hinit : s.initproc ≠ some p)
    : Yields s (l.foldlM (exitChildStep p) s) (s.life.pass s.initproc p l) := by
  induction l generalizing s with
  | nil =>
    apply Yields.ok
    . rw [Family.pass_nil]
    . rfl
  | cons q l ih =>
    rw [List.nodup_cons] at hl
    rw [List.foldlM_cons]
    have hstep : Yields s (exitChildStep p s q) (s.life.pass s.initproc p [q]) := by
      unfold exitChildStep Family.pass Family.zombieChild
      simp only [List.mem_singleton, exists_eq_left, life_parent, life_state]
      have hlife : ∀ h : (s.proc q).parent = some p,
          (s.modifyProc q ({ · with parent := s.initproc })).life =
            s.life.inherit s.initproc p [q] := by
        intro h
        rw [modifyProc_life (g := ({ · with parent := s.initproc })) rfl]
        funext r
        simp only [Family.modify_apply, Family.inherit, List.mem_singleton, life_parent]
        by_cases hr : r = q
        . subst hr
          simp [h]
        . simp [hr]
      split
      next h =>
        simp only [modifyProc_proc_self, modifyProc_initproc, h, true_and]
        split
        . have hwake := wakeup1_yields (s.modifyProc q ({ · with parent := s.initproc }))
            (Chan.ofProc s.initproc)
          rw [hlife h] at hwake
          exact ⟨hwake.life, hwake.initproc⟩
        . exact .ok (hlife h) rfl
      next h =>
        apply Yields.ok
        . simp only [h, false_and, if_false]
          funext r
          simp only [Family.inherit, List.mem_singleton]
          split
          next hr => exact absurd (hr.1 ▸ hr.2) h
          . rfl
        . rfl
    refine hstep.bind ?_
    intro t ht htinit
    have hrest := ih t hl.2 (by rw [htinit]; exact hinit)
    refine ⟨?_, hrest.initproc⟩
    intro u hu
    rw [hrest.life u hu, ht, htinit, Family.pass_cons hinit hl.1]

theorem exit_yields (s : Kernel ncpu) (c : Fin ncpu) (p : ProcId) (status : BitVec 32)
    : Yields s (s.exit c p status) (s.life.exit s.initproc p status) := by
  unfold Kernel.exit
  simp only
  split
  . constructor <;> intro t ht <;> cases ht
  next hinit =>
    have hstatus : (s.modifyProc p ({ · with status := status })).life =
        s.life.modify p ({ · with status := status }) := modifyProc_life rfl
    have hwake := wakeup1_yields (s.modifyProc p ({ · with status := status }))
      (Chan.ofProc ((s.modifyProc p ({ · with status := status })).proc p).parent)
    rw [hstatus] at hwake
    have hbind := hwake.bind (f := fun t => do
      let u ← (List.finRange NPROC).foldlM (exitChildStep p) t
      return (u.modifyProc p ({ · with state := .zombie })).setCpu c none)
      (G := s.life.exit s.initproc p status) ?_
    . exact ⟨hbind.life, hbind.initproc⟩
    intro t ht htinit
    rw [modifyProc_initproc] at htinit
    have hchildren := exitChildren_yields t p (List.finRange NPROC) (List.nodup_finRange _)
      (by rw [htinit]; exact hinit)
    refine hchildren.bind ?_
    intro u hu huinit
    apply Yields.ok
    . have hzombie : (u.modifyProc p ({ · with state := .zombie })).life =
          u.life.modify p ({ · with state := .zombie }) := modifyProc_life rfl
      rw [show ((u.modifyProc p ({ · with state := .zombie })).setCpu c none).life =
        (u.modifyProc p ({ · with state := .zombie })).life from rfl]
      rw [hzombie, hu, ht, htinit]
      simp only [Family.exit, modifyProc_proc_self, Family.modify_self, life_parent]
    . rfl

theorem exit_init {c : Fin ncpu} {status : BitVec 32} (h : s.initproc = some p)
    : s.exit c p status = .error (.panic "init exiting") := by
  unfold Kernel.exit
  simp only
  split
  . rfl
  next hinit => exact absurd h hinit

theorem allocproc_life {np : ProcId} (h : s.allocproc.1 = some np)
    : (s.proc np).state = .unused ∧ s.allocproc.2.initproc = s.initproc ∧
        s.allocproc.2.life = s.life.modify np ({ · with state := .embryo, pid := s.nextpid }) := by
  unfold Kernel.allocproc at h ⊢
  generalize ho : (List.finRange NPROC).find? (fun p => (s.proc p).state = .unused) = o at h ⊢
  cases o with
  | none => cases h
  | some p =>
    cases h
    refine ⟨?_, rfl, ?_⟩
    . simpa using List.find?_some ho
    . have hlife : (s.modifyProc np
          ({ · with state := .embryo, pid := s.nextpid, prio := 5 })).life =
            s.life.modify np ({ · with state := .embryo, pid := s.nextpid }) := modifyProc_life rfl
      exact hlife

theorem yield_yields (s : Kernel ncpu) (c : Fin ncpu) (p : ProcId)
    : Yields s (s.yield c p) (s.life.modify p ({ · with state := .runnable })) := by
  unfold Kernel.yield
  apply (makeRunnable_yields s p).bind
  intro t ht _
  exact .ok ht rfl

theorem scheduler_yields (s : Kernel ncpu) (c : Fin ncpu)
    : Yields s (s.scheduler c) s.life ∨ ∃ p, (s.proc p).state = .runnable ∧
        Yields s (s.scheduler c) (s.life.modify p ({ · with state := .running })) := by
  unfold scheduler
  generalize ho : s.choose = o
  cases o with
  | none => exact .inl (.ok rfl rfl)
  | some p =>
    rcases choose_eq_some ho with ⟨_, _, hp⟩
    refine .inr ⟨p, hp, ?_⟩
    have hrun : ((s.setCpu c (some p)).modifyProc p ({ · with state := .running })).life =
        s.life.modify p ({ · with state := .running }) := modifyProc_life rfl
    simp only
    unfold quitarProc
    cases priotableIdx (((s.setCpu c (some p)).modifyProc p ({ · with state := .running })).proc p).prio with
    | error e => constructor <;> intro t ht <;> cases ht
    | ok q =>
      have hlinks := quitarProcAt_linksOnly
        ((s.setCpu c (some p)).modifyProc p ({ · with state := .running })) p q
      apply Yields.ok
      . rw [hlinks.life_eq, hrun]
      . exact hlinks.initproc

end Kernel
end Xv6
