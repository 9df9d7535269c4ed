import Xv6.Proc.Impl.Sleeplock
import Xv6.Proc.Lemmas.Sleep

/-!
A sleep lock is an instance of the protocol of `sleep` and `wakeup`: the condition its callers wait
for is `lk->locked == 0`. That nobody is left asleep comes from there; exclusion comes from the lock
word, which only its owner resets.
-/

namespace Xv6

namespace SleeplockPc

def view : SleeplockPc → SleepPc
  | .outside => .outside
  | .acquireTest => .waitTest
  | .acquireSet | .acquirePid | .acquireDone => .waitDone
  | .sleepEnter => .sleepEnter
  | .sleepBoth => .sleepBoth
  | .sleepSet => .sleepSet
  | .sleepSched => .sleepSched
  | .asleep => .asleep
  | .woken => .woken
  | .reacquire => .reacquire
  | .releaseSet | .holdingTest | .holdingDone _ => .wakerHold
  | .releasePid | .wakeup => .wakerSet
  | .wakeupScan => .scanIn
  | .wakeupDone => .scannedIn
  | .releaseDone => .wakerTail
  | .killHold pid => .killHold pid
  | .killDone => .killDone

def busy : SleeplockPc → Bool
  | .outside => false
  | _ => true

def taken : SleeplockPc → Bool
  | .acquirePid | .acquireDone => true
  | _ => false

theorem busy_of_holdsLk {pc : SleeplockPc} (h : pc.view.holdsLk = true) : pc.busy = true := by
  cases pc with
  | outside => contradiction
  | _ => rfl

theorem holdsLk_of_taken {pc : SleeplockPc} (h : pc.taken = true) : pc.view.holdsLk = true := by
  cases pc with
  | acquirePid => rfl
  | acquireDone => rfl
  | _ => contradiction

theorem holdsLk_of_preScan {pc : SleeplockPc} (h : pc.view.preScan = true)
    : pc.view.holdsLk = true := by
  cases pc with
  | releasePid => rfl
  | wakeup => rfl
  | wakeupScan => rfl
  | _ => contradiction

end SleeplockPc

namespace SleeplockSys

variable {s t : SleeplockSys} {p q : ProcId} {old new : SleeplockPc} {e : SleeplockEvent}

def view (s : SleeplockSys) : SleepSys where
  lk := .other
  chan := s.lk
  condition := s.lock.locked == 0
  holder := s.holder
  pc := fun p => (s.pc p).view
  table := s.table

theorem view_setPc (s : SleeplockSys) (p : ProcId) (pc : SleeplockPc)
    : (s.setPc p pc).view = s.view.setPc p pc.view := by
  have hpc : (s.setPc p pc).view.pc = Function.update s.view.pc p pc.view :=
    Function.comp_update SleeplockPc.view s.pc p pc
  unfold SleepSys.setPc
  rw [← hpc]
  rfl

theorem view_setPc_same {pc : SleeplockPc} (h : s.pc p = old) (hview : old.view = pc.view)
    : (s.setPc p pc).view = s.view := by
  have hpc : s.view.pc p = pc.view := by
    rw [← hview, ← h]
    rfl
  rw [view_setPc]
  unfold SleepSys.setPc
  rw [← hpc, Function.update_eq_self]

-- A step of the sleep lock is a step of the protocol, or one that the protocol does not see.
def Follows (s t : SleeplockSys) : Prop :=
  t.view = s.view ∨ ∃ a, s.view.Step a t.view

theorem Follows.setPc {u : SleeplockSys} {a : Option ProcId}
    (h : s.view.Step a (u.view.setPc p new.view))
    : s.Follows (u.setPc p new) := by
  right
  rw [view_setPc]
  exact ⟨a, h⟩

theorem Step.follows (h : s.Step e t) : s.Follows t := by
  have hview : ∀ {p pc}, s.pc p = pc → s.view.pc p = pc.view := by
    intro p pc hpc
    rw [← hpc]
    rfl
  have hother : Lock.other ≠ .ptable := by decide
  cases h with
  | acquiresleep hpc _ hl => exact .setPc (.waitAcquire (hview hpc) hl)
  | testLocked hpc hlocked => exact .setPc (.testFalse (hview hpc) (beq_false_of_ne hlocked))
  | testFree hpc hfree => exact .setPc (.testTrue (hview hpc) (beq_iff_eq.mpr hfree))
  | @acquireSet p hpc =>
    have heq : ((s.setLocked 1).setPc p .acquirePid).view = (s.setLocked 1).view :=
      view_setPc_same hpc rfl
    refine .inr ⟨some p, ?_⟩
    rw [heq]
    exact .spoil (.inl (hview hpc))
  | acquirePid hpc => exact .inl (view_setPc_same (s := s.setPid _) hpc rfl)
  | acquireRelease hpc => exact .setPc (u := (s.release _).setOwns _ _) (.waitRelease (hview hpc))
  | sleepAcquire hpc hl => exact .setPc (.sleepAcquire (hview hpc) hother hl)
  | sleepRelease hpc => exact .setPc (.sleepRelease (hview hpc) hother)
  | sleepSet hpc => exact .setPc (.sleepSet (hview hpc))
  | sched hpc => exact .setPc (.sched (hview hpc))
  | schedulerAcquire hl => exact .inr ⟨_, .schedulerAcquire hl⟩
  | schedulerRelease hl => exact .inr ⟨_, .schedulerRelease hl⟩
  | schedule hl hpc hrun => exact .setPc (.schedule hl (hview hpc) hrun)
  | wokenRelease hpc => exact .setPc (.wokenRelease (hview hpc) hother)
  | reacquire hpc hl => exact .setPc (.reacquire (hview hpc) hl)
  | releasesleep hpc _ hl => exact .setPc (.wakerAcquire (hview hpc) hl)
  | releaseSet hpc => exact .setPc (.makeTrue (hview hpc))
  | releasePid hpc => exact .inl (view_setPc_same (s := s.setPid _) hpc rfl)
  | wakeupAcquire hpc hl => exact .setPc (.wakeupIn (hview hpc) hother hl)
  | wakeup1 hpc => exact .setPc (.scanIn (hview hpc))
  | wakeupRelease hpc => exact .setPc (.releaseIn (hview hpc) hother)
  | releaseRelease hpc => exact .setPc (.tailRelease (hview hpc))
  | holdingsleep hpc _ hl => exact .setPc (.wakerAcquire (hview hpc) hl)
  | holdingTest hpc => exact .inl (view_setPc_same hpc rfl)
  | holdingReturn hpc => exact .setPc (.wakerLeave (hview hpc))
  | killAcquire hpc _ hl => exact .setPc (.killAcquire (hview hpc) hl)
  | kill hpc => exact .setPc (.kill (hview hpc))
  | killRelease hpc => exact .setPc (.killRelease (hview hpc))

theorem Step.view_inv (hstep : s.Step e t) (h : s.view.Inv) : t.view.Inv := by
  cases hstep.follows with
  | inl heq =>
    rw [heq]
    exact h
  | inr hex =>
    rcases hex with ⟨a, ha⟩
    exact ha.inv h

def Has (s : SleeplockSys) (p : ProcId) : Prop :=
  s.owns p = true ∨ (s.pc p).taken = true

structure Held (s : SleeplockSys) (p : ProcId) : Prop where
  locked : s.lock.locked ≠ 0
  has : s.Has p
  only : ∀ q, q ≠ p → ¬ s.Has q
  pid : s.pc p ≠ .acquirePid → s.lock.pid = (s.table p).pid

def Word (s : SleeplockSys) : Prop :=
  (s.lock.locked = 0 ∧ ∀ p, ¬ s.Has p) ∨ ∃ p, s.Held p

def Knows (s : SleeplockSys) (p : ProcId) : SleeplockPc → Prop
  | .acquireSet | .releasePid => s.lock.locked = 0
  | .releaseSet => s.owns p = true
  | .holdingDone r => r = true ↔ s.owns p = true
  | _ => True

structure Inv (s : SleeplockSys) : Prop where
  view : s.view.Inv
  word : s.Word
  knows : ∀ p, s.Knows p (s.pc p)
  alive : ∀ p, s.owns p = true ∨ (s.pc p).busy = true → (s.table p).state.Alive
  pids : ∀ p q, (s.table p).state.Alive → (s.table q).state.Alive →
    (s.table p).pid = (s.table q).pid → p = q

theorem Inv.at (h : s.Inv) (hpc : s.pc p = old) : s.Knows p old := by
  rw [← hpc]
  exact h.knows p

theorem Knows.congr (h : s.Knows p old) (howns : t.owns p = s.owns p)
    (hlock : old.view.holdsLk = true → t.lock = s.lock)
    : t.Knows p old := by
  cases old with
  | acquireSet | releasePid =>
    unfold Knows
    rw [hlock rfl]
    exact h
  | releaseSet | holdingDone =>
    unfold Knows
    rw [howns]
    exact h
  | _ => trivial

theorem Word.none_of_zero (h : s.Word) (hz : s.lock.locked = 0) (p : ProcId) : ¬ s.Has p := by
  rcases h with ⟨_, hnone⟩ | ⟨q, hq⟩
  . exact hnone p
  . exact absurd hz hq.locked

theorem Word.held_of_has (h : s.Word) (hp : s.Has p) : s.Held p := by
  rcases h with ⟨_, hnone⟩ | ⟨q, hq⟩
  . exact absurd hp (hnone p)
  . by_cases hpq : p = q
    . subst hpq
      exact hq
    . exact absurd hp (hq.only p hpq)

structure Goes (s t : SleeplockSys) (p : ProcId) (new : SleeplockPc) : Prop where
  pc : t.pc = Function.update s.pc p new
  owns : ∀ q, q ≠ p → t.owns q = s.owns q
  table : Family.Moves s.table t.table

namespace Goes

theorem pc_self (h : Goes s t p new) : t.pc p = new := by
  rw [h.pc, Function.update_self]

theorem pc_of_ne (h : Goes s t p new) (hq : q ≠ p) : t.pc q = s.pc q := by
  rw [h.pc, Function.update_of_ne hq]

theorem has_self (h : Goes s t p new) : t.Has p ↔ t.owns p = true ∨ new.taken = true := by
  unfold Has
  rw [h.pc_self]

theorem has_of_ne (h : Goes s t p new) (hq : q ≠ p) : t.Has q ↔ s.Has q := by
  unfold Has
  rw [h.pc_of_ne hq, h.owns q hq]

end Goes

/--
The step rule: if `p` changes the lock word it holds `lk->lk`.
-/
theorem Inv.goto (h : s.Inv) (hview : t.view.Inv) (hpc : s.pc p = old) (hgoes : Goes s t p new)
    (hword : t.Word) (hknows : t.Knows p new) (halive : (s.table p).state.Alive)
    (hlock : t.lock = s.lock ∨ old.view.holdsLk = true)
    : t.Inv := by
  refine ⟨hview, hword, ?_, ?_, ?_⟩
  . intro q
    by_cases hqp : q = p
    . subst hqp
      rw [hgoes.pc_self]
      exact hknows
    . rw [hgoes.pc_of_ne hqp]
      apply (h.knows q).congr (hgoes.owns q hqp)
      intro hq
      cases hlock with
      | inl heq => exact heq
      | inr hheld =>
        rw [← hpc] at hheld
        exact absurd (h.view.lk_unique hheld hq) hqp
  . intro q hq
    apply hgoes.table.alive
    by_cases hqp : q = p
    . subst hqp
      exact halive
    . rw [hgoes.pc_of_ne hqp, hgoes.owns q hqp] at hq
      exact h.alive q hq
  . have hback : ∀ q, (t.table q).state.Alive → (s.table q).state.Alive := by
      intro q hq
      cases hgoes.table.state q with
      | inl heq =>
        rw [← heq]
        exact hq
      | inr hboth => exact hboth.1
    intro q r hq hr hpid
    rw [hgoes.table.pid, hgoes.table.pid] at hpid
    exact h.pids q r (hback q hq) (hback r hr) hpid

theorem Inv.alive_of_pc (h : s.Inv) (hpc : s.pc p = old) (hbusy : old.busy = true)
    : (s.table p).state.Alive := by
  apply h.alive p
  right
  rw [hpc]
  exact hbusy

theorem Inv.write (h : s.Inv) (hview : t.view.Inv) (hpc : s.pc p = old)
    (hlk : old.view.holdsLk = true) (hgoes : Goes s t p new) (hword : t.Word)
    (hknows : t.Knows p new)
    : t.Inv :=
  h.goto hview hpc hgoes hword hknows (h.alive_of_pc hpc (SleeplockPc.busy_of_holdsLk hlk)) (.inr hlk)

theorem Word.still (h : s.Word) (hpc : s.pc p = old) (hgoes : Goes s t p new)
    (htaken : old.taken = false ∧ new.taken = false) (hlock : t.lock = s.lock)
    (howns : t.owns p = s.owns p)
    : t.Word := by
  have hhas : ∀ q, t.Has q ↔ s.Has q := by
    intro q
    by_cases hqp : q = p
    . subst hqp
      rw [hgoes.has_self, howns, htaken.2]
      unfold Has
      rw [hpc, htaken.1]
    . exact hgoes.has_of_ne hqp
  rcases h with ⟨hz, hnone⟩ | ⟨q, hq⟩
  . left
    rw [hlock]
    refine ⟨hz, ?_⟩
    intro r hr
    exact hnone r ((hhas r).mp hr)
  . right
    refine ⟨q, ?_, (hhas q).mpr hq.has, ?_, ?_⟩
    . rw [hlock]
      exact hq.locked
    . intro r hr hhasr
      exact hq.only r hr ((hhas r).mp hhasr)
    . intro hne
      rw [hlock, hgoes.table.pid]
      apply hq.pid
      intro hset
      by_cases hqp : q = p
      . subst hqp
        rw [hpc] at hset
        rw [hset] at htaken
        cases htaken.1
      . rw [hgoes.pc_of_ne hqp] at hne
        exact hne hset

theorem Inv.still (h : s.Inv) (hview : t.view.Inv) (hpc : s.pc p = old)
    (hsame : t.pc = Function.update s.pc p new ∧ t.owns = s.owns ∧ t.lock = s.lock)
    (htaken : old.taken = false ∧ new.taken = false) (hmoves : Family.Moves s.table t.table)
    (halive : (s.table p).state.Alive) (hknows : s.Knows p new)
    : t.Inv := by
  rcases hsame with ⟨hpc', howns, hlock⟩
  have hgoes : Goes s t p new := ⟨hpc', fun q _ => congrFun howns q, hmoves⟩
  have hown := congrFun howns p
  exact h.goto hview hpc hgoes (h.word.still hpc hgoes htaken hlock hown)
    (hknows.congr hown fun _ => hlock) halive (.inl hlock)

theorem Inv.setHolder {l : Lock} {a : Option Agent} (h : s.Inv) (hview : (s.setHolder l a).view.Inv)
    : (s.setHolder l a).Inv := by
  refine ⟨hview, ?_, h.knows, h.alive, h.pids⟩
  rcases h.word with hfree | ⟨p, hp⟩
  . exact .inl hfree
  . exact .inr ⟨p, hp.locked, hp.has, hp.only, hp.pid⟩

theorem Inv.acquireSet (h : s.Inv) (hpc : s.pc p = .acquireSet)
    (hview : ((s.setLocked 1).setPc p .acquirePid).view.Inv)
    : ((s.setLocked 1).setPc p .acquirePid).Inv := by
  have hgoes : Goes s ((s.setLocked 1).setPc p .acquirePid) p .acquirePid :=
    ⟨rfl, fun _ _ => rfl, (Family.Stirs.refl _).toMoves⟩
  have hzero : s.lock.locked = 0 := h.at hpc
  have hone : (1 : BitVec 32) ≠ 0 := by decide
  refine h.write hview hpc rfl hgoes (.inr ⟨p, hone, ?_, ?_, ?_⟩) trivial
  . exact hgoes.has_self.mpr (.inr rfl)
  . intro q hq hhas
    exact h.word.none_of_zero hzero q ((hgoes.has_of_ne hq).mp hhas)
  . intro hne
    exact absurd hgoes.pc_self hne

theorem Inv.acquirePid (h : s.Inv) (hpc : s.pc p = .acquirePid)
    (hview : ((s.setPid (s.table p).pid).setPc p .acquireDone).view.Inv)
    : ((s.setPid (s.table p).pid).setPc p .acquireDone).Inv := by
  have hgoes : Goes s ((s.setPid (s.table p).pid).setPc p .acquireDone) p .acquireDone :=
    ⟨rfl, fun _ _ => rfl, (Family.Stirs.refl _).toMoves⟩
  have hheld : s.Held p := h.word.held_of_has (.inr (by rw [hpc]; rfl))
  refine h.write hview hpc rfl hgoes (.inr ⟨p, hheld.locked, ?_, ?_, fun _ => rfl⟩) trivial
  . exact hgoes.has_self.mpr (.inr rfl)
  . intro q hq hhas
    exact hheld.only q hq ((hgoes.has_of_ne hq).mp hhas)

theorem Inv.acquireRelease (h : s.Inv) (hpc : s.pc p = .acquireDone)
    (hview : (((s.release .other).setOwns p true).setPc p .outside).view.Inv)
    : (((s.release .other).setOwns p true).setPc p .outside).Inv := by
  have hgoes : Goes s (((s.release .other).setOwns p true).setPc p .outside) p .outside :=
    ⟨rfl, fun _ hq => Function.update_of_ne hq _ _, (Family.Stirs.refl _).toMoves⟩
  have hheld : s.Held p := h.word.held_of_has (.inr (by rw [hpc]; rfl))
  refine h.write hview hpc rfl hgoes (.inr ⟨p, hheld.locked, ?_, ?_, ?_⟩) trivial
  . exact hgoes.has_self.mpr (.inl (Function.update_self _ _ _))
  . intro q hq hhas
    exact hheld.only q hq ((hgoes.has_of_ne hq).mp hhas)
  . intro _
    apply hheld.pid
    rw [hpc]
    rintro ⟨⟩

theorem Inv.releaseSet (h : s.Inv) (hpc : s.pc p = .releaseSet)
    (hview : (((s.setLocked 0).setOwns p false).setPc p .releasePid).view.Inv)
    : (((s.setLocked 0).setOwns p false).setPc p .releasePid).Inv := by
  have hgoes : Goes s (((s.setLocked 0).setOwns p false).setPc p .releasePid) p .releasePid :=
    ⟨rfl, fun _ hq => Function.update_of_ne hq _ _, (Family.Stirs.refl _).toMoves⟩
  have howns : (((s.setLocked 0).setOwns p false).setPc p .releasePid).owns p = false :=
    Function.update_self _ _ _
  have hheld : s.Held p := h.word.held_of_has (.inl (h.at hpc))
  refine h.write hview hpc rfl hgoes (.inl ⟨rfl, ?_⟩) rfl
  intro q hhas
  by_cases hq : q = p
  . subst hq
    rw [hgoes.has_self, howns] at hhas
    cases hhas <;> contradiction
  . exact hheld.only q hq ((hgoes.has_of_ne hq).mp hhas)

theorem Inv.releasePid (h : s.Inv) (hpc : s.pc p = .releasePid)
    (hview : ((s.setPid 0).setPc p .wakeup).view.Inv)
    : ((s.setPid 0).setPc p .wakeup).Inv := by
  have hgoes : Goes s ((s.setPid 0).setPc p .wakeup) p .wakeup :=
    ⟨rfl, fun _ _ => rfl, (Family.Stirs.refl _).toMoves⟩
  have hzero : s.lock.locked = 0 := h.at hpc
  have hnone := h.word.none_of_zero hzero
  refine h.write hview hpc rfl hgoes (.inl ⟨hzero, ?_⟩) trivial
  intro q hhas
  by_cases hq : q = p
  . subst hq
    rw [hgoes.has_self] at hhas
    cases hhas with
    | inl howns => exact hnone q (.inl howns)
    | inr hset => contradiction
  . exact hnone q ((hgoes.has_of_ne hq).mp hhas)

-- holdingsleep reads the lock word under lk->lk, so no acquiresleep is between its assignments
theorem Inv.holding_iff (h : s.Inv) (hpc : s.pc p = .holdingTest)
    : s.lock.holding (s.table p).pid = true ↔ s.owns p = true := by
  unfold Sleeplock.holding
  rw [Bool.and_eq_true, bne_iff_ne, beq_iff_eq]
  have hlk : (s.pc p).view.holdsLk = true := by
    rw [hpc]
    rfl
  have htaken : ∀ q, (s.pc q).taken = true → False := by
    intro q hq
    have heq := h.view.lk_unique hlk (SleeplockPc.holdsLk_of_taken hq)
    rw [heq, hpc] at hq
    contradiction
  have hpid : ∀ q, s.Held q → s.lock.pid = (s.table q).pid := by
    intro q hq
    apply hq.pid
    intro hset
    apply htaken q
    rw [hset]
    rfl
  constructor
  . rintro ⟨hlocked, hsame⟩
    rcases h.word with ⟨hz, _⟩ | ⟨q, hq⟩
    . contradiction
    . cases hq.has with
      | inl howns =>
        have heq : p = q := by
          apply h.pids p q (h.alive_of_pc hpc rfl) (h.alive q (.inl howns))
          rw [← hsame, hpid q hq]
        rw [heq]
        exact howns
      | inr hset => exact (htaken q hset).elim
  . intro howns
    have hheld := h.word.held_of_has (.inl howns)
    exact ⟨hheld.locked, hpid p hheld⟩

theorem Step.inv (hstep : s.Step e t) (h : s.Inv) : t.Inv := by
  have hview := hstep.view_inv h.view
  have hsleeping : ProcState.sleeping.Alive := by decide
  have hrunning : ProcState.running.Alive := by decide
  have hrefl : Family.Moves s.table s.table := (Family.Stirs.refl _).toMoves
  cases hstep with
  | acquiresleep hpc halive _ | holdingsleep hpc halive _ | killAcquire hpc halive _ =>
    exact h.still hview hpc ⟨rfl, rfl, rfl⟩ ⟨rfl, rfl⟩ hrefl halive trivial
  | testLocked hpc _ | sleepAcquire hpc _ | sleepRelease hpc | sched hpc | reacquire hpc _
  | wakeupAcquire hpc _ | wakeupRelease hpc | releaseRelease hpc | holdingReturn hpc
  | killRelease hpc =>
    exact h.still hview hpc ⟨rfl, rfl, rfl⟩ ⟨rfl, rfl⟩ hrefl (h.alive_of_pc hpc rfl) trivial
  | testFree hpc hzero =>
    exact h.still hview hpc ⟨rfl, rfl, rfl⟩ ⟨rfl, rfl⟩ hrefl (h.alive_of_pc hpc rfl) hzero
  | acquireSet hpc => exact h.acquireSet hpc hview
  | acquirePid hpc => exact h.acquirePid hpc hview
  | acquireRelease hpc => exact h.acquireRelease hpc hview
  | @sleepSet p hpc =>
    have halive := h.alive_of_pc hpc rfl
    have hmoves : Family.Moves s.table (s.table.modify p ({ · with chan := s.lk, state := .sleeping })) :=
      .modify halive hsleeping (by intros; exact ⟨rfl, rfl, rfl⟩)
    exact h.still hview hpc ⟨rfl, rfl, rfl⟩ ⟨rfl, rfl⟩ hmoves halive trivial
  | schedulerAcquire _ | schedulerRelease _ => exact h.setHolder hview
  | @schedule p _ hpc _ =>
    have halive := h.alive_of_pc hpc rfl
    have hmoves : Family.Moves s.table (s.table.modify p ({ · with state := .running })) :=
      .modify halive hrunning (by intros; exact ⟨rfl, rfl, rfl⟩)
    exact h.still hview hpc ⟨rfl, rfl, rfl⟩ ⟨rfl, rfl⟩ hmoves halive trivial
  | @wokenRelease p hpc =>
    have halive := h.alive_of_pc hpc rfl
    have hmoves : Family.Moves s.table (s.table.modify p ({ · with chan := .null })) :=
      .modify halive halive (by intros; exact ⟨rfl, rfl, rfl⟩)
    exact h.still hview hpc ⟨rfl, rfl, rfl⟩ ⟨rfl, rfl⟩ hmoves halive trivial
  | releasesleep hpc howns _ =>
    exact h.still hview hpc ⟨rfl, rfl, rfl⟩ ⟨rfl, rfl⟩ hrefl (h.alive _ (.inl howns)) howns
  | releaseSet hpc => exact h.releaseSet hpc hview
  | releasePid hpc => exact h.releasePid hpc hview
  | wakeup1 hpc =>
    exact h.still hview hpc ⟨rfl, rfl, rfl⟩ ⟨rfl, rfl⟩ (Family.Stirs.wake _ _).toMoves
      (h.alive_of_pc hpc rfl) trivial
  | holdingTest hpc =>
    exact h.still hview hpc ⟨rfl, rfl, rfl⟩ ⟨rfl, rfl⟩ hrefl (h.alive_of_pc hpc rfl)
      (h.holding_iff hpc)
  | kill hpc =>
    exact h.still hview hpc ⟨rfl, rfl, rfl⟩ ⟨rfl, rfl⟩ (Family.Stirs.kill _ _).toMoves
      (h.alive_of_pc hpc rfl) trivial

abbrev EventRun (s : SleeplockSys) (es : List SleeplockEvent) (t : SleeplockSys) : Prop :=
  Transition.Run Step (fun _ _ => True) s es t

theorem Start.inv (h : s.Start) : s.Inv := by
  have hview : s.view.Start := ⟨h.holder, fun p => congrArg SleeplockPc.view (h.pc p), h.sleeping⟩
  have hword : s.Word := by
    left
    rw [h.lock]
    refine ⟨rfl, ?_⟩
    intro p hp
    unfold Has at hp
    rw [h.owns, h.pc] at hp
    cases hp <;> contradiction
  refine ⟨hview.inv, hword, ?_, ?_, h.pids⟩
  . intro p
    rw [h.pc]
    trivial
  . intro p hp
    rw [h.owns, h.pc] at hp
    cases hp <;> contradiction

theorem EventRun.inv {es : List SleeplockEvent} (hrun : EventRun s es t) (h : s.Inv) : t.Inv := by
  apply hrun.invariant _ h
  intro u e v hu _ hstep
  exact hstep.inv hu

theorem Inv.nobody_sleeps (h : s.Inv) (hlk : s.holder .other = none) (hfree : s.lock.locked = 0)
    (p : ProcId)
    : ¬ ((s.table p).state = .sleeping ∧ (s.table p).chan = s.lk) := by
  rintro ⟨hsleep, hchan⟩
  rcases h.view.preScan_of_sleeping (beq_iff_eq.mpr hfree) hsleep hchan with ⟨r, hr⟩
  have hheld : s.holder .other = some (.proc r) := h.view.lk r (SleeplockPc.holdsLk_of_preScan hr)
  rw [hlk] at hheld
  contradiction

theorem sleeplock_excludes {es : List SleeplockEvent} (hstart : s.Start) (hrun : EventRun s es t)
    : (∀ p q, t.owns p = true → t.owns q = true → p = q) ∧
        (∀ p r u, t.Step (.holdingsleep p r) u → (r = true ↔ t.owns p = true)) ∧
        (t.holder .other = none → t.lock.locked = 0 →
          ∀ p, ¬ ((t.table p).state = .sleeping ∧ (t.table p).chan = t.lk)) := by
  have hinv : t.Inv := hrun.inv hstart.inv
  refine ⟨?_, ?_, hinv.nobody_sleeps⟩
  . intro p q hp hq
    apply Classical.byContradiction
    intro hne
    exact (hinv.word.held_of_has (.inl hq)).only p hne (.inl hp)
  . intro p r u hstep
    cases hstep with
    | holdingReturn hpc =>
      exact hinv.at hpc

def twoRun : SleeplockSys where
  lk := .other 0
  lock := initsleeplock
  holder := fun _ => none
  pc := fun _ => .outside
  owns := fun _ => false
  table := fun p =>
    match p with
    | 0 => { (default : Proc).life with state := .running, pid := 1 }
    | 1 => { (default : Proc).life with state := .running, pid := 2 }
    | _ => (default : Proc).life

theorem twoRun_start : twoRun.Start where
  lock := rfl
  holder := by intros; rfl
  pc := by intros; rfl
  owns := by intros; rfl
  sleeping := by decide
  pids := by decide

def lockAndKill : List SleeplockEvent :=
  [.step 0, .step 0, .step 0, .step 0, .step 0, .step 1, .step 1, .step 1, .step 1, .step 1, .step 1,
    .sched, .step 0, .step 0, .step 0]

theorem sleeplock_excludes_killed
    : ∃ t, EventRun twoRun lockAndKill t ∧ t.owns 0 = true ∧ t.pc 1 = .asleep ∧
        (t.table 1).state = .runnable ∧ ∀ p q, t.owns p = true → t.owns q = true → p = q := by
  have hrun : EventRun twoRun lockAndKill _ :=
    .cons trivial (.acquiresleep rfl (by decide) rfl) <|
    .cons trivial (.testFree rfl rfl) <|
    .cons trivial (.acquireSet rfl) <|
    .cons trivial (.acquirePid rfl) <|
    .cons trivial (.acquireRelease rfl) <|
    .cons trivial (.acquiresleep rfl (by decide) rfl) <|
    .cons trivial (.testLocked rfl (by decide)) <|
    .cons trivial (.sleepAcquire rfl rfl) <|
    .cons trivial (.sleepRelease rfl) <|
    .cons trivial (.sleepSet rfl) <|
    .cons trivial (.sched rfl) <|
    .cons trivial (.schedulerRelease rfl) <|
    .cons trivial (@Step.killAcquire _ 0 2 rfl (by decide) rfl) <|
    .cons trivial (.kill rfl) <|
    .cons trivial (.killRelease rfl) (.nil _)
  exact ⟨_, hrun, rfl, rfl, rfl, (sleeplock_excludes twoRun_start hrun).1⟩

end SleeplockSys
end Xv6
