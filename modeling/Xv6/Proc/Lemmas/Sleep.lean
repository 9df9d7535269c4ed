import Xv6.Proc.Impl.Sleep
import Xv6.Proc.Lemmas.Wait

namespace Xv6

namespace SleepPc

def holdsLk : SleepPc → Bool
  | .waitTest | .waitDone | .sleepEnter | .sleepBoth | .wakerHold | .wakerSet | .scanIn | .scannedIn
  | .wakerTail => true
  | _ => false

def holdsPtable : SleepPc → Bool
  | .sleepBoth | .sleepSet | .sleepSched | .woken | .scanIn | .scannedIn | .scanOut | .scannedOut
  | .killHold _ | .killDone => true
  | _ => false

def tested : SleepPc → Bool
  | .sleepEnter | .sleepBoth => true
  | _ => false

def falling : SleepPc → Bool
  | .sleepSet | .sleepSched => true
  | _ => false

def preScan : SleepPc → Bool
  | .wakerSet | .scanIn | .wakerFree | .scanOut => true
  | _ => false

def onChan : SleepPc → Bool
  | .sleepSched | .asleep => true
  | _ => false

-- A step between points that neither set nor need p->chan and keeps a call of wakeup due.
def Plain (old new : SleepPc) : Prop :=
  old.onChan = false ∧ new.onChan = false ∧ (!old.preScan || new.preScan) = true ∧
    (new == .woken) = false

theorem eq_of_onChan {pc : SleepPc} (h : pc.onChan = true) : pc = .sleepSched ∨ pc = .asleep := by
  cases pc with
  | sleepSched => exact .inl rfl
  | asleep => exact .inr rfl
  | _ => contradiction

theorem pending_of_preScan {pc : SleepPc} (h : pc.preScan = true) : pc.pending = true := by
  cases pc with
  | wakerSet => rfl
  | scanIn => rfl
  | wakerFree => rfl
  | scanOut => rfl
  | _ => contradiction

theorem holdsLk_of_tested {pc : SleepPc} (h : pc.tested = true) : pc.holdsLk = true := by
  cases pc with
  | sleepEnter => rfl
  | sleepBoth => rfl
  | _ => contradiction

theorem holdsPtable_of_falling {pc : SleepPc} (h : pc.falling = true) : pc.holdsPtable = true := by
  cases pc with
  | sleepSet => rfl
  | sleepSched => rfl
  | _ => contradiction

end SleepPc

namespace SleepSys

variable {s t : SleepSys} {p : ProcId} {new : SleepPc}

/--
A process that is committed to sleep while the condition holds will be seen by a `wakeup1` that is
still to come: it has tested the condition under `lk`, and from the moment it gives `lk` up until it
is SLEEPING it holds `ptable.lock`, which `wakeup1` needs.
-/
structure Inv (s : SleepSys) : Prop where
  lk : ∀ q, (s.pc q).holdsLk = true → s.holder s.lk = some (.proc q)
  ptable : ∀ q, (s.pc q).holdsPtable = true → s.holder .ptable = some (.proc q)
  tested : ∀ q, (s.pc q).tested = true → s.condition = false
  falling : ∀ q, (s.pc q).falling = true → s.condition = false ∨ ∃ r, (s.pc r).preScan = true
  asleep : ∀ q, s.pc q = .asleep → (s.table q).state = .sleeping →
    s.condition = false ∨ ∃ r, (s.pc r).preScan = true
  onChan : ∀ q, (s.pc q).onChan = true → (s.table q).chan = s.chan
  sleeping : ∀ q, (s.table q).state = .sleeping → (s.table q).chan = s.chan →
    (s.pc q).onChan = true
  woken : ∀ q, s.pc q = .woken → (s.table q).state ≠ .sleeping

theorem Inv.lk_unique (h : s.Inv) {q : ProcId} (hp : (s.pc p).holdsLk = true)
    (hq : (s.pc q).holdsLk = true)
    : q = p := by
  have heq := h.lk q hq
  rw [h.lk p hp] at heq
  cases heq
  rfl

structure Locks (s t : SleepSys) (p : ProcId) (new : SleepPc) : Prop where
  pc : t.pc = Function.update s.pc p new
  name : t.lk = s.lk
  chan : t.chan = s.chan
  others : ∀ l q, q ≠ p → s.holder l = some (.proc q) → t.holder l = some (.proc q)
  lk : new.holdsLk = true → t.holder s.lk = some (.proc p)
  ptable : new.holdsPtable = true → t.holder .ptable = some (.proc p)

namespace Locks

theorem pc_self (h : Locks s t p new) : t.pc p = new := by
  rw [h.pc, Function.update_self]

theorem pc_of_ne (h : Locks s t p new) {q : ProcId} (hq : q ≠ p) : t.pc q = s.pc q := by
  rw [h.pc, Function.update_of_ne hq]

theorem inv_lk (h : Locks s t p new) (hs : s.Inv) (q : ProcId) (hq : (t.pc q).holdsLk = true)
    : t.holder t.lk = some (.proc q) := by
  rw [h.name]
  by_cases hqp : q = p
  . subst hqp
    rw [h.pc_self] at hq
    exact h.lk hq
  . rw [h.pc_of_ne hqp] at hq
    exact h.others _ q hqp (hs.lk q hq)

theorem inv_ptable (h : Locks s t p new) (hs : s.Inv) (q : ProcId)
    (hq : (t.pc q).holdsPtable = true)
    : t.holder .ptable = some (.proc q) := by
  by_cases hqp : q = p
  . subst hqp
    rw [h.pc_self] at hq
    exact h.ptable hq
  . rw [h.pc_of_ne hqp] at hq
    exact h.others _ q hqp (hs.ptable q hq)

theorem preScan (h : Locks s t p new) (hkeep : (s.pc p).preScan = true → new.preScan = true)
    (hex : ∃ r, (s.pc r).preScan = true)
    : ∃ r, (t.pc r).preScan = true := by
  rcases hex with ⟨r, hr⟩
  refine ⟨r, ?_⟩
  by_cases hrp : r = p
  . subst hrp
    rw [h.pc_self]
    exact hkeep hr
  . rw [h.pc_of_ne hrp]
    exact hr

end Locks

/--
The step rule for the steps that do not call `wakeup1`: `p` goes to `new`, the condition does not
become true unless `p` is then a waker with its `wakeup1` to come, and nobody but `p` falls asleep.
-/
theorem Inv.goto (h : s.Inv) (hl : Locks s t p new)
    (hkeep : (s.pc p).preScan = true → new.preScan = true)
    (hcond : t.condition = true → s.condition = true ∨ (s.pc p).holdsLk = true ∧ new.preScan = true)
    (htested : new.tested = true → t.condition = false)
    (hfalling : new.falling = true → s.condition = false ∧ t.condition = false ∨
      (s.pc p).falling = true)
    (hasleep : new = .asleep → (s.pc p).falling = true)
    (hchan : new.onChan = true → (t.table p).chan = s.chan)
    (htable : ∀ q, q ≠ p → (t.table q).chan = (s.table q).chan ∧
      ((t.table q).state = .sleeping → (s.table q).state = .sleeping))
    (hsleeping : (t.table p).state = .sleeping → (t.table p).chan = s.chan → new.onChan = true)
    (hwoken : new = .woken → (t.table p).state ≠ .sleeping)
    : t.Inv := by
  -- a process that was committed to sleep still is
  have hcommit : s.condition = false ∨ (∃ r, (s.pc r).preScan = true) →
      t.condition = false ∨ ∃ r, (t.pc r).preScan = true := by
    intro hold
    by_cases htrue : t.condition = true
    . right
      cases hcond htrue with
      | inl hs =>
        cases hold with
        | inl hfalse => rw [hs] at hfalse; contradiction
        | inr hex => exact hl.preScan hkeep hex
      | inr hnew => exact ⟨p, by rw [hl.pc_self]; exact hnew.2⟩
    . exact .inl (by simpa using htrue)
  exact {
    lk := hl.inv_lk h
    ptable := hl.inv_ptable h
    tested := by
      intro q hq
      by_cases hqp : q = p
      . subst hqp
        rw [hl.pc_self] at hq
        exact htested hq
      . rw [hl.pc_of_ne hqp] at hq
        have hfalse := h.tested q hq
        by_cases htrue : t.condition = true
        . cases hcond htrue with
          | inl hs =>
            rw [hs] at hfalse
            contradiction
          | inr hnew =>
            exact absurd (h.lk_unique hnew.1 (SleepPc.holdsLk_of_tested hq)) hqp
        . simpa using htrue
    falling := by
      intro q hq
      by_cases hqp : q = p
      . subst hqp
        rw [hl.pc_self] at hq
        cases hfalling hq with
        | inl hfalse => exact .inl hfalse.2
        | inr hold => exact hcommit (h.falling q hold)
      . rw [hl.pc_of_ne hqp] at hq
        exact hcommit (h.falling q hq)
    asleep := by
      intro q hq hsleep
      by_cases hqp : q = p
      . subst hqp
        rw [hl.pc_self] at hq
        exact hcommit (h.falling q (hasleep hq))
      . rw [hl.pc_of_ne hqp] at hq
        exact hcommit (h.asleep q hq ((htable q hqp).2 hsleep))
    onChan := by
      intro q hq
      rw [hl.chan]
      by_cases hqp : q = p
      . subst hqp
        rw [hl.pc_self] at hq
        exact hchan hq
      . rw [hl.pc_of_ne hqp] at hq
        rw [(htable q hqp).1]
        exact h.onChan q hq
    sleeping := by
      intro q hq hqchan
      rw [hl.chan] at hqchan
      by_cases hqp : q = p
      . subst hqp
        rw [hl.pc_self]
        exact hsleeping hq hqchan
      . rw [hl.pc_of_ne hqp]
        rw [(htable q hqp).1] at hqchan
        exact h.sleeping q ((htable q hqp).2 hq) hqchan
    woken := by
      intro q hq
      by_cases hqp : q = p
      . subst hqp
        rw [hl.pc_self] at hq
        exact hwoken hq
      . rw [hl.pc_of_ne hqp] at hq
        intro hsleep
        exact h.woken q hq ((htable q hqp).2 hsleep) }

/--
The step rule for `wakeup1`, which runs with `ptable.lock` held.
-/
theorem Inv.scan (h : s.Inv) (hl : Locks s t p new) (hp : s.holder .ptable = some (.proc p))
    (htable : t.table = s.table.wake s.chan) (hcondition : t.condition = s.condition)
    (hnew : new.tested = false ∧ new.falling = false ∧ new.onChan = false)
    (hwoken : new ≠ .woken)
    : t.Inv := by
  have hptable : ∀ q, q ≠ p → (s.pc q).holdsPtable = false := by
    intro q hq
    by_contra hheld
    have heq := h.ptable q (by simpa using hheld)
    rw [hp] at heq
    cases heq
    exact hq rfl
  have hnotSleeping : ∀ q, (t.table q).state = .sleeping → (t.table q).chan ≠ s.chan := by
    intro q hq
    rw [htable] at hq ⊢
    rw [Family.wake_chan]
    rw [Family.wake_state] at hq
    split at hq
    . contradiction
    next hne =>
      intro hchan
      exact hne ⟨hq, hchan⟩
  exact {
    lk := hl.inv_lk h
    ptable := hl.inv_ptable h
    tested := by
      intro q hq
      rw [hcondition]
      by_cases hqp : q = p
      . subst hqp
        rw [hl.pc_self, hnew.1] at hq
        contradiction
      . rw [hl.pc_of_ne hqp] at hq
        exact h.tested q hq
    falling := by
      intro q hq
      by_cases hqp : q = p
      . subst hqp
        rw [hl.pc_self, hnew.2.1] at hq
        contradiction
      . rw [hl.pc_of_ne hqp] at hq
        have hfree := hptable q hqp
        rw [SleepPc.holdsPtable_of_falling hq] at hfree
        contradiction
    asleep := by
      intro q hq hsleep
      have hchan : (t.table q).chan = s.chan := by
        rw [htable, Family.wake_chan]
        apply h.onChan
        by_cases hqp : q = p
        . subst hqp
          rw [hl.pc_self] at hq
          rw [hq] at hnew
          simp [SleepPc.onChan] at hnew
        . rw [hl.pc_of_ne hqp] at hq
          rw [hq]
          rfl
      exact absurd hchan (hnotSleeping q hsleep)
    onChan := by
      intro q hq
      rw [hl.chan, htable, Family.wake_chan]
      by_cases hqp : q = p
      . subst hqp
        rw [hl.pc_self, hnew.2.2] at hq
        contradiction
      . rw [hl.pc_of_ne hqp] at hq
        exact h.onChan q hq
    sleeping := by
      intro q hq hchan
      rw [hl.chan] at hchan
      exact absurd hchan (hnotSleeping q hq)
    woken := by
      intro q hq
      by_cases hqp : q = p
      . subst hqp
        rw [hl.pc_self] at hq
        exact absurd hq hwoken
      . rw [hl.pc_of_ne hqp] at hq
        rw [htable]
        intro hsleep
        exact h.woken q hq ((Family.Stirs.wake s.table s.chan).asleep q hsleep).1 }

namespace Locks

theorem stay {F : Family} {b : Bool} (hlk : new.holdsLk = true → s.holder s.lk = some (.proc p))
    (hpt : new.holdsPtable = true → s.holder .ptable = some (.proc p))
    : Locks s ({ s with condition := b, table := F }.setPc p new) p new where
  pc := rfl
  name := rfl
  chan := rfl
  others := by
    intro l q _ hq
    exact hq
  lk := hlk
  ptable := hpt

theorem pass {F : Family} {l : Lock} {a : Option Agent}
    (hl : ∀ q, q ≠ p → s.holder l ≠ some (.proc q))
    (hlk : new.holdsLk = true → Function.update s.holder l a s.lk = some (.proc p))
    (hpt : new.holdsPtable = true → Function.update s.holder l a .ptable = some (.proc p))
    : Locks s (((s.setHolder l a).setTable F).setPc p new) p new where
  pc := rfl
  name := rfl
  chan := rfl
  others := by
    intro l' q hq hheld
    have hne : l' ≠ l := by
      intro heq
      rw [heq] at hheld
      exact hl q hq hheld
    show Function.update s.holder l a l' = _
    rw [Function.update_of_ne hne]
    exact hheld
  lk := hlk
  ptable := hpt

theorem acquire {F : Family} {l : Lock} (hfree : ∀ q, s.holder l ≠ some (.proc q))
    (hlk : new.holdsLk = true → s.lk = l ∨ s.holder s.lk = some (.proc p))
    (hpt : new.holdsPtable = true → l = .ptable ∨ s.holder .ptable = some (.proc p))
    : Locks s (((s.acquire l p).setTable F).setPc p new) p new := by
  apply Locks.pass
  . intro q _
    exact hfree q
  . intro hnew
    rw [Function.update_apply]
    split
    . rfl
    next hne =>
      cases hlk hnew with
      | inl heq => exact absurd heq hne
      | inr hheld => exact hheld
  . intro hnew
    rw [Function.update_apply]
    split
    . rfl
    next hne =>
      cases hpt hnew with
      | inl heq => exact absurd heq.symm hne
      | inr hheld => exact hheld

theorem release {F : Family} {l : Lock} (hheld : s.holder l = some (.proc p))
    (hlk : new.holdsLk = true → s.lk ≠ l ∧ s.holder s.lk = some (.proc p))
    (hpt : new.holdsPtable = true → l ≠ .ptable ∧ s.holder .ptable = some (.proc p))
    : Locks s (((s.release l).setTable F).setPc p new) p new := by
  apply Locks.pass
  . intro q hq heq
    rw [hheld] at heq
    cases heq
    exact hq rfl
  . intro hnew
    rw [Function.update_of_ne (hlk hnew).1]
    exact (hlk hnew).2
  . intro hnew
    rw [Function.update_of_ne (Ne.symm (hpt hnew).1)]
    exact (hpt hnew).2

end Locks

-- A step that only moves locks, outside of the part of sleep in which p->chan is set.
theorem Inv.move {old : SleepPc} (h : s.Inv) (hpc : s.pc p = old) (hplain : SleepPc.Plain old new)
    (hl : Locks s t p new) (htable : t.table = s.table) (hcond : t.condition = s.condition)
    (hfalse : new.tested = false ∧ new.falling = false ∨ s.condition = false)
    : t.Inv := by
  rcases hplain with ⟨hold, hnew, hkeep, hwoken⟩
  subst hpc
  have hasleep : new ≠ .asleep := by
    intro heq
    rw [heq] at hnew
    contradiction
  apply h.goto hl
  . intro hpre
    rw [hpre] at hkeep
    exact hkeep
  . intro htrue
    rw [hcond] at htrue
    exact .inl htrue
  . intro htested
    rw [hcond]
    cases hfalse with
    | inl hno => rw [hno.1] at htested; contradiction
    | inr hf => exact hf
  . intro hfalling
    rw [hcond]
    cases hfalse with
    | inl hno => rw [hno.2] at hfalling; contradiction
    | inr hf => exact .inl ⟨hf, hf⟩
  . intro heq
    exact absurd heq hasleep
  . intro htrue
    rw [hnew] at htrue
    contradiction
  . intro q _
    rw [htable]
    exact ⟨rfl, id⟩
  . intro hs hc
    rw [htable] at hs hc
    have hon := h.sleeping p hs hc
    rw [hold] at hon
    contradiction
  . intro heq
    rw [heq] at hwoken
    contradiction

theorem Inv.acquire {old : SleepPc} {l : Lock} (h : s.Inv) (hpc : s.pc p = old)
    (hfree : s.holder l = none) (hplain : SleepPc.Plain old new)
    (hlk : new.holdsLk = false ∨ s.lk = l ∨ old.holdsLk = true)
    (hpt : new.holdsPtable = false ∨ l = .ptable)
    (hfalse : new.tested = false ∧ new.falling = false ∨ s.condition = false)
    : ((s.acquire l p).setPc p new).Inv := by
  have hl : Locks s ((s.acquire l p).setPc p new) p new := by
    apply Locks.acquire (F := s.table)
    . intro q
      rw [hfree]
      simp
    . intro hnew
      rcases hlk with hno | heq | hheld
      . rw [hno] at hnew
        contradiction
      . exact .inl heq
      . right
        apply h.lk
        rwa [hpc]
    . intro hnew
      rcases hpt with hno | heq
      . rw [hno] at hnew
        contradiction
      . exact .inl heq
  exact h.move hpc hplain hl rfl rfl hfalse

theorem Inv.release {old : SleepPc} {l : Lock} (h : s.Inv) (hpc : s.pc p = old)
    (hheld : s.lk = l ∧ old.holdsLk = true ∨ l = .ptable ∧ old.holdsPtable = true)
    (hplain : SleepPc.Plain old new)
    (hlk : new.holdsLk = false ∨ s.lk ≠ l ∧ old.holdsLk = true)
    (hpt : new.holdsPtable = false ∨ l ≠ .ptable ∧ old.holdsPtable = true)
    (hfalse : new.tested = false ∧ new.falling = false ∨ s.condition = false)
    : ((s.release l).setPc p new).Inv := by
  have hl : Locks s ((s.release l).setPc p new) p new := by
    apply Locks.release (F := s.table)
    . rcases hheld with ⟨rfl, hold⟩ | ⟨rfl, hold⟩
      . apply h.lk
        rwa [hpc]
      . apply h.ptable
        rwa [hpc]
    . intro hnew
      rcases hlk with hno | ⟨hne, hold⟩
      . rw [hno] at hnew
        contradiction
      . refine ⟨hne, ?_⟩
        apply h.lk
        rwa [hpc]
    . intro hnew
      rcases hpt with hno | ⟨hne, hold⟩
      . rw [hno] at hnew
        contradiction
      . refine ⟨hne, ?_⟩
        apply h.ptable
        rwa [hpc]
  exact h.move hpc hplain hl rfl rfl hfalse

theorem Inv.test {old : SleepPc} (h : s.Inv) (hpc : s.pc p = old) (hplain : SleepPc.Plain old new)
    (hold : old.holdsLk = true) (hpt : new.holdsPtable = false ∨ s.lk = .ptable)
    (hfalse : new.tested = false ∧ new.falling = false ∨ s.condition = false)
    : (s.setPc p new).Inv := by
  have hheld : s.holder s.lk = some (.proc p) := by
    apply h.lk
    rwa [hpc]
  have hl : Locks s (s.setPc p new) p new := by
    apply Locks.stay (F := s.table) (b := s.condition)
    . intro _
      exact hheld
    . intro hnew
      rcases hpt with hno | heq
      . rw [hno] at hnew
        contradiction
      . rw [← heq]
        exact hheld
  exact h.move hpc hplain hl rfl rfl hfalse

theorem Inv.scheduler (h : s.Inv) (hfree : ∀ q, s.holder .ptable ≠ some (.proc q)) (a : Option Agent)
    : (s.setHolder .ptable a).Inv where
  lk := by
    intro q hq
    have hheld := h.lk q hq
    show Function.update s.holder .ptable a s.lk = _
    rw [Function.update_of_ne]
    . exact hheld
    . intro heq
      rw [heq] at hheld
      exact hfree q hheld
  ptable := by
    intro q hq
    exact absurd (h.ptable q hq) (hfree q)
  tested := h.tested
  falling := h.falling
  asleep := h.asleep
  onChan := h.onChan
  sleeping := h.sleeping
  woken := h.woken

theorem Inv.spoil (h : s.Inv) : { s with condition := false }.Inv where
  lk := h.lk
  ptable := h.ptable
  tested := by intros; rfl
  falling := by
    intro q _
    exact .inl rfl
  asleep := by
    intro q _ _
    exact .inl rfl
  onChan := h.onChan
  sleeping := h.sleeping
  woken := h.woken

theorem Inv.sleepSet (h : s.Inv) (hpc : s.pc p = .sleepSet)
    : ((s.setTable (s.table.modify p ({ · with chan := s.chan, state := .sleeping }))).setPc p
        .sleepSched).Inv := by
  have hpt : s.holder .ptable = some (.proc p) := h.ptable p (by rw [hpc]; rfl)
  apply h.goto (Locks.stay (b := s.condition) (by nofun) (fun _ => hpt))
  . rw [hpc]
    nofun
  . exact .inl
  . nofun
  . intro _
    right
    rw [hpc]
    rfl
  . nofun
  . simp [setPc]
  . intro q hq
    simp [setPc, hq]
  . intros
    rfl
  . nofun

theorem Inv.sched (h : s.Inv) (hpc : s.pc p = .sleepSched)
    : ((s.setHolder .ptable (some .sched)).setPc p .asleep).Inv := by
  have hpt : s.holder .ptable = some (.proc p) := h.ptable p (by rw [hpc]; rfl)
  have hl : Locks s ((s.setHolder .ptable (some .sched)).setPc p .asleep) p .asleep := by
    refine Locks.pass (F := s.table) ?_ nofun nofun
    intro q hq heq
    rw [hpt] at heq
    cases heq
    exact hq rfl
  apply h.goto hl
  . rw [hpc]
    nofun
  . exact .inl
  . nofun
  . nofun
  . intro _
    rw [hpc]
    rfl
  . intro _
    apply h.onChan
    rw [hpc]
    rfl
  . intro q _
    exact ⟨rfl, id⟩
  . intros
    rfl
  . nofun

theorem Inv.schedule (h : s.Inv) (hl : s.holder .ptable = some .sched) (hpc : s.pc p = .asleep)
    : (((s.acquire .ptable p).setTable (s.table.modify p ({ · with state := .running }))).setPc p
        .woken).Inv := by
  apply h.goto (Locks.acquire (by rw [hl]; simp) (by nofun) (fun _ => .inl rfl))
  . rw [hpc]
    nofun
  . exact .inl
  . nofun
  . nofun
  . nofun
  . nofun
  . intro q hq
    simp [setPc, setTable, hq]
  . simp [setPc, setTable]
  . simp [setPc, setTable]

theorem Inv.woken_goto (h : s.Inv) (hpc : s.pc p = .woken)
    (hl : Locks s t p new) (htable : t.table = s.table.modify p ({ · with chan := .null }))
    (hcond : t.condition = s.condition)
    (hnew : new.tested = false ∧ new.falling = false ∧ new.onChan = false) (hwoken : new ≠ .woken)
    : t.Inv := by
  have hawake := h.woken p hpc
  apply h.goto hl
  . rw [hpc]
    nofun
  . intro htrue
    rw [hcond] at htrue
    exact .inl htrue
  . intro htested
    rw [hnew.1] at htested
    contradiction
  . intro hfalling
    rw [hnew.2.1] at hfalling
    contradiction
  . intro heq
    rw [heq] at hnew
    exact absurd hnew.2.2 nofun
  . intro hon
    rw [hnew.2.2] at hon
    contradiction
  . intro q hq
    simp [htable, hq]
  . intro hsleep
    simp [htable, hawake] at hsleep
  . intro heq
    exact absurd heq hwoken

theorem Inv.makeTrue (h : s.Inv) (hpc : s.pc p = .wakerHold)
    : ({ s with condition := true }.setPc p .wakerSet).Inv := by
  have hlk : s.holder s.lk = some (.proc p) := h.lk p (by rw [hpc]; rfl)
  apply h.goto (Locks.stay (F := s.table) (b := true) (fun _ => hlk) (by nofun))
  . intro _
    rfl
  . intro _
    right
    rw [hpc]
    exact ⟨rfl, rfl⟩
  . nofun
  . nofun
  . nofun
  . nofun
  . intro q _
    exact ⟨rfl, id⟩
  . intro hsleep hchan
    have hon := h.sleeping p hsleep hchan
    rw [hpc] at hon
    contradiction
  . nofun

theorem Inv.kill {pid : BitVec 32} (h : s.Inv) (hpc : s.pc p = .killHold pid)
    : ((s.setTable (s.table.kill pid)).setPc p .killDone).Inv := by
  have hpt : s.holder .ptable = some (.proc p) := h.ptable p (by rw [hpc]; rfl)
  have hstirs := Family.Stirs.kill s.table pid
  have hchan : ∀ q, (s.table.kill pid q).chan = (s.table q).chan := s.table.kill_chan pid
  apply h.goto (Locks.stay (b := s.condition) (by nofun) (fun _ => hpt))
  . rw [hpc]
    nofun
  . exact .inl
  . nofun
  . nofun
  . nofun
  . nofun
  . intro q _
    exact ⟨hchan q, fun hsleep => (hstirs.asleep q hsleep).1⟩
  . intro hsleep hc
    have hon := h.sleeping p (hstirs.asleep p hsleep).1 ((hchan p).symm.trans hc)
    rw [hpc] at hon
    contradiction
  . nofun

theorem Step.inv {a : Option ProcId} (hstep : s.Step a t) (h : s.Inv) : t.Inv := by
  have hfalse : ∀ {p}, (s.pc p).tested = true → s.condition = false := fun {p} => h.tested p
  have hlk : ∀ {p pc}, s.pc p = pc → pc.holdsLk = true → s.holder s.lk = some (.proc p) := by
    intro p pc hpc hheld
    apply h.lk
    rwa [hpc]
  have hpt : ∀ {p pc}, s.pc p = pc → pc.holdsPtable = true → s.holder .ptable = some (.proc p) := by
    intro p pc hpc hheld
    apply h.ptable
    rwa [hpc]
  cases hstep with
  | waitAcquire hpc hl =>
    exact h.acquire hpc hl ⟨rfl, rfl, rfl, rfl⟩ (.inr (.inl rfl)) (.inl rfl) (.inl ⟨rfl, rfl⟩)
  | testTrue hpc _ => exact h.test hpc ⟨rfl, rfl, rfl, rfl⟩ rfl (.inl rfl) (.inl ⟨rfl, rfl⟩)
  | testFalse hpc hf => exact h.test hpc ⟨rfl, rfl, rfl, rfl⟩ rfl (.inl rfl) (.inr hf)
  | giveUp hpc _ => exact h.test hpc ⟨rfl, rfl, rfl, rfl⟩ rfl (.inl rfl) (.inl ⟨rfl, rfl⟩)
  | spoil => exact h.spoil
  | waitRelease hpc =>
    exact h.release hpc (.inl ⟨rfl, rfl⟩) ⟨rfl, rfl, rfl, rfl⟩ (.inl rfl) (.inl rfl) (.inl ⟨rfl, rfl⟩)
  | sleepSame hpc hsame =>
    exact h.test hpc ⟨rfl, rfl, rfl, rfl⟩ rfl (.inr hsame) (.inr (hfalse (by rw [hpc]; rfl)))
  | sleepAcquire hpc _ hl =>
    exact h.acquire hpc hl ⟨rfl, rfl, rfl, rfl⟩ (.inr (.inr rfl)) (.inr rfl)
      (.inr (hfalse (by rw [hpc]; rfl)))
  | sleepRelease hpc hne =>
    exact h.release hpc (.inl ⟨rfl, rfl⟩) ⟨rfl, rfl, rfl, rfl⟩ (.inl rfl) (.inr ⟨hne, rfl⟩)
      (.inr (hfalse (by rw [hpc]; rfl)))
  | sleepSet hpc => exact h.sleepSet hpc
  | sched hpc => exact h.sched hpc
  | schedulerAcquire hl => exact h.scheduler (by simp [hl]) _
  | schedulerRelease hl => exact h.scheduler (by simp [hl]) _
  | schedule hl hpc _ => exact h.schedule hl hpc
  | wokenSame hpc hsame =>
    refine h.woken_goto hpc (Locks.stay (b := s.condition) ?_ (by nofun)) rfl rfl ⟨rfl, rfl, rfl⟩ (by nofun)
    intro _
    rw [hsame]
    exact hpt hpc rfl
  | wokenRelease hpc _ =>
    exact h.woken_goto hpc (Locks.release (hpt hpc rfl) (by nofun) (by nofun)) rfl rfl ⟨rfl, rfl, rfl⟩ (by nofun)
  | reacquire hpc hl =>
    exact h.acquire hpc hl ⟨rfl, rfl, rfl, rfl⟩ (.inr (.inl rfl)) (.inl rfl) (.inl ⟨rfl, rfl⟩)
  | wakerAcquire hpc hl =>
    exact h.acquire hpc hl ⟨rfl, rfl, rfl, rfl⟩ (.inr (.inl rfl)) (.inl rfl) (.inl ⟨rfl, rfl⟩)
  | wakerLeave hpc =>
    exact h.release hpc (.inl ⟨rfl, rfl⟩) ⟨rfl, rfl, rfl, rfl⟩ (.inl rfl) (.inl rfl) (.inl ⟨rfl, rfl⟩)
  | makeTrue hpc => exact h.makeTrue hpc
  | @wakeup1 p hpc hsame =>
    have hheld : s.holder .ptable = some (.proc p) := by
      rw [← hsame]
      exact hlk hpc rfl
    exact h.scan (Locks.stay (b := s.condition) (fun _ => hlk hpc rfl) (by nofun)) hheld rfl rfl
      ⟨rfl, rfl, rfl⟩ (by nofun)
  | wakeupIn hpc _ hl =>
    exact h.acquire hpc hl ⟨rfl, rfl, rfl, rfl⟩ (.inr (.inr rfl)) (.inr rfl) (.inl ⟨rfl, rfl⟩)
  | scanIn hpc =>
    exact h.scan (Locks.stay (b := s.condition) (fun _ => hlk hpc rfl) (fun _ => hpt hpc rfl))
      (hpt hpc rfl) rfl rfl ⟨rfl, rfl, rfl⟩ (by nofun)
  | releaseIn hpc hne =>
    exact h.release hpc (.inr ⟨rfl, rfl⟩) ⟨rfl, rfl, rfl, rfl⟩ (.inr ⟨hne, rfl⟩) (.inl rfl)
      (.inl ⟨rfl, rfl⟩)
  | tailRelease hpc =>
    exact h.release hpc (.inl ⟨rfl, rfl⟩) ⟨rfl, rfl, rfl, rfl⟩ (.inl rfl) (.inl rfl) (.inl ⟨rfl, rfl⟩)
  | wakerRelease hpc =>
    exact h.release hpc (.inl ⟨rfl, rfl⟩) ⟨rfl, rfl, rfl, rfl⟩ (.inl rfl) (.inl rfl) (.inl ⟨rfl, rfl⟩)
  | wakeupOut hpc hl =>
    exact h.acquire hpc hl ⟨rfl, rfl, rfl, rfl⟩ (.inl rfl) (.inr rfl) (.inl ⟨rfl, rfl⟩)
  | scanOut hpc =>
    exact h.scan (Locks.stay (b := s.condition) (by nofun) (fun _ => hpt hpc rfl)) (hpt hpc rfl) rfl rfl
      ⟨rfl, rfl, rfl⟩ (by nofun)
  | releaseOut hpc =>
    exact h.release hpc (.inr ⟨rfl, rfl⟩) ⟨rfl, rfl, rfl, rfl⟩ (.inl rfl) (.inl rfl) (.inl ⟨rfl, rfl⟩)
  | killAcquire hpc hl =>
    exact h.acquire hpc hl ⟨rfl, rfl, rfl, rfl⟩ (.inl rfl) (.inr rfl) (.inl ⟨rfl, rfl⟩)
  | kill hpc => exact h.kill hpc
  | killRelease hpc =>
    exact h.release hpc (.inr ⟨rfl, rfl⟩) ⟨rfl, rfl, rfl, rfl⟩ (.inl rfl) (.inl rfl) (.inl ⟨rfl, rfl⟩)

abbrev EventRun (s : SleepSys) (es : List (Option ProcId)) (t : SleepSys) : Prop :=
  Transition.Run Step (fun _ _ => True) s es t

theorem Start.inv (h : s.Start) : s.Inv where
  lk := by
    intro q hq
    rw [h.pc] at hq
    contradiction
  ptable := by
    intro q hq
    rw [h.pc] at hq
    contradiction
  tested := by
    intro q hq
    rw [h.pc] at hq
    contradiction
  falling := by
    intro q hq
    rw [h.pc] at hq
    contradiction
  asleep := by
    intro q hq
    rw [h.pc] at hq
    contradiction
  onChan := by
    intro q hq
    rw [h.pc] at hq
    contradiction
  sleeping := by
    intro q hq hchan
    exact absurd hchan (h.sleeping q hq)
  woken := by
    intro q hq
    rw [h.pc] at hq
    contradiction

theorem Inv.preScan_of_sleeping (h : s.Inv) (htrue : s.condition = true)
    (hsleep : (s.table p).state = .sleeping) (hchan : (s.table p).chan = s.chan)
    : ∃ r, (s.pc r).preScan = true := by
  have hcommitted : s.condition = false ∨ ∃ r, (s.pc r).preScan = true := by
    cases SleepPc.eq_of_onChan (h.sleeping p hsleep hchan) with
    | inl hpc =>
      apply h.falling p
      rw [hpc]
      rfl
    | inr hpc => exact h.asleep p hpc hsleep
  cases hcommitted with
  | inl hfalse =>
    rw [htrue] at hfalse
    contradiction
  | inr hex => exact hex

theorem no_lost_wakeup {es : List (Option ProcId)} (hstart : s.Start) (hrun : EventRun s es t)
    : ¬ (t.condition = true ∧ (∀ q, (t.pc q).pending = false) ∧
        ∃ p, (t.table p).state = .sleeping ∧ (t.table p).chan = t.chan) := by
  have hinv : t.Inv := by
    apply hrun.invariant _ hstart.inv
    intro u e v hu _ hstep
    exact hstep.inv hu
  rintro ⟨htrue, hpending, p, hsleep, hchan⟩
  rcases hinv.preScan_of_sleeping htrue hsleep hchan with ⟨r, hr⟩
  have hnot := hpending r
  rw [SleepPc.pending_of_preScan hr] at hnot
  contradiction

def running : SleepSys where
  lk := .other
  chan := .other 0
  condition := false
  holder := fun _ => none
  pc := fun _ => .outside
  table := fun _ => { (default : Proc).life with state := .running }

theorem running_start : running.Start where
  holder := by intros; rfl
  pc := by intros; rfl
  sleeping := by
    intro p hp
    cases hp

theorem no_lost_wakeup_running
    : ∃ t, EventRun running
        [some 0, some 0, some 0, some 0, some 0, some 0, none, some 1, some 1, some 1, some 1, some 1,
          some 1] t ∧
        t.condition = true ∧ t.pc 0 = .asleep ∧
          ¬ (t.condition = true ∧ (∀ q, (t.pc q).pending = false) ∧
            ∃ p, (t.table p).state = .sleeping ∧ (t.table p).chan = t.chan) := by
  have hrun : EventRun running
      [some 0, some 0, some 0, some 0, some 0, some 0, none, some 1, some 1, some 1, some 1, some 1,
        some 1] _ :=
    .cons trivial (.waitAcquire rfl rfl) <|
    .cons trivial (.testFalse rfl rfl) <|
    .cons trivial (.sleepAcquire rfl nofun rfl) <|
    .cons trivial (.sleepRelease rfl nofun) <|
    .cons trivial (.sleepSet rfl) <|
    .cons trivial (.sched rfl) <|
    .cons trivial (.schedulerRelease rfl) <|
    .cons trivial (.wakerAcquire rfl rfl) <|
    .cons trivial (.makeTrue rfl) <|
    .cons trivial (.wakeupIn rfl nofun rfl) <|
    .cons trivial (.scanIn rfl) <|
    .cons trivial (.releaseIn rfl nofun) <|
    .cons trivial (.tailRelease rfl) (.nil _)
  exact ⟨_, hrun, rfl, rfl, no_lost_wakeup running_start hrun⟩

end SleepSys
end Xv6
