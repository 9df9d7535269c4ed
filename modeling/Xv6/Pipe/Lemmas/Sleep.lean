import Xv6.Pipe.Lemmas.Fifo

/-!
Who sleeps on a pipe, in the states in which `p->lock` is free.
-/

namespace Xv6

namespace Pipe

variable {p : Pipe} {killed : Bool}

theorem pipewrite_flags (killed : Bool) (rest : List Byte) (p : Pipe)
    : (p.pipewrite killed rest).2.2.readopen = p.readopen ∧
        (p.pipewrite killed rest).2.2.writeopen = p.writeopen := by
  induction rest generalizing p with
  | nil => exact ⟨rfl, rfl⟩
  | cons b rest ih =>
    unfold pipewrite
    split
    . split <;> exact ⟨rfl, rfl⟩
    . exact ih (p.put b)

theorem pipewrite_full (hfull : p.Full) (rest : List Byte)
    : (p.pipewrite killed rest).2.2 = p := by
  cases rest with
  | nil => rfl
  | cons b rest =>
    unfold pipewrite
    rw [if_pos hfull]
    split <;> rfl

theorem pipewrite_sleeps (rest : List Byte) (p : Pipe)
    (h : (p.pipewrite killed rest).1 = .sleeps)
    : (p.pipewrite killed rest).2.2.Full ∧ p.readopen = true := by
  induction rest generalizing p with
  | nil => contradiction
  | cons b rest ih =>
    unfold pipewrite at h ⊢
    split at h
    next hfull =>
      rw [if_pos hfull]
      split at h
      . contradiction
      next hgo =>
        rw [if_neg hgo]
        rw [not_or, Bool.not_eq_false] at hgo
        exact ⟨hfull, hgo.1⟩
    next hfull =>
      rw [if_neg hfull]
      exact ih (p.put b) h

theorem pipewrite_fails (rest : List Byte) (p : Pipe) (h : (p.pipewrite killed rest).1 = .fails)
    : (p.pipewrite killed rest).2.2.Full ∧ (p.readopen = false ∨ killed = true) := by
  induction rest generalizing p with
  | nil => contradiction
  | cons b rest ih =>
    unfold pipewrite at h ⊢
    split at h
    next hfull =>
      rw [if_pos hfull]
      split at h
      next hgive =>
        rw [if_pos hgive]
        exact ⟨hfull, hgive⟩
      . contradiction
    next hfull =>
      rw [if_neg hfull]
      exact ih (p.put b) h

theorem pipewrite_killed (rest : List Byte) (p : Pipe) (q : List Byte) (h : p.Holds q)
    (hrest : PIPESIZE < q.length + rest.length)
    : (p.pipewrite true rest).1 = .fails := by
  induction rest generalizing p q with
  | nil =>
    have := h.length_le
    simp only [List.length_nil] at hrest
    omega
  | cons b rest ih =>
    unfold pipewrite
    split
    . simp
    next hfull =>
      apply ih (p.put b) (q ++ [b]) (h.put hfull b)
      simp only [List.length_append, List.length_cons, List.length_nil] at hrest ⊢
      omega

theorem pipewrite_fits (rest : List Byte) (p : Pipe)
    (h : (p.nwrite - p.nread).toNat + rest.length ≤ PIPESIZE)
    : (p.pipewrite killed rest).1 = .returns := by
  induction rest generalizing p with
  | nil => rfl
  | cons b rest ih =>
    rw [List.length_cons, show PIPESIZE = 512 from rfl] at h
    unfold pipewrite
    rw [if_neg]
    . apply ih (p.put b)
      show (p.nwrite + 1 - p.nread).toNat + rest.length ≤ 512
      bv_omega
    . unfold Full
      rw [show PIPESIZE = 512 from rfl]
      bv_omega

theorem Full.not_empty (h : p.Full) : ¬ p.Empty := by
  intro hempty
  unfold Full at h
  unfold Empty at hempty
  rw [hempty, show PIPESIZE = 512 from rfl] at h
  bv_omega

theorem pipereadCopy_flags (n : Nat) (p : Pipe)
    : (p.pipereadCopy n).2.readopen = p.readopen ∧ (p.pipereadCopy n).2.writeopen = p.writeopen := by
  induction n generalizing p with
  | zero => exact ⟨rfl, rfl⟩
  | succ n ih =>
    unfold pipereadCopy
    split
    . exact ⟨rfl, rfl⟩
    . exact ih p.skip

end Pipe

namespace PipeSys

variable {ι : Type} {s t : PipeSys ι}

/--
Nobody sleeps on a pipe that is ready.
-/
structure Quiet (s : PipeSys ι) : Prop where
  reader : ∀ p n, s.pc p = .reading n true → s.pipe.Empty ∧ s.pipe.writeopen = true
  writer : ∀ p call rest, s.pc p = .writing call rest true →
    s.pipe.Full ∧ s.pipe.readopen = true

structure SleepInv (s : PipeSys ι) : Prop extends Quiet s where
  readopen : ∀ p, (s.pc p).Reading → s.pipe.readopen = true
  writeopen : ∀ p, (s.pc p).Writing → s.pipe.writeopen = true

-- the bytes of a killed writer fit, or it stores none of them, or no reader waits for them
def GivesUpAtOnce (s : PipeSys ι) : PipeEvent ι → Prop
  | .runWrite p => ∀ call rest, s.pc p = .writing call rest false → s.killed p = true →
      (s.pipe.nwrite - s.pipe.nread).toNat + rest.length ≤ PIPESIZE ∨ s.pipe.Full ∨
        ∀ r n, s.pc r ≠ .reading n true
  | _ => True

@[simp]
theorem wakeReader_reading {pc : PipePc} : pc.wakeReader.Reading ↔ pc.Reading := by
  cases pc <;> rfl

@[simp]
theorem wakeReader_writing {pc : PipePc} : pc.wakeReader.Writing ↔ pc.Writing := by
  cases pc <;> rfl

@[simp]
theorem wakeWriter_reading {pc : PipePc} : pc.wakeWriter.Reading ↔ pc.Reading := by
  cases pc <;> rfl

@[simp]
theorem wakeWriter_writing {pc : PipePc} : pc.wakeWriter.Writing ↔ pc.Writing := by
  cases pc <;> rfl

theorem wakeReader_ne {pc : PipePc} {n : Nat} : pc.wakeReader ≠ .reading n true := by
  cases pc <;> simp [PipePc.wakeReader]

theorem wakeReader_eq_writing {pc : PipePc} {call : Nat} {rest : List Byte} {b : Bool}
    (h : pc.wakeReader = .writing call rest b)
    : pc = .writing call rest b := by
  cases pc with
  | idle => exact h
  | writing => exact h
  | reading => cases h

theorem wakeWriter_ne {pc : PipePc} {call : Nat} {rest : List Byte}
    : pc.wakeWriter ≠ .writing call rest true := by
  cases pc <;> simp [PipePc.wakeWriter]

theorem wakeWriter_eq_reading {pc : PipePc} {n : Nat} {b : Bool}
    (h : pc.wakeWriter = .reading n b)
    : pc = .reading n b := by
  cases pc with
  | idle => exact h
  | writing => cases h
  | reading => exact h

-- `wakeup(&p->nread)` after a change of the pipe that no sleeping writer notices
theorem SleepInv.wakeupRead {s : PipeSys ι} {q : Pipe} (h : s.SleepInv)
    (hread : q.readopen = s.pipe.readopen)
    (hwrite : (∃ p, (s.pc p).Writing) → q.writeopen = s.pipe.writeopen)
    (hfull : s.pipe.Full → q.Full)
    : (s.setPipe q).wakeupRead.SleepInv := by
  constructor
  . constructor
    . intro r n hr
      exact absurd hr wakeReader_ne
    . intro r call rest hr
      rcases h.writer r call rest (wakeReader_eq_writing hr) with ⟨hf, ho⟩
      exact ⟨hfull hf, hread.trans ho⟩
  . intro r hr
    exact hread.trans (h.readopen r (wakeReader_reading.mp hr))
  . intro r hr
    have hw := wakeReader_writing.mp hr
    exact (hwrite ⟨r, hw⟩).trans (h.writeopen r hw)

theorem SleepInv.wakeupWrite {s : PipeSys ι} {q : Pipe} (h : s.SleepInv)
    (hwrite : q.writeopen = s.pipe.writeopen)
    (hread : (∃ p, (s.pc p).Reading) → q.readopen = s.pipe.readopen)
    (hempty : s.pipe.Empty → s.pipe.writeopen = true → q.Empty)
    : (s.setPipe q).wakeupWrite.SleepInv := by
  constructor
  . constructor
    . intro r n hr
      rcases h.reader r n (wakeWriter_eq_reading hr) with ⟨he, ho⟩
      exact ⟨hempty he ho, hwrite.trans ho⟩
    . intro r call rest hr
      exact absurd hr wakeWriter_ne
  . intro r hr
    have hr' := wakeWriter_reading.mp hr
    exact (hread ⟨r, hr'⟩).trans (h.readopen r hr')
  . intro r hr
    exact hwrite.trans (h.writeopen r (wakeWriter_writing.mp hr))

theorem Start.sleepInv (h : s.Start) : s.SleepInv where
  reader := by simp [h.pc]
  writer := by simp [h.pc]
  readopen := by
    intro p _
    exact h.readopen
  writeopen := by
    intro p _
    exact h.writeopen

variable [DecidableEq ι]

theorem SleepInv.setPc (h : s.SleepInv) (p : ι) (pc : PipePc)
    (hreader : ∀ n, pc = .reading n true → s.pipe.Empty ∧ s.pipe.writeopen = true)
    (hwriter : ∀ call rest, pc = .writing call rest true → s.pipe.Full ∧ s.pipe.readopen = true)
    (hreading : pc.Reading → s.pipe.readopen = true)
    (hwriting : pc.Writing → s.pipe.writeopen = true)
    : (s.setPc p pc).SleepInv := by
  have hcases : ∀ r, (s.setPc p pc).pc r = pc ∨ (s.setPc p pc).pc r = s.pc r := by
    intro r
    by_cases hr : r = p
    . subst hr
      exact .inl (Function.update_self ..)
    . exact .inr (Function.update_of_ne hr ..)
  constructor
  . constructor
    . intro r n hr
      rcases hcases r with heq | heq <;> rw [heq] at hr
      . exact hreader n hr
      . exact h.reader r n hr
    . intro r call rest hr
      rcases hcases r with heq | heq <;> rw [heq] at hr
      . exact hwriter call rest hr
      . exact h.writer r call rest hr
  . intro r hr
    rcases hcases r with heq | heq <;> rw [heq] at hr
    . exact hreading hr
    . exact h.readopen r hr
  . intro r hr
    rcases hcases r with heq | heq <;> rw [heq] at hr
    . exact hwriting hr
    . exact h.writeopen r hr

theorem SleepInv.afterWrite (h : s.SleepInv) {p : ι} {call : Nat} {rest : List Byte}
    (hp : s.pc p = .writing call rest false)
    (hok : s.killed p = true →
      (s.pipe.nwrite - s.pipe.nread).toNat + rest.length ≤ PIPESIZE ∨ s.pipe.Full ∨
        ∀ r n, s.pc r ≠ .reading n true)
    : (s.afterWrite p call rest (s.pipe.pipewrite (s.killed p) rest)).SleepInv := by
  have hflags := Pipe.pipewrite_flags (s.killed p) rest s.pipe
  have hfull : s.pipe.Full → (s.pipe.pipewrite (s.killed p) rest).2.2 = s.pipe :=
    fun hf => Pipe.pipewrite_full hf rest
  have hsleeps : (s.pipe.pipewrite (s.killed p) rest).1 = .sleeps → _ :=
    Pipe.pipewrite_sleeps rest s.pipe
  have hfails : (s.pipe.pipewrite (s.killed p) rest).1 = .fails → _ :=
    Pipe.pipewrite_fails rest s.pipe
  have hunchanged : (s.pipe.pipewrite (s.killed p) rest).1 = .fails → s.killed p = true →
      (∃ r n, s.pc r = .reading n true) → s.pipe.Full := by
    rintro hf hk ⟨r, n, hr⟩
    rcases hok hk with hfits | hfull | hnone
    . rw [Pipe.pipewrite_fits rest s.pipe hfits] at hf
      contradiction
    . exact hfull
    . exact absurd hr (hnone r n)
  have hwriteopen : s.pipe.writeopen = true := by
    apply h.writeopen p
    rw [hp]
    trivial
  generalize s.pipe.pipewrite (s.killed p) rest = out at hflags hfull hsleeps hfails hunchanged
  rcases out with ⟨res, rest', q⟩
  dsimp only at hflags hfull hsleeps hfails hunchanged
  have hrecord : (s.record call rest rest').SleepInv :=
    ⟨⟨h.reader, h.writer⟩, h.readopen, h.writeopen⟩
  have hwoken : ((s.record call rest rest').setPipe q).wakeupRead.SleepInv := by
    apply hrecord.wakeupRead hflags.1 (fun _ => hflags.2)
    intro hf
    rw [hfull hf]
    exact hf
  cases res with
  | returns =>
    have hset := hwoken.setPc p .idle (by simp) (by simp) (by simp [PipePc.Reading])
      (by simp [PipePc.Writing])
    exact ⟨⟨hset.reader, hset.writer⟩, hset.readopen, hset.writeopen⟩
  | sleeps =>
    rcases hsleeps rfl with ⟨hf, ho⟩
    apply hwoken.setPc
    . simp
    . intro _ _ _
      exact ⟨hf, hflags.1.trans ho⟩
    . simp [PipePc.Reading]
    . intro _
      exact hflags.2.trans hwriteopen
  | fails =>
    -- nobody is woken: the pipe is as it was, or no reader sleeps
    have hkeeps : (∃ r n, s.pc r = .reading n true) → q = s.pipe := by
      rintro ⟨r, n, hr⟩
      cases (hfails rfl).2 with
      | inl hclosed =>
        rw [h.readopen r (by rw [hr]; trivial)] at hclosed
        contradiction
      | inr hk => exact hfull (hunchanged rfl hk ⟨r, n, hr⟩)
    have hinv : ((s.record call rest rest').setPipe q).SleepInv := by
      constructor
      . constructor
        . intro r n hr
          have hr' : s.pc r = .reading n true := hr
          have hq := hkeeps ⟨r, n, hr'⟩
          subst hq
          exact h.reader r n hr'
        . intro r c x hr
          rcases h.writer r c x hr with ⟨hf, ho⟩
          have hq := hfull hf
          subst hq
          exact ⟨hf, ho⟩
      . intro r hr
        exact hflags.1.trans (h.readopen r hr)
      . intro r hr
        exact hflags.2.trans (h.writeopen r hr)
    apply hinv.setPc
    . simp
    . simp
    . simp [PipePc.Reading]
    . simp [PipePc.Writing]

theorem SleepInv.afterRead (h : s.SleepInv) {p : ι} {n : Nat} (hp : s.pc p = .reading n false)
    : (s.afterRead p n (s.pipe.piperead (s.killed p) n)).SleepInv := by
  have hreadopen : s.pipe.readopen = true := by
    apply h.readopen p
    rw [hp]
    trivial
  unfold Pipe.piperead
  split
  next hwait =>
    split
    . apply SleepInv.setPc (s := s.setPipe s.pipe) h
      . simp
      . simp
      . simp [PipePc.Reading]
      . simp [PipePc.Writing]
    . apply SleepInv.setPc (s := s.setPipe s.pipe) h
      . intro _ _
        exact hwait
      . simp
      . intro _
        exact hreadopen
      . simp [PipePc.Writing]
  next hgo =>
    have hflags := Pipe.pipereadCopy_flags n s.pipe
    generalize s.pipe.pipereadCopy n = out at hflags
    rcases out with ⟨addr, q⟩
    dsimp only at hflags
    have hwoken : (s.setPipe q).wakeupWrite.SleepInv := by
      apply h.wakeupWrite hflags.2 (fun _ => hflags.1)
      intro he ho
      exact absurd ⟨he, ho⟩ hgo
    have hset := hwoken.setPc p .idle (by simp) (by simp) (by simp [PipePc.Reading])
      (by simp [PipePc.Writing])
    exact ⟨⟨hset.reader, hset.writer⟩, hset.readopen, hset.writeopen⟩

theorem Step.sleepInv {e : PipeEvent ι} (hstep : s.Step e t) (h : s.SleepInv)
    (hok : s.GivesUpAtOnce e)
    : t.SleepInv := by
  cases hstep with
  | @write p addr _ hopen =>
    have hcalls : { s with calls := s.calls ++ [addr] }.SleepInv :=
      ⟨⟨h.reader, h.writer⟩, h.readopen, h.writeopen⟩
    apply hcalls.setPc
    . simp
    . simp
    . simp [PipePc.Reading]
    . intro _
      exact hopen
  | read _ hopen =>
    apply h.setPc
    . simp
    . simp
    . intro _
      exact hopen
    . simp [PipePc.Writing]
  | @runWrite p call rest hp => exact h.afterWrite hp (hok call rest hp)
  | runRead hp => exact h.afterRead hp
  | closeWrite _ hnone =>
    refine SleepInv.wakeupRead h rfl ?_ ?_
    . rintro ⟨p, hp⟩
      exact absurd hp (hnone p)
    . exact id
  | closeRead _ hnone =>
    refine SleepInv.wakeupWrite h rfl ?_ ?_
    . rintro ⟨p, hp⟩
      exact absurd hp (hnone p)
    . intro he _
      exact he
  | @kill p =>
    have hwoken := h.setPc p (s.pc p).wake ?_ ?_ ?_ ?_
    . exact ⟨⟨hwoken.reader, hwoken.writer⟩, hwoken.readopen, hwoken.writeopen⟩
    . intro n hn
      exact absurd (wakeWriter_eq_reading hn) wakeReader_ne
    . intro call rest hr
      exact absurd hr wakeWriter_ne
    . intro hr
      exact h.readopen p (wakeReader_reading.mp (wakeWriter_reading.mp hr))
    . intro hr
      exact h.writeopen p (wakeReader_writing.mp (wakeWriter_writing.mp hr))
  | killAwake => exact ⟨⟨h.reader, h.writer⟩, h.readopen, h.writeopen⟩
  | replace => exact ⟨⟨h.reader, h.writer⟩, h.readopen, h.writeopen⟩

theorem quiet_of_givesUpAtOnce {es : List (PipeEvent ι)} (hstart : s.Start)
    (hrun : EventRun GivesUpAtOnce s es t)
    : t.Quiet := by
  have hinv : t.SleepInv := by
    apply hrun.invariant _ hstart.sleepInv
    intro u e v hu hok hstep
    exact hstep.sleepInv hu hok
  exact hinv.toQuiet

theorem not_quiet_of_killed {p r : ι} {call n : Nat} {rest : List Byte}
    (hp : s.pc p = .writing call rest false) (hkilled : s.killed p = true)
    (hr : s.pc r = .reading n true) (hempty : s.pipe.Holds []) (hrest : PIPESIZE < rest.length)
    : ¬ (s.afterWrite p call rest (s.pipe.pipewrite (s.killed p) rest)).Quiet := by
  intro hquiet
  rw [hkilled] at hquiet
  have hfails : (s.pipe.pipewrite true rest).1 = .fails := by
    apply Pipe.pipewrite_killed rest s.pipe [] hempty
    simpa using hrest
  have hfull := (Pipe.pipewrite_fails rest s.pipe hfails).1
  generalize s.pipe.pipewrite true rest = out at hquiet hfails hfull
  rcases out with ⟨res, rest', q⟩
  cases hfails
  have hrp : r ≠ p := by
    intro heq
    rw [heq, hp] at hr
    contradiction
  have hreader := hquiet.reader r n ?_
  . exact Pipe.Full.not_empty hfull hreader.1
  . simpa [PipeSys.afterWrite, PipeSys.setPc, setPipe, record, hrp] using hr

-- a reader sleeps; a killed process fills the pipe and returns -1 without waking it
theorem reader_sleeps_on_full_pipe
    : ¬ ∀ (s t : PipeSys (Fin 2)) (es : List (PipeEvent (Fin 2))), s.Start →
        EventRun (fun _ _ => True) s es t → t.Quiet := by
  intro hquiet
  have hrun : EventRun (fun _ _ => True) opened
      [.read 1 1, .runRead 1, .write 0 (List.replicate 513 7), .kill 0, .runWrite 0] _ :=
    .cons trivial (.read rfl rfl) <|
    .cons trivial (.runRead (n := 1) rfl) <|
    .cons trivial (.write rfl rfl) <|
    .cons trivial .kill <|
    .cons trivial (.runWrite rfl) (.nil _)
  refine not_quiet_of_killed (r := 1) (n := 1) ?_ ?_ ?_ ?_ ?_ (hquiet _ _ _ opened_start hrun)
  . rfl
  . rfl
  . rfl
  . exact .nil _ _
  . rw [List.length_replicate]
    decide

theorem quiet_of_givesUpAtOnce_opened
    : ∃ t, EventRun GivesUpAtOnce opened
        [.read 1 1, .runRead 1, .write 0 [7, 8], .kill 0, .runWrite 0] t ∧
          t.pc 1 = .reading 1 false ∧ t.Quiet := by
  have hrun : EventRun GivesUpAtOnce opened
      [.read 1 1, .runRead 1, .write 0 [7, 8], .kill 0, .runWrite 0] _ :=
    .cons trivial (.read rfl rfl) <|
    .cons trivial (.runRead (n := 1) rfl) <|
    .cons trivial (.write rfl rfl) <|
    .cons trivial .kill <|
    .cons (by
      intro call rest hp _
      cases hp
      exact .inl (by decide))
      (.runWrite rfl) (.nil _)
  exact ⟨_, hrun, rfl, quiet_of_givesUpAtOnce opened_start hrun⟩

end PipeSys
end Xv6
