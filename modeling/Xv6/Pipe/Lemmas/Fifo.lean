import Xv6.Pipe.Impl.Pipe

/-!
A pipe is a queue of bytes: what has been stored and not yet read.
-/

namespace Xv6
namespace Pipe

variable {p : Pipe} {q : List Byte}

abbrev Holds (p : Pipe) (q : List Byte) : Prop := Ring.Holds p.data p.nread p.nwrite q

theorem Holds.full_iff (h : p.Holds q) : p.Full ↔ q.length = PIPESIZE :=
  h.counter_eq_iff (by decide) (Nat.le_refl _)

theorem Holds.empty_iff (h : p.Holds q) : p.Empty ↔ q = [] :=
  Ring.Holds.empty_iff h (by decide)

theorem Holds.put (h : p.Holds q) (hfull : ¬ p.Full) (b : Byte) : (p.put b).Holds (q ++ [b]) := by
  apply Ring.Holds.push h (by decide)
  rw [h.full_iff] at hfull
  have := h.length_le
  omega

theorem pipewrite_holds (killed : Bool) (rest : List Byte) (p : Pipe) (q : List Byte)
    (h : p.Holds q)
    : ∃ bytes, rest = bytes ++ (p.pipewrite killed rest).2.1 ∧
        (p.pipewrite killed rest).2.2.Holds (q ++ bytes) ∧
          ((p.pipewrite killed rest).1 = .returns → (p.pipewrite killed rest).2.1 = []) := by
  induction rest generalizing p q with
  | nil =>
    refine ⟨[], rfl, ?_, fun _ => rfl⟩
    rw [List.append_nil]
    exact h
  | cons b rest ih =>
    unfold pipewrite
    split
    . split <;> exact ⟨[], rfl, by rw [List.append_nil]; exact h, by simp⟩
    next hfull =>
      rcases ih (p.put b) (q ++ [b]) (h.put hfull b) with ⟨bytes, hrest, hholds, hreturns⟩
      refine ⟨b :: bytes, ?_, ?_, hreturns⟩
      . rw [List.cons_append, ← hrest]
      . rw [List.append_assoc] at hholds
        exact hholds

theorem pipereadCopy_holds (n : Nat) (p : Pipe) (q : List Byte) (h : p.Holds q)
    : (p.pipereadCopy n).1 = q.take n ∧ (p.pipereadCopy n).2.Holds (q.drop n) := by
  induction n generalizing p q with
  | zero => exact ⟨rfl, h⟩
  | succ n ih =>
    unfold pipereadCopy
    split
    next hempty =>
      rw [h.empty_iff] at hempty
      subst hempty
      exact ⟨rfl, h⟩
    next hempty =>
      cases q with
      | nil => exact absurd (h.empty_iff.mpr rfl) hempty
      | cons b q =>
        have hskip : p.skip.Holds q := Ring.Holds.pop h
        rcases ih p.skip q hskip with ⟨haddr, hholds⟩
        refine ⟨?_, hholds⟩
        show p.data (Ring.slot p.nread) :: (p.skip.pipereadCopy n).1 = _
        rw [haddr, Ring.Holds.head h]
        rfl

end Pipe

namespace PipeSys

variable {ι : Type} {s t : PipeSys ι}

def bytesOf (call : Nat) (stored : List (Nat × Byte)) : List Byte :=
  (stored.filter (·.1 = call)).map (·.2)

theorem bytesOf_append_self (call : Nat) (stored : List (Nat × Byte)) (bytes : List Byte)
    : bytesOf call (stored ++ bytes.map (call, ·)) = bytesOf call stored ++ bytes := by
  simp [bytesOf, List.filter_map, Function.comp_def]

theorem bytesOf_append_ne {call c : Nat} (h : c ≠ call) (stored : List (Nat × Byte))
    (bytes : List Byte)
    : bytesOf c (stored ++ bytes.map (call, ·)) = bytesOf c stored := by
  have hne : ¬ call = c := fun heq => h heq.symm
  simp [bytesOf, List.filter_map, Function.comp_def, hne]

def writes : PipePc → Option (Nat × List Byte)
  | .writing call rest _ => some (call, rest)
  | _ => none

/--
The bytes of each call are stored in their order, those of a call that is under way as far as it
has come.
-/
structure Calls (s : PipeSys ι) : Prop where
  writing : ∀ p call rest, writes (s.pc p) = some (call, rest) →
    s.calls[call]? = some (bytesOf call s.stored ++ rest) ∧ call ∉ s.returned
  owner : ∀ p q call rest rest', writes (s.pc p) = some (call, rest) →
    writes (s.pc q) = some (call, rest') → p = q
  returned : ∀ call ∈ s.returned, s.calls[call]? = some (bytesOf call s.stored)
  fresh : ∀ x ∈ s.stored, x.1 < s.calls.length

structure Fifo (s : PipeSys ι) : Prop extends Calls s where
  queue : ∃ q, s.pipe.Holds q ∧ s.stored.map (·.2) = s.reads.flatten ++ q

@[simp]
theorem writes_wakeReader (pc : PipePc) : writes pc.wakeReader = writes pc := by
  cases pc <;> rfl

@[simp]
theorem writes_wakeWriter (pc : PipePc) : writes pc.wakeWriter = writes pc := by
  cases pc <;> rfl

theorem Calls.of_writes (h : s.Calls) (hstored : t.stored = s.stored) (hcalls : t.calls = s.calls)
    (hreturned : t.returned = s.returned)
    (hwrites : ∀ p x, writes (t.pc p) = some x → writes (s.pc p) = some x)
    : t.Calls where
  writing := by
    intro p call rest hp
    rw [hstored, hcalls, hreturned]
    exact h.writing p call rest (hwrites p _ hp)
  owner := by
    intro p q call rest rest' hp hq
    exact h.owner p q call rest rest' (hwrites p _ hp) (hwrites q _ hq)
  returned := by
    rw [hstored, hcalls, hreturned]
    exact h.returned
  fresh := by
    rw [hstored, hcalls]
    exact h.fresh

theorem Calls.call_lt (h : s.Calls) {p : ι} {call : Nat} {rest : List Byte}
    (hp : writes (s.pc p) = some (call, rest))
    : call < s.calls.length := by
  have hget := (h.writing p call rest hp).1
  rw [List.getElem?_eq_some_iff] at hget
  exact hget.1

theorem Calls.advance (h : s.Calls) {p : ι} {call : Nat} {rest rest' bytes : List Byte}
    (hp : writes (s.pc p) = some (call, rest)) (hrest : rest = bytes ++ rest')
    (hstored : t.stored = s.stored ++ bytes.map (call, ·)) (hcalls : t.calls = s.calls)
    (hpc : ∀ q x, writes (t.pc q) = some x →
      q ≠ p ∧ writes (s.pc q) = some x ∨ q = p ∧ x = (call, rest') ∧ t.returned = s.returned)
    (hreturned : t.returned = s.returned ∨ rest' = [] ∧ t.returned = s.returned ++ [call])
    : t.Calls := by
  have hself := h.writing p call rest hp
  have hbuf : s.calls[call]? = some (bytesOf call t.stored ++ rest') := by
    rw [hstored, bytesOf_append_self, List.append_assoc, ← hrest]
    exact hself.1
  have hother : ∀ q c r, q ≠ p → writes (s.pc q) = some (c, r) → c ≠ call := by
    intro q c r hqp hq heq
    subst heq
    exact hqp (h.owner q p c r rest hq hp)
  exact {
    writing := by
      intro q c r hq
      rw [hcalls]
      rcases hpc q _ hq with ⟨hqp, hx⟩ | ⟨_, hx, hret⟩
      . have hne := hother q c r hqp hx
        have hw := h.writing q c r hx
        rw [hstored, bytesOf_append_ne hne]
        refine ⟨hw.1, ?_⟩
        cases hreturned with
        | inl heq => rw [heq]; exact hw.2
        | inr heq =>
          rw [heq.2, List.mem_append, List.mem_singleton]
          intro hmem
          cases hmem with
          | inl hmem => exact hw.2 hmem
          | inr heq => exact hne heq
      . cases hx
        rw [hret]
        exact ⟨hbuf, hself.2⟩
    owner := by
      intro q r c x y hq hr
      rcases hpc q _ hq with ⟨hqp, hqx⟩ | ⟨hqp, hqx, _⟩ <;>
        rcases hpc r _ hr with ⟨hrp, hrx⟩ | ⟨hrp, hrx, _⟩
      . exact h.owner q r c x y hqx hrx
      . cases hrx
        exact absurd rfl (hother q _ _ hqp hqx)
      . cases hqx
        exact absurd rfl (hother r _ _ hrp hrx)
      . rw [hqp, hrp]
    returned := by
      intro c hc
      rw [hcalls]
      have hold : c ∈ s.returned → s.calls[c]? = some (bytesOf c t.stored) := by
        intro hmem
        have hne : c ≠ call := by
          intro heq
          exact hself.2 (heq ▸ hmem)
        rw [hstored, bytesOf_append_ne hne]
        exact h.returned c hmem
      cases hreturned with
      | inl heq =>
        rw [heq] at hc
        exact hold hc
      | inr heq =>
        rw [heq.2, List.mem_append, List.mem_singleton] at hc
        cases hc with
        | inl hmem => exact hold hmem
        | inr hnew =>
          rw [hnew, hbuf, heq.1, List.append_nil]
    fresh := by
      intro x hx
      rw [hcalls]
      rw [hstored, List.mem_append, List.mem_map] at hx
      cases hx with
      | inl hold => exact h.fresh x hold
      | inr hnew =>
        rcases hnew with ⟨b, _, hb⟩
        rw [← hb]
        exact h.call_lt hp }

theorem Start.fifo (h : s.Start) : s.Fifo where
  writing := by simp [h.pc, writes]
  owner := by simp [h.pc, writes]
  returned := by simp [h.returned]
  fresh := by simp [h.stored]
  queue := by
    refine ⟨[], ?_, by simp [h.stored, h.reads]⟩
    have hempty : s.pipe.nread = s.pipe.nwrite := h.empty
    unfold Pipe.Holds
    rw [← hempty]
    exact .nil _ _

variable [DecidableEq ι]

theorem Calls.start (h : s.Calls) (p : ι) (addr : List Byte)
    : ({ s with calls := s.calls ++ [addr] }.setPc p (.writing s.calls.length addr false)).Calls := by
  have hold : ∀ (c : Nat) x, s.calls[c]? = some x → (s.calls ++ [addr])[c]? = some x := by
    intro c x hc
    rw [List.getElem?_append_left, hc]
    rw [List.getElem?_eq_some_iff] at hc
    exact hc.1
  have hcases : ∀ q x, writes (Function.update s.pc p (.writing s.calls.length addr false) q) = some x →
      q = p ∧ x = (s.calls.length, addr) ∨ q ≠ p ∧ writes (s.pc q) = some x := by
    intro q x hq
    by_cases hqp : q = p
    . subst hqp
      rw [Function.update_self] at hq
      cases hq
      exact .inl ⟨rfl, rfl⟩
    . rw [Function.update_of_ne hqp] at hq
      exact .inr ⟨hqp, hq⟩
  have hreturned_lt : ∀ c ∈ s.returned, c < s.calls.length := by
    intro c hc
    have hget := h.returned c hc
    rw [List.getElem?_eq_some_iff] at hget
    exact hget.1
  exact {
    writing := by
      intro q call rest hq
      rcases hcases q _ hq with ⟨_, hx⟩ | ⟨_, hx⟩
      . cases hx
        have hnone : bytesOf s.calls.length s.stored = [] := by
          unfold bytesOf
          rw [List.map_eq_nil_iff, List.filter_eq_nil_iff]
          intro x hx
          have := h.fresh x hx
          simp only [decide_eq_true_eq]
          omega
        constructor
        . show (s.calls ++ [addr])[s.calls.length]? = some (bytesOf s.calls.length s.stored ++ addr)
          rw [hnone]
          simp
        . intro hmem
          have := hreturned_lt _ hmem
          omega
      . have hw := h.writing q call rest hx
        exact ⟨hold _ _ hw.1, hw.2⟩
    owner := by
      intro q r call rest rest' hq hr
      rcases hcases q _ hq with ⟨hqp, hqx⟩ | ⟨_, hqx⟩ <;>
        rcases hcases r _ hr with ⟨hrp, hrx⟩ | ⟨_, hrx⟩
      . rw [hqp, hrp]
      . cases hqx
        have := h.call_lt hrx
        omega
      . cases hrx
        have := h.call_lt hqx
        omega
      . exact h.owner q r call rest rest' hqx hrx
    returned := by
      intro c hc
      exact hold _ _ (h.returned c hc)
    fresh := by
      intro x hx
      have := h.fresh x hx
      show x.1 < (s.calls ++ [addr]).length
      rw [List.length_append]
      omega }

theorem Fifo.afterWrite (h : s.Fifo) {p : ι} {call : Nat} {rest : List Byte}
    (hp : s.pc p = .writing call rest false)
    : (s.afterWrite p call rest (s.pipe.pipewrite (s.killed p) rest)).Fifo := by
  rcases h.queue with ⟨q, hq, hstored⟩
  rcases Pipe.pipewrite_holds (s.killed p) rest s.pipe q hq with ⟨bytes, hrest, hholds, hreturns⟩
  have hw : writes (s.pc p) = some (call, rest) := by
    rw [hp]
    rfl
  generalize s.pipe.pipewrite (s.killed p) rest = out at hrest hholds hreturns
  rcases out with ⟨res, rest', pipe⟩
  dsimp only at hrest hholds hreturns
  have htake : rest.take (rest.length - rest'.length) = bytes := by
    rw [hrest, List.length_append, Nat.add_sub_cancel, List.take_left']
    rfl
  have hqueue : (s.record call rest rest').stored.map (·.2) = s.reads.flatten ++ (q ++ bytes) := by
    unfold record
    rw [htake, List.map_append, hstored, List.map_map, ← List.append_assoc]
    congr 1
    simp [Function.comp_def]
  have hrecord : (s.record call rest rest').stored = s.stored ++ bytes.map (call, ·) := by
    unfold record
    rw [htake]
  cases res with
  | returns =>
    refine ⟨?_, ⟨_, hholds, hqueue⟩⟩
    refine h.toCalls.advance hw hrest hrecord rfl ?_ (.inr ⟨hreturns rfl, rfl⟩)
    intro r x hr
    left
    by_cases hrp : r = p
    . subst hrp
      simp [PipeSys.afterWrite, setPc, writes] at hr
    . refine ⟨hrp, ?_⟩
      simpa [PipeSys.afterWrite, setPc, wakeupRead, setPipe, record, hrp] using hr
  | fails =>
    refine ⟨?_, ⟨_, hholds, hqueue⟩⟩
    refine h.toCalls.advance hw hrest hrecord rfl ?_ (.inl rfl)
    intro r x hr
    left
    by_cases hrp : r = p
    . subst hrp
      simp [PipeSys.afterWrite, setPc, writes] at hr
    . refine ⟨hrp, ?_⟩
      simpa [PipeSys.afterWrite, setPc, setPipe, record, hrp] using hr
  | sleeps =>
    refine ⟨?_, ⟨_, hholds, hqueue⟩⟩
    refine h.toCalls.advance hw hrest hrecord rfl ?_ (.inl rfl)
    intro r x hr
    by_cases hrp : r = p
    . subst hrp
      right
      refine ⟨rfl, ?_, rfl⟩
      simpa [PipeSys.afterWrite, setPc, writes, eq_comm] using hr
    . left
      refine ⟨hrp, ?_⟩
      simpa [PipeSys.afterWrite, setPc, wakeupRead, setPipe, record, hrp] using hr

theorem Fifo.afterRead (h : s.Fifo) {p : ι} {n : Nat} (hp : s.pc p = .reading n false)
    : (s.afterRead p n (s.pipe.piperead (s.killed p) n)).Fifo := by
  rcases h.queue with ⟨q, hq, hstored⟩
  have hsame : ∀ pc, writes pc = none → ∀ r x,
      writes (Function.update s.pc p pc r) = some x → writes (s.pc r) = some x := by
    intro pc hpc r x hr
    by_cases hrp : r = p
    . subst hrp
      rw [Function.update_self, hpc] at hr
      contradiction
    . rwa [Function.update_of_ne hrp] at hr
  unfold Pipe.piperead
  split
  . split
    . exact ⟨h.toCalls.of_writes rfl rfl rfl (hsame _ rfl), ⟨q, hq, hstored⟩⟩
    . exact ⟨h.toCalls.of_writes rfl rfl rfl (hsame _ rfl), ⟨q, hq, hstored⟩⟩
  . rcases Pipe.pipereadCopy_holds n s.pipe q hq with ⟨haddr, hholds⟩
    generalize s.pipe.pipereadCopy n = out at haddr hholds
    rcases out with ⟨addr, pipe⟩
    dsimp only at haddr hholds
    constructor
    . refine h.toCalls.of_writes rfl rfl rfl ?_
      intro r x hr
      apply hsame .idle rfl r x
      by_cases hrp : r = p
      . subst hrp
        simp [PipeSys.afterRead, setPc, writes] at hr
      . simpa [PipeSys.afterRead, setPc, wakeupWrite, setPipe, hrp] using hr
    . refine ⟨q.drop n, hholds, ?_⟩
      show s.stored.map (·.2) = (s.reads ++ [addr]).flatten ++ q.drop n
      rw [List.flatten_append, List.flatten_singleton, List.append_assoc, haddr, List.take_append_drop,
        hstored]

theorem Step.fifo {e : PipeEvent ι} (hstep : s.Step e t) (h : s.Fifo) : t.Fifo := by
  cases hstep with
  | @write p addr _ _ =>
    rcases h.queue with ⟨q, hq, hstored⟩
    exact ⟨h.toCalls.start p addr, ⟨q, hq, hstored⟩⟩
  | @read p n hp _ =>
    rcases h.queue with ⟨q, hq, hstored⟩
    refine ⟨?_, ⟨q, hq, hstored⟩⟩
    refine h.toCalls.of_writes rfl rfl rfl ?_
    intro r x hr
    by_cases hrp : r = p
    . subst hrp
      simp [setPc, writes] at hr
    . simpa [setPc, hrp] using hr
  | runWrite hp => exact h.afterWrite hp
  | runRead hp => exact h.afterRead hp
  | closeWrite =>
    rcases h.queue with ⟨q, hq, hstored⟩
    refine ⟨?_, ⟨q, hq, hstored⟩⟩
    refine h.toCalls.of_writes rfl rfl rfl ?_
    intro r x hr
    simpa [pipeclose, wakeupRead, setPipe] using hr
  | closeRead =>
    rcases h.queue with ⟨q, hq, hstored⟩
    refine ⟨?_, ⟨q, hq, hstored⟩⟩
    refine h.toCalls.of_writes rfl rfl rfl ?_
    intro r x hr
    simpa [pipeclose, wakeupWrite, setPipe] using hr
  | @kill p =>
    rcases h.queue with ⟨q, hq, hstored⟩
    refine ⟨?_, ⟨q, hq, hstored⟩⟩
    refine h.toCalls.of_writes rfl rfl rfl ?_
    intro r x hr
    by_cases hrp : r = p
    . subst hrp
      simpa [setPc, PipePc.wake] using hr
    . simpa [setPc, hrp] using hr
  | killAwake =>
    rcases h.queue with ⟨q, hq, hstored⟩
    exact ⟨h.toCalls.of_writes rfl rfl rfl (by simp), ⟨q, hq, hstored⟩⟩
  | replace =>
    rcases h.queue with ⟨q, hq, hstored⟩
    exact ⟨h.toCalls.of_writes rfl rfl rfl (by simp), ⟨q, hq, hstored⟩⟩

theorem pipe_is_fifo {es : List (PipeEvent ι)} (hstart : s.Start)
    (hrun : EventRun (fun _ _ => True) s es t)
    : t.reads.flatten <+: t.stored.map (·.2) ∧
        t.stored.length ≤ t.reads.flatten.length + PIPESIZE ∧
          (∀ call ∈ t.returned, t.calls[call]? = some (bytesOf call t.stored)) ∧
            ∀ p n addr q, t.pc p = .reading n false →
              t.pipe.piperead (t.killed p) n = (.returns addr, q) →
                addr.length ≤ n ∧ addr <+: (t.stored.map (·.2)).drop t.reads.flatten.length := by
  have hfifo : t.Fifo := by
    apply hrun.invariant _ hstart.fifo
    intro u e v hu _ hstep
    exact hstep.fifo hu
  rcases hfifo.queue with ⟨q, hq, hstored⟩
  refine ⟨⟨q, hstored.symm⟩, ?_, hfifo.returned, ?_⟩
  . have hlength := congrArg List.length hstored
    rw [List.length_map, List.length_append] at hlength
    have := hq.length_le
    omega
  . intro p n addr pipe _ hread
    unfold Pipe.piperead at hread
    split at hread
    . split at hread <;> cases hread
    . rcases Pipe.pipereadCopy_holds n t.pipe q hq with ⟨haddr, _⟩
      cases hread
      rw [haddr, hstored, List.drop_left]
      exact ⟨List.length_take_le n q, List.take_prefix n q⟩

def opened : PipeSys (Fin 2) where
  pipe := ⟨fun _ => 0, 0xffffffff, 0xffffffff, true, true⟩
  pc := fun _ => .idle
  killed := fun _ => false
  stored := []
  reads := []
  calls := []
  returned := []

theorem opened_start : opened.Start where
  empty := rfl
  readopen := rfl
  writeopen := rfl
  pc := by intros; rfl
  stored := rfl
  reads := rfl
  calls := rfl
  returned := rfl

theorem pipe_is_fifo_opened
    : ∃ t, EventRun (fun _ _ => True) opened
        [.read 1 1, .runRead 1, .write 0 [7, 8], .runWrite 0, .runRead 1] t ∧
          t.reads = [[7]] ∧ t.returned = [0] ∧ t.reads.flatten <+: t.stored.map (·.2) := by
  have hrun : EventRun (fun _ _ => True) opened
      [.read 1 1, .runRead 1, .write 0 [7, 8], .runWrite 0, .runRead 1] _ :=
    .cons trivial (.read rfl rfl) <|
    .cons trivial (.runRead (n := 1) rfl) <|
    .cons trivial (.write rfl rfl) <|
    .cons trivial (.runWrite rfl) <|
    .cons trivial (.runRead (n := 1) rfl) (.nil _)
  exact ⟨_, hrun, rfl, rfl, (pipe_is_fifo opened_start hrun).1⟩

end PipeSys
end Xv6
