import Mathlib.Algebra.BigOperators.Group.Finset.Piecewise
import Mathlib.Data.Fintype.Card
import Xv6.Data.Transition
import Xv6.Log.Impl.Op
import Xv6.Log.Lemmas.Commit

namespace Xv6

namespace LogHeader

theorem getElem_blocks {lh : LogHeader} {i : Nat} (h : i < lh.blocks.length)
    : lh.blocks[i] = lh.get i := by
  simp [blocks]

theorem record_get {lh lh' : LogHeader} {b : BitVec 32} (h : lh.record b = .ok lh')
    : (lh'.n = if lh.blocks.idxOf b = lh.n then lh.n + 1 else lh.n) ∧
        ∀ j, lh'.get j = if j = lh.blocks.idxOf b then b else lh.get j := by
  unfold record at h
  simp only at h
  split at h
  next hlt =>
    cases h
    refine ⟨rfl, ?_⟩
    intro j
    unfold get
    split
    next hj => simp [Function.update_apply]
    next hj => rw [if_neg (by omega)]
  . contradiction

theorem record_blocks_of_mem {lh lh' : LogHeader} {b : BitVec 32} (h : lh.record b = .ok lh')
    (hmem : b ∈ lh.blocks)
    : lh'.blocks = lh.blocks := by
  rcases record_get h with ⟨hn, hget⟩
  have hidx := List.idxOf_lt_length_iff.mpr hmem
  have hlen := lh.length_blocks
  rw [if_neg (by omega)] at hn
  have hself : lh.get (lh.blocks.idxOf b) = b := by
    rw [← getElem_blocks hidx, List.getElem_idxOf]
  unfold blocks
  rw [hn]
  apply List.map_congr_left
  intro j _
  rw [hget]
  split
  next hj => rw [hj, hself]
  . rfl

theorem record_blocks_of_notMem {lh lh' : LogHeader} {b : BitVec 32} (h : lh.record b = .ok lh')
    (hmem : b ∉ lh.blocks)
    : lh'.blocks = lh.blocks ++ [b] := by
  rcases record_get h with ⟨hn, hget⟩
  have hidx : lh.blocks.idxOf b = lh.n := by
    rw [List.idxOf_eq_length hmem, lh.length_blocks]
  rw [if_pos hidx] at hn
  unfold blocks
  rw [hn, List.range_succ, List.map_append]
  congr 1
  . apply List.map_congr_left
    intro j hj
    have := List.mem_range.mp hj
    rw [hget, if_neg (by omega)]
  . rw [List.map_singleton, hget, if_pos hidx.symm]

theorem mem_record_blocks {lh lh' : LogHeader} {b c : BitVec 32} (h : lh.record b = .ok lh')
    : c ∈ lh'.blocks ↔ c ∈ lh.blocks ∨ c = b := by
  by_cases hmem : b ∈ lh.blocks
  . rw [record_blocks_of_mem h hmem]
    constructor
    . exact .inl
    . intro hc
      cases hc with
      | inl hc => exact hc
      | inr hc => rw [hc]; exact hmem
  . rw [record_blocks_of_notMem h hmem]
    simp

theorem record_blocks_nodup {lh lh' : LogHeader} {b : BitVec 32} (h : lh.record b = .ok lh')
    (hnodup : lh.blocks.Nodup)
    : lh'.blocks.Nodup := by
  by_cases hmem : b ∈ lh.blocks
  . rw [record_blocks_of_mem h hmem]
    exact hnodup
  . rw [record_blocks_of_notMem h hmem]
    apply List.Nodup.append hnodup
    . simp
    . simpa using hmem

theorem record_ok (lh : LogHeader) (b : BitVec 32) (h : lh.n < LOGSIZE)
    : ∃ lh', lh.record b = .ok lh' := by
  have hle : lh.blocks.idxOf b ≤ lh.n := by
    rw [← lh.length_blocks]
    exact List.idxOf_le_length
  exact ⟨_, dif_pos (by omega)⟩

theorem record_error {lh : LogHeader} {b : BitVec 32} {f : Fault} (h : lh.record b = .error f)
    : f = .outOfBounds := by
  unfold record at h
  simp only at h
  split at h
  . contradiction
  . cases h
    rfl

end LogHeader

namespace LogPc

def inside : LogPc → Bool
  | .inOp _ => true
  | .tested _ _ => true
  | .locking _ _ => true
  | _ => false

def inCommit : LogPc → Bool
  | .commit => true
  | .writeLog _ => true
  | .writeHead => true
  | .installTrans _ => true
  | .clear => true
  | .eraseHead => true
  | .committed => true
  | _ => false

def pastHead : LogPc → Bool
  | .installTrans _ => true
  | .clear => true
  | .eraseHead => true
  | .committed => true
  | _ => false

def erased : LogPc → Bool
  | .eraseHead => true
  | .committed => true
  | _ => false

def op? : LogPc → Option Nat
  | .inOp k => some k
  | .tested k _ => some k
  | .locking k _ => some k
  | _ => none

theorem inCommit_of_pastHead {l : LogPc} (h : l.pastHead) : l.inCommit := by
  cases l <;> simp_all [pastHead, inCommit]

theorem pastHead_of_erased {l : LogPc} (h : l.erased) : l.pastHead := by
  cases l <;> simp_all [pastHead, erased]

theorem not_inside_of_inCommit {l : LogPc} (h : l.inCommit) : l.inside = false := by
  cases l <;> simp_all [inside, inCommit]

theorem op?_of_inCommit {l : LogPc} (h : l.inCommit) : l.op? = none := by
  cases l <;> simp_all [op?, inCommit]

theorem inside_of_op? {l : LogPc} {k : Nat} (h : l.op? = some k) : l.inside := by
  cases l <;> simp_all [inside, op?]

end LogPc

namespace LogEvent

def isLogWrite {ι : Type} : LogEvent ι → Bool
  | .logWrite _ _ _ => true
  | .testOutstanding _ => true
  | .record _ => true
  | _ => false

end LogEvent

namespace LogSys

variable {ι : Type}

@[simp]
theorem panic_fault (s : LogSys ι) (msg : String)
    : (s.panic msg).fault = some (.panic msg) := rfl

def insideCount [Fintype ι] (pc : ι → LogPc) : Nat :=
  (Finset.univ.filter fun p => (pc p).inside).card

theorem insideCount_pos [Fintype ι] {pc : ι → LogPc} {p : ι} (h : (pc p).inside)
    : 0 < insideCount pc := by
  apply Finset.card_pos.mpr
  exact ⟨p, by simpa using h⟩

theorem insideCount_eq_zero [Fintype ι] {pc : ι → LogPc}
    : insideCount pc = 0 ↔ ∀ p, (pc p).inside = false := by
  simp [insideCount, Finset.filter_eq_empty_iff]

structure Inv [Fintype ι] (s : LogSys ι) : Prop where
  fault : s.fault ≠ some (.panic "log.committing")
  outstanding : s.outstanding = insideCount s.pc
  committing : ∀ p, (s.pc p).inCommit → s.committing
  running : s.committing → ∃ p, (s.pc p).inCommit
  exclusive : s.committing → ∀ p, (s.pc p).inside = false
  one : ∀ p q, (s.pc p).inCommit → (s.pc q).inCommit → p = q
  nodup : s.dev.lh.blocks.Nodup
  erased : ∀ p, (s.pc p).erased → s.dev.lh.n = 0
  fresh : ∀ p k, (s.pc p).op? = some k → k < s.nextOp
  freshLogged : ∀ x ∈ s.logged, x.1 < s.nextOp
  current : ∀ p k, (s.pc p).op? = some k → s.epoch k = s.commits.length
  epoch_le : ∀ x ∈ s.logged, s.epoch x.1 ≤ s.commits.length
  group : ∀ x ∈ s.logged, x.2 ∈ (s.commits[s.epoch x.1]?).getD s.dev.lh.blocks
  past : ∀ p, (s.pc p).pastHead → ∀ x ∈ s.logged, s.epoch x.1 < s.commits.length
  settled : s.committing = false → (∀ p, (s.pc p).inside = false) →
    ∀ x ∈ s.logged, s.epoch x.1 < s.commits.length
  origin : ∀ b ∈ s.dev.lh.blocks, (∃ p, (s.pc p).pastHead) ∨
    ∃ k, (k, b) ∈ s.logged ∧ s.epoch k = s.commits.length

theorem Inv.not_inCommit [Fintype ι] {s : LogSys ι} {p : ι} (h : Inv s) (hcommitting : s.committing = false)
    : (s.pc p).inCommit = false := by
  have := h.committing p
  simpa [hcommitting] using this

theorem Inv.not_pastHead [Fintype ι] {s : LogSys ι} {p : ι} (h : Inv s) (hcommitting : s.committing = false)
    : (s.pc p).pastHead = false := by
  have hnone := h.not_inCommit (p := p) hcommitting
  have := @LogPc.inCommit_of_pastHead (s.pc p)
  simpa [hnone] using this

theorem Inv.not_committing [Fintype ι] {s : LogSys ι} {p : ι} (h : Inv s) (hinside : (s.pc p).inside)
    : s.committing = false := by
  have := h.exclusive
  grind

theorem Inv.stutter [Fintype ι] {s t : LogSys ι} (h : Inv s)
    (hfault : t.fault ≠ some (.panic "log.committing"))
    (hinside : ∀ q, (t.pc q).inside = (s.pc q).inside)
    (hcommit : ∀ q, (t.pc q).inCommit = (s.pc q).inCommit)
    (hpast : ∀ q, (t.pc q).pastHead = (s.pc q).pastHead)
    (herased : ∀ q, (t.pc q).erased = (s.pc q).erased)
    (hop : ∀ q, (t.pc q).op? = (s.pc q).op?)
    (hout : t.outstanding = s.outstanding) (hcommitting : t.committing = s.committing)
    (hlh : t.dev.lh = s.dev.lh) (hnext : t.nextOp = s.nextOp) (hepoch : t.epoch = s.epoch)
    (hlogged : t.logged = s.logged) (hcommits : t.commits = s.commits)
    : Inv t := by
  have hcount : insideCount t.pc = insideCount s.pc := by
    unfold insideCount
    simp only [hinside]
  constructor
  . exact hfault
  all_goals
    simp only [hinside, hcommit, hpast, herased, hop, hout, hcommitting, hlh, hnext, hepoch, hlogged,
      hcommits]
  . rw [hcount]
    exact h.outstanding
  . exact h.committing
  . exact h.running
  . exact h.exclusive
  . exact h.one
  . exact h.nodup
  . exact h.erased
  . exact h.fresh
  . exact h.freshLogged
  . exact h.current
  . exact h.epoch_le
  . exact h.group
  . exact h.past
  . exact h.settled
  . exact h.origin

theorem Inv.fail [Fintype ι] {s : LogSys ι} {m : LogDev} {f : Fault} (h : Inv s) (hf : f ≠ .panic "log.committing")
    (hm : m.lh = s.dev.lh)
    : Inv { s with dev := m, fault := some f } := by
  have hf' : some f ≠ some (.panic "log.committing") := by simpa using hf
  exact h.stutter hf' (fun _ => rfl) (fun _ => rfl) (fun _ => rfl) (fun _ => rfl) (fun _ => rfl)
    rfl rfl hm rfl rfl rfl rfl

variable [DecidableEq ι]

/--
What a step can do: `l` is the program point of the process `p` before it.
-/
inductive Moves (start size : Nat) (s : LogSys ι) : LogEvent ι → LogSys ι → Prop where
  | wait {p : ι} : (s.pc p).inside = false → (s.pc p).inCommit = false →
      Moves start size s (.beginOp p) (s.goto p .waiting)
  | begin {p : ι} : (s.pc p).inside = false → (s.pc p).inCommit = false → s.committing = false →
      s.dev.lh.n + (s.outstanding + 1) * MAXOPBLOCKS ≤ LOGSIZE →
      Moves start size s (.beginOp p)
        { s.goto p (.inOp s.nextOp) with
          outstanding := s.outstanding + 1
          nextOp := s.nextOp + 1
          epoch := Function.update s.epoch s.nextOp s.commits.length }
  | tooBig {p : ι} {k : Nat} {b : BitVec 32} {data : Block} (c : Nat → Option Block) :
      s.pc p = .inOp k → s.dev.lh.n ≥ LOGSIZE ∨ s.dev.lh.n ≥ size - 1 →
      Moves start size s (.logWrite p b data)
        (panic { s with dev := { s.dev with cache := c } } "too big a transaction")
  | tested {p : ι} {k : Nat} {b : BitVec 32} {data : Block} (c : Nat → Option Block) :
      s.pc p = .inOp k →
      Moves start size s (.logWrite p b data)
        (goto { s with dev := { s.dev with cache := c } } p (.tested k b))
  | outsideOfTrans {p : ι} {k : Nat} {b : BitVec 32} :
      s.pc p = .tested k b → s.outstanding < 1 →
      Moves start size s (.testOutstanding p) (s.panic "log_write outside of trans")
  | locking {p : ι} {k : Nat} {b : BitVec 32} : s.pc p = .tested k b →
      Moves start size s (.testOutstanding p) (s.goto p (.locking k b))
  | record {p : ι} {k : Nat} {b : BitVec 32} {lh : LogHeader} : s.pc p = .locking k b →
      s.dev.lh.record b = .ok lh →
      Moves start size s (.record p)
        { s.goto p (.inOp k) with
          dev := { s.dev with lh := lh }
          logged := s.logged ++ [(k, b)] }
  | overflow {p : ι} {k : Nat} {b : BitVec 32} {f : Fault} : s.pc p = .locking k b →
      s.dev.lh.record b = .error f →
      Moves start size s (.record p) { s with fault := some f }
  | endCommitting {p : ι} {k : Nat} : s.pc p = .inOp k → s.committing →
      Moves start size s (.endOp p)
        (panic { s with outstanding := s.outstanding - 1 } "log.committing")
  | endCommit {p : ι} {k : Nat} : s.pc p = .inOp k → s.committing = false →
      s.outstanding - 1 = 0 →
      Moves start size s (.endOp p)
        { goto { s with outstanding := s.outstanding - 1 } p .commit with committing := true }
  | endIdle {p : ι} {k : Nat} : s.pc p = .inOp k → s.outstanding - 1 ≠ 0 →
      Moves start size s (.endOp p) (goto { s with outstanding := s.outstanding - 1 } p .idle)
  | advance {p : ι} {l l' : LogPc} {m : LogDev} : s.pc p = l → l.inCommit → l'.inCommit →
      l'.pastHead = l.pastHead → l'.erased = l.erased → m.lh = s.dev.lh →
      Moves start size s (.commit p) { s.goto p l' with dev := m }
  | empty {p : ι} : s.pc p = .commit → s.dev.lh.n = 0 →
      Moves start size s (.commit p)
        { s.goto p .committed with commits := s.commits ++ [[]] }
  | writeHead {p : ι} {m : LogDev} : s.pc p = .writeHead → m.lh = s.dev.lh →
      Moves start size s (.commit p)
        { s.goto p (.installTrans 0) with
          dev := m
          commits := s.commits ++ [s.dev.lh.blocks] }
  | clear {p : ι} : s.pc p = .clear →
      Moves start size s (.commit p)
        { s.goto p .eraseHead with dev := { s.dev with lh := s.dev.lh.clear } }
  | finish {p : ι} : s.pc p = .committed →
      Moves start size s (.commit p) { s.goto p .idle with committing := false }

variable {start size : Nat} {s t : LogSys ι}

theorem beginOp_moves {p : ι} (h1 : (s.pc p).inside = false) (h2 : (s.pc p).inCommit = false)
    : Moves start size s (.beginOp p) (s.beginOp p) := by
  unfold beginOp
  split
  . exact .wait h1 h2
  next hc =>
    split
    . exact .wait h1 h2
    next hn =>
      apply Moves.begin h1 h2
      . simpa using hc
      . exact Int.not_lt.mp hn

theorem commit_moves {p : ι} (h : s.commit start p = some t)
    : Moves start size s (.commit p) t := by
  unfold commit at h
  split at h
  next hpc =>
    split at h
    . cases h
      exact .advance hpc rfl rfl rfl rfl rfl
    . cases h
      exact .empty hpc (by omega)
  next hpc =>
    split at h
    . cases h
      exact .advance hpc rfl rfl rfl rfl rfl
    . cases h
      exact .advance hpc rfl rfl rfl rfl rfl
  next hpc =>
    cases h
    exact .writeHead hpc rfl
  next hpc =>
    split at h
    . cases h
      exact .advance hpc rfl rfl rfl rfl rfl
    . cases h
      exact .advance hpc rfl rfl rfl rfl rfl
  next hpc =>
    cases h
    exact .clear hpc
  next hpc =>
    cases h
    exact .advance hpc rfl rfl rfl rfl rfl
  next hpc =>
    cases h
    exact .finish hpc
  . contradiction

theorem Step.moves {e : LogEvent ι} (h : Step start size s e t) : Moves start size s e t := by
  unfold Step step at h
  split at h
  . contradiction
  . cases e with
    | beginOp p =>
      simp only at h
      split at h
      next hpc =>
        cases h
        apply beginOp_moves <;> simp [hpc, LogPc.inside, LogPc.inCommit]
      next hpc =>
        cases h
        apply beginOp_moves <;> simp [hpc, LogPc.inside, LogPc.inCommit]
      . contradiction
    | logWrite p b data =>
      simp only at h
      split at h
      next hpc =>
        cases h
        unfold logWrite
        simp only
        split
        next hbig => exact .tooBig _ hpc hbig
        . exact .tested _ hpc
      . contradiction
    | testOutstanding p =>
      simp only at h
      split at h
      next hpc =>
        cases h
        unfold testOutstanding
        split
        next hout => exact .outsideOfTrans hpc hout
        . exact .locking hpc
      . contradiction
    | record p =>
      simp only at h
      split at h
      next hpc =>
        cases h
        unfold record
        split
        next hrec => exact .record hpc hrec
        next hrec => exact .overflow hpc hrec
      . contradiction
    | endOp p =>
      simp only at h
      split at h
      next hpc =>
        cases h
        unfold endOp
        simp only
        split
        next hc => exact .endCommitting hpc hc
        next hc =>
          split
          next hz => exact .endCommit hpc (by simpa using hc) hz
          next hz => exact .endIdle hpc hz
      . contradiction
    | commit p => exact commit_moves h

def execute (d : Nat → Block) (ok : LogSys ι → LogEvent ι → Prop) [∀ s e, Decidable (ok s e)]
    (es : List (LogEvent ι)) : Option (LogSys ι) := do
  let s ← (initlog d).toOption
  es.foldlM (fun s e =>
    if ok s e then step (readsb d).logstart (readsb d).nlog s e else none) s

theorem execute_run {ok : LogSys ι → LogEvent ι → Prop} [∀ s e, Decidable (ok s e)]
    {d : Nat → Block} {es : List (LogEvent ι)} (h : execute d ok es = some s)
    : ∃ s₀, initlog d = .ok s₀ ∧
        Transition.Run (Step (readsb d).logstart (readsb d).nlog) ok s₀ es s := by
  unfold execute at h
  generalize initlog d = res at h
  cases res with
  | error => contradiction
  | ok s₀ => exact ⟨s₀, rfl, Transition.Run.of_foldlM h⟩

variable [Fintype ι]

theorem insideCount_update (pc : ι → LogPc) (p : ι) (l : LogPc)
    : insideCount (Function.update pc p l) + (pc p).inside.toNat =
        insideCount pc + l.inside.toNat := by
  have hsum : ∀ pc : ι → LogPc, insideCount pc =
      (pc p).inside.toNat + ∑ q ∈ Finset.univ.erase p, (pc q).inside.toNat := by
    intro pc
    unfold insideCount
    rw [Finset.card_filter, ← Finset.add_sum_erase _ _ (Finset.mem_univ p)]
    congr 1
    . cases (pc p).inside <;> rfl
    . apply Finset.sum_congr rfl
      intro q _
      cases (pc q).inside <;> rfl
  have hrest : ∑ q ∈ Finset.univ.erase p, (Function.update pc p l q).inside.toNat =
      ∑ q ∈ Finset.univ.erase p, (pc q).inside.toNat := by
    apply Finset.sum_congr rfl
    intro q hq
    rw [Function.update_of_ne (Finset.ne_of_mem_erase hq)]
  rw [hsum, hsum pc, hrest, Function.update_self]
  omega

theorem insideCount_enter {pc : ι → LogPc} {p : ι} {l : LogPc} (h : (pc p).inside = false)
    (hl : l.inside)
    : insideCount (Function.update pc p l) = insideCount pc + 1 := by
  have := insideCount_update pc p l
  rw [h, hl] at this
  exact this

theorem insideCount_leave {pc : ι → LogPc} {p : ι} {l : LogPc} (h : (pc p).inside)
    (hl : l.inside = false)
    : insideCount (Function.update pc p l) + 1 = insideCount pc := by
  have := insideCount_update pc p l
  rw [h, hl] at this
  exact this

theorem insideCount_stay {pc : ι → LogPc} {p : ι} {l : LogPc} (h : l.inside = (pc p).inside)
    : insideCount (Function.update pc p l) = insideCount pc := by
  have := insideCount_update pc p l
  rw [h] at this
  omega

theorem Inv.begin {p : ι} (h : Inv s) (hinside : (s.pc p).inside = false)
    (hcommitting : s.committing = false)
    : Inv
        { s.goto p (.inOp s.nextOp) with
          outstanding := s.outstanding + 1
          nextOp := s.nextOp + 1
          epoch := Function.update s.epoch s.nextOp s.commits.length } := by
  have hnone := fun q => h.not_inCommit (p := q) hcommitting
  have hpast := fun q => h.not_pastHead (p := q) hcommitting
  have hepoch : ∀ x ∈ s.logged,
      Function.update s.epoch s.nextOp s.commits.length x.1 = s.epoch x.1 := by
    intro x hx
    have := h.freshLogged x hx
    rw [Function.update_of_ne (by omega)]
  constructor <;> simp only [goto, Function.update_apply]
  . exact h.fault
  . have := insideCount_enter (l := .inOp s.nextOp) hinside rfl
    rw [h.outstanding, this]
    simp
  . grind [LogPc.inCommit]
  . grind
  . grind
  . grind [LogPc.inCommit]
  . exact h.nodup
  . have := h.erased
    grind [LogPc.erased]
  . have := h.fresh
    grind [LogPc.op?]
  . have := h.freshLogged
    grind
  . have := h.fresh
    have := h.current
    grind [LogPc.op?]
  . have := h.epoch_le
    grind
  . have := h.group
    grind
  . grind [LogPc.pastHead]
  . grind [LogPc.inside]
  . have := h.origin
    grind

theorem Inv.record {p : ι} {k : Nat} {b : BitVec 32} {lh : LogHeader} (h : Inv s)
    (hpc : s.pc p = .locking k b) (hrec : s.dev.lh.record b = .ok lh)
    : Inv
        { s.goto p (.inOp k) with
          dev := { s.dev with lh := lh }
          logged := s.logged ++ [(k, b)] } := by
  have hcommitting : s.committing = false := h.not_committing (p := p) (by rw [hpc]; rfl)
  have hnone := fun q => h.not_inCommit (p := q) hcommitting
  have hpast := fun q => h.not_pastHead (p := q) hcommitting
  have hop : (s.pc p).op? = some k := by rw [hpc]; rfl
  have hmem := @LogHeader.mem_record_blocks _ _ b (h := hrec)
  have hepoch := h.current p k hop
  constructor <;> simp only [goto, Function.update_apply]
  . exact h.fault
  . rw [h.outstanding, insideCount_stay]
    rw [hpc]
    rfl
  . grind [LogPc.inCommit]
  . grind
  . grind
  . grind [LogPc.inCommit]
  . exact LogHeader.record_blocks_nodup hrec h.nodup
  . have := @LogPc.pastHead_of_erased
    grind [LogPc.erased]
  . have := h.fresh
    grind [LogPc.op?]
  . have := h.freshLogged
    have := h.fresh
    grind
  . have := h.current
    grind [LogPc.op?]
  . have := h.epoch_le
    grind
  . have := h.group
    grind
  . grind [LogPc.pastHead]
  . grind [LogPc.inside]
  . have := h.origin
    grind

theorem Inv.endCommit {p : ι} {k : Nat} (h : Inv s) (hpc : s.pc p = .inOp k)
    (hout : s.outstanding - 1 = 0)
    : Inv
        { goto { s with outstanding := s.outstanding - 1 } p .commit with committing := true } := by
  have hinside : (s.pc p).inside := by rw [hpc]; rfl
  have hcommitting : s.committing = false := h.not_committing hinside
  have hnone := fun q => h.not_inCommit (p := q) hcommitting
  have hpast := fun q => h.not_pastHead (p := q) hcommitting
  have hcount := insideCount_leave (l := .commit) hinside rfl
  have hall : insideCount (Function.update s.pc p .commit) = 0 := by
    have := h.outstanding
    omega
  have hall' := insideCount_eq_zero.mp hall
  simp only [Function.update_apply] at hall'
  have hop := @LogPc.inside_of_op?
  have herased := @LogPc.pastHead_of_erased
  constructor <;> simp only [goto, Function.update_apply]
  . exact h.fault
  . have := h.outstanding
    omega
  . grind
  . intro _
    exact ⟨p, by simp [LogPc.inCommit]⟩
  . grind
  . grind
  . exact h.nodup
  . grind [LogPc.erased]
  . grind
  . exact h.freshLogged
  . grind
  . exact h.epoch_le
  . exact h.group
  . grind [LogPc.pastHead]
  . grind
  . have := h.origin
    grind

theorem Inv.endIdle {p : ι} {k : Nat} (h : Inv s) (hpc : s.pc p = .inOp k)
    (hout : s.outstanding - 1 ≠ 0)
    : Inv (goto { s with outstanding := s.outstanding - 1 } p .idle) := by
  have hinside : (s.pc p).inside := by rw [hpc]; rfl
  have hcommitting : s.committing = false := h.not_committing hinside
  have hnone := fun q => h.not_inCommit (p := q) hcommitting
  have hpast := fun q => h.not_pastHead (p := q) hcommitting
  have hcount := insideCount_leave (l := .idle) hinside rfl
  have herased := @LogPc.pastHead_of_erased
  constructor <;> simp only [goto, Function.update_apply]
  . exact h.fault
  . have := h.outstanding
    omega
  . grind [LogPc.inCommit]
  . grind
  . grind
  . grind [LogPc.inCommit]
  . exact h.nodup
  . grind [LogPc.erased]
  . have := h.fresh
    grind [LogPc.op?]
  . exact h.freshLogged
  . have := h.current
    grind [LogPc.op?]
  . exact h.epoch_le
  . exact h.group
  . grind [LogPc.pastHead]
  . intro _ hall
    have : insideCount (Function.update s.pc p .idle) = 0 := by
      rw [insideCount_eq_zero]
      simp only [Function.update_apply]
      exact hall
    have := h.outstanding
    omega
  . have := h.origin
    grind

-- The commit takes effect: `g` is what is written, all blocks logged since the last commit.
theorem Inv.writeHead {p : ι} {l : LogPc} {m : LogDev} (h : Inv s) (hcommit : (s.pc p).inCommit)
    (hl : l.inCommit) (hlpast : l.pastHead) (herased : l.erased → s.dev.lh.n = 0)
    (hm : m.lh = s.dev.lh)
    : Inv
        { s.goto p l with
          dev := m
          commits := s.commits ++ [s.dev.lh.blocks] } := by
  have hcommitting := h.committing p hcommit
  have hinside := h.exclusive hcommitting
  have hinside' := LogPc.not_inside_of_inCommit hl
  have hone := h.one p
  have hop := @LogPc.inside_of_op?
  constructor <;> simp only [goto, Function.update_apply, hm]
  . exact h.fault
  . rw [h.outstanding, insideCount_stay]
    rw [hinside, hinside']
  . grind
  . intro _
    exact ⟨p, by simp [hl]⟩
  . grind
  . grind
  . exact h.nodup
  . have := h.erased
    grind
  . grind
  . exact h.freshLogged
  . grind
  . have := h.epoch_le
    grind
  . have := h.epoch_le
    have := h.group
    grind
  . have := h.epoch_le
    grind
  . grind
  . intro b hb
    left
    exact ⟨p, by simp [hlpast]⟩

theorem Inv.clear {p : ι} (h : Inv s) (hpc : s.pc p = .clear)
    : Inv { s.goto p .eraseHead with dev := { s.dev with lh := s.dev.lh.clear } } := by
  have hcommit : (s.pc p).inCommit := by rw [hpc]; rfl
  have hcommitting := h.committing p hcommit
  have hinside := h.exclusive hcommitting
  have hone := h.one p
  have hop := @LogPc.inside_of_op?
  have hpast := h.past p (by rw [hpc]; rfl)
  constructor <;> simp only [goto, Function.update_apply]
  . exact h.fault
  . rw [h.outstanding, insideCount_stay]
    rw [hpc]
    rfl
  . grind
  . intro _
    exact ⟨p, by simp [LogPc.inCommit]⟩
  . grind [LogPc.inside]
  . grind
  . simp [LogHeader.blocks]
  . simp
  . grind [LogPc.op?]
  . exact h.freshLogged
  . grind [LogPc.op?]
  . exact h.epoch_le
  . have := h.group
    grind
  . grind
  . grind
  . simp [LogHeader.blocks]

theorem Inv.finish {p : ι} (h : Inv s) (hpc : s.pc p = .committed)
    : Inv { s.goto p .idle with committing := false } := by
  have hcommit : (s.pc p).inCommit := by rw [hpc]; rfl
  have hcommitting := h.committing p hcommit
  have hinside := h.exclusive hcommitting
  have hone := h.one p
  have hop := @LogPc.inside_of_op?
  have hpast := h.past p (by rw [hpc]; rfl)
  have hzero := h.erased p (by rw [hpc]; rfl)
  have hblocks : s.dev.lh.blocks = [] := by simp [LogHeader.blocks, hzero]
  constructor <;> simp only [goto, Function.update_apply]
  . exact h.fault
  . rw [h.outstanding, insideCount_stay]
    rw [hpc]
    rfl
  . grind [LogPc.inCommit]
  . simp
  . simp
  . grind [LogPc.inCommit]
  . exact h.nodup
  . intros
    exact hzero
  . grind [LogPc.op?]
  . exact h.freshLogged
  . grind [LogPc.op?]
  . exact h.epoch_le
  . exact h.group
  . grind
  . grind
  . simp [hblocks]

theorem Inv.move {p : ι} {l l' : LogPc} {m : LogDev} (h : Inv s) (hpc : s.pc p = l)
    (hinside : l'.inside = l.inside) (hcommit : l'.inCommit = l.inCommit)
    (hpast : l'.pastHead = l.pastHead) (herased : l'.erased = l.erased) (hop : l'.op? = l.op?)
    (hm : m.lh = s.dev.lh)
    : Inv { s.goto p l' with dev := m } := by
  have key : ∀ {α : Type} (f : LogPc → α), f l' = f l →
      ∀ q, f ((s.goto p l').pc q) = f (s.pc q) := by
    intro α f hf q
    unfold goto
    simp only [Function.update_apply]
    split
    next heq => rw [heq, hpc, hf]
    . rfl
  exact h.stutter h.fault (key _ hinside) (key _ hcommit) (key _ hpast) (key _ herased) (key _ hop)
    rfl rfl hm rfl rfl rfl rfl

theorem Inv.step {e : LogEvent ι} (h : Inv s) (hstep : Step start size s e t) : Inv t := by
  cases hstep.moves with
  | wait hinside hcommit =>
    rename_i p
    have hl : s.pc p = .idle ∨ s.pc p = .waiting := by
      generalize s.pc p = l at hinside hcommit
      cases l <;> simp_all [LogPc.inside, LogPc.inCommit]
    cases hl with
    | inl hl => exact h.move hl rfl rfl rfl rfl rfl rfl
    | inr hl => exact h.move hl rfl rfl rfl rfl rfl rfl
  | begin hinside _ hcommitting _ => exact h.begin hinside hcommitting
  | tooBig c hpc _ => exact h.fail (by decide) rfl
  | tested c hpc => exact h.move (m := { s.dev with cache := c }) hpc rfl rfl rfl rfl rfl rfl
  | outsideOfTrans hpc _ => exact h.fail (by decide) rfl
  | locking hpc => exact h.move hpc rfl rfl rfl rfl rfl rfl
  | record hpc hrec => exact h.record hpc hrec
  | overflow hpc hrec =>
    rw [LogHeader.record_error hrec]
    exact h.fail (by decide) rfl
  | endCommitting hpc hcommitting =>
    have := h.exclusive hcommitting
    grind [LogPc.inside]
  | endCommit hpc _ hout => exact h.endCommit hpc hout
  | endIdle hpc hout => exact h.endIdle hpc hout
  | advance hpc hl hl' hpast herased hm =>
    apply h.move hpc _ _ hpast herased _ hm
    . rw [LogPc.not_inside_of_inCommit hl, LogPc.not_inside_of_inCommit hl']
    . rw [hl, hl']
    . rw [LogPc.op?_of_inCommit hl, LogPc.op?_of_inCommit hl']
  | empty hpc hn =>
    have hblocks : s.dev.lh.blocks = [] := by simp [LogHeader.blocks, hn]
    rw [← hblocks]
    exact h.writeHead (by rw [hpc]; rfl) rfl rfl (fun _ => hn) rfl
  | writeHead hpc hm => exact h.writeHead (by rw [hpc]; rfl) rfl rfl (by simp [LogPc.erased]) hm
  | clear hpc => exact h.clear hpc
  | finish hpc => exact h.finish hpc

end LogSys

theorem LogDev.recoverFromLog_n {start : Nat} {m m' : LogDev}
    (h : recoverFromLog start m = .ok m')
    : m'.lh.n = 0 := by
  unfold recoverFromLog at h
  generalize readHead start m = res at h
  cases res with
  | error => contradiction
  | ok m₁ =>
    cases h
    rfl

namespace LogSys

variable {ι : Type}

theorem initlog_eq {d : Nat → Block} {s : LogSys ι} (h : initlog d = .ok s)
    : ∃ m : LogDev, m.lh.n = 0 ∧
        s = ⟨m, 0, false, fun _ => .idle, none, 0, fun _ => 0, [], []⟩ := by
  unfold initlog at h
  generalize hres : LogDev.recoverFromLog (readsb d).logstart (LogDev.boot d) = res at h
  cases res with
  | error =>
    simp only [hres] at h
    contradiction
  | ok m =>
    simp only [hres] at h
    cases h
    exact ⟨m, LogDev.recoverFromLog_n hres, rfl⟩

variable [Fintype ι]

theorem Inv.init {d : Nat → Block} {s : LogSys ι} (h : initlog d = .ok s) : Inv s := by
  rcases initlog_eq h with ⟨m, hn, rfl⟩
  constructor <;> simp [insideCount, LogPc.inside, LogPc.inCommit, LogPc.pastHead, LogPc.op?,
    LogPc.erased, LogHeader.blocks, hn]

variable [DecidableEq ι] {start size : Nat} {ok : LogSys ι → LogEvent ι → Prop} {d : Nat → Block}
  {s₀ s t : LogSys ι} {e : LogEvent ι} {es : List (LogEvent ι)}

theorem Inv.run (hinit : initlog d = .ok s₀)
    (hrun : Transition.Run (Step start size) ok s₀ es s)
    : Inv s := by
  apply hrun.invariant (P := Inv)
  . intro s e t h _ hstep
    exact h.step hstep
  . exact Inv.init hinit

theorem Inv.logWrite_disabled (h : Inv s) (hcommitting : s.committing) (he : e.isLogWrite)
    : ¬ Step start size s e t := by
  intro hstep
  have hinside := h.exclusive hcommitting
  cases hstep.moves <;> grind [LogEvent.isLogWrite, LogPc.inside]

theorem group_commit_of_run (hinit : initlog d = .ok s₀)
    (hrun : Transition.Run (Step (readsb d).logstart (readsb d).nlog) (fun _ _ => True) s₀ es s)
    : s.outstanding = insideCount s.pc ∧
        (s.committing ↔ ∃ p, (s.pc p).inCommit) ∧
        (s.committing → s.outstanding = 0) ∧
        s.fault ≠ some (.panic "log.committing") ∧
        (∀ e t, s.committing → e.isLogWrite →
          Step (readsb d).logstart (readsb d).nlog s e t → t.dev.lh = s.dev.lh) ∧
        s.dev.lh.blocks.Nodup ∧
        (∀ k b, (k, b) ∈ s.logged →
          s.epoch k ≤ s.commits.length ∧ b ∈ (s.commits[s.epoch k]?).getD s.dev.lh.blocks) ∧
        (¬ s.committing → s.outstanding = 0 →
          ∀ k b, (k, b) ∈ s.logged → ∃ g, s.commits[s.epoch k]? = some g ∧ b ∈ g) := by
  have h := Inv.run hinit hrun
  refine ⟨h.outstanding, ?_, ?_, h.fault, ?_, h.nodup, ?_, ?_⟩
  . constructor
    . exact h.running
    . intro hp
      rcases hp with ⟨p, hp⟩
      exact h.committing p hp
  . intro hcommitting
    rw [h.outstanding, insideCount_eq_zero.mpr (h.exclusive hcommitting)]
    rfl
  . intro e t hcommitting he hstep
    exact absurd hstep (h.logWrite_disabled hcommitting he)
  . intro k b hmem
    exact ⟨h.epoch_le _ hmem, h.group _ hmem⟩
  . intro hcommitting hout k b hmem
    have hzero : insideCount s.pc = 0 := by
      have := h.outstanding
      omega
    have hlt := h.settled (by simpa using hcommitting) (insideCount_eq_zero.mp hzero) _ hmem
    have hgroup := h.group _ hmem
    rw [List.getElem?_eq_getElem hlt] at hgroup ⊢
    exact ⟨_, rfl, hgroup⟩

def logEvents (p : Fin 3) (b : BitVec 32) : List (LogEvent (Fin 3)) :=
  [.logWrite p b Bytes.zero, .testOutstanding p, .record p]

def overlapping : List (LogEvent (Fin 3)) :=
  [.beginOp 0, .beginOp 1] ++ logEvents 0 100 ++ logEvents 1 101 ++ [.endOp 0] ++ logEvents 1 100 ++
    [.endOp 1] ++ List.replicate 11 (.commit 1)

theorem group_commit_of_overlapping
    : ∃ s₀ s, initlog Mkfs.image = .ok s₀ ∧
        Transition.Run (Step (readsb Mkfs.image).logstart (readsb Mkfs.image).nlog)
          (fun _ _ => True) s₀ overlapping s ∧
        (0, 100) ∈ s.logged ∧ ∃ g, s.commits[s.epoch 0]? = some g ∧ 100 ∈ g := by
  have hexec : (execute Mkfs.image (fun _ _ => True) overlapping).map
      (fun s => (s.logged, s.committing, s.outstanding)) =
        some ([(0, 100), (1, 101), (1, 100)], false, 0) := by
    decide +kernel
  rcases Option.map_eq_some_iff.mp hexec with ⟨s, hs, heq⟩
  simp only [Prod.mk.injEq] at heq
  rcases heq with ⟨hlogged, hcommitting, hout⟩
  rcases execute_run hs with ⟨s₀, hinit, hrun⟩
  have hmem : (0, 100) ∈ s.logged := by simp [hlogged]
  refine ⟨s₀, s, hinit, hrun, hmem, ?_⟩
  rcases group_commit_of_run hinit hrun with ⟨_, _, _, _, _, _, _, hgroup⟩
  exact hgroup (by simp [hcommitting]) hout 0 100 hmem

end LogSys

end Xv6
