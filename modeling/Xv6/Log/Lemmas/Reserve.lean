import Mathlib.Algebra.Order.BigOperators.Group.Finset
import Mathlib.Order.CompleteLattice.Finset
import Xv6.Log.Lemmas.Op

/-!
The space that `begin_op` reserves in the log against the space that `log_write` and `write_log` use.
-/

namespace Xv6

def LogPc.pending : LogPc → Finset (BitVec 32)
  | .tested _ b => {b}
  | .locking _ b => {b}
  | _ => ∅

namespace LogSys

variable {ι : Type}

def opBlocks (s : LogSys ι) (k : Nat) : Finset (BitVec 32) :=
  ((s.logged.filter (fun x => x.1 = k)).map Prod.snd).toFinset

-- Every operation calls log_write on at most MAXOPBLOCKS distinct blocks.
def OpBounded (s : LogSys ι) : LogEvent ι → Prop
  | .logWrite p b _ => ∀ k ∈ (s.pc p).op?, (insert b (s.opBlocks k)).card ≤ MAXOPBLOCKS
  | _ => True

instance (s : LogSys ι) : ∀ e : LogEvent ι, Decidable (OpBounded s e)
  | .logWrite p b _ =>
    inferInstanceAs (Decidable (∀ k ∈ (s.pc p).op?, (insert b (s.opBlocks k)).card ≤ MAXOPBLOCKS))
  | .beginOp _ => .isTrue trivial
  | .testOutstanding _ => .isTrue trivial
  | .record _ => .isTrue trivial
  | .endOp _ => .isTrue trivial
  | .commit _ => .isTrue trivial

/--
When begin_op lets an operation in, the reservation leaves one of the data blocks of the log, of which
there are `size - 1`; and every operation keeps to its MAXOPBLOCKS.
-/
def Reserves (size : Nat) (s : LogSys ι) : LogEvent ι → Prop
  | .beginOp _ =>
    s.committing = false → s.dev.lh.n + (s.outstanding + 1) * MAXOPBLOCKS ≤ LOGSIZE →
      s.dev.lh.n + (s.outstanding + 1) * MAXOPBLOCKS ≤ (size : Int) - 2
  | e => OpBounded s e

instance (size : Nat) (s : LogSys ι) : ∀ e : LogEvent ι, Decidable (Reserves size s e)
  | .beginOp _ => inferInstanceAs (Decidable (s.committing = false → _ ≤ _ → _ ≤ _))
  | .logWrite p b x => inferInstanceAs (Decidable (OpBounded s (.logWrite p b x)))
  | .testOutstanding _ => .isTrue trivial
  | .record _ => .isTrue trivial
  | .endOp _ => .isTrue trivial
  | .commit _ => .isTrue trivial

-- what the operation of a process may still log
def left (s : LogSys ι) (p : ι) : Nat :=
  match (s.pc p).op? with
  | none => 0
  | some k => MAXOPBLOCKS - (s.opBlocks k ∪ (s.pc p).pending).card

variable {size : Nat} {s t : LogSys ι}

theorem left_le (s : LogSys ι) (p : ι)
    : ((s.pc p).pending \ s.dev.lh.blocks.toFinset).card + s.left p ≤
        if (s.pc p).inside then MAXOPBLOCKS else 0 := by
  have hpending : ∀ k b, (({b} : Finset (BitVec 32)) \ s.dev.lh.blocks.toFinset).card +
      (MAXOPBLOCKS - (s.opBlocks k ∪ {b}).card) ≤ MAXOPBLOCKS := by
    intro k b
    have hone : (({b} : Finset (BitVec 32)) \ s.dev.lh.blocks.toFinset).card ≤ 1 :=
      Finset.card_le_card Finset.sdiff_subset
    have hpos : 0 < (s.opBlocks k ∪ {b}).card := Finset.card_pos.mpr ⟨b, by simp⟩
    have : MAXOPBLOCKS = 10 := rfl
    omega
  unfold left
  cases s.pc p with
  | inOp k =>
    simp only [LogPc.pending, LogPc.op?, LogPc.inside, Finset.empty_sdiff, Finset.card_empty]
    exact Nat.le_trans (Nat.le_of_eq (Nat.zero_add _)) (Nat.sub_le _ _)
  | tested k b => exact hpending k b
  | locking k b => exact hpending k b
  | _ => simp [LogPc.pending, LogPc.op?]

theorem left_goto [DecidableEq ι] {p q : ι} {l : LogPc} (hpc : t.pc = Function.update s.pc p l)
    (hops : ∀ k, s.opBlocks k ⊆ t.opBlocks k) (hq : q ≠ p)
    : t.left q ≤ s.left q := by
  unfold left
  rw [hpc, Function.update_of_ne hq]
  split
  . exact Nat.le_refl _
  . apply Nat.sub_le_sub_left
    exact Finset.card_le_card (Finset.union_subset_union_left (hops _))

variable [Fintype ι]

-- the blocks of the calls of log_write that have tested the size and not yet recorded their block
def underway (s : LogSys ι) : Finset (BitVec 32) := Finset.univ.biUnion (fun p => (s.pc p).pending)

def claimed (s : LogSys ι) : Finset (BitVec 32) := s.dev.lh.blocks.toFinset ∪ s.underway

structure Room (size : Nat) (s : LogSys ι) : Prop where
  fault : s.fault = none
  room : s.claimed.card + ∑ p, s.left p ≤ size - 2

theorem Inv.card_blocks (h : Inv s) : s.dev.lh.blocks.toFinset.card = s.dev.lh.n := by
  rw [List.toFinset_card_of_nodup h.nodup, LogHeader.length_blocks]

theorem Room.n_le (hroom : Room size s) (h : Inv s) : s.dev.lh.n ≤ size - 2 := by
  have hle : s.dev.lh.blocks.toFinset.card ≤ s.claimed.card :=
    Finset.card_le_card Finset.subset_union_left
  have := hroom.room
  rw [h.card_blocks] at hle
  omega

theorem mem_underway {p : ι} {b : BitVec 32} (h : b ∈ (s.pc p).pending) : b ∈ s.underway := by
  unfold underway
  rw [Finset.mem_biUnion]
  exact ⟨p, Finset.mem_univ p, h⟩

theorem Inv.opBlocks_subset {p : ι} {k : Nat} (h : Inv s) (hp : (s.pc p).op? = some k)
    : s.opBlocks k ⊆ s.dev.lh.blocks.toFinset := by
  intro b hb
  unfold opBlocks at hb
  simp only [List.mem_toFinset, List.mem_map, List.mem_filter, decide_eq_true_eq] at hb ⊢
  rcases hb with ⟨x, ⟨hx, rfl⟩, rfl⟩
  have hgroup := h.group x hx
  rw [h.current p x.1 hp, List.getElem?_eq_none (Nat.le_refl _)] at hgroup
  exact hgroup

theorem Inv.claimed_add_left_le (h : Inv s)
    : s.claimed.card + ∑ p, s.left p ≤ s.dev.lh.n + insideCount s.pc * MAXOPBLOCKS := by
  have hsub : s.claimed ⊆ s.dev.lh.blocks.toFinset ∪
      Finset.univ.biUnion fun p => (s.pc p).pending \ s.dev.lh.blocks.toFinset := by
    intro b hb
    unfold claimed underway at hb
    simp only [Finset.mem_union, Finset.mem_biUnion, Finset.mem_sdiff] at hb ⊢
    by_cases hin : b ∈ s.dev.lh.blocks.toFinset
    . exact .inl hin
    . rcases hb.resolve_left hin with ⟨p, hp, hpb⟩
      exact .inr ⟨p, hp, hpb, hin⟩
  have hcard : s.claimed.card ≤
      s.dev.lh.n + ∑ p, ((s.pc p).pending \ s.dev.lh.blocks.toFinset).card := by
    rw [← h.card_blocks]
    refine le_trans (Finset.card_le_card hsub) (le_trans (Finset.card_union_le _ _) ?_)
    exact Nat.add_le_add_left Finset.card_biUnion_le _
  have hsum := Finset.sum_le_sum fun p (_ : p ∈ Finset.univ) => left_le s p
  rw [Finset.sum_add_distrib, ← Finset.sum_filter, Finset.sum_const, Nat.nsmul_eq_mul] at hsum
  unfold insideCount
  omega

theorem Room.init {d : Nat → Block} (hinit : initlog d = .ok s) : Room size s := by
  rcases initlog_eq hinit with ⟨m, hn, rfl⟩
  constructor
  . rfl
  . have hunder : Finset.univ.biUnion (fun _ : ι => (∅ : Finset (BitVec 32))) = ∅ := by
      ext
      simp
    simp [claimed, underway, left, LogPc.op?, LogPc.pending, LogHeader.blocks, hn, hunder]

variable [DecidableEq ι]

theorem underway_goto {p : ι} {l : LogPc} (hpc : t.pc = Function.update s.pc p l)
    : t.underway ⊆ s.underway ∪ l.pending := by
  intro b hb
  unfold underway at hb
  rw [Finset.mem_biUnion] at hb
  rcases hb with ⟨q, _, hq⟩
  rw [hpc, Function.update_apply] at hq
  rw [Finset.mem_union]
  split at hq
  . exact .inr hq
  . exact .inl (mem_underway hq)

theorem Room.mono {p : ι} {l : LogPc} (h : Room size s) (hfault : t.fault = s.fault)
    (hpc : t.pc = Function.update s.pc p l) (hops : ∀ k, s.opBlocks k ⊆ t.opBlocks k)
    (hblocks : t.dev.lh.blocks.toFinset ⊆ s.claimed) (hpending : l.pending ⊆ s.claimed)
    (hleft : t.left p ≤ s.left p)
    : Room size t := by
  constructor
  . rw [hfault]
    exact h.fault
  . refine le_trans (Nat.add_le_add (Finset.card_le_card ?_) (Finset.sum_le_sum ?_)) h.room
    . apply Finset.union_subset hblocks
      apply subset_trans (underway_goto (s := s) hpc)
      exact Finset.union_subset Finset.subset_union_right hpending
    . intro q _
      by_cases hq : q = p
      . rw [hq]
        exact hleft
      . exact left_goto hpc hops hq

-- the process is not inside an operation afterwards
theorem Room.leave {p : ι} {l : LogPc} (h : Room size s) (hfault : t.fault = s.fault)
    (hpc : t.pc = Function.update s.pc p l) (hl : l.inside = false) (hlogged : t.logged = s.logged)
    (hblocks : t.dev.lh.blocks.toFinset ⊆ s.dev.lh.blocks.toFinset)
    : Room size t := by
  have hop : l.op? = none ∧ l.pending = ∅ := by
    cases l <;> simp_all [LogPc.inside, LogPc.op?, LogPc.pending]
  apply h.mono hfault hpc
  . intro k
    unfold opBlocks
    rw [hlogged]
  . exact subset_trans hblocks Finset.subset_union_left
  . rw [hop.2]
    exact Finset.empty_subset _
  . unfold left
    rw [hpc, Function.update_self, hop.1]
    exact Nat.zero_le _

theorem Room.tested {p : ι} {k : Nat} {b : BitVec 32} (h : Inv s) (hroom : Room size s)
    (hpc : s.pc p = .inOp k) (hbound : (insert b (s.opBlocks k)).card ≤ MAXOPBLOCKS)
    (hfault : t.fault = s.fault) (hpc' : t.pc = Function.update s.pc p (.tested k b))
    (hlogged : t.logged = s.logged) (hlh : t.dev.lh = s.dev.lh)
    : Room size t := by
  have hops : ∀ k, t.opBlocks k = s.opBlocks k := by
    intro k
    unfold opBlocks
    rw [hlogged]
  have hleft : s.left p = MAXOPBLOCKS - (s.opBlocks k).card := by
    simp [left, hpc, LogPc.op?, LogPc.pending]
  have hleft' : t.left p = MAXOPBLOCKS - (insert b (s.opBlocks k)).card := by
    simp only [left, hpc', Function.update_self, LogPc.op?, LogPc.pending, hops]
    rw [Finset.union_comm, ← Finset.insert_eq]
  by_cases hb : b ∈ s.claimed
  . apply hroom.mono hfault hpc' (fun k => by rw [hops])
    . rw [hlh]
      exact Finset.subset_union_left
    . exact Finset.singleton_subset_iff.mpr hb
    . rw [hleft, hleft']
      exact Nat.sub_le_sub_left (Finset.card_le_card (Finset.subset_insert _ _)) _
  . have hnew : b ∉ s.opBlocks k := fun hk =>
      hb (Finset.mem_union_left _ (h.opBlocks_subset (by rw [hpc]; rfl) hk))
    rw [Finset.card_insert_of_notMem hnew] at hbound hleft'
    have hclaimed : t.claimed ⊆ insert b s.claimed := by
      unfold claimed
      rw [hlh, Finset.insert_eq, Finset.union_comm {b}, Finset.union_assoc]
      apply Finset.union_subset_union_right
      exact underway_goto hpc'
    have hcard := le_trans (Finset.card_le_card hclaimed) (Finset.card_insert_le _ _)
    -- the block is new, so that it comes out of what the operation has left
    have hsum : ∑ q, t.left q < ∑ q, s.left q := by
      apply Finset.sum_lt_sum
      . intro q _
        by_cases hq : q = p
        . rw [hq, hleft, hleft']
          omega
        . exact left_goto hpc' (fun k => by rw [hops]) hq
      . refine ⟨p, Finset.mem_univ p, ?_⟩
        rw [hleft, hleft']
        omega
    have := hroom.room
    exact ⟨hfault.trans hroom.fault, by omega⟩

theorem Room.begin {p : ι} (h : Inv s) (hroom : Room size s) {k : Nat}
    (hres : s.dev.lh.n + (s.outstanding + 1) * MAXOPBLOCKS ≤ (size : Int) - 2)
    (hfault : t.fault = s.fault) (hpc : t.pc = Function.update s.pc p (.inOp k))
    (hlogged : t.logged = s.logged) (hlh : t.dev.lh = s.dev.lh)
    : Room size t := by
  have hclaimed : t.claimed ⊆ s.claimed := by
    unfold claimed
    rw [hlh]
    apply Finset.union_subset_union_right
    have hunder := underway_goto (s := s) hpc
    rwa [show (LogPc.inOp k).pending = ∅ from rfl, Finset.union_empty] at hunder
  have hleft : ∀ q, t.left q ≤ s.left q + if q = p then MAXOPBLOCKS else 0 := by
    intro q
    split
    next hq =>
      refine le_trans ?_ (Nat.le_add_left _ _)
      simp only [left, hpc, hq, Function.update_self, LogPc.op?]
      exact Nat.sub_le _ _
    next hq =>
      refine left_goto hpc (fun k => ?_) hq
      unfold opBlocks
      rw [hlogged]
  have hsum := Finset.sum_le_sum fun q (_ : q ∈ Finset.univ) => hleft q
  rw [Finset.sum_add_distrib, Finset.sum_ite_eq' Finset.univ p, if_pos (Finset.mem_univ p)] at hsum
  have hcard := Finset.card_le_card hclaimed
  have hbefore := h.claimed_add_left_le
  have hout := h.outstanding
  have hmax : MAXOPBLOCKS = 10 := rfl
  rw [hmax] at hres hsum hbefore
  exact ⟨hfault.trans hroom.fault, by omega⟩

theorem Room.step {start : Nat} {e : LogEvent ι} (hsize : 2 ≤ size ∧ size ≤ LOGSIZE) (h : Inv s)
    (hroom : Room size s) (hres : Reserves size s e) (hstep : Step start size s e t)
    : Room size t := by
  cases hstep.moves with
  | wait => exact hroom.leave rfl rfl rfl rfl (subset_refl _)
  | begin _ _ hcommitting hn => exact hroom.begin h (hres hcommitting hn) rfl rfl rfl rfl
  | tooBig c hpc hbig =>
    have := hroom.n_le h
    omega
  | @tested p k b data c hpc => exact hroom.tested h hpc (hres k (by rw [hpc]; rfl)) rfl rfl rfl rfl
  | @outsideOfTrans p k b hpc hout =>
    have hpos : 0 < insideCount s.pc := insideCount_pos (p := p) (by rw [hpc]; rfl)
    have := h.outstanding
    omega
  | @locking p k b hpc =>
    have hpending : (s.pc p).pending = {b} := by rw [hpc]; rfl
    refine hroom.mono (p := p) (l := .locking k b) rfl rfl (fun _ => subset_refl _)
      Finset.subset_union_left ?_ ?_
    . refine Finset.singleton_subset_iff.mpr (Finset.mem_union_right _ (mem_underway (p := p) ?_))
      rw [hpending]
      exact Finset.mem_singleton_self b
    . simp [left, goto, hpc, LogPc.op?, LogPc.pending, opBlocks]
  | @record p k b lh hpc hrec =>
    have hpending : b ∈ s.underway := by
      apply mem_underway (p := p)
      rw [hpc]
      exact Finset.mem_singleton_self b
    refine hroom.mono (p := p) (l := .inOp k) rfl rfl ?_ ?_ ?_ ?_
    . intro j
      simp only [opBlocks, List.filter_append, List.map_append, List.toFinset_append]
      exact Finset.subset_union_left
    . intro c hc
      rw [List.mem_toFinset, LogHeader.mem_record_blocks hrec] at hc
      unfold claimed
      rw [Finset.mem_union, List.mem_toFinset]
      rcases hc with hc | rfl
      . exact .inl hc
      . exact .inr hpending
    . exact Finset.empty_subset _
    . simp [left, goto, hpc, LogPc.op?, LogPc.pending, opBlocks]
  | @overflow p k b f hpc hrec =>
    have hn := hroom.n_le h
    have hpos : 0 < LOGSIZE := by decide
    rcases s.dev.lh.record_ok b (by omega) with ⟨lh, hok⟩
    rw [hrec] at hok
    contradiction
  | endCommitting hpc hcommitting =>
    have := h.exclusive hcommitting
    grind [LogPc.inside]
  | endCommit => exact hroom.leave rfl rfl rfl rfl (subset_refl _)
  | endIdle => exact hroom.leave rfl rfl rfl rfl (subset_refl _)
  | advance hpc hl hl' hpast herased hm =>
    exact hroom.leave rfl rfl (LogPc.not_inside_of_inCommit hl') rfl (by simp only [hm]; rfl)
  | empty => exact hroom.leave rfl rfl rfl rfl (subset_refl _)
  | writeHead hpc hm => exact hroom.leave rfl rfl rfl rfl (by simp only [hm]; rfl)
  | clear => exact hroom.leave rfl rfl rfl rfl (by simp [LogHeader.blocks])
  | finish => exact hroom.leave rfl rfl rfl rfl (subset_refl _)

theorem log_fits_of_run {d : Nat → Block} {s₀ : LogSys ι} {es : List (LogEvent ι)}
    (hsb : readsb d = Mkfs.sb) (hinit : initlog d = .ok s₀)
    (hrun : Transition.Run (Step (readsb d).logstart (readsb d).nlog) (Reserves (readsb d).nlog) s₀ es s)
    : s.fault = none ∧
        ∀ p tail t, s.pc p = .writeLog tail →
          Step (readsb d).logstart (readsb d).nlog s (.commit p) t →
          ∀ w ∈ t.dev.writes.drop s.dev.writes.length,
            (readsb d).logstart + 1 ≤ w.1 ∧ w.1 ≤ (readsb d).logstart + (readsb d).nlog - 1 := by
  have hsize : 2 ≤ (readsb d).nlog ∧ (readsb d).nlog ≤ LOGSIZE := by
    rw [hsb]
    decide
  have hinv : Inv s ∧ Room (readsb d).nlog s := by
    apply hrun.invariant (P := fun s => Inv s ∧ Room (readsb d).nlog s)
    . intro s e t h hfits hstep
      exact ⟨h.1.step hstep, h.2.step hsize h.1 hfits hstep⟩
    . exact ⟨Inv.init hinit, Room.init hinit⟩
  rcases hinv with ⟨h, hroom⟩
  refine ⟨hroom.fault, ?_⟩
  intro p tail t hpc hstep w hw
  have hn := hroom.n_le h
  simp only [Step, step, commit, hroom.fault, hpc, Option.isSome_none, Bool.false_eq_true,
    ↓reduceIte] at hstep
  split at hstep
  next htail =>
    cases hstep
    simp only [LogDev.writeLog.go, LogDev.bwrite_writes, LogDev.bread_writes, List.drop_left,
      List.mem_singleton] at hw
    rw [hw]
    simp only
    omega
  . cases hstep
    simp [goto] at hw

theorem log_fits_of_overlapping
    : ∃ s₀ s, readsb Mkfs.image = Mkfs.sb ∧ initlog Mkfs.image = .ok s₀ ∧
        Transition.Run (Step (readsb Mkfs.image).logstart (readsb Mkfs.image).nlog)
          (Reserves (readsb Mkfs.image).nlog) s₀ overlapping s ∧ s.fault = none := by
  have hexec : (execute Mkfs.image (Reserves (readsb Mkfs.image).nlog) overlapping).isSome := by
    decide +kernel
  rcases Option.isSome_iff_exists.mp hexec with ⟨s, hs⟩
  rcases execute_run hs with ⟨s₀, hinit, hrun⟩
  have hsb : readsb Mkfs.image = Mkfs.sb := by decide +kernel
  exact ⟨s₀, s, hsb, hinit, hrun, (log_fits_of_run hsb hinit hrun).1⟩

def threeOps : List (LogEvent (Fin 3)) :=
  [.beginOp 0, .beginOp 1, .beginOp 2] ++
    (List.range 29).flatMap (fun i => logEvents ⟨i % 3, by omega⟩ (BitVec.ofNat 32 (100 + i))) ++
    [.logWrite 2 129 Bytes.zero]

theorem log_too_small
    : ∃ s₀ s, readsb Mkfs.image = Mkfs.sb ∧ initlog Mkfs.image = .ok s₀ ∧
        Transition.Run (Step (readsb Mkfs.image).logstart (readsb Mkfs.image).nlog) OpBounded
          s₀ threeOps s ∧
        s.fault = some (.panic "too big a transaction") := by
  have hexec : (execute Mkfs.image OpBounded threeOps).map (fun s => s.fault) =
      some (some (.panic "too big a transaction")) := by
    decide +kernel
  rcases Option.map_eq_some_iff.mp hexec with ⟨s, hs, hfault⟩
  rcases execute_run hs with ⟨s₀, hinit, hrun⟩
  exact ⟨s₀, s, by decide +kernel, hinit, hrun, hfault⟩

end LogSys

end Xv6
