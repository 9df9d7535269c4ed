import Xv6.Data.Fold
import Xv6.Log.Impl.Commit

namespace Xv6

namespace LogHeader

def home (lh : LogHeader) (i : Nat) : Nat :=
  (lh.get i).toNat

structure StoredIn (lh : LogHeader) (b : Block) : Prop where
  n_eq : b.getWord 0 = BitVec.ofNat 32 lh.n
  block_eq : ∀ i, i < lh.n → b.getWord (4 + 4 * i) = lh.get i

theorem store_storedIn (lh : LogHeader) (buf : Block) : lh.StoredIn (lh.store buf) := by
  have hn := lh.n_le
  have h : (lh.store buf).getWord 0 = BitVec.ofNat 32 lh.n ∧
      ∀ i, i < lh.n → (lh.store buf).getWord (4 + 4 * i) = lh.get i := by
    unfold store
    apply Fold.foldl_range (P := fun j (b : Block) => b.getWord 0 = BitVec.ofNat 32 lh.n ∧
      ∀ i, i < j → b.getWord (4 + 4 * i) = lh.get i)
    . refine ⟨Bytes.getWord_setWord _ _ (by decide), ?_⟩
      intros
      omega
    . intro j b hj hb
      constructor
      . rw [Bytes.getWord_setWord_of_disjoint]
        . exact hb.1
        . omega
      . intro i hi
        cases Nat.lt_or_ge i j with
        | inl hij =>
          rw [Bytes.getWord_setWord_of_disjoint]
          . exact hb.2 i hij
          . omega
        | inr hij =>
          have : i = j := by omega
          subst this
          apply Bytes.getWord_setWord
          simp only [LOGSIZE, MAXOPBLOCKS, BSIZE] at hn ⊢
          omega
  exact ⟨h.1, h.2⟩

theorem StoredIn.toNat_eq {lh : LogHeader} {b : Block} (h : lh.StoredIn b)
    : (b.getWord 0).toInt.toNat = lh.n := by
  have hn := lh.n_le
  simp only [LOGSIZE, MAXOPBLOCKS] at hn
  rw [h.n_eq, BitVec.toInt_eq_toNat_of_lt]
  . simp only [BitVec.toNat_ofNat, Int.toNat_natCast]
    omega
  . simp only [BitVec.toNat_ofNat]
    omega

theorem clear_storedIn_iff (lh : LogHeader) (b : Block)
    : lh.clear.StoredIn b ↔ b.getWord 0 = 0 := by
  constructor
  . intro h
    exact h.n_eq
  . intro h
    refine ⟨h, ?_⟩
    intro i hi
    contradiction

end LogHeader

namespace LogDev

@[simp]
theorem bread_fst (m : LogDev) (b : Nat) : (m.bread b).1 = m.contents b := rfl

@[simp]
theorem bread_contents (m : LogDev) (b : Nat) : (m.bread b).2.contents = m.contents := by
  funext x
  by_cases h : x = b <;> simp [bread, contents, h]

@[simp]
theorem bread_lh (m : LogDev) (b : Nat) : (m.bread b).2.lh = m.lh := rfl

@[simp]
theorem bread_disk (m : LogDev) (b : Nat) : (m.bread b).2.disk = m.disk := rfl

@[simp]
theorem bread_writes (m : LogDev) (b : Nat) : (m.bread b).2.writes = m.writes := rfl

@[simp]
theorem bwrite_contents (m : LogDev) (b : Nat) (data : Block)
    : (m.bwrite b data).contents = Function.update m.contents b data := by
  funext x
  by_cases h : x = b
  . subst h
    simp [bwrite, contents]
  . simp [bwrite, contents, h]

@[simp]
theorem bwrite_lh (m : LogDev) (b : Nat) (data : Block) : (m.bwrite b data).lh = m.lh := rfl

@[simp]
theorem bwrite_writes (m : LogDev) (b : Nat) (data : Block)
    : (m.bwrite b data).writes = m.writes ++ [(b, data)] := rfl

@[simp]
theorem bwrite_disk (m : LogDev) (b : Nat) (data : Block)
    : (m.bwrite b data).disk = Function.update m.disk b data := rfl

def Traced (d : Nat → Block) (m : LogDev) : Prop :=
  m.disk = Writes.apply d m.writes

theorem Traced.bwrite {d : Nat → Block} {m : LogDev} (h : Traced d m) (b : Nat) (data : Block)
    : Traced d (m.bwrite b data) := by
  unfold Traced at *
  rw [bwrite_disk, bwrite_writes, Writes.apply_append, ← h]
  rfl

def logTrace (start : Nat) (C : Nat → Block) (n : Nat) : List (Nat × Block) :=
  (List.range n).map (fun i => (start + i + 1, C i))

def homeTrace (lh : LogHeader) (C : Nat → Block) (n : Nat) : List (Nat × Block) :=
  (List.range n).map (fun i => (lh.home i, C i))

section

variable (start : Nat) {d : Nat → Block} {m : LogDev} {C : Nat → Block}

theorem writeLog_spec (hd : Traced d m)
    (hC : ∀ i, i < m.lh.n → m.contents (m.lh.home i) = C i)
    (hout : ∀ i, i < m.lh.n → m.lh.home i < start ∨ start + m.lh.n < m.lh.home i)
    : Traced d (writeLog start m) ∧ (writeLog start m).lh = m.lh ∧
        (writeLog start m).writes = m.writes ++ logTrace start C m.lh.n ∧
        ∀ i, i < m.lh.n → (writeLog start m).contents (start + i + 1) = C i := by
  have h : Traced d (writeLog start m) ∧ (writeLog start m).lh = m.lh ∧
      (writeLog start m).writes = m.writes ++ logTrace start C m.lh.n ∧
      (∀ i, i < m.lh.n → (writeLog start m).contents (start + i + 1) = C i) ∧
      ∀ i, i < m.lh.n → (writeLog start m).contents (m.lh.home i) = C i := by
    unfold writeLog
    apply Fold.foldl_range (P := fun j m' => Traced d m' ∧ m'.lh = m.lh ∧
      m'.writes = m.writes ++ logTrace start C j ∧
      (∀ i, i < j → m'.contents (start + i + 1) = C i) ∧
      ∀ i, i < m.lh.n → m'.contents (m.lh.home i) = C i)
    . refine ⟨hd, rfl, ?_, ?_, hC⟩
      . simp [logTrace]
      . intros
        omega
    . intro j m' hj hm'
      rcases hm' with ⟨htraced, hlh, hwrites, hlog, hhome⟩
      have hdata : m'.contents (m.lh.get j).toNat = C j := hhome j hj
      refine ⟨?_, ?_, ?_, ?_, ?_⟩
      . apply Traced.bwrite
        exact htraced
      . simp [writeLog.go, hlh]
      . simp [writeLog.go, hlh, hwrites, hdata, logTrace, List.range_succ]
      . intro i hi
        simp only [writeLog.go, bwrite_contents, bread_contents, bread_fst, bread_lh, hlh, hdata,
          Function.update_apply]
        split
        . congr
          omega
        . apply hlog
          omega
      . intro i hi
        have := hout i hi
        simp only [writeLog.go, bwrite_contents, bread_contents, bread_fst, bread_lh, hlh,
          Function.update_apply]
        split
        . omega
        . exact hhome i hi
  exact ⟨h.1, h.2.1, h.2.2.1, h.2.2.2.1⟩

theorem installTrans_spec (hd : Traced d m)
    (hC : ∀ i, i < m.lh.n → m.contents (start + i + 1) = C i)
    (hout : ∀ i, i < m.lh.n → m.lh.home i < start ∨ start + m.lh.n < m.lh.home i)
    : Traced d (installTrans start m) ∧ (installTrans start m).lh = m.lh ∧
        (installTrans start m).writes = m.writes ++ homeTrace m.lh C m.lh.n := by
  have h : Traced d (installTrans start m) ∧ (installTrans start m).lh = m.lh ∧
      (installTrans start m).writes = m.writes ++ homeTrace m.lh C m.lh.n ∧
      ∀ i, i < m.lh.n → (installTrans start m).contents (start + i + 1) = C i := by
    unfold installTrans
    apply Fold.foldl_range (P := fun j m' => Traced d m' ∧ m'.lh = m.lh ∧
      m'.writes = m.writes ++ homeTrace m.lh C j ∧
      ∀ i, i < m.lh.n → m'.contents (start + i + 1) = C i)
    . refine ⟨hd, rfl, ?_, hC⟩
      simp [homeTrace]
    . intro j m' hj hm'
      rcases hm' with ⟨htraced, hlh, hwrites, hlog⟩
      refine ⟨?_, ?_, ?_, ?_⟩
      . apply Traced.bwrite
        exact htraced
      . simp [installTrans.go, hlh]
      . simp [installTrans.go, hlh, hwrites, hlog j hj, homeTrace, LogHeader.home, List.range_succ]
      . intro i hi
        have := hout j hj
        unfold LogHeader.home at this
        simp only [installTrans.go, bwrite_contents, bread_contents, bread_fst, bread_lh, hlh,
          Function.update_apply]
        split
        . omega
        . exact hlog i hi
  exact ⟨h.1, h.2.1, h.2.2.1⟩

theorem writeHead_spec (hd : Traced d m)
    : ∃ hdr, m.lh.StoredIn hdr ∧ Traced d (writeHead start m) ∧ (writeHead start m).lh = m.lh ∧
        (writeHead start m).writes = m.writes ++ [(start, hdr)] ∧
        (writeHead start m).contents = Function.update m.contents start hdr := by
  refine ⟨m.lh.store (m.contents start), ?_, ?_, ?_, ?_, ?_⟩
  . apply LogHeader.store_storedIn
  . apply Traced.bwrite
    exact hd
  . simp [writeHead]
  . simp [writeHead]
  . simp [writeHead]

theorem readHead_spec {lh : LogHeader} (hhead : lh.StoredIn (m.contents start))
    : ∃ m', readHead start m = .ok m' ∧ m'.lh.n = lh.n ∧
        (∀ i, i < lh.n → m'.lh.home i = lh.home i) ∧ m'.contents = m.contents ∧
        m'.disk = m.disk ∧ m'.writes = m.writes := by
  have hn : (Bytes.getWord (m.contents start) 0).toInt.toNat ≤ LOGSIZE := by
    rw [hhead.toNat_eq]
    exact lh.n_le
  refine ⟨_, dif_pos hn, ?_, ?_, ?_, rfl, rfl⟩
  . exact hhead.toNat_eq
  . intro i hi
    have hi' : i < LOGSIZE := Nat.lt_of_lt_of_le hi lh.n_le
    unfold LogHeader.home
    congr 1
    rw [← hhead.block_eq i hi]
    simp [LogHeader.get, hi', hhead.toNat_eq, hi]
  . exact bread_contents m start

theorem recoverFromLog_spec {lh : LogHeader} (hhead : lh.StoredIn (d start))
    (hC : ∀ i, i < lh.n → d (start + i + 1) = C i)
    (hout : ∀ i, i < lh.n → lh.home i < start ∨ start + lh.n < lh.home i)
    : ∃ m hdr, recoverFromLog start (boot d) = .ok m ∧
        m.writes = homeTrace lh C lh.n ++ [(start, hdr)] ∧ hdr.getWord 0 = 0 ∧
        m.disk = Writes.apply d m.writes := by
  rcases readHead_spec start (m := boot d) (show lh.StoredIn ((boot d).contents start) from hhead)
    with ⟨m₁, hread, hn, hhome, hcontents, hdisk, hwrites⟩
  have htraced : Traced d m₁ := by
    unfold Traced
    rw [hdisk, hwrites]
    rfl
  rcases installTrans_spec start (C := C) htraced (by
      intro i hi
      rw [hcontents]
      rw [hn] at hi
      exact hC i hi) (by
      intro i hi
      rw [hn] at hi ⊢
      rw [hhome i hi]
      exact hout i hi) with ⟨htraced₂, hlh₂, hwrites₂⟩
  have htrace : homeTrace m₁.lh C m₁.lh.n = homeTrace lh C lh.n := by
    unfold homeTrace
    rw [hn]
    apply List.map_congr_left
    intro i hi
    rw [hhome i (List.mem_range.mp hi)]
  generalize hm₂ : installTrans start m₁ = m₂ at htraced₂ hlh₂ hwrites₂
  rcases writeHead_spec start (m := { m₂ with lh := m₂.lh.clear }) (d := d) htraced₂
    with ⟨hdr, hstored, htraced₃, _, hwrites₃, _⟩
  refine ⟨_, hdr, ?_, ?_, ?_, htraced₃⟩
  . unfold recoverFromLog
    rw [hread]
    simp only [bind, Except.bind, hm₂]
    rfl
  . rw [hwrites₃]
    simp only
    rw [hwrites₂, hwrites, htrace]
    rfl
  . exact (LogHeader.clear_storedIn_iff _ _).mp hstored

end

/--
The states in which `commit` is called, for a log in the blocks `start` to `start + size - 1`.
-/
structure Committable (start size : Nat) (m : LogDev) : Prop where
  header : (m.disk start).getWord 0 = 0
  fits : m.lh.n + 1 ≤ size
  outside : ∀ b ∈ m.lh.blocks, b.toNat < start ∨ start + size ≤ b.toNat
  writes : m.writes = []

def IsHome (m : LogDev) (b : Nat) : Prop :=
  ∃ x ∈ m.lh.blocks, x.toNat = b

def Outside (start size b : Nat) : Prop :=
  b < start ∨ start + size ≤ b

def cached (m : LogDev) (i : Nat) : Block :=
  m.contents (m.lh.home i)

section

variable {start size : Nat} {m : LogDev} (h : Committable start size m)

theorem isHome_iff (m : LogDev) (b : Nat) : m.IsHome b ↔ ∃ i, i < m.lh.n ∧ m.lh.home i = b := by
  unfold IsHome LogHeader.home
  simp only [LogHeader.mem_blocks]
  grind

include h

theorem Committable.home_outside {i : Nat} (hi : i < m.lh.n)
    : m.lh.home i < start ∨ start + size ≤ m.lh.home i := by
  apply h.outside
  rw [LogHeader.mem_blocks]
  exact ⟨i, hi, rfl⟩

theorem Committable.home_outside' {i : Nat} (hi : i < m.lh.n)
    : m.lh.home i < start ∨ start + m.lh.n < m.lh.home i := by
  have := h.home_outside hi
  have := h.fits
  omega

theorem Committable.commit_writes (hn : 0 < m.lh.n)
    : ∃ hdr₁ hdr₂, m.lh.StoredIn hdr₁ ∧ hdr₂.getWord 0 = 0 ∧
        (commit start m).writes = logTrace start m.cached m.lh.n ++
          (start, hdr₁) :: (homeTrace m.lh m.cached m.lh.n ++ [(start, hdr₂)]) := by
  have htraced : Traced m.disk m := by
    unfold Traced
    rw [h.writes]
    rfl
  rcases writeLog_spec start (C := m.cached) htraced (fun _ _ => rfl)
    (fun i hi => h.home_outside' hi) with ⟨htraced₁, hlh₁, hwrites₁, hlog₁⟩
  generalize hm₁ : writeLog start m = m₁ at htraced₁ hlh₁ hwrites₁ hlog₁
  rcases writeHead_spec start htraced₁
    with ⟨hdr₁, hstored₁, htraced₂, hlh₂, hwrites₂, hcontents₂⟩
  generalize hm₂ : writeHead start m₁ = m₂ at htraced₂ hlh₂ hwrites₂ hcontents₂
  have hlh : m₂.lh = m.lh := by rw [hlh₂, hlh₁]
  rcases installTrans_spec start (C := m.cached) htraced₂ (by
      intro i hi
      rw [hlh] at hi
      rw [hcontents₂, Function.update_of_ne (by omega)]
      exact hlog₁ i hi) (by
      intro i hi
      rw [hlh] at hi ⊢
      exact h.home_outside' hi) with ⟨htraced₃, hlh₃, hwrites₃⟩
  generalize hm₃ : installTrans start m₂ = m₃ at htraced₃ hlh₃ hwrites₃
  rcases writeHead_spec start (m := { m₃ with lh := m₃.lh.clear }) (d := m.disk) htraced₃
    with ⟨hdr₂, hstored₂, _, _, hwrites₄, _⟩
  refine ⟨hdr₁, hdr₂, hlh₁ ▸ hstored₁, (LogHeader.clear_storedIn_iff _ _).mp hstored₂, ?_⟩
  unfold commit
  simp only [gt_iff_lt, hn, ↓reduceIte, hm₁, hm₂, hm₃]
  rw [hwrites₄]
  simp only
  rw [hwrites₃, hwrites₂, hwrites₁, h.writes, hlh]
  simp

end

structure Before (start size : Nat) (m : LogDev) (d : Nat → Block) : Prop where
  header : (d start).getWord 0 = 0
  rest : ∀ b, Outside start size b → d b = m.disk b

structure Committed (start size : Nat) (m : LogDev) (d : Nat → Block) : Prop where
  header : m.lh.StoredIn (d start)
  log : ∀ i, i < m.lh.n → d (start + i + 1) = m.cached i
  rest : ∀ b, Outside start size b → ¬ m.IsHome b → d b = m.disk b

structure After (start size : Nat) (m : LogDev) (d : Nat → Block) : Prop where
  header : (d start).getWord 0 = 0
  home : ∀ b, m.IsHome b → d b = m.contents b
  rest : ∀ b, Outside start size b → ¬ m.IsHome b → d b = m.disk b

theorem ne_of_outside {start size b i : Nat} (hb : Outside start size b) (hi : i < size)
    : b ≠ start + i := by
  unfold Outside at hb
  omega

theorem ne_start_of_outside {start size b : Nat} (hb : Outside start size b) (hsize : 0 < size)
    : b ≠ start :=
  ne_of_outside hb hsize

theorem mem_logTrace {start n : Nat} {C : Nat → Block} {w : Nat × Block}
    : w ∈ logTrace start C n ↔ ∃ i, i < n ∧ (start + i + 1, C i) = w := by
  simp [logTrace]

theorem mem_homeTrace {lh : LogHeader} {n : Nat} {C : Nat → Block} {w : Nat × Block}
    : w ∈ homeTrace lh C n ↔ ∃ i, i < n ∧ (lh.home i, C i) = w := by
  simp [homeTrace]

section

variable {start size : Nat} {m : LogDev} {d : Nat → Block}

theorem mem_homeTrace_iff {w : Nat × Block}
    : w ∈ homeTrace m.lh m.cached m.lh.n ↔ m.IsHome w.1 ∧ w.2 = m.contents w.1 := by
  rw [mem_homeTrace, isHome_iff]
  constructor
  . intro hw
    rcases hw with ⟨i, hi, rfl⟩
    exact ⟨⟨i, hi, rfl⟩, rfl⟩
  . intro hw
    rcases hw with ⟨⟨i, hi, hhome⟩, hval⟩
    refine ⟨i, hi, ?_⟩
    apply Prod.ext
    . exact hhome
    . rw [hval, ← hhome]
      rfl

theorem recoverFromLog_erased (hd : (d start).getWord 0 = 0)
    : ∃ m' hdr, recoverFromLog start (boot d) = .ok m' ∧ hdr.getWord 0 = 0 ∧
        m'.writes = [(start, hdr)] ∧ m'.disk = Function.update d start hdr := by
  rcases recoverFromLog_spec start (C := d)
    ((LogHeader.clear_storedIn_iff LogHeader.zero (d start)).mpr hd) (by intros; contradiction)
    (by intros; contradiction) with ⟨m', hdr, hok, hwrites, hzero, hdisk⟩
  refine ⟨m', hdr, hok, hzero, hwrites, ?_⟩
  rw [hdisk, hwrites]
  rfl

theorem Before.erase (h : Before start size m d) (hsize : 0 < size) {hdr : Block}
    (hhdr : hdr.getWord 0 = 0)
    : Before start size m (Function.update d start hdr) := by
  constructor
  . rw [Function.update_self]
    exact hhdr
  . intro b hb
    rw [Function.update_of_ne (ne_start_of_outside hb hsize)]
    exact h.rest b hb

end

section

variable {start size : Nat} {m : LogDev} {d : Nat → Block} (hm : Committable start size m)

include hm

theorem Committable.isHome_outside {b : Nat} (hb : m.IsHome b) : Outside start size b := by
  rcases hb with ⟨x, hx, rfl⟩
  exact hm.outside x hx

theorem Committable.size_pos : 0 < size := by
  have := hm.fits
  omega

theorem After.erase (h : After start size m d) {hdr : Block} (hhdr : hdr.getWord 0 = 0)
    : After start size m (Function.update d start hdr) := by
  constructor
  . rw [Function.update_self]
    exact hhdr
  . intro b hb
    rw [Function.update_of_ne (ne_start_of_outside (hm.isHome_outside hb) hm.size_pos)]
    exact h.home b hb
  . intro b hb hhome
    rw [Function.update_of_ne (ne_start_of_outside hb hm.size_pos)]
    exact h.rest b hb hhome

theorem Committed.install (h : Committed start size m d) {ws : List (Nat × Block)}
    (hws : ∀ w ∈ ws, m.IsHome w.1)
    : Committed start size m (Writes.apply d ws) := by
  have hfits := hm.fits
  have hkeep : ∀ b, ¬ m.IsHome b → Writes.apply d ws b = d b := by
    intro b hb
    apply Writes.apply_of_notMem
    intro w hw heq
    apply hb
    rw [← heq]
    exact hws w hw
  have hlog : ∀ i, i < size → ¬ m.IsHome (start + i) := by
    intro i hi hhome
    exact ne_of_outside (hm.isHome_outside hhome) hi rfl
  constructor
  . rw [hkeep start (hlog 0 hm.size_pos)]
    exact h.header
  . intro i hi
    rw [Nat.add_assoc, hkeep _ (hlog (i + 1) (by omega)), ← Nat.add_assoc]
    exact h.log i hi
  . intro b hb hhome
    rw [hkeep b hhome]
    exact h.rest b hb hhome

theorem Committed.finish (h : Committed start size m d) {hdr : Block} (hhdr : hdr.getWord 0 = 0)
    : After start size m
        (Writes.apply d (homeTrace m.lh m.cached m.lh.n ++ [(start, hdr)])) := by
  have hinstalled : Committed start size m (Writes.apply d (homeTrace m.lh m.cached m.lh.n)) :=
    Committed.install hm h (fun w hw => (mem_homeTrace_iff.mp hw).1)
  rw [Writes.apply_append]
  simp only [Writes.apply_cons, Writes.apply_nil]
  constructor
  . rw [Function.update_self]
    exact hhdr
  . intro b hb
    rw [Function.update_of_ne (ne_start_of_outside (hm.isHome_outside hb) hm.size_pos)]
    apply Writes.apply_of_mem
    . rw [mem_homeTrace_iff]
      exact ⟨hb, rfl⟩
    . intro w hw heq
      rw [(mem_homeTrace_iff.mp hw).2, heq]
  . intro b hb hhome
    rw [Function.update_of_ne (ne_start_of_outside hb hm.size_pos)]
    exact hinstalled.rest b hb hhome

theorem Committed.cut (h : Committed start size m d) {hdr : Block} (hhdr : hdr.getWord 0 = 0)
    (k : Nat)
    : Committed start size m
          (Writes.apply d ((homeTrace m.lh m.cached m.lh.n ++ [(start, hdr)]).take k)) ∨
        After start size m
          (Writes.apply d ((homeTrace m.lh m.cached m.lh.n ++ [(start, hdr)]).take k)) := by
  cases Nat.lt_or_ge (homeTrace m.lh m.cached m.lh.n).length k with
  | inl hk =>
    right
    rw [List.take_of_length_le]
    . exact Committed.finish hm h hhdr
    . simp only [List.length_append, List.length_singleton]
      omega
  | inr hk =>
    left
    rw [List.take_append_of_le_length hk]
    apply Committed.install hm h
    intro w hw
    exact (mem_homeTrace_iff.mp (List.mem_of_mem_take hw)).1

theorem Committed.recover (h : Committed start size m d)
    : ∃ m' hdr, recoverFromLog start (boot d) = .ok m' ∧ hdr.getWord 0 = 0 ∧
        m'.writes = homeTrace m.lh m.cached m.lh.n ++ [(start, hdr)] ∧
        m'.disk = Writes.apply d m'.writes := by
  rcases recoverFromLog_spec start h.header h.log (fun i hi => hm.home_outside' hi)
    with ⟨m', hdr, hok, hwrites, hzero, hdisk⟩
  exact ⟨m', hdr, hok, hzero, hwrites, hdisk⟩

-- The disk after `commit` has written any number of the blocks of its log and of its header.
theorem Before.log (h : Before start size m d) {ws : List (Nat × Block)}
    (hws : ∀ w ∈ ws, w ∈ logTrace start m.cached m.lh.n)
    : Before start size m (Writes.apply d ws) := by
  have hfits := hm.fits
  constructor
  . rw [Writes.apply_of_notMem]
    . exact h.header
    . intro w hw heq
      rcases mem_logTrace.mp (hws w hw) with ⟨i, hi, rfl⟩
      simp only at heq
      omega
  . intro b hb
    rw [Writes.apply_of_notMem]
    . exact h.rest b hb
    . intro w hw heq
      rcases mem_logTrace.mp (hws w hw) with ⟨i, hi, rfl⟩
      apply ne_of_outside (i := i + 1) hb (by omega)
      exact heq.symm

theorem Before.writeHead (h : Before start size m d) {hdr : Block} (hhdr : m.lh.StoredIn hdr)
    : Committed start size m
        (Function.update (Writes.apply d (logTrace start m.cached m.lh.n)) start hdr) := by
  have hlogged := Before.log hm h (fun w hw => hw)
  constructor
  . rw [Function.update_self]
    exact hhdr
  . intro i hi
    rw [Function.update_of_ne (by omega)]
    apply Writes.apply_of_mem
    . rw [mem_logTrace]
      exact ⟨i, hi, rfl⟩
    . intro w hw heq
      rcases mem_logTrace.mp hw with ⟨j, hj, rfl⟩
      simp only at heq
      have : j = i := by omega
      rw [this]
  . intro b hb _
    rw [Function.update_of_ne (ne_start_of_outside hb hm.size_pos)]
    exact hlogged.rest b hb

theorem Committable.before : Before start size m m.disk :=
  ⟨hm.header, fun _ _ => rfl⟩

theorem Committable.commit_crash (k : Nat)
    : ((¬ ∃ w ∈ (commit start m).writes.take k, w.1 = start) ∧
          Before start size m (Writes.apply m.disk ((commit start m).writes.take k))) ∨
        ((∃ w ∈ (commit start m).writes.take k, w.1 = start) ∧
          (Committed start size m (Writes.apply m.disk ((commit start m).writes.take k)) ∨
            After start size m (Writes.apply m.disk ((commit start m).writes.take k)))) := by
  by_cases hn : 0 < m.lh.n
  . rcases hm.commit_writes hn with ⟨hdr₁, hdr₂, hstored, hzero, hwrites⟩
    rw [hwrites]
    have hlen : (logTrace start m.cached m.lh.n).length = m.lh.n := by simp [logTrace]
    cases Nat.lt_or_ge m.lh.n k with
    | inl hk =>
      right
      rcases Nat.exists_eq_add_of_lt hk with ⟨j, rfl⟩
      have hsub : m.lh.n + j + 1 - m.lh.n = j + 1 := by omega
      rw [List.take_append, List.take_of_length_le (by omega), hlen, hsub, List.take_succ_cons]
      constructor
      . exact ⟨(start, hdr₁), by simp, rfl⟩
      . rw [Writes.apply_append, Writes.apply_cons]
        exact Committed.cut hm (Before.writeHead hm hm.before hstored) hzero j
    | inr hk =>
      left
      rw [List.take_append_of_le_length (by omega)]
      constructor
      . intro hw
        rcases hw with ⟨w, hw, heq⟩
        rcases mem_logTrace.mp (List.mem_of_mem_take hw) with ⟨i, hi, rfl⟩
        simp only at heq
        omega
      . apply Before.log hm hm.before
        intro w hw
        exact List.mem_of_mem_take hw
  . left
    have hwrites : (commit start m).writes = [] := by
      simp [commit, hn, hm.writes]
    rw [hwrites, List.take_nil]
    constructor
    . simp
    . exact hm.before

theorem Before.interrupted {d' : Nat → Block} (hint : Interrupted start d d')
    (h : Before start size m d)
    : Before start size m d' := by
  induction hint with
  | refl => exact h
  | crash k hok _ ih =>
    apply ih
    rcases recoverFromLog_erased h.header with ⟨m', hdr, hok', hzero, hwrites, _⟩
    rw [hok] at hok'
    cases hok'
    rw [hwrites]
    cases k with
    | zero => exact h
    | succ k =>
      rw [List.take_succ_cons, List.take_nil]
      exact h.erase hm.size_pos hzero

theorem After.interrupted {d' : Nat → Block} (hint : Interrupted start d d')
    (h : Committed start size m d ∨ After start size m d)
    : Committed start size m d' ∨ After start size m d' := by
  induction hint with
  | refl => exact h
  | crash k hok _ ih =>
    apply ih
    cases h with
    | inl h =>
      rcases Committed.recover hm h with ⟨m', hdr, hok', hzero, hwrites, _⟩
      rw [hok] at hok'
      cases hok'
      rw [hwrites]
      exact Committed.cut hm h hzero k
    | inr h =>
      right
      rcases recoverFromLog_erased h.header with ⟨m', hdr, hok', hzero, hwrites, _⟩
      rw [hok] at hok'
      cases hok'
      rw [hwrites]
      cases k with
      | zero => exact h
      | succ k =>
        rw [List.take_succ_cons, List.take_nil]
        exact After.erase hm h hzero

theorem Before.recover (h : Before start size m d)
    : ∃ m', recoverFromLog start (boot d) = .ok m' ∧ Before start size m m'.disk := by
  rcases recoverFromLog_erased h.header with ⟨m', hdr, hok, hzero, _, hdisk⟩
  refine ⟨m', hok, ?_⟩
  rw [hdisk]
  exact h.erase hm.size_pos hzero

theorem After.recover (h : Committed start size m d ∨ After start size m d)
    : ∃ m', recoverFromLog start (boot d) = .ok m' ∧ After start size m m'.disk := by
  cases h with
  | inl h =>
    rcases Committed.recover hm h with ⟨m', hdr, hok, hzero, hwrites, hdisk⟩
    refine ⟨m', hok, ?_⟩
    rw [hdisk, hwrites]
    exact Committed.finish hm h hzero
  | inr h =>
    rcases recoverFromLog_erased h.header with ⟨m', hdr, hok, hzero, _, hdisk⟩
    refine ⟨m', hok, ?_⟩
    rw [hdisk]
    exact After.erase hm h hzero

-- `k` writes of `commit` reach the disk, then any number of recoveries are cut short.
theorem commit_crash_atomic (k : Nat)
    (hint : Interrupted start (Writes.apply m.disk ((commit start m).writes.take k)) d)
    : ∃ m', recoverFromLog start (boot d) = .ok m' ∧ (m'.disk start).getWord 0 = 0 ∧
        ((∃ w ∈ (commit start m).writes.take k, w.1 = start) →
          ∀ b, m.IsHome b → m'.disk b = m.contents b) ∧
        ((¬ ∃ w ∈ (commit start m).writes.take k, w.1 = start) →
          ∀ b, m.IsHome b → m'.disk b = m.disk b) ∧
        ∀ b, Outside start size b → ¬ m.IsHome b → m'.disk b = m.disk b := by
  cases hm.commit_crash k with
  | inl h =>
    rcases Before.recover hm (Before.interrupted hm hint h.2) with ⟨m', hok, hbefore⟩
    refine ⟨m', hok, hbefore.header, ?_, ?_, ?_⟩
    . intro hreached
      exact absurd hreached h.1
    . intro _ b hb
      exact hbefore.rest b (hm.isHome_outside hb)
    . intro b hb _
      exact hbefore.rest b hb
  | inr h =>
    rcases After.recover hm (After.interrupted hm hint h.2) with ⟨m', hok, hafter⟩
    refine ⟨m', hok, hafter.header, ?_, ?_, ?_⟩
    . intro _
      exact hafter.home
    . intro hreached
      exact absurd h.1 hreached
    . exact hafter.rest

end

def twoBlocksLogged : LogDev where
  disk := fun _ => Bytes.zero
  cache := fun b => if b = 40 then some (fun _ => 7) else if b = 41 then some (fun _ => 8) else none
  lh := ⟨2, fun i => if i.val = 0 then 40 else 41, by decide⟩
  writes := []

theorem twoBlocksLogged_blocks : twoBlocksLogged.lh.blocks = [40, 41] := rfl

theorem twoBlocksLogged_committable : Committable 2 30 twoBlocksLogged where
  header := by simp [twoBlocksLogged]
  fits := by decide
  outside := by simp [twoBlocksLogged_blocks]
  writes := rfl

-- the crash comes after the header, and the first recovery is cut short after its first block
theorem commit_crash_atomic_twoBlocksLogged
    : ∃ d m m', d = Writes.apply twoBlocksLogged.disk ((commit 2 twoBlocksLogged).writes.take 3) ∧
        recoverFromLog 2 (boot d) = .ok m ∧
        recoverFromLog 2 (boot (Writes.apply d (m.writes.take 1))) = .ok m' ∧
        (m'.disk 2).getWord 0 = 0 ∧ m'.disk 40 = (fun _ => 7) ∧ m'.disk 41 = fun _ => 8 := by
  rcases commit_crash_atomic twoBlocksLogged_committable 3 (.refl _) with ⟨m, hok, _⟩
  rcases commit_crash_atomic twoBlocksLogged_committable 3 (.crash 1 hok (.refl _))
    with ⟨m', hok', hzero, hreached, _, _⟩
  have hhome := hreached ?_
  . exact ⟨_, m, m', rfl, hok, hok', hzero, hhome 40 ⟨40, by decide, rfl⟩, hhome 41 ⟨41, by decide, rfl⟩⟩
  . rcases twoBlocksLogged_committable.commit_writes (by decide) with ⟨hdr, _, _, _, hwrites⟩
    rw [hwrites]
    exact ⟨(2, hdr), List.mem_cons_of_mem _ (List.mem_cons_of_mem _ List.mem_cons_self), rfl⟩

end LogDev

end Xv6
