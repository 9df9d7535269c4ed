import Mathlib.Data.List.DropRight
import Xv6.Console.Impl.Console

/-!
The console as a line editor: the bytes that readers have consumed, those that are committed but not
consumed yet, and the line that is still edited.
-/

namespace Xv6

structure Editor where
  consumed : List (BitVec 8)
  committed : List (BitVec 8)
  line : List (BitVec 8)

namespace Editor

def pending (d : Editor) : Nat :=
  d.committed.length + d.line.length

def commit (d : Editor) : Editor :=
  { d with committed := d.committed ++ d.line, line := [] }

def key (d : Editor) (c : BitVec 8) : Editor :=
  if c = CTRL_P then
    d
  else if c = CTRL_U then
    { d with line := d.line.rdropWhile (· ≠ LF) }
  else if c = CTRL_H ∨ c = DEL then
    { d with line := d.line.dropLast }
  else if c ≠ 0 ∧ d.pending < INPUT_BUF then
    let c := if c = CR then LF else c
    let d := { d with line := d.line ++ [c] }
    if c = LF ∨ c = CTRL_D ∨ d.pending = INPUT_BUF then d.commit else d
  else
    d

def keys (d : Editor) (cs : List (BitVec 8)) : Editor :=
  cs.foldl key d

end Editor

def Plain (bytes : List (BitVec 8)) : Prop :=
  LF ∉ bytes ∧ CTRL_D ∉ bytes

/--
`Reads killed n dst q res got rest`: a reader that still wants `n` bytes and has `dst` finds the
committed bytes `q`, takes `got` and leaves `rest`. Only a reader without any byte takes an end of
file.
-/
inductive Reads (killed : Bool) (n : Nat) (dst : List (BitVec 8))
    : List (BitVec 8) → Input.ReadResult → List (BitVec 8) → List (BitVec 8) → Prop where
  | full {got rest} :
      Plain got → got.length = n → Reads killed n dst (got ++ rest) .returns got rest
  | newline {got rest} :
      Plain got → got.length < n →
        Reads killed n dst (got ++ LF :: rest) .returns (got ++ [LF]) rest
  | eof {got rest} :
      Plain got → got.length < n → dst ++ got ≠ [] →
        Reads killed n dst (got ++ CTRL_D :: rest) .returns got (CTRL_D :: rest)
  | eofEmpty {rest} : 0 < n → dst = [] → Reads killed n dst (CTRL_D :: rest) .returns [] rest
  | sleeps {got} : Plain got → got.length < n → killed = false → Reads killed n dst got .sleeps got []
  | fails {got} : Plain got → got.length < n → killed = true → Reads killed n dst got .fails got []

theorem Plain.cons {c : BitVec 8} {bytes : List (BitVec 8)} (h : Plain bytes) (hc : c ≠ LF)
    (hd : c ≠ CTRL_D)
    : Plain (c :: bytes) := by
  unfold Plain
  simp only [List.mem_cons, not_or]
  exact ⟨⟨hc.symm, h.1⟩, hd.symm, h.2⟩

theorem plain_nil : Plain [] := by
  simp [Plain]

theorem Reads.cons {killed : Bool} {n : Nat} {c : BitVec 8} {dst q got rest : List (BitVec 8)}
    {res : Input.ReadResult} (h : Reads killed n (dst ++ [c]) q res got rest) (hc : c ≠ LF)
    (hd : c ≠ CTRL_D)
    : Reads killed (n + 1) dst (c :: q) res (c :: got) rest := by
  cases h with
  | full hplain hlen => exact .full (hplain.cons hc hd) (by simpa using hlen)
  | newline hplain hlen => exact .newline (hplain.cons hc hd) (by simpa using hlen)
  | eof hplain hlen _ => exact .eof (hplain.cons hc hd) (by simpa using hlen) (by simp)
  | eofEmpty _ hdst => simp at hdst
  | sleeps hplain hlen hk => exact .sleeps (hplain.cons hc hd) (by simpa using hlen) hk
  | fails hplain hlen hk => exact .fails (hplain.cons hc hd) (by simpa using hlen) hk

namespace Input

variable {s : Input} {q line : List (BitVec 8)}

-- The buffer holds the committed bytes `q` and the line.
structure Shows (s : Input) (q line : List (BitVec 8)) : Prop where
  holds : Ring.Holds s.buf s.r s.e (q ++ line)
  w : s.w = s.r + BitVec.ofNat 32 q.length

theorem Shows.committed_le (h : Shows s q line) : q.length ≤ INPUT_BUF := by
  have := h.holds.length_le
  rw [List.length_append] at this
  omega

theorem Shows.committed_length (h : Shows s q line) : (s.w - s.r).toNat = q.length := by
  have hlen := h.committed_le
  rw [INPUT_BUF] at hlen
  rw [h.w, BitVec.add_comm, BitVec.add_sub_cancel, BitVec.toNat_ofNat, Nat.mod_eq_of_lt (by omega)]

theorem Shows.line_length (h : Shows s q line) : (s.e - s.w).toNat = line.length := by
  have hlen := h.holds.length_le
  rw [List.length_append, INPUT_BUF] at hlen
  have he : s.e = BitVec.ofNat 32 line.length + s.w := by
    rw [h.holds.counter, h.w, List.length_append, BitVec.ofNat_add, ← BitVec.add_assoc,
      BitVec.add_comm]
  rw [he, BitVec.add_sub_cancel, BitVec.toNat_ofNat, Nat.mod_eq_of_lt (by omega)]

theorem Shows.line_empty_iff (h : Shows s q line) : s.e = s.w ↔ line = [] := by
  rw [h.w, h.holds.counter_eq_iff (by decide) h.committed_le, List.length_append,
    ← List.length_eq_zero_iff]
  omega

theorem Shows.empty_iff (h : Shows s q line) : s.r = s.w ↔ q = [] := by
  have hw : Ring.Holds (fun _ => 0 : Fin INPUT_BUF → BitVec 8) s.r s.w (q.map (fun _ => 0)) := by
    refine ⟨?_, ?_, ?_⟩
    . rw [List.length_map]
      exact h.committed_le
    . rw [List.length_map]
      exact h.w
    . intro i hi
      rw [List.getElem?_map]
      rw [List.length_map] at hi
      simp [List.getElem?_eq_getElem hi]
  rw [hw.empty_iff (by decide), List.map_eq_nil_iff]

theorem Shows.erase {a : BitVec 8} (h : Shows s q (line ++ [a]))
    : Shows { s with e := s.e - 1 } q line := by
  refine ⟨?_, h.w⟩
  have hholds := h.holds
  rw [← List.append_assoc] at hholds
  exact hholds.unpush

theorem Shows.last {a : BitVec 8} (h : Shows s q (line ++ [a]))
    : s.buf (Ring.slot (s.e - 1)) = a := by
  have hholds := h.holds
  rw [← List.append_assoc] at hholds
  exact hholds.last

theorem killLine_shows (k : Nat) (h : Shows s q line) (hk : line.length ≤ k)
    : Shows (killLine k s) q (line.rdropWhile (· ≠ LF)) := by
  induction k generalizing s line with
  | zero =>
    have hline : line = [] := List.length_eq_zero_iff.mp (by omega)
    subst hline
    exact h
  | succ k ih =>
    unfold killLine
    rcases List.eq_nil_or_concat line with hline | ⟨init, a, hline⟩
    . subst hline
      rw [if_neg (fun hand => hand.1 (h.line_empty_iff.mpr rfl))]
      exact h
    . rw [List.concat_eq_append] at hline
      subst hline
      have hne : s.e ≠ s.w := by
        rw [Ne, h.line_empty_iff]
        simp
      rw [h.last]
      by_cases ha : a = LF
      . rw [if_neg (by simp [ha]), List.rdropWhile_concat_neg _ _ _ (by simp [ha])]
        exact h
      . rw [if_pos ⟨hne, ha⟩, List.rdropWhile_concat_pos _ _ _ (by simpa using ha)]
        apply ih h.erase
        rw [List.length_append, List.length_singleton] at hk
        omega

theorem Shows.pending_lt_iff (h : Shows s q line)
    : s.e - s.r < BitVec.ofNat 32 INPUT_BUF ↔ q.length + line.length < INPUT_BUF := by
  rw [BitVec.lt_def, h.holds.counter_sub (by decide), List.length_append]
  rfl

theorem Shows.put (h : Shows s q line) (hlt : q.length + line.length < INPUT_BUF) (c : BitVec 8)
    : Shows { s with buf := Function.update s.buf (Ring.slot s.e) c, e := s.e + 1 } q (line ++ [c]) := by
  refine ⟨?_, h.w⟩
  simp only
  rw [← List.append_assoc]
  apply h.holds.push (by decide)
  rw [List.length_append]
  exact hlt

theorem Shows.commit (h : Shows s q line) : Shows { s with w := s.e } (q ++ line) [] := by
  constructor
  . simp only [List.append_nil]
    exact h.holds
  . exact h.holds.counter

theorem Shows.full_iff (h : Shows s q line)
    : s.e = s.r + BitVec.ofNat 32 INPUT_BUF ↔ q.length + line.length = INPUT_BUF := by
  rw [h.holds.counter_eq_iff (by decide) (Nat.le_refl _), List.length_append]

abbrev ShowsEditor (s : Input) (d : Editor) : Prop :=
  Shows s d.committed d.line

theorem consolechar_shows {d : Editor} (h : ShowsEditor s d) (c : BitVec 8)
    : ShowsEditor (s.consolechar c) (d.key c) := by
  unfold consolechar Editor.key
  split
  . exact h
  . split
    . exact killLine_shows _ h (by rw [h.line_length])
    . split
      . rcases List.eq_nil_or_concat d.line with hline | ⟨init, a, hline⟩
        . rw [if_neg (fun hne => hne (h.line_empty_iff.mpr hline))]
          unfold ShowsEditor
          simp only
          rw [hline]
          rw [ShowsEditor, hline] at h
          exact h
        . rw [List.concat_eq_append] at hline
          have hne : s.e ≠ s.w := by
            rw [Ne, h.line_empty_iff, hline]
            simp
          rw [if_pos hne]
          rw [ShowsEditor, hline] at h
          unfold ShowsEditor
          simp only
          rw [hline, List.dropLast_concat]
          exact h.erase
      . by_cases hput : c ≠ 0 ∧ d.pending < INPUT_BUF
        . rw [if_pos hput, if_pos ⟨hput.1, h.pending_lt_iff.mpr hput.2⟩]
          generalize (if c = CR then LF else c) = c'
          have hshows := Shows.put h hput.2 c'
          have hfull : s.e + 1 = s.r + BitVec.ofNat 32 INPUT_BUF ↔
              { d with line := d.line ++ [c'] }.pending = INPUT_BUF := hshows.full_iff
          simp only
          by_cases hend : c' = LF ∨ c' = CTRL_D ∨ { d with line := d.line ++ [c'] }.pending = INPUT_BUF
          . rw [if_pos hend, if_pos (by rw [hfull]; exact hend)]
            exact hshows.commit
          . rw [if_neg hend, if_neg (by rw [hfull]; exact hend)]
            exact hshows
        . rw [if_neg hput, if_neg]
          . exact h
          . rw [h.pending_lt_iff]
            exact hput

theorem consoleintr_shows (cs : List (BitVec 8)) {d : Editor} (h : ShowsEditor s d)
    : ShowsEditor (s.consoleintr cs) (d.keys cs) := by
  induction cs generalizing s d with
  | nil => exact h
  | cons c cs ih => exact ih (consolechar_shows h c)

theorem Shows.pop {c : BitVec 8} (h : Shows s (c :: q) line)
    : s.buf (Ring.slot s.r) = c ∧ Shows { s with r := s.r + 1 } q line := by
  refine ⟨h.holds.head, h.holds.pop, ?_⟩
  rw [h.w, List.length_cons, Nat.add_comm, BitVec.ofNat_add, ← BitVec.add_assoc]
  rfl

theorem consoleread_reads (killed : Bool) (target n : Nat) (dst : List (BitVec 8))
    (h : Shows s q line) (htarget : target = dst.length + n)
    : ∃ res got rest s', Reads killed n dst q res got rest ∧ Shows s' rest line ∧
        consoleread killed target n dst s = (res, target - (dst ++ got).length, dst ++ got, s') := by
  induction n generalizing dst s q with
  | zero =>
    refine ⟨.returns, [], q, s, @Reads.full _ _ _ [] q plain_nil rfl, h, ?_⟩
    rw [consoleread, List.append_nil, htarget, Nat.add_zero, Nat.sub_self]
  | succ n ih =>
    rw [consoleread]
    have hn : target - dst.length = n + 1 := by omega
    cases q with
    | nil =>
      rw [if_pos (h.empty_iff.mpr rfl)]
      cases killed with
      | true =>
        refine ⟨.fails, [], [], s, .fails plain_nil (by simp) rfl, h, ?_⟩
        simp [hn]
      | false =>
        refine ⟨.sleeps, [], [], s, .sleeps plain_nil (by simp) rfl, h, ?_⟩
        simp [hn]
    | cons c q =>
      rw [if_neg (fun heq => absurd (h.empty_iff.mp heq) (by simp))]
      rcases h.pop with ⟨hc, hpop⟩
      simp only [hc]
      by_cases hd : c = CTRL_D
      . rw [if_pos hd, hd]
        cases dst with
        | nil =>
          rw [if_neg (by simp at htarget; omega)]
          refine ⟨.returns, [], q, _, .eofEmpty (by omega) rfl, hpop, ?_⟩
          rw [List.append_nil, hn]
        | cons b dst =>
          rw [if_pos (by simp at htarget; omega)]
          refine ⟨.returns, [], CTRL_D :: q, s, ?_, ?_, ?_⟩
          . exact @Reads.eof _ _ _ [] q plain_nil (by simp) (by simp)
          . rw [← hd]
            exact h
          . rw [List.append_nil, hn, BitVec.add_sub_cancel]
      . rw [if_neg hd]
        by_cases hlf : c = LF
        . rw [if_pos hlf]
          refine ⟨.returns, [c], q, _, ?_, hpop, ?_⟩
          . rw [hlf]
            exact @Reads.newline _ _ _ [] q plain_nil (by simp)
          . rw [List.length_append, List.length_singleton, show target - (dst.length + 1) = n by omega]
        . rw [if_neg hlf]
          rcases ih (dst ++ [c]) hpop (by simp; omega) with ⟨res, got, rest, s', hreads, hshows, heq⟩
          refine ⟨res, c :: got, rest, s', hreads.cons hlf hd, hshows, ?_⟩
          rw [heq]
          simp

end Input

structure Desk (ι : Type) where
  editor : Editor
  reader : ι → Option Reader
  killed : ι → Bool
  returned : List (ReadCall ι)

namespace Desk

variable {ι : Type} [DecidableEq ι]

def afterRead (d : Desk ι) (p : ι) (rd : Reader) (taken got rest : List (BitVec 8))
    (res : Input.ReadResult) : Desk ι :=
  let editor := { d.editor with consumed := d.editor.consumed ++ taken, committed := rest }
  match res with
  | .returns =>
    { d with
      editor := editor
      reader := Function.update d.reader p none
      returned := d.returned ++ [⟨p, rd.target, rd.dst ++ got, some (rd.dst ++ got).length⟩] }
  | .fails =>
    { d with
      editor := editor
      reader := Function.update d.reader p none
      returned := d.returned ++ [⟨p, rd.target, rd.dst ++ got, none⟩] }
  | .sleeps =>
    { d with
      editor := editor
      reader := Function.update d.reader p
        (some ⟨rd.target, rd.target - (rd.dst ++ got).length, rd.dst ++ got⟩) }

inductive Step (d : Desk ι) : ConsEvent ι → Desk ι → Prop where
  | intr {cs} : Step d (.intr cs) { d with editor := d.editor.keys cs }
  | read {p n} :
      d.reader p = none →
        Step d (.read p n) { d with reader := Function.update d.reader p (some ⟨n.toNat, n.toNat, []⟩) }
  | run {p rd res taken got rest} :
      d.reader p = some rd → d.editor.committed = taken ++ rest →
        Reads (d.killed p) rd.n rd.dst d.editor.committed res got rest →
          Step d (.run p) (d.afterRead p rd taken got rest res)
  | kill {p} : Step d (.kill p) { d with killed := Function.update d.killed p true }
  | replace {p} :
      d.reader p = none → Step d (.replace p) { d with killed := Function.update d.killed p false }

abbrev EventRun (d : Desk ι) (es : List (ConsEvent ι)) (d' : Desk ι) : Prop :=
  Transition.Run Step (fun _ _ => True) d es d'

end Desk

theorem Reads.taken {killed : Bool} {n : Nat} {dst q got rest : List (BitVec 8)}
    {res : Input.ReadResult} (h : Reads killed n dst q res got rest)
    : ∃ taken, q = taken ++ rest ∧ (taken = got ∨ taken = [CTRL_D] ∧ dst ++ got = []) := by
  cases h with
  | full _ _ => exact ⟨got, rfl, .inl rfl⟩
  | newline _ _ => exact ⟨_, (List.append_assoc _ [LF] _).symm, .inl rfl⟩
  | eof _ _ _ => exact ⟨got, rfl, .inl rfl⟩
  | eofEmpty _ hdst => exact ⟨[CTRL_D], rfl, .inr ⟨rfl, by rw [hdst]; rfl⟩⟩
  | sleeps _ _ _ => exact ⟨q, (List.append_nil _).symm, .inl rfl⟩
  | fails _ _ _ => exact ⟨q, (List.append_nil _).symm, .inl rfl⟩

theorem Reads.length_le {killed : Bool} {n : Nat} {dst q got rest : List (BitVec 8)}
    {res : Input.ReadResult} (h : Reads killed n dst q res got rest)
    : got.length ≤ n := by
  cases h with
  | full _ hlen => omega
  | newline _ hlen =>
    rw [List.length_append, List.length_singleton]
    omega
  | eof _ hlen _ => omega
  | eofEmpty _ _ => simp
  | sleeps _ hlen _ => omega
  | fails _ hlen _ => omega

theorem Plain.append {a b : List (BitVec 8)} (ha : Plain a) (hb : Plain b) : Plain (a ++ b) := by
  unfold Plain
  rw [List.mem_append, List.mem_append]
  exact ⟨not_or.mpr ⟨ha.1, hb.1⟩, not_or.mpr ⟨ha.2, hb.2⟩⟩

def OneLine (bytes : List (BitVec 8)) : Prop :=
  CTRL_D ∉ bytes ∧ LF ∉ bytes.dropLast

theorem Plain.oneLine {bytes : List (BitVec 8)} (h : Plain bytes) : OneLine bytes :=
  ⟨h.2, fun hin => h.1 (List.dropLast_subset _ hin)⟩

theorem Reads.oneLine {killed : Bool} {n : Nat} {dst q got rest : List (BitVec 8)}
    {res : Input.ReadResult} (h : Reads killed n dst q res got rest) (hdst : Plain dst)
    : OneLine (dst ++ got) ∧ (res = .sleeps → Plain (dst ++ got)) := by
  cases h with
  | full hplain _ => exact ⟨(hdst.append hplain).oneLine, nofun⟩
  | @newline got' rest hplain _ =>
    have hplain' := hdst.append hplain
    refine ⟨?_, nofun⟩
    unfold OneLine
    rw [← List.append_assoc, List.dropLast_concat, List.mem_append]
    refine ⟨not_or.mpr ⟨hplain'.2, ?_⟩, hplain'.1⟩
    decide
  | eof hplain _ _ => exact ⟨(hdst.append hplain).oneLine, nofun⟩
  | eofEmpty _ _ => exact ⟨(hdst.append plain_nil).oneLine, nofun⟩
  | sleeps hplain _ _ => exact ⟨(hdst.append hplain).oneLine, fun _ => hdst.append hplain⟩
  | fails hplain _ _ => exact ⟨(hdst.append hplain).oneLine, nofun⟩

structure ReadCall.Sound {ι : Type} (call : ReadCall ι) : Prop where
  oneLine : OneLine call.dst
  length_le : call.dst.length ≤ call.target
  ret : call.ret = some call.dst.length ∨ call.ret = none

namespace Desk

variable {ι : Type} {d d' : Desk ι}

structure Tidy (d : Desk ι) : Prop where
  plain : ∀ p rd, d.reader p = some rd → Plain rd.dst
  target : ∀ p rd, d.reader p = some rd → rd.target = rd.dst.length + rd.n
  returned : ∀ call ∈ d.returned, call.Sound

theorem Tidy.setReader [DecidableEq ι] (h : d.Tidy) (p : ι) (r : Option Reader) (editor : Editor)
    (calls : List (ReadCall ι))
    (hr : ∀ rd, r = some rd → Plain rd.dst ∧ rd.target = rd.dst.length + rd.n)
    (hcalls : ∀ call ∈ calls, call.Sound)
    : Tidy { d with
        editor := editor
        reader := Function.update d.reader p r
        returned := d.returned ++ calls } := by
  have hreader : ∀ q rd, Function.update d.reader p r q = some rd →
      Plain rd.dst ∧ rd.target = rd.dst.length + rd.n := by
    intro q rd hrd
    by_cases hq : q = p
    . rw [hq, Function.update_self] at hrd
      exact hr rd hrd
    . rw [Function.update_of_ne hq] at hrd
      exact ⟨h.plain q rd hrd, h.target q rd hrd⟩
  refine ⟨fun q rd hrd => (hreader q rd hrd).1, fun q rd hrd => (hreader q rd hrd).2, ?_⟩
  intro call hcall
  rcases List.mem_append.mp hcall with hold | hnew
  . exact h.returned call hold
  . exact hcalls call hnew

theorem Step.tidy [DecidableEq ι] {e : ConsEvent ι} (hstep : d.Step e d') (h : d.Tidy)
    : d'.Tidy := by
  cases hstep with
  | intr => exact ⟨h.plain, h.target, h.returned⟩
  | @read p n hp =>
    have hnew := h.setReader p (some ⟨n.toNat, n.toNat, []⟩) d.editor [] (by
      intro rd hrd
      cases hrd
      exact ⟨plain_nil, by simp⟩) (by simp)
    rw [List.append_nil] at hnew
    exact hnew
  | @run p rd res taken got rest hp _ hreads =>
    have hlen := hreads.length_le
    have htarget := h.target p rd hp
    rcases hreads.oneLine (h.plain p rd hp) with ⟨hone, hplain⟩
    have hle : (rd.dst ++ got).length ≤ rd.target := by
      rw [List.length_append]
      omega
    cases res with
    | returns =>
      apply h.setReader
      . nofun
      . intro call hcall
        rw [List.mem_singleton] at hcall
        rw [hcall]
        exact ⟨hone, hle, .inl rfl⟩
    | fails =>
      apply h.setReader
      . nofun
      . intro call hcall
        rw [List.mem_singleton] at hcall
        rw [hcall]
        exact ⟨hone, hle, .inr rfl⟩
    | sleeps =>
      have hnew := h.setReader p
        (some ⟨rd.target, rd.target - (rd.dst ++ got).length, rd.dst ++ got⟩)
        { d.editor with consumed := d.editor.consumed ++ taken, committed := rest } [] (by
          intro rd' hrd
          cases hrd
          exact ⟨hplain rfl, by simp only; omega⟩) (by simp)
      rw [List.append_nil] at hnew
      exact hnew
  | kill => exact ⟨h.plain, h.target, h.returned⟩
  | replace _ => exact ⟨h.plain, h.target, h.returned⟩

end Desk

namespace ConsSys

variable {ι : Type} {s t : ConsSys ι} {d : Desk ι}

structure Shows (s : ConsSys ι) (d : Desk ι) : Prop where
  input : s.input.ShowsEditor d.editor
  reader : s.reader = d.reader
  killed : s.killed = d.killed
  returned : s.returned = d.returned

theorem Shows.step [DecidableEq ι] {e : ConsEvent ι} (h : s.Shows d) (htidy : d.Tidy)
    (hstep : s.Step e t)
    : ∃ d', d.Step e d' ∧ t.Shows d' := by
  cases hstep with
  | intr => exact ⟨_, .intr, Input.consoleintr_shows _ h.input, h.reader, h.killed, h.returned⟩
  | read hp =>
    rw [h.reader] at hp
    refine ⟨_, .read hp, h.input, ?_, h.killed, h.returned⟩
    rw [h.reader]
  | @run p rd hp =>
    rw [h.reader] at hp
    have htarget := htidy.target p rd hp
    rcases Input.consoleread_reads (s.killed p) rd.target rd.n rd.dst h.input htarget
      with ⟨res, got, rest, input, hreads, hinput, heq⟩
    rw [h.killed] at hreads
    rcases hreads.taken with ⟨taken, htaken, _⟩
    refine ⟨_, .run hp htaken hreads, ?_⟩
    rw [heq]
    have hlen := hreads.length_le
    have hret : rd.target - (rd.target - (rd.dst ++ got).length) = (rd.dst ++ got).length := by
      rw [List.length_append]
      omega
    cases res with
    | returns =>
      refine ⟨hinput, ?_, h.killed, ?_⟩
      . simp only [afterRead, Desk.afterRead, h.reader]
      . simp only [afterRead, Desk.afterRead, h.returned, hret]
    | fails =>
      refine ⟨hinput, ?_, h.killed, ?_⟩
      . simp only [afterRead, Desk.afterRead, h.reader]
      . simp only [afterRead, Desk.afterRead, h.returned]
    | sleeps =>
      refine ⟨hinput, ?_, h.killed, h.returned⟩
      simp only [afterRead, Desk.afterRead, h.reader]
  | kill =>
    refine ⟨_, .kill, h.input, h.reader, ?_, h.returned⟩
    rw [h.killed]
  | replace hp =>
    rw [h.reader] at hp
    refine ⟨_, .replace hp, h.input, h.reader, ?_, h.returned⟩
    rw [h.killed]

theorem Shows.run [DecidableEq ι] {es : List (ConsEvent ι)} (hrun : s.EventRun es t) (h : s.Shows d)
    (htidy : d.Tidy)
    : ∃ d', d.EventRun es d' ∧ t.Shows d' ∧ d'.Tidy := by
  induction hrun generalizing d with
  | nil => exact ⟨d, .nil _, h, htidy⟩
  | cons _ hstep _ ih =>
    rcases h.step htidy hstep with ⟨d₁, hstep₁, hshows₁⟩
    rcases ih hshows₁ (hstep₁.tidy htidy) with ⟨d', hrun', hshows, htidy'⟩
    exact ⟨d', .cons trivial hstep₁ hrun', hshows, htidy'⟩

def desk (s : ConsSys ι) : Desk ι where
  editor := ⟨[], [], []⟩
  reader := s.reader
  killed := s.killed
  returned := s.returned

theorem Start.shows (h : s.Start) : s.Shows s.desk := by
  refine ⟨⟨?_, ?_⟩, rfl, rfl, rfl⟩
  . rw [h.e]
    exact .nil _ _
  . rw [h.w]
    simp [desk]

theorem Start.tidy (h : s.Start) : s.desk.Tidy := by
  refine ⟨?_, ?_, ?_⟩
  . intro p rd hrd
    have hnone : s.desk.reader p = none := h.reader p
    rw [hnone] at hrd
    contradiction
  . intro p rd hrd
    have hnone : s.desk.reader p = none := h.reader p
    rw [hnone] at hrd
    contradiction
  . intro call hcall
    rw [desk, h.returned] at hcall
    contradiction

/--
However characters and reads are interleaved, the readers get what those of the reference editor
get, the indices are in order, and every read has delivered one line at most.
-/
theorem console_line_discipline [DecidableEq ι] {es : List (ConsEvent ι)} (hstart : s.Start)
    (hrun : s.EventRun es t)
    : (t.input.w - t.input.r).toNat ≤ (t.input.e - t.input.r).toNat ∧
        (t.input.e - t.input.r).toNat ≤ INPUT_BUF ∧
        (∀ call ∈ t.returned, call.Sound) ∧
        ∃ d, s.desk.EventRun es d ∧ t.Shows d := by
  rcases Shows.run hrun hstart.shows hstart.tidy with ⟨d, hdesk, hshows, htidy⟩
  have hcommitted := hshows.input.committed_length
  have hpending := hshows.input.holds.counter_sub (by decide)
  have hlen := hshows.input.holds.length_le
  rw [List.length_append] at hpending hlen
  refine ⟨by omega, by omega, ?_, d, hdesk, hshows⟩
  rw [hshows.returned]
  exact htidy.returned

def quiet : ConsSys (Fin 1) where
  input := ⟨fun _ => 0, 0, 0, 0⟩
  reader _ := none
  killed _ := false
  returned := []

theorem quiet_start : quiet.Start :=
  ⟨rfl, rfl, fun _ => rfl, rfl⟩

theorem console_line_discipline_quiet
    : ∃ t, quiet.EventRun [.read 0 10, .run 0, .intr [0x61, CTRL_H, 0x62, CR], .run 0] t ∧
        t.returned = [⟨0, 10, [0x62, LF], some 2⟩] ∧ ∃ d, t.Shows d := by
  have hrun : quiet.EventRun [.read 0 10, .run 0, .intr [0x61, CTRL_H, 0x62, CR], .run 0] _ :=
    .cons trivial (.read rfl) (.cons trivial (.run rfl) (.cons trivial .intr
      (.cons trivial (.run rfl) (.nil _))))
  rcases console_line_discipline quiet_start hrun with ⟨_, _, _, d, _, hshows⟩
  exact ⟨_, hrun, rfl, d, hshows⟩

-- C('P') is not a character of the line.
theorem ctrl_p_not_appended
    : CTRL_P ≠ 0 ∧ CTRL_P ≠ CTRL_U ∧ CTRL_P ≠ CTRL_H ∧ CTRL_P ≠ DEL ∧
        ∃ t, quiet.EventRun [.intr [CTRL_P, LF], .read 0 10, .run 0] t ∧
          t.returned = [⟨0, 10, [LF], some 1⟩] := by
  have hrun : quiet.EventRun [.intr [CTRL_P, LF], .read 0 10, .run 0] _ :=
    .cons trivial .intr (.cons trivial (.read rfl) (.cons trivial (.run rfl) (.nil _)))
  exact ⟨by decide, by decide, by decide, by decide, _, hrun, rfl⟩

end ConsSys

end Xv6
