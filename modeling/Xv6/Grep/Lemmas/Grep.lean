import Xv6.Data.Fold
import Xv6.Data.Lines
import Xv6.Grep.Impl.Grep

/-!
`grep` writes the lines that match, as long as no `read` that ends no line is followed by one that
does. The beginning of a line that a `read` has not ended is forgotten.
-/

namespace Xv6
namespace Grep

variable {buf : Buf} {p : Nat} {l x y : List Char} {pattern : List Char}

def selected (pattern text : List Char) : List (List Char) :=
  ((Lines.done '\n' text).filter (matchText pattern)).map (· ++ ['\n'])

def Holds (buf : Buf) (p : Nat) (l : List Char) : Prop :=
  ∀ i, i < l.length → l[i]? = some (buf (p + i))

theorem Holds.head {c : Char} (h : Holds buf p (c :: l)) : buf p = c := by
  have := h 0 (by simp)
  simpa using this.symm

theorem Holds.tail {c : Char} (h : Holds buf p (c :: l)) : Holds buf (p + 1) l := by
  intro i hi
  have := h (i + 1) (by simpa using hi)
  rw [List.getElem?_cons_succ] at this
  rw [this, Nat.add_assoc, Nat.add_comm 1 i]

theorem Holds.append_right (h : Holds buf p (x ++ y)) : Holds buf (p + x.length) y := by
  induction x generalizing p with
  | nil => exact h
  | cons c x ih =>
    have := ih h.tail
    rw [List.length_cons, Nat.add_comm x.length 1, ← Nat.add_assoc]
    exact this

theorem Holds.append_left (h : Holds buf p (x ++ y)) : Holds buf p x := by
  intro i hi
  rw [← h i (by rw [List.length_append]; omega), List.getElem?_append_left hi]

theorem Holds.congr {buf' : Buf} (h : Holds buf p l) (hsame : ∀ i, p ≤ i → i < p + l.length → buf' i = buf i)
    : Holds buf' p l := by
  intro i hi
  rw [h i hi, hsame (p + i) (by omega) (by omega)]

theorem strchr_line (h : Holds buf p (x ++ '\n' :: y)) (hline : '\n' ∉ x) (hnul : NUL ∉ x)
    {left : Nat} (hleft : x.length < left)
    : strchr buf '\n' left p = .ok (some (p + x.length)) := by
  induction x generalizing p left with
  | nil =>
    cases left with
    | zero => omega
    | succ left =>
      rw [strchr, h.head, if_neg (by decide), if_pos rfl]
      rfl
  | cons c x ih =>
    cases left with
    | zero => omega
    | succ left =>
      rw [List.mem_cons, not_or] at hline hnul
      have hrest := ih h.tail hline.2 hnul.2 (Nat.lt_of_succ_lt_succ hleft)
      rw [strchr, h.head, if_neg (Ne.symm hnul.1), if_neg (Ne.symm hline.1), hrest, List.length_cons,
        Nat.add_assoc, Nat.add_comm 1]

-- There may be a NUL in front of the end.
theorem strchr_none (h : Holds buf p l) (hend : buf (p + l.length) = NUL) (hline : '\n' ∉ l)
    {left : Nat} (hleft : l.length < left)
    : strchr buf '\n' left p = .ok none := by
  induction l generalizing p left with
  | nil =>
    cases left with
    | zero => omega
    | succ left =>
      rw [strchr]
      exact if_pos hend
  | cons c l ih =>
    cases left with
    | zero => omega
    | succ left =>
      rw [List.mem_cons, not_or] at hline
      rw [strchr, h.head, if_neg (Ne.symm hline.1)]
      split
      . rfl
      . apply ih h.tail _ hline.2 (Nat.lt_of_succ_lt_succ hleft)
        rw [Nat.add_assoc, Nat.add_comm 1]
        exact hend

theorem cstring_eq (h : Holds buf p l) (hend : buf (p + l.length) = NUL) (hnul : NUL ∉ l)
    {left : Nat} (hleft : l.length < left)
    : cstring buf left p = l := by
  induction l generalizing p left with
  | nil =>
    cases left with
    | zero => omega
    | succ left =>
      rw [cstring]
      exact if_pos hend
  | cons c l ih =>
    cases left with
    | zero => omega
    | succ left =>
      rw [List.mem_cons, not_or] at hnul
      rw [cstring, h.head, if_neg (Ne.symm hnul.1), ih h.tail _ hnul.2 (Nat.lt_of_succ_lt_succ hleft)]
      rw [Nat.add_assoc, Nat.add_comm 1]
      exact hend

theorem Holds.slice (h : Holds buf p l) : (List.range l.length).map (fun i => buf (p + i)) = l := by
  apply List.ext_getElem?
  intro i
  by_cases hi : i < l.length
  . rw [h i hi, List.getElem?_map, List.getElem?_range hi]
    rfl
  . rw [List.getElem?_eq_none (by simp; omega), List.getElem?_eq_none (by omega)]

theorem lineLoop_line (fuel : Nat) (out : List (List Char)) (h : Holds buf p (x ++ '\n' :: y))
    (hline : '\n' ∉ x) (hnul : NUL ∉ x) (hsize : p + x.length < BUFSIZE)
    : ∃ buf', (∀ i, p + x.length + 1 ≤ i → buf' i = buf i) ∧
        lineLoop pattern (fuel + 1) buf p out =
          lineLoop pattern fuel buf' (p + x.length + 1)
            (out ++ if matchText pattern x then [x ++ ['\n']] else []) := by
  have hleft : x.length < BUFSIZE - p := by omega
  have hfound := strchr_line h hline hnul hleft
  have hcut : Holds (Function.update buf (p + x.length) NUL) p x :=
    h.append_left.congr fun i hi hlt => Function.update_of_ne (by omega) _ _
  have hstring := cstring_eq hcut (Function.update_self ..) hnul hleft
  rw [lineLoop, hfound, Fold.ok_bind]
  dsimp only
  rw [hstring]
  by_cases hmatch : matchText pattern x
  . have hback : Function.update buf (p + x.length) '\n' = buf := by
      have hself := Function.update_eq_self (p + x.length) buf
      rw [h.append_right.head] at hself
      exact hself
    have hwhole : Holds buf p (x ++ ['\n']) := by
      rw [List.append_cons] at h
      exact h.append_left
    have hslice := hwhole.slice
    rw [List.length_append, List.length_singleton] at hslice
    rw [if_pos hmatch, if_pos hmatch, Function.update_idem, hback,
      show p + x.length + 1 - p = x.length + 1 by omega, hslice]
    exact ⟨buf, fun _ _ => rfl, rfl⟩
  . rw [if_neg hmatch, if_neg hmatch, List.append_nil]
    exact ⟨_, fun i hi => Function.update_of_ne (by omega) _ _, rfl⟩

theorem selected_line (hline : '\n' ∉ x) (y : List Char)
    : selected pattern (x ++ '\n' :: y) =
        (if matchText pattern x then [x ++ ['\n']] else []) ++ selected pattern y := by
  unfold selected
  rw [Lines.done_line hline, List.filter_cons]
  split
  . rw [List.map_cons, List.singleton_append]
  . rw [List.nil_append]

theorem selected_append (a b : List Char)
    : selected pattern (a ++ b) = selected pattern a ++ selected pattern (Lines.rest '\n' a ++ b) := by
  unfold selected
  rw [Lines.done_append, List.filter_append, List.map_append]

theorem selected_of_notMem (h : '\n' ∉ x) : selected pattern x = [] := by
  rw [selected, Lines.done_of_notMem h]
  rfl

theorem lineLoop_spec (text : List Char) {fuel : Nat} (out : List (List Char)) (h : Holds buf p text)
    (hend : buf (p + text.length) = NUL) (hsize : p + text.length < BUFSIZE) (hfuel : text.length < fuel)
    (hnul : ∀ l ∈ Lines.done '\n' text, NUL ∉ l)
    : ∃ buf' q, lineLoop pattern fuel buf p out = .ok (buf', q, out ++ selected pattern text) ∧
        q + (Lines.rest '\n' text).length = p + text.length ∧ Holds buf' q (Lines.rest '\n' text) := by
  induction text using Lines.induct '\n' generalizing fuel buf p out with
  | last l hline =>
    cases fuel with
    | zero => omega
    | succ fuel =>
      have hleft : l.length < BUFSIZE - p := by omega
      have hnone := strchr_none h hend hline hleft
      refine ⟨buf, p, ?_, ?_, ?_⟩
      . rw [lineLoop, hnone, Fold.ok_bind, selected_of_notMem hline, List.append_nil]
        rfl
      . rw [Lines.rest_of_notMem hline]
      . rw [Lines.rest_of_notMem hline]
        exact h
  | line x y hline ih =>
    rw [Lines.done_line hline] at hnul
    rw [List.length_append, List.length_cons] at hend hsize hfuel
    cases fuel with
    | zero => omega
    | succ fuel =>
      rcases lineLoop_line fuel out h hline (hnul x List.mem_cons_self) (by omega) with
        ⟨buf', hsame, hloop⟩
      have hrest : Holds buf' (p + x.length + 1) y :=
        h.append_right.tail.congr fun i hi _ => hsame i hi
      have hend' : buf' (p + x.length + 1 + y.length) = NUL := by
        rw [hsame _ (by omega), ← hend]
        congr 1
        omega
      have hfuel' : y.length < fuel := by omega
      rcases ih _ hrest hend' (by omega) hfuel' (fun l hl => hnul l (List.mem_cons_of_mem _ hl)) with
        ⟨buf'', q, hok, hq, hholds⟩
      refine ⟨buf'', q, ?_, ?_, ?_⟩
      . rw [hloop, hok, selected_line hline, List.append_assoc]
      . rw [Lines.rest_line hline, hq, List.length_append, List.length_cons]
        omega
      . rw [Lines.rest_line hline]
        exact hholds

theorem iterate_succ (a i : Nat) : (· + 1)^[i] a = a + i := by
  induction i with
  | zero => rfl
  | succ i ih => rw [Function.iterate_succ_apply', ih, Nat.add_assoc]

theorem Holds.move {q : Nat} (h : Holds buf q l) : Holds (Copy.run (· + 1) l.length buf 0 q) 0 l := by
  intro i hi
  have hmove : Copy.run (· + 1) l.length buf 0 q ((· + 1)^[i] 0) = buf ((· + 1)^[i] q) := by
    apply Copy.run_written buf _ _ hi
    . intro i j hij _
      rw [iterate_succ, iterate_succ]
      omega
    . intro i j hij _
      rw [iterate_succ, iterate_succ]
      omega
  rw [iterate_succ, iterate_succ] at hmove
  rw [hmove]
  exact h i hi

structure Carries (s : State) (c : List Char) : Prop where
  holds : Holds s.buf 0 c
  length : s.m = c.length
  line : '\n' ∉ c
  room : c.length + 1 < BUFSIZE

theorem Carries.empty {s : State} (h : s.m = 0) : Carries s [] := by
  refine ⟨?_, h, List.not_mem_nil, by decide⟩
  intro i hi
  cases hi

theorem Carries.store {s : State} {c r : List Char} (h : Carries s c)
    : Holds (Function.update (store s.buf s.m r) (s.m + r.length) NUL) 0 (c ++ r) := by
  intro i hi
  rw [List.length_append] at hi
  rw [Nat.zero_add, Function.update_of_ne (by rw [h.length]; omega), Grep.store, h.length]
  by_cases hlt : i < c.length
  . rw [if_neg (by omega), List.getElem?_append_left hlt, h.holds i hlt, Nat.zero_add]
  . rw [if_pos (by omega), List.getElem?_append_right (by omega),
      List.getD_eq_getElem?_getD, List.getElem?_eq_getElem (by omega)]
    rfl

theorem turn_spec {s : State} {c r : List Char} (h : Carries s c) (hr : 0 < r.length)
    (hsize : r.length ≤ BUFSIZE - s.m - 1) (hnul : ∀ l ∈ Lines.done '\n' (c ++ r), NUL ∉ l)
    : ∃ t, turn pattern s r = .ok t ∧ t.out = s.out ++ selected pattern (c ++ r) ∧
        Carries t (if '\n' ∈ r then Lines.rest '\n' (c ++ r) else []) := by
  have hlength := h.length
  have happend : (c ++ r).length = c.length + r.length := List.length_append
  have hend : Function.update (store s.buf s.m r) (s.m + r.length) NUL (0 + (c ++ r).length) = NUL := by
    rw [happend, Nat.zero_add, ← hlength]
    exact Function.update_self ..
  have hloop : ∃ buf q, lineLoop pattern BUFSIZE
      (Function.update (Grep.store s.buf s.m r) (s.m + r.length) NUL) 0 s.out =
        .ok (buf, q, s.out ++ selected pattern (c ++ r)) ∧
        q + (Lines.rest '\n' (c ++ r)).length = 0 + (c ++ r).length ∧
        Holds buf q (Lines.rest '\n' (c ++ r)) :=
    lineLoop_spec (c ++ r) s.out h.store hend (by omega) (by omega) hnul
  rcases hloop with ⟨buf, q, hok, hq, hholds⟩
  rw [turn, hok, Fold.ok_bind]
  dsimp only
  by_cases hline : '\n' ∈ r
  . have hlt := Lines.length_rest_lt (List.mem_append_right c hline)
    have hm : s.m + r.length - q = (Lines.rest '\n' (c ++ r)).length := by omega
    have hq0 : q ≠ 0 := by omega
    have hpos : s.m + r.length > 0 := by omega
    rw [if_neg hq0, if_pos hpos, hm]
    refine ⟨_, rfl, rfl, ?_⟩
    rw [if_pos hline]
    exact ⟨hholds.move, rfl, Lines.notMem_rest _, by omega⟩
  . have hnone : '\n' ∉ c ++ r := by
      rw [List.mem_append, not_or]
      exact ⟨h.line, hline⟩
    rw [Lines.rest_of_notMem hnone] at hq
    have hq0 : q = 0 := by omega
    rw [if_pos hq0, if_neg (Nat.lt_irrefl 0)]
    refine ⟨_, rfl, rfl, ?_⟩
    rw [if_neg hline]
    exact Carries.empty rfl

-- The lines that grep sees after it has forgotten a piece are ends of lines of the input.
theorem noNul_of_append (hline : '\n' ∉ x) (hnul : ∀ l ∈ Lines.done '\n' (x ++ y), NUL ∉ l)
    : ∀ l ∈ Lines.done '\n' y, NUL ∉ l := by
  by_cases hy : '\n' ∈ y
  . rcases List.eq_append_cons_of_mem hy with ⟨a, b, rfl, ha⟩
    have hxa : '\n' ∉ x ++ a := by simp [hline, ha]
    rw [← List.append_assoc, Lines.done_line hxa] at hnul
    rw [Lines.done_line ha]
    intro l hl
    rcases List.mem_cons.mp hl with rfl | hl
    . have := hnul _ List.mem_cons_self
      rw [List.mem_append, not_or] at this
      exact this.2
    . exact hnul l (List.mem_cons_of_mem _ hl)
  . rw [Lines.done_of_notMem hy]
    nofun

theorem turn_step {s : State} {c r : List Char} {reads : List (List Char)} (h : Carries s c)
    (hreads : Delivers pattern s (r :: reads))
    (hnul : ∀ l ∈ Lines.done '\n' (c ++ (r :: reads).flatten), NUL ∉ l)
    : ∃ t c', turn pattern s r = .ok t ∧ Carries t c' ∧ Delivers pattern t reads ∧
        t.out = s.out ++ selected pattern (c ++ r) ∧
        (∀ l ∈ Lines.done '\n' (c' ++ reads.flatten), NUL ∉ l) ∧
        c' = if '\n' ∈ r then Lines.rest '\n' (c ++ r) else [] := by
  rw [List.flatten_cons, ← List.append_assoc] at hnul
  rcases hreads with ⟨hr, hsize, hnext⟩
  have hnul' := hnul
  rw [Lines.done_append] at hnul'
  rcases turn_spec h hr hsize (fun l hl => hnul' l (List.mem_append_left _ hl)) with
    ⟨t, hturn, hout, hcarry⟩
  refine ⟨t, _, hturn, hcarry, hnext t hturn, hout, ?_, rfl⟩
  split
  . exact fun l hl => hnul' l (List.mem_append_right _ hl)
  . next hmem =>
    have hline : '\n' ∉ c ++ r := by simp [h.line, hmem]
    exact noNul_of_append hline hnul

theorem Carries.grep {s : State} {c : List Char} (reads : List (List Char)) (h : Carries s c)
    (hreads : Delivers pattern s reads)
    (hline : reads.Pairwise fun r r' => '\n' ∈ r' → '\n' ∈ r)
    (hnul : ∀ l ∈ Lines.done '\n' (c ++ reads.flatten), NUL ∉ l)
    : ∃ t c', grep pattern reads s = .ok t ∧ Carries t c' ∧
        t.out = s.out ++ selected pattern (c ++ reads.flatten) := by
  induction reads generalizing s c with
  | nil =>
    refine ⟨s, c, rfl, h, ?_⟩
    rw [List.flatten_nil, List.append_nil, selected_of_notMem h.line, List.append_nil]
  | cons r reads ih =>
    rw [List.pairwise_cons] at hline
    rcases turn_step h hreads hnul with ⟨t, c', hturn, hcarry, hnext, hout, hnul', hc'⟩
    rcases ih hcarry hnext hline.2 hnul' with ⟨u, c'', hgrep, hcarries, hu⟩
    rw [Grep.grep, hturn, Fold.ok_bind, List.flatten_cons, ← List.append_assoc]
    refine ⟨u, c'', hgrep, hcarries, ?_⟩
    rw [hu, hout, List.append_assoc, selected_append (c ++ r)]
    by_cases hmem : '\n' ∈ r
    . rw [hc', if_pos hmem]
    . have hcr : '\n' ∉ c ++ r := by simp [h.line, hmem]
      have hrest : '\n' ∉ reads.flatten := by
        rw [List.mem_flatten]
        rintro ⟨r', hr', hin⟩
        exact hmem (hline.1 r' hr' hin)
      have hall : '\n' ∉ Lines.rest '\n' (c ++ r) ++ reads.flatten := by
        rw [Lines.rest_of_notMem hcr, List.mem_append, not_or]
        exact ⟨hcr, hrest⟩
      rw [hc', if_neg hmem, List.nil_append, selected_of_notMem hrest, selected_of_notMem hall]

theorem matchText_nil (l : List Char) : matchText [] l = true := by
  simp [matchText, matchLoop.eq_def, matchhere.eq_def, deref, NUL]

-- the characters that grep writes when every line matches
def written (text : List Char) : Nat := (selected [] text).flatten.length

theorem written_append (a b : List Char)
    : written (a ++ b) = written a + written (Lines.rest '\n' a ++ b) := by
  unfold written
  rw [selected_append, List.flatten_append, List.length_append]

theorem written_line (hline : '\n' ∉ x) (hy : '\n' ∈ y) : written (x ++ y) = x.length + written y := by
  rcases List.eq_append_cons_of_mem hy with ⟨a, b, rfl, ha⟩
  have hxa : '\n' ∉ x ++ a := by simp [hline, ha]
  unfold written
  rw [← List.append_assoc, selected_line hxa, selected_line ha, matchText_nil, matchText_nil]
  simp

theorem Carries.grep_le {s : State} {c : List Char} (reads : List (List Char)) (h : Carries s c)
    (hreads : Delivers [] s reads) (hnul : ∀ l ∈ Lines.done '\n' (c ++ reads.flatten), NUL ∉ l)
    : ∃ t, Grep.grep [] reads s = .ok t ∧
        t.out.flatten.length ≤ s.out.flatten.length + written (c ++ reads.flatten) ∧
        (¬reads.Pairwise (fun r r' => '\n' ∈ r' → '\n' ∈ r) →
          t.out.flatten.length < s.out.flatten.length + written (c ++ reads.flatten)) := by
  induction reads generalizing s c with
  | nil => exact ⟨s, rfl, Nat.le_add_right _ _, fun hnot => absurd .nil hnot⟩
  | cons r reads ih =>
    rcases turn_step h hreads hnul with ⟨t, c', hturn, hcarry, hnext, hout, hnul', hc'⟩
    rcases ih hcarry hnext hnul' with ⟨u, hgrep, hle, hlt⟩
    have hlength : t.out.flatten.length = s.out.flatten.length + written (c ++ r) := by
      rw [hout, List.flatten_append, List.length_append]
      rfl
    rw [Grep.grep, hturn, Fold.ok_bind, List.flatten_cons, ← List.append_assoc, written_append]
    rw [hlength] at hle hlt
    refine ⟨u, hgrep, ?_⟩
    by_cases hmem : '\n' ∈ r
    . rw [hc', if_pos hmem] at hle hlt
      refine ⟨by omega, ?_⟩
      intro hnot
      rw [List.pairwise_cons, and_iff_right (fun _ _ _ => hmem)] at hnot
      have := hlt hnot
      omega
    . have hcr : '\n' ∉ c ++ r := by simp [h.line, hmem]
      have hpos : 0 < (c ++ r).length := by
        have := hreads.1
        rw [List.length_append]
        omega
      rw [hc', if_neg hmem, List.nil_append] at hle hlt
      rw [Lines.rest_of_notMem hcr]
      by_cases hrest : '\n' ∈ reads.flatten
      . rw [written_line hcr hrest]
        exact ⟨by omega, fun _ => by omega⟩
      . have hnone : ∀ r ∈ reads, '\n' ∉ r := fun r hr hin => hrest (List.mem_flatten.mpr ⟨r, hr, hin⟩)
        have hpair : (r :: reads).Pairwise (fun r r' => '\n' ∈ r' → '\n' ∈ r) := by
          rw [List.pairwise_cons]
          refine ⟨fun r' hr' hin => absurd hin (hnone r' hr'), ?_⟩
          exact List.pairwise_of_forall_mem_list fun _ _ r' hr' hin => absurd hin (hnone r' hr')
        have hzero : written reads.flatten = 0 := by
          rw [written, selected_of_notMem hrest]
          rfl
        exact ⟨by omega, fun hnot => absurd hpair hnot⟩

/--
The output is the matching lines of the input, in order and complete, whatever the pattern, if and only
if no read that ends no line is followed by one that does.
-/
theorem grep_selects_lines (buf : Buf) (reads : List (List Char))
    (hreads : ∀ pattern, Delivers pattern ⟨buf, 0, []⟩ reads)
    (hnul : ∀ l ∈ Lines.done '\n' reads.flatten, NUL ∉ l)
    : (∀ pattern, ∃ t, grep pattern reads ⟨buf, 0, []⟩ = .ok t ∧ t.m + 1 < BUFSIZE ∧
        t.out = selected pattern reads.flatten) ↔
      reads.Pairwise fun r r' => '\n' ∈ r' → '\n' ∈ r := by
  have hstart : Carries ⟨buf, 0, []⟩ [] := .empty rfl
  constructor
  . intro hall
    by_contra hnot
    rcases hall [] with ⟨t, ht, _, hout⟩
    rcases hstart.grep_le reads (hreads []) hnul with ⟨u, hu, _, hlt⟩
    cases ht.symm.trans hu
    have := hlt hnot
    rw [hout] at this
    exact Nat.lt_irrefl _ (Nat.zero_add _ ▸ this)
  . intro hline pattern
    rcases hstart.grep reads (hreads pattern) hline hnul with ⟨t, c, hgrep, hcarries, hout⟩
    refine ⟨t, hgrep, ?_, hout⟩
    rw [hcarries.length]
    exact hcarries.room

theorem matchText_c (l : List Char) (hl : l = ['c'] ∨ l = ['c', 'd'] ∨ l = ['a', 'b', 'c'])
    : matchText ['c'] l = true := by
  rcases hl with rfl | rfl | rfl
  . simp [matchText, matchLoop, matchhere, deref, second, NUL]
  . simp [matchText, matchLoop, matchhere, deref, second, NUL]
  . simp [matchText, matchLoop, matchhere, deref, second, NUL]

theorem matchText_ab : matchText ['c'] ['a', 'b'] = false := by
  simp [matchText, matchLoop, matchhere, deref, second, NUL]

theorem Carries.delivers {s : State} {c r : List Char} {reads : List (List Char)} (h : Carries s c)
    (hr : 0 < r.length ∧ r.length ≤ BUFSIZE - c.length - 1)
    (hnul : ∀ l ∈ Lines.done '\n' (c ++ r), NUL ∉ l)
    (hnext : ∀ t, Carries t (if '\n' ∈ r then Lines.rest '\n' (c ++ r) else []) →
      Delivers pattern t reads)
    : Delivers pattern s (r :: reads) := by
  rw [← h.length] at hr
  rcases turn_spec h hr.1 hr.2 hnul with ⟨t, hturn, _, hcarries⟩
  refine ⟨hr.1, hr.2, ?_⟩
  intro u hu
  cases hturn.symm.trans hu
  exact hnext t hcarries

theorem grep_selects_lines_fourReads
    : ∃ t, grep ['c'] [['a', 'b', '\n', 'c'], ['d', '\n'], ['e'], ['c']] ⟨fun _ => NUL, 0, []⟩ = .ok t ∧
        t.out = [['c', 'd', '\n']] := by
  have hreads : ∀ pattern, Delivers pattern ⟨fun _ => NUL, 0, []⟩
      [['a', 'b', '\n', 'c'], ['d', '\n'], ['e'], ['c']] := by
    intro pattern
    refine Carries.delivers (.empty rfl) (by decide) (by decide) ?_
    intro t (ht : Carries t ['c'])
    refine ht.delivers (by decide) (by decide) ?_
    intro u (hu : Carries u [])
    refine hu.delivers (by decide) (by decide) ?_
    intro v (hv : Carries v [])
    exact hv.delivers (by decide) (by decide) fun _ _ => trivial
  rcases (grep_selects_lines (fun _ => NUL) _ hreads (by decide)).mpr (by decide) ['c'] with
    ⟨u, hgrep, _, hout⟩
  have hdone : Lines.done '\n' ['a', 'b', '\n', 'c', 'd', '\n', 'e', 'c'] =
      [['a', 'b'], ['c', 'd']] := by decide
  refine ⟨u, hgrep, hout.trans ?_⟩
  show selected ['c'] ['a', 'b', '\n', 'c', 'd', '\n', 'e', 'c'] = _
  rw [selected, hdone]
  simp [matchText_ab, matchText_c]

-- The first read does not end the line, and its part of it is lost.
theorem grep_loses_line_start
    : Delivers ['c'] ⟨fun _ => NUL, 0, []⟩ [['a', 'b'], ['c', '\n']] ∧
        (∃ t, grep ['c'] [['a', 'b'], ['c', '\n']] ⟨fun _ => NUL, 0, []⟩ = .ok t ∧
          t.out = [['c', '\n']]) ∧
        selected ['c'] ['a', 'b', 'c', '\n'] = [['a', 'b', 'c', '\n']] := by
  have hfirst : ∃ t, turn ['c'] ⟨fun _ => NUL, 0, []⟩ ['a', 'b'] = .ok t ∧ t.out = _ ∧ Carries t [] :=
    turn_spec (.empty rfl) (by decide) (by decide) (by decide)
  rcases hfirst with ⟨t, hturn, hout, hcarries⟩
  have hm : t.m = 0 := hcarries.length
  have hsecond : ∃ u, turn ['c'] t ['c', '\n'] = .ok u ∧ u.out = t.out ++ _ ∧ _ :=
    turn_spec hcarries (by decide) (by rw [hm]; decide) (by decide)
  rcases hsecond with ⟨u, hturn', hout', _⟩
  have hdone : Lines.done '\n' ['a', 'b'] = [] := by decide
  have hdone' : Lines.done '\n' ['c', '\n'] = [['c']] := by decide
  have hdone'' : Lines.done '\n' ['a', 'b', 'c', '\n'] = [['a', 'b', 'c']] := by decide
  refine ⟨⟨by decide, by decide, ?_⟩, ⟨u, ?_, ?_⟩, ?_⟩
  . intro v hv
    cases hturn.symm.trans hv
    refine ⟨by decide, ?_, fun _ _ => trivial⟩
    rw [hm]
    decide
  . rw [grep, hturn, Fold.ok_bind, grep, hturn', Fold.ok_bind]
    rfl
  . rw [hout', hout]
    show selected ['c'] ['a', 'b'] ++ selected ['c'] ['c', '\n'] = _
    rw [selected, hdone, selected, hdone']
    simp [matchText_c]
  . rw [selected, hdone'']
    simp [matchText_c]

end Grep
end Xv6
