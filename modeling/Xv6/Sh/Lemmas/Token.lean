import Xv6.Sh.Impl.Grammar

/-!
`gettoken` and `peek` in terms of the tokens that stand between a position and the end of the text.
-/

namespace Xv6
namespace Sh

theorem not_isWord_of_isSpace {c : Char} (h : isSpace c)
    : isWord c = false := by
  rw [isWord, show whitespace.contains c = true from h]
  rfl

theorem mem_symbols {c : Char} (hs : ¬isSpace c) (hw : ¬isWord c)
    : c ∈ symbols := by
  rw [isSpace, Bool.not_eq_true] at hs
  rw [isWord, hs] at hw
  simpa using hw

theorem not_isWord_of_mem_symbols {c : Char} (h : c ∈ symbols)
    : isWord c = false := by
  rw [isWord, List.contains_iff_mem.mpr h]
  simp

/-! The tokens of a text. -/

theorem lex_space {c : Char} {l : List Char} (h : isSpace c)
    : lex (c :: l) = lex l := by
  rw [lex, if_pos h]

theorem lex_word {c : Char} {l : List Char} (h : isWord c)
    : lex (c :: l) = .word (c :: l.takeWhile isWord) :: lex (l.dropWhile isWord) := by
  have hs : ¬isSpace c := by
    intro hs
    rw [not_isWord_of_isSpace hs] at h
    contradiction
  rw [lex, if_neg hs, if_pos h]

theorem lex_append {l : List Char}
    : lex ('>' :: '>' :: l) = .append :: lex l := by
  rw [lex, if_neg (by decide), if_neg (by decide), if_pos ⟨rfl, rfl⟩]
  rfl

theorem lex_sym {c : Char} {l : List Char} (hs : ¬isSpace c) (hw : ¬isWord c)
    (h : ¬(c = '>' ∧ l.head? = some '>'))
    : lex (c :: l) = .sym c :: lex l := by
  rw [lex, if_neg hs, if_neg hw, if_neg h]

theorem lex_ne_nil {c : Char} {l : List Char} (hs : ¬isSpace c)
    : lex (c :: l) ≠ [] := by
  rw [lex, if_neg hs]
  split
  . exact List.cons_ne_nil _ _
  . split
    . exact List.cons_ne_nil _ _
    . exact List.cons_ne_nil _ _

theorem lex_length_le (l : List Char)
    : (lex l).length ≤ l.length := by
  induction l using lex.induct with
  | case1 => simp [lex]
  | case2 c l hs ih =>
    rw [lex_space hs]
    exact Nat.le_succ_of_le ih
  | case3 c l hs hw ih =>
    have := (List.dropWhile_suffix isWord (l := l)).length_le
    rw [lex_word hw, List.length_cons, List.length_cons]
    omega
  | case4 c l hs hw happ ih =>
    rcases happ with ⟨rfl, hl⟩
    rcases List.head?_eq_some_iff.mp hl with ⟨l', rfl⟩
    rw [List.tail_cons] at ih
    rw [lex_append, List.length_cons, List.length_cons, List.length_cons]
    omega
  | case5 c l hs hw happ ih =>
    rw [lex_sym hs hw happ]
    exact Nat.succ_le_succ ih

theorem lex_dropWhile (l : List Char)
    : lex (l.dropWhile isSpace) = lex l := by
  induction l with
  | nil => rfl
  | cons c l ih =>
    by_cases hc : isSpace c
    . rw [List.dropWhile_cons_of_pos hc, ih, lex_space hc]
    . rw [List.dropWhile_cons_of_neg hc]

def toks (buf : List Char) (s : Nat) : List Token := lex (buf.drop s)

@[simp]
theorem toks_skip (buf : List Char) (s : Nat)
    : toks buf (Scan.run isSpace buf s) = toks buf s := by
  rw [toks, Scan.drop_run, lex_dropWhile, toks]

/-! The character at a position. -/

theorem deref_of_drop {buf l : List Char} {s : Nat} {c : Char} (h : buf.drop s = c :: l)
    : deref buf s = c := by
  rw [deref, List.getD_eq_getElem?_getD, ← List.head?_drop, h]
  rfl

theorem deref_of_drop_nil {buf : List Char} {s : Nat} (h : buf.drop s = [])
    : deref buf s = NUL := by
  rw [deref, List.getD_eq_getElem?_getD, ← List.head?_drop, h]
  rfl

theorem drop_succ {buf l : List Char} {s : Nat} {c : Char} (h : buf.drop s = c :: l)
    : buf.drop (s + 1) = l := by
  rw [← List.drop_drop, h]
  rfl

theorem drop_skip (buf : List Char) (s : Nat)
    : buf.drop (Scan.run isSpace buf s) = []
        ∨
      ∃ c l, buf.drop (Scan.run isSpace buf s) = c :: l ∧ ¬isSpace c := by
  rw [Scan.drop_run]
  cases h : (buf.drop s).dropWhile isSpace with
  | nil => exact .inl rfl
  | cons c l =>
    refine .inr ⟨c, l, rfl, ?_⟩
    have := List.head_dropWhile_not isSpace (l := buf.drop s) (by simp [h])
    simpa [h] using this

/--
The text of a word lies between the two positions, and ends where the run of its characters ends.
-/
structure Span (buf : List Char) (q eq : Nat) (w : List Char) : Prop where
  nonempty : w ≠ []
  text : buf.drop q = w ++ buf.drop eq
  length : eq = q + w.length
  word : ∀ c ∈ w, isWord c
  stop : ∀ c l, buf.drop eq = c :: l → ¬isWord c

theorem span_run {buf l : List Char} {q : Nat} {c : Char} (h : buf.drop q = c :: l) (hc : isWord c)
    : Span buf q (Scan.run isWord buf q) (c :: l.takeWhile isWord)
        ∧
      buf.drop (Scan.run isWord buf q) = l.dropWhile isWord := by
  have htake : (buf.drop q).takeWhile isWord = c :: l.takeWhile isWord := by
    rw [h, List.takeWhile_cons_of_pos hc]
  have hdrop : buf.drop (Scan.run isWord buf q) = l.dropWhile isWord := by
    rw [Scan.drop_run, h, List.dropWhile_cons_of_pos hc]
  refine ⟨⟨List.cons_ne_nil _ _, ?_, ?_, ?_, ?_⟩, hdrop⟩
  . rw [← htake, Scan.drop_run, List.takeWhile_append_dropWhile]
  . rw [Scan.run, htake]
  . intro d hd
    rw [← htake] at hd
    exact List.mem_takeWhile_imp hd
  . intro d l' hd
    rw [Scan.drop_run] at hd
    have := List.head_dropWhile_not isWord (l := buf.drop q) (by simp [hd])
    simpa [hd] using this

/-! `gettoken` and `peek`. -/

/-- What `gettoken` returns for a token. -/
def Token.code : Token → Char
  | .word _ => 'a'
  | .sym c => c
  | .append => '+'

theorem switchToken_nil {buf : List Char} {s : Nat} (h : buf.drop s = [])
    : switchToken buf s = (NUL, s) := by
  rw [switchToken, deref_of_drop_nil h]
  rfl

theorem switchToken_append {buf l : List Char} {s : Nat} (h : buf.drop s = '>' :: '>' :: l)
    : switchToken buf s = ('+', s + 2) := by
  rw [switchToken, deref_of_drop h, deref_of_drop (drop_succ h)]
  rfl

theorem switchToken_sym {buf l : List Char} {s : Nat} {c : Char} (h : buf.drop s = c :: l)
    (hc : c ∈ symbols) (hne : ¬(c = '>' ∧ l.head? = some '>'))
    : switchToken buf s = (c, s + 1) := by
  have hnext : deref buf (s + 1) = l.head?.getD NUL := by
    rw [deref, List.getD_eq_getElem?_getD, ← List.head?_drop, drop_succ h]
  rw [switchToken, deref_of_drop h]
  simp only [symbols, List.mem_cons, List.not_mem_nil, or_false] at hc
  rcases hc with rfl | rfl | rfl | rfl | rfl | rfl | rfl
  -- all but `>` return at once
  case inr.inr.inl =>
    have : deref buf (s + 1) ≠ '>' := by
      rw [hnext]
      cases hl : l.head? with
      | none => decide
      | some d =>
        intro heq
        exact hne ⟨rfl, hl.trans (congrArg some heq)⟩
    rw [if_neg (by decide), if_neg (by decide), if_pos rfl, if_neg this]
  all_goals rfl

theorem switchToken_word {buf l : List Char} {s : Nat} {c : Char} (h : buf.drop s = c :: l)
    (hc : isWord c) (hnul : c ≠ NUL)
    : switchToken buf s = ('a', Scan.run isWord buf s) := by
  have hne : ∀ d ∈ symbols, c ≠ d := by
    rintro d hd rfl
    rw [not_isWord_of_mem_symbols hd] at hc
    contradiction
  simp only [symbols, List.forall_mem_cons] at hne
  rw [switchToken, deref_of_drop h]
  simp [hnul, hne]

theorem gettoken_nil {buf : List Char} {s : Nat} (h : toks buf s = [])
    : (gettoken buf s).ret = NUL ∧ toks buf (gettoken buf s).ps = [] := by
  rw [← toks_skip, toks] at h
  rcases drop_skip buf s with hnil | ⟨c, l, hcons, hs⟩
  . rw [gettoken, switchToken_nil hnil]
    refine ⟨rfl, ?_⟩
    rw [toks_skip, toks, hnil, lex]
  . rw [hcons] at h
    exact absurd h (lex_ne_nil hs)

theorem gettoken_cons {buf : List Char} {s : Nat} {t : Token} {ts : List Token} (hnul : NUL ∉ buf)
    (h : toks buf s = t :: ts)
    : (gettoken buf s).ret = t.code
        ∧
      toks buf (gettoken buf s).ps = ts
        ∧
      (∀ w, t = .word w → Span buf (gettoken buf s).q (gettoken buf s).eq w)
        ∧
      ∀ c, t = .sym c → c ∈ symbols := by
  rw [← toks_skip, toks] at h
  rcases drop_skip buf s with hnil | ⟨c, l, hcons, hs⟩
  . rw [hnil, lex] at h
    cases h
  . rw [gettoken]
    generalize Scan.run isSpace buf s = q at h hcons ⊢
    rw [hcons] at h
    simp only [toks_skip]
    by_cases hw : isWord c
    . have hc : c ≠ NUL := by
        rintro rfl
        apply hnul
        exact List.mem_of_mem_drop (hcons ▸ List.mem_cons_self)
      rcases span_run hcons hw with ⟨hspan, hdrop⟩
      rw [lex_word hw] at h
      cases h
      rw [switchToken_word hcons hw hc]
      refine ⟨rfl, ?_, ?_, ?_⟩
      . rw [toks, hdrop]
      . intro w hw
        cases hw
        exact hspan
      . rintro _ ⟨⟩
    . by_cases happ : c = '>' ∧ l.head? = some '>'
      . rcases happ with ⟨rfl, hl⟩
        rcases List.head?_eq_some_iff.mp hl with ⟨l', rfl⟩
        rw [lex_append] at h
        cases h
        rw [switchToken_append hcons]
        refine ⟨rfl, ?_, ?_, ?_⟩
        . rw [toks, drop_succ (drop_succ hcons)]
        . rintro _ ⟨⟩
        . rintro _ ⟨⟩
      . rw [lex_sym hs hw happ] at h
        cases h
        rw [switchToken_sym hcons (mem_symbols hs hw) happ]
        refine ⟨rfl, ?_, ?_, ?_⟩
        . rw [toks, drop_succ hcons]
        . rintro _ ⟨⟩
        . intro d hd
          cases hd
          exact mem_symbols hs hw

/-- The first character of a token that is not a word. -/
def Token.lead : Token → Option Char
  | .word _ => none
  | .sym c => some c
  | .append => some '>'

/-- The next token begins with one of the symbols. -/
def starts (cs : List Char) : List Token → Bool
  | [] => false
  | t :: _ => t.lead.any cs.contains

theorem peek_eq {buf : List Char} {cs : List Char} (hnul : NUL ∉ buf)
    (hcs : cs.all symbols.contains) (s : Nat)
    : peek buf s cs = (starts cs (toks buf s), Scan.run isSpace buf s) := by
  rw [← toks_skip, toks, peek]
  rcases drop_skip buf s with hnil | ⟨c, l, hcons, hs⟩
  . simp only [deref_of_drop_nil hnil, hnil]
    rw [lex]
    rfl
  . have hc : c ≠ NUL := by
      rintro rfl
      apply hnul
      exact List.mem_of_mem_drop (hcons ▸ List.mem_cons_self)
    simp only [deref_of_drop hcons, hcons]
    by_cases hw : isWord c
    . have hnot : cs.contains c = false := by
        by_contra hmem
        have hc : c ∈ symbols := by simpa using List.all_eq_true.mp hcs c (by simpa using hmem)
        have := not_isWord_of_mem_symbols hc
        simp [hw] at this
      rw [lex_word hw, hnot]
      simp [starts, Token.lead]
    . by_cases happ : c = '>' ∧ l.head? = some '>'
      . rcases happ with ⟨rfl, hl⟩
        rcases List.head?_eq_some_iff.mp hl with ⟨l', rfl⟩
        rw [lex_append]
        simp [starts, Token.lead, hc]
      . rw [lex_sym hs hw happ]
        simp [starts, Token.lead, hc]

end Sh
end Xv6
