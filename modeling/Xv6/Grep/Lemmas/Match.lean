import Xv6.Grep.Impl.Match

/-!
What a pattern of `grep.c` means, and that `match` decides it.
-/

namespace Xv6
namespace Grep

inductive Item where
  | char (c : Char)
  | star (c : Char)
  deriving DecidableEq, Repr

structure Pattern where
  bol : Bool
  items : List Item
  eol : Bool
  deriving DecidableEq, Repr

def charLang (c : Char) : Language Char :=
  {w | ∃ t, (c = '.' ∨ c = t) ∧ w = [t]}

def Item.lang : Item → Language Char
  | .char c => charLang c
  | .star c => KStar.kstar (charLang c)

def lang (items : List Item) : Language Char :=
  (items.map Item.lang).prod

-- A star goes with the character in front of it, and only the last dollar is an anchor.
def parseItems : List Char → List Item × Bool
  | [] => ([], false)
  | ['$'] => ([], true)
  | c :: '*' :: re => (.star c :: (parseItems re).1, (parseItems re).2)
  | c :: re => (.char c :: (parseItems re).1, (parseItems re).2)

def Pattern.parse (re : List Char) : Pattern :=
  match re with
  | '^' :: re => ⟨true, (parseItems re).1, (parseItems re).2⟩
  | re => ⟨false, (parseItems re).1, (parseItems re).2⟩

def Pattern.Matches (p : Pattern) (text : List Char) : Prop :=
  ∃ before mid after, text = before ++ mid ++ after ∧ mid ∈ lang p.items ∧
    (p.bol = true → before = []) ∧ (p.eol = true → after = [])

example : Pattern.parse "^ab*.$".toList = ⟨true, [.char 'a', .star 'b', .char '.'], true⟩ := by
  decide

def Here (p : List Item × Bool) (text : List Char) : Prop :=
  ∃ mid after, text = mid ++ after ∧ mid ∈ lang p.1 ∧ (p.2 = true → after = [])

theorem mem_lang_nil {w : List Char} : w ∈ lang [] ↔ w = [] := by
  simp [lang, Language.mem_one]

theorem lang_cons (i : Item) (l : List Item) : lang (i :: l) = i.lang * lang l := by
  simp [lang]

theorem mem_charLang_mul {c : Char} {L : Language Char} {w : List Char}
    : w ∈ charLang c * L ↔ ∃ t v, w = t :: v ∧ (c = '.' ∨ c = t) ∧ v ∈ L := by
  rw [Language.mem_mul]
  constructor
  . rintro ⟨_, ⟨t, ht, rfl⟩, v, hv, rfl⟩
    exact ⟨t, v, rfl, ht, hv⟩
  . rintro ⟨t, v, rfl, ht, hv⟩
    exact ⟨[t], ⟨t, ht, rfl⟩, v, hv, rfl⟩

theorem mem_star_mul {c : Char} {L : Language Char} {w : List Char}
    : w ∈ KStar.kstar (charLang c) * L ↔
        w ∈ L ∨ ∃ t v, w = t :: v ∧ (c = '.' ∨ c = t) ∧ v ∈ KStar.kstar (charLang c) * L := by
  have hunfold : KStar.kstar (charLang c) * L =
      L + charLang c * (KStar.kstar (charLang c) * L) := by
    nth_rewrite 1 [← Language.one_add_self_mul_kstar_eq_kstar]
    rw [add_mul, one_mul, mul_assoc]
  rw [← mem_charLang_mul, ← Language.mem_add, ← hunfold]

theorem here_nil (text : List Char) : Here ([], false) text :=
  ⟨[], text, rfl, mem_lang_nil.mpr rfl, nofun⟩

theorem here_eol {text : List Char} : Here ([], true) text ↔ text = [] := by
  constructor
  . rintro ⟨mid, after, rfl, hmid, hafter⟩
    rw [mem_lang_nil.mp hmid, hafter rfl]
    rfl
  . rintro rfl
    exact ⟨[], [], rfl, mem_lang_nil.mpr rfl, fun _ => rfl⟩

theorem here_char {c : Char} {l : List Item} {eol : Bool} {text : List Char}
    : Here (.char c :: l, eol) text ↔
        ∃ t rest, text = t :: rest ∧ (c = '.' ∨ c = t) ∧ Here (l, eol) rest := by
  constructor
  . rintro ⟨mid, after, rfl, hmid, hafter⟩
    rw [lang_cons] at hmid
    rcases mem_charLang_mul.mp hmid with ⟨t, v, rfl, ht, hv⟩
    exact ⟨t, v ++ after, rfl, ht, v, after, rfl, hv, hafter⟩
  . rintro ⟨t, rest, rfl, ht, mid, after, rfl, hmid, hafter⟩
    refine ⟨t :: mid, after, rfl, ?_, hafter⟩
    rw [lang_cons]
    exact mem_charLang_mul.mpr ⟨t, mid, rfl, ht, hmid⟩

theorem here_star {c : Char} {l : List Item} {eol : Bool} {text : List Char}
    : Here (.star c :: l, eol) text ↔ Here (l, eol) text ∨
        ∃ t rest, text = t :: rest ∧ (c = '.' ∨ c = t) ∧ Here (.star c :: l, eol) rest := by
  constructor
  . rintro ⟨mid, after, rfl, hmid, hafter⟩
    rw [lang_cons] at hmid
    rcases mem_star_mul.mp hmid with hmid | ⟨t, v, rfl, ht, hv⟩
    . exact .inl ⟨mid, after, rfl, hmid, hafter⟩
    . refine .inr ⟨t, v ++ after, rfl, ht, v, after, rfl, ?_, hafter⟩
      rw [lang_cons]
      exact hv
  . rintro (⟨mid, after, rfl, hmid, hafter⟩ | ⟨t, rest, rfl, ht, mid, after, rfl, hmid, hafter⟩)
    . refine ⟨mid, after, rfl, ?_, hafter⟩
      rw [lang_cons]
      exact mem_star_mul.mpr (.inl hmid)
    . refine ⟨t :: mid, after, rfl, ?_, hafter⟩
      rw [lang_cons] at hmid ⊢
      exact mem_star_mul.mpr (.inr ⟨t, mid, rfl, ht, hmid⟩)

variable {re text : List Char} {c : Char}

theorem deref_ne_nul (h : NUL ∉ c :: text) : c ≠ NUL := by
  rintro rfl
  exact h List.mem_cons_self

theorem matchstar_iff {p : List Item × Bool}
    (hre : ∀ text, NUL ∉ text → (matchhere re text = true ↔ Here p text)) (htext : NUL ∉ text)
    : matchstar c re text = true ↔ Here (.star c :: p.1, p.2) text := by
  -- the loop moves through the text as far as the star can reach
  induction text with
  | nil =>
    rw [matchstar, here_star]
    simp [deref, hre [] htext]
  | cons t text ih =>
    have ht := deref_ne_nul htext
    have ih := ih (fun h => htext (List.mem_cons_of_mem _ h))
    rw [matchstar, here_star, ← hre _ htext]
    simp only [deref, List.headD_cons, List.tail_cons, ht, ne_eq, not_false_eq_true, true_and]
    split
    next hhere => simp [hhere]
    next hhere =>
      split
      next hc =>
        rw [ih]
        constructor
        . intro h
          exact .inr ⟨t, text, rfl, hc.symm.imp_right Eq.symm, h⟩
        . rintro (h | ⟨_, _, heq, _, h⟩)
          . exact absurd h hhere
          . cases heq
            exact h
      next hc =>
        constructor
        . nofun
        . rintro (h | ⟨_, _, heq, h, _⟩)
          . exact absurd h hhere
          . cases heq
            exact absurd (h.symm.imp_left Eq.symm) hc

theorem parseItems_star (c : Char) (re : List Char)
    : parseItems (c :: '*' :: re) = (.star c :: (parseItems re).1, (parseItems re).2) := by
  rw [parseItems]

theorem parseItems_char (hstar : second (c :: re) ≠ '*')
    (hdollar : ¬ (c = '$' ∧ second (c :: re) = NUL))
    : parseItems (c :: re) = (.char c :: (parseItems re).1, (parseItems re).2) := by
  rw [parseItems]
  . rintro rfl rfl
    exact hdollar ⟨rfl, rfl⟩
  . rintro re' rfl
    exact hstar rfl

theorem second_eq_nul (hre : NUL ∉ re) (h : second (c :: re) = NUL) : re = [] := by
  cases re with
  | nil => rfl
  | cons d re => exact absurd h (deref_ne_nul hre)

theorem matchhere_cons (hc : c ≠ NUL)
    : matchhere (c :: re) text =
        if second (c :: re) = '*' then
          matchstar c re.tail text
        else if c = '$' ∧ second (c :: re) = NUL then
          deref text = NUL
        else if deref text ≠ NUL ∧ (c = '.' ∨ c = deref text) then
          matchhere re text.tail
        else
          false := by
  rw [matchhere]
  cases re <;> exact if_neg hc

theorem matchhere_iff (hre : NUL ∉ re) (htext : NUL ∉ text)
    : matchhere re text = true ↔ Here (parseItems re) text := by
  induction hn : re.length using Nat.strong_induction_on generalizing re text with
  | _ n ih =>
    cases re with
    | nil =>
      rw [matchhere]
      exact iff_of_true rfl (here_nil text)
    | cons c re =>
      have hc := deref_ne_nul hre
      have hre' : NUL ∉ re := fun h => hre (List.mem_cons_of_mem _ h)
      rw [matchhere_cons hc]
      split
      next hstar =>
        rcases re with _ | ⟨d, re⟩
        . cases hstar
        . rcases (hstar : d = '*') with rfl
          have hre'' : NUL ∉ re := fun h => hre' (List.mem_cons_of_mem _ h)
          rw [parseItems_star]
          apply matchstar_iff _ htext
          intro text htext
          exact ih re.length (by simp at hn; omega) hre'' htext rfl
      next hstar =>
        split
        next hdollar =>
          rw [second_eq_nul hre' hdollar.2, hdollar.1, parseItems, here_eol]
          cases text with
          | nil => simp [deref]
          | cons t text => simp [deref, deref_ne_nul htext]
        next hdollar =>
          rw [parseItems_char hstar hdollar, here_char]
          cases text with
          | nil => simp [deref]
          | cons t text =>
            have ht := deref_ne_nul htext
            have htext' : NUL ∉ text := fun h => htext (List.mem_cons_of_mem _ h)
            have ih := ih re.length (by simp at hn; omega) hre' htext' rfl
            simp [deref, ht, ih]

theorem matchLoop_iff (hre : NUL ∉ re) (htext : NUL ∉ text)
    : matchLoop re text = true ↔
        ∃ before rest, text = before ++ rest ∧ Here (parseItems re) rest := by
  induction text with
  | nil =>
    rw [matchLoop]
    simp [matchhere_iff hre htext, deref]
  | cons t text ih =>
    have ht := deref_ne_nul htext
    have htext' : NUL ∉ text := fun h => htext (List.mem_cons_of_mem _ h)
    rw [matchLoop]
    simp only [deref, List.headD_cons, ht, ne_eq, not_false_eq_true, ↓reduceIte, List.tail_cons]
    split
    next h =>
      simp only [true_iff]
      exact ⟨[], t :: text, rfl, (matchhere_iff hre htext).mp h⟩
    next h =>
      rw [ih htext']
      constructor
      . rintro ⟨before, rest, rfl, hrest⟩
        exact ⟨t :: before, rest, rfl, hrest⟩
      . rintro ⟨before, rest, heq, hrest⟩
        cases before with
        | nil =>
          cases heq
          exact absurd ((matchhere_iff hre htext).mpr hrest) h
        | cons s before =>
          cases heq
          exact ⟨before, rest, rfl, hrest⟩

theorem match_decides_language (re text : List Char) (hre : NUL ∉ re) (htext : NUL ∉ text)
    : matchText re text = true ↔ (Pattern.parse re).Matches text := by
  unfold matchText
  split
  next h =>
    cases re with
    | nil => cases h
    | cons c re =>
      cases h
      have hre' : NUL ∉ re := fun h => hre (List.mem_cons_of_mem _ h)
      rw [List.tail_cons, matchhere_iff hre' htext]
      constructor
      . rintro ⟨mid, after, rfl, hmid, hafter⟩
        exact ⟨[], mid, after, rfl, hmid, fun _ => rfl, hafter⟩
      . rintro ⟨before, mid, after, rfl, hmid, hbefore, hafter⟩
        rw [hbefore rfl]
        exact ⟨mid, after, rfl, hmid, hafter⟩
  next h =>
    have hparse : Pattern.parse re = ⟨false, (parseItems re).1, (parseItems re).2⟩ := by
      unfold Pattern.parse
      split
      next => exact absurd rfl h
      next => rfl
    rw [matchLoop_iff hre htext, hparse]
    constructor
    . rintro ⟨before, _, rfl, mid, after, rfl, hmid, hafter⟩
      exact ⟨before, mid, after, (List.append_assoc ..).symm, hmid, nofun, hafter⟩
    . rintro ⟨before, mid, after, rfl, hmid, _, hafter⟩
      exact ⟨before, mid ++ after, List.append_assoc .., mid, after, rfl, hmid, hafter⟩

theorem match_decides_language_sample
    : (Pattern.parse ['b', '*', '$']).Matches ['a', 'b'] := by
  apply (match_decides_language _ _ (by decide) (by decide)).mp
  simp [matchText, matchLoop, matchhere, matchstar, deref, second, NUL]

end Grep
end Xv6
