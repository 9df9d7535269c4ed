import Xv6.Sh.Lemmas.Token
import Xv6.Data.Fold

/-!
One round of each loop of the parser, and one call of each of its functions, by the next tokens.
-/

namespace Xv6
namespace Sh

theorem Token.code_ne_nul {t : Token} (h : ∀ c, t = .sym c → c ∈ symbols)
    : t.code ≠ NUL := by
  cases t with
  | word w => exact (by decide : 'a' ≠ NUL)
  | append => exact (by decide : '+' ≠ NUL)
  | sym c =>
    intro heq
    have hmem := h c rfl
    rw [show c = NUL from heq] at hmem
    exact absurd hmem (by decide)

theorem Token.code_eq_a {t : Token} (h : ∀ c, t = .sym c → c ∈ symbols) (hcode : t.code = 'a')
    : ∃ w, t = .word w := by
  cases t with
  | word w => exact ⟨w, rfl⟩
  | append => exact absurd hcode (by decide)
  | sym c =>
    have hmem := h c rfl
    rw [show c = 'a' from hcode] at hmem
    exact absurd hmem (by decide)

@[simp]
theorem starts_word (cs : List Char) (w : List Char) (ts : List Token)
    : starts cs (.word w :: ts) = false :=
  rfl

theorem starts_sym (c : Char) (ts : List Token)
    : starts [c] (.sym c :: ts) = true := by
  simp [starts, Token.lead]

theorem starts_one {c : Char} (hc : c ≠ '>') (ts : List Token)
    : starts [c] ts = true ↔ ∃ us, ts = .sym c :: us := by
  cases ts with
  | nil => simp [starts]
  | cons t ts =>
    cases t with
    | word w => simp [starts, Token.lead]
    | append => simp [starts, Token.lead, Ne.symm hc]
    | sym d => simp [starts, Token.lead, eq_comm]

theorem starts_redir (t : Token) (ts : List Token)
    : starts ['<', '>'] (t :: ts) = t.redir.isSome := by
  cases t with
  | word w => rfl
  | append => rfl
  | sym c =>
    by_cases h1 : c = '<'
    . subst h1
      rfl
    . by_cases h2 : c = '>'
      . subst h2
        rfl
      . simp [starts, Token.lead, Token.redir, h1, h2]

section

variable {buf : List Char} (hnul : NUL ∉ buf) (fuel : Nat) (cmd : Cmd) {s : Nat} {t : Token}
  {ts : List Token} {w : List Char}

/-! `parseredirs` -/

include hnul

theorem parseredirs_stop (h : starts ['<', '>'] (toks buf s) = false)
    : parseredirs buf (fuel + 1) cmd s = .ok (cmd, Scan.run isSpace buf s) := by
  rw [parseredirs, peek_eq hnul (by decide)]
  simp only [h]
  rfl

theorem parseredirs_word {mode fd : Nat} (h : toks buf s = t :: .word w :: ts)
    (ht : t.redir = some (mode, fd))
    : ∃ q eq s',
        parseredirs buf (fuel + 1) cmd s = parseredirs buf fuel (.redir cmd q eq mode fd) s'
          ∧
        Span buf q eq w ∧ toks buf s' = ts := by
  rcases gettoken_cons hnul ((toks_skip buf s).trans h) with ⟨hret, hrest, _⟩
  rcases gettoken_cons hnul hrest with ⟨hret', hrest', hspan, _⟩
  refine ⟨_, _, _, ?_, hspan w rfl, hrest'⟩
  rw [parseredirs, peek_eq hnul (by decide), h, starts_redir, ht]
  simp only [Option.isSome_some, if_true, hret, hret', Token.code]
  cases t with
  | word v => cases ht
  | append =>
    cases ht
    rfl
  | sym c =>
    rw [Token.redir] at ht
    split at ht
    . next hc =>
      cases ht
      subst hc
      rfl
    . next hc =>
      split at ht
      . next hc' =>
        cases ht
        subst hc'
        rfl
      . cases ht

theorem parseredirs_missing (h : toks buf s = t :: ts) (ht : t.redir.isSome)
    (hw : ∀ w us, ts ≠ .word w :: us)
    : parseredirs buf (fuel + 1) cmd s = .error (.panic "missing file for redirection") := by
  rcases gettoken_cons hnul ((toks_skip buf s).trans h) with ⟨_, hrest, _⟩
  have hret : (gettoken buf (gettoken buf (Scan.run isSpace buf s)).ps).ret ≠ 'a' := by
    cases ts with
    | nil =>
      rw [(gettoken_nil hrest).1]
      decide
    | cons u us =>
      rcases gettoken_cons hnul hrest with ⟨hret, _, _, hsym⟩
      rw [hret]
      intro hcode
      rcases Token.code_eq_a hsym hcode with ⟨w, rfl⟩
      exact hw w us rfl
  rw [parseredirs, peek_eq hnul (by decide), h, starts_redir, ht]
  simp only [if_true, if_pos hret]

/-! `parseexec` -/

theorem parseargs_stop {argc : Nat} (h : starts ['|', ')', '&', ';'] (toks buf s))
    (hargc : argc < MAXARGS)
    : parseargs buf (fuel + 1) argc cmd s = .ok (cmd, Scan.run isSpace buf s) := by
  rw [parseargs, peek_eq hnul (by decide)]
  simp only [h, if_true, if_pos hargc]

theorem parseargs_end {argc : Nat} (h : toks buf s = []) (hargc : argc < MAXARGS)
    : ∃ s', parseargs buf (fuel + 1) argc cmd s = .ok (cmd, s') ∧ toks buf s' = [] := by
  rcases gettoken_nil ((toks_skip buf s).trans h) with ⟨hret, hrest⟩
  refine ⟨_, ?_, hrest⟩
  rw [parseargs, peek_eq hnul (by decide), h]
  simp only [starts, hret, if_true, if_pos hargc]
  rfl

theorem parseargs_word {argc : Nat} (h : toks buf s = .word w :: ts) (hargc : argc + 1 < MAXARGS)
    : ∃ q eq s',
        parseargs buf (fuel + 1) argc cmd s
          =
        (parseredirs buf fuel (cmd.addArg q eq) s' >>= fun r =>
          parseargs buf fuel (argc + 1) r.1 r.2)
          ∧
        Span buf q eq w ∧ toks buf s' = ts := by
  rcases gettoken_cons hnul ((toks_skip buf s).trans h) with ⟨hret, hrest, hspan, _⟩
  refine ⟨_, _, _, ?_, hspan w rfl, hrest⟩
  rw [parseargs, peek_eq hnul (by decide), h]
  simp only [hret, Token.code]
  rw [if_neg (by simp), if_neg (by decide), if_neg (by decide), if_neg (by omega),
    if_neg (by omega)]

theorem parseargs_too_many {argc : Nat} (h : toks buf s = .word w :: ts)
    (hargc : argc + 1 = MAXARGS)
    : parseargs buf (fuel + 1) argc cmd s = .error (.panic "too many args") := by
  rcases gettoken_cons hnul ((toks_skip buf s).trans h) with ⟨hret, _⟩
  rw [parseargs, peek_eq hnul (by decide), h]
  simp only [hret, Token.code]
  rw [if_neg (by simp), if_neg (by decide), if_neg (by decide), if_neg (by omega),
    if_pos (by omega)]

theorem parseargs_bad {argc : Nat} (h : toks buf s = t :: ts)
    (hstop : starts ['|', ')', '&', ';'] (t :: ts) = false) (hw : ∀ w, t ≠ .word w)
    : parseargs buf (fuel + 1) argc cmd s = .error (.panic "syntax") := by
  rcases gettoken_cons hnul ((toks_skip buf s).trans h) with ⟨hret, _, _, hsym⟩
  have hcode : t.code ≠ 'a' := by
    intro hcode
    rcases Token.code_eq_a hsym hcode with ⟨w, rfl⟩
    exact hw w rfl
  rw [parseargs, peek_eq hnul (by decide), h]
  simp only [hstop, hret, if_neg (Token.code_ne_nul hsym), if_pos hcode]
  rfl

theorem parseexec_block (h : toks buf s = .sym '(' :: ts)
    : parseexec buf (fuel + 1) s = parseblock buf fuel (Scan.run isSpace buf s) := by
  rw [parseexec, peek_eq hnul (by decide), h]
  rfl

theorem parseexec_simple (h : starts ['('] (toks buf s) = false)
    : parseexec buf (fuel + 1) s
        =
      (parseredirs buf fuel (.exec []) (Scan.run isSpace buf s) >>= fun r =>
        parseargs buf fuel 0 r.1 r.2) := by
  rw [parseexec, peek_eq hnul (by decide), h]
  rfl

/-! `parseblock` -/

theorem parseblock_open (h : toks buf s = .sym '(' :: ts)
    : ∃ s₁, toks buf s₁ = ts ∧
        parseblock buf (fuel + 1) s
          =
        (parseline buf fuel s₁ >>= fun r =>
          if starts [')'] (toks buf r.2) then
            parseredirs buf fuel r.1 (gettoken buf (Scan.run isSpace buf r.2)).ps
          else
            .error (.panic "syntax - missing )")) := by
  rcases gettoken_cons hnul ((toks_skip buf s).trans h) with ⟨_, hrest, _⟩
  refine ⟨_, hrest, ?_⟩
  rw [parseblock, peek_eq hnul (by decide), h]
  simp only [peek_eq hnul (show [')'].all symbols.contains by decide)]
  apply bind_congr
  rintro ⟨cmd, s'⟩
  cases starts [')'] (toks buf s')
  . rfl
  . rfl

/-! `parseline` and `parsepipe` -/

theorem parsebacks_more (h : toks buf s = .sym '&' :: ts)
    : ∃ s',
        parsebacks buf (fuel + 1) cmd s = parsebacks buf fuel (.back cmd) s'
          ∧
        toks buf s' = ts := by
  rcases gettoken_cons hnul ((toks_skip buf s).trans h) with ⟨_, hrest, _⟩
  refine ⟨_, ?_, hrest⟩
  rw [parsebacks, peek_eq hnul (by decide), h]
  rfl

theorem parsebacks_stop (h : starts ['&'] (toks buf s) = false)
    : parsebacks buf (fuel + 1) cmd s = .ok (cmd, Scan.run isSpace buf s) := by
  rw [parsebacks, peek_eq hnul (by decide)]
  simp only [h]
  rfl

theorem parseline_eq
    : parseline buf (fuel + 1) s
        =
      (parsepipe buf fuel s >>= fun r =>
        parsebacks buf fuel r.1 r.2 >>= fun r =>
          if starts [';'] (toks buf r.2) then
            (fun x => (.list r.1 x.1, x.2)) <$>
              parseline buf fuel (gettoken buf (Scan.run isSpace buf r.2)).ps
          else
            .ok (r.1, Scan.run isSpace buf r.2)) := by
  rw [parseline]
  simp only [peek_eq hnul (show [';'].all symbols.contains by decide)]
  rfl

theorem parsepipe_eq
    : parsepipe buf (fuel + 1) s
        =
      (parseexec buf fuel s >>= fun r =>
        if starts ['|'] (toks buf r.2) then
          (fun x => (.pipe r.1 x.1, x.2)) <$>
            parsepipe buf fuel (gettoken buf (Scan.run isSpace buf r.2)).ps
        else
          .ok (r.1, Scan.run isSpace buf r.2)) := by
  rw [parsepipe]
  simp only [peek_eq hnul (show ['|'].all symbols.contains by decide)]
  rfl

end

end Sh
end Xv6
