import Xv6.Sh.Lemmas.Step
import Xv6.Data.Ensures
import Mathlib.Data.List.Forall2
import Mathlib.Data.List.Induction

/-!
What the parser returns is a tree of the grammar for the tokens it has consumed, and it returns: the
tokens that are left bound its recursion, and all that can go wrong is a syntax error.
-/

namespace Xv6
namespace Sh

/-- The command has the shape of the tree, and its words are those of the tree. -/
inductive Reads (buf : List Char) : Cmd → Tree → Prop where
  | exec {args : List (Nat × Nat)} {ws : List (List Char)} :
      List.Forall₂ (fun arg w => Span buf arg.1 arg.2 w) args ws → Reads buf (.exec args) (.exec ws)
  | redir {cmd : Cmd} {t : Tree} {q eq : Nat} {w : List Char} {mode fd : Nat} :
      Reads buf cmd t → Span buf q eq w → Reads buf (.redir cmd q eq mode fd) (.redir t w mode fd)
  | pipe {left right : Cmd} {t u : Tree} :
      Reads buf left t → Reads buf right u → Reads buf (.pipe left right) (.pipe t u)
  | list {left right : Cmd} {t u : Tree} :
      Reads buf left t → Reads buf right u → Reads buf (.list left right) (.list t u)
  | back {cmd : Cmd} {t : Tree} : Reads buf cmd t → Reads buf (.back cmd) (.back t)

theorem wrap_append (t : Tree) (rs qs : List Redir)
    : wrap t (rs ++ qs) = wrap (wrap t rs) qs :=
  List.foldl_append

theorem Reads.addArg {buf : List Char} {cmd : Cmd} {ws : List (List Char)} {rs : List Redir}
    {q eq : Nat} {w : List Char} (h : Reads buf cmd (wrap (.exec ws) rs)) (hspan : Span buf q eq w)
    : Reads buf (cmd.addArg q eq) (wrap (.exec (ws ++ [w])) rs) := by
  induction rs using List.reverseRecOn generalizing cmd with
  | nil =>
    cases h with
    | exec hargs => exact .exec (List.rel_append hargs (.cons hspan .nil))
  | append_singleton rs r ih =>
    rw [wrap_append] at h ⊢
    cases h with
    | redir hcmd hfile => exact .redir (ih hcmd) hfile

def SyntaxError (e : Fault) : Prop := ∃ msg ∈ syntaxErrors, e = .panic msg

theorem refuse {α : Type} {Q : α → Prop} {msg : String} (h : msg ∈ syntaxErrors)
    : Outcome SyntaxError (.error (.panic msg)) Q :=
  ⟨msg, h, rfl⟩

section

variable {buf : List Char} (hnul : NUL ∉ buf)

include hnul

/-! The loops. -/

theorem parseredirs_sound {fuel s : Nat} {cmd : Cmd} (hfuel : (toks buf s).length < fuel)
    : Outcome SyntaxError (parseredirs buf fuel cmd s) fun r =>
        ∃ ts rs,
          toks buf s = ts ++ toks buf r.2
            ∧
          Redirs ts rs
            ∧
          ∀ t, Reads buf cmd t → Reads buf r.1 (wrap t rs) := by
  induction fuel generalizing s cmd with
  | zero => omega
  | succ fuel ih =>
    cases hts : toks buf s with
    | nil =>
      rw [parseredirs_stop hnul fuel cmd (by rw [hts]; rfl)]
      exact ⟨[], [], by rw [toks_skip, hts]; rfl, .nil, fun t h => h⟩
    | cons t ts =>
      cases hredir : t.redir with
      | none =>
        rw [parseredirs_stop hnul fuel cmd (by rw [hts, starts_redir, hredir]; rfl)]
        exact ⟨[], [], by rw [toks_skip, hts]; rfl, .nil, fun t h => h⟩
      | some r =>
        by_cases hw : ∃ w us, ts = .word w :: us
        . rcases hw with ⟨w, us, rfl⟩
          rcases parseredirs_word hnul fuel cmd hts hredir with ⟨q, eq, s', heq, hspan, hs'⟩
          rw [hts, List.length_cons, List.length_cons] at hfuel
          rw [heq]
          apply (ih (by rw [hs']; omega)).mono
          rintro ⟨cmd', s''⟩ ⟨ts, rs, happ, hrs, hreads⟩
          refine ⟨t :: .word w :: ts, ⟨w, r.1, r.2⟩ :: rs, ?_, .cons hredir hrs, ?_⟩
          . rw [← hs', happ]
            rfl
          . intro u hu
            exact hreads _ (.redir hu hspan)
        . rw [parseredirs_missing hnul fuel cmd hts (by rw [hredir]; rfl)
            (fun w us heq => hw ⟨w, us, heq⟩)]
          exact refuse (by decide)

theorem parseargs_sound {fuel s : Nat} {cmd : Cmd} {ws : List (List Char)} {rs : List Redir}
    (hfuel : (toks buf s).length < fuel) (hws : ws.length < MAXARGS)
    (hreads : Reads buf cmd (wrap (.exec ws) rs))
    : Outcome SyntaxError (parseargs buf fuel ws.length cmd s) fun r =>
        ∃ ts vs qs,
          toks buf s = ts ++ toks buf r.2
            ∧
          Args ts vs qs
            ∧
          (ws ++ vs).length < MAXARGS
            ∧
          Reads buf r.1 (wrap (.exec (ws ++ vs)) (rs ++ qs)) := by
  induction fuel generalizing s cmd ws rs with
  | zero => omega
  | succ fuel ih =>
    have hend : ∀ s', toks buf s' = toks buf s → ∃ ts vs qs,
        toks buf s = ts ++ toks buf s' ∧ Args ts vs qs ∧ (ws ++ vs).length < MAXARGS ∧
          Reads buf cmd (wrap (.exec (ws ++ vs)) (rs ++ qs)) := by
      intro s' hs'
      exact ⟨[], [], [], hs'.symm, .nil, by simpa using hws, by simpa using hreads⟩
    by_cases hstop : starts ['|', ')', '&', ';'] (toks buf s)
    . rw [parseargs_stop hnul fuel cmd hstop hws]
      exact hend _ (toks_skip buf s)
    . cases hts : toks buf s with
      | nil =>
        rcases parseargs_end hnul fuel cmd hts hws with ⟨s', heq, hs'⟩
        rw [heq, ← hts]
        exact hend s' (hs'.trans hts.symm)
      | cons t ts =>
        by_cases hw : ∃ w, t = .word w
        . rcases hw with ⟨w, rfl⟩
          by_cases hmany : ws.length + 1 = MAXARGS
          . rw [parseargs_too_many hnul fuel cmd hts hmany]
            exact refuse (by decide)
          . have hargc : ws.length + 1 < MAXARGS := by omega
            rcases parseargs_word hnul fuel cmd hts hargc with ⟨q, eq, s', heq, hspan, hs'⟩
            rw [hts, List.length_cons] at hfuel
            rw [heq]
            have hfuel' : (toks buf s').length < fuel := by
              rw [hs']
              omega
            apply (parseredirs_sound hnul hfuel').bind
            rintro ⟨cmd', u⟩ ⟨us, rs', happ, hrs, hreads'⟩
            have hlen := congrArg List.length happ
            rw [hs', List.length_append] at hlen
            have hcmd := hreads' _ (hreads.addArg hspan)
            rw [← wrap_append] at hcmd
            have hws' : (ws ++ [w]).length < MAXARGS := by
              rw [List.length_append, List.length_singleton]
              omega
            rw [show ws.length + 1 = (ws ++ [w]).length by simp]
            apply (ih (by omega) hws' hcmd).mono
            rintro ⟨cmd₂, v⟩ ⟨vs, ws', qs, happ', hargs, hlt, hr⟩
            rw [List.append_assoc] at hlt hr
            rw [List.append_assoc] at hr
            refine ⟨_, _, _, ?_, .cons hrs hargs, hlt, hr⟩
            rw [← hs', happ, happ']
            simp
        . rw [parseargs_bad hnul fuel cmd hts (by simpa [hts] using hstop)
            (fun w heq => hw ⟨w, heq⟩)]
          exact refuse (by decide)

theorem parsebacks_sound {fuel s : Nat} {cmd : Cmd} (hfuel : (toks buf s).length < fuel)
    : Outcome SyntaxError (parsebacks buf fuel cmd s) fun r =>
        ∃ n,
          toks buf s = List.replicate n (.sym '&') ++ toks buf r.2
            ∧
          ∀ t, Reads buf cmd t → Reads buf r.1 (backs t n) := by
  induction fuel generalizing s cmd with
  | zero => omega
  | succ fuel ih =>
    cases hmore : starts ['&'] (toks buf s) with
    | true =>
      rcases (starts_one (by decide) _).mp hmore with ⟨ts, hts⟩
      rcases parsebacks_more hnul fuel cmd hts with ⟨s', heq, hs'⟩
      rw [hts, List.length_cons] at hfuel
      rw [heq]
      apply (ih (by rw [hs']; omega)).mono
      rintro ⟨cmd', s''⟩ ⟨n, happ, hreads⟩
      refine ⟨n + 1, ?_, fun t ht => hreads _ (.back ht)⟩
      rw [hts, ← hs', happ]
      rfl
    | false =>
      rw [parsebacks_stop hnul fuel cmd hmore]
      exact ⟨0, (toks_skip buf s).symm, fun t ht => ht⟩

/-! The recursive functions. -/

def Accepts (buf : List Char) (x : Symbol) (s : Nat) (r : Cmd × Nat) : Prop :=
  ∃ ts t, toks buf s = ts ++ toks buf r.2 ∧ Derives x ts t ∧ Reads buf r.1 t

/-- What holds of the calls that have this much fuel. -/
structure SoundAt (buf : List Char) (fuel : Nat) : Prop where
  line : ∀ s, 4 * (toks buf s).length + 4 ≤ fuel →
    Outcome SyntaxError (parseline buf fuel s) (Accepts buf .line s)
  pipe : ∀ s, 4 * (toks buf s).length + 3 ≤ fuel →
    Outcome SyntaxError (parsepipe buf fuel s) (Accepts buf .pipe s)
  exec : ∀ s, 4 * (toks buf s).length + 2 ≤ fuel →
    Outcome SyntaxError (parseexec buf fuel s) (Accepts buf .exec s)
  block : ∀ s ts, toks buf s = .sym '(' :: ts → 4 * (toks buf s).length + 1 ≤ fuel →
    Outcome SyntaxError (parseblock buf fuel s) (Accepts buf .exec s)

variable {fuel s : Nat} (ih : SoundAt buf fuel)

include ih

theorem parseblock_sound {ts : List Token} (hts : toks buf s = .sym '(' :: ts)
    (hfuel : 4 * (toks buf s).length + 1 ≤ fuel + 1)
    : Outcome SyntaxError (parseblock buf (fuel + 1) s) (Accepts buf .exec s) := by
  rcases parseblock_open hnul fuel hts with ⟨s₁, hs₁, heq⟩
  rw [hts, List.length_cons] at hfuel
  rw [heq]
  apply (ih.line s₁ (by rw [hs₁]; omega)).bind
  rintro ⟨cmd, s₂⟩ ⟨us, t, happ, hderives, hreads⟩
  dsimp only
  have hlen := congrArg List.length happ
  rw [hs₁, List.length_append] at hlen
  split
  . next hclose =>
    rcases (starts_one (by decide) _).mp hclose with ⟨vs, hvs⟩
    rcases gettoken_cons hnul ((toks_skip buf s₂).trans hvs) with ⟨_, hrest, _⟩
    dsimp only at happ hlen
    rw [hvs, List.length_cons] at hlen
    apply (parseredirs_sound hnul (by rw [hrest]; omega)).mono
    rintro ⟨cmd', s₃⟩ ⟨rts, rs, happ', hrs, hwrap⟩
    refine ⟨_, _, ?_, .block hderives hrs, hwrap t hreads⟩
    rw [hts, ← hs₁, happ, hvs, ← hrest, happ']
    simp
  . exact refuse (by decide)

theorem parseexec_sound (hfuel : 4 * (toks buf s).length + 2 ≤ fuel + 1)
    : Outcome SyntaxError (parseexec buf (fuel + 1) s) (Accepts buf .exec s) := by
  cases hblock : starts ['('] (toks buf s) with
  | true =>
    rcases (starts_one (by decide) _).mp hblock with ⟨ts, hts⟩
    have hskip := toks_skip buf s
    rw [parseexec_block hnul fuel hts]
    apply (ih.block _ ts (hskip.trans hts) (by rw [hskip]; omega)).mono
    rintro r ⟨us, t, happ, h⟩
    exact ⟨us, t, hskip.symm.trans happ, h⟩
  | false =>
    rw [parseexec_simple hnul fuel hblock]
    apply (parseredirs_sound hnul (by rw [toks_skip]; omega)).bind
    rintro ⟨cmd, s₁⟩ ⟨ts, rs, happ, hrs, hreads⟩
    rw [toks_skip] at happ
    have hlen := congrArg List.length happ
    rw [List.length_append] at hlen
    have hempty : Reads buf (.exec []) (.exec []) := .exec .nil
    apply (parseargs_sound hnul (by dsimp only at hlen ⊢; omega) (by decide)
      (hreads _ hempty)).mono
    rintro ⟨cmd', s₂⟩ ⟨us, ws, qs, happ', hargs, hlt, hr⟩
    refine ⟨_, _, ?_, .simple hrs hargs (Nat.le_sub_one_of_lt hlt), hr⟩
    rw [happ, happ', List.append_assoc]

theorem parsepipe_sound (hfuel : 4 * (toks buf s).length + 3 ≤ fuel + 1)
    : Outcome SyntaxError (parsepipe buf (fuel + 1) s) (Accepts buf .pipe s) := by
  rw [parsepipe_eq hnul]
  apply (ih.exec s (by omega)).bind
  rintro ⟨cmd, s₁⟩ ⟨ts, t, happ, hderives, hreads⟩
  have hlen := congrArg List.length happ
  rw [List.length_append] at hlen
  dsimp only at happ hlen ⊢
  split
  . next hbar =>
    rcases (starts_one (by decide) _).mp hbar with ⟨us, hus⟩
    rcases gettoken_cons hnul ((toks_skip buf s₁).trans hus) with ⟨_, hrest, _⟩
    rw [hus, List.length_cons] at hlen
    apply (ih.pipe _ (by rw [hrest]; omega)).map
    rintro ⟨right, s₂⟩ ⟨vs, u, happ', hderives', hreads'⟩
    refine ⟨_, _, ?_, .pipe hderives hderives', .pipe hreads hreads'⟩
    rw [happ, hus, ← hrest, happ']
    simp
  . exact ⟨ts, t, by rw [toks_skip, happ], .single hderives, hreads⟩

theorem parseline_sound (hfuel : 4 * (toks buf s).length + 4 ≤ fuel + 1)
    : Outcome SyntaxError (parseline buf (fuel + 1) s) (Accepts buf .line s) := by
  rw [parseline_eq hnul]
  apply (ih.pipe s (by omega)).bind
  rintro ⟨cmd, s₁⟩ ⟨ts, t, happ, hderives, hreads⟩
  have hlen := congrArg List.length happ
  rw [List.length_append] at hlen
  dsimp only at happ hlen ⊢
  apply (parsebacks_sound hnul (by omega)).bind
  rintro ⟨cmd', s₂⟩ ⟨n, happ', hback⟩
  have hlen' := congrArg List.length happ'
  rw [List.length_append] at hlen'
  dsimp only at happ' hlen' ⊢
  split
  . next hsemi =>
    rcases (starts_one (by decide) _).mp hsemi with ⟨us, hus⟩
    rcases gettoken_cons hnul ((toks_skip buf s₂).trans hus) with ⟨_, hrest, _⟩
    rw [hus, List.length_cons] at hlen'
    apply (ih.line _ (by rw [hrest]; omega)).map
    rintro ⟨right, s₃⟩ ⟨vs, u, happ₂, hderives', hreads'⟩
    refine ⟨_, _, ?_, .seq n hderives hderives', .list (hback t hreads) hreads'⟩
    rw [happ, happ', hus, ← hrest, happ₂]
    simp
  . refine ⟨_, _, ?_, .last n hderives, hback t hreads⟩
    rw [toks_skip, happ, happ', List.append_assoc]

end

theorem soundAt {buf : List Char} (hnul : NUL ∉ buf) (fuel : Nat)
    : SoundAt buf fuel := by
  induction fuel with
  | zero => exact ⟨fun s h => by omega, fun s h => by omega, fun s h => by omega,
      fun s ts _ h => by omega⟩
  | succ fuel ih =>
    exact ⟨fun s => parseline_sound hnul ih, fun s => parsepipe_sound hnul ih,
      fun s => parseexec_sound hnul ih, fun s ts => parseblock_sound hnul ih⟩

end Sh
end Xv6
