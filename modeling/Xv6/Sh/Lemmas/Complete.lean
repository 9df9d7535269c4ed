import Xv6.Sh.Lemmas.Sound

/-!
The parser accepts every list of tokens of the grammar and returns its tree: the next token always
decides between the alternatives, since what may follow a symbol of the grammar does not begin what
the symbol goes on with.
-/

namespace Xv6
namespace Sh

/-! What may follow. -/

theorem starts_iff {cs : List Char} {ts : List Token}
    : starts cs ts ↔ ∃ t us c, ts = t :: us ∧ t.lead = some c ∧ c ∈ cs := by
  cases ts with
  | nil => simp [starts]
  | cons t ts =>
    cases ht : t.lead with
    | none => simp [starts, ht]
    | some c => simp [starts, ht]

theorem starts_mono {cs ds : List Char} {ts : List Token} (h : starts cs ts)
    (hsub : cs.all ds.contains)
    : starts ds ts := by
  rcases starts_iff.mp h with ⟨t, us, c, hts, hlead, hc⟩
  have hd : c ∈ ds := by simpa using List.all_eq_true.mp hsub c hc
  exact starts_iff.mpr ⟨t, us, c, hts, hlead, hd⟩

theorem starts_disjoint {cs ds : List Char} {ts : List Token} (h : starts cs ts)
    (hdisj : cs.all fun c => !ds.contains c)
    : starts ds ts = false := by
  rcases starts_iff.mp h with ⟨t, us, c, rfl, hlead, hc⟩
  have hd : c ∉ ds := by simpa using List.all_eq_true.mp hdisj c hc
  simp [starts, hlead, hd]

def Symbol.follow : Symbol → List Char
  | .line => [')']
  | .pipe => ['&', ';', ')']
  | .exec => ['|', '&', ';', ')']

def Follows (x : Symbol) (rest : List Token) : Prop := rest = [] ∨ starts x.follow rest

theorem Follows.starts_eq_false {x : Symbol} {rest : List Token} {ds : List Char}
    (h : Follows x rest) (hdisj : x.follow.all fun c => !ds.contains c)
    : starts ds rest = false := by
  rcases h with rfl | h
  . rfl
  . exact starts_disjoint h hdisj

theorem Follows.mono {x y : Symbol} {rest : List Token} (h : Follows x rest)
    (hsub : x.follow.all y.follow.contains)
    : Follows y rest := by
  rcases h with rfl | h
  . exact .inl rfl
  . exact .inr (starts_mono h hsub)

theorem Args.starts_eq_false {us : List Token} {ws : List (List Char)} {qs : List Redir}
    {rest : List Token} {ds : List Char} (h : Args us ws qs) (hrest : starts ds rest = false)
    : starts ds (us ++ rest) = false := by
  cases h with
  | nil => exact hrest
  | cons _ _ => rfl

theorem Redirs.starts_paren {ts rest : List Token} {rs : List Redir} (h : Redirs ts rs)
    (hrest : starts ['('] rest = false)
    : starts ['('] (ts ++ rest) = false := by
  cases h with
  | nil => exact hrest
  | @cons t mode fd w ts rs ht _ =>
    have hredir : starts ['<', '>'] (t :: .word w :: (ts ++ rest)) := by
      rw [starts_redir, ht]
      rfl
    exact starts_disjoint hredir (by decide)

/-! The loops. -/

def Returns (buf : List Char) (x : Except Fault (Cmd × Nat)) (rest : List Token) (Q : Cmd → Prop)
    : Prop :=
  ∃ cmd s, x = .ok (cmd, s) ∧ toks buf s = rest ∧ Q cmd

section

variable {buf : List Char} (hnul : NUL ∉ buf)

include hnul

theorem parseredirs_complete {ts rest : List Token} {rs : List Redir} {fuel s : Nat} {cmd : Cmd}
    (h : Redirs ts rs) (hts : toks buf s = ts ++ rest) (hrest : starts ['<', '>'] rest = false)
    (hfuel : (toks buf s).length < fuel)
    : Returns buf (parseredirs buf fuel cmd s) rest fun cmd' =>
        ∀ t, Reads buf cmd t → Reads buf cmd' (wrap t rs) := by
  induction h generalizing fuel s cmd with
  | nil =>
    cases fuel with
    | zero => omega
    | succ fuel =>
      refine ⟨cmd, _, parseredirs_stop hnul fuel cmd ?_, ?_, fun t ht => ht⟩
      . rw [hts]
        exact hrest
      . rw [toks_skip, hts]
        rfl
  | @cons t mode fd w ts rs ht _ ih =>
    cases fuel with
    | zero => omega
    | succ fuel =>
      rw [List.cons_append, List.cons_append] at hts
      rcases parseredirs_word hnul fuel cmd hts ht with ⟨q, eq, s', heq, hspan, hs'⟩
      rw [hts, List.length_cons, List.length_cons, List.length_append] at hfuel
      have hfuel' : (toks buf s').length < fuel := by
        rw [hs', List.length_append]
        omega
      rcases ih hs' hfuel' with ⟨cmd', s'', hr, hrest', hreads⟩
      refine ⟨cmd', s'', heq.trans hr, hrest', ?_⟩
      intro u hu
      exact hreads _ (.redir hu hspan)

theorem parseargs_complete {ts rest : List Token} {vs ws : List (List Char)} {qs rs : List Redir}
    {fuel s : Nat} {cmd : Cmd} (h : Args ts vs qs) (hts : toks buf s = ts ++ rest)
    (hrest : Follows .exec rest) (hfuel : (toks buf s).length < fuel)
    (hlt : (ws ++ vs).length < MAXARGS) (hreads : Reads buf cmd (wrap (.exec ws) rs))
    : Returns buf (parseargs buf fuel ws.length cmd s) rest fun cmd' =>
        Reads buf cmd' (wrap (.exec (ws ++ vs)) (rs ++ qs)) := by
  induction h generalizing fuel s cmd ws rs with
  | nil =>
    cases fuel with
    | zero => omega
    | succ fuel =>
      rw [List.append_nil] at hlt ⊢
      rw [List.append_nil]
      rcases hrest with rfl | hrest
      . rcases parseargs_end hnul fuel cmd hts hlt with ⟨s', heq, hs'⟩
        exact ⟨cmd, s', heq, hs', hreads⟩
      . refine ⟨cmd, _, parseargs_stop hnul fuel cmd ?_ hlt, ?_, hreads⟩
        . rw [hts]
          exact starts_mono hrest (by decide)
        . rw [toks_skip, hts]
          rfl
  | @cons w ts us vs rs' qs hredirs hargs ih =>
    cases fuel with
    | zero => omega
    | succ fuel =>
      rw [List.length_append, List.length_cons] at hlt
      have hargc : ws.length + 1 < MAXARGS := by omega
      rw [List.append_assoc, List.cons_append] at hts
      rcases parseargs_word hnul fuel cmd hts hargc with ⟨q, eq, s', heq, hspan, hs'⟩
      rw [hts, List.length_cons] at hfuel
      have hfuel' : (toks buf s').length < fuel := by
        rw [hs']
        omega
      have hnext : starts ['<', '>'] (us ++ rest) = false :=
        hargs.starts_eq_false (hrest.starts_eq_false (by decide))
      rcases parseredirs_complete hnul hredirs hs' hnext hfuel' with ⟨cmd₁, s₁, hr₁, hs₁, hreads₁⟩
      have hcmd := hreads₁ _ (hreads.addArg hspan)
      rw [← wrap_append] at hcmd
      have hfuel₁ : (toks buf s₁).length < fuel := by
        rw [List.length_append] at hfuel
        rw [hs₁]
        omega
      have hlt' : (ws ++ [w] ++ vs).length < MAXARGS := by
        simp only [List.length_append, List.length_singleton]
        omega
      rcases ih hs₁ hfuel₁ hlt' hcmd with ⟨cmd₂, s₂, hr₂, hs₂, hreads₂⟩
      refine ⟨cmd₂, s₂, ?_, hs₂, ?_⟩
      . rw [heq, hr₁, Fold.ok_bind]
        rw [List.length_append] at hr₂
        exact hr₂
      . rw [List.append_assoc, List.append_assoc] at hreads₂
        exact hreads₂

theorem parsebacks_complete {rest : List Token} {n fuel s : Nat} {cmd : Cmd}
    (hts : toks buf s = List.replicate n (.sym '&') ++ rest) (hrest : starts ['&'] rest = false)
    (hfuel : (toks buf s).length < fuel)
    : Returns buf (parsebacks buf fuel cmd s) rest fun cmd' =>
        ∀ t, Reads buf cmd t → Reads buf cmd' (backs t n) := by
  induction n generalizing fuel s cmd with
  | zero =>
    cases fuel with
    | zero => omega
    | succ fuel =>
      refine ⟨cmd, _, parsebacks_stop hnul fuel cmd ?_, ?_, fun t ht => ht⟩
      . rw [hts]
        exact hrest
      . rw [toks_skip, hts]
        rfl
  | succ n ih =>
    cases fuel with
    | zero => omega
    | succ fuel =>
      rcases parsebacks_more hnul fuel cmd hts with ⟨s', heq, hs'⟩
      have hfuel' : (toks buf s').length < fuel := by
        rw [hts, List.replicate_succ, List.cons_append, List.length_cons] at hfuel
        rw [hs']
        exact Nat.lt_of_succ_lt_succ hfuel
      rcases ih hs' hfuel' with ⟨cmd', s'', hr, hs'', hreads⟩
      exact ⟨cmd', s'', heq.trans hr, hs'', fun t ht => hreads _ (.back ht)⟩

/-! The recursive functions. -/

theorem parseexec_complete_simple {ts us rest : List Token} {ws : List (List Char)}
    {rs qs : List Redir} {fuel s : Nat} (hredirs : Redirs ts rs) (hargs : Args us ws qs)
    (hws : ws.length ≤ MAXARGS - 1) (hts : toks buf s = ts ++ us ++ rest)
    (hrest : Follows .exec rest) (hfuel : (toks buf s).length + 2 ≤ fuel)
    : Returns buf (parseexec buf fuel s) rest fun cmd =>
        Reads buf cmd (wrap (.exec ws) (rs ++ qs)) := by
  cases fuel with
  | zero => omega
  | succ fuel =>
    rw [List.append_assoc] at hts
    have hparen : starts ['('] (toks buf s) = false := by
      rw [hts]
      exact hredirs.starts_paren (hargs.starts_eq_false (hrest.starts_eq_false (by decide)))
    have hnext : starts ['<', '>'] (us ++ rest) = false :=
      hargs.starts_eq_false (hrest.starts_eq_false (by decide))
    have hskip := toks_skip buf s
    have hfuel' : (toks buf (Scan.run isSpace buf s)).length < fuel := by
      rw [hskip]
      omega
    rcases parseredirs_complete hnul hredirs (hskip.trans hts) hnext hfuel' with
      ⟨cmd₁, s₁, hr₁, hs₁, hreads₁⟩
    have hfuel₁ : (toks buf s₁).length < fuel := by
      rw [hts, List.length_append] at hfuel
      rw [hs₁]
      omega
    have hempty : Reads buf (.exec []) (.exec []) := .exec .nil
    have hlt : ([] ++ ws).length < MAXARGS := Nat.lt_of_le_pred (by decide) hws
    rcases parseargs_complete hnul hargs hs₁ hrest hfuel₁ hlt (hreads₁ _ hempty) with
      ⟨cmd₂, s₂, hr₂, hs₂, hreads₂⟩
    refine ⟨cmd₂, s₂, ?_, hs₂, hreads₂⟩
    rw [parseexec_simple hnul fuel hparen, hr₁, Fold.ok_bind]
    exact hr₂

/-- The function for a symbol of the grammar, and the fuel it needs besides that for the tokens. -/
def Symbol.parse (buf : List Char) : Symbol → Nat → Nat → Except Fault (Cmd × Nat)
  | .line => parseline buf
  | .pipe => parsepipe buf
  | .exec => parseexec buf

def Symbol.slack : Symbol → Nat
  | .line => 4
  | .pipe => 3
  | .exec => 2

def Complete (buf : List Char) (x : Symbol) (ts : List Token) (t : Tree) : Prop :=
  ∀ rest fuel s, toks buf s = ts ++ rest → Follows x rest →
    4 * (toks buf s).length + x.slack ≤ fuel →
    Returns buf (x.parse buf fuel s) rest (Reads buf · t)

-- After the `&`s the line goes on with `;` or ends; both cases share the way to this point.
theorem parseline_backs {ts rest : List Token} {t : Tree} {n fuel s : Nat}
    (ih : Complete buf .pipe ts t) (hts : toks buf s = ts ++ (List.replicate n (.sym '&') ++ rest))
    (hrest : Follows .pipe rest) (hback : starts ['&'] rest = false)
    (hfuel : 4 * (toks buf s).length + 4 ≤ fuel + 1)
    : ∃ cmd s',
        parseline buf (fuel + 1) s
          =
        (if starts [';'] rest then
          (fun x => (.list cmd x.1, x.2)) <$>
            parseline buf fuel (gettoken buf (Scan.run isSpace buf s')).ps
        else
          .ok (cmd, Scan.run isSpace buf s'))
          ∧
        toks buf s' = rest ∧ Reads buf cmd (backs t n) := by
  have hfollow : Follows .pipe (List.replicate n (.sym '&') ++ rest) := by
    cases n with
    | zero => exact hrest
    | succ n => exact .inr rfl
  rcases ih _ fuel s hts hfollow (by rw [Symbol.slack]; omega) with ⟨cmd₁, s₁, hr₁, hs₁, hreads₁⟩
  have hfuel₁ : (toks buf s₁).length < fuel := by
    rw [hts, List.length_append] at hfuel
    rw [hs₁]
    omega
  rcases parsebacks_complete hnul hs₁ hback hfuel₁ with ⟨cmd₂, s₂, hr₂, hs₂, hreads₂⟩
  refine ⟨cmd₂, s₂, ?_, hs₂, hreads₂ t hreads₁⟩
  rw [parseline_eq hnul, show parsepipe buf fuel s = _ from hr₁, Fold.ok_bind, hr₂, Fold.ok_bind,
    hs₂]

theorem complete_last {ts : List Token} {t : Tree} (n : Nat) (ih : Complete buf .pipe ts t)
    : Complete buf .line (ts ++ List.replicate n (.sym '&')) (backs t n) := by
  intro rest fuel s hts hrest hfuel
  cases fuel with
  | zero => cases hfuel
  | succ fuel =>
    rw [List.append_assoc] at hts
    rcases parseline_backs hnul ih hts (hrest.mono (by decide)) (hrest.starts_eq_false (by decide))
      hfuel with ⟨cmd, s', heq, hs', hreads⟩
    refine ⟨cmd, _, ?_, (toks_skip buf s').trans hs', hreads⟩
    rw [Symbol.parse, heq, hrest.starts_eq_false (by decide)]
    rfl

theorem complete_seq {ts us : List Token} {t u : Tree} (n : Nat) (ih₁ : Complete buf .pipe ts t)
    (ih₂ : Complete buf .line us u)
    : Complete buf .line (ts ++ List.replicate n (.sym '&') ++ .sym ';' :: us)
        (.list (backs t n) u) := by
  intro rest fuel s hts hrest hfuel
  cases fuel with
  | zero => cases hfuel
  | succ fuel =>
    rw [List.append_assoc, List.append_assoc, List.cons_append] at hts
    rcases parseline_backs hnul ih₁ hts (.inr rfl) rfl hfuel with ⟨cmd, s', heq, hs', hreads⟩
    rcases gettoken_cons hnul ((toks_skip buf s').trans hs') with ⟨_, hrest', _⟩
    have hfuel' : 4 * (us ++ rest).length + 4 ≤ fuel := by
      rw [hts, List.length_append, List.length_append, List.length_cons] at hfuel
      rw [Symbol.slack] at hfuel
      omega
    rcases ih₂ rest fuel _ hrest' hrest (by rw [hrest']; exact hfuel') with
      ⟨cmd₂, s₂, hr₂, hs₂, hreads₂⟩
    refine ⟨.list cmd cmd₂, s₂, ?_, hs₂, .list hreads hreads₂⟩
    rw [Symbol.parse, heq, if_pos (starts_sym _ _), show parseline buf fuel _ = _ from hr₂]
    rfl

theorem complete_single {ts : List Token} {t : Tree} (ih : Complete buf .exec ts t)
    : Complete buf .pipe ts t := by
  intro rest fuel s hts hrest hfuel
  cases fuel with
  | zero => cases hfuel
  | succ fuel =>
    have hfuel' : 4 * (toks buf s).length + Symbol.slack .exec ≤ fuel := Nat.le_of_succ_le_succ hfuel
    rcases ih rest fuel s hts (hrest.mono (by decide)) hfuel' with ⟨cmd, s', hr, hs', hreads⟩
    refine ⟨cmd, _, ?_, (toks_skip buf s').trans hs', hreads⟩
    rw [Symbol.parse, parsepipe_eq hnul, show parseexec buf fuel s = _ from hr, Fold.ok_bind, hs',
      hrest.starts_eq_false (by decide)]
    rfl

theorem complete_pipe {ts us : List Token} {t u : Tree} (ih₁ : Complete buf .exec ts t)
    (ih₂ : Complete buf .pipe us u)
    : Complete buf .pipe (ts ++ .sym '|' :: us) (.pipe t u) := by
  intro rest fuel s hts hrest hfuel
  cases fuel with
  | zero => cases hfuel
  | succ fuel =>
    rw [List.append_assoc, List.cons_append] at hts
    have hfuel₁ : 4 * (toks buf s).length + Symbol.slack .exec ≤ fuel := Nat.le_of_succ_le_succ hfuel
    rcases ih₁ _ fuel s hts (.inr rfl) hfuel₁ with ⟨cmd, s', hr, hs', hreads⟩
    rcases gettoken_cons hnul ((toks_skip buf s').trans hs') with ⟨_, hrest', _⟩
    have hfuel' : 4 * (us ++ rest).length + 3 ≤ fuel := by
      rw [hts, List.length_append, List.length_cons] at hfuel
      rw [Symbol.slack] at hfuel
      omega
    rcases ih₂ rest fuel _ hrest' hrest (by rw [hrest']; exact hfuel') with
      ⟨cmd₂, s₂, hr₂, hs₂, hreads₂⟩
    refine ⟨.pipe cmd cmd₂, s₂, ?_, hs₂, .pipe hreads hreads₂⟩
    rw [Symbol.parse, parsepipe_eq hnul, show parseexec buf fuel s = _ from hr, Fold.ok_bind, hs',
      if_pos (starts_sym _ _), show parsepipe buf fuel _ = _ from hr₂]
    rfl

theorem complete_block {ts us : List Token} {t : Tree} {rs : List Redir}
    (ih : Complete buf .line ts t) (hredirs : Redirs us rs)
    : Complete buf .exec (.sym '(' :: ts ++ .sym ')' :: us) (wrap t rs) := by
  intro rest fuel s hts hrest hfuel
  rw [Symbol.slack] at hfuel
  rw [List.append_assoc, List.cons_append, List.cons_append] at hts
  rcases fuel with _ | _ | fuel
  . omega
  . omega
  . have hskip := (toks_skip buf s).trans hts
    rcases parseblock_open hnul fuel hskip with ⟨s₁, hs₁, heq⟩
    rw [hts, List.length_cons, List.length_append, List.length_cons, List.length_append] at hfuel
    have hfuel₁ : 4 * (toks buf s₁).length + Symbol.slack .line ≤ fuel := by
      rw [hs₁, List.length_append, List.length_cons, List.length_append, Symbol.slack]
      omega
    rcases ih _ fuel s₁ hs₁ (.inr rfl) hfuel₁ with ⟨cmd, s₂, hr₂, hs₂, hreads⟩
    rcases gettoken_cons hnul ((toks_skip buf s₂).trans hs₂) with ⟨_, hrest', _⟩
    have hfuel₂ : (toks buf (gettoken buf (Scan.run isSpace buf s₂)).ps).length < fuel := by
      rw [hrest', List.length_append]
      omega
    rcases parseredirs_complete hnul hredirs hrest' (hrest.starts_eq_false (by decide)) hfuel₂ with
      ⟨cmd₃, s₃, hr₃, hs₃, hreads₃⟩
    refine ⟨cmd₃, s₃, ?_, hs₃, hreads₃ t hreads⟩
    rw [Symbol.parse, parseexec_block hnul _ hts, heq, show parseline buf fuel s₁ = _ from hr₂,
      Fold.ok_bind, hs₂]
    exact hr₃

theorem parse_complete {x : Symbol} {ts : List Token} {t : Tree} (h : Derives x ts t)
    : Complete buf x ts t := by
  induction h with
  | last n h ih => exact complete_last hnul n ih
  | seq n h1 h2 ih1 ih2 => exact complete_seq hnul n ih1 ih2
  | single h ih => exact complete_single hnul ih
  | pipe h1 h2 ih1 ih2 => exact complete_pipe hnul ih1 ih2
  | block h hredirs ih => exact complete_block hnul ih hredirs
  | simple hredirs hargs hws =>
    intro rest fuel s hts hrest hfuel
    rw [Symbol.slack] at hfuel
    exact parseexec_complete_simple hnul hredirs hargs hws hts hrest (by omega)

end

end Sh
end Xv6
