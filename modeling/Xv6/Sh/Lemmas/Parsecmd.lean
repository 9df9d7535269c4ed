import Xv6.Sh.Lemmas.Complete

/-!
The whole parser: the pointers stay in the text, `nulterminate` turns the words into strings, and
`parsecmd` accepts exactly the texts of the grammar.
-/

namespace Xv6
namespace Sh

/-! Pointers into the text. -/

section

variable {buf : List Char}

theorem lt_of_deref_ne {s : Nat} (h : deref buf s ≠ NUL)
    : s < buf.length := by
  by_contra hge
  apply h
  rw [deref, List.getD_eq_getElem?_getD, List.getElem?_eq_none (Nat.le_of_not_lt hge)]
  rfl

theorem switchToken_le {s : Nat} (hs : s ≤ buf.length)
    : (switchToken buf s).2 ≤ buf.length := by
  rw [switchToken]
  split
  . exact hs
  . next hc =>
    have hlt := lt_of_deref_ne hc
    split
    . exact hlt
    . split
      . split
        . next hnext =>
          apply lt_of_deref_ne
          rw [hnext]
          decide
        . exact hlt
      . exact Scan.run_le hs

theorem gettoken_le {s : Nat} (hs : s ≤ buf.length)
    : (gettoken buf s).ps ≤ buf.length :=
  Scan.run_le (switchToken_le (Scan.run_le hs))

theorem peek_le {s : Nat} (cs : List Char) (hs : s ≤ buf.length)
    : (peek buf s cs).2 ≤ buf.length :=
  Scan.run_le hs

/-- If the computation returns, the position it returns is one of the text. -/
def Within (buf : List Char) (x : Except Fault (Cmd × Nat)) : Prop :=
  Outcome (fun _ => True) x fun r => r.2 ≤ buf.length

theorem parseredirs_within (fuel : Nat) (cmd : Cmd) {s : Nat} (hs : s ≤ buf.length)
    : Within buf (parseredirs buf fuel cmd s) := by
  induction fuel generalizing cmd s with
  | zero => trivial
  | succ fuel ih =>
    have hpeek := peek_le ['<', '>'] hs
    rw [parseredirs]
    generalize peek buf s ['<', '>'] = p at hpeek ⊢
    rcases p with ⟨more, s₁⟩
    have hps := gettoken_le (gettoken_le hpeek)
    dsimp only
    split
    . split
      . trivial
      . split
        . exact ih _ hps
        . split
          . exact ih _ hps
          . split
            . exact ih _ hps
            . exact ih _ hps
    . exact hpeek

theorem parseargs_within (fuel argc : Nat) (cmd : Cmd) {s : Nat} (hs : s ≤ buf.length)
    : Within buf (parseargs buf fuel argc cmd s) := by
  induction fuel generalizing argc cmd s with
  | zero => trivial
  | succ fuel ih =>
    have hpeek := peek_le ['|', ')', '&', ';'] hs
    rw [parseargs]
    generalize peek buf s ['|', ')', '&', ';'] = p at hpeek ⊢
    rcases p with ⟨stop, s₁⟩
    have hps := gettoken_le hpeek
    dsimp only
    split
    . split
      . exact hpeek
      . trivial
    . split
      . split
        . exact hps
        . trivial
      . split
        . trivial
        . split
          . trivial
          . split
            . trivial
            . apply (parseredirs_within fuel _ hps).bind
              intro r hr
              exact ih _ _ hr

theorem parsebacks_within (fuel : Nat) (cmd : Cmd) {s : Nat} (hs : s ≤ buf.length)
    : Within buf (parsebacks buf fuel cmd s) := by
  induction fuel generalizing cmd s with
  | zero => trivial
  | succ fuel ih =>
    have hpeek := peek_le ['&'] hs
    rw [parsebacks]
    generalize peek buf s ['&'] = p at hpeek ⊢
    rcases p with ⟨more, s₁⟩
    dsimp only
    split
    . exact ih _ (gettoken_le hpeek)
    . exact hpeek

structure WithinAt (buf : List Char) (fuel : Nat) : Prop where
  line : ∀ s, s ≤ buf.length → Within buf (parseline buf fuel s)
  pipe : ∀ s, s ≤ buf.length → Within buf (parsepipe buf fuel s)
  exec : ∀ s, s ≤ buf.length → Within buf (parseexec buf fuel s)
  block : ∀ s, s ≤ buf.length → Within buf (parseblock buf fuel s)

theorem withinAt (buf : List Char) (fuel : Nat)
    : WithinAt buf fuel := by
  induction fuel with
  | zero => exact ⟨fun _ _ => trivial, fun _ _ => trivial, fun _ _ => trivial, fun _ _ => trivial⟩
  | succ fuel ih =>
    refine ⟨?_, ?_, ?_, ?_⟩
    . intro s hs
      rw [parseline]
      apply (ih.pipe s hs).bind
      intro r hr
      apply (parsebacks_within fuel r.1 hr).bind
      intro r hr
      have hpeek := peek_le [';'] hr
      dsimp only
      split
      . exact (ih.line _ (gettoken_le hpeek)).bind fun r hr => hr
      . exact hpeek
    . intro s hs
      rw [parsepipe]
      apply (ih.exec s hs).bind
      intro r hr
      have hpeek := peek_le ['|'] hr
      dsimp only
      split
      . exact (ih.pipe _ (gettoken_le hpeek)).bind fun r hr => hr
      . exact hpeek
    . intro s hs
      have hpeek := peek_le ['('] hs
      rw [parseexec]
      generalize peek buf s ['('] = p at hpeek ⊢
      rcases p with ⟨block, s₁⟩
      dsimp only
      split
      . exact ih.block s₁ hpeek
      . exact (parseredirs_within fuel _ hpeek).bind fun r hr => parseargs_within fuel 0 r.1 hr
    . intro s hs
      have hpeek := peek_le ['('] hs
      rw [parseblock]
      generalize peek buf s ['('] = p at hpeek ⊢
      rcases p with ⟨isBlock, s₁⟩
      dsimp only
      cases isBlock with
      | false => trivial
      | true =>
        apply (ih.line _ (gettoken_le hpeek)).bind
        intro r hr
        have hpeek' := peek_le [')'] hr
        generalize peek buf r.2 [')'] = p at hpeek' ⊢
        rcases p with ⟨closed, s₂⟩
        cases closed with
        | false => trivial
        | true => exact parseredirs_within fuel r.1 (gettoken_le hpeek')

end

/-! `nulterminate` -/

/-- The positions that `nulterminate` writes to. -/
def Cmd.ends : Cmd → List Nat
  | .exec args => args.map Prod.snd
  | .redir cmd _ efile _ _ => cmd.ends ++ [efile]
  | .pipe left right => left.ends ++ right.ends
  | .list left right => left.ends ++ right.ends
  | .back cmd => cmd.ends

def setNul (m : List Char) (es : List Nat) : List Char := es.foldl (fun m e => m.set e NUL) m

theorem setNul_append (m : List Char) (es fs : List Nat)
    : setNul m (es ++ fs) = setNul (setNul m es) fs :=
  List.foldl_append

theorem nulterminate_eq (m : List Char) (cmd : Cmd)
    : nulterminate m cmd = setNul m cmd.ends := by
  induction cmd generalizing m with
  | exec args => rw [nulterminate, Cmd.ends, setNul, List.foldl_map]
  | redir cmd q eq mode fd ih =>
    rw [nulterminate, ih, Cmd.ends, setNul_append]
    rfl
  | pipe left right ih₁ ih₂ => rw [nulterminate, ih₁, ih₂, Cmd.ends, setNul_append]
  | list left right ih₁ ih₂ => rw [nulterminate, ih₁, ih₂, Cmd.ends, setNul_append]
  | back cmd ih => rw [nulterminate, ih, Cmd.ends]

theorem getElem?_setNul {m : List Char} (es : List Nat) {i : Nat} (hi : i < m.length)
    : (setNul m es)[i]? = if i ∈ es then some NUL else m[i]? := by
  induction es generalizing m with
  | nil => simp [setNul]
  | cons e es ih =>
    rw [setNul, List.foldl_cons, ← setNul, ih (by rw [List.length_set]; exact hi),
      List.getElem?_set]
    by_cases he : e = i
    . simp [he, hi]
    . simp [he, Ne.symm he]

theorem drop_of_getElem? {m : List Char} {q : Nat} {a : Char} (h : m[q]? = some a)
    : m.drop q = a :: m.drop (q + 1) := by
  rcases List.getElem?_eq_some_iff.mp h with ⟨hlt, heq⟩
  rw [List.drop_eq_getElem_cons hlt, heq]

theorem cstring_eq {m w : List Char} {q : Nat} (hchars : ∀ j, j < w.length → m[q + j]? = w[j]?)
    (hend : m[q + w.length]? = some NUL) (hnul : NUL ∉ w)
    : cstring m q = w := by
  induction w generalizing q with
  | nil =>
    have hq : m[q]? = some NUL := hend
    rw [cstring, drop_of_getElem? hq, List.takeWhile_cons_of_neg (by simp)]
  | cons a w ih =>
    rw [List.mem_cons, not_or] at hnul
    have htail : cstring m (q + 1) = w := by
      apply ih
      . intro j hj
        have := hchars (j + 1) (by simpa using hj)
        rw [List.getElem?_cons_succ] at this
        rw [← this]
        congr 1
        omega
      . rw [← hend, List.length_cons]
        congr 1
        omega
      . exact hnul.2
    have hq : m[q]? = some a := hchars 0 (by simp)
    rw [cstring, drop_of_getElem? hq, List.takeWhile_cons_of_pos, ← cstring]
    . exact congrArg (List.cons a) htail
    . simpa using Ne.symm hnul.1

namespace Span

variable {buf : List Char} {q eq : Nat} {w : List Char}

theorem getElem? (h : Span buf q eq w) {j : Nat} (hj : j < w.length)
    : buf[q + j]? = w[j]? := by
  rw [← List.getElem?_drop, h.text, List.getElem?_append_left hj]

theorem le (h : Span buf q eq w)
    : eq ≤ buf.length := by
  have hlen := congrArg List.length h.text
  rw [List.length_append, List.length_drop, List.length_drop] at hlen
  have hpos := List.length_pos_of_ne_nil h.nonempty
  have := h.length
  omega

theorem ne_end (h : Span buf q eq w) {q' eq' : Nat} {w' : List Char} (h' : Span buf q' eq' w')
    {j : Nat} (hj : j < w.length)
    : q + j ≠ eq' := by
  intro heq
  have hget := h.getElem? hj
  rw [heq, List.getElem?_eq_getElem hj] at hget
  exact h'.stop _ _ (drop_of_getElem? hget) (h.word _ (List.getElem_mem hj))

theorem cstring (hnul : NUL ∉ buf) (h : Span buf q eq w) {es : List Nat} (heq : eq ∈ es)
    (hes : ∀ e ∈ es, ∃ q' w', Span buf q' e w')
    : cstring (setNul (buf ++ [NUL]) es) q = w := by
  have hle := h.le
  have hlen := h.length
  apply cstring_eq
  . intro j hj
    have hlt : q + j < (buf ++ [NUL]).length := by
      rw [List.length_append]
      omega
    have hnot : q + j ∉ es := by
      intro hmem
      rcases hes _ hmem with ⟨q', w', h'⟩
      exact h.ne_end h' hj rfl
    rw [getElem?_setNul es hlt, if_neg hnot, List.getElem?_append_left (by omega), h.getElem? hj]
  . have hlt : q + w.length < (buf ++ [NUL]).length := by
      rw [List.length_append, List.length_singleton]
      omega
    rw [getElem?_setNul es hlt, if_pos (hlen ▸ heq)]
  . intro hmem
    apply hnul
    apply List.mem_of_mem_drop (i := q)
    rw [h.text]
    exact List.mem_append_left _ hmem

end Span

theorem Reads.ends {buf : List Char} {cmd : Cmd} {t : Tree} (h : Reads buf cmd t)
    : ∀ e ∈ cmd.ends, ∃ q w, Span buf q e w := by
  induction h with
  | @exec args ws hargs =>
    intro e he
    rcases List.mem_map.mp he with ⟨arg, harg, rfl⟩
    clear he
    induction hargs with
    | nil => cases harg
    | cons hspan _ ih =>
      rcases List.mem_cons.mp harg with rfl | harg
      . exact ⟨_, _, hspan⟩
      . exact ih harg
  | redir _ hspan ih =>
    intro e he
    rcases List.mem_append.mp he with he | he
    . exact ih e he
    . rcases List.mem_singleton.mp he with rfl
      exact ⟨_, _, hspan⟩
  | pipe _ _ ih₁ ih₂ =>
    intro e he
    rcases List.mem_append.mp he with he | he
    . exact ih₁ e he
    . exact ih₂ e he
  | list _ _ ih₁ ih₂ =>
    intro e he
    rcases List.mem_append.mp he with he | he
    . exact ih₁ e he
    . exact ih₂ e he
  | back _ ih => exact ih

theorem Reads.view {buf : List Char} {cmd : Cmd} {t : Tree} {m : List Char} {es : List Nat}
    (h : Reads buf cmd t) (hsub : ∀ e ∈ cmd.ends, e ∈ es)
    (hm : ∀ q eq w, Span buf q eq w → eq ∈ es → Sh.cstring m q = w)
    : cmd.view m = t := by
  induction h with
  | @exec args ws hargs =>
    rw [Cmd.view]
    congr 1
    induction hargs with
    | nil => rfl
    | @cons arg w args ws hspan _ ih =>
      rw [List.map_cons, hm _ _ _ hspan (hsub _ (by simp [Cmd.ends])), ih]
      intro e he
      exact hsub e (List.mem_cons_of_mem _ he)
  | redir _ hspan ih =>
    rw [Cmd.view, ih, hm _ _ _ hspan (hsub _ (by simp [Cmd.ends]))]
    intro e he
    exact hsub e (List.mem_append_left _ he)
  | pipe _ _ ih₁ ih₂ =>
    rw [Cmd.view, ih₁ fun e he => hsub e (List.mem_append_left _ he),
      ih₂ fun e he => hsub e (List.mem_append_right _ he)]
  | list _ _ ih₁ ih₂ =>
    rw [Cmd.view, ih₁ fun e he => hsub e (List.mem_append_left _ he),
      ih₂ fun e he => hsub e (List.mem_append_right _ he)]
  | back _ ih => rw [Cmd.view, ih hsub]

/-! The whole parser. -/

theorem run_eq_length_iff {buf : List Char} {s : Nat} (hs : s ≤ buf.length)
    : Scan.run isSpace buf s = buf.length ↔ toks buf s = [] := by
  have hle := Scan.run_le (p := isSpace) hs
  apply Iff.intro
  . intro heq
    rw [← toks_skip, toks, heq, List.drop_length, lex]
  . intro hnil
    rcases drop_skip buf s with hdrop | ⟨c, l, hdrop, hc⟩
    . have := List.drop_eq_nil_iff.mp hdrop
      omega
    . rw [← toks_skip, toks, hdrop] at hnil
      exact absurd hnil (lex_ne_nil hc)

section

variable {buf : List Char} {fuel : Nat} {cmd : Cmd} {s : Nat}

theorem parsecmd_of_end (h : parseline buf fuel 0 = .ok (cmd, s))
    (hend : Scan.run isSpace buf s = buf.length)
    : parsecmd fuel buf = .ok (cmd, nulterminate (buf ++ [NUL]) cmd) := by
  rw [parsecmd, h, Fold.ok_bind]
  exact if_neg (not_not_intro hend)

theorem parsecmd_of_leftovers (h : parseline buf fuel 0 = .ok (cmd, s))
    (hend : Scan.run isSpace buf s ≠ buf.length)
    : parsecmd fuel buf = .error (.panic "syntax") := by
  rw [parsecmd, h, Fold.ok_bind]
  exact if_pos hend

theorem parsecmd_of_error {e : Fault} (h : parseline buf fuel 0 = .error e)
    : parsecmd fuel buf = .error e := by
  rw [parsecmd, h]
  rfl

theorem view_nulterminate (hnul : NUL ∉ buf) {t : Tree} (h : Reads buf cmd t)
    : cmd.view (nulterminate (buf ++ [NUL]) cmd) = t := by
  rw [nulterminate_eq]
  apply h.view (fun e he => he)
  intro q eq w hspan heq
  exact hspan.cstring hnul heq h.ends

theorem parsecmd_sound (hnul : NUL ∉ buf) (hfuel : 4 * (lex buf).length + 4 ≤ fuel)
    : Outcome SyntaxError (parsecmd fuel buf) fun r =>
        Derives .line (lex buf) (r.1.view r.2) := by
  have hline := (soundAt hnul fuel).line 0 hfuel
  have hwithin := (withinAt buf fuel).line 0 (Nat.zero_le _)
  cases h : parseline buf fuel 0 with
  | error e =>
    rw [parsecmd_of_error h]
    rw [h] at hline
    exact hline
  | ok r =>
    rcases r with ⟨cmd, s⟩
    rw [h] at hline hwithin
    by_cases hend : Scan.run isSpace buf s = buf.length
    . rw [parsecmd_of_end h hend]
      rcases hline with ⟨ts, t, happ, hderives, hreads⟩
      rw [(run_eq_length_iff hwithin).mp hend, List.append_nil] at happ
      change Derives .line (lex buf) (cmd.view _)
      rw [view_nulterminate hnul hreads, show lex buf = ts from happ]
      exact hderives
    . rw [parsecmd_of_leftovers h hend]
      exact refuse (by decide)

theorem parsecmd_complete (hnul : NUL ∉ buf) (hfuel : 4 * (lex buf).length + 4 ≤ fuel) {t : Tree}
    (h : Derives .line (lex buf) t)
    : ∃ cmd m, parsecmd fuel buf = .ok (cmd, m) ∧ cmd.view m = t := by
  have hwithin := (withinAt buf fuel).line 0 (Nat.zero_le _)
  have hts : toks buf 0 = lex buf ++ [] := (List.append_nil _).symm
  rcases parse_complete hnul h [] fuel 0 hts (.inl rfl) hfuel with ⟨cmd, s, hr, hs, hreads⟩
  have hr : parseline buf fuel 0 = .ok (cmd, s) := hr
  rw [hr] at hwithin
  have hend := (run_eq_length_iff hwithin).mpr hs
  exact ⟨cmd, _, parsecmd_of_end hr hend, view_nulterminate hnul hreads⟩

theorem parsecmd_accepts_grammar (hnul : NUL ∉ buf) (hfuel : 4 * buf.length + 4 ≤ fuel)
    : (∀ t,
        (∃ cmd m, parsecmd fuel buf = .ok (cmd, m) ∧ cmd.view m = t) ↔ Derives .line (lex buf) t)
        ∧
      ((¬∃ t, Derives .line (lex buf) t) →
        ∃ msg ∈ syntaxErrors, parsecmd fuel buf = .error (.panic msg)) := by
  have hfuel : 4 * (lex buf).length + 4 ≤ fuel := by
    have := lex_length_le buf
    omega
  have hsound := parsecmd_sound hnul hfuel
  refine ⟨?_, ?_⟩
  . intro t
    apply Iff.intro
    . rintro ⟨cmd, m, hr, rfl⟩
      rw [hr] at hsound
      exact hsound
    . exact parsecmd_complete hnul hfuel
  . intro hnot
    cases hr : parsecmd fuel buf with
    | ok r =>
      rw [hr] at hsound
      exact absurd ⟨_, hsound⟩ hnot
    | error e =>
      rw [hr] at hsound
      rcases hsound with ⟨msg, hmem, rfl⟩
      exact ⟨msg, hmem, rfl⟩

end

/-- `ls >x & ;` -/
def sample : List Char := ['l', 's', ' ', '>', 'x', ' ', '&', ' ', ';']

theorem parsecmd_sample
    : (parsecmd 40 sample).toOption
        =
      some (.list (.back (.redir (.exec [(0, 2)]) 4 5 (O_WRONLY ||| O_CREATE) 1)) (.exec []),
        ['l', 's', NUL, '>', 'x', NUL, '&', ' ', ';', NUL]) := by
  decide +kernel

theorem parsecmd_accepts_grammar_sample
    : Derives .line (lex sample)
        (.list (.back (.redir (.exec [['l', 's']]) ['x'] (O_WRONLY ||| O_CREATE) 1))
          (.exec [])) := by
  have h := @parsecmd_accepts_grammar sample 40 (by decide) (by decide)
  have hr := parsecmd_sample
  generalize parsecmd 40 sample = r at h hr
  cases r with
  | error e => cases hr
  | ok r =>
    cases hr
    exact (h.1 _).mp ⟨_, _, rfl, by decide⟩

end Sh
end Xv6
