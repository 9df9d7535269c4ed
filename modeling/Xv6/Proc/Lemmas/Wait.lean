import Xv6.Proc.Impl.Wait
import Xv6.Proc.Lemmas.Life

namespace Xv6

def ProcState.Alive (x : ProcState) : Prop :=
  x ≠ .unused ∧ x ≠ .embryo ∧ x ≠ .zombie

instance (x : ProcState) : Decidable x.Alive :=
  inferInstanceAs (Decidable (_ ∧ _))

namespace Family

-- Nobody is born, dies or changes parents: states change among the living.
structure Moves (F G : Family) : Prop where
  parent : ∀ r, (G r).parent = (F r).parent
  pid : ∀ r, (G r).pid = (F r).pid
  status : ∀ r, (G r).status = (F r).status
  state : ∀ r, (G r).state = (F r).state ∨ (F r).state.Alive ∧ (G r).state.Alive

structure Stirs (F G : Family) : Prop extends Moves F G where
  asleep : ∀ r, (G r).state = .sleeping → (F r).state = .sleeping ∧ (G r).chan = (F r).chan

variable {F G : Family} {p : ProcId} {f : Life → Life}

theorem Moves.alive (h : Moves F G) {r : ProcId} (hr : (F r).state.Alive) : (G r).state.Alive := by
  cases h.state r with
  | inl heq => rw [heq]; exact hr
  | inr hboth => exact hboth.2

theorem Moves.eq_of_not_alive (h : Moves F G) {r : ProcId} (hr : ¬ (F r).state.Alive)
    : (G r).state = (F r).state := by
  cases h.state r with
  | inl heq => exact heq
  | inr hboth => exact absurd hboth.1 hr

theorem Moves.zombie (h : Moves F G) (r : ProcId)
    : (G r).state = .zombie ↔ (F r).state = .zombie := by
  cases h.state r with
  | inl heq => rw [heq]
  | inr hboth => simp [hboth.1.2.2, hboth.2.2.2]

theorem Moves.modify (h : (F p).state.Alive) (h' : (f (F p)).state.Alive)
    (hf : ∀ x, (f x).parent = x.parent ∧ (f x).pid = x.pid ∧ (f x).status = x.status)
    : Moves F (F.modify p f) := by
  have hcases : ∀ r, F.modify p f r = F r ∨ r = p ∧ F.modify p f r = f (F p) := by
    intro r
    by_cases hr : r = p
    . subst hr
      simp
    . simp [hr]
  constructor <;> intro r <;> rcases hcases r with heq | ⟨rfl, heq⟩ <;> rw [heq]
  . exact (hf _).1
  . exact (hf _).2.1
  . exact (hf _).2.2
  . exact .inl rfl
  . exact .inr ⟨h, h'⟩

theorem Stirs.modify (h : (F p).state.Alive) (h' : (f (F p)).state.Alive)
    (hsleep : (f (F p)).state ≠ .sleeping)
    (hf : ∀ x, (f x).parent = x.parent ∧ (f x).pid = x.pid ∧ (f x).status = x.status)
    : Stirs F (F.modify p f) where
  toMoves := .modify h h' hf
  asleep := by
    intro r hr
    by_cases hrp : r = p
    . subst hrp
      rw [modify_self] at hr
      exact absurd hr hsleep
    . rw [modify_of_ne _ _ _ _ hrp] at hr ⊢
      exact ⟨hr, rfl⟩

theorem Stirs.refl (F : Family) : Stirs F F where
  parent := by intros; rfl
  pid := by intros; rfl
  status := by intros; rfl
  state := by intro r; exact .inl rfl
  asleep := by intro r hr; exact ⟨hr, rfl⟩

theorem Stirs.wake (F : Family) (chan : Chan) : Stirs F (F.wake chan) where
  parent := by simp
  pid := by simp
  status := by simp
  state := by
    intro r
    rw [wake_state]
    split
    next h =>
      right
      rw [h.1]
      decide
    . exact .inl rfl
  asleep := by
    intro r hr
    rw [wake_state] at hr
    split at hr
    . contradiction
    . exact ⟨hr, wake_chan F r chan⟩

theorem Stirs.kill (F : Family) (pid : BitVec 32) : Stirs F (F.kill pid) := by
  unfold Family.kill
  split
  . exact .refl F
  next p _ =>
    have hcases : ∀ r, F.modify p (fun x =>
        { x with killed := true, state := if x.state = .sleeping then .runnable else x.state }) r =
          F r ∨
        F.modify p (fun x =>
        { x with killed := true, state := if x.state = .sleeping then .runnable else x.state }) r =
          { F r with
            killed := true
            state := if (F r).state = .sleeping then .runnable else (F r).state } := by
      intro r
      by_cases hr : r = p
      . subst hr
        simp
      . simp [hr]
    constructor
    . constructor <;> intro r <;> rcases hcases r with heq | heq <;> rw [heq]
      . exact .inl rfl
      . dsimp only
        split
        next h =>
          right
          rw [h]
          decide
        . exact .inl rfl
    . intro r hr
      rcases hcases r with heq | heq <;> rw [heq] at hr ⊢
      . exact ⟨hr, rfl⟩
      . dsimp only at hr ⊢
        split at hr
        . contradiction
        . exact ⟨hr, rfl⟩

theorem kill_chan (F : Family) (pid : BitVec 32) (r : ProcId) : (F.kill pid r).chan = (F r).chan := by
  unfold Family.kill
  cases F.findPid pid with
  | none => rfl
  | some p =>
    simp only [modify_apply]
    split
    next h => rw [h]
    . rfl

/--
The process tree: every process that exists has a living parent, `init` is the root, and nobody
sleeps in `wait` who has something to report.
-/
structure Tree (F : Family) (i : ProcId) (pc : ProcId → WaitPc) : Prop where
  init_alive : (F i).state.Alive
  init_parent : (F i).parent = none
  parent : ∀ p, p ≠ i → (F p).state ≠ .unused → (F p).state ≠ .embryo →
    ∃ q, (F p).parent = some q ∧ (F q).state.Alive
  irrefl : ∀ p, (F p).parent ≠ some p
  busy : ∀ p, pc p ≠ .outside → (F p).state.Alive
  embryo : ∀ p np, (pc p).child = some np → (F np).state = .embryo
  forked : ∀ p np, pc p = .forked np → (F np).parent = some p
  owner : ∀ p q np, (pc p).child = some np → (pc q).child = some np → p = q
  asleep : ∀ p, pc p = .waiting → (F p).state = .sleeping →
    (F p).chan = .proc p ∧ ∀ q, (F q).parent = some p → (F q).state ≠ .zombie

namespace Tree

variable {i : ProcId} {pc : ProcId → WaitPc}

theorem of_moves (h : F.Tree i pc) (hm : Moves F G)
    (hasleep : ∀ p, pc p = .waiting → (G p).state = .sleeping →
      (G p).chan = .proc p ∧ ∀ q, (F q).parent = some p → (F q).state ≠ .zombie)
    : G.Tree i pc where
  init_alive := hm.alive h.init_alive
  init_parent := by rw [hm.parent, h.init_parent]
  parent := by
    intro p hp hunused hembryo
    have hstate : (F p).state ≠ .unused ∧ (F p).state ≠ .embryo := by
      cases hm.state p with
      | inl heq => rw [← heq]; exact ⟨hunused, hembryo⟩
      | inr hboth => exact ⟨hboth.1.1, hboth.1.2.1⟩
    rcases h.parent p hp hstate.1 hstate.2 with ⟨q, hq, halive⟩
    exact ⟨q, by rw [hm.parent, hq], hm.alive halive⟩
  irrefl := by
    intro p
    rw [hm.parent]
    exact h.irrefl p
  busy := by
    intro p hp
    exact hm.alive (h.busy p hp)
  embryo := by
    intro p np hnp
    have hembryo := h.embryo p np hnp
    rw [hm.eq_of_not_alive, hembryo]
    rw [hembryo]
    decide
  forked := by
    intro p np hnp
    rw [hm.parent]
    exact h.forked p np hnp
  owner := h.owner
  asleep := by
    intro p hp hsleep
    rcases hasleep p hp hsleep with ⟨hchan, hnone⟩
    refine ⟨hchan, ?_⟩
    intro q hq hz
    rw [hm.parent] at hq
    exact hnone q hq ((hm.zombie q).mp hz)

theorem stirs (h : F.Tree i pc) (hm : Stirs F G) : G.Tree i pc := by
  apply h.of_moves hm.toMoves
  intro p hp hsleep
  rcases hm.asleep p hsleep with ⟨hsleep', hchan⟩
  rw [hchan]
  exact h.asleep p hp hsleep'

theorem child_setPc {pc : ProcId → WaitPc} {p r np : ProcId} {new : WaitPc}
    (h : (Function.update pc p new r).child = some np)
    : r = p ∧ new.child = some np ∨ r ≠ p ∧ (pc r).child = some np := by
  by_cases hr : r = p
  . subst hr
    rw [Function.update_self] at h
    exact .inl ⟨rfl, h⟩
  . rw [Function.update_of_ne hr] at h
    exact .inr ⟨hr, h⟩

theorem goto (h : F.Tree i pc) {new : WaitPc} (halive : (F p).state.Alive)
    (hembryo : ∀ np, new.child = some np → (F np).state = .embryo)
    (howner : ∀ np r, new.child = some np → (pc r).child = some np → r = p)
    (hforked : ∀ np, new = .forked np → (F np).parent = some p)
    (hasleep : new = .waiting → (F p).state = .sleeping →
      (F p).chan = .proc p ∧ ∀ q, (F q).parent = some p → (F q).state ≠ .zombie)
    : F.Tree i (Function.update pc p new) where
  init_alive := h.init_alive
  init_parent := h.init_parent
  parent := h.parent
  irrefl := h.irrefl
  busy := by
    intro r hr
    by_cases hrp : r = p
    . subst hrp
      exact halive
    . rw [Function.update_of_ne hrp] at hr
      exact h.busy r hr
  embryo := by
    intro r np hnp
    rcases child_setPc hnp with ⟨_, hchild⟩ | ⟨_, hchild⟩
    . exact hembryo np hchild
    . exact h.embryo r np hchild
  forked := by
    intro r np hnp
    by_cases hrp : r = p
    . subst hrp
      rw [Function.update_self] at hnp
      exact hforked np hnp
    . rw [Function.update_of_ne hrp] at hnp
      exact h.forked r np hnp
  owner := by
    intro r q np hr hq
    rcases child_setPc hr with ⟨hrp, hrc⟩ | ⟨hrp, hrc⟩ <;>
      rcases child_setPc hq with ⟨hqp, hqc⟩ | ⟨hqp, hqc⟩
    . rw [hrp, hqp]
    . exact absurd (howner np q hrc hqc) hqp
    . exact absurd (howner np r hqc hrc) hrp
    . exact h.owner r q np hrc hqc
  asleep := by
    intro r hr
    by_cases hrp : r = p
    . subst hrp
      rw [Function.update_self] at hr
      exact hasleep hr
    . rw [Function.update_of_ne hrp] at hr
      exact h.asleep r hr

theorem setPc (h : F.Tree i pc) (p : ProcId) {new : WaitPc} (hchild : new.child = none)
    (halive : (F p).state.Alive)
    (hasleep : new = .waiting → (F p).state = .sleeping →
      (F p).chan = .proc p ∧ ∀ q, (F q).parent = some p → (F q).state ≠ .zombie)
    : F.Tree i (Function.update pc p new) := by
  refine h.goto halive ?_ ?_ ?_ hasleep
  . intro np hnp
    rw [hchild] at hnp
    contradiction
  . intro np r hnp
    rw [hchild] at hnp
    contradiction
  . intro np hnp
    rw [hnp] at hchild
    contradiction

theorem setPc_child (h : F.Tree i pc) {np : ProcId} {new : WaitPc} (hnew : new.child = some np)
    (halive : (F p).state.Alive) (hembryo : (F np).state = .embryo)
    (hforked : new = .forked np → (F np).parent = some p)
    (howner : ∀ r, (pc r).child = some np → r = p)
    : F.Tree i (Function.update pc p new) := by
  have hone : ∀ nr, new.child = some nr → nr = np := by
    intro nr hnr
    rw [hnew] at hnr
    exact (Option.some.inj hnr).symm
  refine h.goto halive ?_ ?_ ?_ ?_
  . intro nr hnr
    rw [hone nr hnr]
    exact hembryo
  . intro nr r hnr hr
    rw [hone nr hnr] at hr
    exact howner r hr
  . intro nr hnr
    have hnp := hone nr (by rw [hnr]; rfl)
    subst hnp
    exact hforked hnr
  . intro hw
    rw [hw] at hnew
    contradiction

theorem modify (h : F.Tree i pc) (hp : ¬ (F p).state.Alive) (hp' : (f (F p)).state ≠ .zombie)
    (hsleep : (f (F p)).state ≠ .sleeping) (hirrefl : (f (F p)).parent ≠ some p)
    (hparent : (f (F p)).state ≠ .unused → (f (F p)).state ≠ .embryo →
      ∃ q, (f (F p)).parent = some q ∧ (F q).state.Alive)
    (hembryo : ∀ r, (pc r).child = some p → (f (F p)).state = .embryo)
    (hforked : ∀ r, pc r = .forked p → (f (F p)).parent = some r)
    : (F.modify p f).Tree i pc := by
  have hne : ∀ r, (F r).state.Alive → r ≠ p := by
    intro r hr heq
    exact hp (heq ▸ hr)
  have hi := hne i h.init_alive
  have halive : ∀ r, (F r).state.Alive → (F.modify p f r).state.Alive := by
    intro r hr
    rwa [modify_of_ne _ _ _ _ (hne r hr)]
  exact {
    init_alive := halive i h.init_alive
    init_parent := by rw [modify_of_ne _ _ _ _ hi, h.init_parent]
    parent := by
      intro r hr hunused hemb
      have hex : ∃ q, (F.modify p f r).parent = some q ∧ (F q).state.Alive := by
        by_cases hrp : r = p
        . subst hrp
          rw [modify_self] at hunused hemb ⊢
          exact hparent hunused hemb
        . rw [modify_of_ne _ _ _ _ hrp] at hunused hemb ⊢
          exact h.parent r hr hunused hemb
      rcases hex with ⟨q, hq, hqalive⟩
      exact ⟨q, hq, halive q hqalive⟩
    irrefl := by
      intro r
      by_cases hrp : r = p
      . subst hrp
        rwa [modify_self]
      . rw [modify_of_ne _ _ _ _ hrp]
        exact h.irrefl r
    busy := by
      intro r hr
      exact halive r (h.busy r hr)
    embryo := by
      intro r np hnp
      by_cases hnpp : np = p
      . subst hnpp
        rw [modify_self]
        exact hembryo r hnp
      . rw [modify_of_ne _ _ _ _ hnpp]
        exact h.embryo r np hnp
    forked := by
      intro r np hnp
      by_cases hnpp : np = p
      . subst hnpp
        rw [modify_self]
        exact hforked r hnp
      . rw [modify_of_ne _ _ _ _ hnpp]
        exact h.forked r np hnp
    owner := h.owner
    asleep := by
      intro r hr hrsleep
      have hrp : r ≠ p := by
        intro heq
        subst heq
        rw [modify_self] at hrsleep
        exact hsleep hrsleep
      rw [modify_of_ne _ _ _ _ hrp] at hrsleep ⊢
      rcases h.asleep r hr hrsleep with ⟨hchan, hnone⟩
      refine ⟨hchan, ?_⟩
      intro q hq hz
      by_cases hqp : q = p
      . subst hqp
        rw [modify_self] at hz
        exact hp' hz
      . rw [modify_of_ne _ _ _ _ hqp] at hq hz
        exact hnone q hq hz }

theorem modify_free (h : F.Tree i pc) (hp : ¬ (F p).state.Alive) (hfree : ∀ r, (pc r).child ≠ some p)
    (hp' : (f (F p)).state ≠ .zombie) (hsleep : (f (F p)).state ≠ .sleeping)
    (hirrefl : (f (F p)).parent ≠ some p)
    (hparent : (f (F p)).state ≠ .unused → (f (F p)).state ≠ .embryo →
      ∃ q, (f (F p)).parent = some q ∧ (F q).state.Alive)
    : (F.modify p f).Tree i pc := by
  refine h.modify hp hp' hsleep hirrefl hparent ?_ ?_
  . intro r hr
    exact absurd hr (hfree r)
  . intro r hr
    exact absurd (by rw [hr]; rfl) (hfree r)

theorem disown (h : F.Tree i pc) {np : ProcId} (hchild : (pc p).child = some np)
    (halive : (F p).state.Alive)
    : F.Tree i (Function.update pc p .outside) ∧
        ∀ r, (Function.update pc p .outside r).child ≠ some np := by
  refine ⟨h.setPc p rfl halive (by simp), ?_⟩
  intro r hr
  rcases child_setPc hr with ⟨_, hr⟩ | ⟨hrp, hr⟩
  . contradiction
  . exact hrp (h.owner r p np hr hchild)

end Tree

section Exit

variable {i : ProcId} {pc : ProcId → WaitPc} {r : ProcId} {status : BitVec 32}

theorem exit_self (F : Family) (init : Option ProcId) (p : ProcId) (status : BitVec 32)
    : (F.exit init p status p).state = .zombie ∧ (F.exit init p status p).pid = (F p).pid ∧
        (F.exit init p status p).status = status := by
  simp [exit]

theorem exit_parent (F : Family) (init : Option ProcId) (p : ProcId) (status : BitVec 32) (r : ProcId)
    : (F.exit init p status r).parent =
        if (F r).parent = some p then init else (F r).parent := by
  by_cases hr : r = p
  . subst hr
    simp [exit, pass_parent]
  . simp [exit, pass_parent, hr]

theorem exit_of_ne (F : Family) (init : Option ProcId) (status : BitVec 32) (h : r ≠ p)
    : (F.exit init p status r).pid = (F r).pid ∧ (F.exit init p status r).chan = (F r).chan ∧
        (F.exit init p status r).status = (F r).status := by
  simp [exit, h]

theorem exit_zombie (F : Family) (init : Option ProcId) (status : BitVec 32) (h : r ≠ p)
    : (F.exit init p status r).state = .zombie ↔ (F r).state = .zombie := by
  simp [exit, h]

theorem exit_state (F : Family) (init : Option ProcId) (status : BitVec 32) (h : r ≠ p)
    : (F.exit init p status r).state = (F r).state ∨
        (F r).state = .sleeping ∧ (F.exit init p status r).state = .runnable := by
  simp only [exit, modify_of_ne _ _ _ _ h, pass_state, wake_state]
  split
  next hw => exact .inr ⟨hw.1, by simp⟩
  . split
    next hw => exact .inr ⟨hw.2.1, rfl⟩
    . exact .inl rfl

theorem exit_asleep {F : Family} {init : Option ProcId} (h : r ≠ p)
    (hsleep : (F.exit init p status r).state = .sleeping)
    : (F r).chan ≠ Chan.ofProc (F p).parent ∧
        ((∃ q, q ≠ p ∧ (F q).parent = some p ∧ (F q).state = .zombie) →
          (F r).chan ≠ Chan.ofProc init) := by
  have hstate : (F r).state = .sleeping := by
    cases exit_state F init status h with
    | inl heq => rw [← heq, hsleep]
    | inr hrun => rw [hrun.2] at hsleep; contradiction
  simp only [exit, modify_of_ne _ _ _ _ h, pass_state, wake_state, wake_chan, modify_self,
    hstate, true_and] at hsleep
  split at hsleep
  . simp at hsleep
  next hwake =>
    split at hsleep
    . contradiction
    next hpass =>
      refine ⟨hwake, ?_⟩
      rintro ⟨q, hqp, hpar, hz⟩ hchan
      apply hpass
      refine ⟨⟨q, List.mem_finRange q, ?_, ?_⟩, rfl, hchan⟩
      . rw [wake_parent, modify_of_ne _ _ _ _ hqp, hpar]
      . rw [wake_zombie, modify_of_ne _ _ _ _ hqp, hz]

theorem Tree.exit (h : F.Tree i pc) (hp : (F p).state.Alive) (hpi : p ≠ i) (hpc : pc p = .outside)
    : (F.exit (some i) p status).Tree i pc := by
  have hne : ∀ r, (pc r) ≠ .outside → r ≠ p := by
    intro r hr heq
    exact hr (heq ▸ hpc)
  have halive : ∀ r, r ≠ p → (F r).state.Alive → (F.exit (some i) p status r).state.Alive := by
    intro r hr hra
    cases exit_state F (some i) status hr with
    | inl heq => rwa [heq]
    | inr hrun =>
      rw [hrun.2]
      decide
  have hpc_of_child : ∀ r np, (pc r).child = some np → pc r ≠ .outside := by
    intro r np hnp heq
    rw [heq] at hnp
    contradiction
  have hnp : ∀ r np, (pc r).child = some np → np ≠ p := by
    intro r np hnp heq
    subst heq
    rw [h.embryo r np hnp] at hp
    exact absurd hp (by decide)
  exact {
    init_alive := halive i (Ne.symm hpi) h.init_alive
    init_parent := by
      rw [exit_parent, h.init_parent]
      rfl
    parent := by
      intro r hri hunused hembryo
      rw [exit_parent]
      split
      . exact ⟨i, rfl, halive i (Ne.symm hpi) h.init_alive⟩
      next hpar =>
        have hstate : (F r).state ≠ .unused ∧ (F r).state ≠ .embryo := by
          by_cases hrp : r = p
          . subst hrp
            exact ⟨hp.1, hp.2.1⟩
          . cases exit_state F (some i) status hrp with
            | inl heq => rw [← heq]; exact ⟨hunused, hembryo⟩
            | inr hrun =>
              rw [hrun.1]
              decide
        rcases h.parent r hri hstate.1 hstate.2 with ⟨q, hq, hqalive⟩
        refine ⟨q, hq, halive q ?_ hqalive⟩
        intro heq
        subst heq
        exact hpar hq
    irrefl := by
      intro r
      rw [exit_parent]
      split
      next hpar =>
        intro heq
        cases heq
        rw [h.init_parent] at hpar
        contradiction
      . exact h.irrefl r
    busy := by
      intro r hr
      exact halive r (hne r hr) (h.busy r hr)
    embryo := by
      intro r np hchild
      have hembryo := h.embryo r np hchild
      cases exit_state F (some i) status (hnp r np hchild) with
      | inl heq => rw [heq, hembryo]
      | inr hrun =>
        rw [hrun.1] at hembryo
        contradiction
    forked := by
      intro r np hforked
      have hpar := h.forked r np hforked
      rw [exit_parent, if_neg]
      . exact hpar
      . rw [hpar]
        intro heq
        cases heq
        rw [hpc] at hforked
        contradiction
    owner := h.owner
    asleep := by
      intro r hr hsleep
      have hrp : r ≠ p := by
        apply hne
        rw [hr]
        simp
      have hstate : (F r).state = .sleeping := by
        cases exit_state F (some i) status hrp with
        | inl heq => rw [← heq, hsleep]
        | inr hrun => rw [hrun.2] at hsleep; contradiction
      rcases h.asleep r hr hstate with ⟨hchan, hnone⟩
      rcases exit_asleep hrp hsleep with ⟨hparent, hinherit⟩
      rw [(exit_of_ne F (some i) status hrp).2.1]
      refine ⟨hchan, ?_⟩
      intro q hq hz
      rw [hchan] at hparent hinherit
      rw [exit_parent] at hq
      by_cases hqp : q = p
      . -- the exiting process itself: its parent has been woken
        subst hqp
        rw [if_neg (h.irrefl q)] at hq
        rw [hq] at hparent
        exact hparent rfl
      . rw [exit_zombie F (some i) status hqp] at hz
        split at hq
        next hpar =>
          -- a zombie that init has inherited
          cases hq
          exact hinherit ⟨q, hqp, hpar, hz⟩ rfl
        . exact hnone q hq hz }

end Exit

/--
Every exit so far has either been reported, by one call of `wait`, or is that of one zombie.
-/
structure Accounts (F : Family) (exits : List (BitVec 32 × BitVec 32)) (exitNo : ProcId → Nat)
    (reports : List Report) : Prop where
  zombie : ∀ q, (F q).state = .zombie → exits[exitNo q]? = some ((F q).pid, (F q).status)
  distinct : ∀ q r, (F q).state = .zombie → (F r).state = .zombie → exitNo q = exitNo r → q = r
  report : ∀ r ∈ reports, exits[r.exitNo]? = some (r.pid, r.status)
  pending : ∀ q, (F q).state = .zombie → ∀ r ∈ reports, r.exitNo ≠ exitNo q
  once : (reports.map Report.exitNo).Nodup
  complete : ∀ k, k < exits.length →
    (∃ r ∈ reports, r.exitNo = k) ∨ ∃ q, (F q).state = .zombie ∧ exitNo q = k

namespace Accounts

variable {exits : List (BitVec 32 × BitVec 32)} {exitNo : ProcId → Nat} {reports : List Report}

theorem of_zombies (h : F.Accounts exits exitNo reports)
    (hz : ∀ q, (G q).state = .zombie ↔ (F q).state = .zombie)
    (hsame : ∀ q, (F q).state = .zombie → (G q).pid = (F q).pid ∧ (G q).status = (F q).status)
    : G.Accounts exits exitNo reports where
  zombie := by
    intro q hq
    rw [hz] at hq
    rw [(hsame q hq).1, (hsame q hq).2]
    exact h.zombie q hq
  distinct := by
    intro q r hq hr
    exact h.distinct q r ((hz q).mp hq) ((hz r).mp hr)
  report := h.report
  pending := by
    intro q hq
    exact h.pending q ((hz q).mp hq)
  once := h.once
  complete := by
    simp only [hz]
    exact h.complete

theorem of_moves (h : F.Accounts exits exitNo reports) (hm : Moves F G)
    : G.Accounts exits exitNo reports := by
  apply h.of_zombies hm.zombie
  intro q _
  exact ⟨hm.pid q, hm.status q⟩

theorem modify (h : F.Accounts exits exitNo reports) (hp : (F p).state ≠ .zombie)
    (hp' : (f (F p)).state ≠ .zombie)
    : (F.modify p f).Accounts exits exitNo reports := by
  apply h.of_zombies
  . intro q
    by_cases hq : q = p
    . subst hq
      simp [hp, hp']
    . simp [hq]
  . intro q hz
    have hq : q ≠ p := by
      intro heq
      exact hp (heq ▸ hz)
    simp [hq]

theorem exitNo_lt (h : F.Accounts exits exitNo reports) {q : ProcId} (hq : (F q).state = .zombie)
    : exitNo q < exits.length := by
  have hget := h.zombie q hq
  rw [List.getElem?_eq_some_iff] at hget
  exact hget.1

theorem report_lt (h : F.Accounts exits exitNo reports) {r : Report} (hr : r ∈ reports)
    : r.exitNo < exits.length := by
  have hget := h.report r hr
  rw [List.getElem?_eq_some_iff] at hget
  exact hget.1

theorem exit (h : F.Accounts exits exitNo reports) (hp : (F p).state ≠ .zombie)
    (init : Option ProcId) (status : BitVec 32)
    : (F.exit init p status).Accounts (exits ++ [((F p).pid, status)])
        (Function.update exitNo p exits.length) reports := by
  have hold : ∀ (k : Nat) x, exits[k]? = some x → (exits ++ [((F p).pid, status)])[k]? = some x := by
    intro k x hk
    rw [List.getElem?_append_left, hk]
    rw [List.getElem?_eq_some_iff] at hk
    exact hk.1
  have hzombie : ∀ q, q ≠ p → (F.exit init p status q).state = .zombie → (F q).state = .zombie := by
    intro q hq hz
    rwa [exit_zombie F init status hq] at hz
  constructor
  . intro q hq
    by_cases hqp : q = p
    . subst hqp
      have hself := exit_self F init q status
      rw [Function.update_self, hself.2.1, hself.2.2]
      simp
    . have hne := exit_of_ne F init status hqp
      rw [Function.update_of_ne hqp, hne.1, hne.2.2]
      apply hold
      exact h.zombie q (hzombie q hqp hq)
  . intro q r hq hr heq
    by_cases hqp : q = p <;> by_cases hrp : r = p
    . rw [hqp, hrp]
    . subst hqp
      rw [Function.update_self, Function.update_of_ne hrp] at heq
      have := h.exitNo_lt (hzombie r hrp hr)
      omega
    . subst hrp
      rw [Function.update_self, Function.update_of_ne hqp] at heq
      have := h.exitNo_lt (hzombie q hqp hq)
      omega
    . rw [Function.update_of_ne hqp, Function.update_of_ne hrp] at heq
      exact h.distinct q r (hzombie q hqp hq) (hzombie r hrp hr) heq
  . intro r hr
    exact hold _ _ (h.report r hr)
  . intro q hq r hr
    by_cases hqp : q = p
    . subst hqp
      rw [Function.update_self]
      have := h.report_lt hr
      omega
    . rw [Function.update_of_ne hqp]
      exact h.pending q (hzombie q hqp hq) r hr
  . exact h.once
  . intro k hk
    rw [List.length_append, List.length_singleton] at hk
    by_cases hlast : k = exits.length
    . right
      refine ⟨p, (exit_self F init p status).1, ?_⟩
      rw [Function.update_self, hlast]
    . cases h.complete k (by omega) with
      | inl hr => exact .inl hr
      | inr hq =>
        rcases hq with ⟨q, hz, hno⟩
        have hqp : q ≠ p := by
          intro heq
          exact hp (heq ▸ hz)
        right
        refine ⟨q, ?_, ?_⟩
        . rwa [exit_zombie F init status hqp]
        . rwa [Function.update_of_ne hqp]

theorem reap (h : F.Accounts exits exitNo reports) {q : ProcId} (hq : (F q).state = .zombie)
    (hq' : (f (F q)).state ≠ .zombie) (parent : ProcId)
    : (F.modify q f).Accounts exits exitNo
        (reports ++ [⟨parent, (F q).pid, (F q).status, exitNo q⟩]) := by
  have hzombie : ∀ r, (F.modify q f r).state = .zombie → r ≠ q ∧ (F r).state = .zombie := by
    intro r hr
    by_cases hrq : r = q
    . subst hrq
      rw [modify_self] at hr
      exact absurd hr hq'
    . rw [modify_of_ne _ _ _ _ hrq] at hr
      exact ⟨hrq, hr⟩
  constructor
  . intro r hr
    rcases hzombie r hr with ⟨hrq, hz⟩
    rw [modify_of_ne _ _ _ _ hrq]
    exact h.zombie r hz
  . intro r u hr hu
    exact h.distinct r u (hzombie r hr).2 (hzombie u hu).2
  . intro r hr
    rw [List.mem_append, List.mem_singleton] at hr
    cases hr with
    | inl hold => exact h.report r hold
    | inr hnew =>
      subst hnew
      exact h.zombie q hq
  . intro u hu r hr
    rcases hzombie u hu with ⟨huq, hz⟩
    rw [List.mem_append, List.mem_singleton] at hr
    cases hr with
    | inl hold => exact h.pending u hz r hold
    | inr hnew =>
      subst hnew
      intro heq
      exact huq (h.distinct u q hz hq heq.symm)
  . rw [List.map_append, List.nodup_append]
    refine ⟨h.once, by simp, ?_⟩
    intro k hk j hj heq
    subst heq
    simp only [List.map_cons, List.map_nil, List.mem_singleton] at hj
    rw [List.mem_map] at hk
    rcases hk with ⟨r, hr, hrk⟩
    exact h.pending q hq r hr (hrk.trans hj)
  . intro k hk
    cases h.complete k hk with
    | inl hr =>
      rcases hr with ⟨r, hr, hrk⟩
      exact .inl ⟨r, List.mem_append_left _ hr, hrk⟩
    | inr hz =>
      rcases hz with ⟨u, hz, hno⟩
      by_cases huq : u = q
      . subst huq
        left
        exact ⟨_, List.mem_append_right _ (List.mem_singleton.mpr rfl), hno⟩
      . right
        refine ⟨u, ?_, hno⟩
        rwa [modify_of_ne _ _ _ _ huq]

end Accounts

end Family

namespace Kernel

variable {ncpu : Nat} {s : Kernel ncpu} {c : Fin ncpu} {p q : ProcId}

theorem wait_reaps (h : WaitSys.zombieOf s p = some q)
    : s.wait c p = (.reaped (s.proc q).pid (s.proc q).status,
        s.modifyProc q fun x => { x with pid := 0, parent := none, killed := false, state := .unused }) := by
  unfold Kernel.wait
  unfold WaitSys.zombieOf at h
  simp only [h]

theorem zombieOf_some (h : WaitSys.zombieOf s p = some q)
    : (s.proc q).parent = some p ∧ (s.proc q).state = .zombie := by
  simpa [WaitSys.zombieOf] using List.find?_some h

theorem zombieOf_none (h : WaitSys.zombieOf s p = none) (hq : (s.proc q).parent = some p)
    : (s.proc q).state ≠ .zombie := by
  have hall := List.find?_eq_none.mp h q (List.mem_finRange q)
  simpa [hq] using hall

theorem wait_of_none (h : WaitSys.zombieOf s p = none)
    : s.wait c p = (.noChild, s) ∨ s.wait c p = (.sleeps, s.sleep c p (.proc p)) := by
  unfold Kernel.wait
  unfold WaitSys.zombieOf at h
  simp only [h]
  split
  . exact .inl rfl
  . exact .inr rfl

theorem wait_cases (s : Kernel ncpu) (c : Fin ncpu) (p : ProcId)
    : (∃ q, WaitSys.zombieOf s p = some q) ∨
        WaitSys.zombieOf s p = none ∧
          (s.wait c p = (.noChild, s) ∨ s.wait c p = (.sleeps, s.sleep c p (.proc p))) := by
  generalize ho : WaitSys.zombieOf s p = o
  cases o with
  | none => exact .inr ⟨rfl, wait_of_none ho⟩
  | some q => exact .inl ⟨q, rfl⟩

theorem sleep_life (s : Kernel ncpu) (c : Fin ncpu) (p : ProcId) (chan : Chan)
    : (s.sleep c p chan).life = s.life.modify p ({ · with chan := chan, state := .sleeping }) := by
  have hlife : (s.modifyProc p ({ · with chan := chan, state := .sleeping })).life =
      s.life.modify p ({ · with chan := chan, state := .sleeping }) := modifyProc_life rfl
  exact hlife

theorem Executes.alive (h : s.Executes c p) : (s.life p).state.Alive := by
  rw [life_state, h.2]
  decide

end Kernel

namespace WaitSys

variable {ncpu : Nat} {s t : WaitSys ncpu} {c : Fin ncpu} {p : ProcId}

structure Inv (s : WaitSys ncpu) : Prop where
  tree : ∃ i, s.kernel.initproc = some i ∧ s.kernel.life.Tree i s.pc
  accounts : s.kernel.life.Accounts s.exits s.exitNo s.reports

theorem Inv.stirs (h : s.Inv) {r : Except Fault (Kernel ncpu)} {F : Family}
    (hr : Kernel.Yields s.kernel r F) (hF : Family.Stirs s.kernel.life F)
    : (s.finish r).Inv := by
  cases r with
  | error f => exact ⟨h.tree, h.accounts⟩
  | ok k =>
    rcases h.tree with ⟨i, hi, htree⟩
    have hlife : k.life = F := hr.life k rfl
    constructor
    . refine ⟨i, ?_, ?_⟩
      . exact (hr.initproc k rfl).trans hi
      . show k.life.Tree i s.pc
        rw [hlife]
        exact htree.stirs hF
    . show k.life.Accounts s.exits s.exitNo s.reports
      rw [hlife]
      exact h.accounts.of_moves hF.toMoves

theorem Inv.of_life {i : ProcId} {F : Family} (hinit : t.kernel.initproc = some i)
    (hlife : t.kernel.life = F) (htree : F.Tree i t.pc)
    (haccounts : F.Accounts t.exits t.exitNo t.reports)
    : t.Inv := by
  subst hlife
  exact ⟨⟨i, hinit, htree⟩, haccounts⟩

theorem Inv.fork {np : ProcId} (h : s.Inv) (hc : s.kernel.Executes c p) (hnp : s.kernel.allocproc.1 = some np)
    : ((s.setKernel s.kernel.allocproc.2).setPc p (.forking np)).Inv := by
  rcases Kernel.allocproc_life hnp with ⟨hunused, hinit, hlife⟩
  rcases h.tree with ⟨i, hi, htree⟩
  have hfree : ∀ r, (s.pc r).child ≠ some np := by
    intro r hr
    have hembryo := htree.embryo r np hr
    rw [Kernel.life_state, hunused] at hembryo
    contradiction
  have hnot : ¬ (s.kernel.life np).state.Alive := by
    rw [Kernel.life_state, hunused]
    decide
  have htree' := htree.modify_free (f := ({ · with state := .embryo, pid := s.kernel.nextpid })) hnot
    hfree (by simp) (by simp) (htree.irrefl np) (by simp)
  have hne : p ≠ np := by
    intro heq
    subst heq
    rw [hc.2] at hunused
    contradiction
  refine .of_life (hinit.trans hi) hlife (htree'.setPc_child rfl ?_ ?_ ?_ ?_) ?_
  . rw [Family.modify_of_ne _ _ _ _ hne]
    exact hc.alive
  . simp
  . simp
  . intro r hr
    exact absurd hr (hfree r)
  . exact h.accounts.modify (by simp [hunused]) (by simp)

theorem Inv.forkFail {np : ProcId} (h : s.Inv) (hc : s.kernel.Executes c p)
    (hpc : s.pc p = .forking np)
    : ((s.setKernel (s.kernel.allocFail np)).setPc p .outside).Inv := by
  rcases h.tree with ⟨i, hi, htree⟩
  have hchild : (s.pc p).child = some np := by rw [hpc]; rfl
  have hembryo : (s.kernel.proc np).state = .embryo := htree.embryo p np hchild
  have hlife : (s.kernel.allocFail np).life = s.kernel.life.modify np ({ · with state := .unused }) :=
    Kernel.modifyProc_life rfl
  have hnot : ¬ (s.kernel.life np).state.Alive := by
    rw [Kernel.life_state, hembryo]
    decide
  -- the owner has let go of `np` before it is marked UNUSED
  rcases htree.disown hchild hc.alive with ⟨hout, hfree⟩
  refine .of_life hi hlife (hout.modify_free hnot hfree ?_ ?_ (htree.irrefl np) ?_) ?_
  . simp
  . simp
  . simp
  . exact h.accounts.modify (by simp [hembryo]) (by simp)

theorem Inv.forkCopy {np : ProcId} (h : s.Inv) (hc : s.kernel.Executes c p)
    (hpc : s.pc p = .forking np)
    : ((s.setKernel (s.kernel.forkCopy p np)).setPc p (.forked np)).Inv := by
  rcases h.tree with ⟨i, hi, htree⟩
  have hchild : (s.pc p).child = some np := by rw [hpc]; rfl
  have hembryo : (s.kernel.proc np).state = .embryo := htree.embryo p np hchild
  have hlife : (s.kernel.forkCopy p np).life =
      s.kernel.life.modify np ({ · with parent := some p }) :=
    Kernel.modifyProc_life rfl
  have hnot : ¬ (s.kernel.life np).state.Alive := by
    rw [Kernel.life_state, hembryo]
    decide
  have hne : p ≠ np := by
    intro heq
    subst heq
    exact hnot hc.alive
  have hcopied : (s.kernel.life.modify np ({ · with parent := some p })).Tree i s.pc := by
    apply htree.modify hnot
    . simp [hembryo]
    . simp [hembryo]
    . simpa using hne
    . simp [hembryo]
    . intros
      exact hembryo
    . intro r hr
      have hr' : r = p := htree.owner r p np (by rw [hr]; rfl) hchild
      rw [hr', hpc] at hr
      contradiction
  refine .of_life hi hlife (hcopied.setPc_child rfl ?_ ?_ ?_ ?_) ?_
  . rw [Family.modify_of_ne _ _ _ _ hne]
    exact hc.alive
  . simpa using hembryo
  . simp
  . intro r hr
    exact htree.owner r p np hr hchild
  . exact h.accounts.modify (by simp [hembryo]) (by simp [hembryo])

theorem Inv.forkDone {np : ProcId} (h : s.Inv) (hc : s.kernel.Executes c p)
    (hpc : s.pc p = .forked np)
    : ((s.setPc p .outside).finish (s.kernel.makeRunnable np)).Inv := by
  rcases h.tree with ⟨i, hi, htree⟩
  have hchild : (s.pc p).child = some np := by rw [hpc]; rfl
  have hembryo : (s.kernel.proc np).state = .embryo := htree.embryo p np hchild
  have hparent := htree.forked p np hpc
  have hrun := Kernel.makeRunnable_yields s.kernel np
  have hnot : ¬ (s.kernel.life np).state.Alive := by
    rw [Kernel.life_state, hembryo]
    decide
  rcases htree.disown hchild hc.alive with ⟨hout, hfree⟩
  generalize s.kernel.makeRunnable np = r at hrun
  cases r with
  | error f => exact ⟨⟨i, hi, hout⟩, h.accounts⟩
  | ok k =>
    refine .of_life ((hrun.initproc k rfl).trans hi) (hrun.life k rfl)
      (hout.modify_free hnot hfree ?_ ?_ (htree.irrefl np) ?_) ?_
    . simp
    . simp
    . intros
      exact ⟨p, hparent, hc.alive⟩
    . exact h.accounts.modify (by simp [hembryo]) (by simp)

theorem Inv.exit {status : BitVec 32} {k : Kernel ncpu} (h : s.Inv) (hc : s.kernel.Executes c p)
    (hpc : s.pc p = .outside) (hk : s.kernel.exit c p status = .ok k)
    : ((s.recordExit p status).setKernel k).Inv := by
  rcases h.tree with ⟨i, hi, htree⟩
  have hexit := Kernel.exit_yields s.kernel c p status
  have hpi : p ≠ i := by
    intro heq
    subst heq
    rw [Kernel.exit_init hi] at hk
    contradiction
  have hlife := hexit.life k hk
  rw [hi] at hlife
  exact .of_life ((hexit.initproc k hk).trans hi) hlife (htree.exit hc.alive hpi hpc)
    (h.accounts.exit hc.alive.2.2 _ _)

theorem Inv.reap {q : ProcId} (h : s.Inv) (hc : s.kernel.Executes c p)
    (hq : zombieOf s.kernel p = some q)
    : (((s.recordReport p q (s.kernel.proc q).pid (s.kernel.proc q).status).setKernel
        (s.kernel.wait c p).2).setPc p .outside).Inv := by
  rcases h.tree with ⟨i, hi, htree⟩
  have hz := (Kernel.zombieOf_some hq).2
  have hlife : (s.kernel.wait c p).2.life = s.kernel.life.modify q
      ({ · with pid := 0, parent := none, killed := false, state := .unused }) := by
    rw [Kernel.wait_reaps hq]
    dsimp only
    apply Kernel.modifyProc_life
    rfl
  have hnot : ¬ (s.kernel.life q).state.Alive := by
    rw [Kernel.life_state, hz]
    decide
  have hne : p ≠ q := by
    intro heq
    subst heq
    exact hnot hc.alive
  have hfree : ∀ r, (s.pc r).child ≠ some q := by
    intro r hr
    have hembryo := htree.embryo r q hr
    rw [Kernel.life_state, hz] at hembryo
    contradiction
  have hreaped : (s.kernel.life.modify q
      ({ · with pid := 0, parent := none, killed := false, state := .unused })).Tree i s.pc := by
    apply htree.modify_free hnot hfree
    . simp
    . simp
    . simp
    . simp
  refine .of_life ?_ hlife (hreaped.setPc p rfl ?_ ?_) ?_
  . show (s.kernel.wait c p).2.initproc = some i
    rw [Kernel.wait_reaps hq]
    exact hi
  . rw [Family.modify_of_ne _ _ _ _ hne]
    exact hc.alive
  . simp
  . apply h.accounts.reap hz
    simp

theorem Inv.sleep {chan : Chan} {new : WaitPc} (h : s.Inv) (hc : s.kernel.Executes c p)
    (hnew : new.child = none)
    (hwait : new = .waiting → chan = .proc p ∧ zombieOf s.kernel p = none)
    : ((s.setKernel (s.kernel.sleep c p chan)).setPc p new).Inv := by
  rcases h.tree with ⟨i, hi, htree⟩
  have hlife := Kernel.sleep_life s.kernel c p chan
  have hm : Family.Moves s.kernel.life
      (s.kernel.life.modify p ({ · with chan := chan, state := .sleeping })) := by
    apply Family.Moves.modify hc.alive
    . exact (by decide : ProcState.Alive .sleeping)
    . simp
  have hout : s.kernel.life.Tree i (Function.update s.pc p .outside) :=
    htree.setPc p rfl hc.alive (by simp)
  have hsleeps : (s.kernel.life.modify p ({ · with chan := chan, state := .sleeping })).Tree i
      (Function.update s.pc p .outside) := by
    apply hout.of_moves hm
    intro r hr hsleep
    have hrp : r ≠ p := by
      intro heq
      subst heq
      rw [Function.update_self] at hr
      contradiction
    rw [Family.modify_of_ne _ _ _ _ hrp] at hsleep ⊢
    exact hout.asleep r hr hsleep
  have hset := hsleeps.setPc p hnew (hm.alive hc.alive) ?_
  . rw [Function.update_idem] at hset
    exact .of_life hi hlife hset (h.accounts.of_moves hm)
  . intro hw _
    rcases hwait hw with ⟨hchan, hnone⟩
    refine ⟨by simp [hchan], ?_⟩
    intro q hq hz
    rw [hm.parent] at hq
    exact Kernel.zombieOf_none hnone hq ((hm.zombie q).mp hz)

theorem Step.inv {e : WaitEvent ncpu} (hstep : s.Step e t) (h : s.Inv) : t.Inv := by
  cases hstep with
  | forkFull => exact h
  | fork _ hc _ hnp => exact h.fork hc hnp
  | forkFail _ hc hpc => exact h.forkFail hc hpc
  | forkCopy _ hc hpc => exact h.forkCopy hc hpc
  | forkDone _ hc hpc => exact h.forkDone hc hpc
  | exit _ hc hpc hk => exact h.exit hc hpc hk
  | exitPanics => exact ⟨h.tree, h.accounts⟩
  | waitReaps _ hc _ hq hr =>
    have hreap := h.reap hc hq
    rw [Kernel.wait_reaps hq] at hr
    cases hr
    exact hreap
  | @waitFails c p _ hc _ hr =>
    rcases h.tree with ⟨i, hi, htree⟩
    have hout : s.kernel.life.Tree i (Function.update s.pc p .outside) :=
      htree.setPc p rfl hc.alive (by simp)
    have hkernel : (s.kernel.wait c p).2 = s.kernel := by
      rcases Kernel.wait_cases s.kernel c p with ⟨q, hq⟩ | ⟨_, hw | hw⟩
      . rw [Kernel.wait_reaps hq] at hr
        contradiction
      . rw [hw]
      . rw [hw] at hr
        contradiction
    rw [hkernel]
    exact ⟨⟨i, hi, hout⟩, h.accounts⟩
  | @waitSleeps c p _ hc _ hr =>
    rcases Kernel.wait_cases s.kernel c p with ⟨q, hq⟩ | ⟨hnone, hw | hw⟩
    . rw [Kernel.wait_reaps hq] at hr
      contradiction
    . rw [hw] at hr
      contradiction
    . rw [hw]
      apply h.sleep hc rfl
      intro _
      exact ⟨rfl, hnone⟩
  | @sleep c p chan _ hc hpc =>
    have hsleep : ((s.setKernel (s.kernel.sleep c p chan)).setPc p .outside).Inv :=
      h.sleep hc rfl (by simp)
    have hpc' : Function.update s.pc p .outside = s.pc := by
      rw [← hpc]
      exact Function.update_eq_self p s.pc
    unfold setPc setKernel at hsleep
    rw [hpc'] at hsleep
    exact hsleep
  | @sleepResume c p _ hc _ =>
    have hy : Kernel.Yields s.kernel (.ok (s.kernel.sleepResume p))
        (s.kernel.life.modify p ({ · with chan := .null })) :=
      .ok (Kernel.modifyProc_life rfl) rfl
    apply h.stirs hy
    apply Family.Stirs.modify hc.alive
    . exact hc.alive
    . simp [hc.2]
    . simp
  | @yield c p _ hc =>
    apply h.stirs (Kernel.yield_yields s.kernel c p)
    apply Family.Stirs.modify hc.alive
    . exact (by decide : ProcState.Alive .runnable)
    . simp
    . simp
  | @wakeup chan _ => exact h.stirs (Kernel.wakeup1_yields s.kernel chan) (.wake _ chan)
  | @kill pid _ => exact h.stirs (Kernel.kill_yields s.kernel pid) (.kill _ pid)
  | @schedule c _ _ =>
    rcases Kernel.scheduler_yields s.kernel c with hy | ⟨p, hp, hy⟩
    . exact h.stirs hy (.refl _)
    . apply h.stirs hy
      apply Family.Stirs.modify
      . rw [Kernel.life_state, hp]
        decide
      . exact (by decide : ProcState.Alive .running)
      . simp
      . simp

theorem finish_zombie {r : Except Fault (Kernel ncpu)} {F : Family} {q : ProcId}
    (hr : Kernel.Yields s.kernel r F) (hF : Family.Moves s.kernel.life F)
    (hz : (s.kernel.proc q).state = .zombie)
    : ((s.finish r).kernel.proc q).state = .zombie := by
  cases r with
  | error f => exact hz
  | ok k =>
    have hq := (hF.zombie q).mpr hz
    rw [← hr.life k rfl] at hq
    exact hq

-- Only the call of wait that reports a zombie makes it disappear.
theorem Step.zombie {e : WaitEvent ncpu} {q : ProcId} (hstep : s.Step e t) (h : s.Inv)
    (hz : (s.kernel.proc q).state = .zombie)
    : (t.kernel.proc q).state = .zombie ∨
        ∃ c p, e = .wait c ∧ s.kernel.Executes c p ∧ zombieOf s.kernel p = some q ∧
          t.reports =
            s.reports ++ [⟨p, (s.kernel.proc q).pid, (s.kernel.proc q).status, s.exitNo q⟩] := by
  have hne : ∀ p, (s.kernel.proc p).state ≠ .zombie → q ≠ p := by
    intro p hp heq
    exact hp (heq ▸ hz)
  have hrunning : ∀ c p, s.kernel.Executes c p → q ≠ p := by
    intro c p hc
    apply hne
    rw [hc.2]
    decide
  have hsleep : ∀ c p chan, s.kernel.Executes c p →
      ((s.kernel.sleep c p chan).proc q).state = .zombie := by
    intro c p chan hc
    unfold Kernel.sleep
    rw [Kernel.setCpu_proc, Kernel.modifyProc_proc_ne _ _ _ _ (hrunning c p hc), hz]
  have hchild : ∀ p np, (s.pc p).child = some np → q ≠ np := by
    intro p np hnp
    rcases h.tree with ⟨i, _, htree⟩
    have hembryo : (s.kernel.proc np).state = .embryo := htree.embryo p np hnp
    apply hne
    rw [hembryo]
    decide
  cases hstep with
  | forkFull => exact .inl hz
  | @fork c p np _ _ _ hnp =>
    rcases Kernel.allocproc_life hnp with ⟨hunused, _, hlife⟩
    left
    have hqp : q ≠ np := by
      apply hne
      rw [hunused]
      decide
    show (s.kernel.allocproc.2.life q).state = .zombie
    rw [hlife, Family.modify_of_ne _ _ _ _ hqp]
    exact hz
  | @forkFail c p np _ _ hpc =>
    left
    show ((s.kernel.allocFail np).proc q).state = .zombie
    unfold Kernel.allocFail
    rw [Kernel.modifyProc_proc_ne _ _ _ _ (hchild p np (by rw [hpc]; rfl)), hz]
  | @forkCopy c p np _ _ hpc =>
    left
    show ((s.kernel.forkCopy p np).proc q).state = .zombie
    unfold Kernel.forkCopy
    rw [Kernel.modifyProc_proc_ne _ _ _ _ (hchild p np (by rw [hpc]; rfl)), hz]
  | @forkDone c p np _ _ hpc =>
    left
    have hrun := Kernel.makeRunnable_yields s.kernel np
    generalize s.kernel.makeRunnable np = r at hrun
    cases r with
    | error f => exact hz
    | ok k =>
      show (k.life q).state = .zombie
      rw [hrun.life k rfl, Family.modify_of_ne _ _ _ _ (hchild p np (by rw [hpc]; rfl))]
      exact hz
  | @exit c p status k _ hc _ hk =>
    left
    show (k.life q).state = .zombie
    rw [(Kernel.exit_yields s.kernel c p status).life k hk]
    rw [Family.exit_zombie]
    . exact hz
    . exact hrunning c p hc
  | exitPanics => exact .inl hz
  | @waitReaps c p r pid status _ hc _ hr hw =>
    rw [Kernel.wait_reaps hr] at hw
    cases hw
    by_cases hqr : q = r
    . subst hqr
      exact .inr ⟨c, p, rfl, hc, hr, rfl⟩
    . left
      show ((s.kernel.wait c p).2.proc q).state = .zombie
      rw [Kernel.wait_reaps hr]
      dsimp only
      rw [Kernel.modifyProc_proc_ne _ _ _ _ hqr, hz]
  | @waitFails c p _ _ _ hw =>
    left
    show ((s.kernel.wait c p).2.proc q).state = .zombie
    rcases Kernel.wait_cases s.kernel c p with ⟨r, hr⟩ | ⟨_, hr | hr⟩
    . rw [Kernel.wait_reaps hr] at hw
      contradiction
    . rw [hr]
      exact hz
    . rw [hr] at hw
      contradiction
  | @waitSleeps c p _ hc _ hw =>
    left
    show ((s.kernel.wait c p).2.proc q).state = .zombie
    rcases Kernel.wait_cases s.kernel c p with ⟨r, hr⟩ | ⟨_, hr | hr⟩
    . rw [Kernel.wait_reaps hr] at hw
      contradiction
    . rw [hr] at hw
      contradiction
    . rw [hr]
      exact hsleep c p _ hc
  | @sleep c p chan _ hc _ => exact .inl (hsleep c p chan hc)
  | @sleepResume c p _ hc _ =>
    left
    show ((s.kernel.sleepResume p).proc q).state = .zombie
    unfold Kernel.sleepResume
    rw [Kernel.modifyProc_proc_ne _ _ _ _ (hrunning c p hc), hz]
  | @yield c p _ hc =>
    left
    apply finish_zombie (Kernel.yield_yields s.kernel c p) _ hz
    apply Family.Moves.modify hc.alive
    . exact (by decide : ProcState.Alive .runnable)
    . simp
  | @wakeup chan _ =>
    exact .inl (finish_zombie (Kernel.wakeup1_yields s.kernel chan) (Family.Stirs.wake _ chan).toMoves hz)
  | @kill pid _ =>
    exact .inl (finish_zombie (Kernel.kill_yields s.kernel pid) (Family.Stirs.kill _ pid).toMoves hz)
  | @schedule c _ _ =>
    left
    rcases Kernel.scheduler_yields s.kernel c with hy | ⟨p, hp, hy⟩
    . exact finish_zombie hy (Family.Stirs.refl _).toMoves hz
    . apply finish_zombie hy _ hz
      apply Family.Moves.modify
      . rw [Kernel.life_state, hp]
        decide
      . exact (by decide : ProcState.Alive .running)
      . simp

abbrev EventRun (s : WaitSys ncpu) (es : List (WaitEvent ncpu)) (t : WaitSys ncpu) : Prop :=
  Transition.Run Step (fun _ _ => True) s es t

theorem Start.inv (h : s.Start) : s.Inv := by
  rcases h.init with ⟨i, hi, halive, hunused⟩
  have hcases : ∀ p, p = i ∨ (s.kernel.life p).state = .unused := by
    intro p
    by_cases hp : p = i
    . exact .inl hp
    . exact .inr (hunused p hp)
  have hialive : (s.kernel.life i).state.Alive := by
    rw [Kernel.life_state]
    cases halive with
    | inl hr => rw [hr]; decide
    | inr hr => rw [hr]; decide
  have hzombie : ∀ p, (s.kernel.life p).state ≠ .zombie := by
    intro p
    cases hcases p with
    | inl hp => rw [hp]; exact hialive.2.2
    | inr hp => rw [hp]; decide
  constructor
  . refine ⟨i, hi, ?_⟩
    exact {
      init_alive := hialive
      init_parent := h.parent i
      parent := by
        intro p hp hne
        exact absurd (hunused p hp) hne
      irrefl := by
        intro p
        rw [Kernel.life_parent, h.parent]
        simp
      busy := by
        intro p hp
        exact absurd (h.pc p) hp
      embryo := by simp [h.pc, WaitPc.child]
      forked := by simp [h.pc]
      owner := by simp [h.pc, WaitPc.child]
      asleep := by simp [h.pc] }
  . constructor
    . intro q hq
      exact absurd hq (hzombie q)
    . intro q r hq
      exact absurd hq (hzombie q)
    . simp [h.reports]
    . simp [h.reports]
    . simp [h.reports]
    . simp [h.exits]

theorem exit_reported_once {es : List (WaitEvent ncpu)} (hstart : s.Start) (hrun : EventRun s es t)
    : (∀ p, t.kernel.initproc ≠ some p → (t.kernel.proc p).state ≠ .unused →
        (t.kernel.proc p).state ≠ .embryo →
          ∃ q, (t.kernel.proc p).parent = some q ∧ (t.kernel.proc q).state ≠ .unused ∧
            (t.kernel.proc q).state ≠ .zombie) ∧
      (∀ e u q, t.Step e u → (t.kernel.proc q).state = .zombie → (u.kernel.proc q).state ≠ .zombie →
        ∃ c p, e = .wait c ∧ t.kernel.Executes c p ∧ (t.kernel.proc q).parent = some p ∧
          (t.kernel.wait c p).1 = .reaped (t.kernel.proc q).pid (t.kernel.proc q).status ∧
            t.exits[t.exitNo q]? = some ((t.kernel.proc q).pid, (t.kernel.proc q).status) ∧
              u.reports = t.reports ++
                [⟨p, (t.kernel.proc q).pid, (t.kernel.proc q).status, t.exitNo q⟩]) ∧
      ((t.reports.map Report.exitNo).Nodup ∧
        (∀ r ∈ t.reports, t.exits[r.exitNo]? = some (r.pid, r.status)) ∧
          ∀ k, k < t.exits.length → (∃ r ∈ t.reports, r.exitNo = k) ∨
            ∃ q, (t.kernel.proc q).state = .zombie ∧ t.exitNo q = k) ∧
      (∀ p q, t.pc p = .waiting → (t.kernel.proc p).state = .sleeping →
        (t.kernel.proc q).parent = some p → (t.kernel.proc q).state ≠ .zombie) := by
  have hinv : t.Inv := by
    apply hrun.invariant _ hstart.inv
    intro u e v hu _ hstep
    exact hstep.inv hu
  rcases hinv.tree with ⟨i, hi, htree⟩
  refine ⟨?_, ?_, ?_, ?_⟩
  . intro p hp hunused hembryo
    have hpi : p ≠ i := by
      intro heq
      exact hp (heq ▸ hi)
    rcases htree.parent p hpi hunused hembryo with ⟨q, hq, halive⟩
    exact ⟨q, hq, halive.1, halive.2.2⟩
  . intro e u q hstep hz hgone
    cases hstep.zombie hinv hz with
    | inl hstays => exact absurd hstays hgone
    | inr hwait =>
      rcases hwait with ⟨c, p, he, hc, hq, hreports⟩
      refine ⟨c, p, he, hc, (Kernel.zombieOf_some hq).1, ?_, hinv.accounts.zombie q hz, hreports⟩
      rw [Kernel.wait_reaps hq]
  . exact ⟨hinv.accounts.once, hinv.accounts.report, hinv.accounts.complete⟩
  . intro p q hp hsleep hq
    exact (htree.asleep p hp hsleep).2 q hq

def forkWait : List (WaitEvent 1) :=
  [.fork 0, .forkCopy 0, .forkDone 0, .wait 0, .schedule 0, .exit 0 3, .schedule 0, .sleepResume 0,
    .wait 0]

def booted : WaitSys 1 where
  kernel := { (Kernel.boot : Kernel 1) with
    proc := Function.update (fun _ => default) 0
      { (default : Proc) with state := .running, pid := 1, prio := 5 }
    nextpid := 2
    initproc := some 0
    cpu := fun _ => some 0 }
  pc := fun _ => .outside
  fault := none
  exits := []
  exitNo := fun _ => 0
  reports := []

theorem booted_start : booted.Start where
  init := ⟨0, rfl, .inr rfl, by decide⟩
  parent := by decide
  pc := by intros; rfl
  fault := rfl
  exits := rfl
  reports := rfl

theorem exit_reported_once_forkWait
    : ∃ t, EventRun booted forkWait t ∧ t.reports = [⟨0, 2, 3, 0⟩] ∧
        (t.reports.map Report.exitNo).Nodup := by
  have hrun : EventRun booted forkWait _ :=
    .cons trivial (.fork (p := 0) rfl (by decide) rfl
      (by decide : booted.kernel.allocproc.1 = some 1)) <|
    .cons trivial (.forkCopy (p := 0) rfl (by decide) rfl) <|
    .cons trivial (.forkDone (p := 0) rfl (by decide) rfl) <|
    .cons trivial (.waitSleeps (p := 0) rfl (by decide) (.inl rfl) (by decide)) <|
    .cons trivial (.schedule rfl (by decide)) <|
    .cons trivial (.exit (p := 1) rfl (by decide) rfl rfl) <|
    .cons trivial (.schedule rfl (by decide)) <|
    .cons trivial (.sleepResume (p := 0) rfl (by decide) (.inr rfl)) <|
    .cons trivial (.waitReaps (p := 0) (q := 1) rfl (by decide) (.inr rfl)
      (by decide) rfl) (.nil _)
  refine ⟨_, hrun, rfl, ?_⟩
  exact (exit_reported_once booted_start hrun).2.2.1.1

end WaitSys
end Xv6
