import Mathlib.Algebra.BigOperators.Group.Finset.Basic
import Mathlib.Algebra.BigOperators.Group.Finset.Piecewise
import Mathlib.Algebra.Order.BigOperators.Group.Finset
import Mathlib.Data.Fintype.BigOperators
import Xv6.Dir.Impl.Dir

/-!
The tree of directories: what the entries of the linked directories say, and what link counts have to
be. The counts may be ahead of the entries by a given amount while a call is under way.
-/

namespace Xv6

def Dinode.Linked (x : Dinode) : Prop := x.type = some .dir ∧ 0 < x.nlink

instance (x : Dinode) : Decidable x.Linked := inferInstanceAs (Decidable (_ ∧ _))

def Dinode.live (x : Dinode) : List Dirent := if x.Linked then x.ents else []

abbrev Nodes := Inum → Dinode

def tally (N : Nodes) (P : Dirent → Bool) : Nat := ∑ D, (N D).live.countP P

def counted (i : Inum) (e : Dirent) : Bool := e.inum = i ∧ e.name ≠ "."

def isKid (i : Inum) (e : Dirent) : Bool := e.inum = i ∧ e.name ≠ "." ∧ e.name ≠ ".."

def isUp (i : Inum) (e : Dirent) : Bool := e.inum = i ∧ e.name = ".."

structure Tree (N : Nodes) (extra : Inum → Int) : Prop where
  zero : (N 0).type = none
  root : (N rootIno).Linked
  dots : ∀ D, (N D).Linked → ∃ u rest, u ≠ 0 ∧ (N D).ents = ⟨D, "."⟩ :: ⟨u, ".."⟩ :: rest ∧
    ∀ e ∈ rest, e.inum ≠ 0 → e.name ≠ "." ∧ e.name ≠ ".."
  alloc : ∀ D, (N D).Linked → ∀ e ∈ (N D).ents, e.inum ≠ 0 → (N e.inum).type ≠ none
  nlink : ∀ i, (N i).type ≠ none → (N i).nlink = tally N (counted i) + extra i
  -- a directory is in one directory, and the root in none
  once : ∀ S, (N S).Linked → tally N (isKid S) = if S = rootIno then 0 else 1
  parent : ∀ S u, (N S).Linked → u ≠ 0 → ⟨u, ".."⟩ ∈ (N S).ents →
    (S = rootIno ∧ u = rootIno) ∨ (N u).Linked ∧ ∃ e ∈ (N u).ents, isKid S e = true

variable {N : Nodes} {extra extra' : Inum → Int} {D S dp ip : Inum} {P : Dirent → Bool}

theorem live_of_linked {x : Dinode} (h : x.Linked) : x.live = x.ents := if_pos h

theorem live_of_not_linked {x : Dinode} (h : ¬ x.Linked) : x.live = [] := if_neg h

theorem mem_live {x : Dinode} {e : Dirent} : e ∈ x.live ↔ x.Linked ∧ e ∈ x.ents := by
  unfold Dinode.live
  split
  next h => simp [h]
  next h => simp [h]

theorem tally_update (N : Nodes) (D : Inum) (x : Dinode) (P : Dirent → Bool)
    : tally (Function.update N D x) P + (N D).live.countP P = tally N P + x.live.countP P := by
  unfold tally
  rw [← Finset.add_sum_erase Finset.univ _ (Finset.mem_univ D)]
  rw [← Finset.add_sum_erase Finset.univ (fun E => (N E).live.countP P) (Finset.mem_univ D)]
  have hrest : ∑ E ∈ Finset.univ.erase D, ((Function.update N D x) E).live.countP P =
      ∑ E ∈ Finset.univ.erase D, (N E).live.countP P := by
    apply Finset.sum_congr rfl
    intro E hE
    rw [Function.update_of_ne (Finset.ne_of_mem_erase hE)]
  rw [hrest, Function.update_self]
  omega

theorem countP_le_tally (N : Nodes) (D : Inum) (P : Dirent → Bool)
    : (N D).live.countP P ≤ tally N P :=
  Finset.single_le_sum (f := fun E => (N E).live.countP P) (fun _ _ => Nat.zero_le _)
    (Finset.mem_univ D)

theorem tally_pos {e : Dirent} (h : (N D).Linked) (he : e ∈ (N D).ents) (hP : P e = true)
    : 0 < tally N P := by
  have hle := countP_le_tally N D P
  have hpos : 0 < (N D).live.countP P := by
    rw [List.countP_pos_iff]
    exact ⟨e, mem_live.2 ⟨h, he⟩, hP⟩
  omega

theorem exists_of_tally_pos (h : 0 < tally N P) : ∃ D e, (N D).Linked ∧ e ∈ (N D).ents ∧ P e = true := by
  by_contra hnone
  have hzero : tally N P = 0 := by
    apply Finset.sum_eq_zero
    intro D _
    by_contra hD
    rcases List.countP_pos_iff.1 (Nat.pos_of_ne_zero hD) with ⟨e, he, hP⟩
    rw [mem_live] at he
    exact hnone ⟨D, e, he.1, he.2, hP⟩
  omega

theorem tally_eq_zero (h : ∀ D, (N D).Linked → ∀ e ∈ (N D).ents, P e = false) : tally N P = 0 := by
  by_contra hne
  rcases exists_of_tally_pos (Nat.pos_of_ne_zero hne) with ⟨D, e, hD, he, hP⟩
  rw [h D hD e he] at hP
  exact Bool.false_ne_true hP

theorem countP_counted (i : Inum) (l : List Dirent)
    : l.countP (counted i) = l.countP (isKid i) + l.countP (isUp i) := by
  induction l with
  | nil => rfl
  | cons e l ih =>
    rw [List.countP_cons, List.countP_cons, List.countP_cons, ih]
    by_cases hi : e.inum = i
    . by_cases hup : e.name = ".."
      . have h1 : counted i e = true := by simp [counted, hi, hup]
        have h2 : isKid i e = false := by simp [isKid, hup]
        have h3 : isUp i e = true := by simp [isUp, hi, hup]
        simp only [h1, h2, h3, if_true, if_false, Bool.false_eq_true]
        omega
      . have h1 : counted i e = isKid i e := by simp [counted, isKid, hup]
        have h3 : isUp i e = false := by simp [isUp, hup]
        simp only [h1, h3, if_false, Bool.false_eq_true]
        omega
    . have h1 : counted i e = false := by simp [counted, hi]
      have h2 : isKid i e = false := by simp [isKid, hi]
      have h3 : isUp i e = false := by simp [isUp, hi]
      simp only [h1, h2, h3, if_false, Bool.false_eq_true]
      omega

theorem tally_counted (N : Nodes) (i : Inum)
    : tally N (counted i) = tally N (isKid i) + tally N (isUp i) := by
  unfold tally
  rw [← Finset.sum_add_distrib]
  apply Finset.sum_congr rfl
  intro D _
  exact countP_counted i (N D).live

section

variable {e d : Dirent} {l : List Dirent}

theorem countP_insertEnt (h : ∀ d : Dirent, d.inum = 0 → P d = false)
    : (insertEnt e l).countP P = l.countP P + if P e then 1 else 0 := by
  induction l with
  | nil =>
    unfold insertEnt
    rw [List.countP_cons]
  | cons d l ih =>
    unfold insertEnt
    split
    next hd =>
      rw [List.countP_cons, List.countP_cons, h d hd]
      simp
    . rw [List.countP_cons, List.countP_cons, ih]
      omega

theorem mem_insertEnt (h : d ∈ insertEnt e l) : d = e ∨ d ∈ l := by
  induction l with
  | nil =>
    unfold insertEnt at h
    simpa using h
  | cons a l ih =>
    unfold insertEnt at h
    split at h
    . rw [List.mem_cons] at h ⊢
      rcases h with h | h
      . exact .inl h
      . exact .inr (.inr h)
    . rw [List.mem_cons] at h ⊢
      rcases h with h | h
      . exact .inr (.inl h)
      . rcases ih h with h | h
        . exact .inl h
        . exact .inr (.inr h)

theorem mem_insertEnt_self (e : Dirent) (l : List Dirent) : e ∈ insertEnt e l := by
  induction l with
  | nil => exact List.mem_cons_self
  | cons a l ih =>
    unfold insertEnt
    split
    . exact List.mem_cons_self
    . exact List.mem_cons_of_mem a ih

theorem mem_insertEnt_of_mem (e : Dirent) (h : d ∈ l) (hd : d.inum ≠ 0) : d ∈ insertEnt e l := by
  induction l with
  | nil => contradiction
  | cons a l ih =>
    unfold insertEnt
    rw [List.mem_cons] at h
    split
    next ha =>
      rcases h with h | h
      . rw [h] at hd
        exact absurd ha hd
      . exact List.mem_cons_of_mem e h
    . rcases h with h | h
      . rw [h]
        exact List.mem_cons_self
      . exact List.mem_cons_of_mem a (ih h)

theorem countP_set_null {k : Nat} (hk : l[k]? = some e) (hnull : P ⟨0, ""⟩ = false)
    : (l.set k ⟨0, ""⟩).countP P + (if P e then 1 else 0) = l.countP P := by
  induction l generalizing k with
  | nil => contradiction
  | cons a l ih =>
    cases k with
    | zero =>
      cases hk
      rw [List.set_cons_zero, List.countP_cons, List.countP_cons, hnull]
      simp
    | succ k =>
      rw [List.set_cons_succ, List.countP_cons, List.countP_cons]
      have := ih hk
      omega

theorem mem_set_of_ne {k : Nat} (hk : l[k]? = some e) (hd : d ∈ l) (hne : d ≠ e) (z : Dirent)
    : d ∈ l.set k z := by
  induction l generalizing k with
  | nil => contradiction
  | cons a l ih =>
    cases k with
    | zero =>
      cases hk
      rw [List.set_cons_zero]
      rcases List.mem_cons.1 hd with h | h
      . exact absurd h hne
      . exact List.mem_cons_of_mem z h
    | succ k =>
      rw [List.set_cons_succ]
      rcases List.mem_cons.1 hd with h | h
      . rw [h]
        exact List.mem_cons_self
      . exact List.mem_cons_of_mem a (ih hk h)

theorem findEnt_some {name : String} {k : Nat} (h : DirSys.findEnt l name = some k)
    : ∃ e, l[k]? = some e ∧ e.inum ≠ 0 ∧ e.name = name := by
  unfold DirSys.findEnt at h
  rw [List.findIdx?_eq_some_iff_getElem] at h
  rcases h with ⟨hk, hp, _⟩
  refine ⟨l[k], List.getElem?_eq_getElem hk, ?_⟩
  simpa using hp

theorem findEnt_none {name : String} (h : DirSys.findEnt l name = none)
    : ∀ e ∈ l, e.inum ≠ 0 → e.name ≠ name := by
  intro e he hinum hname
  unfold DirSys.findEnt at h
  rw [List.findIdx?_eq_none_iff] at h
  have := h e he
  simp [hinum, hname] at this

end

namespace Tree

theorem ne_zero (h : Tree N extra) (hD : (N D).Linked) : D ≠ 0 := by
  intro heq
  subst heq
  have htype := hD.1
  rw [h.zero] at htype
  contradiction

theorem dot (h : Tree N extra) (hD : (N D).Linked) {e : Dirent} (he : e ∈ (N D).ents)
    (hinum : e.inum ≠ 0) (hname : e.name = ".")
    : e.inum = D := by
  rcases h.dots D hD with ⟨u, rest, _, hents, hrest⟩
  rw [hents] at he
  rcases List.mem_cons.1 he with he | he
  . rw [he]
  . rcases List.mem_cons.1 he with he | he
    . rw [he] at hname
      exact absurd hname (by simp)
    . exact absurd hname (hrest e he hinum).1

theorem nlink_pos (h : Tree N extra) (hextra : ∀ i, 0 ≤ extra i) (hD : (N D).Linked) {e : Dirent}
    (he : e ∈ (N D).ents) (hinum : e.inum ≠ 0)
    : 0 < (N e.inum).nlink := by
  by_cases hname : e.name = "."
  . rw [h.dot hD he hinum hname]
    exact hD.2
  . have hpos : 0 < tally N (counted e.inum) := by
      apply tally_pos hD he
      simp [counted, hname]
    have hn := h.nlink e.inum (h.alloc D hD e he hinum)
    have := hextra e.inum
    omega

theorem linked_of_dir (h : Tree N extra) (hextra : ∀ i, 0 ≤ extra i) (hD : (N D).Linked) {e : Dirent}
    (he : e ∈ (N D).ents) (hinum : e.inum ≠ 0) (htype : (N e.inum).type = some .dir)
    : (N e.inum).Linked :=
  ⟨htype, h.nlink_pos hextra hD he hinum⟩

theorem setFile (h : Tree N extra) (hip : ip ≠ 0) {x : Dinode} (hold : ¬ (N ip).Linked)
    (hnew : ¬ x.Linked) (hfree : x.type = none → tally N (counted ip) = 0)
    (hnlink : x.type ≠ none → x.nlink = tally N (counted ip) + extra' ip)
    (hother : ∀ i, i ≠ ip → extra' i = extra i)
    : Tree (Function.update N ip x) extra' := by
  have hlinked : ∀ D, ((Function.update N ip x) D).Linked ↔ (N D).Linked := by
    intro D
    by_cases hD : D = ip
    . subst hD
      rw [Function.update_self]
      exact iff_of_false hnew hold
    . rw [Function.update_of_ne hD]
  have hsame : ∀ D, (N D).Linked → (Function.update N ip x) D = N D := by
    intro D hD
    apply Function.update_of_ne
    intro heq
    subst heq
    exact hold hD
  have htally : ∀ P, tally (Function.update N ip x) P = tally N P := by
    intro P
    have := tally_update N ip x P
    rw [live_of_not_linked hold, live_of_not_linked hnew] at this
    simpa using this
  constructor
  . rw [Function.update_of_ne (Ne.symm hip)]
    exact h.zero
  . rw [hlinked]
    exact h.root
  . intro D hD
    rw [hlinked] at hD
    rw [hsame D hD]
    exact h.dots D hD
  . intro D hD e he hinum
    rw [hlinked] at hD
    rw [hsame D hD] at he
    by_cases heip : e.inum = ip
    . rw [heip, Function.update_self]
      intro hnone
      have hzero := hfree hnone
      by_cases hname : e.name = "."
      . rw [h.dot hD he hinum hname] at heip
        rw [heip] at hD
        exact hold hD
      . have hpos : 0 < tally N (counted ip) := by
          apply tally_pos hD he
          simp [counted, heip, hname]
        omega
    . rw [Function.update_of_ne heip]
      exact h.alloc D hD e he hinum
  . intro i hi
    rw [htally]
    by_cases hiip : i = ip
    . subst hiip
      rw [Function.update_self] at hi ⊢
      exact hnlink hi
    . rw [Function.update_of_ne hiip] at hi ⊢
      rw [hother i hiip]
      exact h.nlink i hi
  . intro S hS
    rw [hlinked] at hS
    rw [htally]
    exact h.once S hS
  . intro S u hS hu hup
    rw [hlinked] at hS
    rw [hsame S hS] at hup
    rcases h.parent S u hS hu hup with hroot | ⟨hlu, hkid⟩
    . exact .inl hroot
    . right
      rw [hsame u hlu]
      exact ⟨hlu, hkid⟩

-- The entries of a directory after the first two change, but none of those for directories.
theorem setEnts (h : Tree N extra) (hdp : (N dp).Linked) {ents : List Dirent} {u : Inum}
    {rest rest' : List Dirent} (hold : (N dp).ents = ⟨dp, "."⟩ :: ⟨u, ".."⟩ :: rest)
    (hnew : ents = ⟨dp, "."⟩ :: ⟨u, ".."⟩ :: rest')
    (hnames : ∀ e ∈ rest', e.inum ≠ 0 → e.name ≠ "." ∧ e.name ≠ "..")
    (halloc : ∀ e ∈ ents, e.inum ≠ 0 → (N e.inum).type ≠ none)
    (hkids : ∀ S, (N S).Linked → ents.countP (isKid S) = (N dp).ents.countP (isKid S))
    (hcount : ∀ i, (N i).type ≠ none →
      extra' i + ents.countP (counted i) = extra i + (N dp).ents.countP (counted i))
    : Tree (Function.update N dp { N dp with ents }) extra' := by
  have hx : ({ N dp with ents } : Dinode).Linked := hdp
  have hnode : ∀ D, D ≠ dp → (Function.update N dp { N dp with ents }) D = N D :=
    fun D hD => Function.update_of_ne hD _ _
  have hlinked : ∀ D, ((Function.update N dp { N dp with ents }) D).Linked ↔ (N D).Linked := by
    intro D
    by_cases hD : D = dp
    . subst hD
      rw [Function.update_self]
      exact Iff.rfl
    . rw [hnode D hD]
  have htype : ∀ D, ((Function.update N dp { N dp with ents }) D).type = (N D).type ∧
      ((Function.update N dp { N dp with ents }) D).nlink = (N D).nlink := by
    intro D
    by_cases hD : D = dp
    . subst hD
      rw [Function.update_self]
      exact ⟨rfl, rfl⟩
    . rw [hnode D hD]
      exact ⟨rfl, rfl⟩
  have htally : ∀ P, tally (Function.update N dp { N dp with ents }) P + (N dp).ents.countP P =
      tally N P + ents.countP P := by
    intro P
    have := tally_update N dp { N dp with ents } P
    rw [live_of_linked hdp, live_of_linked hx] at this
    exact this
  -- an entry for a directory survives
  have hkeep : ∀ D S e, (N S).Linked → e ∈ (N D).ents → isKid S e = true →
      ∃ e' ∈ ((Function.update N dp { N dp with ents }) D).ents, isKid S e' = true := by
    intro D S e hS he hkid
    by_cases hD : D = dp
    . subst hD
      rw [Function.update_self]
      have hpos : 0 < (N D).ents.countP (isKid S) := List.countP_pos_iff.2 ⟨e, he, hkid⟩
      rw [← hkids S hS] at hpos
      rcases List.countP_pos_iff.1 hpos with ⟨e', he', hkid'⟩
      exact ⟨e', he', hkid'⟩
    . rw [hnode D hD]
      exact ⟨e, he, hkid⟩
  constructor
  . rw [(htype 0).1]
    exact h.zero
  . rw [hlinked]
    exact h.root
  . intro D hD
    rw [hlinked] at hD
    by_cases hDdp : D = dp
    . subst hDdp
      rw [Function.update_self]
      rcases h.dots D hD with ⟨w, _, hw, hents, _⟩
      rw [hold] at hents
      cases hents
      exact ⟨u, rest', hw, hnew, hnames⟩
    . rw [hnode D hDdp]
      exact h.dots D hD
  . intro D hD e he hinum
    rw [hlinked] at hD
    rw [(htype _).1]
    by_cases hDdp : D = dp
    . subst hDdp
      rw [Function.update_self] at he
      exact halloc e he hinum
    . rw [hnode D hDdp] at he
      exact h.alloc D hD e he hinum
  . intro i hi
    rw [(htype i).1] at hi
    rw [(htype i).2, h.nlink i hi]
    have h1 := htally (counted i)
    have h2 := hcount i hi
    omega
  . intro S hS
    rw [hlinked] at hS
    rw [← h.once S hS]
    have h1 := htally (isKid S)
    have h2 := hkids S hS
    omega
  . intro S v hS hv hup
    rw [hlinked] at hS
    have hup' : ⟨v, ".."⟩ ∈ (N S).ents := by
      by_cases hSdp : S = dp
      . subst hSdp
        rw [Function.update_self] at hup
        dsimp only at hup
        rw [hnew] at hup
        rw [hold]
        rcases List.mem_cons.1 hup with hup | hup
        . rw [hup]
          exact List.mem_cons_self
        . rcases List.mem_cons.1 hup with hup | hup
          . rw [hup]
            exact List.mem_cons_of_mem _ List.mem_cons_self
          . exact absurd rfl (hnames _ hup hv).2
      . rw [hnode S hSdp] at hup
        exact hup
    rcases h.parent S v hS hv hup' with hroot | ⟨hlv, e, he, hkid⟩
    . exact .inl hroot
    . right
      refine ⟨(hlinked v).2 hlv, ?_⟩
      exact hkeep v S e hS he hkid

theorem counted_null {i : Inum} (hi : i ≠ 0) (d : Dirent) (hd : d.inum = 0) : counted i d = false := by
  simp [counted, hd, Ne.symm hi]

theorem isKid_null {i : Inum} (hi : i ≠ 0) (d : Dirent) (hd : d.inum = 0) : isKid i d = false := by
  simp [isKid, hd, Ne.symm hi]

theorem inum_of_counted {i : Inum} {e : Dirent} (h : counted i e = true) : e.inum = i := by
  simp only [counted, decide_eq_true_eq] at h
  exact h.1

theorem inum_of_isKid {i : Inum} {e : Dirent} (h : isKid i e = true) : e.inum = i := by
  simp only [isKid, decide_eq_true_eq] at h
  exact h.1

theorem type_ne_zero (h : Tree N extra) {i : Inum} (hi : (N i).type ≠ none) : i ≠ 0 := by
  intro heq
  subst heq
  exact hi h.zero

theorem insertFile (h : Tree N extra) (hdp : (N dp).Linked) (htype : (N ip).type ≠ none)
    (hfile : ¬ (N ip).Linked) {name : String} (hname : name ≠ "." ∧ name ≠ "..")
    : Tree (Function.update N dp { N dp with ents := insertEnt ⟨ip, name⟩ (N dp).ents })
        (fun i => extra i - if i = ip then 1 else 0) := by
  have hip := h.type_ne_zero htype
  rcases h.dots dp hdp with ⟨u, rest, hu, hents, hrest⟩
  have hnew : insertEnt ⟨ip, name⟩ (N dp).ents =
      ⟨dp, "."⟩ :: ⟨u, ".."⟩ :: insertEnt ⟨ip, name⟩ rest := by
    rw [hents]
    rw [insertEnt, if_neg (h.ne_zero hdp), insertEnt, if_neg hu]
  apply h.setEnts hdp hents hnew
  . intro e he hinum
    rcases mem_insertEnt he with he | he
    . rw [he]
      exact hname
    . exact hrest e he hinum
  . intro e he hinum
    rcases mem_insertEnt he with he | he
    . rw [he]
      exact htype
    . exact h.alloc dp hdp e he hinum
  . intro S hS
    have hne : ¬ ip = S := by
      intro heq
      subst heq
      exact hfile hS
    rw [countP_insertEnt (isKid_null (h.ne_zero hS))]
    simp [isKid, hne]
  . intro i hi
    rw [countP_insertEnt (counted_null (h.type_ne_zero hi))]
    by_cases hiip : i = ip
    . subst hiip
      simp [counted, hname.1]
    . simp [counted, hiip, Ne.symm hiip]

theorem removeFile (h : Tree N extra) (hdp : (N dp).Linked) {k : Nat} {e : Dirent}
    (hk : (N dp).ents[k]? = some e) (hip : e.inum ≠ 0) (hname : e.name ≠ "." ∧ e.name ≠ "..")
    (hfile : ¬ (N e.inum).Linked)
    : Tree (Function.update N dp { N dp with ents := (N dp).ents.set k ⟨0, ""⟩ })
        (fun i => extra i + if i = e.inum then 1 else 0) := by
  rcases h.dots dp hdp with ⟨u, rest, hu, hents, hrest⟩
  -- the entry is not one of the first two
  have hnew : ∃ rest', (N dp).ents.set k ⟨0, ""⟩ = ⟨dp, "."⟩ :: ⟨u, ".."⟩ :: rest' ∧
      ∀ d ∈ rest', d.inum ≠ 0 → d.name ≠ "." ∧ d.name ≠ ".." := by
    rw [hents] at hk ⊢
    match k, hk with
    | 0, hk =>
      cases hk
      exact absurd rfl hname.1
    | 1, hk =>
      cases hk
      exact absurd rfl hname.2
    | k + 2, hk =>
      refine ⟨rest.set k ⟨0, ""⟩, rfl, ?_⟩
      intro d hd hinum
      rcases List.mem_or_eq_of_mem_set hd with hd | hd
      . exact hrest d hd hinum
      . rw [hd] at hinum
        exact absurd rfl hinum
  rcases hnew with ⟨rest', hnew, hnames⟩
  apply h.setEnts hdp hents hnew hnames
  . intro d hd hinum
    rcases List.mem_or_eq_of_mem_set hd with hd | hd
    . exact h.alloc dp hdp d hd hinum
    . rw [hd] at hinum
      exact absurd rfl hinum
  . intro S hS
    have hcount := countP_set_null hk (isKid_null (h.ne_zero hS) ⟨0, ""⟩ rfl)
    have hne : isKid S e = false := by
      have hne : ¬ e.inum = S := by
        intro heq
        rw [heq] at hfile
        exact hfile hS
      simp [isKid, hne]
    rw [hne] at hcount
    simpa using hcount
  . intro i hi
    have hcount := countP_set_null hk (counted_null (h.type_ne_zero hi) ⟨0, ""⟩ rfl)
    by_cases hie : i = e.inum
    . have hc : counted i e = true := by simp [counted, hie, hname.1]
      rw [hc] at hcount
      simp only [if_true, hie] at hcount ⊢
      omega
    . have hc : counted i e = false := by simp [counted, Ne.symm hie]
      rw [hc] at hcount
      simp only [Bool.false_eq_true, if_false, hie] at hcount ⊢
      omega

theorem not_named (h : Tree N extra) {i : Inum} (hi : i ≠ 0) (hfree : (N i).type = none)
    (hP : ∀ e, P e = true → e.inum = i)
    : tally N P = 0 := by
  apply tally_eq_zero
  intro D hD e he
  by_contra hne
  have hinum := hP e (by simpa using hne)
  apply h.alloc D hD e he
  . rw [hinum]
    exact hi
  . rw [hinum]
    exact hfree

-- `M` is `N` with the new directory `ip`, which `dp` has an entry for.
structure Mkdir (N M : Nodes) (dp ip : Inum) (name : String) : Prop where
  tree : Tree N 0
  dir : (N dp).Linked
  ne_zero : ip ≠ 0
  free : (N ip).type = none
  not_dots : name ≠ "." ∧ name ≠ ".."
  eq : M = Function.update (Function.update N ip ⟨some .dir, 1, [⟨ip, "."⟩, ⟨dp, ".."⟩]⟩) dp
    ⟨(N dp).type, (N dp).nlink + 1, insertEnt ⟨ip, name⟩ (N dp).ents⟩

namespace Mkdir

variable {M : Nodes} {name : String}

theorem not_linked (h : Mkdir N M dp ip name) : ¬ (N ip).Linked := by
  intro hl
  exact nomatch h.free.symm.trans hl.1

theorem ne_of_linked (h : Mkdir N M dp ip name) (hD : (N D).Linked) : D ≠ ip := by
  intro heq
  rw [heq] at hD
  exact h.not_linked hD

theorem ne (h : Mkdir N M dp ip name) : dp ≠ ip := h.ne_of_linked h.dir

theorem node_dp (h : Mkdir N M dp ip name)
    : M dp = ⟨(N dp).type, (N dp).nlink + 1, insertEnt ⟨ip, name⟩ (N dp).ents⟩ := by
  rw [h.eq, Function.update_self]

theorem node_ip (h : Mkdir N M dp ip name) : M ip = ⟨some .dir, 1, [⟨ip, "."⟩, ⟨dp, ".."⟩]⟩ := by
  rw [h.eq, Function.update_of_ne (Ne.symm h.ne), Function.update_self]

theorem node_other (h : Mkdir N M dp ip name) (h1 : D ≠ dp) (h2 : D ≠ ip) : M D = N D := by
  rw [h.eq, Function.update_of_ne h1, Function.update_of_ne h2]

theorem linked_dp (h : Mkdir N M dp ip name) : (M dp).Linked := by
  rw [h.node_dp]
  refine ⟨h.dir.1, ?_⟩
  have := h.dir.2
  dsimp only
  omega

theorem linked_ip (h : Mkdir N M dp ip name) : (M ip).Linked := by
  rw [h.node_ip]
  exact ⟨rfl, Int.one_pos⟩

theorem linked (h : Mkdir N M dp ip name) (hD : (M D).Linked) : D = ip ∨ (N D).Linked := by
  by_cases h1 : D = dp
  . rw [h1]
    exact .inr h.dir
  . by_cases h2 : D = ip
    . exact .inl h2
    . rw [h.node_other h1 h2] at hD
      exact .inr hD

theorem linked_of (h : Mkdir N M dp ip name) (hD : (N D).Linked) : (M D).Linked := by
  by_cases h1 : D = dp
  . rw [h1]
    exact h.linked_dp
  . rw [h.node_other h1 (h.ne_of_linked hD)]
    exact hD

theorem type (h : Mkdir N M dp ip name) {i : Inum} (hi : i ≠ ip) : (M i).type = (N i).type := by
  by_cases h1 : i = dp
  . rw [h1, h.node_dp]
  . rw [h.node_other h1 hi]

theorem mem (h : Mkdir N M dp ip name) {e : Dirent} (hD : (N D).Linked) (he : e ∈ (N D).ents)
    (hinum : e.inum ≠ 0)
    : e ∈ (M D).ents := by
  by_cases h1 : D = dp
  . subst h1
    rw [h.node_dp]
    exact mem_insertEnt_of_mem _ he hinum
  . rw [h.node_other h1 (h.ne_of_linked hD)]
    exact he

theorem mem_cases (h : Mkdir N M dp ip name) {e : Dirent} (hD : (N D).Linked) (he : e ∈ (M D).ents)
    : e = ⟨ip, name⟩ ∨ e ∈ (N D).ents := by
  by_cases h1 : D = dp
  . subst h1
    rw [h.node_dp] at he
    exact mem_insertEnt he
  . rw [h.node_other h1 (h.ne_of_linked hD)] at he
    exact .inr he

theorem tally_eq (h : Mkdir N M dp ip name) (hP : ∀ d : Dirent, d.inum = 0 → P d = false)
    : tally M P = tally N P + (if P ⟨ip, "."⟩ then 1 else 0) + (if P ⟨dp, ".."⟩ then 1 else 0) +
        (if P ⟨ip, name⟩ then 1 else 0) := by
  have h1 := tally_update N ip ⟨some .dir, 1, [⟨ip, "."⟩, ⟨dp, ".."⟩]⟩ P
  have h2 := tally_update (Function.update N ip ⟨some .dir, 1, [⟨ip, "."⟩, ⟨dp, ".."⟩]⟩) dp
    ⟨(N dp).type, (N dp).nlink + 1, insertEnt ⟨ip, name⟩ (N dp).ents⟩ P
  rw [← h.eq, Function.update_of_ne h.ne, ← h.node_dp, live_of_linked h.linked_dp,
    live_of_linked h.dir] at h2
  rw [live_of_not_linked h.not_linked, ← h.node_ip, live_of_linked h.linked_ip, h.node_ip] at h1
  rw [h.node_dp] at h2
  dsimp only at h1 h2
  rw [countP_insertEnt hP] at h2
  rw [List.countP_cons, List.countP_cons, List.countP_nil] at h1
  omega

theorem tally_zero (h : Mkdir N M dp ip name) (hP : ∀ e, P e = true → e.inum = ip) : tally N P = 0 :=
  h.tree.not_named h.ne_zero h.free hP

theorem dots (h : Mkdir N M dp ip name) (hD : (M D).Linked)
    : ∃ u rest, u ≠ 0 ∧ (M D).ents = ⟨D, "."⟩ :: ⟨u, ".."⟩ :: rest ∧
        ∀ e ∈ rest, e.inum ≠ 0 → e.name ≠ "." ∧ e.name ≠ ".." := by
  rcases h.linked hD with rfl | hD
  . rw [h.node_ip]
    exact ⟨dp, [], h.tree.ne_zero h.dir, rfl, by simp⟩
  . by_cases h1 : D = dp
    . subst h1
      rcases h.tree.dots D hD with ⟨u, rest, hu, hents, hrest⟩
      rw [h.node_dp]
      refine ⟨u, insertEnt ⟨ip, name⟩ rest, hu, ?_, ?_⟩
      . dsimp only
        rw [hents]
        rw [insertEnt, if_neg (h.tree.ne_zero hD), insertEnt, if_neg hu]
      . intro e he hinum
        rcases mem_insertEnt he with he | he
        . rw [he]
          exact h.not_dots
        . exact hrest e he hinum
    . rw [h.node_other h1 (h.ne_of_linked hD)]
      exact h.tree.dots D hD

theorem alloc (h : Mkdir N M dp ip name) {e : Dirent} (hD : (M D).Linked) (he : e ∈ (M D).ents)
    (hinum : e.inum ≠ 0)
    : (M e.inum).type ≠ none := by
  by_cases hei : e.inum = ip
  . rw [hei, h.node_ip]
    nofun
  . rw [h.type hei]
    rcases h.linked hD with rfl | hD
    . rw [h.node_ip] at he
      rcases List.mem_cons.1 he with he | he
      . rw [he] at hei
        exact absurd rfl hei
      . rw [List.mem_singleton] at he
        rw [he, h.dir.1]
        nofun
    . rcases h.mem_cases hD he with he | he
      . rw [he] at hei
        exact absurd rfl hei
      . exact h.tree.alloc D hD e he hinum

theorem nlink (h : Mkdir N M dp ip name) {i : Inum} (hi : (M i).type ≠ none)
    : (M i).nlink = tally M (counted i) + (0 : Inum → Int) i := by
  have hi0 : i ≠ 0 := by
    intro heq
    subst heq
    rw [h.type (Ne.symm h.ne_zero)] at hi
    exact hi h.tree.zero
  rw [h.tally_eq (counted_null hi0)]
  by_cases h2 : i = ip
  . subst h2
    rw [h.node_ip, h.tally_zero (fun _ => inum_of_counted)]
    simp [counted, h.ne, h.not_dots.1]
  . have hn := h.tree.nlink i (by rwa [← h.type h2])
    have e1 : counted i ⟨ip, "."⟩ = false := by simp [counted]
    have e3 : counted i ⟨ip, name⟩ = false := by simp [counted, Ne.symm h2]
    simp only [Pi.zero_apply, add_zero] at hn ⊢
    -- of the directories that were there, only the parent is named once more, by the new ".."
    by_cases h1 : i = dp
    . subst h1
      have e2 : counted i ⟨i, ".."⟩ = true := by simp [counted]
      rw [h.node_dp]
      simp only [e1, e2, e3, Bool.false_eq_true, if_false, if_true]
      omega
    . have e2 : counted i ⟨dp, ".."⟩ = false := by simp [counted, Ne.symm h1]
      rw [h.node_other h1 h2]
      simp only [e1, e2, e3, Bool.false_eq_true, if_false]
      omega

theorem once (h : Mkdir N M dp ip name) (hS : (M S).Linked)
    : tally M (isKid S) = if S = rootIno then 0 else 1 := by
  have hroot : rootIno ≠ ip := h.ne_of_linked h.tree.root
  rcases h.linked hS with rfl | hS
  . rw [h.tally_eq (isKid_null h.ne_zero), h.tally_zero (fun _ => inum_of_isKid),
      if_neg (Ne.symm hroot)]
    simp [isKid, h.not_dots.1, h.not_dots.2]
  . have h2 : ¬ ip = S := Ne.symm (h.ne_of_linked hS)
    rw [h.tally_eq (isKid_null (h.tree.ne_zero hS)), h.tree.once S hS]
    simp [isKid, h2]

theorem parent (h : Mkdir N M dp ip name) {v : Inum} (hS : (M S).Linked) (hv : v ≠ 0)
    (hup : ⟨v, ".."⟩ ∈ (M S).ents)
    : (S = rootIno ∧ v = rootIno) ∨ (M v).Linked ∧ ∃ e ∈ (M v).ents, isKid S e = true := by
  rcases h.linked hS with rfl | hS
  . rw [h.node_ip] at hup
    have hvdp : v = dp := by
      rcases List.mem_cons.1 hup with hup | hup
      . exact absurd (congrArg Dirent.name hup) (by simp)
      . rw [List.mem_singleton] at hup
        exact congrArg Dirent.inum hup
    subst hvdp
    refine .inr ⟨h.linked_dp, ⟨S, name⟩, ?_, ?_⟩
    . rw [h.node_dp]
      exact mem_insertEnt_self _ _
    . simp [isKid, h.not_dots.1, h.not_dots.2]
  . have hup' : ⟨v, ".."⟩ ∈ (N S).ents := by
      rcases h.mem_cases hS hup with hup | hup
      . exact absurd (congrArg Dirent.name hup).symm h.not_dots.2
      . exact hup
    rcases h.tree.parent S v hS hv hup' with hroot | ⟨hlv, e, he, hkid⟩
    . exact .inl hroot
    . refine .inr ⟨h.linked_of hlv, e, ?_, hkid⟩
      apply h.mem hlv he
      rw [inum_of_isKid hkid]
      exact h.tree.ne_zero hS

end Mkdir

theorem mkdir (h : Tree N 0) (hdp : (N dp).Linked) (hip : ip ≠ 0) (hfree : (N ip).type = none)
    {name : String} (hname : name ≠ "." ∧ name ≠ "..")
    : Tree (Function.update (Function.update N ip ⟨some .dir, 1, [⟨ip, "."⟩, ⟨dp, ".."⟩]⟩) dp
        ⟨(N dp).type, (N dp).nlink + 1, insertEnt ⟨ip, name⟩ (N dp).ents⟩) 0 := by
  generalize hM : Function.update (Function.update N ip ⟨some .dir, 1, [⟨ip, "."⟩, ⟨dp, ".."⟩]⟩) dp
    ⟨(N dp).type, (N dp).nlink + 1, insertEnt ⟨ip, name⟩ (N dp).ents⟩ = M
  have hmk : Mkdir N M dp ip name := ⟨h, hdp, hip, hfree, hname, hM.symm⟩
  refine ⟨?_, hmk.linked_of h.root, ?_, ?_, ?_, ?_, ?_⟩
  . rw [hmk.type (Ne.symm hip)]
    exact h.zero
  . intro D hD
    exact hmk.dots hD
  . intro D hD e he hinum
    exact hmk.alloc hD he hinum
  . intro i hi
    exact hmk.nlink hi
  . intro S hS
    exact hmk.once hS
  . intro S v hS hv hup
    exact hmk.parent hS hv hup

theorem two_le_tally {d e : Dirent} (hne : D ≠ S) (hD : (N D).Linked) (hS : (N S).Linked)
    (hd : d ∈ (N D).ents) (he : e ∈ (N S).ents) (hPd : P d = true) (hPe : P e = true)
    : 2 ≤ tally N P := by
  have hsplit := Finset.add_sum_erase Finset.univ (fun E => (N E).live.countP P) (Finset.mem_univ D)
  have hle : (N S).live.countP P ≤ ∑ E ∈ Finset.univ.erase D, (N E).live.countP P := by
    apply Finset.single_le_sum (f := fun E => (N E).live.countP P) (fun _ _ => Nat.zero_le _)
    rw [Finset.mem_erase]
    exact ⟨Ne.symm hne, Finset.mem_univ S⟩
  have h1 : 0 < (N D).live.countP P := List.countP_pos_iff.2 ⟨d, mem_live.2 ⟨hD, hd⟩, hPd⟩
  have h2 : 0 < (N S).live.countP P := List.countP_pos_iff.2 ⟨e, mem_live.2 ⟨hS, he⟩, hPe⟩
  unfold tally
  omega

theorem kid_parent (h : Tree N extra) {u : Inum} {e : Dirent} (hD : (N D).Linked) (hS : (N S).Linked)
    (he : e ∈ (N D).ents) (hkid : isKid S e = true) (hu : u ≠ 0) (hup : ⟨u, ".."⟩ ∈ (N S).ents)
    : S ≠ rootIno ∧ u = D := by
  have hpos := tally_pos hD he hkid
  have honce := h.once S hS
  have hroot : S ≠ rootIno := by
    intro heq
    rw [if_pos heq] at honce
    omega
  refine ⟨hroot, ?_⟩
  rw [if_neg hroot] at honce
  rcases h.parent S u hS hu hup with hr | ⟨hlu, e', he', hkid'⟩
  . exact absurd hr.1 hroot
  . -- otherwise two directories name `S`
    by_contra hne
    have htwo := two_le_tally hne hlu hD he' he hkid' hkid
    omega

theorem not_up_of_empty (h : Tree N extra) (hempty : DirSys.isdirempty (N S) = true)
    (hroot : S ≠ rootIno) (hD : (N D).Linked) (hup : ⟨S, ".."⟩ ∈ (N D).ents)
    (hS : (N S).Linked)
    : False := by
  have hS0 := h.ne_zero hS
  rcases h.parent D S hD hS0 hup with hr | ⟨_, e, he, hkid⟩
  . exact hroot hr.2
  . rcases h.dots S hS with ⟨u, rest, _, hents, _⟩
    unfold DirSys.isdirempty at hempty
    rw [hents] at he hempty
    have hnames : e.name ≠ "." ∧ e.name ≠ ".." := by
      simp only [isKid, decide_eq_true_eq] at hkid
      exact hkid.2
    rcases List.mem_cons.1 he with he | he
    . rw [he] at hnames
      exact hnames.1 rfl
    . rcases List.mem_cons.1 he with he | he
      . rw [he] at hnames
        exact hnames.2 rfl
      . have hall : ∀ d ∈ rest, d.inum = 0 := by simpa using hempty
        have hzero := hall e he
        rw [inum_of_isKid hkid] at hzero
        exact h.ne_zero hD hzero

theorem up_of_isUp {i : Inum} {e : Dirent} (hup : isUp i e = true)
    : e = ⟨i, ".."⟩ := by
  simp only [isUp, decide_eq_true_eq] at hup
  cases e
  simp only [Dirent.mk.injEq]
  exact hup

theorem root_up (h : Tree N extra) : ⟨rootIno, ".."⟩ ∈ (N rootIno).ents := by
  rcases h.dots rootIno h.root with ⟨u, rest, hu, hents, _⟩
  have hup : ⟨u, ".."⟩ ∈ (N rootIno).ents := by
    rw [hents]
    exact List.mem_cons_of_mem _ List.mem_cons_self
  rcases h.parent rootIno u h.root hu hup with hr | ⟨hlu, e, he, hkid⟩
  . rw [hr.2] at hup
    exact hup
  . have hpos := tally_pos hlu he hkid
    have honce := h.once rootIno h.root
    rw [if_pos rfl] at honce
    omega

-- A directory that is the parent of another one has a link besides the one from its child.
theorem two_le_nlink (h : Tree N 0) (hdp : (N dp).Linked) (hS : (N S).Linked) (hne : dp ≠ S)
    (hup : ⟨dp, ".."⟩ ∈ (N S).ents)
    : 2 ≤ (N dp).nlink := by
  have hn := h.nlink dp (by
    rw [hdp.1]
    nofun)
  rw [tally_counted] at hn
  simp only [Pi.zero_apply, add_zero] at hn
  by_cases hroot : dp = rootIno
  . have htwo : 2 ≤ tally N (isUp dp) := by
      have hself : ⟨dp, ".."⟩ ∈ (N dp).ents := by
        rw [hroot]
        exact h.root_up
      exact two_le_tally hne hdp hS hself hup (by simp [isUp]) (by simp [isUp])
    omega
  . have hpos : 0 < tally N (isUp dp) := tally_pos hS hup (by simp [isUp])
    have honce := h.once dp hdp
    rw [if_neg hroot] at honce
    omega

-- `M` is `N` without the empty directory that entry `k` of its parent `dp` names.
structure Rmdir (N M : Nodes) (dp : Inum) (k : Nat) (e : Dirent) : Prop where
  tree : Tree N 0
  dir : (N dp).Linked
  entry : (N dp).ents[k]? = some e
  not_dots : e.name ≠ "." ∧ e.name ≠ ".."
  kid : (N e.inum).Linked
  empty : DirSys.isdirempty (N e.inum) = true
  ents : ∃ rest, (N e.inum).ents = ⟨e.inum, "."⟩ :: ⟨dp, ".."⟩ :: rest
  not_root : e.inum ≠ rootIno
  ne : dp ≠ e.inum
  one : (N e.inum).nlink = 1
  two : 2 ≤ (N dp).nlink
  eq : M = Function.update (Function.update N dp
    ⟨(N dp).type, (N dp).nlink - 1, (N dp).ents.set k ⟨0, ""⟩⟩) e.inum
    { N e.inum with nlink := (N e.inum).nlink - 1 }

namespace Rmdir

variable {M : Nodes} {k : Nat} {e : Dirent}

theorem node_ip (h : Rmdir N M dp k e) : M e.inum = { N e.inum with nlink := (N e.inum).nlink - 1 } := by
  rw [h.eq, Function.update_self]

theorem node_dp (h : Rmdir N M dp k e)
    : M dp = ⟨(N dp).type, (N dp).nlink - 1, (N dp).ents.set k ⟨0, ""⟩⟩ := by
  rw [h.eq, Function.update_of_ne h.ne, Function.update_self]

theorem node_other (h : Rmdir N M dp k e) (h1 : D ≠ dp) (h2 : D ≠ e.inum) : M D = N D := by
  rw [h.eq, Function.update_of_ne h2, Function.update_of_ne h1]

theorem linked_dp (h : Rmdir N M dp k e) : (M dp).Linked := by
  rw [h.node_dp]
  refine ⟨h.dir.1, ?_⟩
  have := h.two
  dsimp only
  omega

theorem not_linked (h : Rmdir N M dp k e) : ¬ (M e.inum).Linked := by
  rw [h.node_ip]
  intro hl
  have hpos := hl.2
  have := h.one
  dsimp only at hpos
  omega

theorem linked_iff (h : Rmdir N M dp k e) : (M D).Linked ↔ D ≠ e.inum ∧ (N D).Linked := by
  by_cases h2 : D = e.inum
  . rw [h2]
    exact iff_of_false h.not_linked (fun hc => hc.1 rfl)
  . by_cases h1 : D = dp
    . rw [h1]
      exact iff_of_true h.linked_dp ⟨h.ne, h.dir⟩
    . rw [h.node_other h1 h2]
      exact ⟨fun hl => ⟨h2, hl⟩, fun hl => hl.2⟩

theorem type (h : Rmdir N M dp k e) (i : Inum) : (M i).type = (N i).type := by
  by_cases h2 : i = e.inum
  . rw [h2, h.node_ip]
  . by_cases h1 : i = dp
    . rw [h1, h.node_dp]
    . rw [h.node_other h1 h2]

theorem mem_of (h : Rmdir N M dp k e) {d : Dirent} (h2 : D ≠ e.inum) (hd : d ∈ (M D).ents)
    (hinum : d.inum ≠ 0)
    : d ∈ (N D).ents := by
  by_cases h1 : D = dp
  . subst h1
    rw [h.node_dp] at hd
    rcases List.mem_or_eq_of_mem_set hd with hd | hd
    . exact hd
    . rw [hd] at hinum
      exact absurd rfl hinum
  . rw [h.node_other h1 h2] at hd
    exact hd

theorem tally_eq (h : Rmdir N M dp k e) (hP : ∀ d : Dirent, d.inum = 0 → P d = false)
    : tally M P + (if P e then 1 else 0) + (if P ⟨e.inum, "."⟩ then 1 else 0) +
        (if P ⟨dp, ".."⟩ then 1 else 0) = tally N P := by
  rcases h.ents with ⟨rest, hents⟩
  have h1 := tally_update N dp ⟨(N dp).type, (N dp).nlink - 1, (N dp).ents.set k ⟨0, ""⟩⟩ P
  have h2 := tally_update (Function.update N dp
    ⟨(N dp).type, (N dp).nlink - 1, (N dp).ents.set k ⟨0, ""⟩⟩) e.inum
    { N e.inum with nlink := (N e.inum).nlink - 1 } P
  rw [← h.eq, Function.update_of_ne (Ne.symm h.ne), ← h.node_ip, live_of_not_linked h.not_linked,
    live_of_linked h.kid, hents] at h2
  rw [← h.node_dp, live_of_linked h.linked_dp, live_of_linked h.dir, h.node_dp] at h1
  have h3 := countP_set_null h.entry (hP ⟨0, ""⟩ rfl)
  have h4 : rest.countP P = 0 := by
    have hempty := h.empty
    unfold DirSys.isdirempty at hempty
    rw [hents] at hempty
    have hnull : ∀ d ∈ rest, d.inum = 0 := by simpa using hempty
    rw [List.countP_eq_zero]
    intro d hd
    rw [hP d (hnull d hd)]
    exact Bool.false_ne_true
  rw [List.countP_cons, List.countP_cons, List.countP_nil, h4] at h2
  dsimp only at h1
  omega

theorem dots (h : Rmdir N M dp k e) (hD : (M D).Linked)
    : ∃ u rest, u ≠ 0 ∧ (M D).ents = ⟨D, "."⟩ :: ⟨u, ".."⟩ :: rest ∧
        ∀ e ∈ rest, e.inum ≠ 0 → e.name ≠ "." ∧ e.name ≠ ".." := by
  rw [h.linked_iff] at hD
  by_cases h1 : D = dp
  . subst h1
    have hk := h.entry
    rw [h.node_dp]
    rcases h.tree.dots D h.dir with ⟨u, rest, hu, hents, hrest⟩
    dsimp only
    rw [hents] at hk ⊢
    match k, hk with
    | 0, hk =>
      cases hk
      exact absurd rfl h.not_dots.1
    | 1, hk =>
      cases hk
      exact absurd rfl h.not_dots.2
    | k + 2, hk =>
      refine ⟨u, rest.set k ⟨0, ""⟩, hu, rfl, ?_⟩
      intro d hd hinum
      rcases List.mem_or_eq_of_mem_set hd with hd | hd
      . exact hrest d hd hinum
      . rw [hd] at hinum
        exact absurd rfl hinum
  . rw [h.node_other h1 hD.1]
    exact h.tree.dots D hD.2

theorem nlink (h : Rmdir N M dp k e) {i : Inum} (hi : (M i).type ≠ none)
    : (M i).nlink = tally M (counted i) + (0 : Inum → Int) i := by
  rw [h.type] at hi
  have ht := h.tally_eq (counted_null (h.tree.type_ne_zero hi))
  have hn := h.tree.nlink i hi
  simp only [Pi.zero_apply, add_zero] at hn ⊢
  by_cases h2 : i = e.inum
  . subst h2
    rw [h.node_ip]
    simp [counted, h.not_dots.1, h.ne] at ht
    dsimp only
    omega
  . by_cases h1 : i = dp
    . subst h1
      rw [h.node_dp]
      simp [counted, Ne.symm h2] at ht
      dsimp only
      omega
    . rw [h.node_other h1 h2]
      simp [counted, Ne.symm h2, Ne.symm h1] at ht
      omega

theorem parent (h : Rmdir N M dp k e) {v : Inum} (hS : (M S).Linked) (hv : v ≠ 0)
    (hup : ⟨v, ".."⟩ ∈ (M S).ents)
    : (S = rootIno ∧ v = rootIno) ∨ (M v).Linked ∧ ∃ d ∈ (M v).ents, isKid S d = true := by
  rw [h.linked_iff] at hS
  have hup := h.mem_of hS.1 hup hv
  rcases h.tree.parent S v hS.2 hv hup with hr | ⟨hlv, d, hd, hkid⟩
  . exact .inl hr
  . right
    have hve : v ≠ e.inum := by
      intro heq
      rw [heq] at hup
      exact h.tree.not_up_of_empty h.empty h.not_root hS.2 hup h.kid
    refine ⟨h.linked_iff.2 ⟨hve, hlv⟩, d, ?_, hkid⟩
    by_cases h1 : v = dp
    . subst h1
      rw [h.node_dp]
      apply mem_set_of_ne h.entry hd
      intro heq
      rw [heq] at hkid
      exact hS.1 (inum_of_isKid hkid).symm
    . rw [h.node_other h1 hve]
      exact hd

theorem toTree (h : Rmdir N M dp k e) : Tree M 0 := by
  refine ⟨?_, h.linked_iff.2 ⟨Ne.symm h.not_root, h.tree.root⟩, ?_, ?_, ?_, ?_, ?_⟩
  . rw [h.type]
    exact h.tree.zero
  . intro D hD
    exact h.dots hD
  . intro D hD d hd hinum
    rw [h.linked_iff] at hD
    rw [h.type]
    exact h.tree.alloc D hD.2 d (h.mem_of hD.1 hd hinum) hinum
  . intro i hi
    exact h.nlink hi
  . intro S hS
    rw [h.linked_iff] at hS
    have ht := h.tally_eq (isKid_null (h.tree.ne_zero hS.2))
    rw [← h.tree.once S hS.2]
    simp [isKid, Ne.symm hS.1] at ht
    exact ht
  . intro S v hS hv hup
    exact h.parent hS hv hup

end Rmdir

theorem unlinkFile (h : Tree N 0) (hdp : (N dp).Linked) {k : Nat} {e : Dirent}
    (hk : (N dp).ents[k]? = some e) (hip : e.inum ≠ 0) (hname : e.name ≠ "." ∧ e.name ≠ "..")
    (hfile : ¬ (N e.inum).Linked) (htype : (N e.inum).type ≠ none) (hlink : 0 < (N e.inum).nlink)
    : dp ≠ e.inum ∧
        Tree (Function.update (Function.update N dp
          { N dp with ents := (N dp).ents.set k ⟨0, ""⟩ }) e.inum
          { N e.inum with nlink := (N e.inum).nlink - 1 }) 0 := by
  have hne : dp ≠ e.inum := by
    intro heq
    rw [heq] at hdp
    exact hfile hdp
  have htree := h.removeFile hdp hk hip hname hfile
  have hnode : (Function.update N dp { N dp with ents := (N dp).ents.set k ⟨0, ""⟩ }) e.inum = N e.inum :=
    Function.update_of_ne (Ne.symm hne) _ _
  have hcount := htree.nlink e.inum (by
    rw [hnode]
    exact htype)
  rw [hnode] at hcount
  simp only [Pi.zero_apply, if_true] at hcount
  refine ⟨hne, htree.setFile hip ?_ ?_ ?_ ?_ ?_⟩
  . rw [hnode]
    exact hfile
  . exact fun hl => hfile ⟨hl.1, hlink⟩
  . intro hnone
    exact absurd hnone htype
  . intro _
    simp only [Pi.zero_apply]
    omega
  . intro j hj
    simp [hj]

theorem rmdir (h : Tree N 0) (hdp : (N dp).Linked) {k : Nat} {e : Dirent}
    (hk : (N dp).ents[k]? = some e) (hip : e.inum ≠ 0) (hname : e.name ≠ "." ∧ e.name ≠ "..")
    (hdir : (N e.inum).type = some .dir) (hempty : DirSys.isdirempty (N e.inum) = true)
    : dp ≠ e.inum ∧ (N e.inum).nlink = 1 ∧ 2 ≤ (N dp).nlink ∧
        Tree (Function.update (Function.update N dp
          ⟨(N dp).type, (N dp).nlink - 1, (N dp).ents.set k ⟨0, ""⟩⟩) e.inum
          { N e.inum with nlink := (N e.inum).nlink - 1 }) 0 := by
  have hmem := List.mem_of_getElem? hk
  have hip' : (N e.inum).Linked := h.linked_of_dir (fun _ => le_refl _) hdp hmem hip hdir
  have hkid : isKid e.inum e = true := by
    simp [isKid, hname.1, hname.2]
  rcases h.dots e.inum hip' with ⟨u, rest, hu, hents, hrest⟩
  have hup : ⟨u, ".."⟩ ∈ (N e.inum).ents := by
    rw [hents]
    exact List.mem_cons_of_mem _ List.mem_cons_self
  rcases h.kid_parent hdp hip' hmem hkid hu hup with ⟨hroot, rfl⟩
  have hne : u ≠ e.inum := by
    intro heq
    rw [← heq] at hempty hroot hip' hup
    exact h.not_up_of_empty hempty hroot hip' hup hip'
  have hups : tally N (isUp e.inum) = 0 := by
    by_contra hpos
    rcases exists_of_tally_pos (Nat.pos_of_ne_zero hpos) with ⟨D, d, hD, hd, hdup⟩
    rw [up_of_isUp hdup] at hd
    exact h.not_up_of_empty hempty hroot hD hd hip'
  have honce := h.once e.inum hip'
  rw [if_neg hroot] at honce
  have hnlink : (N e.inum).nlink = 1 := by
    have hn := h.nlink e.inum (by
      rw [hdir]
      nofun)
    rw [tally_counted, hups, honce] at hn
    simpa using hn
  have htwo := h.two_le_nlink hdp hip' hne hup
  refine ⟨hne, hnlink, htwo, ?_⟩
  exact Rmdir.toTree ⟨h, hdp, hk, hname, hip', hempty, ⟨rest, hents⟩, hroot, hne, hnlink, htwo, rfl⟩

end Tree
end Xv6
