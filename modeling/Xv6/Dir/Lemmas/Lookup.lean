import Xv6.Data.Count
import Xv6.Data.Fold
import Xv6.Dir.Lemmas.Tree
import Xv6.Data.Ensures

/-!
The invariant of link counts and references, and how the inode layer and namex keep it. Current
directories are linked, so that every path leads through linked directories only.
-/

open Count

namespace Xv6
namespace DirSys

variable {s t : DirSys} {extra held : Inum → Int} {i ip dp : Inum} {p : Fin NPROC} {E : Fault → Prop}

structure Inv (s : DirSys) (extra held : Inum → Int) : Prop where
  tree : Tree s.node extra
  ref : ∀ i, s.ref i = occ s.cwd i + occ s.ofile i + held i
  valid : ∀ i, s.valid i = true → (s.node i).type ≠ none
  cached : ∀ i, 0 < occ s.cwd i + occ s.ofile i → s.valid i = true
  live : ∀ i, 0 < s.ref i → (s.node i).type ≠ none
  cwd : ∀ p d, s.cwd p = some d → (s.node d).Linked
  orphan : ∀ i, (s.node i).type ≠ none → (s.node i).nlink = 0 → 0 < s.ref i

structure Fits (s : DirSys) (N : Nodes) : Prop where
  type : ∀ i, (N i).type = none → (s.node i).type = none
  cwd : ∀ p d, s.cwd p = some d → (N d).Linked
  orphan : ∀ i, (N i).type ≠ none → (N i).nlink = 0 → 0 < s.ref i

theorem Fits.update {N : Nodes} {x : Dinode} (h : s.Fits N)
    (htype : x.type = none → (s.node i).type = none) (hcwd : ∀ p, s.cwd p = some i → x.Linked)
    (horphan : x.type ≠ none → x.nlink = 0 → 0 < s.ref i)
    : s.Fits (Function.update N i x) where
  type := by
    intro j
    by_cases hj : j = i
    . rw [hj, Function.update_self]
      exact htype
    . rw [Function.update_of_ne hj]
      exact h.type j
  cwd := by
    intro p d
    by_cases hd : d = i
    . rw [hd, Function.update_self]
      exact hcwd p
    . rw [Function.update_of_ne hd]
      exact h.cwd p d
  orphan := by
    intro j
    by_cases hj : j = i
    . rw [hj, Function.update_self]
      exact horphan
    . rw [Function.update_of_ne hj]
      exact h.orphan j

structure Same (s t : DirSys) : Prop where
  node : t.node = s.node
  cwd : t.cwd = s.cwd
  ofile : t.ofile = s.ofile

theorem Same.refl (s : DirSys) : Same s s := ⟨rfl, rfl, rfl⟩

theorem Same.trans {u : DirSys} (h : Same s t) (h' : Same t u) : Same s u :=
  ⟨h'.node.trans h.node, h'.cwd.trans h.cwd, h'.ofile.trans h.ofile⟩

def Safe {α : Type} (P : α → Prop) : Except Fault α → Prop
  | .ok a => P a
  | .error e => e ≠ .panic "ilock: no type"

theorem Safe.eq_outcome {α : Type} (P : α → Prop) (r : Except Fault α)
    : Safe P r = Outcome (· ≠ .panic "ilock: no type") r P := by
  cases r <;> rfl

theorem Safe.bind {α β : Type} {P : α → Prop} {Q : β → Prop} {r : Except Fault α}
    {k : α → Except Fault β} (h : Safe P r) (hk : ∀ a, P a → Safe Q (k a))
    : Safe Q (r >>= k) := by
  simp only [Safe.eq_outcome] at h hk ⊢
  exact h.bind hk

def target (N : Nodes) (ip : Inum) : List String → Option Inum
  | [] => none
  | name :: rest =>
    if (N ip).type ≠ some .dir then
      none
    else if rest = [] then
      some ip
    else
      match findEnt (N ip).ents name with
      | none => none
      | some off => target N (((N ip).ents[off]?.map Dirent.inum).getD 0) rest

def nameiparent (s : DirSys) (p : Fin NPROC) (path : DirPath) : Option Inum :=
  if path.absolute then
    target s.node rootIno path.elems
  else
    match s.cwd p with
    | none => none
    | some ip => target s.node ip path.elems

-- the inode that unlink takes out of its directory
def unlinked (s : DirSys) (p : Fin NPROC) (path : DirPath) : Option Inum :=
  match s.nameiparent p path with
  | none => none
  | some dp =>
    if path.last = "." ∨ path.last = ".." then
      none
    else
      match findEnt (s.node dp).ents path.last with
      | none => none
      | some off =>
        let ip := ((s.node dp).ents[off]?.map Dirent.inum).getD 0
        if (s.node ip).type = some .dir ∧ isdirempty (s.node ip) = false then
          none
        else
          some ip

theorem target_congr {N N' : Nodes} (h : ∀ j, (N' j).type = (N j).type ∧ (N' j).ents = (N j).ents)
    (ip : Inum) (elems : List String)
    : target N' ip elems = target N ip elems := by
  induction elems generalizing ip with
  | nil => rfl
  | cons name rest ih =>
    unfold target
    rw [(h ip).1, (h ip).2]
    simp only [ih]

theorem nameiparent_congr (h : ∀ j, (t.node j).type = (s.node j).type ∧ (t.node j).ents = (s.node j).ents)
    (hcwd : t.cwd = s.cwd) {path : DirPath}
    : t.nameiparent p path = s.nameiparent p path := by
  unfold nameiparent
  rw [hcwd]
  simp only [target_congr h]

theorem findEnt_of_dirlookup {name : String} {off : Nat} (h : s.dirlookup dp name = .ok (some (off, i), t))
    : findEnt (s.node dp).ents name = some off := by
  unfold dirlookup at h
  split at h
  . cases h
  . split at h
    . cases h
    next hfind =>
      cases h
      exact hfind

theorem iput_eq (h : (s.node i).nlink ≠ 0) : s.iput i = s.setRef i (s.ref i - 1) := by
  unfold iput
  rw [if_neg (fun hc => h hc.2.1)]

namespace Inv

theorem congr (h : s.Inv extra held) {held' : Inum → Int} (hheld : ∀ i, held' i = held i)
    : s.Inv extra held' := by
  rw [funext hheld]
  exact h

theorem setInode (h : s.Inv extra held) {x : Dinode} {n : Int} {v : Bool} {held' : Inum → Int}
    (htree : Tree (Function.update s.node i x) extra)
    (hn : n = s.ref i + held' i - held i) (hother : ∀ j, j ≠ i → held' j = held j)
    (hvalid : v = true → x.type ≠ none) (hcached : 0 < occ s.cwd i + occ s.ofile i → v = true)
    (hlive : 0 < n → x.type ≠ none) (hcwd : ∀ p, s.cwd p = some i → x.Linked)
    (horphan : x.type ≠ none → x.nlink = 0 → 0 < n)
    : (((s.setNode i x).setRef i n).setValid i v).Inv extra held' := by
  generalize ht : ((s.setNode i x).setRef i n).setValid i v = t
  have hself : t.node i = x ∧ t.ref i = n ∧ t.valid i = v := by
    rw [← ht]
    exact ⟨Function.update_self .., Function.update_self .., Function.update_self ..⟩
  have hrest : ∀ j, j ≠ i → t.node j = s.node j ∧ t.ref j = s.ref j ∧ t.valid j = s.valid j := by
    intro j hj
    rw [← ht]
    exact ⟨Function.update_of_ne hj .., Function.update_of_ne hj .., Function.update_of_ne hj ..⟩
  have htables : t.cwd = s.cwd ∧ t.ofile = s.ofile := by
    rw [← ht]
    exact ⟨rfl, rfl⟩
  refine ⟨by rw [← ht]; exact htree, ?_, ?_, ?_, ?_, ?_, ?_⟩
  . intro j
    have href := h.ref j
    rw [htables.1, htables.2]
    by_cases hj : j = i
    . subst hj
      rw [hself.2.1]
      omega
    . rw [(hrest j hj).2.1, hother j hj]
      exact href
  . intro j
    by_cases hj : j = i
    . rw [hj, hself.1, hself.2.2]
      exact hvalid
    . rw [(hrest j hj).1, (hrest j hj).2.2]
      exact h.valid j
  . intro j
    rw [htables.1, htables.2]
    by_cases hj : j = i
    . rw [hj, hself.2.2]
      exact hcached
    . rw [(hrest j hj).2.2]
      exact h.cached j
  . intro j
    by_cases hj : j = i
    . rw [hj, hself.1, hself.2.1]
      exact hlive
    . rw [(hrest j hj).1, (hrest j hj).2.1]
      exact h.live j
  . intro p d
    rw [htables.1]
    by_cases hd : d = i
    . rw [hd, hself.1]
      exact hcwd p
    . rw [(hrest d hd).1]
      exact h.cwd p d
  . intro j
    by_cases hj : j = i
    . rw [hj, hself.1, hself.2.1]
      exact horphan
    . rw [(hrest j hj).1, (hrest j hj).2.1]
      exact h.orphan j

theorem setRef (h : s.Inv extra held) {n : Int} {held' : Inum → Int}
    (hn : n = s.ref i + held' i - held i) (hother : ∀ j, j ≠ i → held' j = held j)
    (hlive : 0 < n → (s.node i).type ≠ none)
    (horphan : (s.node i).type ≠ none → (s.node i).nlink = 0 → 0 < n)
    : (s.setRef i n).Inv extra held' := by
  have hset := h.setInode (x := s.node i) (by rw [Function.update_eq_self]; exact h.tree) hn hother
    (h.valid i) (h.cached i) hlive (fun p => h.cwd p i) horphan
  unfold DirSys.setNode DirSys.setRef DirSys.setValid at hset
  simp only [Function.update_eq_self] at hset
  exact hset

theorem setValid (h : s.Inv extra held) {v : Bool} (htype : v = true → (s.node i).type ≠ none)
    (hcached : 0 < occ s.cwd i + occ s.ofile i → v = true)
    : (s.setValid i v).Inv extra held := by
  have hset := h.setInode (x := s.node i) (n := s.ref i) (by rw [Function.update_eq_self]; exact h.tree)
    (by omega) (fun _ _ => rfl) htype hcached (h.live i) (fun p => h.cwd p i) (h.orphan i)
  unfold DirSys.setNode DirSys.setRef at hset
  simp only [Function.update_eq_self] at hset
  exact hset

theorem idup (h : s.Inv extra held) (htype : (s.node i).type ≠ none) (hpos : 0 ≤ s.ref i)
    : (s.idup i).Inv extra (fun j => held j + refs (some i) j) ∧ Same s (s.idup i) := by
  refine ⟨h.setRef ?_ ?_ (fun _ => htype) (fun _ _ => by omega), ⟨rfl, rfl, rfl⟩⟩
  . rw [refs_self]
    omega
  . intro j hj
    rw [refs_of_ne hj, add_zero]

theorem iget (h : s.Inv extra held) (htype : (s.node i).type ≠ none) (hheld : 0 ≤ held i)
    : (s.iget i).Inv extra (fun j => held j + refs (some i) j) ∧ Same s (s.iget i) := by
  have href := h.ref i
  unfold DirSys.iget
  split
  . exact h.idup htype (by omega)
  next hzero =>
    have hocc : occ s.cwd i + occ s.ofile i = 0 := by omega
    have hset : (s.setRef i 1).Inv extra (fun j => held j + refs (some i) j) := by
      refine h.setRef ?_ ?_ (fun _ => htype) (fun _ _ => Int.one_pos)
      . rw [refs_self]
        omega
      . intro j hj
        rw [refs_of_ne hj, add_zero]
    refine ⟨hset.setValid (by nofun) ?_, ⟨rfl, rfl, rfl⟩⟩
    intro hpos
    have hpos : 0 < occ s.cwd i + occ s.ofile i := hpos
    omega

theorem ref_pos (h : s.Inv extra held) (hheld : 0 < held i) : 0 < s.ref i := by
  rw [h.ref i]
  omega

theorem ilock (h : s.Inv extra held) (hheld : 0 < held i)
    : ∃ t, s.ilock i = .ok t ∧ t.Inv extra held ∧ t.valid i = true ∧ Same s t := by
  have hpos := h.ref_pos hheld
  unfold DirSys.ilock
  rw [if_neg (by omega)]
  split
  next hvalid => exact ⟨s, rfl, h, hvalid, Same.refl s⟩
  . rw [if_neg (h.live i hpos)]
    refine ⟨_, rfl, h.setValid ?_ (fun _ => rfl), Function.update_self .., ⟨rfl, rfl, rfl⟩⟩
    intro _
    exact h.live i hpos

-- A reference is given up that is not the last one to an inode without links.
theorem unref (h : s.Inv extra held) (hlast : (s.node i).nlink = 0 → 1 < s.ref i)
    : (s.setRef i (s.ref i - 1)).Inv extra (fun j => held j - refs (some i) j) := by
  refine h.setRef ?_ ?_ ?_ ?_
  . rw [refs_self]
    omega
  . intro j hj
    rw [refs_of_ne hj, sub_zero]
  . intro hpos
    exact h.live i (by omega)
  . intro _ hz
    have := hlast hz
    omega

theorem iput_linked (h : s.Inv extra held) (hn : (s.node i).nlink ≠ 0)
    : (s.iput i).Inv extra (fun j => held j - refs (some i) j) ∧ Same s (s.iput i) ∧
        (s.iput i).valid = s.valid := by
  rw [iput_eq hn]
  exact ⟨h.unref (fun hz => absurd hz hn), ⟨rfl, rfl, rfl⟩, rfl⟩

-- A reference that the call has is given up, and with the last one the inode.
theorem iput (h : s.Inv extra held) (hextra : 0 ≤ extra i) (hheld : 1 ≤ held i)
    (hvalid : s.valid i = true)
    : (s.iput i).Inv extra (fun j => held j - refs (some i) j) := by
  by_cases hn : (s.node i).nlink = 0
  . have href := h.ref i
    have htype := h.valid i hvalid
    have hcount := h.tree.nlink i htype
    have hnot : ¬ (s.node i).Linked := by
      intro hl
      have := hl.2
      omega
    unfold DirSys.iput
    by_cases hone : s.ref i = 1
    . rw [if_pos ⟨hvalid, hn, hone⟩]
      have hocc : occ s.cwd i + occ s.ofile i = 0 := by omega
      have hi0 := h.tree.type_ne_zero htype
      refine h.setInode ?_ ?_ ?_ ?_ ?_ ?_ ?_ ?_
      . apply h.tree.setFile hi0 hnot
        . intro hl
          exact nomatch hl.1
        . intro _
          omega
        . intro hne
          exact absurd rfl hne
        . intro j _
          rfl
      . rw [refs_self]
        show s.ref i - 1 = _
        omega
      . intro j hj
        rw [refs_of_ne hj, sub_zero]
      . intro hfalse
        exact absurd hfalse Bool.false_ne_true
      . omega
      . intro hpos
        have hpos : 0 < s.ref i - 1 := hpos
        omega
      . intro p hp
        exact absurd (h.cwd p i hp) hnot
      . intro hne
        exact absurd rfl hne
    . rw [if_neg (fun hc => hone hc.2.2)]
      apply h.unref
      intro _
      omega
  . exact (h.iput_linked hn).1

theorem fits (h : s.Inv extra held) : s.Fits s.node := ⟨fun _ hi => hi, h.cwd, h.orphan⟩

theorem setNodes (h : s.Inv extra held) {N : Nodes} {extra' : Inum → Int} (htree : Tree N extra')
    (hfits : s.Fits N)
    : ({ s with node := N } : DirSys).Inv extra' held where
  tree := htree
  ref := h.ref
  valid := fun i hi hnone => h.valid i hi (hfits.type i hnone)
  cached := h.cached
  live := fun i hi hnone => h.live i hi (hfits.type i hnone)
  cwd := hfits.cwd
  orphan := hfits.orphan

def Good (s : DirSys) (i : Inum) : Prop := (s.node i).type ≠ none ∧ 0 < (s.node i).nlink

theorem Good.linked {i : Inum} (h : Good s i) (hdir : (s.node i).type = some .dir)
    : (s.node i).Linked :=
  ⟨hdir, h.2⟩

theorem Good.of_linked (h : (s.node i).Linked) : Good s i := by
  refine ⟨?_, h.2⟩
  rw [h.1]
  nofun

theorem Good.of_node (h : Good s i) (hnode : t.node = s.node) : Good t i := by
  unfold Good
  rw [hnode]
  exact h

theorem dirlookup (h : s.Inv extra held) (hextra : ∀ i, 0 ≤ extra i) (hheld : ∀ i, 0 ≤ held i)
    (hdp : (s.node dp).Linked) (name : String)
    : (s.dirlookup dp name = .ok (none, s) ∧ findEnt (s.node dp).ents name = none) ∨
        ∃ off e t, s.dirlookup dp name = .ok (some (off, e.inum), t) ∧
          (s.node dp).ents[off]? = some e ∧ e.inum ≠ 0 ∧ e.name = name ∧ Good s e.inum ∧
          t.Inv extra (fun j => held j + refs (some e.inum) j) ∧ Same s t := by
  unfold DirSys.dirlookup
  rw [if_neg (fun hne => hne hdp.1)]
  cases hfind : findEnt (s.node dp).ents name with
  | none => exact .inl ⟨rfl, rfl⟩
  | some off =>
    rcases findEnt_some hfind with ⟨e, he, hinum, hname⟩
    have hmem := List.mem_of_getElem? he
    have hgood : Good s e.inum :=
      ⟨h.tree.alloc dp hdp e hmem hinum, h.tree.nlink_pos hextra hdp hmem hinum⟩
    have hget := h.iget hgood.1 (hheld e.inum)
    refine .inr ⟨off, e, s.iget e.inum, ?_, he, hinum, hname, hgood, hget.1, hget.2⟩
    dsimp only
    rw [he]
    rfl

def Found (s : DirSys) (extra held : Inum → Int) (parent : Bool) (r : Option Inum × DirSys) : Prop :=
  r.2.Inv extra (fun j => held j + refs r.1 j) ∧ Same s r.2 ∧
    ∀ i, r.1 = some i → Good s i ∧ (parent = true → (s.node i).Linked)

theorem Found.dropped (h : t.Inv extra (fun j => held j + refs (some ip) j)) (hsame : Same s t)
    (hgood : Good s ip) (parent : Bool)
    : Found s extra held parent (none, t.iput ip) := by
  have hn : (t.node ip).nlink ≠ 0 := by
    rw [hsame.node]
    have := hgood.2
    omega
  have hiput := h.iput_linked hn
  refine ⟨hiput.1.congr ?_, hsame.trans hiput.2.1, by nofun⟩
  intro j
  simp

theorem Found.of_same {parent : Bool} {r : Option Inum × DirSys} (h : Found t extra held parent r)
    (hsame : Same s t)
    : Found s extra held parent r := by
  rcases h with ⟨hinv, hr, hfound⟩
  refine ⟨hinv, hsame.trans hr, ?_⟩
  intro i hi
  have hi := hfound i hi
  unfold Good at hi ⊢
  rw [hsame.node] at hi
  exact hi

theorem namexLoop (hextra : ∀ i, 0 ≤ extra i) (hheld : ∀ i, 0 ≤ held i) (parent : Bool)
    (elems : List String) (s : DirSys) (ip : Inum)
    (h : s.Inv extra (fun j => held j + refs (some ip) j)) (hgood : Good s ip)
    : Outcome E (DirSys.namexLoop parent elems s ip)
        (fun r => Found s extra held parent r ∧ (parent = true → r.1 = target s.node ip elems)) := by
  induction elems generalizing s ip with
  | nil =>
    unfold DirSys.namexLoop
    split
    . exact ⟨Found.dropped h (Same.refl s) hgood parent, fun _ => rfl⟩
    next hparent =>
      refine ⟨⟨h, Same.refl s, ?_⟩, fun hp => absurd hp hparent⟩
      intro i hi
      cases hi
      exact ⟨hgood, fun hp => absurd hp hparent⟩
  | cons name rest ih =>
    unfold DirSys.namexLoop target
    have hpos : 0 < held ip + refs (some ip) ip := by
      have := hheld ip
      rw [refs_self]
      omega
    rcases h.ilock hpos with ⟨t, ht, htinv, _, hsame⟩
    rw [ht, Fold.ok_bind, ← hsame.node]
    split
    next hdir =>
      exact ⟨Found.dropped htinv hsame hgood parent, fun _ => rfl⟩
    next hdir =>
      have hdir : (t.node ip).type = some .dir := by simpa using hdir
      have hgood' : Good t ip := hgood.of_node hsame.node
      have hlinked := hgood'.linked hdir
      split
      next hlast =>
        refine ⟨⟨htinv, hsame, ?_⟩, ?_⟩
        . intro i hi
          cases hi
          rw [hsame.node] at hlinked
          exact ⟨hgood, fun _ => hlinked⟩
        . intro _
          rw [if_pos hlast.2]
      next hmore =>
        have hheld' : ∀ j, 0 ≤ held j + refs (some ip) j := by
          intro j
          have := hheld j
          have := refs_nonneg (some ip) j
          omega
        have hrest : parent = true → ¬ rest = [] := fun hp hnil => hmore ⟨hp, hnil⟩
        rcases htinv.dirlookup hextra hheld' hlinked name with
          ⟨hnone, hfind⟩ | ⟨off, e, u, hu, hoff, hinum, hename, hegood, huinv, husame⟩
        . rw [hnone, Fold.ok_bind]
          refine ⟨Found.dropped htinv hsame hgood parent, ?_⟩
          intro hp
          rw [if_neg (hrest hp), hfind]
        . have hfind := findEnt_of_dirlookup hu
          rw [hu, Fold.ok_bind]
          dsimp only
          have hn : (u.node ip).nlink ≠ 0 := by
            rw [husame.node, hsame.node]
            have := hgood.2
            omega
          have hiput := huinv.iput_linked hn
          have hall := (hsame.trans husame).trans hiput.2.1
          have hnext : (u.iput ip).Inv extra (fun j => held j + refs (some e.inum) j) := by
            apply hiput.1.congr
            intro j
            omega
          have hgoodnext : Good (u.iput ip) e.inum := by
            apply hegood.of_node
            rw [hiput.2.1.node, husame.node]
          refine (ih (u.iput ip) e.inum hnext hgoodnext).mono ?_
          rintro r ⟨hr, htarget⟩
          refine ⟨hr.of_same hall, ?_⟩
          intro hp
          rw [if_neg (hrest hp), hfind, htarget hp, hiput.2.1.node, husame.node]
          dsimp only
          rw [hoff]
          rfl

theorem namex_outcome (h : s.Inv extra held) (hextra : ∀ i, 0 ≤ extra i) (hheld : ∀ i, 0 ≤ held i)
    (hcwd : s.cwd p ≠ none) (path : DirPath) (parent : Bool)
    : Outcome E (s.namex p path parent)
        (fun r => Found s extra held parent r ∧ (parent = true → r.1 = s.nameiparent p path)) := by
  unfold DirSys.namex nameiparent
  split
  . have hgood : Good s rootIno := Good.of_linked h.tree.root
    have hget := h.iget hgood.1 (hheld rootIno)
    refine (namexLoop hextra hheld parent path.elems _ _ hget.1 (hgood.of_node hget.2.node)).mono ?_
    rintro r ⟨hr, htarget⟩
    rw [hget.2.node] at htarget
    exact ⟨hr.of_same hget.2, htarget⟩
  . cases hip : s.cwd p with
    | none => exact absurd hip hcwd
    | some ip =>
      have hgood : Good s ip := Good.of_linked (h.cwd p ip hip)
      have href : 0 ≤ s.ref ip := by
        rw [h.ref ip]
        have := hheld ip
        omega
      have hdup := h.idup hgood.1 href
      refine (namexLoop hextra hheld parent path.elems _ _ hdup.1 (hgood.of_node hdup.2.node)).mono ?_
      rintro r ⟨hr, htarget⟩
      rw [hdup.2.node] at htarget
      exact ⟨hr.of_same hdup.2, htarget⟩

theorem namex (h : s.Inv extra held) (hextra : ∀ i, 0 ≤ extra i) (hheld : ∀ i, 0 ≤ held i)
    (hcwd : s.cwd p ≠ none) (path : DirPath) (parent : Bool)
    : Safe (Found s extra held parent) (s.namex p path parent) := by
  rw [Safe.eq_outcome]
  exact (h.namex_outcome hextra hheld hcwd path parent).mono fun r hr => hr.1

theorem fresh_name (h : s.Inv extra held) (hdp : (s.node dp).Linked) {name : String}
    (hfresh : findEnt (s.node dp).ents name = none)
    : name ≠ "." ∧ name ≠ ".." := by
  have hnames := findEnt_none hfresh
  rcases h.tree.dots dp hdp with ⟨u, rest, hu, hents, _⟩
  rw [hents] at hnames
  constructor
  . intro heq
    exact hnames _ List.mem_cons_self (h.tree.ne_zero hdp) heq.symm
  . intro heq
    exact hnames _ (List.mem_cons_of_mem _ List.mem_cons_self) hu heq.symm

end Inv

end DirSys
end Xv6
