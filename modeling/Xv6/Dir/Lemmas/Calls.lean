import Xv6.Dir.Lemmas.Lookup

/-!
Every call keeps the invariant, if it does not remove the current directory of a process.
-/

open Count

namespace Xv6
namespace DirSys

variable {s t : DirSys} {extra held : Inum → Int} {i ip dp : Inum} {p : Fin NPROC} {E : Fault → Prop}

@[simp]
theorem node_setNode (s : DirSys) (i : Inum) (x : Dinode) : (s.setNode i x).node i = x :=
  Function.update_self ..

theorem node_setNode_of_ne {j : Inum} (s : DirSys) (x : Dinode) (h : j ≠ i)
    : (s.setNode i x).node j = s.node j :=
  Function.update_of_ne h _ _

theorem setNode_setNode (s : DirSys) (i : Inum) (x y : Dinode)
    : (s.setNode i x).setNode i y = s.setNode i y := by
  unfold setNode
  rw [Function.update_idem]

def Full (x : Dinode) : Prop := x.ents.length ≥ NDIRENT ∧ ∀ e ∈ x.ents, e.inum ≠ 0

def HasName (x : Dinode) (name : String) : Prop := ∃ e ∈ x.ents, e.inum ≠ 0 ∧ e.name = name

theorem dirlink_fresh (s : DirSys) (dp i : Inum) (name : String)
    (htype : (s.node dp).type = some .dir)
    (hfresh : findEnt (s.node dp).ents name = none)
    (hfull : Full (s.node dp) → E (.panic "dirlink"))
    : Outcome E (s.dirlink dp name i)
        (fun r =>
          r = (true, s.setNode dp { s.node dp with ents := insertEnt ⟨i, name⟩ (s.node dp).ents }) ∧
          ¬ Full (s.node dp)) := by
  unfold dirlink dirlookup
  rw [if_neg (fun hne => hne htype), hfresh, Fold.ok_bind]
  dsimp only
  split
  next hnone => exact hfull hnone
  next hroom => exact ⟨rfl, hroom⟩

theorem mem_insertEnt (e : Dirent) (l : List Dirent) : e ∈ insertEnt e l := by
  induction l with
  | nil => exact List.mem_cons_self
  | cons d l ih =>
    unfold insertEnt
    split
    . exact List.mem_cons_self
    . exact List.mem_cons_of_mem d ih

namespace Inv

def Created (s : DirSys) (r : Option Inum × DirSys) : Prop :=
  r.2.Inv 0 (refs r.1) ∧ r.2.cwd = s.cwd ∧ r.2.ofile = s.ofile ∧
    ∀ i, r.1 = some i → r.2.valid i = true

theorem nonneg : ∀ i, 0 ≤ (0 : Inum → Int) i := fun _ => le_refl _

theorem refs_sub_self (ip : Inum)
    : (fun i => refs (some ip) i - if i = ip then 1 else 0) = (0 : Inum → Int) := by
  funext i
  by_cases hi : i = ip
  . rw [hi, refs_self, if_pos rfl]
    rfl
  . rw [refs_of_ne hi, if_neg hi]
    rfl

theorem ialloc (h : s.Inv 0 held) (hheld : ∀ i, 0 ≤ held i) (hip : ip ≠ 0)
    (hfree : (s.node ip).type = none) (type : InodeType)
    : ((s.setNode ip ⟨some type, 0, []⟩).iget ip).Inv 0 (fun j => held j + refs (some ip) j) ∧
        ((s.setNode ip ⟨some type, 0, []⟩).iget ip).node =
          Function.update s.node ip ⟨some type, 0, []⟩ ∧
        ((s.setNode ip ⟨some type, 0, []⟩).iget ip).cwd = s.cwd ∧
        ((s.setNode ip ⟨some type, 0, []⟩).iget ip).ofile = s.ofile := by
  have hnot : ¬ (s.node ip).Linked := by
    intro hl
    exact nomatch hfree.symm.trans hl.1
  have hnew : ¬ (⟨some type, 0, []⟩ : Dinode).Linked := by
    intro hl
    exact absurd hl.2 (lt_irrefl _)
  have href : ¬ s.ref ip > 0 := fun hpos => h.live ip hpos hfree
  have hzero := h.ref ip
  have hheldip := hheld ip
  have hcount : tally s.node (counted ip) = 0 :=
    h.tree.not_named hip hfree (fun _ => Tree.inum_of_counted)
  have hget : (s.setNode ip ⟨some type, 0, []⟩).iget ip =
      ((s.setNode ip ⟨some type, 0, []⟩).setRef ip 1).setValid ip false := by
    unfold DirSys.iget
    exact if_neg href
  rw [hget]
  refine ⟨h.setInode ?_ ?_ ?_ ?_ ?_ ?_ ?_ ?_, rfl, rfl, rfl⟩
  . apply h.tree.setFile hip hnot hnew
    . nofun
    . intro _
      rw [hcount]
      rfl
    . intro j _
      rfl
  . rw [refs_self]
    omega
  . intro j hj
    rw [refs_of_ne hj, add_zero]
  . nofun
  . omega
  . nofun
  . intro p hp
    exact absurd (h.cwd p ip hp) hnot
  . intro _ _
    exact Int.one_pos

structure Fresh (s t : DirSys) (N : Nodes) (dp ip : Inum) (type : InodeType) : Prop where
  inv : t.Inv 0 (fun j => refs (some dp) j + refs (some ip) j)
  node : t.node = Function.update N ip ⟨some type, 0, []⟩
  tree : Tree N 0
  dir : (N dp).Linked
  ne_zero : ip ≠ 0
  free : (N ip).type = none
  valid : t.valid ip = true
  cwd : t.cwd = s.cwd
  ofile : t.ofile = s.ofile

namespace Fresh

variable {N : Nodes} {type : InodeType} {name : String}

theorem ne (h : Fresh s t N dp ip type) : dp ≠ ip := by
  intro heq
  have hdir := h.dir.1
  rw [heq, h.free] at hdir
  exact nomatch hdir

theorem node_of_ne (h : Fresh s t N dp ip type) {j : Inum} (hj : j ≠ ip) : t.node j = N j := by
  rw [h.node, Function.update_of_ne hj]

theorem insert (h : Fresh s t N dp ip type) {n : Int} {x : Dinode} {ents : List Dirent} (hn : 0 < n)
    (hx : x.type ≠ none) (hxn : x.nlink ≠ 0)
    (htree : Tree (Function.update (Function.update N ip x) dp ⟨(N dp).type, n, ents⟩) 0)
    : Created s (some ip, ({ t with
        node := Function.update (Function.update N ip x) dp ⟨(N dp).type, n, ents⟩ } : DirSys).iput dp) := by
  generalize hF : Function.update (Function.update N ip x) dp ⟨(N dp).type, n, ents⟩ = F at htree
  have hFdp : F dp = ⟨(N dp).type, n, ents⟩ := by
    rw [← hF, Function.update_self]
  have htdp := h.node_of_ne h.ne
  have hinv : ({ t with node := F } : DirSys).Inv 0
      (fun j => refs (some dp) j + refs (some ip) j) := by
    apply h.inv.setNodes htree
    have hnodes := h.inv.fits
    rw [h.node] at hnodes
    have hnew := hnodes.update (i := ip) (x := x) (fun hnone => absurd hnone hx) (by
      intro q hq
      have hl := h.inv.cwd q ip hq
      rw [h.node, Function.update_self] at hl
      exact absurd hl.2 (lt_irrefl _)) (fun _ hz => absurd hz hxn)
    rw [Function.update_idem] at hnew
    rw [← hF]
    apply hnew.update
    . intro hnone
      rw [htdp]
      exact hnone
    . intro _ _
      exact ⟨h.dir.1, hn⟩
    . intro _ hz
      exact absurd hz hn.ne'
  have hput := hinv.iput_linked (i := dp) (by
    dsimp only
    rw [hFdp]
    dsimp only
    omega)
  refine ⟨hput.1.congr ?_, hput.2.1.cwd.trans h.cwd, hput.2.1.ofile.trans h.ofile, ?_⟩
  . intro j
    dsimp only
    omega
  . intro i hi
    cases hi
    rw [hput.2.2]
    exact h.valid

theorem enter (h : Fresh s t N dp ip type) {c : DirSys} {n : Int} {x : Dinode}
    (hc : c = { t with node := Function.update (Function.update N ip x) dp ⟨(N dp).type, n, (N dp).ents⟩ })
    (hfresh : findEnt (N dp).ents name = none) (hn : 0 < n) (hx : x.type ≠ none) (hxn : x.nlink ≠ 0)
    (htree : Tree (Function.update (Function.update N ip x) dp
      ⟨(N dp).type, n, insertEnt ⟨ip, name⟩ (N dp).ents⟩) 0)
    (hfull : Full (N dp) → E (.panic "dirlink"))
    : Outcome E (do
        let (ok, c) ← c.dirlink dp name ip
        if ok = false then
          .error (.panic "create: dirlink")
        else
          return (some ip, c.iput dp))
        (fun r => ¬ Full (N dp) ∧ Created s r ∧ HasName (r.2.node dp) name ∧
          ∀ i, r.1 = some i → (r.2.node i).nlink ≠ 0) := by
  have hcdp : c.node dp = ⟨(N dp).type, n, (N dp).ents⟩ := by
    rw [hc]
    exact Function.update_self ..
  apply (dirlink_fresh c dp ip name (by rw [hcdp]; exact h.dir.1) (by rw [hcdp]; exact hfresh)
    (by rw [hcdp]; exact hfull)).bind
  rintro _ ⟨rfl, hroom⟩
  rw [hcdp] at hroom
  dsimp only
  rw [if_neg (by decide), hcdp, hc]
  unfold DirSys.setNode
  dsimp only
  rw [Function.update_idem]
  have hput : ∀ u : DirSys, (u.node dp).nlink ≠ 0 → (u.iput dp).node = u.node := by
    intro u hu
    rw [iput_eq hu]
    rfl
  refine ⟨hroom, h.insert hn hx hxn htree, ?_⟩
  dsimp only
  rw [hput]
  . dsimp only
    rw [Function.update_self]
    refine ⟨⟨⟨ip, name⟩, mem_insertEnt _ _, h.ne_zero, rfl⟩, ?_⟩
    intro i hi
    cases hi
    rw [Function.update_of_ne (Ne.symm h.ne), Function.update_self]
    exact hxn
  . dsimp only
    rw [Function.update_self]
    dsimp only
    omega

end Fresh

theorem dirlink_dots {α : Type} {P : α → Prop} {k : DirSys → Except Fault α} (hip : ip ≠ 0)
    (hnode : s.node ip = ⟨some .dir, 1, []⟩)
    (hk : Outcome E (k (s.setNode ip ⟨some .dir, 1, [⟨ip, "."⟩, ⟨dp, ".."⟩]⟩)) P)
    : Outcome E (do
        let (ok, s) ← s.dirlink ip "." ip
        if ok = false then
          .error (.panic "create dots") >>= k
        else
          let (ok, s) ← s.dirlink ip ".." dp
          if ok = false then
            .error (.panic "create dots") >>= k
          else
            .ok s >>= k) P := by
  -- the new directory is far from full
  have hroom : ∀ x : Dinode, x.ents.length ≤ 1 → ¬ Full x := by
    intro x hx hfull
    have hNDIRENT : NDIRENT = 4480 := rfl
    have := hfull.1
    omega
  apply (dirlink_fresh s ip ip "." (by rw [hnode]) (by rw [hnode]; rfl)
    (fun hfull => absurd hfull (hroom _ (by rw [hnode]; decide)))).bind
  rintro _ ⟨rfl, _⟩
  dsimp only
  rw [if_neg (by decide), hnode]
  have hdot : insertEnt ⟨ip, "."⟩ [] = [⟨ip, "."⟩] := rfl
  rw [hdot]
  have hnode' : (s.setNode ip ⟨some .dir, 1, [⟨ip, "."⟩]⟩).node ip = ⟨some .dir, 1, [⟨ip, "."⟩]⟩ :=
    node_setNode ..
  apply (dirlink_fresh _ ip dp ".." (by rw [hnode']) (by rw [hnode']; simp [findEnt])
    (fun hfull => absurd hfull (hroom _ (by rw [hnode']; exact Nat.le_refl 1)))).bind
  rintro _ ⟨rfl, _⟩
  dsimp only
  rw [if_neg (by decide), hnode']
  have hdots : insertEnt ⟨dp, ".."⟩ [⟨ip, "."⟩] = [⟨ip, "."⟩, ⟨dp, ".."⟩] := by
    unfold insertEnt
    rw [if_neg hip]
    rfl
  dsimp only
  rw [hdots, setNode_setNode]
  exact hk

namespace Fresh

variable {N : Nodes} {type : InodeType} {name : String}

theorem insertFile (h : Fresh s t N dp ip type) (hfile : type ≠ .dir) (hname : name ≠ "." ∧ name ≠ "..")
    : Tree (Function.update (Function.update N ip ⟨some type, 1, []⟩) dp
        ⟨(N dp).type, (N dp).nlink, insertEnt ⟨ip, name⟩ (N dp).ents⟩) 0 := by
  have hnot : ¬ (N ip).Linked := by
    intro hl
    exact nomatch h.free.symm.trans hl.1
  have hnew : ¬ (⟨some type, 1, []⟩ : Dinode).Linked := by
    intro hl
    exact hfile (Option.some.inj hl.1)
  have hcount : tally N (counted ip) = 0 :=
    h.tree.not_named h.ne_zero h.free (fun _ => Tree.inum_of_counted)
  -- the link of the new file is one ahead of the entries until the entry is there
  have htree : Tree (Function.update N ip ⟨some type, 1, []⟩) (refs (some ip)) := by
    apply h.tree.setFile h.ne_zero hnot hnew
    . nofun
    . intro _
      rw [hcount, refs_self]
      rfl
    . intro j hj
      rw [refs_of_ne hj]
      rfl
  have hdp : (Function.update N ip ⟨some type, 1, []⟩) dp = N dp := Function.update_of_ne h.ne _ _
  have hip : (Function.update N ip ⟨some type, 1, []⟩) ip = ⟨some type, 1, []⟩ := Function.update_self ..
  have hins := htree.insertFile (by rw [hdp]; exact h.dir) (by rw [hip]; nofun) (by rw [hip]; exact hnew) hname
  rw [refs_sub_self, hdp] at hins
  exact hins

theorem createDir (h : Fresh s t N dp ip .dir)
    : ((t.setNlink ip 1).setNlink dp (((t.setNlink ip 1).node dp).nlink + 1)).setNode ip
          ⟨some .dir, 1, [⟨ip, "."⟩, ⟨dp, ".."⟩]⟩ =
        { t with node := (Function.update (Function.update N ip ⟨some .dir, 1, [⟨ip, "."⟩, ⟨dp, ".."⟩]⟩) dp
            ⟨(N dp).type, (N dp).nlink + 1, (N dp).ents⟩) } := by
  have hdp : (t.setNlink ip 1).node dp = N dp := by
    unfold setNlink
    rw [node_setNode_of_ne _ _ h.ne, h.node_of_ne h.ne]
  unfold setNlink at hdp ⊢
  unfold setNode at hdp ⊢
  rw [hdp]
  dsimp only
  rw [h.node, Function.update_idem, Function.update_comm h.ne, Function.update_idem]

theorem createFile (h : Fresh s t N dp ip type)
    : t.setNlink ip 1 =
        { t with node := (Function.update (Function.update N ip ⟨some type, 1, []⟩) dp
            ⟨(N dp).type, (N dp).nlink, (N dp).ents⟩) } := by
  have hdp : (Function.update N ip ⟨some type, 1, []⟩) dp = ⟨(N dp).type, (N dp).nlink, (N dp).ents⟩ :=
    Function.update_of_ne h.ne _ _
  unfold setNlink setNode
  rw [← hdp, Function.update_eq_self, h.node, Function.update_self, Function.update_idem]

end Fresh

theorem create_outcome (h : s.Inv 0 0) (hcwd : s.cwd p ≠ none) (path : DirPath) (type : InodeType)
    (hinodes : ∀ dp, s.nameiparent p path = some dp → findEnt (s.node dp).ents path.last = none →
      (∀ i, i ≠ 0 → (s.node i).type ≠ none) → E (.panic "ialloc: no inodes"))
    (hfull : ∀ dp, s.nameiparent p path = some dp → findEnt (s.node dp).ents path.last = none →
      Full (s.node dp) → E (.panic "dirlink"))
    : Outcome E (s.create p path type) (fun r => Created s r ∧
        (∀ i, r.1 = some i → (r.2.node i).nlink ≠ 0 ∧
          ∃ dp, s.nameiparent p path = some dp ∧ HasName (r.2.node dp) path.last) ∧
        ∀ dp, s.nameiparent p path = some dp → findEnt (s.node dp).ents path.last = none →
          ¬ Full (s.node dp)) := by
  unfold DirSys.create
  apply (h.namex_outcome nonneg nonneg hcwd path true).bind
  rintro ⟨o, t⟩ ⟨⟨ht, hsame, hfound⟩, htarget⟩
  dsimp only at ht hsame hfound htarget
  have ht : t.Inv 0 (refs o) := ht.congr (fun j => by simp)
  cases o with
  | none =>
    refine ⟨⟨ht, hsame.cwd, hsame.ofile, ?_⟩, ?_, ?_⟩
    . rintro _ ⟨⟩
    . rintro _ ⟨⟩
    . rw [← htarget rfl]
      rintro _ ⟨⟩
  | some dp =>
    have htarget := (htarget rfl).symm
    have hdp := (hfound dp rfl).2 rfl
    rw [← hsame.node] at hdp
    dsimp only
    rcases ht.ilock (i := dp) (by simp) with ⟨t1, ht1, hinv1, _, hsame1⟩
    rw [ht1, Fold.ok_bind]
    rw [← hsame1.node] at hdp
    have hnodes : t1.node = s.node := hsame1.node.trans hsame.node
    rcases hinv1.dirlookup nonneg (refs_nonneg (some dp)) hdp path.last with
      ⟨hnone, hfresh⟩ | ⟨off, e, u, hu, hoff, heinum, hename, hgood, huinv, husame⟩
    . rw [hnone, Fold.ok_bind]
      dsimp only
      have hname := hinv1.fresh_name hdp hfresh
      have hfulldp : Full (t1.node dp) → E (.panic "dirlink") := by
        rw [hnodes]
        rw [hnodes] at hfresh
        exact hfull dp htarget hfresh
      have hadd : ∀ r : Option Inum × DirSys, (¬ Full (t1.node dp) ∧ Created s r ∧
          HasName (r.2.node dp) path.last ∧ ∀ i, r.1 = some i → (r.2.node i).nlink ≠ 0) →
          Created s r ∧ (∀ i, r.1 = some i → (r.2.node i).nlink ≠ 0 ∧
            ∃ dp, s.nameiparent p path = some dp ∧ HasName (r.2.node dp) path.last) ∧
          ∀ dp, s.nameiparent p path = some dp → findEnt (s.node dp).ents path.last = none →
            ¬ Full (s.node dp) := by
        rintro r ⟨hroom, hr, hrname, hlinks⟩
        refine ⟨hr, fun i hi => ⟨hlinks i hi, dp, htarget, hrname⟩, ?_⟩
        intro dp' hdp' _
        cases htarget.symm.trans hdp'
        rw [← hnodes]
        exact hroom
      unfold DirSys.ialloc
      cases hfind : (List.finRange Mkfs.NINODES).find? (fun i => i ≠ 0 ∧ (t1.node i).type = none) with
      | none =>
        rw [hnodes] at hfresh
        apply hinodes dp htarget hfresh
        intro i hi hnone
        rw [List.find?_eq_none] at hfind
        have hused := hfind i (List.mem_finRange i)
        rw [hnodes] at hused
        exact hused (decide_eq_true ⟨hi, hnone⟩)
      | some ip =>
        have hip := List.find?_some hfind
        rw [decide_eq_true_iff] at hip
        dsimp only
        rw [Fold.ok_bind]
        dsimp only
        rcases hinv1.ialloc (refs_nonneg (some dp)) hip.1 hip.2 type with
          ⟨hinv2, hnode2, hcwd2, hofile2⟩
        generalize (t1.setNode ip ⟨some type, 0, []⟩).iget ip = t2 at hinv2 hnode2 hcwd2 hofile2
        rcases hinv2.ilock (i := ip) (by
          have := refs_nonneg (some dp) ip
          rw [refs_self]
          omega) with ⟨t3, ht3, hinv3, hvalid3, hsame3⟩
        rw [ht3, Fold.ok_bind]
        have hall := hsame.trans hsame1
        have hnew : Fresh s t3 t1.node dp ip type :=
          ⟨hinv3, hsame3.node.trans hnode2, hinv1.tree, hdp, hip.1, hip.2, hvalid3,
            (hsame3.cwd.trans hcwd2).trans hall.cwd, (hsame3.ofile.trans hofile2).trans hall.ofile⟩
        by_cases hdir : type = .dir
        . subst hdir
          rw [if_pos rfl]
          have hnode : ((t3.setNlink ip 1).setNlink dp (((t3.setNlink ip 1).node dp).nlink + 1)).node ip =
              ⟨some .dir, 1, []⟩ := by
            unfold setNlink
            rw [node_setNode_of_ne _ _ (Ne.symm hnew.ne), node_setNode, hnew.node, Function.update_self]
          refine dirlink_dots hip.1 hnode ?_
          refine (hnew.enter hnew.createDir hfresh ?_ ?_ Int.one_ne_zero ?_ hfulldp).mono hadd
          . have := hdp.2
            omega
          . rintro ⟨⟩
          . exact hinv1.tree.mkdir hdp hip.1 hip.2 hname
        . rw [if_neg hdir, Fold.ok_bind]
          refine (hnew.enter hnew.createFile hfresh hdp.2 ?_ Int.one_ne_zero ?_ hfulldp).mono hadd
          . rintro ⟨⟩
          . exact hnew.insertFile hdir hname
    . rw [hu, Fold.ok_bind]
      dsimp only
      have hn : (u.node dp).nlink ≠ 0 := by
        rw [husame.node]
        have := hdp.2
        omega
      have hput := huinv.iput_linked hn
      have hheld : (u.iput dp).Inv 0 (refs (some e.inum)) := hput.1.congr (fun j => by omega)
      rcases hheld.ilock (i := e.inum) (by simp) with ⟨v, hv, hvinv, hvvalid, hvsame⟩
      rw [hv, Fold.ok_bind]
      have hall := ((hsame.trans hsame1).trans husame).trans (hput.2.1.trans hvsame)
      have hthere : ∀ dp', s.nameiparent p path = some dp' →
          findEnt (s.node dp').ents path.last = none → ¬ Full (s.node dp') := by
        intro dp' hdp' hnone
        cases htarget.symm.trans hdp'
        rw [← hnodes] at hnone
        exact absurd hename (findEnt_none hnone e (List.mem_of_getElem? hoff) heinum)
      split
      . refine ⟨⟨hvinv, hall.cwd, hall.ofile, ?_⟩, ?_, hthere⟩
        . intro i hi
          cases hi
          exact hvvalid
        . intro i hi
          cases hi
          dsimp only
          rw [hall.node, ← hnodes]
          have hlinks := hgood.2
          exact ⟨by omega, dp, htarget, e, List.mem_of_getElem? hoff, heinum, hename⟩
      . have hvn : (v.node e.inum).nlink ≠ 0 := by
          rw [hvsame.node, hput.2.1.node, husame.node]
          have := hgood.2
          omega
        have hvput := hvinv.iput_linked hvn
        refine ⟨⟨hvput.1.congr (fun j => by simp), ?_, ?_, ?_⟩, ?_, hthere⟩
        . rw [hvput.2.1.cwd]
          exact hall.cwd
        . rw [hvput.2.1.ofile]
          exact hall.ofile
        . rintro _ ⟨⟩
        . rintro _ ⟨⟩

-- The link count of a file changes, and is `extra` ahead of the entries.
theorem setNlink (h : s.Inv extra held) (extra' : Inum → Int) {n : Int}
    (hfile : (s.node i).type ≠ some .dir) (htype : (s.node i).type ≠ none)
    (hn : n = tally s.node (counted i) + extra' i) (hother : ∀ j, j ≠ i → extra' j = extra j)
    (hpos : 0 < s.ref i)
    : (s.setNlink i n).Inv extra' held := by
  have hold : ¬ (s.node i).Linked := fun hl => hfile hl.1
  have hnew : ¬ ({ s.node i with nlink := n } : Dinode).Linked := fun hl => hfile hl.1
  refine h.setNodes ?_ (h.fits.update (fun hnone => absurd hnone htype) ?_ (fun _ _ => hpos))
  . apply h.tree.setFile (h.tree.type_ne_zero htype) hold hnew
    . intro hnone
      exact absurd hnone htype
    . intro _
      exact hn
    . exact hother
  . intro q hq
    exact absurd (h.cwd q i hq) hold

theorem cwd_iput (s : DirSys) (i : Inum) : (s.iput i).cwd = s.cwd ∧ (s.iput i).ofile = s.ofile := by
  unfold DirSys.iput
  dsimp only
  split
  . exact ⟨rfl, rfl⟩
  . exact ⟨rfl, rfl⟩

theorem linkBad (h : s.Inv (refs (some ip)) (refs (some ip))) (hfile : (s.node ip).type ≠ some .dir)
    : Outcome E (s.linkBad ip) (fun t => t.Inv 0 0 ∧ t.cwd = s.cwd) := by
  unfold DirSys.linkBad
  rcases h.ilock (i := ip) (by simp) with ⟨t, ht, htinv, hvalid, hsame⟩
  rw [ht, Fold.ok_bind]
  have htype := htinv.valid ip hvalid
  have hcount := htinv.tree.nlink ip htype
  rw [refs_self] at hcount
  rw [← hsame.node] at hfile
  have hset := htinv.setNlink 0 hfile htype
    (show (t.node ip).nlink - 1 = tally t.node (counted ip) + (0 : Inum → Int) ip by
      simp only [Pi.zero_apply]
      omega)
    (fun j hj => by
      rw [refs_of_ne hj]
      rfl)
    (htinv.ref_pos (by simp))
  have hput := hset.iput (i := ip) (le_refl _) (by simp) hvalid
  exact ⟨hput.congr (fun j => by simp), (cwd_iput _ _).1.trans hsame.cwd⟩

def Entered (s : DirSys) (p : Fin NPROC) (path : DirPath) (r : Int × DirSys) : Prop :=
  r.2.Inv 0 0 ∧ r.2.cwd = s.cwd ∧
    (r.1 ≠ -1 → ∃ dp, s.nameiparent p path = some dp ∧ HasName (r.2.node dp) path.last)

theorem Entered.failed (h : t.Inv 0 0) (hcwd : t.cwd = s.cwd) (p : Fin NPROC) (path : DirPath)
    : Entered s p path (-1, t) :=
  ⟨h, hcwd, fun hne => absurd rfl hne⟩

theorem raiseNlink (h : s.Inv 0 (refs (some ip))) (hfile : (s.node ip).type ≠ some .dir)
    (htype : (s.node ip).type ≠ none) {t : DirSys} (ht : s.setNlink ip ((s.node ip).nlink + 1) = t)
    : t.Inv (refs (some ip)) (refs (some ip)) ∧ t.cwd = s.cwd ∧
        (t.node ip).nlink = (s.node ip).nlink + 1 ∧
        ∀ j, (t.node j).type = (s.node j).type ∧ (t.node j).ents = (s.node j).ents := by
  have hcount := h.tree.nlink ip htype
  simp only [Pi.zero_apply, add_zero] at hcount
  have hraised : (s.node ip).nlink + 1 = tally s.node (counted ip) + refs (some ip) ip := by
    rw [refs_self]
    omega
  subst ht
  refine ⟨h.setNlink _ hfile htype hraised (fun j hj => refs_of_ne hj) (h.ref_pos (by simp)), rfl, ?_, ?_⟩
  . unfold DirSys.setNlink
    rw [node_setNode]
  . intro j
    unfold DirSys.setNlink
    by_cases hj : j = ip
    . rw [hj, node_setNode]
      exact ⟨rfl, rfl⟩
    . rw [node_setNode_of_ne _ _ hj]
      exact ⟨rfl, rfl⟩

theorem linkEntry {name : String}
    (h : s.Inv (refs (some ip)) (fun j => refs (some ip) j + refs (some dp) j))
    (hdp : (s.node dp).Linked) (hfile : (s.node ip).type ≠ some .dir) (hn : 0 < (s.node ip).nlink)
    (hfresh : findEnt (s.node dp).ents name = none) {t : DirSys}
    (ht : s.setNode dp { s.node dp with ents := insertEnt ⟨ip, name⟩ (s.node dp).ents } = t)
    : ((t.iput dp).iput ip).Inv 0 0 ∧ ((t.iput dp).iput ip).cwd = s.cwd ∧
        HasName (((t.iput dp).iput ip).node dp) name := by
  have htype : (s.node ip).type ≠ none := h.live ip (h.ref_pos (by
    have := refs_nonneg (some dp) ip
    rw [refs_self]
    omega))
  have hlinked : ¬ (s.node ip).Linked := fun hl => hfile hl.1
  have hne : dp ≠ ip := by
    intro heq
    rw [heq] at hdp
    exact hlinked hdp
  have hdpn : (s.node dp).nlink ≠ 0 := by
    have := hdp.2
    omega
  have htree := h.tree.insertFile hdp htype hlinked (h.fresh_name hdp hfresh)
  rw [refs_sub_self] at htree
  have hinv : t.Inv 0 (fun j => refs (some ip) j + refs (some dp) j) := by
    rw [← ht]
    exact h.setNodes htree (h.fits.update (fun hnone => hnone) (fun _ _ => hdp)
      (fun _ hz => absurd hz hdpn))
  have hput := hinv.iput_linked (i := dp) (by
    rw [← ht, node_setNode]
    exact hdpn)
  have hput' := hput.1.iput_linked (i := ip) (by
    rw [hput.2.1.node, ← ht, node_setNode_of_ne _ _ (Ne.symm hne)]
    omega)
  refine ⟨hput'.1.congr (fun j => by simp only [Pi.zero_apply]; omega), ?_, ⟨ip, name⟩, ?_, ?_, rfl⟩
  . rw [hput'.2.1.cwd, hput.2.1.cwd, ← ht]
    rfl
  . rw [hput'.2.1.node, hput.2.1.node, ← ht, node_setNode]
    exact mem_insertEnt _ _
  . exact h.tree.type_ne_zero htype

theorem link_outcome (h : s.Inv 0 0) (hcwd : s.cwd p ≠ none) (old new : DirPath)
    (hfull : ∀ dp, s.nameiparent p new = some dp → findEnt (s.node dp).ents new.last = none →
      Full (s.node dp) → E (.panic "dirlink"))
    (hself : ∀ dp, s.nameiparent p new = some dp → ⟨dp, new.last⟩ ∈ (s.node dp).ents → E .diverges)
    : Outcome E (s.sysLink p old new) (Entered s p new) := by
  unfold DirSys.sysLink
  apply (h.namex_outcome nonneg nonneg hcwd old false).bind
  rintro ⟨o, t⟩ ⟨⟨ht, hsame, hfound⟩, _⟩
  dsimp only at ht hsame hfound
  have ht : t.Inv 0 (refs o) := ht.congr (fun j => by simp)
  cases o with
  | none => exact .failed (ht.congr (fun j => by simp)) hsame.cwd p new
  | some ip =>
    have hgood := (hfound ip rfl).1.of_node hsame.node
    dsimp only
    rcases ht.ilock (i := ip) (by simp) with ⟨t1, ht1, hinv1, _, hsame1⟩
    rw [ht1, Fold.ok_bind]
    have hgood := hgood.of_node hsame1.node
    have hn : (t1.node ip).nlink ≠ 0 := by
      have := hgood.2
      omega
    split
    . have hput := hinv1.iput_linked hn
      exact .failed (hput.1.congr (fun j => by simp)) ((hput.2.1.cwd.trans hsame1.cwd).trans hsame.cwd)
        p new
    next hfile =>
      generalize ht2 : t1.setNlink ip ((t1.node ip).nlink + 1) = t2
      rcases hinv1.raiseNlink hfile hgood.1 ht2 with ⟨hinv2, hcwd2, hnlink2, hnode1⟩
      have hcwds : t2.cwd = s.cwd := (hcwd2.trans hsame1.cwd).trans hsame.cwd
      -- the link count has no part in where the path leads
      have hnode2 : ∀ j, (t2.node j).type = (s.node j).type ∧ (t2.node j).ents = (s.node j).ents := by
        intro j
        rw [← hsame.node, ← hsame1.node]
        exact hnode1 j
      have hip2 : (t2.node ip).type ≠ some .dir := by
        rw [(hnode1 ip).1]
        exact hfile
      have hipn2 : 0 < (t2.node ip).nlink := by
        have := hgood.2
        omega
      apply (hinv2.namex_outcome (refs_nonneg _) (refs_nonneg _) (by rw [hcwds]; exact hcwd) new true).bind
      rintro ⟨o, u⟩ ⟨⟨hu, husame, hufound⟩, htarget⟩
      dsimp only at hu husame hufound htarget
      rw [nameiparent_congr hnode2 hcwds] at htarget
      rw [← husame.node] at hip2 hipn2
      cases o with
      | none =>
        have hu : u.Inv (refs (some ip)) (refs (some ip)) := hu.congr (fun j => by simp)
        apply (hu.linkBad hip2).bind
        rintro v ⟨hv, hvcwd⟩
        exact .failed hv ((hvcwd.trans husame.cwd).trans hcwds) p new
      | some dp =>
        have htarget := (htarget rfl).symm
        have hdp := (hufound dp rfl).2 rfl
        rw [← husame.node] at hdp
        dsimp only
        have hheld : ∀ j, 0 ≤ refs (some ip) j + refs (some dp) j := by
          intro j
          have := refs_nonneg (some ip) j
          have := refs_nonneg (some dp) j
          omega
        rcases hu.ilock (i := dp) (by
          have := refs_nonneg (some ip) dp
          rw [refs_self]
          omega) with ⟨u1, hu1, huinv1, _, husame1⟩
        rw [hu1, Fold.ok_bind]
        rw [← husame1.node] at hip2 hipn2 hdp
        have hdpn : (u1.node dp).nlink ≠ 0 := by
          have := hdp.2
          omega
        have hents : (u1.node dp).ents = (s.node dp).ents := by
          rw [husame1.node, husame.node, (hnode2 dp).2]
        rcases huinv1.dirlookup (refs_nonneg _) hheld hdp new.last with
          ⟨hnone, hfresh⟩ | ⟨off, e, v, hv, hoff, _, hename, hegood, hvinv, hvsame⟩
        . have hfull1 : Full (u1.node dp) → E (.panic "dirlink") := by
            intro hfull1
            unfold Full at hfull1
            rw [hents] at hfull1 hfresh
            exact hfull dp htarget hfresh hfull1
          apply (dirlink_fresh u1 dp ip new.last hdp.1 hfresh hfull1).bind
          rintro _ ⟨rfl, _⟩
          dsimp only
          rw [if_neg (by decide)]
          rcases huinv1.linkEntry hdp hip2 hipn2 hfresh rfl with ⟨hinv, hcwd', hname⟩
          refine ⟨hinv, ?_, fun _ => ⟨dp, htarget, hname⟩⟩
          exact ((hcwd'.trans husame1.cwd).trans husame.cwd).trans hcwds
        . by_cases heq : e.inum = dp
          . have hlink : u1.dirlink dp new.last ip = .error .diverges := by
              unfold dirlink
              rw [hv, Fold.ok_bind]
              exact if_pos heq
            rw [hlink]
            apply hself dp htarget
            rw [← hents, ← heq, ← hename]
            exact List.mem_of_getElem? (heq ▸ hoff)
          have hlink : u1.dirlink dp new.last ip = .ok (false, v.iput e.inum) := by
            unfold dirlink
            rw [hv, Fold.ok_bind]
            exact if_neg heq
          rw [hlink, Fold.ok_bind]
          dsimp only
          rw [if_pos rfl]
          have hen : (v.node e.inum).nlink ≠ 0 := by
            rw [hvsame.node]
            have := hegood.2
            omega
          have hput := hvinv.iput_linked hen
          have hdpn' : ((v.iput e.inum).node dp).nlink ≠ 0 := by
            rw [hput.2.1.node, hvsame.node]
            exact hdpn
          have hput' := hput.1.iput_linked hdpn'
          have hbad : ((v.iput e.inum).iput dp).Inv (refs (some ip)) (refs (some ip)) :=
            hput'.1.congr (fun j => by omega)
          have hip3 : (((v.iput e.inum).iput dp).node ip).type ≠ some .dir := by
            rw [hput'.2.1.node, hput.2.1.node, hvsame.node]
            exact hip2
          apply (hbad.linkBad hip3).bind
          rintro w ⟨hw, hwcwd⟩
          refine .failed hw ?_ p new
          rw [hwcwd, hput'.2.1.cwd, hput.2.1.cwd, hvsame.cwd, husame1.cwd, husame.cwd, hcwds]

theorem unlink_tail {x : Dinode} (hne : dp ≠ ip) (hx : x.nlink ≠ 0)
    : ((s.setNode dp x).iput dp).setNlink ip ((((s.setNode dp x).iput dp).node ip).nlink - 1) =
        ((s.setNode dp x).setNlink ip ((s.node ip).nlink - 1)).iput dp := by
  have h1 : ((s.setNode dp x).node dp).nlink ≠ 0 := by
    rw [node_setNode]
    exact hx
  have h2 : (((s.setNode dp x).setNlink ip ((s.node ip).nlink - 1)).node dp).nlink ≠ 0 := by
    unfold DirSys.setNlink
    rw [node_setNode_of_ne _ _ hne]
    exact h1
  have h3 : (((s.setNode dp x).setRef dp ((s.setNode dp x).ref dp - 1)).node ip) = s.node ip :=
    node_setNode_of_ne s x (Ne.symm hne)
  rw [iput_eq h1, iput_eq h2, h3]
  rfl

theorem unlinkDone {x : Dinode} (h : s.Inv 0 (fun j => refs (some dp) j + refs (some ip) j))
    (hdp : (s.node dp).Linked) (hvalid : s.valid ip = true) (hne : dp ≠ ip)
    (htype : x.type = (s.node dp).type) (hx : 0 < x.nlink)
    (htree : Tree (Function.update (Function.update s.node dp x) ip
      { s.node ip with nlink := (s.node ip).nlink - 1 }) 0)
    (hcwd : ∀ q, s.cwd q ≠ some ip)
    : ((((s.setNode dp x).iput dp).setNlink ip
        ((((s.setNode dp x).iput dp).node ip).nlink - 1)).iput ip).Inv 0 0 := by
  have hpos : 0 < s.ref ip := h.ref_pos (by
    have := refs_nonneg (some dp) ip
    rw [refs_self]
    omega)
  have hiptype := h.valid ip hvalid
  rw [unlink_tail hne (by omega)]
  generalize hF : Function.update (Function.update s.node dp x) ip
    { s.node ip with nlink := (s.node ip).nlink - 1 } = F at htree
  have hnode : ((s.setNode dp x).setNlink ip ((s.node ip).nlink - 1)) = { s with node := F } := by
    unfold DirSys.setNlink
    rw [node_setNode_of_ne _ _ (Ne.symm hne), ← hF]
    rfl
  have hFdp : F dp = x := by
    rw [← hF, Function.update_of_ne hne, Function.update_self]
  rw [hnode]
  have hinv : ({ s with node := F } : DirSys).Inv 0 (fun j => refs (some dp) j + refs (some ip) j) := by
    apply h.setNodes htree
    rw [← hF]
    refine (h.fits.update (fun hnone => htype ▸ hnone) ?_ ?_).update ?_ ?_ (fun _ _ => hpos)
    . intro _ _
      exact ⟨htype.trans hdp.1, hx⟩
    . intro _ hz
      omega
    . intro hnone
      exact absurd hnone hiptype
    . intro q hq
      exact absurd hq (hcwd q)
  have hput := hinv.iput_linked (i := dp) (by
    dsimp only
    rw [hFdp]
    omega)
  have hvalid' : (({ s with node := F } : DirSys).iput dp).valid ip = true := by
    rw [hput.2.2]
    exact hvalid
  have hheld : (({ s with node := F } : DirSys).iput dp).Inv 0 (refs (some ip)) :=
    hput.1.congr (fun j => by omega)
  exact (hheld.iput (le_refl _) (by simp) hvalid').congr (fun j => by simp)

theorem sysUnlink (h : s.Inv 0 0) (hcwd : s.cwd p ≠ none) (path : DirPath)
    (hok : ∀ ip, s.unlinked p path = some ip → ∀ q, s.cwd q ≠ some ip)
    : Safe (fun t => t.Inv 0 0) (s.sysUnlink p path) := by
  unfold DirSys.sysUnlink
  have hnamex := h.namex_outcome (E := (· ≠ .panic "ilock: no type")) nonneg nonneg hcwd path true
  generalize s.namex p path true = r at hnamex
  cases r with
  | error e => exact hnamex
  | ok r =>
    rcases r with ⟨o, t⟩
    rcases hnamex with ⟨⟨ht, hsame, hfound⟩, htarget⟩
    dsimp only at ht hsame hfound htarget
    have htarget := (htarget rfl).symm
    have ht : t.Inv 0 (refs o) := ht.congr (fun j => by simp)
    rw [Fold.ok_bind]
    cases o with
    | none => exact ht.congr (fun j => by simp)
    | some dp =>
      have hdp := (hfound dp rfl).2 rfl
      rw [← hsame.node] at hdp
      dsimp only
      rcases ht.ilock (i := dp) (by simp) with ⟨t1, ht1, hinv1, _, hsame1⟩
      rw [ht1, Fold.ok_bind]
      rw [← hsame1.node] at hdp
      have hdpn : (t1.node dp).nlink ≠ 0 := by
        have := hdp.2
        omega
      have hdone : ∀ u : DirSys, u.Inv 0 (refs (some dp)) → u.node = t1.node → (u.iput dp).Inv 0 0 := by
        intro u hu hnode
        have hn : (u.node dp).nlink ≠ 0 := by
          rw [hnode]
          exact hdpn
        exact (hu.iput_linked hn).1.congr (fun j => by simp)
      split
      . exact hdone t1 hinv1 rfl
      next hdots =>
        have hname := hdots
        rw [not_or] at hdots
        rcases hinv1.dirlookup nonneg (refs_nonneg _) hdp path.last with
          ⟨hnone, _⟩ | ⟨off, e, u, hu, hoff, hinum, hename, hegood, huinv, husame⟩
        . rw [hnone, Fold.ok_bind]
          exact hdone t1 hinv1 rfl
        . rw [hu, Fold.ok_bind]
          dsimp only
          rw [← hename] at hdots
          rcases huinv.ilock (i := e.inum) (by
            have := refs_nonneg (some dp) e.inum
            rw [refs_self]
            omega) with ⟨v, hv, hvinv, hvvalid, hvsame⟩
          rw [hv, Fold.ok_bind]
          have hnode : v.node = t1.node := hvsame.node.trans husame.node
          have hen := hegood.2
          rw [← hnode] at hdp hdpn hoff hen
          rw [if_neg (by omega)]
          split
          . -- the directory is not empty
            have hput := hvinv.iput_linked (i := e.inum) (by omega)
            apply hdone
            . exact hput.1.congr (fun j => by omega)
            . rw [hput.2.1.node, hnode]
          next hbusy =>
            have hnodes : v.node = s.node := by
              rw [hnode, hsame1.node, hsame.node]
            have hunlinked : s.unlinked p path = some e.inum := by
              have hfind := findEnt_of_dirlookup hu
              unfold unlinked
              rw [hnode.symm.trans hnodes] at hfind
              rw [htarget]
              dsimp only
              rw [if_neg hname, hfind]
              dsimp only
              rw [← hnodes, hoff]
              exact if_neg hbusy
            have hvcwd : v.cwd = s.cwd := by
              rw [hvsame.cwd, husame.cwd, hsame1.cwd, hsame.cwd]
            by_cases hdir : (v.node e.inum).type = some .dir
            . have hempty : isdirempty (v.node e.inum) = true := by
                by_contra hne
                exact hbusy ⟨hdir, by simpa using hne⟩
              rcases hvinv.tree.rmdir hdp hoff hinum hdots hdir hempty with ⟨hne, hone, hlink, htree⟩
              have hstill : ((v.setNode dp { v.node dp with
                  ents := (v.node dp).ents.set off ⟨0, ""⟩ }).node e.inum).type = some .dir := by
                rw [node_setNode_of_ne _ _ (Ne.symm hne)]
                exact hdir
              rw [if_pos hstill]
              have hset : (v.setNode dp { v.node dp with
                  ents := (v.node dp).ents.set off ⟨0, ""⟩ }).setNlink dp
                  (((v.setNode dp { v.node dp with
                    ents := (v.node dp).ents.set off ⟨0, ""⟩ }).node dp).nlink - 1) =
                  v.setNode dp ⟨(v.node dp).type, (v.node dp).nlink - 1,
                    (v.node dp).ents.set off ⟨0, ""⟩⟩ := by
                unfold DirSys.setNlink
                rw [node_setNode, setNode_setNode]
              rw [hset]
              show (DirSys.iput _ _).Inv 0 0
              refine hvinv.unlinkDone hdp hvvalid hne ?_ ?_ ?_ ?_
              . rfl
              . dsimp only
                omega
              . exact htree
              . rw [hvcwd]
                exact hok e.inum hunlinked
            . have hipl : ¬ (v.node e.inum).Linked := fun hl => hdir hl.1
              rcases hvinv.tree.unlinkFile hdp hoff hinum hdots hipl (hvinv.valid e.inum hvvalid) hen with
                ⟨hne, htree⟩
              have hstill : ¬ ((v.setNode dp { v.node dp with
                  ents := (v.node dp).ents.set off ⟨0, ""⟩ }).node e.inum).type = some .dir := by
                rw [node_setNode_of_ne _ _ (Ne.symm hne)]
                exact hdir
              rw [if_neg hstill]
              show (DirSys.iput _ _).Inv 0 0
              refine hvinv.unlinkDone hdp hvvalid hne ?_ ?_ ?_ ?_
              . rfl
              . exact hdp.2
              . exact htree
              . intro q hq
                exact hipl (hvinv.cwd q e.inum hq)

theorem openInode_outcome (h : s.Inv 0 0) (hcwd : s.cwd p ≠ none) (path : DirPath) (mode : OpenMode)
    (hinodes : ∀ dp, s.nameiparent p path = some dp → findEnt (s.node dp).ents path.last = none →
      (∀ i, i ≠ 0 → (s.node i).type ≠ none) → E (.panic "ialloc: no inodes"))
    (hfull : ∀ dp, s.nameiparent p path = some dp → findEnt (s.node dp).ents path.last = none →
      Full (s.node dp) → E (.panic "dirlink"))
    : Outcome E (s.openInode p path mode) (fun r => Created s r ∧ (mode.create = true →
        ∀ i, r.1 = some i → ∃ dp, s.nameiparent p path = some dp ∧ HasName (r.2.node dp) path.last)) := by
  unfold DirSys.openInode
  split
  . apply (h.create_outcome hcwd path .file hinodes hfull).mono
    rintro r ⟨hr, hname, _⟩
    exact ⟨hr, fun _ i hi => (hname i hi).2⟩
  next hcreate =>
    apply (h.namex_outcome nonneg nonneg hcwd path false).bind
    rintro ⟨o, t⟩ ⟨⟨ht, hsame, hfound⟩, _⟩
    dsimp only at ht hsame hfound
    have ht : t.Inv 0 (refs o) := ht.congr (fun j => by simp)
    cases o with
    | none =>
      refine ⟨⟨ht, hsame.cwd, hsame.ofile, ?_⟩, fun hc => absurd hc hcreate⟩
      rintro _ ⟨⟩
    | some ip =>
      have hgood := (hfound ip rfl).1.of_node hsame.node
      dsimp only
      rcases ht.ilock (i := ip) (by simp) with ⟨t1, ht1, hinv1, hvalid1, hsame1⟩
      rw [ht1, Fold.ok_bind]
      have hgood := hgood.of_node hsame1.node
      have hall := hsame.trans hsame1
      split
      . have hput := hinv1.iput_linked (i := ip) (by
          have := hgood.2
          omega)
        refine ⟨⟨hput.1.congr (fun j => by simp), ?_, ?_, ?_⟩, fun hc => absurd hc hcreate⟩
        . rw [hput.2.1.cwd]
          exact hall.cwd
        . rw [hput.2.1.ofile]
          exact hall.ofile
        . rintro _ ⟨⟩
      . refine ⟨⟨hinv1, hall.cwd, hall.ofile, ?_⟩, fun hc => absurd hc hcreate⟩
        intro i hi
        cases hi
        exact hvalid1

theorem putCreated (h : s.Inv 0 (refs (some ip))) (hvalid : s.valid ip = true) : (s.iput ip).Inv 0 0 :=
  (h.iput (le_refl _) (by simp) hvalid).congr (fun j => by simp)

theorem setOfile (h : s.Inv extra held) (x : Fin NPROC × Fd) (o : Option Inum)
    (hvalid : ∀ i, o = some i → s.valid i = true)
    : ({ s with ofile := Function.update s.ofile x o } : DirSys).Inv extra
        (fun i => held i + refs (s.ofile x) i - refs o i) where
  tree := h.tree
  ref := by
    intro i
    dsimp only
    rw [occ_update_refs, h.ref i]
    omega
  valid := h.valid
  cached := by
    intro i hi
    by_cases ho : o = some i
    . exact hvalid i ho
    . have hle := occ_update_le s.ofile x ho
      apply h.cached i
      dsimp only at hi
      omega
  live := h.live
  cwd := h.cwd
  orphan := h.orphan

theorem setCwd (h : s.Inv extra held) (q : Fin NPROC) (o : Option Inum)
    (hvalid : ∀ i, o = some i → s.valid i = true ∧ (s.node i).Linked)
    : ({ s with cwd := Function.update s.cwd q o } : DirSys).Inv extra
        (fun i => held i + refs (s.cwd q) i - refs o i) where
  tree := h.tree
  ref := by
    intro i
    dsimp only
    rw [occ_update_refs, h.ref i]
    omega
  valid := h.valid
  cached := by
    intro i hi
    by_cases ho : o = some i
    . exact (hvalid i ho).1
    . have hle := occ_update_le s.cwd q ho
      apply h.cached i
      dsimp only at hi
      omega
  live := h.live
  cwd := by
    intro r d hr
    have hr : (Function.update s.cwd q o) r = some d := hr
    by_cases hrq : r = q
    . rw [hrq, Function.update_self] at hr
      exact (hvalid d hr).2
    . rw [Function.update_of_ne hrq] at hr
      exact h.cwd r d hr
  orphan := h.orphan

theorem open_outcome (h : s.Inv 0 0) (hcwd : s.cwd p ≠ none) (path : DirPath) (mode : OpenMode)
    (hinodes : ∀ dp, s.nameiparent p path = some dp → findEnt (s.node dp).ents path.last = none →
      (∀ i, i ≠ 0 → (s.node i).type ≠ none) → E (.panic "ialloc: no inodes"))
    (hfull : ∀ dp, s.nameiparent p path = some dp → findEnt (s.node dp).ents path.last = none →
      Full (s.node dp) → E (.panic "dirlink"))
    : Outcome E (s.sysOpen p path mode) (fun r =>
        r.2.Inv 0 0 ∧ (mode.create = true → Entered s p path r)) := by
  unfold DirSys.sysOpen
  apply (h.openInode_outcome hcwd path mode hinodes hfull).bind
  rintro ⟨o, t⟩ ⟨⟨ht, htcwd, _, hvalid⟩, hname⟩
  dsimp only at ht htcwd hvalid hname
  cases o with
  | none =>
    have hinv : t.Inv 0 0 := ht.congr fun j => by simp
    exact ⟨hinv, fun _ => .failed hinv htcwd p path⟩
  | some ip =>
    have hput := ht.putCreated (hvalid ip rfl)
    have hclosed : Entered s p path (-1, t.iput ip) :=
      .failed hput ((cwd_iput t ip).1.trans htcwd) p path
    dsimp only
    cases hfind : (List.finRange NOFILE).find? (fun fd => t.ofile (p, fd) = none) with
    | none => exact ⟨hput, fun _ => hclosed⟩
    | some fd =>
      have hnone : t.ofile (p, fd) = none := by simpa using List.find?_some hfind
      dsimp only
      split
      . have hinv : ({ t with ofile := Function.update t.ofile (p, fd) (some ip) } : DirSys).Inv 0 0 := by
          apply (ht.setOfile (p, fd) (some ip) hvalid).congr
          intro j
          rw [hnone]
          simp
        exact ⟨hinv, fun hc => ⟨hinv, htcwd, fun _ => hname hc ip rfl⟩⟩
      . exact ⟨hput, fun _ => hclosed⟩

theorem make_outcome (h : s.Inv 0 0) (hcwd : s.cwd p ≠ none) (path : DirPath) (type : InodeType)
    (hinodes : ∀ dp, s.nameiparent p path = some dp → findEnt (s.node dp).ents path.last = none →
      (∀ i, i ≠ 0 → (s.node i).type ≠ none) → E (.panic "ialloc: no inodes"))
    (hfull : ∀ dp, s.nameiparent p path = some dp → findEnt (s.node dp).ents path.last = none →
      Full (s.node dp) → E (.panic "dirlink"))
    : Outcome E (s.sysMake p path type) (Entered s p path) := by
  unfold DirSys.sysMake
  apply (h.create_outcome hcwd path type hinodes hfull).bind
  rintro ⟨o, t⟩ ⟨⟨ht, htcwd, _, _⟩, hname, _⟩
  dsimp only at ht htcwd hname
  cases o with
  | none => exact .failed (ht.congr fun j => by simp) htcwd p path
  | some ip =>
    rcases hname ip rfl with ⟨hlinks, dp, htarget, hdp⟩
    have hput := ht.iput_linked hlinks
    refine ⟨hput.1.congr fun j => by simp, hput.2.1.cwd.trans htcwd, fun _ => ⟨dp, htarget, ?_⟩⟩
    dsimp only
    rw [hput.2.1.node]
    exact hdp

theorem sysChdir (h : s.Inv 0 0) (hcwd : s.cwd p ≠ none) (path : DirPath)
    : Safe (fun t => t.Inv 0 0) (s.sysChdir p path) := by
  unfold DirSys.sysChdir
  apply (h.namex nonneg nonneg hcwd path false).bind
  rintro ⟨o, t⟩ ⟨ht, hsame, hfound⟩
  dsimp only at ht hsame hfound
  have ht : t.Inv 0 (refs o) := ht.congr (fun j => by simp)
  cases o with
  | none => exact ht.congr (fun j => by simp)
  | some ip =>
    have hgood := (hfound ip rfl).1.of_node hsame.node
    dsimp only
    rcases ht.ilock (i := ip) (by simp) with ⟨t1, ht1, hinv1, hvalid1, hsame1⟩
    rw [ht1, Fold.ok_bind]
    have hgood := hgood.of_node hsame1.node
    split
    . exact hinv1.putCreated hvalid1
    next hdir =>
      have hdir : (t1.node ip).type = some .dir := by simpa using hdir
      split
      next hnone =>
        rw [hsame1.cwd, hsame.cwd] at hnone
        exact absurd hnone hcwd
      next cwd hcwd1 =>
        -- the old directory is given up while it is still the cwd
        have hput := hinv1.iput_linked (i := cwd) (by
          have := (hinv1.cwd p cwd hcwd1).2
          omega)
        refine (hput.1.setCwd p (some ip) ?_).congr ?_
        . intro i hi
          cases hi
          rw [hput.2.2, hput.2.1.node]
          exact ⟨hvalid1, hgood.linked hdir⟩
        . intro j
          rw [hput.2.1.cwd, hcwd1]
          simp

theorem close (h : s.Inv 0 0) (p : Fin NPROC) (fd : Fd)
    : (s.close p fd).Inv 0 0 ∧ (s.close p fd).cwd = s.cwd := by
  unfold DirSys.close
  split
  . exact ⟨h, rfl⟩
  next ip hip =>
    have hvalid : s.valid ip = true := by
      apply h.cached ip
      have := occ_pos hip
      omega
    have hset : ({ s with ofile := Function.update s.ofile (p, fd) none } : DirSys).Inv 0
        (refs (some ip)) := by
      refine (h.setOfile (p, fd) none (by nofun)).congr ?_
      intro j
      rw [hip]
      simp
    exact ⟨hset.putCreated hvalid, (cwd_iput _ ip).1⟩

theorem exit (h : s.Inv 0 0) (hcwd : s.cwd p ≠ none) : Safe (fun t => t.Inv 0 0) (s.exit p) := by
  have hfiles : ∀ fds : List Fd, ∀ s : DirSys, s.Inv 0 0 →
      (fds.foldl (fun s fd => s.close p fd) s).Inv 0 0 ∧
        (fds.foldl (fun s fd => s.close p fd) s).cwd = s.cwd := by
    intro fds
    induction fds with
    | nil =>
      intro s hs
      exact ⟨hs, rfl⟩
    | cons fd fds ih =>
      intro s hs
      have hclose := hs.close p fd
      have hrest := ih (s.close p fd) hclose.1
      exact ⟨hrest.1, hrest.2.trans hclose.2⟩
  unfold DirSys.exit
  dsimp only
  rcases hfiles (List.finRange NOFILE) s h with ⟨ht, htcwd⟩
  generalize (List.finRange NOFILE).foldl (fun s fd => s.close p fd) s = t at ht htcwd
  split
  next hnone =>
    rw [htcwd] at hnone
    exact absurd hnone hcwd
  next cwd hcwd1 =>
    have hput := ht.iput_linked (i := cwd) (by
      have := (ht.cwd p cwd hcwd1).2
      omega)
    refine (hput.1.setCwd p none (by nofun)).congr ?_
    intro j
    rw [hput.2.1.cwd, hcwd1]
    simp

end Inv

end DirSys
end Xv6
