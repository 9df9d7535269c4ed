import Xv6.Dir.Lemmas.Links

/-!
A call that adds a name to a directory returns as long as there is room in the directory; dirlink
panics when there is none.
-/

namespace Xv6
namespace DirSys

variable {s t : DirSys} {p : Fin NPROC} {D : Inum} {E : Fault → Prop}

namespace Inv

theorem add_outcome (h : s.Inv 0 0) (hcwd : s.cwd p ≠ none) (a : Add)
    (hinodes : ∀ dp, s.nameiparent p a.path = some dp → findEnt (s.node dp).ents a.path.last = none →
      (∀ i, i ≠ 0 → (s.node i).type ≠ none) → E (.panic "ialloc: no inodes"))
    (hfull : ∀ dp, s.nameiparent p a.path = some dp → findEnt (s.node dp).ents a.path.last = none →
      Full (s.node dp) → E (.panic "dirlink"))
    (hself : ∀ dp old new, a = .link old new → s.nameiparent p new = some dp →
      ⟨dp, new.last⟩ ∈ (s.node dp).ents → E .diverges)
    : Outcome E (s.add p a) (Entered s p a.path) := by
  cases a with
  | link old new => exact h.link_outcome hcwd old new hfull fun dp => hself dp old new rfl
  | «open» path rdonly filealloc =>
    exact (h.open_outcome hcwd path ⟨true, rdonly, filealloc⟩ hinodes hfull).mono fun r hr => hr.2 rfl
  | mkdir path => exact h.make_outcome hcwd path .dir hinodes hfull
  | mknod path => exact h.make_outcome hcwd path .dev hinodes hfull

end Inv

-- No new name gets into a full directory, whatever the type of the inode.
theorem Inv.create_full (h : s.Inv 0 0) (hcwd : s.cwd p ≠ none) {path : DirPath} (type : InodeType)
    (hparent : s.nameiparent p path = some D) (hfull : Full (s.node D))
    (hfresh : findEnt (s.node D).ents path.last = none) {i : Inum} (hi : i ≠ 0)
    (hfree : (s.node i).type = none)
    : s.create p path type = .error (.panic "dirlink") := by
  have houtcome := h.create_outcome (E := (· = .panic "dirlink")) hcwd path type
    (fun _ _ _ hnone => absurd hfree (hnone i hi)) (fun _ _ _ _ => rfl)
  cases hcreate : s.create p path type with
  | ok r =>
    rw [hcreate] at houtcome
    exact absurd hfull (houtcome.2.2 D hparent hfresh)
  | error e =>
    rw [hcreate] at houtcome
    exact congrArg Except.error houtcome

theorem findEnt_ne_none {x : Dinode} {name : String} (h : HasName x name) : findEnt x.ents name ≠ none := by
  intro hnone
  rcases h with ⟨e, he, hinum, hname⟩
  exact findEnt_none hnone e he hinum hname

theorem Inv.dirlink_reports (h : s.Inv 0 0) (hD : (s.node D).Linked) {name : String}
    (hroom : ¬ Full (s.node D) ∨ HasName (s.node D) name) (hself : ⟨D, name⟩ ∉ (s.node D).ents)
    {i : Inum} (hi : i ≠ 0)
    : ∃ ok t, s.dirlink D name i = .ok (ok, t) ∧ (ok = true → HasName (t.node D) name) ∧
        (ok = false → t.node = s.node) := by
  rcases h.dirlookup nonneg nonneg hD name with
    ⟨_, hfresh⟩ | ⟨off, e, t, ht, hoff, _, hename, hgood, htinv, htsame⟩
  . have hlink := dirlink_fresh (E := fun _ => False) s D i name hD.1 hfresh
      (fun hfull => hroom.elim (fun h => h hfull) fun h => findEnt_ne_none h hfresh)
    generalize s.dirlink D name i = r at hlink ⊢
    cases r with
    | error e => exact hlink.elim
    | ok r =>
      rcases hlink with ⟨rfl, _⟩
      refine ⟨true, _, rfl, fun _ => ⟨⟨i, name⟩, ?_, hi, rfl⟩, nofun⟩
      rw [node_setNode]
      exact mem_insertEnt _ _
  . have hne : e.inum ≠ D := by
      rintro rfl
      apply hself
      rw [← hename]
      exact List.mem_of_getElem? hoff
    refine ⟨false, t.iput e.inum, ?_, nofun, fun _ => ?_⟩
    . unfold DirSys.dirlink
      rw [ht, Fold.ok_bind]
      exact if_neg hne
    . have hlinks : (t.node e.inum).nlink ≠ 0 := by
        rw [htsame.node]
        have := hgood.2
        omega
      rw [(htinv.iput_linked hlinks).2.1.node, htsame.node]

structure AddEvent where
  p : Fin NPROC
  add : Add

def AddStep (s : DirSys) (e : AddEvent) (t : DirSys) : Prop := ∃ r, s.add e.p e.add = .ok (r, t)

/--
The call is to add a name to the directory `D`, which has room for it if it does not have it, and an
inode is free. A link would wait for the lock of the directory that has the name for itself.
-/
structure Adds (D : Inum) (s : DirSys) (e : AddEvent) : Prop where
  cwd : s.cwd e.p ≠ none
  parent : s.nameiparent e.p e.add.path = some D
  name : ∀ old new, e.add = .link old new → ⟨D, new.last⟩ ∉ (s.node D).ents
  room : ¬ Full (s.node D) ∨ HasName (s.node D) e.add.path.last
  inode : (∃ i, i ≠ 0 ∧ (s.node i).type = none) ∨ HasName (s.node D) e.add.path.last

theorem Adds.returns {e : AddEvent} (he : Adds D s e) (h : s.Inv 0 0)
    : ∃ r t, s.add e.p e.add = .ok (r, t) ∧ t.Inv 0 0 ∧ (r ≠ -1 → HasName (t.node D) e.add.path.last) := by
  have houtcome : Outcome (fun _ => False) (s.add e.p e.add) (Inv.Entered s e.p e.add.path) := by
    apply h.add_outcome he.cwd
    . intro dp hdp hfresh hused
      cases he.parent.symm.trans hdp
      rcases he.inode with ⟨i, hi, hfree⟩ | hname
      . exact hused i hi hfree
      . exact findEnt_ne_none hname hfresh
    . intro dp hdp hfresh hfull
      cases he.parent.symm.trans hdp
      exact he.room.elim (fun h => h hfull) fun hname => findEnt_ne_none hname hfresh
    . intro dp old new hlink hdp hself
      have hparent := he.parent
      rw [hlink] at hparent
      cases hparent.symm.trans hdp
      exact he.name old new hlink hself
  generalize s.add e.p e.add = r at houtcome ⊢
  rcases r with _ | ⟨r, t⟩
  . exact houtcome.elim
  . rcases houtcome with ⟨ht, _, hname⟩
    refine ⟨r, t, rfl, ht, ?_⟩
    intro hr
    rcases hname hr with ⟨dp, hdp, hentry⟩
    rw [he.parent] at hdp
    cases hdp
    exact hentry

theorem Inv.of_addRun {es : List AddEvent} (hrun : Transition.Run AddStep (Adds D) s es t)
    (h : s.Inv 0 0)
    : t.Inv 0 0 := by
  refine hrun.invariant (P := fun s => s.Inv 0 0) ?_ h
  rintro s e t hs he ⟨r, hstep⟩
  rcases he.returns hs with ⟨r', t', hstep', ht, _⟩
  rw [hstep] at hstep'
  cases hstep'
  exact ht

theorem Inv.nameiparent_linked {path : DirPath} (h : s.Inv 0 0) (hcwd : s.cwd p ≠ none)
    (hparent : s.nameiparent p path = some D)
    : (s.node D).Linked := by
  have houtcome := h.namex_outcome (E := fun _ => False) nonneg nonneg hcwd path true
  generalize s.namex p path true = r at houtcome
  cases r with
  | error e => exact houtcome.elim
  | ok r =>
    rcases houtcome with ⟨⟨_, _, hfound⟩, htarget⟩
    rw [hparent] at htarget
    exact (hfound D (htarget rfl)).2 rfl

/--
After any number of calls that have added names to a directory, the next call returns if there is
room. It returns -1, or the name is there.
-/
theorem filling_directory {es : List AddEvent} (h : s.Inv 0 0)
    (hrun : Transition.Run AddStep (Adds D) s es t) {e : AddEvent} (he : Adds D t e)
    : (∃ r u, t.add e.p e.add = .ok (r, u) ∧ u.Inv 0 0 ∧
        (r ≠ -1 → HasName (u.node D) e.add.path.last)) ∧
      ∀ name i, i ≠ 0 → ¬ Full (t.node D) ∨ HasName (t.node D) name → ⟨D, name⟩ ∉ (t.node D).ents →
        ∃ ok u, t.dirlink D name i = .ok (ok, u) ∧
          (ok = true → HasName (u.node D) name) ∧ (ok = false → u.node = t.node) := by
  have ht := Inv.of_addRun hrun h
  refine ⟨he.returns ht, ?_⟩
  intro name i hi hroom hself
  exact ht.dirlink_reports (ht.nameiparent_linked he.cwd he.parent) hroom hself hi

def threeAdds : List AddEvent :=
  [⟨0, .mknod (root ["a"])⟩, ⟨1, .mkdir (here ["d"])⟩, ⟨0, .mknod (root ["d"])⟩]

-- the third call fails, because the name is there
theorem filling_directory_mkfs
    : ∃ t, Transition.Run AddStep (Adds rootIno) mkfs threeAdds t ∧
        Adds rootIno t ⟨1, .link (root ["a"]) (root ["b"])⟩ ∧
        ∃ u, t.add 1 (.link (root ["a"]) (root ["b"])) = .ok (0, u) ∧ HasName (u.node rootIno) "b" := by
  have hroom : ∀ x : Dinode, x.ents.length < NDIRENT → ¬ Full x :=
    fun x hx hfull => absurd hfull.1 (Nat.not_le.mpr hx)
  have hrun : Transition.Run AddStep (Adds rootIno) mkfs threeAdds _ :=
    .cons ⟨by decide, rfl, nofun, .inl (hroom _ (by decide)), .inl ⟨2, by decide, rfl⟩⟩ ⟨0, rfl⟩ <|
    .cons ⟨by decide, rfl, nofun, .inl (hroom _ (by decide)), .inl ⟨3, by decide, rfl⟩⟩ ⟨0, rfl⟩ <|
    .cons ⟨by decide, rfl, nofun, .inl (hroom _ (by decide)), .inl ⟨4, by decide, rfl⟩⟩ ⟨-1, rfl⟩ (.nil _)
  have hreturns : ∀ t, Transition.Run AddStep (Adds rootIno) mkfs threeAdds t →
      Adds rootIno t ⟨1, .link (root ["a"]) (root ["b"])⟩ →
      Prod.fst <$> t.add 1 (.link (root ["a"]) (root ["b"])) = .ok 0 →
      ∃ u, t.add 1 (.link (root ["a"]) (root ["b"])) = .ok (0, u) ∧ HasName (u.node rootIno) "b" := by
    intro t hrun hadds hzero
    rcases (filling_directory mkfs_start.inv hrun hadds).1 with ⟨r, u, hadd, _, hname⟩
    rw [hadd] at hzero ⊢
    cases hzero
    exact ⟨u, rfl, hname (by decide)⟩
  refine ⟨_, hrun, ?_⟩
  refine (and_iff_left_of_imp fun hadds => hreturns _ hrun hadds rfl).mpr ?_
  exact ⟨by decide, rfl, by rintro _ _ ⟨⟩; decide, .inl (hroom _ (by decide)), .inl ⟨4, by decide, rfl⟩⟩

def letters (k : Nat) : String :=
  String.ofList [Char.ofNat (97 + k / 676), Char.ofNat (97 + k / 26 % 26), Char.ofNat (97 + k % 26)]

abbrev crammedRest : List Dirent := (List.range (NDIRENT - 2)).map fun k => ⟨2, letters k⟩

def crammed : DirSys :=
  { mkfs with
    node := fun i =>
      if i = rootIno then
        ⟨some .dir, 1, ⟨rootIno, "."⟩ :: ⟨rootIno, ".."⟩ :: crammedRest⟩
      else if i = 2 then
        ⟨some .file, (NDIRENT - 2 : Nat), []⟩
      else
        ⟨none, 0, []⟩ }

theorem letters_length (k : Nat) : (letters k).length = 3 := by
  unfold letters
  rw [String.length_ofList]
  rfl

theorem letters_inj {j k : Nat} (hj : j < 17576) (hk : k < 17576) (h : letters j = letters k)
    : j = k := by
  have hchar : ∀ a, a < 26 → ∀ b, b < 26 → Char.ofNat (97 + a) = Char.ofNat (97 + b) → a = b := by
    decide +kernel
  unfold letters at h
  have hlist := String.ofList_injective h
  simp only [List.cons.injEq, and_true] at hlist
  rcases hlist with ⟨h1, h2, h3⟩
  have h1 := hchar _ (by omega) _ (by omega) h1
  have h2 := hchar _ (by omega) _ (by omega) h2
  have h3 := hchar _ (by omega) _ (by omega) h3
  omega

theorem crammed_rest {e : Dirent} (he : e ∈ crammedRest) : e.inum = 2 ∧ e.name.length = 3 := by
  rcases List.mem_map.1 he with ⟨k, _, rfl⟩
  exact ⟨rfl, letters_length k⟩

theorem crammed_name {e : Dirent} (he : e ∈ crammedRest) {name : String} (hname : name.length ≠ 3)
    : e.name ≠ name := by
  rintro rfl
  exact hname (crammed_rest he).2

theorem crammed_names : ((crammed.node rootIno).ents.map Dirent.name).Nodup := by
  have hnot : ∀ name : String, name.length ≠ 3 → name ∉ crammedRest.map Dirent.name := by
    intro name hname hmem
    rcases List.mem_map.1 hmem with ⟨e, he, heq⟩
    exact crammed_name he hname heq
  show (("." : String) :: ".." :: crammedRest.map Dirent.name).Nodup
  rw [List.nodup_cons, List.nodup_cons, List.mem_cons, not_or]
  refine ⟨⟨by decide, hnot _ (by decide)⟩, hnot _ (by decide), ?_⟩
  rw [List.map_map]
  apply List.nodup_range.map_on
  intro j hj k hk hjk
  rw [List.mem_range] at hj hk
  have hNDIRENT : NDIRENT = 4480 := rfl
  exact letters_inj (by omega) (by omega) hjk

theorem crammed_inum {e : Dirent} (he : e ∈ (crammed.node rootIno).ents)
    : e.inum = rootIno ∨ e.inum = 2 := by
  rcases List.mem_cons.1 he with rfl | he
  . exact .inl rfl
  rcases List.mem_cons.1 he with rfl | he
  . exact .inl rfl
  . exact .inr (crammed_rest he).1

theorem crammed_full : Full (crammed.node rootIno) := by
  constructor
  . show crammedRest.length + 1 + 1 ≥ NDIRENT
    rw [List.length_map, List.length_range]
    decide
  . intro e he
    rcases crammed_inum he with hinum | hinum
    . rw [hinum]
      decide
    . rw [hinum]
      decide

theorem crammed_fresh : findEnt (crammed.node rootIno).ents "x" = none := by
  unfold findEnt
  rw [List.findIdx?_eq_none_iff]
  intro e he
  have hname : e.name ≠ "x" := by
    rcases List.mem_cons.1 he with rfl | he
    . decide
    rcases List.mem_cons.1 he with rfl | he
    . decide
    . exact crammed_name he (by decide)
  simp [hname]

theorem crammed_type {i : Inum} (h : (crammed.node i).type ≠ none) : i = rootIno ∨ i = 2 := by
  by_contra hne
  rcases not_or.1 hne with ⟨hroot, htwo⟩
  apply h
  unfold crammed
  dsimp only
  rw [if_neg hroot, if_neg htwo]

theorem crammed_linked {D : Inum} (h : (crammed.node D).Linked) : D = rootIno := by
  have htype : (crammed.node D).type ≠ none := by
    rw [h.1]
    nofun
  rcases crammed_type htype with hD | rfl
  . exact hD
  . cases h.1

theorem crammed_tally (P : Dirent → Bool)
    : tally crammed.node P =
        crammedRest.countP P + [⟨rootIno, "."⟩, ⟨rootIno, ".."⟩].countP P := by
  have hents : (crammed.node rootIno).ents =
      ⟨rootIno, "."⟩ :: ⟨rootIno, ".."⟩ :: crammedRest := rfl
  rw [tally_root ⟨rfl, Int.one_pos⟩ (fun _ => crammed_linked) P, hents]
  simp only [List.countP_cons, List.countP_nil, Nat.zero_add, Nat.add_assoc]

theorem crammed_none {P : Dirent → Bool} (h : ∀ e, e.inum = 2 → P e = false)
    : crammedRest.countP P = 0 := by
  rw [List.countP_eq_zero]
  intro e he
  rw [h e (crammed_rest he).1]
  exact Bool.false_ne_true

theorem crammed_all : crammedRest.countP (counted 2) = NDIRENT - 2 := by
  have hall : crammedRest.countP (counted 2) = crammedRest.length := by
    rw [List.countP_eq_length]
    intro e he
    unfold counted
    simp [(crammed_rest he).1, crammed_name he (by decide : ".".length ≠ 3)]
  rw [hall, List.length_map, List.length_range]

theorem crammed_tree : Tree crammed.node 0 := by
  constructor
  . rfl
  . exact ⟨rfl, Int.one_pos⟩
  . intro D hD
    rw [crammed_linked hD]
    refine ⟨rootIno, crammedRest, by decide, rfl, ?_⟩
    intro e he _
    exact ⟨crammed_name he (by decide), crammed_name he (by decide)⟩
  . intro D hD e he _
    rw [crammed_linked hD] at he
    rcases crammed_inum he with hinum | hinum
    . rw [hinum]
      nofun
    . rw [hinum]
      nofun
  . intro i hi
    rw [crammed_tally]
    rcases crammed_type hi with rfl | rfl
    . rw [crammed_none]
      . rfl
      . intro e he
        unfold counted
        rw [he]
        exact decide_eq_false fun h => absurd h.1 (by decide)
    . rw [crammed_all]
      rfl
  . intro S hS
    rw [crammed_linked hS, crammed_tally, crammed_none]
    . rfl
    . intro e he
      unfold isKid
      rw [he]
      exact decide_eq_false fun h => absurd h.1 (by decide)
  . intro S u hS _ hu
    rw [crammed_linked hS] at hu ⊢
    left
    refine ⟨rfl, ?_⟩
    rcases List.mem_cons.1 hu with hu | hu
    . exact congrArg Dirent.inum hu
    rcases List.mem_cons.1 hu with hu | hu
    . exact congrArg Dirent.inum hu
    . exact absurd rfl (crammed_name hu (by decide : "..".length ≠ 3))

theorem crammed_start : crammed.Start :=
  { mkfs_start with
    tree := crammed_tree
    linked := by
      intro i hi
      rcases crammed_type hi with rfl | rfl
      . exact Int.one_ne_zero
      . decide }

/-- A directory that has reached its largest size stops the system at the next name. -/
theorem mknod_full_directory_panics
    : crammed.Start ∧ ((crammed.node rootIno).ents.map Dirent.name).Nodup ∧
      (crammed.node 3).type = none ∧
      crammed.add 0 (.mknod (root ["x"])) = .error (.panic "dirlink") := by
  refine ⟨crammed_start, crammed_names, rfl, ?_⟩
  have hcreate : crammed.create 0 (root ["x"]) .dev = .error (.panic "dirlink") :=
    crammed_start.inv.create_full (by decide) .dev rfl crammed_full crammed_fresh
      (by decide : (3 : Inum) ≠ 0) rfl
  show sysMake _ _ _ _ = _
  unfold sysMake
  rw [hcreate]
  rfl

end DirSys
end Xv6
