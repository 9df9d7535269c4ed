import Xv6.Dir.Lemmas.Calls

/-!
Link counts are exact and lookups find allocated inodes in every run in which no call removes the
current directory of a process; and what happens when one does.
-/

open Count

namespace Xv6
namespace DirSys

variable {s t : DirSys}

def KeepsCwds (s : DirSys) (e : Event) : Prop :=
  ∀ path ip, e.call = .unlink path → s.unlinked e.p path = some ip → ∀ q, s.cwd q ≠ some ip

theorem Inv.call (h : s.Inv 0 0) {e : Event} (hcwd : s.cwd e.p ≠ none) (hok : s.KeepsCwds e)
    : Safe (fun t => t.Inv 0 0) (s.call e.p e.call) := by
  rcases e with ⟨p, c⟩
  have hmake : ∀ path type, Safe (fun t => t.Inv 0 0) (Prod.snd <$> s.sysMake p path type) := by
    intro path type
    rw [Safe.eq_outcome]
    exact (h.make_outcome hcwd path type (fun _ _ _ _ => by decide) (fun _ _ _ _ => by decide)).map
      fun r hr => hr.1
  cases c with
  | «open» path mode =>
    dsimp only [DirSys.call]
    rw [Safe.eq_outcome]
    exact (h.open_outcome hcwd path mode (fun _ _ _ _ => by decide) (fun _ _ _ _ => by decide)).map
      fun r hr => hr.1
  | mkdir path => exact hmake path .dir
  | mknod path => exact hmake path .dev
  | link old new =>
    dsimp only [DirSys.call]
    rw [Safe.eq_outcome]
    exact (h.link_outcome hcwd old new (fun _ _ _ _ => by decide) (fun _ _ _ => by decide)).map
      fun r hr => hr.1
  | unlink path => exact h.sysUnlink hcwd path fun ip => hok path ip rfl
  | chdir path => exact h.sysChdir hcwd path
  | close fd => exact (h.close p fd).1
  | exit => exact h.exit hcwd

theorem Inv.step (h : s.Inv 0 0) {e : Event} (hok : s.KeepsCwds e) (hstep : s.Step e t) : t.Inv 0 0 := by
  have hsafe := h.call hstep.1 hok
  rw [hstep.2] at hsafe
  exact hsafe

structure Start (s : DirSys) : Prop where
  tree : Tree s.node 0
  linked : ∀ i, (s.node i).type ≠ none → (s.node i).nlink ≠ 0
  ofile : ∀ x, s.ofile x = none
  cwd : ∀ p d, s.cwd p = some d → d = rootIno
  ref : ∀ i, s.ref i = occ s.cwd i
  valid : ∀ i, s.valid i = true ↔ 0 < s.ref i

theorem Start.inv (h : s.Start) : s.Inv 0 0 := by
  have hfiles : ∀ i, occ s.ofile i = 0 := by
    intro i
    apply occ_eq_zero
    intro x
    rw [h.ofile x]
    nofun
  have hroot : ∀ i, 0 < s.ref i → i = rootIno := by
    intro i hi
    rw [h.ref i] at hi
    have hpos : 0 < occ s.cwd i := by omega
    rcases exists_of_occ_pos hpos with ⟨p, hp⟩
    exact h.cwd p i hp
  have htype : ∀ i, 0 < s.ref i → (s.node i).type ≠ none := by
    intro i hi
    rw [hroot i hi, h.tree.root.1]
    nofun
  constructor
  . exact h.tree
  . intro i
    rw [h.ref i, hfiles i]
    simp
  . intro i hi
    exact htype i ((h.valid i).1 hi)
  . intro i hi
    rw [hfiles i] at hi
    rw [h.valid i, h.ref i]
    omega
  . exact htype
  . intro p d hd
    rw [h.cwd p d hd]
    exact h.tree.root
  . intro i hi hz
    exact absurd hz (h.linked i hi)

theorem Inv.of_eventRun {es : List Event} (hstart : s.Start)
    (hrun : EventRun KeepsCwds s es t)
    : t.Inv 0 0 := by
  apply hrun.invariant _ hstart.inv
  intro u e v hu hok hstep
  exact hu.step hok hstep

theorem nlink_eq_entries {es : List Event} (hstart : s.Start) (hrun : EventRun KeepsCwds s es t)
    : (∀ i, (t.node i).type ≠ none → (t.node i).nlink = tally t.node (counted i)) ∧
        ∀ i, (t.node i).nlink = 0 → (∀ p, t.cwd p ≠ some i) → (∀ x, t.ofile x ≠ some i) →
          (t.node i).type = none := by
  have hinv := Inv.of_eventRun hstart hrun
  constructor
  . intro i hi
    rw [hinv.tree.nlink i hi]
    simp only [Pi.zero_apply, add_zero]
  . intro i hz hcwd hofile
    by_contra hi
    have hpos := hinv.orphan i hi hz
    rw [hinv.ref i, occ_eq_zero hcwd, occ_eq_zero hofile] at hpos
    exact absurd hpos (lt_irrefl _)

theorem lookup_allocated {es : List Event} (hstart : s.Start) (hrun : EventRun KeepsCwds s es t)
    : (∀ D, (t.node D).Linked ∨ (∃ p, t.cwd p = some D) → ∀ e ∈ (t.node D).ents, e.inum ≠ 0 →
          (t.node e.inum).type ≠ none) ∧
        (∀ p path parent, t.cwd p ≠ none →
          t.namex p path parent ≠ .error (.panic "ilock: no type")) ∧
        ∀ e, t.cwd e.p ≠ none → t.KeepsCwds e →
          t.call e.p e.call ≠ .error (.panic "ilock: no type") := by
  have hinv := Inv.of_eventRun hstart hrun
  refine ⟨?_, ?_, ?_⟩
  . intro D hD e he hinum
    have hlinked : (t.node D).Linked := by
      rcases hD with hD | ⟨p, hp⟩
      . exact hD
      . exact hinv.cwd p D hp
    exact hinv.tree.alloc D hlinked e he hinum
  . intro p path parent hcwd heq
    have hsafe := hinv.namex Inv.nonneg Inv.nonneg hcwd path parent
    rw [heq] at hsafe
    exact hsafe rfl
  . intro e hcwd hok heq
    have hsafe := hinv.call hcwd hok
    rw [heq] at hsafe
    exact hsafe rfl

def mkfs : DirSys where
  node i := if i = rootIno then ⟨some .dir, 1, [⟨rootIno, "."⟩, ⟨rootIno, ".."⟩]⟩ else ⟨none, 0, []⟩
  ref i := if i = rootIno then 2 else 0
  valid i := i = rootIno
  cwd p := if p.val < 2 then some rootIno else none
  ofile _ := none

theorem mkfs_root {D : Inum} (h : (mkfs.node D).type ≠ none) : D = rootIno := by
  by_contra hne
  apply h
  unfold mkfs
  dsimp only
  rw [if_neg hne]

theorem tally_root {N : Nodes} (hroot : (N rootIno).Linked) (honly : ∀ D, (N D).Linked → D = rootIno)
    (P : Dirent → Bool)
    : tally N P = (N rootIno).ents.countP P := by
  unfold tally
  rw [Finset.sum_eq_single rootIno]
  . rw [live_of_linked hroot]
  . intro D _ hne
    rw [live_of_not_linked fun hl => hne (honly D hl)]
    rfl
  . intro hne
    exact absurd (Finset.mem_univ _) hne

theorem mkfs_tally (P : Dirent → Bool)
    : tally mkfs.node P = [⟨rootIno, "."⟩, ⟨rootIno, ".."⟩].countP P := by
  refine tally_root ⟨rfl, Int.one_pos⟩ ?_ P
  intro D hD
  apply mkfs_root
  rw [hD.1]
  nofun

theorem mkfs_tree : Tree mkfs.node 0 := by
  have hroot : ∀ D, (mkfs.node D).Linked → D = rootIno := by
    intro D hD
    apply mkfs_root
    rw [hD.1]
    nofun
  constructor
  . rfl
  . exact ⟨rfl, Int.one_pos⟩
  . intro D hD
    rw [hroot D hD]
    exact ⟨rootIno, [], by decide, rfl, by simp⟩
  . intro D hD e he _
    rw [hroot D hD] at he
    have hinum : e.inum = rootIno := by
      rcases List.mem_cons.1 he with he | he
      . rw [he]
      . rw [List.mem_singleton] at he
        rw [he]
    rw [hinum]
    nofun
  . intro i hi
    rw [mkfs_root hi, mkfs_tally]
    rfl
  . intro S hS
    rw [hroot S hS, mkfs_tally]
    rfl
  . intro S u hS _ hu
    rw [hroot S hS] at hu ⊢
    left
    refine ⟨rfl, ?_⟩
    rcases List.mem_cons.1 hu with hu | hu
    . exact congrArg Dirent.inum hu
    . rw [List.mem_singleton] at hu
      exact congrArg Dirent.inum hu

theorem mkfs_start : mkfs.Start where
  tree := mkfs_tree
  linked := by
    intro i hi
    rw [mkfs_root hi]
    exact Int.one_ne_zero
  ofile := fun _ => rfl
  cwd := by
    intro p d hd
    unfold mkfs at hd
    dsimp only at hd
    split at hd
    . exact (Option.some.inj hd).symm
    . contradiction
  ref := by
    intro i
    by_cases hi : i = rootIno
    . rw [hi]
      rfl
    . have hocc : occ mkfs.cwd i = 0 := by
        apply occ_eq_zero
        intro p hp
        unfold mkfs at hp
        dsimp only at hp
        split at hp
        . exact hi (Option.some.inj hp).symm
        . contradiction
      rw [hocc]
      exact if_neg hi
  valid := by
    intro i
    by_cases hi : i = rootIno
    . rw [hi]
      exact iff_of_true rfl (by decide)
    . have hv : mkfs.valid i = false := by
        unfold mkfs
        simp [hi]
      have hr : mkfs.ref i = 0 := if_neg hi
      rw [hv, hr]
      exact iff_of_false Bool.false_ne_true (lt_irrefl _)

def root (elems : List String) : DirPath := ⟨true, elems⟩

def here (elems : List String) : DirPath := ⟨false, elems⟩

theorem keepsCwds_of_root {e : Event} (hcwd : s.cwd = mkfs.cwd)
    (hroot : ∀ path, e.call = .unlink path → s.unlinked e.p path ≠ some rootIno)
    : s.KeepsCwds e := by
  intro path ip hpath hip q hq
  rw [hcwd] at hq
  rw [mkfs_start.cwd q ip hq] at hip
  exact hroot path hpath hip

def moveOut : List Event :=
  [⟨0, .mkdir (root ["a"])⟩, ⟨1, .open (root ["a", "f"]) ⟨true, false, true⟩⟩,
    ⟨0, .link (root ["a", "f"]) (here ["g"])⟩, ⟨1, .unlink (root ["a", "f"])⟩,
    ⟨0, .unlink (here ["a"])⟩]

theorem nlink_eq_entries_moveOut
    : ∃ t, EventRun KeepsCwds mkfs moveOut t ∧ (t.node 2).type = none ∧ (t.node 3).nlink = 1 ∧
        (t.node 3).nlink = tally t.node (counted 3) := by
  have hrun : EventRun KeepsCwds mkfs moveOut _ :=
    .cons (keepsCwds_of_root rfl nofun) ⟨nofun, rfl⟩ <|
    .cons (keepsCwds_of_root rfl nofun) ⟨nofun, rfl⟩ <|
    .cons (keepsCwds_of_root rfl nofun) ⟨nofun, rfl⟩ <|
    .cons (keepsCwds_of_root rfl (by rintro _ ⟨⟩; decide)) ⟨nofun, rfl⟩ <|
    .cons (keepsCwds_of_root rfl (by rintro _ ⟨⟩; decide)) ⟨nofun, rfl⟩ (.nil _)
  exact ⟨_, hrun, rfl, rfl, (nlink_eq_entries mkfs_start hrun).1 3 nofun⟩

theorem lookup_allocated_moveOut
    : ∃ t, EventRun KeepsCwds mkfs moveOut t ∧ (t.node 2).type = none ∧
        t.namex 0 (here ["..", "a"]) false ≠ .error (.panic "ilock: no type") := by
  have hrun : EventRun KeepsCwds mkfs moveOut _ :=
    .cons (keepsCwds_of_root rfl nofun) ⟨nofun, rfl⟩ <|
    .cons (keepsCwds_of_root rfl nofun) ⟨nofun, rfl⟩ <|
    .cons (keepsCwds_of_root rfl nofun) ⟨nofun, rfl⟩ <|
    .cons (keepsCwds_of_root rfl (by rintro _ ⟨⟩; decide)) ⟨nofun, rfl⟩ <|
    .cons (keepsCwds_of_root rfl (by rintro _ ⟨⟩; decide)) ⟨nofun, rfl⟩ (.nil _)
  exact ⟨_, hrun, rfl, (lookup_allocated mkfs_start hrun).2.1 0 _ false nofun⟩

-- A file is created in a removed directory that is still the current directory of a process.
theorem removed_cwd_gets_file
    : ¬ ∀ s t es, Start s → EventRun (fun _ _ => True) s es t →
        ∀ i, (t.node i).type ≠ none → (t.node i).nlink = tally t.node (counted i) := by
  intro h
  have hrun : EventRun (fun _ _ => True) mkfs
      [⟨0, .mkdir (root ["a"])⟩, ⟨1, .chdir (root ["a"])⟩, ⟨0, .unlink (root ["a"])⟩,
        ⟨1, .open (here ["f"]) ⟨true, false, true⟩⟩] _ :=
    .cons trivial ⟨nofun, rfl⟩ <|
    .cons trivial ⟨nofun, rfl⟩ <|
    .cons trivial ⟨nofun, rfl⟩ <|
    .cons trivial ⟨nofun, rfl⟩ (.nil _)
  exact absurd (h _ _ _ mkfs_start hrun 3 nofun) (by decide +kernel)

-- The parent of a removed directory is removed too, and its inode is free.
theorem removed_parent_is_free
    : ¬ ∀ s t es, Start s → EventRun (fun _ _ => True) s es t →
        ∀ p path parent, t.cwd p ≠ none →
          t.namex p path parent ≠ .error (.panic "ilock: no type") := by
  intro h
  have hrun : EventRun (fun _ _ => True) mkfs
      [⟨0, .mkdir (root ["a"])⟩, ⟨0, .mkdir (root ["a", "b"])⟩, ⟨1, .chdir (root ["a", "b"])⟩,
        ⟨0, .unlink (root ["a", "b"])⟩, ⟨0, .unlink (root ["a"])⟩] _ :=
    .cons trivial ⟨nofun, rfl⟩ <|
    .cons trivial ⟨nofun, rfl⟩ <|
    .cons trivial ⟨nofun, rfl⟩ <|
    .cons trivial ⟨nofun, rfl⟩ <|
    .cons trivial ⟨nofun, rfl⟩ (.nil _)
  exact h _ _ _ mkfs_start hrun 1 (here ["..", "x"]) false nofun rfl

end DirSys
end Xv6
