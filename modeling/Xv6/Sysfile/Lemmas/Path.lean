import Xv6.Sysfile.Lemmas.Bracket
import Xv6.Sysfile.Lemmas.Directory

/-!
namei and nameiparent follow the names of a path from directory to directory. They return a reference
to the inode that they come to, and have dropped all others.
-/

open Prog

namespace Xv6
namespace Sysfile

section Components

def components (path : List Byte) : List Name :=
  ((path.splitOn slash).filter (· ≠ [])).map (·.take Fs.DIRSIZ)

theorem components_append (x y : List Byte)
    : components (x ++ slash :: y) = components x ++ components y := by
  unfold components List.splitOn
  rw [List.splitOnP_append_cons x y (by decide), List.filter_append, List.map_append]

theorem components_slash (path : List Byte) : components (slash :: path) = components path :=
  components_append [] path

theorem components_word {w : List Byte} (hne : w ≠ []) (h : ∀ b ∈ w, b ≠ slash)
    : components w = [w.take Fs.DIRSIZ] := by
  unfold components List.splitOn
  rw [List.splitOnP_eq_singleton fun b hb => beq_eq_false_iff_ne.2 (h b hb)]
  simp [hne]

theorem components_dropWhile (path : List Byte)
    : components (path.dropWhile (· = slash)) = components path := by
  induction path with
  | nil => rfl
  | cons b path ih =>
    rw [List.dropWhile_cons]
    split
    next hb =>
      rw [ih, of_decide_eq_true hb, components_slash]
    next => rfl

theorem components_cons {b : Byte} (hb : b ≠ slash) (path : List Byte)
    : components (b :: path) = (b :: path.takeWhile (· ≠ slash)).take Fs.DIRSIZ ::
        components (path.dropWhile (· ≠ slash)) := by
  have hword : components (b :: path.takeWhile (· ≠ slash)) =
      [(b :: path.takeWhile (· ≠ slash)).take Fs.DIRSIZ] := by
    apply components_word (List.cons_ne_nil _ _)
    intro c hc
    rcases List.mem_cons.1 hc with rfl | hc
    . exact hb
    . have hall := List.all_eq_true.1 (List.all_takeWhile (p := fun b => decide (b ≠ slash))) c hc
      exact of_decide_eq_true hall
  have hsplit := List.takeWhile_append_dropWhile (p := fun b => decide (b ≠ slash)) (l := path)
  rcases hrest : path.dropWhile (fun b => decide (b ≠ slash)) with _ | ⟨c, rest⟩
  . rw [hrest, List.append_nil] at hsplit
    rw [hsplit] at hword ⊢
    exact hword
  . have hc : c = slash := by
      have hnot := List.head?_dropWhile_not (fun b => decide (b ≠ slash)) path
      rw [hrest] at hnot
      simpa using hnot
    rw [hrest, hc] at hsplit
    have hjoin := components_append (b :: path.takeWhile (· ≠ slash)) rest
    rw [List.cons_append, hsplit, hword] at hjoin
    rw [hc, components_slash]
    exact hjoin

theorem elems_eq_components (fuel : Nat) (path : List Byte) (h : path.length ≤ fuel)
    : elems fuel path = components path := by
  induction fuel generalizing path with
  | zero =>
    rw [List.length_eq_zero_iff.1 (Nat.le_zero.1 h)]
    rfl
  | succ fuel ih =>
    unfold elems skipelem
    rw [← components_dropWhile path]
    have hlen := (List.dropWhile_sublist (fun b => decide (b = slash)) (l := path)).length_le
    have hhead := List.head?_dropWhile_not (fun b => decide (b = slash)) path
    generalize path.dropWhile (fun b => decide (b = slash)) = p at hlen hhead ⊢
    rcases p with _ | ⟨b, rest⟩
    . rfl
    . have hb : b ≠ slash := by simpa using hhead
      rw [components_cons hb]
      simp only [reduceCtorEq, ↓reduceIte, List.takeWhile_cons, List.dropWhile_cons,
        decide_eq_true hb]
      congr 1
      rw [ih, components_dropWhile]
      have hslash := (List.dropWhile_sublist (fun b => decide (b = slash))
        (l := rest.dropWhile (fun b => decide (b ≠ slash)))).length_le
      have hword := (List.dropWhile_sublist (fun b => decide (b ≠ slash)) (l := rest)).length_le
      rw [List.length_cons] at hlen
      omega

end Components

section Resolve

def child (s : Sys) (i : BitVec 32) (name : Name) : Option (BitVec 32) :=
  if (s.dinode i).type = T_DIR then
    (lookup s (s.dinode i) name).map fun k =>
      BitVec.ofNat 32 (Fs.direntInum (entryAt s (s.dinode i) k))
  else
    none

def resolve (s : Sys) (i : BitVec 32) (names : List Name) : Option (BitVec 32) :=
  names.foldlM (child s) i

def destination (s : Sys) (nameiparent : Bool) (i : BitVec 32) (names : List Name)
    : Option (BitVec 32 × Name) :=
  if nameiparent then do
    let name ← names.getLast?
    let d ← resolve s i names.dropLast
    if (s.dinode d).type = T_DIR then some (d, name) else none
  else
    (resolve s i names).map (·, [])

variable {s : Sys} {i : BitVec 32}

theorem resolve_cons (name : Name) (names : List Name)
    : resolve s i (name :: names) = (child s i name).bind fun j => resolve s j names :=
  rfl

theorem destination_cons (nameiparent : Bool) (name : Name) (rest : List Name)
    : destination s nameiparent i (name :: rest) =
        if (s.dinode i).type ≠ T_DIR then
          none
        else if nameiparent = true ∧ rest = [] then
          some (i, name)
        else
          (child s i name).bind fun j => destination s nameiparent j rest := by
  by_cases htype : (s.dinode i).type = T_DIR
  case neg =>
    have hnone : child s i name = none := if_neg htype
    rw [if_pos htype]
    unfold destination
    cases rest with
    | nil =>
      rw [resolve_cons, hnone]
      have hroot : (s.dinode i).type ≠ 1#16 := htype
      simp [resolve, hroot]
    | cons next rest =>
      rw [List.dropLast_cons_of_ne_nil (List.cons_ne_nil _ _), resolve_cons, resolve_cons, hnone]
      simp
  rw [if_neg (not_not_intro htype)]
  cases nameiparent with
  | false =>
    rw [if_neg (by simp)]
    unfold destination
    simp only [Bool.false_eq_true, ↓reduceIte, resolve_cons, Option.map_bind]
    rfl
  | true =>
    unfold destination
    cases rest with
    | nil => simp [resolve, htype]
    | cons next rest =>
      have hmore : ¬ (true = true ∧ next :: rest = []) := fun h => List.cons_ne_nil _ _ h.2
      rw [if_neg hmore, if_pos rfl, List.dropLast_cons_of_ne_nil (List.cons_ne_nil _ _), resolve_cons]
      rcases child s i name with _ | j
      . simp
      . simp

-- no inode is found iff on the way there is none that is a directory and has the next name
theorem resolve_eq_none_iff (names : List Name)
    : resolve s i names = none ↔ ∃ front name back d, names = front ++ name :: back ∧
        resolve s i front = some d ∧
        ((s.dinode d).type ≠ T_DIR ∨ lookup s (s.dinode d) name = none) := by
  have hchild : ∀ d name, child s d name = none ↔
      (s.dinode d).type ≠ T_DIR ∨ lookup s (s.dinode d) name = none := by
    intro d name
    unfold child
    split
    next htype =>
      rw [Option.map_eq_none_iff, or_iff_right (not_not_intro htype)]
    next htype =>
      rw [or_iff_left_of_imp fun _ => htype]
      exact iff_of_true rfl htype
  simp only [← hchild]
  induction names generalizing i with
  | nil => simp [resolve]
  | cons name names ih =>
    rw [resolve_cons]
    constructor
    . intro hnone
      rcases hc : child s i name with _ | j
      . exact ⟨[], name, names, i, rfl, rfl, hc⟩
      . rw [hc] at hnone
        rcases ih.1 hnone with ⟨front, next, back, d, hnames, hfront, hd⟩
        refine ⟨name :: front, next, back, d, ?_, ?_, hd⟩
        . rw [hnames]
          rfl
        . rw [resolve_cons, hc]
          exact hfront
    . rintro ⟨front, next, back, d, hnames, hfront, hd⟩
      cases front with
      | nil =>
        cases hnames
        cases hfront
        rw [hd]
        rfl
      | cons _ front =>
        cases hnames
        rw [resolve_cons] at hfront
        rcases hc : child s i name with _ | j
        . rfl
        . rw [hc] at hfront
          exact ih.2 ⟨front, next, back, d, rfl, hfront, hd⟩

end Resolve

/--
A directory tree that no other process works on. A lookup from the root or the current directory can
come to `nodes`: they are allocated, one without links is in use, and the entries of the directories
among them are for `nodes` again.
-/
structure Tree (s : Sys) (cwd : InodeId) (nodes : BitVec 32 → Prop) : Prop where
  calm : Calm s [] s
  unlocked : ∀ ip, s.locked ip = false
  current : s.cwd = some cwd
  ref : 0 < (s.inode cwd).ref
  root : nodes 1
  here : nodes (s.inode cwd).inum
  type : ∀ i, nodes i → (s.dinode i).type ≠ 0
  held : ∀ i, nodes i → (s.dinode i).nlink = 0 →
    ∃ ip, 0 < (s.inode ip).ref ∧ (s.inode ip).inum = i
  dir : ∀ i, nodes i → (s.dinode i).type = T_DIR → Directory s (s.dinode i)
  entry : ∀ i k, nodes i → (s.dinode i).type = T_DIR → k < (s.dinode i).size.toNat / 16 →
    Fs.direntInum (entryAt s (s.dinode i) k) ≠ 0 →
    nodes (BitVec.ofNat 32 (Fs.direntInum (entryAt s (s.dinode i) k)))

def Spare (s : Sys) : Prop := ∃ ip jp, ip ≠ jp ∧ (s.inode ip).ref = 0 ∧ (s.inode jp).ref = 0

def start (s : Sys) (cwd : InodeId) (path : List Byte) : BitVec 32 :=
  if path.head? = some slash then 1 else (s.inode cwd).inum

def Still (s₀ : Sys) (l : List Ref) (locked : InodeId → Bool) (s : Sys) : Prop :=
  Calm s₀ l s ∧ s.locked = locked

variable {s₀ s : Sys} {l : List Ref} {ip cwd : InodeId} {i : BitVec 32} {b : Bool}
  {f : InodeId → Bool} {nodes : BitVec 32 → Prop}

theorem Spare.room (hspare : Spare s₀) (h : Calm s₀ l s) (hl : l.length ≤ 1)
    : ¬ ∀ ip, (s.inode ip).ref ≠ 0 := by
  intro hfull
  rcases hspare with ⟨ip, jp, hne, hip, hjp⟩
  have hiref := h.ref ip
  have hjref := h.ref jp
  have hifull := hfull ip
  have hjfull := hfull jp
  rcases l with _ | ⟨r, _ | ⟨r', l⟩⟩
  . rw [hip] at hiref
    exact hifull hiref
  . rw [count_cons] at hiref hjref
    have hnil : ∀ kp, count [] kp = 0 := fun _ => rfl
    rw [hnil] at hiref hjref
    split at hiref
    next hri =>
      have hrj : ¬ r.ip = jp := by
        rw [hri]
        exact hne
      rw [if_neg hrj, hjp] at hjref
      exact hjfull hjref
    next =>
      rw [hip] at hiref
      exact hifull hiref
  . simp at hl

variable (sb : Superblock) (devs : Devices)

theorem ilock_still (htype : (s₀.dinode i).type ≠ 0) (hf : f ip = false)
    : Spec (Still s₀ (⟨ip, i, b⟩ :: l) f) (ilock ip)
        (fun _ => Still s₀ (⟨ip, i, true⟩ :: l) (Function.update f ip true)) (fun _ => False) := by
  have hlocks : Spec (Still s₀ (⟨ip, i, b⟩ :: l) f) (ilock ip)
      (fun _ s => s.locked = Function.update f ip true) (fun _ => False) := by
    unfold ilock
    refine .get_bind ?_
    rintro s₁ ⟨h₁, hlocked⟩
    have hpos := h₁.head_pos
    have hdinode : s₁.dinode (s₁.inode ip).inum = s₀.dinode i := by rw [h₁.head_inum, h₁.dinode]
    have hfree : ¬ s₁.locked ip = true := by
      rw [hlocked, hf]
      decide
    rw [if_neg (by omega)]
    refine .bind (Q := fun _ s => s.locked = Function.update f ip true) ?_ ?_
    . unfold acquiresleep
      refine .get_bind ?_
      rintro s rfl
      rw [if_neg hfree]
      refine .modify ?_
      rintro s rfl
      rw [← hlocked]
      rfl
    . intro _
      refine .when ?_ (fun _ _ => id)
      intro _
      refine .bind (Q := fun _ s => s.locked = Function.update f ip true) (.modify fun _ => id) ?_
      intro _
      refine .when ?_ (fun _ _ => id)
      intro hzero
      rw [hdinode] at hzero
      exact absurd hzero htype
  exact (ilock_calm.and hlocks).conseq (fun s hs => ⟨hs.1, hs⟩) (fun _ _ => id) (fun _ hs => hs.2)

theorem iunlock_still (hf : f ip = true)
    : Spec (Still s₀ (⟨ip, i, b⟩ :: l) f) (iunlock ip)
        (fun _ => Still s₀ (⟨ip, i, b⟩ :: l) (Function.update f ip false)) (fun _ => False) := by
  unfold iunlock
  refine .get_bind ?_
  rintro s₁ ⟨h₁, hlocked⟩
  have hpos := h₁.head_pos
  have hheld : ¬ (s₁.locked ip = false ∨ (s₁.inode ip).ref < 1) := by
    rw [hlocked, hf, not_or]
    exact ⟨by decide, by omega⟩
  rw [if_neg hheld]
  refine .modify ?_
  rintro s rfl
  refine ⟨h₁.setLocked ip false, ?_⟩
  rw [← hlocked]
  rfl

theorem iput_still (hf : f ip = false)
    : Spec (fun s => Still s₀ (⟨ip, i, b⟩ :: l) f s ∧
          ¬ ((s.inode ip).valid = true ∧ (s.inode ip).data.nlink = 0 ∧ (s.inode ip).ref = 1))
        (iput sb ip) (fun _ => Still s₀ l f) (fun _ => False) := by
  refine .of_state ?_
  rintro s₁ ⟨⟨h₁, hlocked⟩, hlast⟩
  have hfree : ¬ (s₁.record .iput).locked ip = true := by
    show ¬ s₁.locked ip = true
    rw [hlocked, hf]
    decide
  have hrestore : Function.update (Function.update f ip true) ip false = f := by
    rw [Function.update_idem, ← hf, Function.update_eq_self]
  unfold iput
  refine .bind (Q := fun _ s => s = s₁.record .iput) (.modify ?_) ?_
  . rintro s rfl
    rfl
  intro _
  refine .bind (Q := fun _ s => s = (s₁.record .iput).setLocked ip true) ?_ ?_
  . unfold acquiresleep
    refine .get_bind ?_
    rintro s rfl
    rw [if_neg hfree]
    refine .modify ?_
    rintro s rfl
    rfl
  intro _
  refine .get_bind ?_
  rintro s rfl
  refine .bind (Q := fun _ s => Still s₀ (⟨ip, i, b⟩ :: l) (Function.update f ip true) s) (.when ?_ ?_) ?_
  . intro hfreeing
    exact absurd hfreeing hlast
  . rintro _ s rfl
    refine ⟨h₁.record.setLocked ip true, ?_⟩
    rw [← hlocked]
    rfl
  intro _
  refine .bind (Q := fun _ s => Still s₀ (⟨ip, i, b⟩ :: l) f s) (.modify ?_) ?_
  . rintro s ⟨hs, hl⟩
    refine ⟨hs.setLocked ip false, ?_⟩
    show Function.update s.locked ip false = f
    rw [hl, hrestore]
  . intro _
    exact .modify fun s hs => ⟨hs.1.drop, hs.2⟩

theorem Tree.iput_still (h : Tree s₀ cwd nodes) (hi : nodes i) (hf : f ip = false)
    : Spec (Still s₀ (⟨ip, i, b⟩ :: l) f) (iput sb ip) (fun _ => Still s₀ l f) (fun _ => False) :=
  (Sysfile.iput_still sb hf).pre fun _ hs => ⟨hs, hs.1.not_last fun _ => h.held i hi⟩

theorem Tree.iunlockput_still (h : Tree s₀ cwd nodes) (hi : nodes i) (hf : f ip = false)
    : Spec (Still s₀ (⟨ip, i, b⟩ :: l) (Function.update f ip true)) (iunlockput sb ip)
        (fun _ => Still s₀ l f) (fun _ => False) := by
  have hrestore : Function.update (Function.update f ip true) ip false = f := by
    rw [Function.update_idem, ← hf, Function.update_eq_self]
  unfold iunlockput
  refine .bind (iunlock_still (Function.update_self _ _ _)) ?_
  intro _
  rw [hrestore]
  exact h.iput_still sb hi hf

def Child (s₀ : Sys) (ip : InodeId) (i : BitVec 32) (l : List Ref) (f : InodeId → Bool)
    (found : Option (BitVec 32)) (r : Option (InodeId × Nat)) (s : Sys)
    : Prop :=
  match found with
  | none => r = none ∧ Still s₀ (⟨ip, i, true⟩ :: l) f s
  | some j => ∃ jp off, r = some (jp, off) ∧ Still s₀ (⟨jp, j, false⟩ :: ⟨ip, i, true⟩ :: l) f s

theorem Got.locked {s₁ : Sys} {dev : BitVec 32} (h : Got s₁ dev i ip s) : s.locked = s₁.locked := by
  rcases h with ⟨_, _, _, rfl⟩ | ⟨_, _, rfl⟩
  . rfl
  . rfl

theorem Tree.dirlookup_child (h : Tree s₀ cwd nodes) (hspare : Spare s₀) (hi : nodes i)
    (htype : (s₀.dinode i).type = T_DIR) (name : Name)
    : Spec (Still s₀ [⟨ip, i, true⟩] f) (dirlookup sb devs ip name)
        (Child s₀ ip i [] f (child s₀ i name)) (fun _ => False) := by
  refine .of_state ?_
  rintro s₁ ⟨h₁, hlocked⟩
  have hdata := h₁.head_data.1
  have hdir : Directory s₁ (s₁.inode ip).data := by
    rw [hdata]
    exact (h.dir i hi htype).congr h₁.block
  refine (dirlookup_looks sb devs hdir name).conseq (fun _ => id) ?_ ?_
  . intro r s hs
    unfold child
    rw [hdata, lookup_congr h₁.block] at hs
    rw [if_pos htype]
    rcases hfound : lookup s₀ (s₀.dinode i) name with _ | k
    . rw [hfound] at hs
      rcases hs with ⟨rfl, rfl⟩
      exact ⟨rfl, h₁, hlocked⟩
    . rw [hfound] at hs
      rcases hs with ⟨jp, hr, hgot⟩
      rw [h₁.dev ip h₁.head_pos, hdata, entryAt_congr h₁.block] at hgot
      exact ⟨jp, _, hr, h₁.got hgot, hgot.locked.trans hlocked⟩
  . rintro s ⟨_, _, hfull⟩
    exact hspare.room h₁ (Nat.le_refl 1) hfull

theorem Tree.child_node (h : Tree s₀ cwd nodes) (hi : nodes i) {name : Name} {j : BitVec 32}
    (hchild : child s₀ i name = some j)
    : nodes j := by
  unfold child at hchild
  split at hchild
  next htype =>
    rw [Option.map_eq_some_iff] at hchild
    rcases hchild with ⟨k, hk, rfl⟩
    rcases lookup_some hk with ⟨hlt, hname⟩
    exact h.entry i k hi htype hlt (of_decide_eq_true hname).1
  next => cases hchild

def Arrives (s₀ : Sys) (found : Option (BitVec 32 × Name)) (r : Option (InodeId × Name)) (s : Sys)
    : Prop :=
  match r with
  | none => found = none ∧ Still s₀ [] s₀.locked s
  | some (ip, name) => ∃ i, found = some (i, name) ∧ Still s₀ [⟨ip, i, false⟩] s₀.locked s

theorem Tree.namexLoop_arrives (h : Tree s₀ cwd nodes) (hspare : Spare s₀) (nameiparent : Bool)
    (names : List Name) (ip : InodeId) (i : BitVec 32) (hi : nodes i)
    : Spec (Still s₀ [⟨ip, i, false⟩] s₀.locked) (namexLoop sb devs nameiparent ip names)
        (Arrives s₀ (destination s₀ nameiparent i names)) (fun _ => False) := by
  induction names generalizing ip i with
  | nil =>
    unfold namexLoop
    refine .ite ?_ ?_
    . rintro rfl
      refine .bind (h.iput_still sb hi (h.unlocked ip)) ?_
      intro _
      exact .pure fun s hs => ⟨rfl, hs⟩
    . intro hnot
      rw [Bool.not_eq_true] at hnot
      subst hnot
      exact .pure fun s hs => ⟨i, rfl, hs⟩
  | cons name rest ih =>
    have hfail : ∀ found, found = none →
        Spec (Still s₀ [⟨ip, i, true⟩] (Function.update s₀.locked ip true))
          (do iunlockput sb ip; return (none : Option (InodeId × Name)))
          (Arrives s₀ found) (fun _ => False) := by
      intro found hfound
      refine .bind (h.iunlockput_still sb hi (h.unlocked ip)) ?_
      intro _
      exact .pure fun s hs => ⟨hfound, hs⟩
    unfold namexLoop
    rw [destination_cons]
    refine .bind (ilock_still (h.type i hi) (h.unlocked ip)) ?_
    intro _
    refine .get_bind ?_
    intro s₁ h₁
    rw [h₁.1.head_data.1]
    split
    . exact (hfail none rfl).of_eq h₁
    next htype =>
      rw [not_not] at htype
      split
      . refine .bind ((iunlock_still (Function.update_self _ _ _)).of_eq h₁) ?_
        intro _
        refine .pure ?_
        rintro s ⟨hs, hl⟩
        refine ⟨i, rfl, hs.forget, ?_⟩
        rw [hl, Function.update_idem, ← h.unlocked ip, Function.update_eq_self]
      . refine .bind ((h.dirlookup_child sb devs hspare hi htype name).of_eq h₁) ?_
        intro r
        rcases hchild : child s₀ i name with _ | j
        . refine .of_pre (fun s hs => hs.1) ?_
          rintro rfl
          exact (hfail none rfl).pre fun s hs => hs.2
        . refine .exists_pre ?_
          intro jp
          refine .exists_pre ?_
          intro off
          refine .of_pre (fun s hs => hs.1) ?_
          rintro rfl
          refine .bind (Q := fun _ => Still s₀ [⟨jp, j, false⟩] s₀.locked) ?_ ?_
          . refine Spec.pre (h.iunlockput_still (b := true) sb hi (h.unlocked ip)) ?_
            rintro s ⟨_, hs, hl⟩
            exact ⟨hs.perm (.swap _ _ _), hl⟩
          . intro _
            exact ih jp j (h.child_node hi hchild)

theorem Tree.namexStart_still (h : Tree s₀ cwd nodes) (hspare : Spare s₀) (path : List Byte)
    : Spec (fun s => s = s₀) (namexStart path)
        (fun ip => Still s₀ [⟨ip, start s₀ cwd path, false⟩] s₀.locked) (fun _ => False) := by
  unfold namexStart start
  split
  . refine (iget_got s₀ ROOTDEV 1).conseq (fun _ => id) ?_ ?_
    . intro ip s hgot
      exact ⟨h.calm.got hgot, hgot.locked⟩
    . rintro s ⟨_, hfull⟩
      exact hspare.room h.calm (Nat.zero_le 1) hfull
  . refine .get_bind ?_
    rintro s rfl
    rw [h.current]
    unfold idup
    refine .bind (Q := fun _ t => Still s [⟨cwd, (s.inode cwd).inum, false⟩] s.locked t) (.modify ?_) ?_
    . rintro t rfl
      exact ⟨h.calm.gain h.ref, rfl⟩
    . intro _
      exact .pure fun t ht => ht

theorem Tree.start_node (h : Tree s₀ cwd nodes) (path : List Byte) : nodes (start s₀ cwd path) := by
  unfold start
  split
  . exact h.root
  . exact h.here

theorem Tree.namex_arrives (h : Tree s₀ cwd nodes) (hspare : Spare s₀) (path : List Byte)
    (nameiparent : Bool)
    : Spec (fun s => s = s₀) (namex sb devs path nameiparent)
        (Arrives s₀ (destination s₀ nameiparent (start s₀ cwd path) (components path)))
        (fun _ => False) := by
  unfold namex
  rw [elems_eq_components _ _ (Nat.le_refl _)]
  refine .bind (h.namexStart_still hspare path) ?_
  intro ip
  exact h.namexLoop_arrives sb devs hspare nameiparent _ ip _ (h.start_node path)

structure Returned (s : Sys) (found : Option InodeId) (t : Sys) : Prop where
  ref : ∀ ip, (t.inode ip).ref = (s.inode ip).ref + if found = some ip then 1 else 0
  unlocked : ∀ ip, t.locked ip = false

theorem Tree.returned_none (h : Tree s₀ cwd nodes) (hs : Still s₀ [] s₀.locked s)
    : Returned s₀ none s where
  ref := by
    intro ip
    rw [hs.1.ref ip]
    rfl
  unlocked := by
    intro ip
    rw [hs.2]
    exact h.unlocked ip

theorem Tree.returned_some (h : Tree s₀ cwd nodes) (hs : Still s₀ [⟨ip, i, b⟩] s₀.locked s)
    : Returned s₀ (some ip) s where
  ref := by
    intro jp
    rw [hs.1.ref jp, count_cons]
    simp [count]
  unlocked := by
    intro jp
    rw [hs.2]
    exact h.unlocked jp

theorem Tree.namei_arrives (h : Tree s₀ cwd nodes) (hspare : Spare s₀) (path : List Byte)
    : Spec (fun s => s = s₀) (namei sb devs path)
        (fun r t => Returned s₀ r t ∧
          r.map (fun ip => (t.inode ip).inum) = resolve s₀ (start s₀ cwd path) (components path))
        (fun _ => False) := by
  unfold namei
  refine .bind (h.namex_arrives sb devs hspare path false) ?_
  intro r
  refine .pure ?_
  intro t ht
  have hdest : destination s₀ false (start s₀ cwd path) (components path) =
      (resolve s₀ (start s₀ cwd path) (components path)).map (·, []) := rfl
  unfold Arrives at ht
  rw [hdest] at ht
  rcases r with _ | ⟨ip, name⟩
  . rcases ht with ⟨hnone, hstill⟩
    exact ⟨h.returned_none hstill, (Option.map_eq_none_iff.1 hnone).symm⟩
  . rcases ht with ⟨i, hsome, hstill⟩
    rcases Option.map_eq_some_iff.1 hsome with ⟨j, hj, heq⟩
    cases heq
    refine ⟨h.returned_some hstill, ?_⟩
    rw [hj]
    exact congrArg some hstill.1.head_inum

theorem destination_parent_eq_none_iff (names : List Name)
    : destination s true i names = none ↔ names = [] ∨ resolve s i names.dropLast = none ∨
        ∃ d, resolve s i names.dropLast = some d ∧ (s.dinode d).type ≠ T_DIR := by
  unfold destination
  rcases hlast : names.getLast? with _ | name
  . rw [List.getLast?_eq_none_iff] at hlast
    exact iff_of_true rfl (.inl hlast)
  . have hne : names ≠ [] := by
      rintro rfl
      cases hlast
    rw [or_iff_right hne]
    rcases resolve s i names.dropLast with _ | d
    . exact iff_of_true rfl (.inl rfl)
    . by_cases htype : (s.dinode d).type = T_DIR
      . simp [htype]
      . have htype' : (s.dinode d).type ≠ 1#16 := htype
        simp [htype']

theorem destination_parent_eq_some {names : List Name} {d : BitVec 32} {name : Name}
    (h : destination s true i names = some (d, name))
    : names.getLast? = some name ∧ resolve s i names.dropLast = some d ∧
        (s.dinode d).type = T_DIR := by
  unfold destination at h
  simp only [↓reduceIte, Option.bind_eq_bind, Option.bind_eq_some_iff] at h
  rcases h with ⟨last, hlast, d', hd, hdir⟩
  split at hdir
  next htype =>
    cases hdir
    exact ⟨hlast, hd, htype⟩
  next => cases hdir

/--
The names that skipelem cuts off the path are its components. With room for two more inodes in the
cache, namei returns the inode to which they lead from the root or from the current directory, and
nameiparent the directory before the last one. Nothing else is left referenced or locked.
-/
theorem path_resolution (h : Tree s cwd nodes) (hspare : Spare s) (path : List Byte)
    : elems path.length path = components path ∧
      (∃ r t, (namei sb devs path).exec s = (.ok r, t) ∧ Returned s r t ∧
        r.map (fun ip => (t.inode ip).inum) = resolve s (start s cwd path) (components path) ∧
        (r = none ↔ ∃ front name back d, components path = front ++ name :: back ∧
          resolve s (start s cwd path) front = some d ∧
          ((s.dinode d).type ≠ T_DIR ∨ lookup s (s.dinode d) name = none))) ∧
      ∃ r t, (nameiparent sb devs path).exec s = (.ok r, t) ∧ Returned s (r.map Prod.fst) t ∧
        (∀ ip name, r = some (ip, name) → (components path).getLast? = some name ∧
          resolve s (start s cwd path) (components path).dropLast = some (t.inode ip).inum ∧
          (s.dinode (t.inode ip).inum).type = T_DIR) ∧
        (r = none ↔ components path = [] ∨
          resolve s (start s cwd path) (components path).dropLast = none ∨
          ∃ d, resolve s (start s cwd path) (components path).dropLast = some d ∧
            (s.dinode d).type ≠ T_DIR) := by
  refine ⟨elems_eq_components _ _ (Nat.le_refl _), ?_, ?_⟩
  . rcases (h.namei_arrives sb devs hspare path).exists_ok rfl with ⟨r, t, hexec, hreturned, hr⟩
    refine ⟨r, t, hexec, hreturned, hr, ?_⟩
    rw [← resolve_eq_none_iff, ← hr, Option.map_eq_none_iff]
  . rcases (h.namex_arrives sb devs hspare path true).exists_ok rfl with ⟨r, t, hexec, harrives⟩
    refine ⟨r, t, hexec, ?_⟩
    rw [← destination_parent_eq_none_iff]
    rcases r with _ | ⟨ip, name⟩
    . rcases harrives with ⟨hnone, hstill⟩
      exact ⟨h.returned_none hstill, nofun, iff_of_true rfl hnone⟩
    . rcases harrives with ⟨i, hsome, hstill⟩
      refine ⟨h.returned_some hstill, ?_, ?_⟩
      . intro jp name' heq
        cases heq
        rw [hstill.1.head_inum]
        exact destination_parent_eq_some hsome
      . rw [hsome]
        exact iff_of_false nofun nofun

def shelfRoot : Icache.Dinode :=
  { Icache.Dinode.fresh T_DIR with nlink := 1, size := 48, addrs := fun k => if k = 0 then 7 else 0 }

def emptyFile : Icache.Dinode := { Icache.Dinode.fresh T_FILE with nlink := 1 }

def shelf (n : Nat) : Sys :=
  { inode := fun ip =>
      ⟨ROOTDEV, BitVec.ofNat 32 (ip.val + 1), if ip.val < n then 1 else 0, false, .fresh 0⟩
    locked := fun _ => false
    dinode := fun i => if i = 1 then shelfRoot else emptyFile
    used := fun b => b < 8
    block := fun _ j =>
      if j.val = 0 ∨ j.val = 16 then 1 else if j.val = 2 ∨ j.val = 18 ∨ j.val = 19 then 46
      else if j.val = 32 then 51 else if j.val = 34 then 97 else 0
    file := fun _ => ⟨.none, 0, false, false, 0⟩
    ofile := fun _ => none
    cwd := some 0
    calls := [] }

theorem shelf_dinode (n : Nat) (i : BitVec 32)
    : (shelf n).dinode i = shelfRoot ∨ (shelf n).dinode i = emptyFile := by
  by_cases hi : i = 1
  . exact .inl (if_pos hi)
  . exact .inr (if_neg hi)

theorem shelf_type (n : Nat) (i : BitVec 32)
    : ((shelf n).dinode i).type ≠ 0 ∧ ((shelf n).dinode i).nlink ≠ 0 := by
  rcases shelf_dinode n i with h | h
  . rw [h]
    decide
  . rw [h]
    decide

theorem shelf_tree {n : Nat} (hn : 0 < n) : Tree (shelf n) 0 (fun _ => True) where
  calm :=
    { dinode := rfl
      block := rfl
      used := rfl
      file := rfl
      ofile := rfl
      cwd := rfl
      quiet := ⟨0, rfl⟩
      ref := fun _ => rfl
      kept := fun _ _ => rfl
      refs := nofun
      dev := fun _ _ => rfl
      unique := by
        intro ip jp _ _ hinum
        change BitVec.ofNat 32 (ip.val + 1) = BitVec.ofNat 32 (jp.val + 1) at hinum
        have hip : ip.val < 50 := ip.isLt
        have hjp : jp.val < 50 := jp.isLt
        apply Fin.ext
        have hval := congrArg BitVec.toNat hinum
        simp only [BitVec.toNat_ofNat] at hval
        omega
      cached := nofun }
  unlocked := fun _ => rfl
  current := rfl
  ref := by simp [shelf, hn]
  root := trivial
  here := trivial
  type := fun i _ => (shelf_type n i).1
  held := fun i _ hnlink => absurd hnlink (shelf_type n i).2
  dir := by
    intro i _ htype
    rcases shelf_dinode n i with h | h
    . rw [h]
      refine ⟨rfl, by decide, by decide, ?_⟩
      intro bn hbn
      change bn * 512 < 48 at hbn
      have hzero : bn = 0 := by omega
      subst hzero
      exact (by decide : (7 : BitVec 32) ≠ 0)
    . rw [h] at htype
      cases htype
  entry := fun _ _ _ _ _ _ => trivial

theorem path_resolution_shelf
    : Tree (shelf 1) 0 (fun _ => True) ∧ Spare (shelf 1) ∧
      ∃ r t, (namei smallSb noDevices [slash, 97]).exec (shelf 1) = (.ok r, t) ∧
        r.map (fun ip => (t.inode ip).inum) = some 51 := by
  have hspare : Spare (shelf 1) := ⟨1, 2, by decide, rfl, rfl⟩
  refine ⟨shelf_tree (by decide), hspare, ?_⟩
  rcases path_resolution smallSb noDevices (shelf_tree (n := 1) (by decide)) hspare [slash, 97] with
    ⟨_, ⟨r, t, hexec, _, hr, _⟩, _⟩
  exact ⟨r, t, hexec, hr.trans (by decide)⟩

-- With all entries of the cache in use there is none for the inode that the path leads to.
theorem namei_full_cache_panics
    : Tree (shelf NINODE) 0 (fun _ => True) ∧
      resolve (shelf NINODE) (start (shelf NINODE) 0 [slash, 97]) (components [slash, 97]) = some 51 ∧
      ((namei smallSb noDevices [slash, 97]).exec (shelf NINODE)).1 =
        .error (.panic "iget: no inodes") :=
  ⟨shelf_tree (by decide), by decide, rfl⟩

end Sysfile
end Xv6
