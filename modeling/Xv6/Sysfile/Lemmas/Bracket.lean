import Xv6.Sysfile.Lemmas.Frame

/-!
Every system call brackets what it does to the file system: it is never in two operations, it ends
outside of one, and iput and log_write are called inside of one only.
-/

open Prog

namespace Xv6
namespace Sysfile

def track : Option Bool → Call → Option Bool
  | some false, .beginOp => some true
  | some true, .endOp => some false
  | some true, .iput => some true
  | some true, .logWrite _ => some true
  | _, _ => none

def brackets (calls : List Call) : Option Bool := calls.foldl track (some false)

theorem brackets_append (calls : List Call) (c : Call)
    : brackets (calls ++ [c]) = track (brackets calls) c := by
  simp [brackets]

theorem foldl_track_none (calls : List Call) : calls.foldl track none = none := by
  induction calls with
  | nil => rfl
  | cons c calls ih => exact ih

-- A process is in an operation when it has called begin_op once more than end_op.
theorem count_of_track (calls : List Call) {a b : Bool} (h : calls.foldl track (some a) = some b)
    : a.toNat + calls.count .beginOp = calls.count .endOp + b.toNat := by
  induction calls generalizing a with
  | nil =>
    cases h
    simp
  | cons c calls ih =>
    rw [List.foldl_cons] at h
    cases hc : track (some a) c with
    | none =>
      rw [hc, foldl_track_none] at h
      cases h
    | some a' =>
      rw [hc] at h
      have hcount := ih h
      rw [List.count_cons, List.count_cons]
      cases a with
      | false =>
        cases c with
        | beginOp =>
          cases hc
          simp at hcount ⊢
          omega
        | endOp => cases hc
        | iput => cases hc
        | logWrite => cases hc
      | true =>
        cases c with
        | beginOp => cases hc
        | endOp =>
          cases hc
          simp at hcount ⊢
          omega
        | iput =>
          cases hc
          simp at hcount ⊢
          omega
        | logWrite =>
          cases hc
          simp at hcount ⊢
          omega

def FreeFiles (s : Sys) : Prop := ∀ f, (s.file f).ref = 0 → (s.file f).type = .none

structure At (b : Bool) (s : Sys) : Prop where
  calls : brackets s.calls = some b
  free : FreeFiles s

def Sound (s : Sys) : Prop := ∃ b, At b s

theorem At.sound {b : Bool} {s : Sys} (h : At b s) : Sound s := ⟨b, h⟩

theorem stable_at : Stable (At true) where
  inode := fun _ _ _ h => ⟨h.calls, h.free⟩
  locked := fun _ _ _ h => ⟨h.calls, h.free⟩
  dinode := fun _ _ _ h => ⟨h.calls, h.free⟩
  used := fun _ _ _ h => ⟨h.calls, h.free⟩
  block := fun _ _ _ h => ⟨h.calls, h.free⟩
  iput := by
    intro s h
    refine ⟨?_, h.free⟩
    show brackets (s.calls ++ [.iput]) = some true
    rw [brackets_append, h.calls]
    rfl
  logWrite := by
    intro s b h
    refine ⟨?_, h.free⟩
    show brackets (s.calls ++ [.logWrite b]) = some true
    rw [brackets_append, h.calls]
    rfl

variable {α : Type} {b : Bool} (sb : Superblock) (devs : Devices)

def Moves (b c : Bool) (x : M α) : Prop := Spec (At b) x (fun _ => At c) Sound

namespace Moves

variable {β : Type} {a b c : Bool} {x : M α}

theorem of_keeps (h : Keeps (At b) x) : Moves b b x :=
  Spec.conseq h (fun _ => id) (fun _ _ => id) (fun _ => At.sound)

theorem bind {f : α → M β} (hx : Moves a b x) (hf : ∀ v, Moves b c (f v)) : Moves a c (x >>= f) :=
  Spec.bind hx hf

theorem get : Moves b b (MonadState.get : M Sys) := of_keeps .get

theorem pure (v : α) : Moves b b (Pure.pure v : M α) := of_keeps (.pure v)

theorem throw (e : Fault) : Moves b c (MonadExcept.throw e : M α) :=
  Spec.throw fun _ => At.sound

theorem ite {p : Prop} [Decidable p] {y : M α} (hx : Moves b c x) (hy : Moves b c y)
    : Moves b c (if p then x else y) :=
  Spec.ite (fun _ => hx) (fun _ => hy)

theorem when {p : Prop} [Decidable p] {x : M Unit} (hx : Moves b b x) : Moves b b (Prog.when p x) :=
  Spec.when (fun _ => hx) (fun _ _ => id)

theorem update {f : Sys → Sys} (h : ∀ s, At b s → At c (f s)) : Moves b c (modify f : M Unit) :=
  Spec.modify h

theorem beginOp : Moves false true Sysfile.beginOp := by
  refine .update ?_
  intro s h
  refine ⟨?_, h.free⟩
  show brackets (s.calls ++ [.beginOp]) = some true
  rw [brackets_append, h.calls]
  rfl

theorem endOp : Moves true false Sysfile.endOp := by
  refine .update ?_
  intro s h
  refine ⟨?_, h.free⟩
  show brackets (s.calls ++ [.endOp]) = some false
  rw [brackets_append, h.calls]
  rfl

theorem endReturn (v : α) : Moves true false (do Sysfile.endOp; return v) := by
  refine .bind endOp ?_
  intro _
  exact .pure v

theorem ilock (ip : InodeId) : Moves true true (ilock ip) :=
  of_keeps (Stable.ilock_keeps stable_at ip)

theorem iunlock (ip : InodeId) : Moves true true (iunlock ip) :=
  of_keeps (Stable.iunlock_keeps stable_at ip)

theorem iupdate (ip : InodeId) : Moves true true (iupdate sb ip) :=
  of_keeps (Stable.iupdate_keeps stable_at sb ip)

theorem iput (ip : InodeId) : Moves true true (iput sb ip) :=
  of_keeps (Stable.iput_keeps stable_at sb ip)

theorem iunlockput (ip : InodeId) : Moves true true (iunlockput sb ip) :=
  of_keeps (Stable.iunlockput_keeps stable_at sb ip)

theorem putReturn (ip : InodeId) (v : α)
    : Moves true false (do Sysfile.iunlockput sb ip; Sysfile.endOp; return v) := by
  refine .bind (iunlockput sb ip) ?_
  intro _
  exact endReturn v

theorem setInode {f : Sys → Sys} (h : ∀ s, ∃ ip x, f s = s.setInode ip x)
    : Moves b b (modify f : M Unit) := by
  refine .update ?_
  intro s hs
  rcases h s with ⟨ip, x, hf⟩
  rw [hf]
  exact ⟨hs.calls, hs.free⟩

theorem setSlot (fd : Fd) (x : Option FileId) : Moves b b (modify (·.setSlot fd x) : M Unit) :=
  .update fun _ hs => ⟨hs.calls, hs.free⟩

end Moves

theorem FreeFiles.setFile {s : Sys} (h : FreeFiles s) (f : FileId) {x : OpenFile}
    (hx : x.ref = 0 → x.type = .none)
    : FreeFiles (s.setFile f x) := by
  intro g
  by_cases hg : g = f
  . subst hg
    simpa [Sys.setFile] using hx
  . simp only [Sys.setFile, Function.update_of_ne hg]
    exact h g

theorem At.setFile {s : Sys} (h : At b s) (f : FileId) {x : OpenFile}
    (hx : x.ref = 0 → x.type = .none)
    : At b (s.setFile f x) :=
  ⟨h.calls, h.free.setFile f hx⟩

-- The entry that filealloc finds is not one of those in use (`L`), nor one of an inode.
theorem filealloc_spec (L : FileId → Prop)
    : Spec (fun s => At b s ∧ ∀ g, L g → (s.file g).ref ≠ 0) filealloc
        (fun r s => (At b s ∧ ∀ g, L g → (s.file g).ref ≠ 0) ∧
          ∀ f, r = some f → (s.file f).ref = 1 ∧ (s.file f).type = .none)
        Sound := by
  unfold filealloc
  refine .bind (Spec.get (R := fun s₀ s => s₀ = s ∧ At b s ∧ ∀ g, L g → (s.file g).ref ≠ 0)
    fun s hs => ⟨rfl, hs⟩) ?_
  intro s₀
  split
  . refine .pure ?_
    rintro s ⟨_, hs⟩
    exact ⟨hs, nofun⟩
  next f hfound =>
    refine .bind (Spec.modify (R := fun _ s => (At b s ∧ ∀ g, L g → (s.file g).ref ≠ 0) ∧
      (s.file f).ref = 1 ∧ (s.file f).type = .none) ?_) ?_
    . rintro s ⟨hs₀, hs, hL⟩
      subst hs₀
      have hfree := List.find?_some hfound
      simp only [decide_eq_true_eq] at hfree
      refine ⟨⟨hs.setFile f nofun, ?_⟩, ?_⟩
      . intro g hg
        have hne : g ≠ f := by
          intro heq
          rw [heq] at hg
          exact hL f hg hfree
        simp only [Sys.setFile, Function.update_of_ne hne]
        exact hL g hg
      . simp only [Sys.setFile, Function.update_self, true_and]
        exact hs.free f hfree
    . intro _
      refine .pure ?_
      rintro s ⟨hs, hf⟩
      refine ⟨hs, ?_⟩
      intro g hg
      cases hg
      exact hf

theorem fdalloc_spec {P : Sys → Prop} (hP : ∀ s fd x, P s → P (s.setSlot fd x)) (f : FileId)
    : Keeps P (fdalloc f) := by
  unfold fdalloc
  refine .bind .get ?_
  intro s
  split
  . exact .pure _
  . refine .bind (.modify fun s => hP s _ _) ?_
    intro _
    exact .pure _

theorem Moves.fdalloc (f : FileId) : Moves b b (fdalloc f) :=
  of_keeps (fdalloc_spec (fun _ _ _ h => ⟨h.calls, h.free⟩) f)

theorem Moves.filedup (f : FileId) : Moves b b (filedup f) := by
  unfold Sysfile.filedup
  refine Spec.bind (Spec.get (R := fun s₀ s => s₀ = s ∧ At b s) fun s hs => ⟨rfl, hs⟩) ?_
  intro s₀
  refine Spec.ite (fun _ => Spec.throw fun s hs => hs.2.sound) ?_
  intro hpos
  refine Spec.modify ?_
  rintro s ⟨hs₀, hs⟩
  subst hs₀
  refine hs.setFile f ?_
  intro hzero
  simp only at hzero
  omega

theorem Moves.fileclose (f : FileId) : Moves false false (fileclose sb f) := by
  unfold Sysfile.fileclose
  refine Spec.bind (Spec.get (R := fun s₀ s => s₀ = s ∧ At false s) fun s hs => ⟨rfl, hs⟩) ?_
  intro s₀
  refine Spec.ite (fun _ => Spec.throw fun s hs => hs.2.sound) ?_
  intro _
  refine Spec.ite ?_ ?_
  . intro hpos
    refine Spec.modify ?_
    rintro s ⟨hs₀, hs⟩
    subst hs₀
    refine hs.setFile f ?_
    intro hzero
    simp only at hzero
    omega
  . intro _
    refine Spec.bind (Q := fun _ => At false) (Spec.modify ?_) ?_
    . rintro s ⟨_, hs⟩
      exact hs.setFile f fun _ => rfl
    . intro _
      split
      . exact Moves.pure _
      . exact Moves.pure _
      next ip _ =>
        refine Moves.bind .beginOp ?_
        intro _
        refine .bind (.iput sb ip) ?_
        intro _
        exact .endOp

-- In an operation, a file that filealloc has just found is closed without another one.
theorem fileclose_fresh (f : FileId)
    : Spec (fun s => At true s ∧ (s.file f).ref = 1 ∧ (s.file f).type = .none) (fileclose sb f)
        (fun _ => At true) Sound := by
  unfold fileclose
  refine Spec.bind (Spec.get (R := fun s₀ s => s₀ = s ∧ At true s ∧ (s.file f).ref = 1 ∧
    (s.file f).type = .none) fun s hs => ⟨rfl, hs⟩) ?_
  intro s₀
  refine Spec.of_pre (c := (s₀.file f).ref = 1 ∧ (s₀.file f).type = .none) ?_ ?_
  . rintro s ⟨hs₀, _, hf⟩
    subst hs₀
    exact hf
  . rintro ⟨href, htype⟩
    rw [href, htype]
    refine Spec.ite (fun h => absurd h (by decide)) fun _ => ?_
    refine Spec.ite (fun h => absurd h (by decide)) fun _ => ?_
    refine Spec.bind (Q := fun _ => At true) (Spec.modify ?_) ?_
    . rintro s ⟨_, hs, _⟩
      exact hs.setFile f fun _ => rfl
    . intro _
      exact Moves.pure _

namespace Moves

theorem filewriteLoop (f : FileId) (ip : InodeId) (fuel : Nat) (src : List Byte)
    : Moves false false (filewriteLoop sb devs f ip fuel src) := by
  induction fuel generalizing src with
  | zero => exact .pure _
  | succ fuel ih =>
    unfold Sysfile.filewriteLoop
    refine .ite (.pure _) ?_
    refine .bind .beginOp ?_
    intro _
    refine .bind (.ilock ip) ?_
    intro _
    refine .bind .get ?_
    intro s
    refine .bind (of_keeps (Stable.writei_keeps stable_at sb devs ip _ _)) ?_
    intro r
    refine .bind (.when (.update ?_)) ?_
    . intro s hs
      exact hs.setFile f (hs.free f)
    . intro _
      refine .bind (.iunlock ip) ?_
      intro _
      refine .bind .endOp ?_
      intro _
      exact .ite (.pure _) (.ite (.throw _) (ih _))

theorem filewrite (f : FileId) (src : List Byte) : Moves false false (filewrite sb devs f src) := by
  unfold Sysfile.filewrite
  refine .bind .get ?_
  intro s
  refine .ite (.pure _) ?_
  split
  . exact .throw _
  . exact .pure _
  . refine .bind (.filewriteLoop sb devs f _ _ _) ?_
    intro ok
    exact .pure _

theorem linkBad (ip : InodeId) : Moves true false (linkBad sb ip) := by
  unfold Sysfile.linkBad
  refine .bind (.ilock ip) ?_
  intro _
  refine .bind (.setInode fun s => ⟨_, _, rfl⟩) ?_
  intro _
  refine .bind (.iupdate sb ip) ?_
  intro _
  exact .putReturn sb ip _

theorem linkEntry (ip dp : InodeId) (name : Name)
    : Moves true false (linkEntry sb devs ip dp name) := by
  have hbad : Moves true false (do Sysfile.iunlockput sb dp; Sysfile.linkBad sb ip) := by
    refine .bind (.iunlockput sb dp) ?_
    intro _
    exact .linkBad sb ip
  unfold Sysfile.linkEntry
  refine .bind (.ilock dp) ?_
  intro _
  refine .bind .get ?_
  intro s
  refine .ite hbad ?_
  refine .bind (of_keeps (Stable.dirlink_keeps stable_at sb devs dp name _)) ?_
  intro ok
  refine .ite hbad ?_
  refine .bind (.iunlockput sb dp) ?_
  intro _
  refine .bind (.iput sb ip) ?_
  intro _
  exact .endReturn _

theorem link (old new : List Byte) : Moves false false (link sb devs old new) := by
  unfold Sysfile.link
  refine .bind .beginOp ?_
  intro _
  refine .bind (of_keeps (Stable.namei_keeps stable_at sb devs old)) ?_
  intro r
  split
  . exact .endReturn _
  next ip =>
    refine .bind (.ilock ip) ?_
    intro _
    refine .bind .get ?_
    intro s
    refine .ite (.putReturn sb ip _) ?_
    refine .bind (.setInode fun s => ⟨_, _, rfl⟩) ?_
    intro _
    refine .bind (.iupdate sb ip) ?_
    intro _
    refine .bind (.iunlock ip) ?_
    intro _
    refine .bind (of_keeps (Stable.namex_keeps stable_at sb devs new true)) ?_
    intro r
    split
    . exact .linkBad sb ip
    . exact .linkEntry sb devs ip _ _

theorem unlinkEntry (dp ip : InodeId) (off : Nat)
    : Moves true false (unlinkEntry sb devs dp ip off) := by
  unfold Sysfile.unlinkEntry
  refine .bind (of_keeps (Stable.writei_keeps stable_at sb devs dp _ _)) ?_
  intro r
  refine .bind (.when (.throw _)) ?_
  intro _
  refine .bind .get ?_
  intro s
  refine .bind (.when ?_) ?_
  . refine .bind (.setInode fun s => ⟨_, _, rfl⟩) ?_
    intro _
    exact .iupdate sb dp
  . intro _
    refine .bind (.iunlockput sb dp) ?_
    intro _
    refine .bind (.setInode fun s => ⟨_, _, rfl⟩) ?_
    intro _
    refine .bind (.iupdate sb ip) ?_
    intro _
    exact .putReturn sb ip _

theorem unlinkInode (dp ip : InodeId) (off : Nat)
    : Moves true false (unlinkInode sb devs dp ip off) := by
  unfold Sysfile.unlinkInode
  refine .bind (.ilock ip) ?_
  intro _
  refine .bind .get ?_
  intro s
  refine .ite (.throw _) ?_
  refine .bind (of_keeps (.ite (Stable.isdirempty_keeps stable_at sb devs ip) (.pure _))) ?_
  intro empty
  refine .ite ?_ (.unlinkEntry sb devs dp ip off)
  refine .bind (.iunlockput sb ip) ?_
  intro _
  exact .putReturn sb dp _

theorem unlink (path : List Byte) : Moves false false (unlink sb devs path) := by
  unfold Sysfile.unlink
  refine .bind .beginOp ?_
  intro _
  refine .bind (of_keeps (Stable.namex_keeps stable_at sb devs path true)) ?_
  intro r
  split
  . exact .endReturn _
  next dp name =>
    refine .bind (.ilock dp) ?_
    intro _
    refine .ite (.putReturn sb dp _) ?_
    refine .bind (of_keeps (Stable.dirlookup_keeps stable_at sb devs dp name)) ?_
    intro found
    split
    . exact .putReturn sb dp _
    . exact .unlinkInode sb devs dp _ _

theorem openFile (ip : InodeId) (omode : BitVec 32) : Moves true false (openFile sb ip omode) := by
  unfold Sysfile.openFile
  refine Spec.bind ((filealloc_spec fun _ => False).pre fun s hs => ⟨hs, nofun⟩) ?_
  intro r
  split
  . exact (putReturn sb ip _).pre fun s hs => hs.1.1
  next f =>
    refine Spec.bind (Q := fun _ s => At true s ∧ (s.file f).ref = 1 ∧ (s.file f).type = .none) ?_ ?_
    . refine (fdalloc_spec ?_ f).conseq ?_ (fun _ _ => id) (fun s hs => hs.1.sound)
      . rintro s fd x ⟨hs, hf⟩
        exact ⟨⟨hs.calls, hs.free⟩, hf⟩
      . rintro s ⟨⟨hs, _⟩, hf⟩
        exact ⟨hs, hf f rfl⟩
    . intro fd
      split
      . refine Spec.bind (fileclose_fresh sb f) ?_
        intro _
        exact putReturn sb ip _
      . -- from here on the entry belongs to the process, and its type is set last
        refine Spec.bind (Q := fun _ s => At true s ∧ (s.file f).ref = 1) ?_ ?_
        . refine (Stable.iunlock_keeps (I := fun s => At true s ∧ (s.file f).ref = 1) ?_ ip).conseq ?_
            (fun _ _ => id) (fun s hs => hs.1.sound)
          . exact
              { inode := fun s i x hs => ⟨Stable.inode stable_at s i x hs.1, hs.2⟩
                locked := fun s i x hs => ⟨Stable.locked stable_at s i x hs.1, hs.2⟩
                dinode := fun s i x hs => ⟨Stable.dinode stable_at s i x hs.1, hs.2⟩
                used := fun s i x hs => ⟨Stable.used stable_at s i x hs.1, hs.2⟩
                block := fun s i x hs => ⟨Stable.block stable_at s i x hs.1, hs.2⟩
                iput := fun s hs => ⟨Stable.iput stable_at s hs.1, hs.2⟩
                logWrite := fun s i hs => ⟨Stable.logWrite stable_at s i hs.1, hs.2⟩ }
          . rintro s ⟨hs, href, _⟩
            exact ⟨hs, href⟩
        . intro _
          refine Spec.bind (Q := fun _ s => At false s ∧ (s.file f).ref = 1) ?_ ?_
          . refine Spec.modify ?_
            rintro s ⟨hs, href⟩
            refine ⟨⟨?_, hs.free⟩, href⟩
            show brackets (s.calls ++ [.endOp]) = some false
            rw [brackets_append, hs.calls]
            rfl
          . intro _
            refine Spec.bind (Q := fun _ => At false) (Spec.modify ?_) ?_
            . rintro s ⟨hs, href⟩
              refine hs.setFile f ?_
              intro hzero
              simp only at hzero
              omega
            . intro _
              exact Moves.pure _

theorem sysOpen (path : Option (List Byte)) (omode : Option (BitVec 32))
    : Moves false false (sysOpen sb devs path omode) := by
  unfold Sysfile.sysOpen
  split
  next path omode =>
    refine .bind .beginOp ?_
    intro _
    refine .bind (of_keeps (Stable.openInode_keeps stable_at sb devs path omode)) ?_
    intro r
    split
    . exact .endReturn _
    . exact .openFile sb _ omode
  . exact .pure _

theorem make {x : M (Option InodeId)} (hx : Keeps (At true) x) : Moves false false (make sb x) := by
  unfold Sysfile.make
  refine .bind .beginOp ?_
  intro _
  refine .bind (of_keeps hx) ?_
  intro r
  split
  . exact .endReturn _
  . exact .putReturn sb _ _

theorem sysChdir (path : Option (List Byte)) : Moves false false (sysChdir sb devs path) := by
  unfold Sysfile.sysChdir
  refine .bind .beginOp ?_
  intro _
  refine .bind (of_keeps (Stable.chdirInode_keeps stable_at sb devs path)) ?_
  intro r
  split
  . exact .endReturn _
  next ip =>
    refine .bind (.ilock ip) ?_
    intro _
    refine .bind .get ?_
    intro s
    refine .ite (.putReturn sb ip _) ?_
    refine .bind (.iunlock ip) ?_
    intro _
    split
    . exact .throw _
    next cwd _ =>
      refine .bind (.iput sb cwd) ?_
      intro _
      refine .bind .endOp ?_
      intro _
      refine .bind (.update fun _ hs => ⟨hs.calls, hs.free⟩) ?_
      intro _
      exact .pure _

theorem exec (path : List Byte) (env : ExecEnv) : Moves false false (exec sb devs path env) := by
  unfold Sysfile.exec
  refine .bind .beginOp ?_
  intro _
  refine .bind (of_keeps (Stable.namei_keeps stable_at sb devs path)) ?_
  intro r
  split
  . exact .endReturn _
  next ip =>
    refine .bind (.ilock ip) ?_
    intro _
    refine .bind (of_keeps (Stable.execInode_keeps stable_at sb devs env ip)) ?_
    intro ok
    exact .ite (.putReturn sb ip _) (.putReturn sb ip _)

theorem exit : Moves false false (exit sb) := by
  have hfiles : ∀ l, Moves false false (exitFiles sb l) := by
    intro l
    induction l with
    | nil => exact .pure _
    | cons fd l ih =>
      unfold exitFiles
      refine .bind .get ?_
      intro s
      split
      . exact ih
      next f _ =>
        refine .bind (.fileclose sb f) ?_
        intro _
        refine .bind (.setSlot fd none) ?_
        intro _
        exact ih
  unfold Sysfile.exit
  refine .bind (hfiles _) ?_
  intro _
  refine .bind .beginOp ?_
  intro _
  refine .bind .get ?_
  intro s
  split
  . exact .throw _
  next cwd _ =>
    refine .bind (.iput sb cwd) ?_
    intro _
    refine .bind .endOp ?_
    intro _
    refine .bind (.update fun _ hs => ⟨hs.calls, hs.free⟩) ?_
    intro _
    exact .pure _

theorem sysDup (fd : Option (BitVec 32)) : Moves false false (sysDup fd) := by
  unfold Sysfile.sysDup
  refine .bind .get ?_
  intro s
  split
  . exact .pure _
  next fd f _ =>
    refine .bind (.fdalloc f) ?_
    intro r
    split
    . exact .pure _
    . refine .bind (.filedup f) ?_
      intro _
      exact .pure _

theorem sysDup2 (fd gd : Option (BitVec 32)) : Moves false false (sysDup2 sb fd gd) := by
  have hfile : ∀ f gd, Moves false false (dup2File sb f gd) := by
    intro f gd
    have hdup : Moves false false
        (do modify (·.setSlot gd (some f)); Sysfile.filedup f; return (gd.val : Int)) := by
      refine .bind (.setSlot gd _) ?_
      intro _
      refine .bind (.filedup f) ?_
      intro _
      exact .pure _
    unfold dup2File
    refine .bind .get ?_
    intro s
    split
    . exact hdup
    next g _ =>
      refine .ite (.pure _) ?_
      refine .bind (.setSlot gd none) ?_
      intro _
      refine .bind (.fileclose sb g) ?_
      intro _
      exact hdup
  unfold Sysfile.sysDup2
  refine .bind .get ?_
  intro s
  split
  . split
    . exact hfile _ _
    . exact .pure _
  . exact .pure _

theorem pipealloc (page : Option PageAddr) : Moves false false (pipealloc sb page) := by
  unfold Sysfile.pipealloc
  refine Spec.bind ((filealloc_spec fun _ => False).pre fun s hs => ⟨hs, nofun⟩) ?_
  intro r
  split
  . exact (Moves.pure _).pre fun s hs => hs.1.1
  next f0 =>
    refine Spec.bind ((filealloc_spec (b := false) fun g => g = f0).pre ?_) ?_
    . rintro s ⟨⟨hs, _⟩, hf⟩
      refine ⟨hs, ?_⟩
      intro g hg
      rw [hg, (hf f0 rfl).1]
      decide
    . intro r
      split
      . refine Spec.pre ?_ fun s hs => hs.1.1
        refine Moves.bind (.fileclose sb f0) ?_
        intro _
        exact .pure _
      next f1 =>
        split
        . refine Spec.pre ?_ fun s hs => hs.1.1
          refine Moves.bind (.fileclose sb f0) ?_
          intro _
          refine .bind (.fileclose sb f1) ?_
          intro _
          exact .pure _
        next page =>
          refine Spec.bind (Q := fun _ s => At false s ∧ (s.file f1).ref ≠ 0) (Spec.modify ?_) ?_
          . rintro s ⟨⟨hs, hf0⟩, hf1⟩
            refine ⟨hs.setFile f0 fun hzero => absurd hzero (hf0 f0 rfl), ?_⟩
            by_cases hne : f1 = f0
            . rw [hne]
              simp only [Sys.setFile, Function.update_self]
              exact hf0 f0 rfl
            . simp only [Sys.setFile, Function.update_of_ne hne]
              rw [(hf1 f1 rfl).1]
              decide
          . intro _
            refine Spec.bind (Q := fun _ => At false) (Spec.modify ?_) ?_
            . rintro s ⟨hs, hf1⟩
              exact hs.setFile f1 fun hzero => absurd hzero hf1
            . intro _
              exact Moves.pure _

theorem sysPipe (ok : Bool) (page : Option PageAddr) : Moves false false (sysPipe sb ok page) := by
  have hbad : ∀ rf wf, Moves false false (pipeBad sb rf wf) := by
    intro rf wf
    unfold pipeBad
    refine .bind (.fileclose sb rf) ?_
    intro _
    refine .bind (.fileclose sb wf) ?_
    intro _
    exact .pure _
  unfold Sysfile.sysPipe
  refine .ite (.pure _) ?_
  refine .bind (.pipealloc sb page) ?_
  intro r
  split
  . exact .pure _
  next rf wf =>
    refine .bind (.fdalloc rf) ?_
    intro r
    split
    . exact hbad rf wf
    next fd0 =>
      refine .bind (.fdalloc wf) ?_
      intro r
      split
      . refine .bind (.setSlot fd0 none) ?_
        intro _
        exact hbad rf wf
      . exact .pure _

end Moves

theorem run_moves (c : Syscall) : Moves false false (run sb devs c) := by
  cases c with
  | «open» path omode => exact .sysOpen sb devs path omode
  | link old new =>
    show Moves false false (sysLink sb devs old new)
    unfold sysLink
    split
    . exact .link sb devs _ _
    . exact .pure _
  | unlink path =>
    show Moves false false (sysUnlink sb devs path)
    unfold sysUnlink
    split
    . exact .unlink sb devs _
    . exact .pure _
  | mkdir path =>
    refine .make sb ?_
    split
    . exact Stable.create_keeps stable_at sb devs _ _ _ _
    . exact .pure _
  | mknod path major minor =>
    refine .make sb ?_
    split
    . exact Stable.create_keeps stable_at sb devs _ _ _ _
    . exact .pure _
  | chdir path => exact .sysChdir sb devs path
  | exec path env => exact .exec sb devs path env
  | fileclose f =>
    refine .bind (.fileclose sb f) ?_
    intro _
    exact .pure _
  | filewrite f src => exact .filewrite sb devs f src
  | exit => exact .exit sb
  | dup fd => exact .sysDup fd
  | dup2 fd gd => exact .sysDup2 sb fd gd
  | pipe ok page => exact .sysPipe sb ok page

/--
A process that is in no operation makes a system call. When the call returns, the process is in no
operation, it has called end_op as often as begin_op, and the free entries of the file table are as
the next call needs them. A call that panics has made no other calls until then.
-/
theorem calls_bracketed (c : Syscall) {s : Sys} (hcalls : s.calls = []) (hfree : FreeFiles s)
    : match (run sb devs c).exec s with
      | (.ok _, t) => brackets t.calls = some false ∧
          t.calls.count .beginOp = t.calls.count .endOp ∧ FreeFiles t
      | (.error _, t) => brackets t.calls ≠ none := by
  have hs : At false s := by
    refine ⟨?_, hfree⟩
    rw [hcalls]
    rfl
  have hrun := run_moves sb devs c s hs
  generalize (run sb devs c).exec s = r at hrun ⊢
  rcases r with ⟨e | v, t⟩
  . rcases hrun with ⟨b, hb⟩
    show brackets t.calls ≠ none
    rw [hb.calls]
    nofun
  . refine ⟨hrun.calls, ?_, hrun.free⟩
    have hcount := count_of_track t.calls (a := false) hrun.calls
    simpa using hcount

def smallSb : Superblock :=
  { size := 12, nblocks := 4, ninodes := 8, nlog := 3, logstart := 2, inodestart := 5, bmapstart := 6 }

def noDevices : Devices :=
  { read := fun _ => none, write := fun _ => none, pipewrite := fun _ => -1 }

def unlinked : Sys :=
  { inode := fun ip => ⟨ROOTDEV, 2, if ip = 0 then 1 else 0, true, .fresh T_FILE⟩
    locked := fun _ => false
    dinode := fun _ => .fresh T_FILE
    used := fun _ => true
    block := fun _ => Bytes.zero
    file := fun f => if f = 0 then ⟨.inode 0, 1, true, true, 0⟩ else ⟨.none, 0, false, false, 0⟩
    ofile := fun fd => if fd = 0 then some 0 else none
    cwd := none
    calls := [] }

theorem unlinked_freeFiles : FreeFiles unlinked := by
  intro f
  by_cases hf : f = 0
  . subst hf
    nofun
  . simp [unlinked, hf]

theorem calls_bracketed_fileclose
    : ((run smallSb noDevices (.fileclose 0)).exec unlinked).2.calls =
        [.beginOp, .iput, .logWrite 5, .logWrite 5, .endOp] ∧
      brackets [.beginOp, .iput, .logWrite 5, .logWrite 5, .endOp] = some false := by
  have hcalls : ((run smallSb noDevices (.fileclose 0)).exec unlinked).2.calls =
      [.beginOp, .iput, .logWrite 5, .logWrite 5, .endOp] := rfl
  have hbracketed := calls_bracketed smallSb noDevices (.fileclose 0) rfl unlinked_freeFiles
  exact ⟨hcalls, hcalls ▸ hbracketed.1⟩

end Sysfile
end Xv6
