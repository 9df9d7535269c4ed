import Xv6.Data.Fold
import Xv6.Data.Transition
import Xv6.File.Lemmas.Refs
import Xv6.Data.Ensures

/-!
Every call leaves the counts exact. The one panic a call can run into is that of iget when the inode
cache is full.
-/

open Count

namespace Xv6
namespace FileSys

variable {s t : FileSys} {held : FileId → Int} {iheld : InodeId → Int} {f : FileId}
  {ip : InodeId} {p q : Fin NPROC} {fd : Fd}

def Yields {α : Type} (P : α → Prop) : Except Fault α → Prop
  | .ok a => P a
  | .error e => e = .panic "iget: no inodes"

theorem Yields.eq_outcome {α : Type} (P : α → Prop) (r : Except Fault α)
    : Yields P r = Outcome (· = .panic "iget: no inodes") r P := by
  cases r <;> rfl

theorem Yields.bind {α β : Type} {P : α → Prop} {Q : β → Prop} {r : Except Fault α}
    {k : α → Except Fault β} (h : Yields P r) (hk : ∀ a, P a → Yields Q (k a))
    : Yields Q (r >>= k) := by
  simp only [Yields.eq_outcome] at h hk ⊢
  exact h.bind hk

theorem Yields.mono {α : Type} {P Q : α → Prop} {r : Except Fault α} (h : Yields P r)
    (hpq : ∀ a, P a → Q a)
    : Yields Q r := by
  rw [Yields.eq_outcome] at h ⊢
  exact h.mono hpq

theorem Yields.map {α β : Type} {P : α → Prop} {Q : β → Prop} {r : Except Fault α} {k : α → β}
    (h : Yields P r) (hk : ∀ a, P a → Q (k a))
    : Yields Q (r.map k) := by
  rw [Yields.eq_outcome] at h ⊢
  exact h.map hk

structure Inv (s : FileSys) : Prop extends Exact s 0 0 where
  gone : ∀ p, (s.proc p).state ≠ .live → (∀ fd, (s.proc p).ofile fd = none) ∧ (s.proc p).cwd = none
  cwd : ∀ p, (s.proc p).state = .live → (s.proc p).cwd ≠ none

theorem Inv.of_proc (h : s.Inv) (hexact : t.Exact 0 0) (hlive : (s.proc p).state = .live)
    (hstate : (t.proc p).state = .live) (hcwd : (t.proc p).cwd ≠ none)
    (hother : ∀ q, q ≠ p → t.proc q = s.proc q)
    : t.Inv where
  toExact := hexact
  gone := by
    intro q hq
    by_cases hqp : q = p
    . subst hqp
      exact absurd hstate hq
    . rw [hother q hqp] at hq ⊢
      exact h.gone q hq
  cwd := by
    intro q hq
    by_cases hqp : q = p
    . subst hqp
      exact hcwd
    . rw [hother q hqp] at hq ⊢
      exact h.cwd q hq

theorem Inv.of_proc_eq (h : s.Inv) (hexact : t.Exact 0 0) (hproc : t.proc = s.proc) : t.Inv where
  toExact := hexact
  gone := by
    rw [hproc]
    exact h.gone
  cwd := by
    rw [hproc]
    exact h.cwd

theorem Inv.of_setSlot (h : s.Inv) (hexact : t.Exact 0 0) (hlive : (s.proc p).state = .live)
    {fd : Fd} {x : Option FileId} (hproc : t.proc = (s.setSlot p fd x).proc)
    : t.Inv := by
  apply h.of_proc hexact hlive
  . rw [hproc]
    simpa [setSlot, setProc] using hlive
  . rw [hproc]
    simpa [setSlot, setProc] using h.cwd p hlive
  . intro q hq
    rw [hproc]
    simp [setSlot, setProc, hq]

def Holds (s : FileSys) (r : Option InodeId × FileSys) : Prop :=
  r.2.Exact 0 (refs r.1) ∧ r.2.proc = s.proc

namespace Exact

theorem iget (h : s.Exact held iheld) (inum : Nat)
    : Yields (fun r => r.2.Exact held (fun i => iheld i + refs (some r.1) i) ∧ r.2.proc = s.proc)
        (s.iget inum) := by
  unfold FileSys.iget
  split
  next ip _ => exact ⟨h.idup ip, rfl⟩
  . split
    . exact rfl
    next ip hfree =>
      have hzero : (s.inode ip).ref = 0 := by simpa using List.find?_some hfree
      refine ⟨?_, rfl⟩
      apply (h.setInode ip _).congr (fun _ => rfl)
      intro i
      rw [hzero]
      dsimp only
      ring

theorem ilock (h : s.Exact held iheld) (hpos : 0 < iheld ip) : s.ilock ip = .ok () := by
  unfold FileSys.ilock
  rw [if_neg]
  rw [h.inode ip]
  omega

theorem ilock_self (h : s.Exact held (refs (some ip))) : s.ilock ip = .ok () := by
  apply h.ilock
  rw [refs_self]
  decide

theorem iput_self (h : s.Exact held (refs (some ip))) : (s.iput ip).Exact held 0 := by
  apply (h.iput ip).congr (fun _ => rfl)
  intro i
  simp

theorem namexLoop (parent : Bool) (elems : List Lookup) (s : FileSys) (ip : InodeId)
    (h : s.Exact 0 (refs (some ip)))
    : Yields (Holds s) (FileSys.namexLoop parent elems s ip) := by
  induction elems generalizing s ip with
  | nil =>
    unfold FileSys.namexLoop
    split
    . refine ⟨?_, rfl⟩
      rw [refs_none]
      exact h.iput_self
    . exact ⟨h, rfl⟩
  | cons e rest ih =>
    have hdrop : Holds s (none, s.iput ip) := by
      refine ⟨?_, rfl⟩
      rw [refs_none]
      exact h.iput_self
    unfold FileSys.namexLoop
    rw [h.ilock_self]
    cases e with
    | notDir => exact hdrop
    | missing =>
      dsimp only [bind, Except.bind]
      split
      . exact ⟨h, rfl⟩
      . exact hdrop
    | found inum =>
      dsimp only
      rw [show (Except.ok () >>= fun _ => _) = _ from rfl]
      split
      . exact ⟨h, rfl⟩
      . apply (h.iget inum).bind
        rintro ⟨next, t⟩ ⟨ht, hproc⟩
        have hnext : (t.iput ip).Exact 0 (refs (some next)) := by
          apply (ht.iput ip).congr (fun _ => rfl)
          intro i
          dsimp only
          ring
        refine Yields.mono (ih (t.iput ip) next hnext) ?_
        rintro r ⟨hr, hrproc⟩
        exact ⟨hr, hrproc.trans hproc⟩

theorem filealloc (h : s.Exact held iheld)
    : s.filealloc = (none, s) ∨
        ∃ f t, s.filealloc = (some f, t) ∧ t.Exact (fun g => held g + refs (some f) g) iheld ∧
          (t.file f).type = .none ∧ (t.file f).ref = 1 ∧ (s.file f).ref = 0 ∧
          (∀ g, g ≠ f → t.file g = s.file g) ∧ t.pipe = s.pipe ∧ t.proc = s.proc := by
  unfold FileSys.filealloc
  split
  . exact .inl rfl
  next f hfree =>
    have hzero : (s.file f).ref = 0 := by simpa using List.find?_some hfree
    have hnone := h.idle f hzero
    refine .inr ⟨f, _, rfl, ⟨?_, h.pipes.setFile_of_type rfl rfl⟩, ?_, ?_, hzero, ?_, rfl, rfl⟩
    . refine (h.toCounts.setFile f { s.file f with ref := 1 } (fun _ => hnone)).congr ?_ ?_
      . funext g
        rw [hzero]
        dsimp only
        ring
      . funext i
        dsimp only [File.ip]
        ring
    . simpa [FileSys.setFile] using hnone
    . simp [FileSys.setFile]
    . intro g hg
      exact Function.update_of_ne hg _ _

theorem fdalloc (h : s.Exact held iheld) (p : Fin NPROC) (f : FileId)
    : s.fdalloc p f = (none, s) ∨
        ∃ fd, s.fdalloc p f = (some fd, s.setSlot p fd (some f)) ∧ (s.proc p).ofile fd = none ∧
          (s.setSlot p fd (some f)).Exact (fun g => held g - refs (some f) g) iheld := by
  unfold FileSys.fdalloc
  split
  . exact .inl rfl
  next fd hfree =>
    have hnone : (s.proc p).ofile fd = none := by simpa using List.find?_some hfree
    refine .inr ⟨fd, rfl, hnone, ?_⟩
    refine (h.setSlot p fd (some f)).congr ?_ (fun _ => rfl)
    intro g
    rw [hnone, refs_none]
    simp

theorem setType (h : s.Exact held (refs (some ip))) (hnone : (s.file f).type = .none)
    (hpos : (s.file f).ref ≠ 0) (readable writable : Bool)
    : (s.setFile f ⟨.inode ip, (s.file f).ref, readable, writable⟩).Exact held 0 := by
  constructor
  . refine (h.toCounts.setFile f ⟨.inode ip, (s.file f).ref, readable, writable⟩
      (fun heq => absurd heq hpos)).congr ?_ ?_
    . funext g
      dsimp only
      ring
    . funext i
      simp [File.ip, hnone]
  . apply h.pipes.setFile
    . rw [hnone]
      rintro _ ⟨⟩
    . rintro _ ⟨⟩

end Exact

theorem Counts.setEnd (h : s.Counts held iheld) (page : PageAddr) (hnone : (s.file f).type = .none)
    (hpos : (s.file f).ref ≠ 0) (readable writable : Bool)
    : (s.setFile f ⟨.pipe page, (s.file f).ref, readable, writable⟩).Counts held iheld := by
  refine (h.setFile f ⟨.pipe page, (s.file f).ref, readable, writable⟩
    (fun heq => absurd heq hpos)).congr ?_ ?_
  . funext g
    simp
  . funext i
    simp [File.ip, hnone]

namespace Inv

theorem zero_congr (h : s.Exact held iheld) (hheld : ∀ f, held f = 0) (hiheld : ∀ i, iheld i = 0)
    : s.Exact 0 0 :=
  h.congr (fun f => (hheld f).symm) (fun i => (hiheld i).symm)

theorem namex (h : s.Inv) (hlive : (s.proc p).state = .live) (path : Path) (parent : Bool)
    : Yields (Holds s) (s.namex p path parent) := by
  unfold FileSys.namex
  split
  . apply (h.toExact.iget ROOTINO).bind
    rintro ⟨ip, t⟩ ⟨ht, hproc⟩
    have ht : t.Exact 0 (refs (some ip)) := ht.congr (fun _ => rfl) (fun i => by simp)
    refine Yields.mono (Exact.namexLoop parent path.elems t ip ht) ?_
    rintro r ⟨hr, hrproc⟩
    exact ⟨hr, hrproc.trans hproc⟩
  . split
    next hnone => exact absurd hnone (h.cwd p hlive)
    next ip hcwd =>
      have ht : (s.idup ip).Exact 0 (refs (some ip)) :=
        (h.toExact.idup ip).congr (fun _ => rfl) (fun i => by simp)
      exact Exact.namexLoop parent path.elems (s.idup ip) ip ht

theorem create (h : s.Inv) (hlive : (s.proc p).state = .live) (path : Path) (entry : Entry)
    : Yields (Holds s) (s.create p path entry) := by
  unfold FileSys.create
  apply (h.namex hlive path true).bind
  rintro ⟨o, t⟩ ⟨ht, hproc⟩
  dsimp only at ht hproc
  cases o with
  | none => exact ⟨ht, hproc⟩
  | some dp =>
    dsimp only
    rw [ht.ilock_self]
    cases entry with
    | present inum isFile =>
      apply (ht.iget inum).bind
      rintro ⟨ip, u⟩ ⟨hu, huproc⟩
      dsimp only at hu huproc ⊢
      have hput : (u.iput dp).Exact 0 (refs (some ip)) :=
        (hu.iput dp).congr (fun _ => rfl) (fun i => by ring)
      rw [hput.ilock_self]
      cases isFile with
      | true => exact ⟨hput, huproc.trans hproc⟩
      | false =>
        refine ⟨?_, huproc.trans hproc⟩
        rw [refs_none]
        exact hput.iput_self
    | fresh inum =>
      apply (ht.iget inum).bind
      rintro ⟨ip, u⟩ ⟨hu, huproc⟩
      dsimp only at hu huproc ⊢
      rw [hu.ilock]
      . exact ⟨(hu.iput dp).congr (fun _ => rfl) (fun i => by dsimp only; ring), huproc.trans hproc⟩
      . rw [refs_self]
        have := refs_nonneg (some dp) ip
        omega

theorem openInode (h : s.Inv) (hlive : (s.proc p).state = .live) (args : OpenArgs)
    : Yields (Holds s) (s.openInode p args) := by
  unfold FileSys.openInode
  split
  next entry _ => exact h.create hlive args.path entry
  . apply (h.namex hlive args.path false).bind
    rintro ⟨o, t⟩ ⟨ht, hproc⟩
    dsimp only at ht hproc
    cases o with
    | none => exact ⟨ht, hproc⟩
    | some ip =>
      dsimp only
      rw [ht.ilock_self]
      dsimp only [bind, Except.bind]
      split
      . refine ⟨?_, hproc⟩
        rw [refs_none]
        exact ht.iput_self
      . exact ⟨ht, hproc⟩

theorem sysOpen (h : s.Inv) (hlive : (s.proc p).state = .live) (args : OpenArgs)
    : Yields (fun r => r.2.Inv) (s.sysOpen p args) := by
  unfold FileSys.sysOpen
  apply (h.openInode hlive args).bind
  rintro ⟨o, t⟩ ⟨ht, hproc⟩
  dsimp only at ht hproc
  cases o with
  | none =>
    rw [refs_none] at ht
    exact h.of_proc_eq ht hproc
  | some ip =>
    dsimp only
    rcases ht.filealloc with hfull | ⟨f, u, hf, hu, htype, hone, _, _, _, huproc⟩
    . rw [hfull]
      exact h.of_proc_eq ht.iput_self hproc
    . rw [hf]
      dsimp only
      rcases hu.fdalloc p f with hfull | ⟨fd, hfd, _, hslot⟩
      . rw [hfull]
        dsimp only
        rcases hu.fileclose (f := f) (by omega) with ⟨v, hv, hvexact, hvproc, _⟩
        rw [hv]
        show (v.iput ip).Inv
        refine h.of_proc_eq (t := v.iput ip) ?_ (hvproc.trans (huproc.trans hproc))
        apply zero_congr (hvexact.iput ip)
        . intro g
          simp
        . intro i
          simp
      . rw [hfd]
        dsimp only
        have hdone : (u.setSlot p fd (some f)).Exact 0 (refs (some ip)) :=
          hslot.congr (fun g => by simp) (fun _ => rfl)
        have hlive' : (u.proc p).state = .live := by
          rw [huproc, hproc]
          exact hlive
        apply h.of_setSlot (hdone.setType htype _ args.readable args.writable) hlive
        . show (u.setSlot p fd (some f)).proc = (s.setSlot p fd (some f)).proc
          simp only [setSlot, setProc, huproc, hproc]
        . show (u.file f).ref ≠ 0
          rw [hone]
          decide

theorem argfd_some {n : BitVec 32} {fd : Fd} (h : s.argfd p n = some (fd, f))
    : (s.proc p).ofile fd = some f := by
  unfold FileSys.argfd at h
  split at h
  . rw [Option.map_eq_some_iff] at h
    rcases h with ⟨g, hg, heq⟩
    cases heq
    exact hg
  . contradiction

theorem sysClose (h : s.Inv) (hlive : (s.proc p).state = .live) (n : BitVec 32)
    : Yields (fun r => r.2.Inv) (s.sysClose p n) := by
  unfold FileSys.sysClose
  split
  . exact h
  next fd f harg =>
    have hslot := argfd_some harg
    have hpos : 1 ≤ ((s.setSlot p fd none).file f).ref := h.toExact.file_pos hslot (by simp)
    rcases (h.toExact.setSlot p fd none).fileclose hpos with ⟨t, ht, hexact, hproc, _⟩
    rw [ht]
    apply h.of_setSlot _ hlive hproc
    apply zero_congr hexact
    . intro g
      rw [hslot]
      simp
    . simp

theorem sysDup (h : s.Inv) (hlive : (s.proc p).state = .live) (n : BitVec 32)
    : Yields (fun r => r.2.Inv) (s.sysDup p n) := by
  unfold FileSys.sysDup
  split
  . exact h
  next fd f harg =>
    have hslot := argfd_some harg
    rcases h.toExact.fdalloc p f with hfull | ⟨gd, hgd, _, hexact⟩
    . rw [hfull]
      exact h
    . rw [hgd]
      dsimp only
      have hpos : 1 ≤ ((s.setSlot p gd (some f)).file f).ref := h.toExact.file_pos hslot (by simp)
      rcases hexact.filedup hpos with ⟨t, ht, htexact, hproc⟩
      rw [ht]
      apply h.of_setSlot _ hlive hproc
      apply zero_congr htexact
      . simp
      . simp

theorem sysDup2 (h : s.Inv) (hlive : (s.proc p).state = .live) (n m : BitVec 32)
    : Yields (fun r => r.2.Inv) (s.sysDup2 p n m) := by
  unfold FileSys.sysDup2
  split
  . exact h
  next fd f harg =>
    have hslot := argfd_some harg
    split
    next hm =>
      generalize (⟨m.toNat, hm⟩ : Fd) = gd
      dsimp only
      split
      . exact h
      next hne =>
        have hpos := h.toExact.file_pos hslot (by simp)
        cases hg : (s.proc p).ofile gd with
        | none =>
          dsimp only
          rcases (h.toExact.setSlot p gd (some f)).filedup (f := f) hpos with ⟨t, ht, htexact, hproc⟩
          rw [Fold.ok_bind, ht]
          apply h.of_setSlot _ hlive hproc
          apply zero_congr htexact
          . intro g
            rw [hg]
            simp
          . simp
        | some g =>
          have hgf : f ≠ g := by
            intro heq
            subst heq
            exact hne hg
          have hgpos : 1 ≤ ((s.setSlot p gd none).file g).ref := h.toExact.file_pos hg (by simp)
          rcases (h.toExact.setSlot p gd none).fileclose hgpos with ⟨t, ht, htexact, hproc, hfile⟩
          have hempty : (t.proc p).ofile gd = none := by
            rw [hproc]
            simp [setSlot, setProc]
          have htpos : 1 ≤ ((t.setSlot p gd (some f)).file f).ref := by
            show 1 ≤ (t.file f).ref
            rw [hfile f hgf]
            exact hpos
          rcases (htexact.setSlot p gd (some f)).filedup htpos with ⟨u, hu, huexact, huproc⟩
          dsimp only
          rw [ht, Fold.ok_bind, hu]
          have hproc' : u.proc = (s.setSlot p gd (some f)).proc := by
            rw [huproc]
            simp [setSlot, setProc, hproc]
          apply h.of_setSlot _ hlive hproc'
          apply zero_congr huexact
          . intro k
            rw [hempty, hg]
            simp
          . simp
    . exact h

theorem pipealloc (h : s.Exact 0 0) (page : Option PageAddr)
    (hpage : ∀ n, page = some n → s.pipe n = none)
    : (∃ t, s.pipealloc page = .ok (none, t) ∧ t.Exact 0 0 ∧ t.proc = s.proc) ∨
        ∃ f0 f1 t, s.pipealloc page = .ok (some (f0, f1), t) ∧
          t.Exact (fun g => refs (some f0) g + refs (some f1) g) 0 ∧ f1 ≠ f0 ∧ t.proc = s.proc := by
  unfold FileSys.pipealloc
  rcases h.filealloc with hfull | ⟨f0, t, hf0, ht, htype0, hone0, _, _, htpipe, htproc⟩
  . rw [hfull]
    exact .inl ⟨s, rfl, h, rfl⟩
  . rw [hf0]
    dsimp only
    rcases ht.filealloc with hfull | ⟨f1, u, hf1, hu, htype1, hone1, hzero1, hother, hupipe, huproc⟩
    . rw [hfull]
      dsimp only
      rcases ht.fileclose (f := f0) (by omega) with ⟨v, hv, hvexact, hvproc, _⟩
      rw [hv]
      refine .inl ⟨v, rfl, ?_, hvproc.trans htproc⟩
      apply zero_congr hvexact
      . intro g
        simp
      . simp
    . rw [hf1]
      dsimp only
      have hne : f1 ≠ f0 := by
        intro heq
        subst heq
        rw [hone0] at hzero1
        contradiction
      have hone0' : (u.file f0).ref = 1 := by
        rw [hother f0 (Ne.symm hne)]
        exact hone0
      have htype0' : (u.file f0).type = .none := by
        rw [hother f0 (Ne.symm hne)]
        exact htype0
      cases page with
      | none =>
        dsimp only
        rcases hu.fileclose (f := f0) (by omega) with ⟨v, hv, hvexact, hvproc, hvfile⟩
        have hvone : 1 ≤ (v.file f1).ref := by
          rw [hvfile f1 hne]
          omega
        rcases hvexact.fileclose hvone with ⟨w, hw, hwexact, hwproc, _⟩
        rw [hv, Fold.ok_bind, hw]
        refine .inl ⟨w, rfl, ?_, hwproc.trans (hvproc.trans (huproc.trans htproc))⟩
        apply zero_congr hwexact
        . intro g
          simp
        . simp
      | some n =>
        have hn : u.pipe n = none := by
          rw [hupipe, htpipe]
          exact hpage n rfl
        refine .inr ⟨f0, f1, _, rfl, ⟨?_, ?_⟩, hne, huproc.trans htproc⟩
        . have hcounts : (u.setPipe n (some ⟨true, true⟩)).Counts _ _ :=
            ⟨hu.file, hu.idle, hu.inode⟩
          have h0 := hcounts.setEnd n htype0' (by
            show (u.file f0).ref ≠ 0
            omega) true false
          have hf1' : ((u.setPipe n (some ⟨true, true⟩)).setFile f0
              ⟨.pipe n, (u.file f0).ref, true, false⟩).file f1 = u.file f1 :=
            Function.update_of_ne hne _ _
          refine (h0.setEnd n ?_ ?_ false true).congr ?_ rfl
          . exact (congrArg File.type hf1').trans htype1
          . intro hzero
            have hzero := (congrArg File.ref hf1').symm.trans hzero
            omega
          . funext g
            simp
        . exact hu.pipes.pipealloc hn hne htype0' htype1 ⟨rfl, rfl⟩ ⟨rfl, rfl⟩

theorem sysPipe (h : s.Inv) (hlive : (s.proc p).state = .live) (page : Option PageAddr)
    (hpage : ∀ n, page = some n → s.pipe n = none)
    : Yields (fun r => r.2.Inv) (s.sysPipe p page) := by
  unfold FileSys.sysPipe
  rcases pipealloc h.toExact page hpage with ⟨t, ht, hexact, hproc⟩ | ⟨rf, wf, t, ht, hexact, hne, hproc⟩
  . rw [ht]
    exact h.of_proc_eq hexact hproc
  . rw [ht, Fold.ok_bind]
    dsimp only
    have hrf : 1 ≤ (t.file rf).ref := by
      rw [hexact.file rf, refs_self, refs_of_ne (Ne.symm hne)]
      omega
    have hwf : 1 ≤ (t.file wf).ref := by
      rw [hexact.file wf, refs_self, refs_of_ne hne]
      omega
    rcases hexact.fdalloc p rf with hfull | ⟨fd0, hfd0, hfree0, hexact0⟩
    . rw [hfull]
      dsimp only
      rcases hexact.fileclose hrf with ⟨u, hu, huexact, huproc, hufile⟩
      have huwf : 1 ≤ (u.file wf).ref := by
        rw [hufile wf hne]
        exact hwf
      rcases huexact.fileclose huwf with ⟨v, hv, hvexact, hvproc, _⟩
      rw [hu, Fold.ok_bind, hv]
      refine h.of_proc_eq (t := v) ?_ (hvproc.trans (huproc.trans hproc))
      apply zero_congr hvexact
      . intro g
        ring
      . simp
    . rw [hfd0]
      dsimp only
      rcases hexact0.fdalloc p wf with hfull | ⟨fd1, hfd1, hfree1, hexact1⟩
      . rw [hfull]
        dsimp only
        have hback := hexact0.setSlot p fd0 none
        have hrf' : 1 ≤ (((t.setSlot p fd0 (some rf)).setSlot p fd0 none).file rf).ref := hrf
        rcases hback.fileclose hrf' with ⟨u, hu, huexact, huproc, hufile⟩
        have huwf : 1 ≤ (u.file wf).ref := by
          rw [hufile wf hne]
          exact hwf
        rcases huexact.fileclose huwf with ⟨v, hv, hvexact, hvproc, _⟩
        rw [hu, Fold.ok_bind, hv]
        have hvproc' : v.proc = (s.setSlot p fd0 none).proc := by
          rw [hvproc, huproc]
          simp [setSlot, setProc, hproc]
        refine h.of_setSlot (t := v) ?_ hlive hvproc'
        apply zero_congr hvexact
        . intro g
          simp [setSlot, setProc]
        . simp
      . rw [hfd1]
        refine h.of_proc (t := (t.setSlot p fd0 (some rf)).setSlot p fd1 (some wf)) ?_ hlive ?_ ?_ ?_
        . apply zero_congr hexact1
          . intro g
            ring
          . simp
        . simp [setSlot, setProc, hproc, hlive]
        . simpa [setSlot, setProc, hproc] using h.cwd p hlive
        . intro q hq
          simp [setSlot, setProc, hproc, hq]

theorem sysChdir (h : s.Inv) (hlive : (s.proc p).state = .live) (path : Path) (isDir : Bool)
    : Yields (fun r => r.2.Inv) (s.sysChdir p path isDir) := by
  unfold FileSys.sysChdir
  apply (h.namex hlive path false).bind
  rintro ⟨o, t⟩ ⟨ht, hproc⟩
  dsimp only at ht hproc
  cases o with
  | none =>
    rw [refs_none] at ht
    exact h.of_proc_eq ht hproc
  | some ip =>
    dsimp only
    rw [ht.ilock_self, Fold.ok_bind]
    split
    . exact h.of_proc_eq ht.iput_self hproc
    . split
      next hnone =>
        rw [hproc] at hnone
        exact absurd hnone (h.cwd p hlive)
      next cwd hcwd =>
        -- the old directory is given up while it is still the cwd
        have hexact := (ht.iput cwd).setCwd p (some ip)
        refine h.of_proc (t := (t.iput cwd).setCwd p (some ip)) ?_ hlive ?_ ?_ ?_
        . apply zero_congr hexact
          . simp
          . intro i
            have hold : ((t.iput cwd).proc p).cwd = some cwd := hcwd
            rw [hold]
            ring
        . show ((Function.update t.proc p _) p).state = .live
          rw [Function.update_self]
          show (t.proc p).state = .live
          rw [hproc]
          exact hlive
        . simp [setCwd, setProc]
        . intro q hq
          show (Function.update t.proc p _) q = _
          rw [Function.update_of_ne hq, hproc]

theorem exec (h : s.Inv) (hlive : (s.proc p).state = .live) (path : Path)
    : Yields (fun r => r.2.Inv) (s.exec p path) := by
  unfold FileSys.exec
  apply (h.namex hlive path false).bind
  rintro ⟨o, t⟩ ⟨ht, hproc⟩
  dsimp only at ht hproc
  cases o with
  | none =>
    rw [refs_none] at ht
    exact h.of_proc_eq ht hproc
  | some ip =>
    dsimp only
    rw [ht.ilock_self]
    exact h.of_proc_eq ht.iput_self hproc

def SameBut (s t : FileSys) (np : Fin NPROC) : Prop :=
  (∀ q, q ≠ np → t.proc q = s.proc q) ∧ (t.proc np).state = (s.proc np).state ∧
    (t.proc np).cwd = (s.proc np).cwd

theorem sameBut_setSlot (s : FileSys) (np : Fin NPROC) (fd : Fd) (x : Option FileId)
    : SameBut s (s.setSlot np fd x) np := by
  refine ⟨?_, ?_, ?_⟩
  . intro q hq
    simp [setSlot, setProc, hq]
  . simp [setSlot, setProc]
  . simp [setSlot, setProc]

theorem SameBut.trans {u : FileSys} {np : Fin NPROC} (h : SameBut s t np) (h' : SameBut t u np)
    : SameBut s u np :=
  ⟨fun q hq => (h'.1 q hq).trans (h.1 q hq), h'.2.1.trans h.2.1, h'.2.2.trans h.2.2⟩

theorem ofile_setSlot_of_ne {gd : Fd} (h : gd ≠ fd) (x : Option FileId)
    : ((s.setSlot p fd x).proc p).ofile gd = (s.proc p).ofile gd := by
  simp [setSlot, setProc, h]

theorem forkFiles (fds : List Fd) (hnodup : fds.Nodup) (s : FileSys) (h : s.Exact 0 0)
    (hempty : ∀ fd ∈ fds, (s.proc q).ofile fd = none)
    : ∃ t, fds.foldlM (forkFile p q) s = .ok t ∧ t.Exact 0 0 ∧ SameBut s t q := by
  induction fds generalizing s with
  | nil => exact ⟨s, rfl, h, fun _ _ => rfl, rfl, rfl⟩
  | cons fd fds ih =>
    rw [List.nodup_cons] at hnodup
    have hrest : ∀ gd ∈ fds, (s.proc q).ofile gd = none :=
      fun gd hgd => hempty gd (List.mem_cons_of_mem fd hgd)
    rw [List.foldlM_cons]
    unfold forkFile
    split
    . rw [Fold.ok_bind]
      exact ih hnodup.2 s h hrest
    next f hf =>
      rcases h.filedup (h.file_pos hf (by simp)) with ⟨t, ht, htexact, hproc⟩
      rw [ht, Fold.ok_bind]
      have hfd : (t.proc q).ofile fd = none := by
        rw [hproc]
        exact hempty fd List.mem_cons_self
      have hexact : (t.setSlot q fd (some f)).Exact 0 0 := by
        apply zero_congr (htexact.setSlot q fd (some f))
        . intro g
          rw [hfd]
          simp
        . simp
      have hsame : SameBut s (t.setSlot q fd (some f)) q := by
        have hslot := sameBut_setSlot t q fd (some f)
        unfold SameBut at hslot ⊢
        rw [hproc] at hslot
        exact hslot
      rcases ih hnodup.2 (t.setSlot q fd (some f)) hexact (by
        intro gd hgd
        have hne : gd ≠ fd := fun heq => hnodup.1 (heq ▸ hgd)
        rw [ofile_setSlot_of_ne hne, hproc]
        exact hrest gd hgd) with ⟨u, hu, huexact, husame⟩
      exact ⟨u, hu, huexact, hsame.trans husame⟩

theorem exitFiles (fds : List Fd) (hnodup : fds.Nodup) (s : FileSys) (h : s.Exact 0 0)
    : ∃ t, fds.foldlM (exitFile p) s = .ok t ∧ t.Exact 0 0 ∧ SameBut s t p ∧
        (∀ fd ∈ fds, (t.proc p).ofile fd = none) ∧
        ∀ fd, fd ∉ fds → (t.proc p).ofile fd = (s.proc p).ofile fd := by
  induction fds generalizing s with
  | nil => exact ⟨s, rfl, h, ⟨fun _ _ => rfl, rfl, rfl⟩, by simp, fun _ _ => rfl⟩
  | cons fd fds ih =>
    rw [List.nodup_cons] at hnodup
    rw [List.foldlM_cons]
    unfold exitFile
    split
    next hnone =>
      rw [Fold.ok_bind]
      rcases ih hnodup.2 s h with ⟨t, ht, hexact, hsame, hcleared, hkept⟩
      refine ⟨t, ht, hexact, hsame, ?_, ?_⟩
      . intro gd hgd
        rcases List.mem_cons.1 hgd with heq | hgd
        . subst heq
          rw [hkept gd hnodup.1]
          exact hnone
        . exact hcleared gd hgd
      . intro gd hgd
        exact hkept gd (fun hmem => hgd (List.mem_cons_of_mem fd hmem))
    next f hf =>
      rcases h.fileclose (h.file_pos hf (by simp)) with ⟨t, ht, htexact, hproc, _⟩
      rw [ht, Fold.ok_bind]
      have hexact : (t.setSlot p fd none).Exact 0 0 := by
        apply zero_congr (htexact.setSlot p fd none)
        . intro g
          rw [hproc, hf]
          simp
        . simp
      have hslot : SameBut s (t.setSlot p fd none) p := by
        have hslot := sameBut_setSlot t p fd none
        unfold SameBut at hslot ⊢
        rw [hproc] at hslot
        exact hslot
      rcases ih hnodup.2 (t.setSlot p fd none) hexact with ⟨u, hu, huexact, husame, hcleared, hkept⟩
      refine ⟨u, hu, huexact, hslot.trans husame, ?_, ?_⟩
      . intro gd hgd
        rcases List.mem_cons.1 hgd with heq | hgd
        . subst heq
          rw [hkept gd hnodup.1]
          simp [setSlot, setProc]
        . exact hcleared gd hgd
      . intro gd hgd
        rw [List.mem_cons, not_or] at hgd
        rw [hkept gd hgd.2, ofile_setSlot_of_ne hgd.1, hproc]

theorem fork (h : s.Inv) (hlive : (s.proc p).state = .live) (copyuvm : Bool)
    : Yields (fun r => r.2.Inv) (s.fork p copyuvm) := by
  unfold FileSys.fork
  split
  . exact h
  next np hnp =>
    have hunused : (s.proc np).state = .unused := by simpa using List.find?_some hnp
    have hgone := h.gone np (by
      rw [hunused]
      decide)
    have hne : p ≠ np := by
      intro heq
      subst heq
      rw [hunused] at hlive
      contradiction
    split
    . exact h
    . dsimp only
      rcases forkFiles (p := p) (q := np) (List.finRange NOFILE) (List.nodup_finRange NOFILE)
        (s.setProc np { s.proc np with state := .live }) (h.toExact.setState np .live) (by
          intro fd _
          simpa [setProc] using hgone.1 fd) with ⟨t, ht, hexact, hother, hstate, hcwd⟩
      rw [ht, Fold.ok_bind]
      have hp : t.proc p = s.proc p := by
        rw [hother p hne]
        simp [setProc, hne]
      split
      next hnone =>
        rw [hp] at hnone
        exact absurd hnone (h.cwd p hlive)
      next cwd _ =>
        have hnone : ((t.idup cwd).proc np).cwd = none := by
          show (t.proc np).cwd = none
          rw [hcwd]
          simpa [setProc] using hgone.2
        show ((t.idup cwd).setCwd np (some cwd)).Inv
        constructor
        . apply zero_congr ((hexact.idup cwd).setCwd np (some cwd))
          . simp
          . intro i
            rw [hnone]
            simp
        . intro q hq
          by_cases hqnp : q = np
          . subst hqnp
            exfalso
            apply hq
            show ((Function.update t.proc q _) q).state = .live
            rw [Function.update_self]
            show (t.proc q).state = .live
            rw [hstate]
            simp [setProc]
          . have hsame : ((t.idup cwd).setCwd np (some cwd)).proc q = s.proc q := by
              show (Function.update t.proc np _) q = _
              rw [Function.update_of_ne hqnp, hother q hqnp]
              simp [setProc, hqnp]
            rw [hsame] at hq ⊢
            exact h.gone q hq
        . intro q hq
          by_cases hqnp : q = np
          . subst hqnp
            simp [setCwd, setProc]
          . have hsame : ((t.idup cwd).setCwd np (some cwd)).proc q = s.proc q := by
              show (Function.update t.proc np _) q = _
              rw [Function.update_of_ne hqnp, hother q hqnp]
              simp [setProc, hqnp]
            rw [hsame] at hq ⊢
            exact h.cwd q hq

theorem exit (h : s.Inv) (hlive : (s.proc p).state = .live) : Yields Inv (s.exit p) := by
  unfold FileSys.exit
  rcases exitFiles (p := p) (List.finRange NOFILE) (List.nodup_finRange NOFILE) s h.toExact with
    ⟨t, ht, hexact, ⟨hother, hstate, hcwd⟩, hcleared, _⟩
  rw [ht, Fold.ok_bind]
  split
  next hnone =>
    rw [hcwd] at hnone
    exact absurd hnone (h.cwd p hlive)
  next cwd hcwd' =>
    show (((t.iput cwd).setCwd p none).setProc p
      { ((t.iput cwd).setCwd p none).proc p with state := .zombie }).Inv
    have hself : (((t.iput cwd).setCwd p none).setProc p
        { ((t.iput cwd).setCwd p none).proc p with state := .zombie }).proc p =
          ⟨.zombie, (t.proc p).ofile, none⟩ := by
      simp [setProc, setCwd, FileSys.iput, FileSys.setInode]
    have hrest : ∀ q, q ≠ p → (((t.iput cwd).setCwd p none).setProc p
        { ((t.iput cwd).setCwd p none).proc p with state := .zombie }).proc q = s.proc q := by
      intro q hq
      rw [← hother q hq]
      simp [setProc, setCwd, FileSys.iput, FileSys.setInode, hq]
    constructor
    . apply Exact.setState
      apply zero_congr ((hexact.iput cwd).setCwd p none)
      . simp
      . intro i
        have hold : ((t.iput cwd).proc p).cwd = some cwd := hcwd'
        rw [hold]
        simp
    . intro q hq
      by_cases hqp : q = p
      . subst hqp
        rw [hself]
        exact ⟨fun fd => hcleared fd (List.mem_finRange fd), rfl⟩
      . rw [hrest q hqp] at hq ⊢
        exact h.gone q hq
    . intro q hq
      by_cases hqp : q = p
      . subst hqp
        rw [hself] at hq
        contradiction
      . rw [hrest q hqp] at hq ⊢
        exact h.cwd q hq

theorem reap (h : s.Inv) (hzombie : (s.proc p).state = .zombie) : (s.reap p).Inv where
  toExact := h.toExact.setState p .unused
  gone := by
    intro q hq
    by_cases hqp : q = p
    . subst hqp
      have hgone := h.gone q (by
        rw [hzombie]
        decide)
      simpa [FileSys.reap, setProc] using hgone
    . simp only [FileSys.reap, setProc, ne_eq, hqp, not_false_eq_true, Function.update_of_ne] at hq ⊢
      exact h.gone q hq
  cwd := by
    intro q hq
    by_cases hqp : q = p
    . subst hqp
      simp [FileSys.reap, setProc] at hq
    . simp only [FileSys.reap, setProc, ne_eq, hqp, not_false_eq_true, Function.update_of_ne] at hq ⊢
      exact h.cwd q hq

theorem call (h : s.Inv) (hlive : (s.proc p).state = .live) (c : Call)
    (hpage : ∀ page, c = .pipe (some page) → s.pipe page = none)
    : Yields Inv (s.call p c) := by
  cases c with
  | «open» args => exact (h.sysOpen hlive args).map (fun _ hr => hr)
  | close n => exact (h.sysClose hlive n).map (fun _ hr => hr)
  | dup n => exact (h.sysDup hlive n).map (fun _ hr => hr)
  | dup2 n m => exact (h.sysDup2 hlive n m).map (fun _ hr => hr)
  | pipe page =>
    refine (h.sysPipe hlive page ?_).map (fun _ hr => hr)
    intro n hn
    exact hpage n (by rw [hn])
  | chdir path isDir => exact (h.sysChdir hlive path isDir).map (fun _ hr => hr)
  | fork copyuvm => exact (h.fork hlive copyuvm).map (fun _ hr => hr)
  | exec path => exact (h.exec hlive path).map (fun _ hr => hr)
  | exit => exact h.exit hlive

theorem step (h : s.Inv) {e : Event} (hstep : s.Step e t) : t.Inv := by
  cases hstep with
  | call hlive hpage hcall =>
    have hyields := h.call hlive _ hpage
    rw [hcall] at hyields
    exact hyields
  | reap hzombie => exact h.reap hzombie

theorem loaded_exact : loaded.Exact 0 0 where
  file := by
    intro f
    have hslots : occ loaded.slots f = 0 := occ_eq_zero (fun _ => nofun)
    rw [hslots]
    rfl
  idle := fun _ _ => rfl
  inode := by
    intro ip
    have hfiles : occ loaded.fileInodes ip = 0 := occ_eq_zero (fun _ => nofun)
    have hcwds : occ loaded.cwds ip = 0 := occ_eq_zero (fun _ => nofun)
    rw [hfiles, hcwds]
    rfl
  pipes := by
    have hnone : ∀ page w f, ¬ loaded.IsEnd page w f := by
      intro page w f hf
      exact nomatch hf.1
    intro page
    constructor
    . intro w f g hf
      exact absurd hf (hnone page w f)
    . intro _
      exact hnone page
    . nofun
    . nofun
    . nofun

theorem userinit (h : loaded.userinit p = .ok s) : s.Inv := by
  unfold FileSys.userinit at h
  unfold FileSys.namex FileSys.namexLoop at h
  rw [if_pos rfl] at h
  have hget := loaded_exact.iget ROOTINO
  generalize loaded.iget ROOTINO = r at h hget
  cases r with
  | error e => contradiction
  | ok r =>
    rcases r with ⟨ip, t⟩
    rcases hget with ⟨ht, hproc⟩
    dsimp only at ht hproc
    cases h
    have hcwd : (t.proc p).cwd = none := by
      rw [hproc]
      rfl
    have hother : ∀ q, q ≠ p → ((t.setCwd p (some ip)).setProc p
        { (t.setCwd p (some ip)).proc p with state := .live }).proc q = loaded.proc q := by
      intro q hq
      rw [← hproc]
      simp [setProc, setCwd, hq]
    constructor
    . apply Exact.setState
      apply zero_congr (ht.setCwd p (some ip))
      . simp
      . intro i
        rw [hcwd]
        simp
    . intro q hq
      by_cases hqp : q = p
      . subst hqp
        simp [setProc] at hq
      . rw [hother q hqp]
        exact ⟨fun _ => rfl, rfl⟩
    . intro q hq
      by_cases hqp : q = p
      . subst hqp
        simp [setProc, setCwd]
      . rw [hother q hqp] at hq
        contradiction

end Inv

structure Balanced (s : FileSys) : Prop where
  file : ∀ f, (s.file f).ref = occ s.slots f
  inode : ∀ ip, (s.inode ip).ref =
    (Finset.univ.filter fun f => 0 < (s.file f).ref ∧ (s.file f).type = .inode ip).card +
      (Finset.univ.filter fun p => (s.proc p).cwd = some ip).card
  read : ∀ page e, s.pipe page = some e →
    (e.readopen = true ↔ ∃ f, 0 < (s.file f).ref ∧ s.IsEnd page false f)
  write : ∀ page e, s.pipe page = some e →
    (e.writeopen = true ↔ ∃ f, 0 < (s.file f).ref ∧ s.IsEnd page true f)
  used : ∀ page e, s.pipe page = some e → e.readopen = true ∨ e.writeopen = true
  freed : ∀ page, s.pipe page = none → ∀ f, 0 < (s.file f).ref → (s.file f).type ≠ .pipe page

theorem Exact.ref_pos (h : s.Exact 0 0) (htype : (s.file f).type ≠ .none) : 0 < (s.file f).ref := by
  have hne : (s.file f).ref ≠ 0 := fun hzero => htype (h.idle f hzero)
  have hcount := h.file f
  simp only [Pi.zero_apply] at hcount
  omega

theorem Exact.isEnd_pos (h : s.Exact 0 0) {page : PageAddr} {w : Bool}
    : (∃ f, s.IsEnd page w f) ↔ ∃ f, 0 < (s.file f).ref ∧ s.IsEnd page w f := by
  constructor
  . rintro ⟨f, hf⟩
    refine ⟨f, h.ref_pos ?_, hf⟩
    rw [hf.1]
    nofun
  . rintro ⟨f, _, hf⟩
    exact ⟨f, hf⟩

theorem Exact.balanced (h : s.Exact 0 0) : s.Balanced where
  file := by
    intro f
    rw [h.file f]
    simp only [Pi.zero_apply, add_zero]
  inode := by
    intro ip
    have hfiles : (Finset.univ.filter fun f => 0 < (s.file f).ref ∧ (s.file f).type = .inode ip) =
        Finset.univ.filter fun f => s.fileInodes f = some ip := by
      apply Finset.filter_congr
      intro f _
      unfold fileInodes File.ip
      cases htype : (s.file f).type with
      | none => simp
      | pipe page => simp
      | inode i =>
        have hpos := h.ref_pos (f := f) (by
          rw [htype]
          rintro ⟨⟩)
        simp [hpos]
    rw [hfiles, h.inode ip]
    simp only [Pi.zero_apply, add_zero]
    rfl
  read := by
    intro page e he
    rw [← h.isEnd_pos]
    exact (h.pipes page).read e he
  write := by
    intro page e he
    rw [← h.isEnd_pos]
    exact (h.pipes page).write e he
  used := fun page => (h.pipes page).used
  freed := by
    intro page hpage f _ htype
    exact (h.pipes page).free hpage (s.file f).writable f ⟨htype, rfl⟩

abbrev EventRun (ok : FileSys → Event → Prop) (s : FileSys) (es : List Event) (t : FileSys) : Prop :=
  Transition.Run Step ok s es t

theorem refs_exact_of_eventRun {events : List Event} (hinit : loaded.userinit p = .ok s)
    (hrun : EventRun (fun _ _ => True) s events t)
    : t.Balanced ∧
        ∀ q c e, (t.proc q).state = .live → (∀ page, c = .pipe (some page) → t.pipe page = none) →
          t.call q c = .error e → e = .panic "iget: no inodes" := by
  have hinv : t.Inv := by
    apply hrun.invariant _ (Inv.userinit hinit)
    intro u e v hu _ hstep
    exact hu.step hstep
  refine ⟨hinv.toExact.balanced, ?_⟩
  intro q c e hlive hpage hcall
  have hyields := hinv.call hlive c hpage
  rw [hcall] at hyields
  exact hyields

def booted : FileSys :=
  (loaded.setInode 0 ⟨1, ROOTINO⟩).setProc 0 ⟨.live, fun _ => none, some 0⟩

theorem refs_exact_of_eventRun_pipe
    : loaded.userinit 0 = .ok booted ∧
        ∃ t, EventRun (fun _ _ => True) booted
          [.call 0 (.open ⟨⟨false, [.missing]⟩, some (.fresh 7), false, false, true, true⟩),
            .call 0 (.pipe (some 5)), .call 0 (.fork true), .call 0 (.dup2 0 1),
            .call 1 (.close 1), .call 1 .exit, .reap 1] t ∧
          t.pipe 5 = some ⟨false, true⟩ ∧ (t.file 0).ref = 2 ∧ t.Balanced := by
  have hinit : loaded.userinit 0 = .ok booted := by
    have hget : loaded.iget ROOTINO = .ok (0, loaded.setInode 0 ⟨1, ROOTINO⟩) := rfl
    unfold FileSys.userinit FileSys.namex FileSys.namexLoop
    rw [if_pos rfl, hget]
    show Except.ok _ = Except.ok _
    congr 1
    simp [booted, setCwd, setProc]
    rfl
  have hrun : EventRun (fun _ _ => True) booted
      [.call 0 (.open ⟨⟨false, [.missing]⟩, some (.fresh 7), false, false, true, true⟩),
        .call 0 (.pipe (some 5)), .call 0 (.fork true), .call 0 (.dup2 0 1),
        .call 1 (.close 1), .call 1 .exit, .reap 1] _ :=
    .cons trivial (.call rfl (fun _ h => by cases h) rfl) <|
    .cons trivial (.call rfl (fun _ h => by cases h; rfl) rfl) <|
    .cons trivial (.call rfl (fun _ h => by cases h) rfl) <|
    .cons trivial (.call rfl (fun _ h => by cases h) rfl) <|
    .cons trivial (.call rfl (fun _ h => by cases h) rfl) <|
    .cons trivial (.call rfl (fun _ h => by cases h) rfl) <|
    .cons trivial (.reap rfl) (.nil _)
  exact ⟨hinit, _, hrun, rfl, rfl, (refs_exact_of_eventRun hinit hrun).1⟩

end FileSys
end Xv6
