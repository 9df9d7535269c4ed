import Mathlib.Data.Fintype.Prod
import Mathlib.Tactic.Ring
import Xv6.Data.Count
import Xv6.File.Impl.File

/-!
Reference counts. The counts have two parameters for the references that the running system call has
in its local variables; they are negative for a pointer that is in a table before its reference has
been counted, and between calls they are zero.
-/

open Count

namespace Xv6

def File.ip (x : File) : Option InodeId :=
  match x.type with
  | .inode ip => some ip
  | _ => none

namespace FileSys

variable {s t : FileSys} {held : FileId → Int} {iheld : InodeId → Int} {f g : FileId}
  {ip : InodeId} {p : Fin NPROC} {fd : Fd}

def slots (s : FileSys) : Fin NPROC × Fd → Option FileId := fun x => (s.proc x.1).ofile x.2

def cwds (s : FileSys) : Fin NPROC → Option InodeId := fun p => (s.proc p).cwd

def fileInodes (s : FileSys) : FileId → Option InodeId := fun f => File.ip (s.file f)

def IsEnd (s : FileSys) (page : PageAddr) (writable : Bool) (f : FileId) : Prop :=
  (s.file f).type = .pipe page ∧ (s.file f).writable = writable

structure PipeOk (s : FileSys) (page : PageAddr) (x : Option PipeEnds) : Prop where
  ends : ∀ writable f g, s.IsEnd page writable f → s.IsEnd page writable g → f = g
  free : x = none → ∀ writable f, ¬ s.IsEnd page writable f
  read : ∀ e, x = some e → (e.readopen = true ↔ ∃ f, s.IsEnd page false f)
  write : ∀ e, x = some e → (e.writeopen = true ↔ ∃ f, s.IsEnd page true f)
  used : ∀ e, x = some e → e.readopen = true ∨ e.writeopen = true

def PipesOk (s : FileSys) : Prop := ∀ page, s.PipeOk page (s.pipe page)

structure Counts (s : FileSys) (held : FileId → Int) (iheld : InodeId → Int) : Prop where
  file : ∀ f, (s.file f).ref = occ s.slots f + held f
  idle : ∀ f, (s.file f).ref = 0 → (s.file f).type = .none
  inode : ∀ ip, (s.inode ip).ref = occ s.fileInodes ip + occ s.cwds ip + iheld ip

structure Exact (s : FileSys) (held : FileId → Int) (iheld : InodeId → Int) : Prop
    extends Counts s held iheld where
  pipes : s.PipesOk

theorem slots_setSlot (s : FileSys) (p : Fin NPROC) (fd : Fd) (x : Option FileId)
    : (s.setSlot p fd x).slots = Function.update s.slots (p, fd) x := by
  funext ⟨q, gd⟩
  by_cases hq : q = p
  . subst hq
    by_cases hgd : gd = fd
    . subst hgd
      simp [slots, setSlot, setProc]
    . simp [slots, setSlot, setProc, hgd]
  . simp [slots, setSlot, setProc, hq]

theorem cwds_setSlot (s : FileSys) (p : Fin NPROC) (fd : Fd) (x : Option FileId)
    : (s.setSlot p fd x).cwds = s.cwds := by
  funext q
  by_cases hq : q = p
  . subst hq
    simp [cwds, setSlot, setProc]
  . simp [cwds, setSlot, setProc, hq]

theorem slots_setCwd (s : FileSys) (p : Fin NPROC) (x : Option InodeId)
    : (s.setCwd p x).slots = s.slots := by
  funext ⟨q, gd⟩
  by_cases hq : q = p
  . subst hq
    simp [slots, setCwd, setProc]
  . simp [slots, setCwd, setProc, hq]

theorem cwds_setCwd (s : FileSys) (p : Fin NPROC) (x : Option InodeId)
    : (s.setCwd p x).cwds = Function.update s.cwds p x := by
  funext q
  by_cases hq : q = p
  . subst hq
    simp [cwds, setCwd, setProc]
  . simp [cwds, setCwd, setProc, hq]

theorem fileInodes_setFile (s : FileSys) (f : FileId) (x : File)
    : (s.setFile f x).fileInodes = Function.update s.fileInodes f (File.ip x) := by
  funext g
  by_cases hg : g = f
  . subst hg
    simp [fileInodes, setFile]
  . simp [fileInodes, setFile, hg]

theorem PipeOk.of_isEnd {page : PageAddr} {x : Option PipeEnds} (h : s.PipeOk page x)
    (hend : ∀ writable g, t.IsEnd page writable g ↔ s.IsEnd page writable g)
    : t.PipeOk page x where
  ends := by
    simp only [hend]
    exact h.ends
  free := by
    simp only [hend]
    exact h.free
  read := by
    simp only [hend]
    exact h.read
  write := by
    simp only [hend]
    exact h.write
  used := h.used

theorem PipesOk.of_isEnd (h : s.PipesOk) (hpipe : t.pipe = s.pipe)
    (hend : ∀ page writable g, t.IsEnd page writable g ↔ s.IsEnd page writable g)
    : t.PipesOk := by
  intro page
  rw [hpipe]
  exact (h page).of_isEnd (hend page)

theorem isEnd_setFile_of_type {x : File} (htype : x.type = (s.file f).type)
    (hw : x.writable = (s.file f).writable) (page : PageAddr) (writable : Bool) (g : FileId)
    : (s.setFile f x).IsEnd page writable g ↔ s.IsEnd page writable g := by
  unfold IsEnd setFile
  by_cases hg : g = f
  . subst hg
    simp [htype, hw]
  . simp [hg]

namespace Counts

theorem congr (h : s.Counts held iheld) {held' : FileId → Int} {iheld' : InodeId → Int}
    (hheld : held' = held) (hiheld : iheld' = iheld)
    : s.Counts held' iheld' := by
  rw [hheld, hiheld]
  exact h

theorem setFile (h : s.Counts held iheld) (f : FileId) (x : File)
    (hidle : x.ref = 0 → x.type = .none)
    : (s.setFile f x).Counts (fun g => held g + (x.ref - (s.file f).ref) * refs (some f) g)
        (fun ip => iheld ip + refs (File.ip (s.file f)) ip - refs (File.ip x) ip) where
  file := by
    intro g
    show ((Function.update s.file f x) g).ref = occ s.slots g + _
    by_cases hg : g = f
    . subst hg
      rw [Function.update_self, refs_self]
      have hcount := h.file g
      omega
    . rw [Function.update_of_ne hg, refs_of_ne hg, h.file g]
      omega
  idle := by
    intro g hg
    by_cases hgf : g = f
    . subst hgf
      simp only [FileSys.setFile, Function.update_self] at hg ⊢
      exact hidle hg
    . simp only [FileSys.setFile, ne_eq, hgf, not_false_eq_true, Function.update_of_ne] at hg ⊢
      exact h.idle g hg
  inode := by
    intro i
    rw [fileInodes_setFile, occ_update_refs]
    show (s.inode i).ref = occ s.fileInodes i + refs (File.ip x) i - refs (File.ip (s.file f)) i +
      occ s.cwds i + _
    rw [h.inode i]
    omega

theorem setInode (h : s.Counts held iheld) (ip : InodeId) (x : InodeRef)
    : (s.setInode ip x).Counts held
        (fun i => iheld i + (x.ref - (s.inode ip).ref) * refs (some ip) i) where
  file := h.file
  idle := h.idle
  inode := by
    intro i
    show ((Function.update s.inode ip x) i).ref = occ s.fileInodes i + occ s.cwds i + _
    by_cases hi : i = ip
    . subst hi
      rw [Function.update_self, refs_self]
      have hcount := h.inode i
      omega
    . rw [Function.update_of_ne hi, refs_of_ne hi, h.inode i]
      omega

theorem setSlot (h : s.Counts held iheld) (p : Fin NPROC) (fd : Fd) (x : Option FileId)
    : (s.setSlot p fd x).Counts (fun f => held f + refs ((s.proc p).ofile fd) f - refs x f) iheld where
  file := by
    intro f
    rw [slots_setSlot, occ_update_refs]
    show (s.file f).ref = occ s.slots f + refs x f - refs ((s.proc p).ofile fd) f + _
    rw [h.file f]
    omega
  idle := h.idle
  inode := by
    intro ip
    rw [cwds_setSlot]
    exact h.inode ip

theorem setCwd (h : s.Counts held iheld) (p : Fin NPROC) (x : Option InodeId)
    : (s.setCwd p x).Counts held (fun ip => iheld ip + refs (s.proc p).cwd ip - refs x ip) where
  file := by
    intro f
    rw [slots_setCwd]
    exact h.file f
  idle := h.idle
  inode := by
    intro ip
    rw [cwds_setCwd, occ_update_refs]
    show (s.inode ip).ref = occ s.fileInodes ip +
      (occ s.cwds ip + refs x ip - refs (s.proc p).cwd ip) + _
    rw [h.inode ip]
    omega

theorem setState (h : s.Counts held iheld) (p : Fin NPROC) (x : SlotState)
    : (s.setProc p { s.proc p with state := x }).Counts held iheld := by
  have hslots : (s.setProc p { s.proc p with state := x }).slots = s.slots := by
    funext ⟨q, fd⟩
    by_cases hq : q = p
    . subst hq
      simp [slots, setProc]
    . simp [slots, setProc, hq]
  have hcwds : (s.setProc p { s.proc p with state := x }).cwds = s.cwds := by
    funext q
    by_cases hq : q = p
    . subst hq
      simp [cwds, setProc]
    . simp [cwds, setProc, hq]
  constructor
  . intro f
    rw [hslots]
    exact h.file f
  . exact h.idle
  . intro ip
    rw [hcwds]
    exact h.inode ip

end Counts

namespace PipesOk

theorem setFile (h : s.PipesOk) {x : File} (hold : ∀ page, (s.file f).type ≠ .pipe page)
    (hnew : ∀ page, x.type ≠ .pipe page)
    : (s.setFile f x).PipesOk := by
  refine h.of_isEnd rfl ?_
  intro page w g
  unfold IsEnd FileSys.setFile
  by_cases hg : g = f
  . subst hg
    simp [hold page, hnew page]
  . simp [hg]

theorem setFile_of_type (h : s.PipesOk) {x : File} (htype : x.type = (s.file f).type)
    (hw : x.writable = (s.file f).writable)
    : (s.setFile f x).PipesOk := by
  refine h.of_isEnd rfl ?_
  exact isEnd_setFile_of_type htype hw

theorem of_file (h : s.PipesOk) (hfile : t.file = s.file) (hpipe : t.pipe = s.pipe) : t.PipesOk := by
  refine h.of_isEnd hpipe ?_
  intro page w g
  unfold IsEnd
  rw [hfile]

theorem isEnd_free {x : File} (hx : x.type = .none) (page : PageAddr) (w : Bool) (g : FileId)
    : (s.setFile f x).IsEnd page w g ↔ g ≠ f ∧ s.IsEnd page w g := by
  unfold IsEnd FileSys.setFile
  by_cases hg : g = f
  . subst hg
    simp [hx]
  . simp [hg]

theorem isEnd_unique {page page' : PageAddr} {w w' : Bool} (h : s.IsEnd page w f)
    (h' : s.IsEnd page' w' f)
    : page' = page ∧ w' = w := by
  have hpage := h'.1.symm.trans h.1
  cases hpage
  exact ⟨rfl, h'.2.symm.trans h.2⟩

theorem setPipe {page : PageAddr} {x : Option PipeEnds} (h : s.PipesOk)
    (hfile : ∀ page', page' ≠ page → ∀ w g, t.IsEnd page' w g ↔ s.IsEnd page' w g)
    (hpipe : t.pipe = Function.update s.pipe page x) (hx : t.PipeOk page x)
    : t.PipesOk := by
  intro page'
  by_cases hpage : page' = page
  . subst hpage
    rw [hpipe, Function.update_self]
    exact hx
  . rw [hpipe, Function.update_of_ne hpage]
    exact (h page').of_isEnd (hfile page' hpage)

def closeEnd (e : PipeEnds) (w : Bool) : Option PipeEnds :=
  let e := if w then { e with writeopen := false } else { e with readopen := false }
  if e.readopen = false ∧ e.writeopen = false then none else some e

theorem pipeclose_eq {page : PageAddr} {e : PipeEnds} (hpipe : s.pipe page = some e) (w : Bool)
    : s.pipeclose page w = .ok (s.setPipe page (closeEnd e w)) := by
  unfold FileSys.pipeclose closeEnd
  rw [hpipe]
  dsimp only
  generalize (if w then { e with writeopen := false } else { e with readopen := false }) = e'
  split
  . rfl
  . rfl

theorem closeEnd_ok {page : PageAddr} {e : PipeEnds} {w : Bool} (h : s.PipeOk page (some e))
    (hgone : ∀ g, ¬ t.IsEnd page w g)
    (hother : ∀ g, t.IsEnd page (!w) g ↔ s.IsEnd page (!w) g)
    : t.PipeOk page (closeEnd e w) := by
  have hread := h.read e rfl
  have hwrite := h.write e rfl
  cases e with
  | mk readopen writeopen =>
    dsimp only at hread hwrite
    cases w with
    | false =>
      simp only [Bool.not_false] at hother
      simp only [← hother] at hwrite
      unfold closeEnd
      simp only [Bool.false_eq_true, if_false, true_and]
      split
      next hw =>
        subst hw
        have hnone : ∀ g, ¬ t.IsEnd page true g := by simpa using hwrite
        constructor
        . intro w f g hf
          cases w with
          | false => exact absurd hf (hgone f)
          | true => exact absurd hf (hnone f)
        . intro _ w f hf
          cases w with
          | false => exact hgone f hf
          | true => exact hnone f hf
        . nofun
        . nofun
        . nofun
      next hw =>
        have hw : writeopen = true := by simpa using hw
        subst hw
        constructor
        . intro w f g hf hg
          cases w with
          | false => exact absurd hf (hgone f)
          | true => exact h.ends true f g ((hother f).1 hf) ((hother g).1 hg)
        . nofun
        . intro e' he'
          cases he'
          simpa using hgone
        . intro e' he'
          cases he'
          exact hwrite
        . intro e' he'
          cases he'
          exact .inr rfl
    | true =>
      simp only [Bool.not_true] at hother
      simp only [← hother] at hread
      unfold closeEnd
      simp only [if_true, and_true]
      split
      next hr =>
        subst hr
        have hnone : ∀ g, ¬ t.IsEnd page false g := by simpa using hread
        constructor
        . intro w f g hf
          cases w with
          | true => exact absurd hf (hgone f)
          | false => exact absurd hf (hnone f)
        . intro _ w f hf
          cases w with
          | true => exact hgone f hf
          | false => exact hnone f hf
        . nofun
        . nofun
        . nofun
      next hr =>
        have hr : readopen = true := by simpa using hr
        subst hr
        constructor
        . intro w f g hf hg
          cases w with
          | true => exact absurd hf (hgone f)
          | false => exact h.ends false f g ((hother f).1 hf) ((hother g).1 hg)
        . nofun
        . intro e' he'
          cases he'
          exact hread
        . intro e' he'
          cases he'
          simpa using hgone
        . intro e' he'
          cases he'
          exact .inl rfl

-- The end `f` of the pipe goes: nobody else is that end.
theorem pipeclose (h : s.PipesOk) {page : PageAddr} {w : Bool} {x : File} (hend : s.IsEnd page w f)
    (hx : x.type = .none)
    : ∃ y, (s.setFile f x).pipeclose page w = .ok ((s.setFile f x).setPipe page y) ∧
        ((s.setFile f x).setPipe page y).PipesOk := by
  have hother : ∀ page' w' g, ¬ (page' = page ∧ w' = w) →
      ((s.setFile f x).IsEnd page' w' g ↔ s.IsEnd page' w' g) := by
    intro page' w' g hne
    rw [isEnd_free hx]
    constructor
    . exact And.right
    . intro hg
      refine ⟨?_, hg⟩
      intro heq
      subst heq
      exact hne (isEnd_unique hend hg)
  have hpage := h page
  cases hpipe : s.pipe page with
  | none =>
    rw [hpipe] at hpage
    exact absurd hend (hpage.free rfl w f)
  | some e =>
    rw [hpipe] at hpage
    have hpipe' : (s.setFile f x).pipe page = some e := hpipe
    refine ⟨closeEnd e w, pipeclose_eq hpipe' w, ?_⟩
    refine h.setPipe ?_ rfl ?_
    . intro page' hne w' g
      exact hother page' w' g (fun heq => hne heq.1)
    . apply closeEnd_ok hpage
      . intro g hg
        have hg := (isEnd_free hx page w g).1 hg
        exact hg.1 (hpage.ends w g f hg.2 hend)
      . intro g
        apply hother page (!w) g
        intro heq
        cases w with
        | false => simp at heq
        | true => simp at heq

theorem pipealloc (h : s.PipesOk) {page : PageAddr} {f0 f1 : FileId} {x0 x1 : File}
    (hpage : s.pipe page = none) (hne : f1 ≠ f0)
    (h0 : (s.file f0).type = .none) (h1 : (s.file f1).type = .none)
    (hx0 : x0.type = .pipe page ∧ x0.writable = false) (hx1 : x1.type = .pipe page ∧ x1.writable = true)
    : (((s.setPipe page (some ⟨true, true⟩)).setFile f0 x0).setFile f1 x1).PipesOk := by
  have hfree := h page
  rw [hpage] at hfree
  have hfree := hfree.free rfl
  have hfile : ∀ w g, (((s.setPipe page (some ⟨true, true⟩)).setFile f0 x0).setFile f1 x1).IsEnd page w g ↔
      (g = f0 ∧ w = false) ∨ (g = f1 ∧ w = true) := by
    intro w g
    unfold IsEnd FileSys.setFile FileSys.setPipe
    by_cases hg1 : g = f1
    . subst hg1
      simp [hne, hx1]
    . by_cases hg0 : g = f0
      . subst hg0
        simp [hg1, hx0]
      . have hnot := hfree w g
        unfold IsEnd at hnot
        simp [hg1, hg0]
        intro hp hw
        exact hnot ⟨hp, hw⟩
  refine h.setPipe ?_ rfl ?_
  . intro page' hpage' w g
    unfold IsEnd FileSys.setFile FileSys.setPipe
    by_cases hg1 : g = f1
    . subst hg1
      simp [hx1, h1, Ne.symm hpage']
    . by_cases hg0 : g = f0
      . subst hg0
        simp [hg1, hx0, h0, Ne.symm hpage']
      . simp [hg1, hg0]
  . constructor
    . intro w f g hf hg
      rw [hfile] at hf hg
      rcases hf with ⟨hf, hw⟩ | ⟨hf, hw⟩
      . rcases hg with ⟨hg, _⟩ | ⟨_, hw'⟩
        . rw [hf, hg]
        . rw [hw] at hw'
          contradiction
      . rcases hg with ⟨_, hw'⟩ | ⟨hg, _⟩
        . rw [hw] at hw'
          contradiction
        . rw [hf, hg]
    . nofun
    . intro e he
      cases he
      simp [hfile]
    . intro e he
      cases he
      simp [hfile]
    . intro e he
      cases he
      exact .inl rfl

end PipesOk

namespace Exact

theorem congr (h : s.Exact held iheld) {held' : FileId → Int} {iheld' : InodeId → Int}
    (hheld : ∀ f, held' f = held f) (hiheld : ∀ ip, iheld' ip = iheld ip)
    : s.Exact held' iheld' := by
  rw [funext hheld, funext hiheld]
  exact h

theorem setInode (h : s.Exact held iheld) (ip : InodeId) (x : InodeRef)
    : (s.setInode ip x).Exact held
        (fun i => iheld i + (x.ref - (s.inode ip).ref) * refs (some ip) i) :=
  ⟨h.toCounts.setInode ip x, h.pipes.of_file rfl rfl⟩

theorem setSlot (h : s.Exact held iheld) (p : Fin NPROC) (fd : Fd) (x : Option FileId)
    : (s.setSlot p fd x).Exact (fun f => held f + refs ((s.proc p).ofile fd) f - refs x f) iheld :=
  ⟨h.toCounts.setSlot p fd x, h.pipes.of_file rfl rfl⟩

theorem setCwd (h : s.Exact held iheld) (p : Fin NPROC) (x : Option InodeId)
    : (s.setCwd p x).Exact held (fun ip => iheld ip + refs (s.proc p).cwd ip - refs x ip) :=
  ⟨h.toCounts.setCwd p x, h.pipes.of_file rfl rfl⟩

theorem setState (h : s.Exact held iheld) (p : Fin NPROC) (x : SlotState)
    : (s.setProc p { s.proc p with state := x }).Exact held iheld :=
  ⟨h.toCounts.setState p x, h.pipes.of_file rfl rfl⟩

theorem idup (h : s.Exact held iheld) (ip : InodeId)
    : (s.idup ip).Exact held (fun i => iheld i + refs (some ip) i) := by
  apply (h.setInode ip _).congr (fun _ => rfl)
  intro i
  dsimp only
  ring

theorem iput (h : s.Exact held iheld) (ip : InodeId)
    : (s.iput ip).Exact held (fun i => iheld i - refs (some ip) i) := by
  apply (h.setInode ip _).congr (fun _ => rfl)
  intro i
  dsimp only
  ring

theorem file_pos (h : s.Exact held iheld) (hslot : (s.proc p).ofile fd = some f) (hheld : 0 ≤ held f)
    : 1 ≤ (s.file f).ref := by
  have hpos := occ_pos (show s.slots (p, fd) = some f from hslot)
  rw [h.file f]
  omega

theorem filedup (h : s.Exact held iheld) (hpos : 1 ≤ (s.file f).ref)
    : ∃ t, s.filedup f = .ok t ∧ t.Exact (fun g => held g + refs (some f) g) iheld ∧ t.proc = s.proc := by
  unfold FileSys.filedup
  rw [if_neg (by omega)]
  refine ⟨_, rfl, ⟨?_, h.pipes.setFile_of_type rfl rfl⟩, rfl⟩
  apply (h.toCounts.setFile f _ _).congr
  . funext g
    dsimp only
    ring
  . funext ip
    dsimp only [File.ip]
    ring
  . dsimp only
    omega

theorem fileclose (h : s.Exact held iheld) (hpos : 1 ≤ (s.file f).ref)
    : ∃ t, s.fileclose f = .ok t ∧ t.Exact (fun g => held g - refs (some f) g) iheld ∧
        t.proc = s.proc ∧ ∀ g, g ≠ f → t.file g = s.file g := by
  unfold FileSys.fileclose
  rw [if_neg (by omega)]
  split
  next hmore =>
    refine ⟨_, rfl, ⟨?_, h.pipes.setFile_of_type rfl rfl⟩, rfl, ?_⟩
    . apply (h.toCounts.setFile f _ _).congr
      . funext g
        dsimp only
        ring
      . funext ip
        dsimp only [File.ip]
        ring
      . dsimp only
        omega
    . intro g hg
      exact Function.update_of_ne hg _ _
  next hlast =>
    have hone : (s.file f).ref = 1 := by omega
    have hcounts := h.toCounts.setFile f { s.file f with ref := 0, type := .none } (fun _ => rfl)
    have hother : ∀ g, g ≠ f →
        (s.setFile f { s.file f with ref := 0, type := .none }).file g = s.file g :=
      fun g hg => Function.update_of_ne hg _ _
    dsimp only
    cases htype : (s.file f).type with
    | none =>
      refine ⟨_, rfl, ⟨?_, ?_⟩, rfl, hother⟩
      . apply hcounts.congr
        . funext g
          rw [hone]
          dsimp only
          ring
        . funext ip
          simp [File.ip, htype]
      . apply h.pipes.setFile
        . rw [htype]
          nofun
        . nofun
    | pipe page =>
      have hend : s.IsEnd page (s.file f).writable f := ⟨htype, rfl⟩
      rcases h.pipes.pipeclose (x := { s.file f with ref := 0, type := .none }) hend rfl with
        ⟨y, hy, hpipes⟩
      refine ⟨_, hy, ⟨?_, hpipes⟩, rfl, hother⟩
      have hcounts : ((s.setFile f { s.file f with ref := 0, type := .none }).setPipe page y).Counts _ _ :=
        ⟨hcounts.file, hcounts.idle, hcounts.inode⟩
      apply hcounts.congr
      . funext g
        rw [hone]
        dsimp only
        ring
      . funext ip
        simp [File.ip, htype]
    | inode ip =>
      have hmid : (s.setFile f { s.file f with ref := 0, type := .none }).Exact
          (fun g => held g - refs (some f) g) (fun i => iheld i + refs (some ip) i) := by
        refine ⟨?_, ?_⟩
        . apply hcounts.congr
          . funext g
            rw [hone]
            dsimp only
            ring
          . funext i
            simp [File.ip, htype]
        . apply h.pipes.setFile
          . rw [htype]
            nofun
          . nofun
      refine ⟨_, rfl, ?_, rfl, hother⟩
      apply (hmid.iput ip).congr (fun _ => rfl)
      intro i
      ring

end Exact

end FileSys
end Xv6
