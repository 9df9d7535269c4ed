import Mathlib.Data.List.FinRange
import Xv6.Data.Circular
import Xv6.Data.Transition
import Xv6.Fs.Basic

/-!
The buffer cache of `bio.c`, with `iderw` of `ide.c` and the flag that `log_write` sets. A use of the
cache is what happens between one call of bread and the brelse that belongs to it; a process can have
several at a time. What runs under bcache.lock is one step, and so is the transfer of a block.
-/

open Circular

namespace Xv6

abbrev NBUF : Nat := MAXOPBLOCKS * 3
abbrev ROOTDEV : BitVec 32 := 1

-- `none` is &bcache.head
abbrev BufPtr := Option (Fin NBUF)

structure Buf where
  valid : Bool
  dirty : Bool
  dev : BitVec 32
  blockno : BitVec 32
  refcnt : Nat
  data : Block

inductive BioPc where
  | idle
  -- bget has found the buffer and calls acquiresleep
  | wants (n : BitVec 32) (b : BufPtr)
  | locked (n : BitVec 32) (b : BufPtr)
  -- asleep in iderw
  | io (n : BitVec 32) (b : BufPtr)
  -- bread has returned; whether the data has been changed since the last log_write or bwrite
  | holding (n : BitVec 32) (b : BufPtr) (changed : Bool)
  -- brelse has called releasesleep
  | released (n : BitVec 32) (b : BufPtr)
  deriving DecidableEq

structure BioSys (ι : Type) where
  links : Links BufPtr
  buf : BufPtr → Buf
  lock : BufPtr → Option ι
  disk : BitVec 32 → Block
  pc : ι → BioPc
  -- what the holders of buffers have stored, the latest first
  stored : List (BitVec 32 × Block)

def binit (s : Links BufPtr) : Links BufPtr :=
  (List.finRange NBUF).foldl (fun s b => s.pushFront none (some b))
    ((s.setPrev none none).setNext none none)

namespace BioSys

variable {ι : Type} [DecidableEq ι]

def setBuf (s : BioSys ι) (b : BufPtr) (x : Buf) : BioSys ι :=
  { s with buf := Function.update s.buf b x }

def setLock (s : BioSys ι) (b : BufPtr) (x : Option ι) : BioSys ι :=
  { s with lock := Function.update s.lock b x }

def setPc (s : BioSys ι) (u : ι) (x : BioPc) : BioSys ι :=
  { s with pc := Function.update s.pc u x }

def bget (s : BioSys ι) (dev blockno : BitVec 32) : Except Fault (BufPtr × BioSys ι) :=
  match Links.find s.links.next (fun b => (s.buf b).dev = dev ∧ (s.buf b).blockno = blockno) none
      (NBUF + 1) (s.links.next none) with
  | none => .error .diverges
  | some (some b) => .ok (b, s.setBuf b { s.buf b with refcnt := (s.buf b).refcnt + 1 })
  | some none =>
    match Links.find s.links.prev (fun b => (s.buf b).refcnt = 0 ∧ (s.buf b).dirty = false) none
        (NBUF + 1) (s.links.prev none) with
    | none => .error .diverges
    | some (some b) =>
      .ok (b, s.setBuf b { s.buf b with dev, blockno, valid := false, dirty := false, refcnt := 1 })
    | some none => .error (.panic "bget: no buffers")

def holdingsleep (s : BioSys ι) (u : ι) (b : BufPtr) : Bool := s.lock b = some u

-- The disk is there; the request is in the queue until ideintr.
def iderw (s : BioSys ι) (u : ι) (n : BitVec 32) (b : BufPtr) : Except Fault (BioSys ι) :=
  if s.holdingsleep u b = false then
    .error (.panic "iderw: buf not locked")
  else if (s.buf b).valid = true ∧ (s.buf b).dirty = false then
    .error (.panic "iderw: nothing to do")
  else
    .ok (s.setPc u (.io n b))

def ideintr (s : BioSys ι) (u : ι) (n : BitVec 32) (b : BufPtr) : BioSys ι :=
  let s :=
    if (s.buf b).dirty then
      { s with disk := Function.update s.disk (s.buf b).blockno (s.buf b).data }
    else
      s.setBuf b { s.buf b with data := s.disk (s.buf b).blockno }
  (s.setBuf b { s.buf b with valid := true, dirty := false }).setPc u (.holding n b false)

-- bread, when bget has returned
def bread (s : BioSys ι) (u : ι) (n : BitVec 32) (b : BufPtr) : Except Fault (BioSys ι) :=
  if (s.buf b).valid = false then
    s.iderw u n b
  else
    .ok (s.setPc u (.holding n b false))

def bwrite (s : BioSys ι) (u : ι) (n : BitVec 32) (b : BufPtr) : Except Fault (BioSys ι) :=
  if s.holdingsleep u b = false then
    .error (.panic "bwrite")
  else
    (s.setBuf b { s.buf b with dirty := true }).iderw u n b

def logWrite (s : BioSys ι) (u : ι) (n : BitVec 32) (b : BufPtr) : BioSys ι :=
  (s.setBuf b { s.buf b with dirty := true }).setPc u (.holding n b false)

def store (s : BioSys ι) (u : ι) (n : BitVec 32) (b : BufPtr) (data : Block) : BioSys ι :=
  { (s.setBuf b { s.buf b with data }).setPc u (.holding n b true) with
    stored := ((s.buf b).blockno, data) :: s.stored }

-- brelse up to acquire(&bcache.lock)
def brelse (s : BioSys ι) (u : ι) (n : BitVec 32) (b : BufPtr) : Except Fault (BioSys ι) :=
  if s.holdingsleep u b = false then
    .error (.panic "brelse")
  else
    .ok ((s.setLock b none).setPc u (.released n b))

def brelseList (s : BioSys ι) (u : ι) (b : BufPtr) : BioSys ι :=
  let s := s.setBuf b { s.buf b with refcnt := (s.buf b).refcnt - 1 }
  let s :=
    if (s.buf b).refcnt = 0 then
      { s with links := (s.links.unlink b).pushFront none b }
    else
      s
  s.setPc u .idle

inductive Event (ι : Type) where
  | bget (u : ι) (n : BitVec 32)
  | acquiresleep (u : ι)
  | bread (u : ι)
  | ideintr (u : ι)
  | store (u : ι) (data : Block)
  | logWrite (u : ι)
  | bwrite (u : ι)
  | brelse (u : ι)
  | brelseList (u : ι)

inductive Step (s : BioSys ι) : Event ι → BioSys ι → Prop where
  | bget {u n b t} :
      s.pc u = .idle → s.bget ROOTDEV n = .ok (b, t) → Step s (.bget u n) (t.setPc u (.wants n b))
  | acquiresleep {u n b} :
      s.pc u = .wants n b → s.lock b = none →
        Step s (.acquiresleep u) ((s.setLock b (some u)).setPc u (.locked n b))
  | bread {u n b t} : s.pc u = .locked n b → s.bread u n b = .ok t → Step s (.bread u) t
  | ideintr {u n b} : s.pc u = .io n b → Step s (.ideintr u) (s.ideintr u n b)
  | store {u n b changed data} :
      s.pc u = .holding n b changed → Step s (.store u data) (s.store u n b data)
  | logWrite {u n b changed} :
      s.pc u = .holding n b changed → Step s (.logWrite u) (s.logWrite u n b)
  | bwrite {u n b changed t} :
      s.pc u = .holding n b changed → s.bwrite u n b = .ok t → Step s (.bwrite u) t
  -- the holder has called log_write or bwrite after it has changed the data
  | brelse {u n b t} : s.pc u = .holding n b false → s.brelse u n b = .ok t → Step s (.brelse u) t
  | brelseList {u n b} : s.pc u = .released n b → Step s (.brelseList u) (s.brelseList u b)

abbrev EventRun (ok : BioSys ι → Event ι → Prop) (s : BioSys ι) (es : List (Event ι)) (t : BioSys ι)
    : Prop :=
  Transition.Run Step ok s es t

structure Start (s : BioSys ι) : Prop where
  links : ∃ s₀, s.links = binit s₀
  buf : ∀ b, (s.buf b).valid = false ∧ (s.buf b).dirty = false ∧ (s.buf b).dev = 0 ∧
    (s.buf b).blockno = 0 ∧ (s.buf b).refcnt = 0
  lock : ∀ b, s.lock b = none
  pc : ∀ u, s.pc u = .idle
  stored : s.stored = []

def latest (disk : BitVec 32 → Block) (stored : List (BitVec 32 × Block)) (n : BitVec 32) : Block :=
  match stored.find? (fun x => x.1 = n) with
  | some x => x.2
  | none => disk n

end BioSys
end Xv6
