import Mathlib.Data.Fintype.Card
import Xv6.Data.Fold
import Xv6.Data.Transition
import Xv6.Fs.Basic

/-!
`ide.c`: the request queue, the commands given to the disk and the interrupt handler, with a disk
that transfers the block of each command and then raises one interrupt. What runs with `idelock` held
is one step. A buffer is named by `β`.
-/

namespace Xv6

abbrev SECTOR_SIZE : Nat := 512

structure IdeBuf (ι : Type) where
  dev : BitVec 32
  blockno : BitVec 32
  data : Block
  valid : Bool
  dirty : Bool
  -- the process that holds the sleep lock
  lock : Option ι

-- what idestart writes to the ports 0x1f2 to 0x1f6, and to 0x1f0 for a write
structure IdeCommand where
  count : BitVec 8
  lba0 : BitVec 8
  lba1 : BitVec 8
  lba2 : BitVec 8
  drive : BitVec 8
  write : Option Block

namespace IdeCommand

def sector (c : IdeCommand) : Nat :=
  c.lba0.toNat + 2 ^ 8 * c.lba1.toNat + 2 ^ 16 * c.lba2.toNat + 2 ^ 24 * (c.drive &&& 0x0f).toNat

def second (c : IdeCommand) : Bool :=
  c.drive &&& 0x10 != 0

end IdeCommand

def idestart {ι : Type} (b : IdeBuf ι) : Except Fault IdeCommand :=
  if b.blockno.toNat ≥ Mkfs.FSSIZE then
    .error (.panic "incorrect blockno")
  else if BSIZE / SECTOR_SIZE > 7 then
    .error (.panic "idestart")
  else
    let sector := b.blockno * BitVec.ofNat 32 (BSIZE / SECTOR_SIZE)
    .ok {
      count := BitVec.ofNat 8 (BSIZE / SECTOR_SIZE)
      lba0 := (sector &&& 0xff).setWidth 8
      lba1 := ((sector >>> 8) &&& 0xff).setWidth 8
      lba2 := ((sector >>> 16) &&& 0xff).setWidth 8
      drive := (0xe0#32 ||| ((b.dev &&& 1) <<< 4) ||| ((sector >>> 24) &&& 0x0f)).setWidth 8
      write := if b.dirty then some b.data else none }

-- `done c reg`: the interrupt is raised, and `reg` is what port 0x1f0 returns.
inductive Device where
  | idle
  | busy (c : IdeCommand)
  | done (c : IdeCommand) (reg : Block)

def IdeCommand.transfer (c : IdeCommand) (disk : Bool → Nat → Block) : (Bool → Nat → Block) × Block :=
  match c.write with
  | some data =>
    (Function.update disk c.second (Function.update (disk c.second) c.sector data), data)
  | none => (disk, disk c.second c.sector)

-- `pc p` is the buffer that the process waits for in `iderw`
structure IdeSys (ι β : Type) where
  buf : β → IdeBuf ι
  qnext : β → Option β
  idequeue : Option β
  havedisk1 : Bool
  disk : Bool → Nat → Block
  device : Device
  pc : ι → Option β

namespace IdeSys

variable {ι β : Type} [DecidableEq ι] [DecidableEq β]

def setBuf (s : IdeSys ι β) (b : β) (x : IdeBuf ι) : IdeSys ι β :=
  { s with buf := Function.update s.buf b x }

def setQnext (s : IdeSys ι β) (b : β) (next : Option β) : IdeSys ι β :=
  { s with qnext := Function.update s.qnext b next }

def start (s : IdeSys ι β) (b : β) : Except Fault (IdeSys ι β) := do
  let c ← idestart (s.buf b)
  return { s with device := .busy c }

/--
The loop of `iderw`: `pp` is `&idequeue` for `none` and `&b->qnext` for `some b`, and the last
argument is what it points to.
-/
def findEnd (s : IdeSys ι β) : Nat → Option β → Option β → Except Fault (Option β)
  | 0, _, _ => .error .diverges
  | _ + 1, pp, none => .ok pp
  | k + 1, _, some b => s.findEnd k (some b) (s.qnext b)

def link (s : IdeSys ι β) (pp : Option β) (b : β) : IdeSys ι β :=
  match pp with
  | none => { s with idequeue := some b }
  | some a => s.setQnext a (some b)

def iderw [Fintype β] (s : IdeSys ι β) (p : ι) (b : β) : Except Fault (IdeSys ι β) :=
  if (s.buf b).lock ≠ some p then
    .error (.panic "iderw: buf not locked")
  else if (s.buf b).valid ∧ ¬ (s.buf b).dirty then
    .error (.panic "iderw: nothing to do")
  else if (s.buf b).dev ≠ 0 ∧ ¬ s.havedisk1 then
    .error (.panic "iderw: ide disk 1 not present")
  else do
    let s := s.setQnext b none
    let pp ← s.findEnd (Fintype.card β + 1) none s.idequeue
    let s := s.link pp b
    let s ← if s.idequeue = some b then s.start b else .ok s
    return { s with pc := Function.update s.pc p (some b) }

def complete (x : IdeBuf ι) (reg : Block) : IdeBuf ι :=
  let x := if ¬ x.dirty then { x with data := reg } else x
  { x with valid := true, dirty := false }

def ideintr (s : IdeSys ι β) (reg : Block) : Except Fault (IdeSys ι β) :=
  match s.idequeue with
  | none => .ok s
  | some b =>
    let s := { s with idequeue := s.qnext b }
    let s := s.setBuf b (complete (s.buf b) reg)
    match s.idequeue with
    | none => .ok s
    | some b => s.start b

inductive Event (ι β : Type) where
  | call (p : ι) (b : β)
  | transfer
  | intr
  | ret (p : ι)
  | set (b : β) (x : IdeBuf ι)

/--
`set` stands for everything that is done to a buffer, its lock included, while no process is in
`iderw` with it.
-/
inductive Step [Fintype β] (s : IdeSys ι β) : Event ι β → IdeSys ι β → Prop where
  | call {p b t} : s.pc p = none → s.iderw p b = .ok t → Step s (.call p b) t
  | transfer {c} :
      s.device = .busy c →
        Step s .transfer
          { s with disk := (c.transfer s.disk).1, device := .done c (c.transfer s.disk).2 }
  | intr {c reg t} :
      s.device = .done c reg → { s with device := .idle }.ideintr reg = .ok t → Step s .intr t
  | ret {p b} :
      s.pc p = some b → (s.buf b).valid → ¬ (s.buf b).dirty →
        Step s (.ret p) { s with pc := Function.update s.pc p none }
  | set {b x} : (∀ p, s.pc p ≠ some b) → Step s (.set b x) (s.setBuf b x)

structure Start (s : IdeSys ι β) : Prop where
  idequeue : s.idequeue = none
  device : s.device = .idle
  pc : ∀ p, s.pc p = none

-- The requests are for the disk that `memide.c` has, too.
def ForDisk1 (s : IdeSys ι β) : Event ι β → Prop
  | .call _ b => (s.buf b).dev = 1
  | _ => True

abbrev EventRun [Fintype β] (s : IdeSys ι β) (es : List (Event ι β)) (t : IdeSys ι β) : Prop :=
  Transition.Run Step ForDisk1 s es t

end IdeSys

end Xv6
