import Xv6.Data.Transition
import Xv6.Fs.Basic

/-!
One `struct file` on a regular inode that any number of processes share, and their calls of `fileread`
and `filewrite` in the steps from `ilock` to `iunlock`. The inode's blocks are given by their number
in the file, as `bmap` finds or allocates them.
-/

namespace Xv6

structure DataInode where
  size : BitVec 32
  block : Nat → Block

namespace DataInode

def setBlock (ip : DataInode) (bn : Nat) (data : Block) : DataInode :=
  { ip with block := Function.update ip.block bn data }

-- Every iteration of the loops of readi and writei copies at least one byte.
def readiLoop (ip : DataInode) : Nat → Nat → Nat → List (BitVec 8)
  | 0, _, _ => []
  | fuel + 1, off, n =>
    if 0 < n then
      let m := min n (BSIZE - off % BSIZE)
      (List.range m).map (fun i => (ip.block (off / BSIZE)).byte (off % BSIZE + i)) ++
        readiLoop ip fuel (off + m) (n - m)
    else
      []

def readi (ip : DataInode) (off n : BitVec 32) : Option (List (BitVec 8)) :=
  if off > ip.size ∨ off + n < off then
    none
  else
    let n := if off + n > ip.size then ip.size - off else n
    some (ip.readiLoop n.toNat off.toNat n.toNat)

def writeiLoop : Nat → DataInode → Nat → List (BitVec 8) → DataInode
  | 0, ip, _, _ => ip
  | fuel + 1, ip, off, src =>
    if 0 < src.length then
      let m := min src.length (BSIZE - off % BSIZE)
      let data := (ip.block (off / BSIZE)).blit (off % BSIZE) m (src.getD · 0)
      writeiLoop fuel (ip.setBlock (off / BSIZE) data) (off + m) (src.drop m)
    else
      ip

def writei (ip : DataInode) (off : BitVec 32) (src : List (BitVec 8)) : Option DataInode :=
  let n := BitVec.ofNat 32 src.length
  if off > ip.size ∨ off + n < off then
    none
  else if off + n > BitVec.ofNat 32 (MAXFILE * BSIZE) then
    none
  else
    let ip := writeiLoop src.length ip off.toNat src
    let off := off + n
    if n > 0 ∧ off > ip.size then
      some { ip with size := off }
    else
      some ip

end DataInode

structure Transfer where
  call : Nat
  write : Bool
  start : Nat
  bytes : List (BitVec 8)

inductive SharedPc where
  | outside
  -- in the loop of filewrite
  | writing (call : Nat) (addr : List (BitVec 8)) (i : Nat)

structure Written where
  call : Nat
  addr : List (BitVec 8)
  r : Int

structure SharedSys where
  ip : DataInode
  off : BitVec 32
  readable : Bool
  writable : Bool
  pc : Nat → SharedPc
  calls : Nat
  history : List Transfer
  returned : List Written

namespace SharedSys

abbrev MAXCHUNK : Nat := (MAXOPBLOCKS - 1 - 1 - 2) / 2 * 512

def setPc (s : SharedSys) (p : Nat) (pc : SharedPc) : SharedSys :=
  { s with pc := Function.update s.pc p pc }

def filewriteReturn (s : SharedSys) (p call : Nat) (addr : List (BitVec 8)) (r : Int) : SharedSys :=
  { s.setPc p .outside with returned := ⟨call, addr, r⟩ :: s.returned }

-- filewrite up to the loop; n is the length of addr
def filewriteStart (s : SharedSys) (p : Nat) (addr : List (BitVec 8)) : SharedSys :=
  let call := s.calls
  let s := { s with calls := s.calls + 1 }
  if s.writable = false then
    s.filewriteReturn p call addr (-1)
  else if 0 < addr.length then
    s.setPc p (.writing call addr 0)
  else
    s.filewriteReturn p call addr 0

-- one iteration of the loop of filewrite, and the return behind it
def filewriteStep (s : SharedSys) (p call : Nat) (addr : List (BitVec 8)) (i : Nat) : SharedSys :=
  let n1 := min (addr.length - i) MAXCHUNK
  let src := (addr.drop i).take n1
  match s.ip.writei s.off src with
  | none => s.filewriteReturn p call addr (-1)
  | some ip =>
    let s := { s with
      ip := ip
      off := s.off + BitVec.ofNat 32 n1
      history := s.history ++ [Transfer.mk call true s.off.toNat src] }
    if i + n1 < addr.length then
      s.setPc p (.writing call addr (i + n1))
    else
      s.filewriteReturn p call addr addr.length

def fileread (s : SharedSys) (n : BitVec 32) : SharedSys :=
  let call := s.calls
  let s := { s with calls := s.calls + 1 }
  if s.readable = false then
    s
  else
    match s.ip.readi s.off n with
    | none => s
    | some bytes =>
      { s with
        off := s.off + BitVec.ofNat 32 bytes.length
        history := s.history ++ [Transfer.mk call false s.off.toNat bytes] }

inductive Event where
  | filewriteStart (p : Nat) (addr : List (BitVec 8))
  | filewriteStep (p : Nat)
  | fileread (p : Nat) (n : BitVec 32)

inductive Step : SharedSys → Event → SharedSys → Prop where
  | filewriteStart {s : SharedSys} {p : Nat} {addr : List (BitVec 8)} :
      s.pc p = .outside → addr.length < 2 ^ 31 →
        Step s (.filewriteStart p addr) (s.filewriteStart p addr)
  | filewriteStep {s : SharedSys} {p call i : Nat} {addr : List (BitVec 8)} :
      s.pc p = .writing call addr i →
        Step s (.filewriteStep p) (s.filewriteStep p call addr i)
  | fileread {s : SharedSys} {p : Nat} {n : BitVec 32} :
      s.pc p = .outside → Step s (.fileread p n) (s.fileread n)

abbrev EventRun := Transition.Run Step (fun _ _ => True)

structure Start (s : SharedSys) : Prop where
  size : s.ip.size.toNat ≤ MAXFILE * BSIZE
  pc : ∀ p, s.pc p = .outside
  history : s.history = []
  returned : s.returned = []

end SharedSys
end Xv6
