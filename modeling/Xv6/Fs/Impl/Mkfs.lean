import Xv6.Fs.Impl.Inode

/-!
`mkfs.c`, for a host on which the system calls on the image file do not fail. The input files are
those that could be opened, with the pieces in which `read` returns their contents.
-/

namespace Xv6
namespace Mkfs

structure File where
  -- the base name
  name : List (BitVec 8)
  name_ne_zero : ∀ b ∈ name, b ≠ 0
  chunks : List (List (BitVec 8))
  chunks_length : ∀ c ∈ chunks, 0 < c.length ∧ c.length ≤ BSIZE

def File.bytes (f : File) : List (BitVec 8) :=
  f.chunks.flatten

inductive Exit where
  | perror (text : String)
  | assertion (text : String)

inductive Write where
  | layout (sec : Nat)
  | inode (inum sec : Nat)
  | data (sec : Nat)
  | bitmap (sec : Nat)

def Write.sec : Write → Nat
  | .layout sec | .inode _ sec | .data sec | .bitmap sec => sec

structure State where
  disk : Fs.Disk
  -- sectors of the image file
  size : Nat
  freeinode : Nat
  freeblock : Nat
  writes : List Write

namespace State

-- the product sec * BSIZE is a uint
def seek (sec : Nat) : Nat :=
  sec * BSIZE % 2 ^ 32 / BSIZE

def wsect (s : State) (w : Write) (buf : Block) : State :=
  { s with
    disk := Function.update s.disk (seek w.sec) buf
    size := max s.size (seek w.sec + 1)
    writes := w :: s.writes }

def rsect (s : State) (sec : Nat) : Except Exit Block :=
  if seek sec < s.size then
    .ok (s.disk (seek sec))
  else
    .error (.perror "read")

def winode (s : State) (inum : Nat) (ip : Fs.Dinode) : Except Exit State := do
  let bn := sb.iblock inum
  let buf ← s.rsect bn
  return s.wsect (.inode inum bn) (buf.blit (inum % IPB * 64) 64 ip.byte)

def rinode (s : State) (inum : Nat) : Except Exit Fs.Dinode := do
  let bn := sb.iblock inum
  let buf ← s.rsect bn
  return buf.slice (inum % IPB * 64) 64

def ialloc (s : State) (type : Nat) : Except Exit (Nat × State) := do
  let inum := s.freeinode
  let s := { s with freeinode := s.freeinode + 1 }
  let din : Fs.Dinode := Bytes.zero
  let din := din.setType type
  let din := din.setNlink 1
  let din := din.setSize 0
  let s ← s.winode inum din
  return (inum, s)

def addrsAlloc (s : State) (din : Fs.Dinode) (i : Nat) : Fs.Dinode × State :=
  if din.addrs i = 0 then
    (din.setAddrs i s.freeblock, { s with freeblock := s.freeblock + 1 })
  else
    (din, s)

def indirectAlloc (s : State) (ind : Nat) (i : Nat) : Except Exit (Nat × State) := do
  let indirect ← s.rsect ind
  if indirect.getWord (4 * i) = 0 then
    let x := s.freeblock
    let indirect := indirect.setWord (4 * i) (BitVec.ofNat 32 x)
    let s := { s with freeblock := s.freeblock + 1 }
    return ((indirect.getWord (4 * i)).toNat, s.wsect (.data ind) indirect)
  else
    return ((indirect.getWord (4 * i)).toNat, s)

def blockAlloc (s : State) (din : Fs.Dinode) (fbn : Nat) : Except Exit (Nat × Fs.Dinode × State) :=
  if fbn < NDIRECT then
    let (din, s) := s.addrsAlloc din fbn
    .ok (din.addrs fbn, din, s)
  else do
    let (din, s) := s.addrsAlloc din NDIRECT
    let (x, s) ← s.indirectAlloc (din.addrs NDIRECT) (fbn - NDIRECT)
    return (x, din, s)

-- Every iteration of iappend copies at least one byte.
def iappendLoop
    : Nat → State → Fs.Dinode → Nat → List (BitVec 8) → Except Exit (Fs.Dinode × Nat × State)
  | 0, s, din, off, _ => .ok (din, off, s)
  | fuel + 1, s, din, off, p =>
    if 0 < p.length then
      let fbn := off / BSIZE
      if fbn < MAXFILE then do
        let (x, din, s) ← s.blockAlloc din fbn
        let n1 := min p.length ((fbn + 1) * BSIZE - off)
        let buf ← s.rsect x
        let s := s.wsect (.data x) (buf.blit (off - fbn * BSIZE) n1 (p.getD · 0))
        iappendLoop fuel s din (off + n1) (p.drop n1)
      else
        .error (.assertion "fbn < MAXFILE")
    else
      .ok (din, off, s)

def iappend (s : State) (inum : Nat) (p : List (BitVec 8)) : Except Exit State := do
  let din ← s.rinode inum
  let (din, off, s) ← iappendLoop p.length s din din.size p
  s.winode inum (din.setSize off)

def ballocBuf (used : Nat) : Block :=
  (List.range used).foldl
    (fun buf i => buf.blit (i / 8) 1 (fun _ => buf.byte (i / 8) ||| ((1 : BitVec 8) <<< (i % 8))))
    Bytes.zero

def balloc (s : State) (used : Nat) : Except Exit State :=
  if used < BSIZE * 8 then
    .ok (s.wsect (.bitmap sb.bmapstart) (ballocBuf used))
  else
    .error (.assertion "used < BSIZE*8")

end State

def direntName (name : List (BitVec 8)) : List (BitVec 8) :=
  name.take Fs.DIRSIZ ++ List.replicate (Fs.DIRSIZ - name.length) 0

def dirent (inum : Nat) (name : List (BitVec 8)) : List (BitVec 8) :=
  [BitVec.ofNat 8 inum, BitVec.ofNat 8 (inum / 256)] ++ direntName name

def dot : List (BitVec 8) := [46]

def dotdot : List (BitVec 8) := [46, 46]

def zeroes : State :=
  (List.range FSSIZE).foldl (fun s i => s.wsect (.layout i) Bytes.zero)
    { disk := fun _ => Bytes.zero, size := 0, freeinode := 1, freeblock := nmeta, writes := [] }

def format : State :=
  zeroes.wsect (.layout 1) (sb.store Bytes.zero)

-- the loop body of main for one input file
def addFile (rootino : Nat) (s : State) (f : File) : Except Exit State := do
  let (inum, s) ← s.ialloc Fs.T_FILE
  let s ← s.iappend rootino (dirent inum f.name)
  f.chunks.foldlM (fun s c => s.iappend inum c) s

def fixRoot (s : State) (rootino : Nat) : Except Exit State := do
  let din ← s.rinode rootino
  let off := din.size
  let off := (off / BSIZE + 1) * BSIZE
  s.winode rootino (din.setSize off)

def main (files : List File) : Except Exit State := do
  let (rootino, s) ← format.ialloc Fs.T_DIR
  if rootino = Fs.ROOTINO then
    let s ← s.iappend rootino (dirent rootino dot)
    let s ← s.iappend rootino (dirent rootino dotdot)
    let s ← files.foldlM (addFile rootino) s
    let s ← fixRoot s rootino
    s.balloc s.freeblock
  else
    .error (.assertion "rootino == ROOTINO")

end Mkfs
end Xv6
