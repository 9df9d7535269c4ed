import Xv6.Basic
import Xv6.Data.Bytes

namespace Xv6

abbrev BSIZE : Nat := 512

abbrev Block := Bytes BSIZE

abbrev NDIRECT : Nat := 12
abbrev NINDIRECT : Nat := BSIZE / 4
abbrev MAXFILE : Nat := NDIRECT + NINDIRECT

instance (priority := 2000) : NeZero (NDIRECT + 1) := ⟨by decide⟩

abbrev IPB : Nat := BSIZE / 64
abbrev BPB : Nat := BSIZE * 8

structure Superblock where
  size : Nat
  nblocks : Nat
  ninodes : Nat
  nlog : Nat
  logstart : Nat
  inodestart : Nat
  bmapstart : Nat
  deriving DecidableEq

def readsb (d : Nat → Block) : Superblock :=
  let data := d 1
  { size := (data.getWord 0).toNat
    nblocks := (data.getWord 4).toNat
    ninodes := (data.getWord 8).toNat
    nlog := (data.getWord 12).toNat
    logstart := (data.getWord 16).toNat
    inodestart := (data.getWord 20).toNat
    bmapstart := (data.getWord 24).toNat }

def Superblock.store (sb : Superblock) (buf : Block) : Block :=
  let buf := buf.setWord 0 (BitVec.ofNat 32 sb.size)
  let buf := buf.setWord 4 (BitVec.ofNat 32 sb.nblocks)
  let buf := buf.setWord 8 (BitVec.ofNat 32 sb.ninodes)
  let buf := buf.setWord 12 (BitVec.ofNat 32 sb.nlog)
  let buf := buf.setWord 16 (BitVec.ofNat 32 sb.logstart)
  let buf := buf.setWord 20 (BitVec.ofNat 32 sb.inodestart)
  buf.setWord 24 (BitVec.ofNat 32 sb.bmapstart)

namespace Mkfs

abbrev FSSIZE : Nat := 1000
abbrev NINODES : Nat := 200

instance : NeZero NINODES := ⟨by decide⟩

def nbitmap : Nat := FSSIZE / (BSIZE * 8) + 1

def ninodeblocks : Nat := NINODES / IPB + 1

def nlog : Nat := LOGSIZE

def nmeta : Nat := 2 + nlog + ninodeblocks + nbitmap

def sb : Superblock where
  size := FSSIZE
  nblocks := FSSIZE - nmeta
  ninodes := NINODES
  nlog := nlog
  logstart := 2
  inodestart := 2 + nlog
  bmapstart := 2 + nlog + ninodeblocks

def image (b : Nat) : Block :=
  if b = 1 then sb.store Bytes.zero else Bytes.zero

end Mkfs

end Xv6
