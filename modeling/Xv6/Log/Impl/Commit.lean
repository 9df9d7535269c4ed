import Xv6.Data.Writes
import Xv6.Log.Basic

/-!
`commit` and `recover_from_log` of `log.c` over a disk and its buffer cache. `writes` lists the blocks
that `bwrite` has sent to the disk, in issue order: a crash keeps a prefix of them.
-/

namespace Xv6

structure LogDev where
  disk : Nat → Block
  cache : Nat → Option Block
  lh : LogHeader
  writes : List (Nat × Block)

namespace LogDev

def contents (m : LogDev) (b : Nat) : Block :=
  (m.cache b).getD (m.disk b)

def bread (m : LogDev) (b : Nat) : Block × LogDev :=
  (m.contents b, { m with cache := Function.update m.cache b (some (m.contents b)) })

def bwrite (m : LogDev) (b : Nat) (data : Block) : LogDev :=
  { m with
    disk := Function.update m.disk b data
    cache := Function.update m.cache b (some data)
    writes := m.writes ++ [(b, data)] }

end LogDev

def LogHeader.store (lh : LogHeader) (buf : Block) : Block :=
  (List.range lh.n).foldl (fun b i => b.setWord (4 + 4 * i) (lh.get i))
    (buf.setWord 0 (BitVec.ofNat 32 lh.n))

namespace LogDev

def installTrans (start : Nat) (m : LogDev) : LogDev :=
  (List.range m.lh.n).foldl go m
where
  go (m : LogDev) (tail : Nat) : LogDev :=
    let (lbuf, m) := m.bread (start + tail + 1)
    let (_, m) := m.bread (m.lh.get tail).toNat
    m.bwrite (m.lh.get tail).toNat lbuf

def readHead (start : Nat) (m : LogDev) : Except Fault LogDev :=
  let (buf, m) := m.bread start
  -- a negative n stops every loop over the header at once, as 0 does
  let n := (buf.getWord 0).toInt.toNat
  if h : n ≤ LOGSIZE then
    let block := fun i : Fin LOGSIZE =>
      if i.val < n then buf.getWord (4 + 4 * i.val) else m.lh.block i
    .ok { m with lh := ⟨n, block, h⟩ }
  else
    .error .outOfBounds

def writeHead (start : Nat) (m : LogDev) : LogDev :=
  let (buf, m) := m.bread start
  m.bwrite start (m.lh.store buf)

def recoverFromLog (start : Nat) (m : LogDev) : Except Fault LogDev := do
  let m ← readHead start m
  let m := installTrans start m
  let m := { m with lh := m.lh.clear }
  return writeHead start m

def writeLog (start : Nat) (m : LogDev) : LogDev :=
  (List.range m.lh.n).foldl go m
where
  go (m : LogDev) (tail : Nat) : LogDev :=
    let (_, m) := m.bread (start + tail + 1)
    let (source, m) := m.bread (m.lh.get tail).toNat
    m.bwrite (start + tail + 1) source

def commit (start : Nat) (m : LogDev) : LogDev :=
  if m.lh.n > 0 then
    let m := writeLog start m
    let m := writeHead start m
    let m := installTrans start m
    let m := { m with lh := m.lh.clear }
    writeHead start m
  else
    m

def boot (d : Nat → Block) : LogDev where
  disk := d
  cache := fun _ => none
  lh := .zero
  writes := []

/--
`Interrupted start d d'`: booting on the disk `d`, with a crash after some prefix of the writes of
each recovery, can leave the disk `d'`.
-/
inductive Interrupted (start : Nat) : (Nat → Block) → (Nat → Block) → Prop where
  | refl (d : Nat → Block) : Interrupted start d d
  | crash {d d' : Nat → Block} {m : LogDev} (k : Nat) :
      recoverFromLog start (boot d) = .ok m →
        Interrupted start (Writes.apply d (m.writes.take k)) d' → Interrupted start d d'

end LogDev

end Xv6
