import Mathlib.Data.Fin.Basic
import Mathlib.Logic.Function.Basic
import Xv6.Fs.Basic

namespace Xv6

structure LogHeader where
  n : Nat
  block : Fin LOGSIZE → BitVec 32
  n_le : n ≤ LOGSIZE

namespace LogHeader

def zero : LogHeader where
  n := 0
  block := fun _ => 0
  n_le := by omega

def get (lh : LogHeader) (i : Nat) : BitVec 32 :=
  if h : i < LOGSIZE then lh.block ⟨i, h⟩ else 0

def clear (lh : LogHeader) : LogHeader where
  n := 0
  block := lh.block
  n_le := by omega

def blocks (lh : LogHeader) : List (BitVec 32) :=
  (List.range lh.n).map lh.get

@[simp]
theorem zero_n : zero.n = 0 := rfl

@[simp]
theorem clear_n (lh : LogHeader) : lh.clear.n = 0 := rfl

theorem mem_blocks {lh : LogHeader} {b : BitVec 32} : b ∈ lh.blocks ↔ ∃ i < lh.n, lh.get i = b := by
  simp [blocks]

theorem length_blocks (lh : LogHeader) : lh.blocks.length = lh.n := by
  simp [blocks]

end LogHeader

end Xv6
