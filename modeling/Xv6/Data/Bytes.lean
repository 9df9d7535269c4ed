import Mathlib.Data.Nat.Notation
import Mathlib.Tactic.Ring

/-!
Memory regions of a fixed size, with copies into a part of them and numbers stored in little endian
order at an offset.
-/

abbrev Bytes (n : Nat) := Fin n → BitVec 8

namespace Bytes

variable {n : Nat}

def byte (b : Bytes n) (j : Nat) : BitVec 8 :=
  if h : j < n then b ⟨j, h⟩ else 0

def zero : Bytes n :=
  fun _ => 0

def blit (b : Bytes n) (off len : Nat) (src : Nat → BitVec 8) : Bytes n :=
  fun j => if off ≤ j.val ∧ j.val < off + len then src (j.val - off) else b j

def slice (b : Bytes n) (off m : Nat) : Bytes m :=
  fun j => b.byte (off + j.val)

def getLE (b : Bytes n) : Nat → Nat → Nat
  | _, 0 => 0
  | off, k + 1 => (b.byte off).toNat + 256 * getLE b (off + 1) k

def setLE (b : Bytes n) (off k v : Nat) : Bytes n :=
  b.blit off k (fun i => BitVec.ofNat 8 (v / 256 ^ i))

theorem byte_of_ge (b : Bytes n) {j : Nat} (h : n ≤ j) : b.byte j = 0 := by
  have : ¬ j < n := by omega
  simp [byte, this]

@[simp]
theorem byte_zero (j : Nat) : (zero : Bytes n).byte j = 0 := by
  simp [byte, zero]

theorem byte_blit (b : Bytes n) (off len : Nat) (src : Nat → BitVec 8) (j : Nat) (hj : j < n)
    : (b.blit off len src).byte j =
        if off ≤ j ∧ j < off + len then src (j - off) else b.byte j := by
  simp [byte, blit, hj]

theorem byte_blit_of_disjoint (b : Bytes n) {off len : Nat} (src : Nat → BitVec 8) {j : Nat}
    (h : j < off ∨ off + len ≤ j)
    : (b.blit off len src).byte j = b.byte j := by
  cases Nat.lt_or_ge j n with
  | inl hj =>
    have : ¬ (off ≤ j ∧ j < off + len) := by omega
    simp only [byte_blit, hj, this, ↓reduceIte]
  | inr hj =>
    rw [byte_of_ge _ hj, byte_of_ge _ hj]

theorem getLE_congr {b c : Bytes n} {off k : Nat}
    (h : ∀ j, off ≤ j → j < off + k → b.byte j = c.byte j)
    : b.getLE off k = c.getLE off k := by
  induction k generalizing off with
  | zero => rfl
  | succ k ih =>
    simp only [getLE]
    rw [h off (by omega) (by omega)]
    rw [ih]
    intro j h1 h2
    apply h <;> omega

theorem getLE_blit_of_disjoint (b : Bytes n) {off len : Nat} (src : Nat → BitVec 8) {off' k : Nat}
    (h : off' + k ≤ off ∨ off + len ≤ off')
    : (b.blit off len src).getLE off' k = b.getLE off' k := by
  apply getLE_congr
  intro j h1 h2
  apply byte_blit_of_disjoint
  omega

theorem getLE_setLE_of_disjoint (b : Bytes n) {off k v off' k' : Nat}
    (h : off' + k' ≤ off ∨ off + k ≤ off')
    : (b.setLE off k v).getLE off' k' = b.getLE off' k' := by
  unfold setLE
  rw [getLE_blit_of_disjoint]
  assumption

theorem getLE_setLE_suffix (b : Bytes n) (off k v : Nat) (h : off + k ≤ n)
    : ∀ (i m : Nat), i + m = k →
        (b.setLE off k v).getLE (off + i) m = v / 256 ^ i % 256 ^ m := by
  intro i m
  induction m generalizing i with
  | zero =>
    intro _
    simp [getLE, Nat.mod_one]
  | succ m ih =>
    intro hm
    have hbyte : ((b.setLE off k v).byte (off + i)).toNat = v / 256 ^ i % 256 := by
      have : off ≤ off + i ∧ off + i < off + k := by omega
      rw [setLE, byte_blit _ _ _ _ _ (by omega)]
      simp only [this, and_self, ↓reduceIte, Nat.add_sub_cancel_left, BitVec.toNat_ofNat]
    simp only [getLE, hbyte]
    rw [Nat.add_assoc, ih (i + 1) (by omega)]
    rw [Nat.pow_succ, ← Nat.div_div_eq_div_mul, Nat.pow_succ, Nat.mul_comm (256 ^ m) 256]
    rw [Nat.mod_mul]

theorem getLE_setLE (b : Bytes n) {off k : Nat} (v : Nat) (h : off + k ≤ n)
    : (b.setLE off k v).getLE off k = v % 256 ^ k := by
  have := getLE_setLE_suffix b off k v h 0 k (by omega)
  simpa using this

@[simp]
theorem getLE_zero (off k : Nat) : (zero : Bytes n).getLE off k = 0 := by
  induction k generalizing off with
  | zero => rfl
  | succ k ih => simp [getLE, ih]

theorem slice_blit_self {m : Nat} (b : Bytes n) {off : Nat} (src : Bytes m) (h : off + m ≤ n)
    : (b.blit off m src.byte).slice off m = src := by
  funext j
  have hin : off ≤ off + j.val ∧ off + j.val < off + m := by omega
  show (b.blit off m src.byte).byte (off + j.val) = src j
  rw [byte_blit _ _ _ _ _ (by omega), if_pos hin, Nat.add_sub_cancel_left]
  simp [byte]

theorem slice_blit_of_disjoint {m : Nat} (b : Bytes n) {off len off' : Nat} (src : Nat → BitVec 8)
    (h : off' + m ≤ off ∨ off + len ≤ off')
    : (b.blit off len src).slice off' m = b.slice off' m := by
  funext j
  apply byte_blit_of_disjoint
  omega

def getWord (b : Bytes n) (off : Nat) : BitVec 32 :=
  BitVec.ofNat 32 (b.getLE off 4)

def setWord (b : Bytes n) (off : Nat) (w : BitVec 32) : Bytes n :=
  b.setLE off 4 w.toNat

theorem getWord_setWord (b : Bytes n) {off : Nat} (w : BitVec 32) (h : off + 4 ≤ n)
    : (b.setWord off w).getWord off = w := by
  unfold getWord setWord
  rw [getLE_setLE _ _ h]
  apply BitVec.eq_of_toNat_eq
  have := w.isLt
  simp only [BitVec.toNat_ofNat]
  omega

theorem getWord_setWord_of_disjoint (b : Bytes n) {off off' : Nat} (w : BitVec 32)
    (h : off' + 4 ≤ off ∨ off + 4 ≤ off')
    : (b.setWord off w).getWord off' = b.getWord off' := by
  unfold getWord setWord
  rw [getLE_setLE_of_disjoint]
  assumption

@[simp]
theorem getWord_zero (off : Nat) : (zero : Bytes n).getWord off = 0 := by
  simp [getWord]

end Bytes
