import Mathlib.Data.List.Basic
import Mathlib.Data.Nat.ModEq
import Mathlib.Logic.Function.Basic

/-!
A queue in an array of `N` slots, addressed by two counters that are never reset and wrap around at
`2 ^ w`, a multiple of `N`.
-/

namespace Ring

variable {α : Type u} {N w : Nat} [NeZero N]

def slot (n : BitVec w) : Fin N := Fin.ofNat N n.toNat

theorem slot_val (n : BitVec w) : (slot n : Fin N).val = n.toNat % N := rfl

theorem slot_add (hdvd : N ∣ 2 ^ w) (n : BitVec w) (i : Nat)
    : (slot (n + BitVec.ofNat w i) : Fin N).val = (n.toNat + i) % N := by
  rw [slot_val, BitVec.toNat_add, BitVec.toNat_ofNat, Nat.add_mod_mod, Nat.mod_mod_of_dvd _ hdvd]

theorem slot_add_inj (hdvd : N ∣ 2 ^ w) (n : BitVec w) {i j : Nat} (hi : i < N) (hj : j < N)
    (h : (slot (n + BitVec.ofNat w i) : Fin N) = slot (n + BitVec.ofNat w j))
    : i = j := by
  have hval := congrArg Fin.val h
  rw [slot_add hdvd, slot_add hdvd] at hval
  have hmod : Nat.ModEq N i j := Nat.ModEq.add_left_cancel' n.toNat hval
  exact hmod.eq_of_lt_of_lt hi hj

/--
`Holds data r v q`: the slots from the counter `r` up to the counter `v` hold the elements of `q`.
-/
structure Holds (data : Fin N → α) (r v : BitVec w) (q : List α) : Prop where
  length_le : q.length ≤ N
  counter : v = r + BitVec.ofNat w q.length
  get : ∀ i, i < q.length → q[i]? = some (data (slot (r + BitVec.ofNat w i)))

namespace Holds

variable {data : Fin N → α} {r v : BitVec w} {q : List α} {a : α}

theorem nil (data : Fin N → α) (r : BitVec w) : Holds data r r [] where
  length_le := Nat.zero_le _
  counter := by simp
  get := by simp

theorem counter_eq_iff (h : Holds data r v q) (hN : N < 2 ^ w) {n : Nat} (hn : n ≤ N)
    : v = r + BitVec.ofNat w n ↔ q.length = n := by
  rw [h.counter]
  constructor
  . intro heq
    have hval := congrArg BitVec.toNat ((BitVec.add_right_inj r).mp heq)
    rw [BitVec.toNat_ofNat, BitVec.toNat_ofNat] at hval
    rw [Nat.mod_eq_of_lt, Nat.mod_eq_of_lt] at hval
    . exact hval
    . omega
    . have := h.length_le
      omega
  . intro heq
    rw [heq]

theorem empty_iff (h : Holds data r v q) (hN : N < 2 ^ w) : r = v ↔ q = [] := by
  have hiff := h.counter_eq_iff hN (Nat.zero_le N)
  rw [List.length_eq_zero_iff] at hiff
  rw [← hiff]
  constructor
  . intro heq
    simp [heq]
  . intro heq
    simp [heq]

theorem push (h : Holds data r v q) (hdvd : N ∣ 2 ^ w) (hq : q.length < N) (a : α)
    : Holds (Function.update data (slot v) a) r (v + 1) (q ++ [a]) where
  length_le := by
    rw [List.length_append, List.length_singleton]
    exact hq
  counter := by
    rw [h.counter, List.length_append, List.length_singleton, BitVec.ofNat_add, BitVec.add_assoc]
    rfl
  get := by
    intro i hi
    rw [List.length_append, List.length_singleton] at hi
    by_cases hlast : i = q.length
    . subst hlast
      rw [← h.counter, Function.update_self]
      simp
    . have hlt : i < q.length := by omega
      rw [List.getElem?_append_left hlt, h.get i hlt, Function.update_of_ne]
      intro heq
      rw [h.counter] at heq
      have := slot_add_inj hdvd r (by omega) hq heq
      omega

theorem head (h : Holds data r v (a :: q)) : data (slot r) = a := by
  have hget := h.get 0 (by simp)
  simpa using hget.symm

theorem pop (h : Holds data r v (a :: q)) : Holds data (r + 1) v q where
  length_le := by
    have := h.length_le
    rw [List.length_cons] at this
    omega
  counter := by
    rw [h.counter, List.length_cons, Nat.add_comm, BitVec.ofNat_add, ← BitVec.add_assoc]
    rfl
  get := by
    intro i hi
    have hget := h.get (i + 1) (by simpa using hi)
    rw [List.getElem?_cons_succ] at hget
    rw [hget, Nat.add_comm, BitVec.ofNat_add, ← BitVec.add_assoc]
    rfl

theorem counter_sub (h : Holds data r v q) (hN : N < 2 ^ w) : (v - r).toNat = q.length := by
  have := h.length_le
  rw [h.counter, BitVec.add_comm, BitVec.add_sub_cancel, BitVec.toNat_ofNat,
    Nat.mod_eq_of_lt (by omega)]

theorem last (h : Holds data r v (q ++ [a])) : data (slot (v - 1)) = a := by
  have hget := h.get q.length (by simp)
  have hv : v - 1 = r + BitVec.ofNat w q.length := by
    rw [h.counter, List.length_append, List.length_singleton, BitVec.ofNat_add, ← BitVec.add_assoc]
    exact BitVec.add_sub_cancel _ _
  rw [List.getElem?_append_right (Nat.le_refl _), Nat.sub_self] at hget
  rw [hv]
  simpa using hget.symm

theorem unpush (h : Holds data r v (q ++ [a])) : Holds data r (v - 1) q where
  length_le := by
    have := h.length_le
    rw [List.length_append, List.length_singleton] at this
    omega
  counter := by
    rw [h.counter, List.length_append, List.length_singleton, BitVec.ofNat_add, ← BitVec.add_assoc]
    exact BitVec.add_sub_cancel _ _
  get := by
    intro i hi
    have hget := h.get i (by simp; omega)
    rw [List.getElem?_append_left hi] at hget
    exact hget

end Holds

end Ring
