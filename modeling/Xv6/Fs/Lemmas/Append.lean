import Mathlib.Data.List.GetD
import Xv6.Data.Fold
import Xv6.Fs.Lemmas.Blockmap

namespace Xv6
namespace Mkfs

open Fs (Key Slot)

def blocks (n : Nat) : Nat :=
  (n + BSIZE - 1) / BSIZE + if NDIRECT * BSIZE < n then 1 else 0

theorem blocks_mono {m n : Nat} (h : m ≤ n) : blocks m ≤ blocks n := by
  have hsizes := sizes
  unfold blocks
  have : (m + BSIZE - 1) / BSIZE ≤ (n + BSIZE - 1) / BSIZE := Nat.div_le_div_right (by omega)
  split <;> split <;> omega

theorem blocks_add {off n : Nat} (hn : 0 < n) (hend : off + n ≤ (off / BSIZE + 1) * BSIZE)
    : blocks (off + n) = blocks off + (if off % BSIZE = 0 then 1 else 0) +
        (if off = NDIRECT * BSIZE then 1 else 0) := by
  have hsizes := sizes
  unfold blocks
  simp only [hsizes.1, hsizes.2.1] at hend ⊢
  split <;> split <;> split <;> split <;> omega

namespace State

/--
The blocks of inode `i` hold the bytes `c i`, and there are no others.
-/
structure Filled (s : State) (dins : Nat → Fs.Dinode) (map : Key → Nat)
    (c : Nat → List (BitVec 8)) : Prop extends Tree s dins map where
  free_le : s.freeblock ≤ FSSIZE
  mapped : ∀ i bn, map (i, .data bn) ≠ 0 ↔ bn * BSIZE < (c i).length
  indirect_iff : ∀ i, map (i, .indirect) ≠ 0 ↔ NDIRECT * BSIZE < (c i).length
  bytes : ∀ i j, j < (c i).length →
    (s.disk (map (i, .data (j / BSIZE)))).byte (j % BSIZE) = (c i).getD j 0

section Append

variable {T : Prop} {s t : State} {dins : Nat → Fs.Dinode} {map map' : Key → Nat}
  {c : Nat → List (BitVec 8)} {i x : Nat} {din : Fs.Dinode}

theorem Filled.length_le (h : Filled s dins map c) (i : Nat) : (c i).length ≤ MAXFILE * BSIZE := by
  have hbound := h.bound i MAXFILE (Nat.le_refl _)
  have hmapped := h.mapped i MAXFILE
  rw [hbound] at hmapped
  omega

theorem Filled.data_eq_zero (h : Filled s dins map c) {off : Nat} (hoff : (c i).length = off)
    : map (i, .data (off / BSIZE)) = 0 ↔ off % BSIZE = 0 := by
  have hsizes := sizes
  have hmapped := h.mapped i (off / BSIZE)
  rw [hoff] at hmapped
  simp only [hsizes.1] at hmapped ⊢
  omega

theorem Filled.indirect_eq_zero (h : Filled s dins map c) {off : Nat} (hoff : (c i).length = off)
    (hbn : NDIRECT ≤ off / BSIZE)
    : map (i, .indirect) = 0 ↔ off = NDIRECT * BSIZE := by
  have hsizes := sizes
  have hind := h.indirect_iff i
  rw [hoff] at hind
  simp only [hsizes.1, hsizes.2.1] at hind hbn ⊢
  omega

theorem Filled.grows_freeblock (h : Filled s dins map c) {off n : Nat} (hoff : (c i).length = off)
    (hgrows : Grows s t dins din map map' i (off / BSIZE) x)
    (hn : 0 < n) (hend : off + n ≤ (off / BSIZE + 1) * BSIZE)
    : t.freeblock + blocks off = s.freeblock + blocks (off + n) := by
  have hsizes := sizes
  rw [hgrows.freeblock, blocks_add hn hend]
  have hdata := h.data_eq_zero (i := i) hoff
  by_cases hbn : NDIRECT ≤ off / BSIZE
  . have hind := h.indirect_eq_zero hoff hbn
    simp only [hdata, hind, hbn, true_and]
    omega
  . have hne : off ≠ NDIRECT * BSIZE := by
      rintro rfl
      rw [Nat.mul_div_cancel _ (by omega)] at hbn
      omega
    simp only [hdata, hbn, hne, false_and, ↓reduceIte]
    omega

theorem Filled.grows_free_le (h : Filled s dins map c) {off : Nat} (hoff : (c i).length = off)
    (hgrows : Grows s t dins din map map' i (off / BSIZE) x) (hx : x < FSSIZE)
    : t.freeblock ≤ FSSIZE := by
  have hsizes := sizes
  by_cases hdata : map (i, .data (off / BSIZE)) = 0
  . have := hgrows.last hdata
    omega
  . have hcount := hgrows.freeblock
    have hmod := h.data_eq_zero (i := i) hoff
    have hle := h.free_le
    have hind : ¬ (NDIRECT ≤ off / BSIZE ∧ map (i, .indirect) = 0) := by
      rintro ⟨hbn, hzero⟩
      rw [h.indirect_eq_zero hoff hbn] at hzero
      subst hzero
      rw [Nat.mul_mod_left] at hmod
      exact hdata (hmod.mpr rfl)
    rw [if_neg hdata, if_neg hind] at hcount
    omega

theorem Filled.blockAlloc (h : Filled s dins map c) {off n : Nat} (hoff : (c i).length = off)
    (hbn : off / BSIZE < MAXFILE) (hn : 0 < n) (hend : off + n ≤ (off / BSIZE + 1) * BSIZE)
    (hT : T → s.freeblock + blocks (off + n) ≤ FSSIZE + blocks off)
    : Ensures T (s.blockAlloc (dins i) (off / BSIZE)) (fun r =>
        ∃ map', Grows s r.2.2 dins r.2.1 map map' i (off / BSIZE) r.1) := by
  by_cases hdirect : off / BSIZE < NDIRECT
  . exact blockAlloc_direct h.toTree h.free_le hdirect
  . have hlo : NDIRECT ≤ off / BSIZE := by omega
    apply blockAlloc_indirect h.toTree h.free_le hlo hbn
    intro hT'
    have hcap := hT hT'
    rw [blocks_add hn hend] at hcap
    simp only [h.indirect_eq_zero hoff hlo]
    omega

theorem Filled.write (h : Filled s dins map c) {off : Nat} {p : List (BitVec 8)} {n : Nat}
    (hoff : (c i).length = off) (hgrows : Grows s t dins din map map' i (off / BSIZE) x)
    (hx : x < FSSIZE) (hn : 0 < n) (hp : n ≤ p.length)
    (hend : off + n ≤ (off / BSIZE + 1) * BSIZE)
    : Filled (t.wsect (.data x) ((t.disk x).blit (off - off / BSIZE * BSIZE) n (p.getD · 0)))
        (Function.update dins i din) map' (Function.update c i (c i ++ p.take n)) := by
  have hsizes := sizes
  have hxeq := hgrows.x_eq
  have hseek : seek x = x := seek_eq (by omega)
  have hlen : (c i ++ p.take n).length = off + n := by
    rw [List.length_append, List.length_take, hoff]
    omega
  have htree : Tree (t.wsect (.data x) ((t.disk x).blit (off - off / BSIZE * BSIZE) n
      (p.getD · 0))) (Function.update dins i din) map' := by
    rw [hxeq] at hx ⊢
    exact hgrows.tree.wsect_data (by rw [← hxeq]; exact hgrows.x_ne) hx _
  have hfree : t.freeblock ≤ FSSIZE := h.grows_free_le hoff hgrows hx
  refine ⟨htree, hfree, ?_, ?_, ?_⟩
  . intro k bn
    by_cases hk : k = i
    case neg =>
      rw [Function.update_of_ne hk, hgrows.other _ (by simp [hk]) (by simp [hk])]
      exact h.mapped k bn
    subst hk
    rw [Function.update_self, hlen]
    by_cases hbn : bn = off / BSIZE
    . subst hbn
      rw [← hxeq]
      have := hgrows.x_ne
      have := Nat.div_mul_le_self off BSIZE
      omega
    . rw [hgrows.other _ (by simp [hbn]) (by simp), h.mapped, hoff]
      simp only [hsizes.1] at hbn hend ⊢
      omega
  . intro k
    by_cases hk : k = i
    case neg =>
      rw [Function.update_of_ne hk, hgrows.other _ (by simp) (by simp [hk])]
      exact h.indirect_iff k
    subst hk
    rw [Function.update_self, hlen, hgrows.indirect, h.indirect_iff, hoff]
    simp only [hsizes.1, hsizes.2.1] at hend ⊢
    omega
  . intro k j hj
    show (Function.update t.disk (seek x) _ (map' (k, .data (j / BSIZE)))).byte (j % BSIZE) = _
    rw [hseek]
    have hjlt : j % BSIZE < BSIZE := Nat.mod_lt _ (by omega)
    -- an old byte of some file, whose block is neither the new one nor an indirect block
    have hold : ∀ hj' : j < (c k).length,
        (t.disk (map' (k, .data (j / BSIZE)))).byte (j % BSIZE) = (c k).getD j 0 := by
      intro hj'
      have hne : map (k, .data (j / BSIZE)) ≠ 0 := by
        rw [h.mapped]
        have := Nat.div_mul_le_self j BSIZE
        omega
      have hkeep := hgrows.keep _ hne
      rw [hgrows.disk, hkeep]
      . exact h.bytes k j hj'
      . rw [hkeep]
        intro heq
        rw [← hkeep] at heq hne
        have := hgrows.tree.bump.inj _ _ hne heq
        simp at this
    by_cases hblock : (k, Slot.data (j / BSIZE)) = (i, Slot.data (off / BSIZE))
    . have hk : k = i := by simpa using congrArg Prod.fst hblock
      have hdiv : j / BSIZE = off / BSIZE := by simpa using congrArg Prod.snd hblock
      subst hk
      rw [Function.update_self, hlen] at hj
      rw [hdiv, ← hxeq, Function.update_self, Function.update_self]
      rw [Bytes.byte_blit _ _ _ _ _ hjlt]
      simp only [hsizes.1] at hdiv hold ⊢
      split
      . rw [List.getD_append_right _ _ _ _ (by omega), hoff]
        have hsub : j % 512 - (off - off / 512 * 512) = j - off := by omega
        rw [hsub, List.getD_eq_getElem?_getD, List.getD_eq_getElem?_getD, List.getElem?_take,
          if_pos (by omega)]
      . rw [List.getD_append _ _ _ _ (by omega), ← hold (by omega), hdiv, hxeq]
    . have hjold : j < (c k).length := by
        by_cases hk : k = i
        . subst hk
          rw [Function.update_self, hlen] at hj
          have hdiv : j / BSIZE ≠ off / BSIZE := by
            intro heq
            exact hblock (by rw [heq])
          simp only [hsizes.1] at hdiv hend
          omega
        . rw [Function.update_of_ne hk] at hj
          exact hj
      have hcontent : (Function.update c i (c i ++ p.take n) k).getD j 0 = (c k).getD j 0 := by
        by_cases hk : k = i
        . subst hk
          rw [Function.update_self, List.getD_append _ _ _ _ hjold]
        . rw [Function.update_of_ne hk]
      rw [hcontent, ← hold hjold, Function.update_of_ne]
      rw [hxeq]
      intro heq
      have hne : map' (k, .data (j / BSIZE)) ≠ 0 := by
        rw [heq, ← hxeq]
        exact hgrows.x_ne
      exact hblock (hgrows.tree.bump.inj _ _ hne heq)

/--
What the loop of `iappend` returns after it has copied `p` to the end of inode `i`.
-/
structure Appended (s : State) (dins : Nat → Fs.Dinode) (c : Nat → List (BitVec 8)) (i off : Nat)
    (p : List (BitVec 8)) (r : Fs.Dinode × Nat × State) : Prop where
  filled : ∃ map', Filled r.2.2 (Function.update dins i r.1) map' (Function.update c i (c i ++ p))
  off_eq : r.2.1 = off + p.length
  frame : Frame s r.2.2
  type : r.1.type = (dins i).type
  nlink : r.1.nlink = (dins i).nlink
  freeblock : r.2.2.freeblock + blocks off = s.freeblock + blocks (off + p.length)

theorem Filled.appended_nil (h : Filled s dins map c) (i off : Nat)
    : Appended s dins c i off [] (dins i, off, s) where
  filled := by
    refine ⟨map, ?_⟩
    rw [List.append_nil, Function.update_eq_self, Function.update_eq_self]
    exact h
  off_eq := rfl
  frame := .refl s
  type := rfl
  nlink := rfl
  freeblock := rfl

theorem Filled.iappendLoop (h : Filled s dins map c) {off fuel : Nat} {p : List (BitVec 8)}
    (hoff : (c i).length = off) (hfuel : p.length ≤ fuel)
    (hT : T → off + p.length ≤ MAXFILE * BSIZE ∧
      s.freeblock + blocks (off + p.length) ≤ FSSIZE + blocks off)
    : Ensures T (State.iappendLoop fuel s (dins i) off p) (Appended s dins c i off p) := by
  have hsizes := sizes
  induction fuel generalizing s dins map c off p with
  | zero =>
    have hnil : p = [] := List.eq_nil_of_length_eq_zero (by omega)
    subst hnil
    exact .ok (h.appended_nil i off)
  | succ fuel ih =>
    unfold State.iappendLoop
    by_cases hp : 0 < p.length
    case neg =>
      have hnil : p = [] := List.eq_nil_of_length_eq_zero (by omega)
      subst hnil
      exact .ok (h.appended_nil i off)
    rw [if_pos hp]
    dsimp only
    split
    case isFalse hmax =>
      apply Ensures.error
      intro hT'
      have := (hT hT').1
      simp only [hsizes.1] at this hmax
      omega
    case isTrue hmax =>
    generalize hn1 : min p.length ((off / BSIZE + 1) * BSIZE - off) = n
    have hlt : off < (off / BSIZE + 1) * BSIZE := by
      rw [Nat.add_mul, Nat.one_mul]
      have := Nat.div_add_mod' off BSIZE
      have := Nat.mod_lt off (y := BSIZE) (by omega)
      omega
    have hn : 0 < n := by omega
    have hend : off + n ≤ (off / BSIZE + 1) * BSIZE := by omega
    have hnp : n ≤ p.length := by omega
    have hmono : blocks (off + n) ≤ blocks (off + p.length) := blocks_mono (by omega)
    have hcap : T → s.freeblock + blocks (off + n) ≤ FSSIZE + blocks off := by
      intro hT'
      have := (hT hT').2
      omega
    apply (h.blockAlloc hoff hmax hn hend hcap).bind
    rintro ⟨x, din, t⟩ ⟨map', hgrows⟩
    dsimp only at hgrows ⊢
    have hcount := h.grows_freeblock hoff hgrows hn hend
    have hxrange := hgrows.tree.bump.range (i, .data (off / BSIZE))
      (by rw [← hgrows.x_eq]; exact hgrows.x_ne)
    rw [← hgrows.x_eq] at hxrange
    have hsmall : x < 2 ^ 23 := by
      have hfree := hgrows.freeblock
      have hle := h.free_le
      split at hfree <;> split at hfree <;> omega
    apply (rsect_ensures hsmall (fun hT' => by
      have := hcap hT'
      rw [hgrows.tree.size]
      omega)).bind
    rintro buf ⟨rfl, hx⟩
    rw [hgrows.tree.size] at hx
    have hwrite := h.write hoff hgrows hx hn hnp hend
    have hframe := hgrows.frame.trans (.wsect_data t hxrange.1 hx
      ((t.disk x).blit (off - off / BSIZE * BSIZE) n (p.getD · 0)))
    generalize hu : t.wsect (.data x)
      ((t.disk x).blit (off - off / BSIZE * BSIZE) n (p.getD · 0)) = u at hwrite hframe ⊢
    have hufree : u.freeblock = t.freeblock := by
      rw [← hu]
      rfl
    have hdrop : off + n + (p.drop n).length = off + p.length := by
      rw [List.length_drop]
      omega
    have hlen : (Function.update c i (c i ++ p.take n) i).length = off + n := by
      rw [Function.update_self, List.length_append, List.length_take, hoff]
      omega
    have hcapRest : T → off + n + (p.drop n).length ≤ MAXFILE * BSIZE ∧
        u.freeblock + blocks (off + n + (p.drop n).length) ≤ FSSIZE + blocks (off + n) := by
      intro hT'
      have := hT hT'
      rw [hdrop, hufree]
      omega
    have hrest := ih hwrite hlen (by omega) hcapRest
    rw [Function.update_self] at hrest
    apply hrest.mono
    rintro ⟨din', off', v⟩ hv
    rcases hv.filled with ⟨map'', hfilled⟩
    rw [Function.update_idem, Function.update_idem, Function.update_self, List.append_assoc,
      List.take_append_drop] at hfilled
    refine ⟨⟨map'', hfilled⟩, ?_, hframe.trans hv.frame, ?_, ?_, ?_⟩
    . rw [hv.off_eq, hdrop]
    . rw [hv.type, Function.update_self, hgrows.type]
    . rw [hv.nlink, Function.update_self, hgrows.nlink]
    . have hvfree := hv.freeblock
      rw [hdrop, hufree] at hvfree
      omega

end Append

end State
end Mkfs
end Xv6
