import Xv6.Data.Bump
import Xv6.Data.Ensures
import Xv6.Fs.Impl.Mkfs

namespace Xv6

theorem sizes
    : BSIZE = 512 ∧ NDIRECT = 12 ∧ NINDIRECT = 128 ∧ MAXFILE = 140 ∧ IPB = 8 ∧ BPB = 4096 ∧
      Mkfs.FSSIZE = 1000 ∧ Mkfs.nmeta = 59 := by
  decide

namespace Fs
namespace Dinode

variable (din : Dinode) (x : Nat)

@[simp]
theorem setAddrs_type (i : Nat) : (din.setAddrs i x).type = din.type := by
  unfold type setAddrs Bytes.setWord
  rw [Bytes.getLE_setLE_of_disjoint]
  omega

@[simp]
theorem setAddrs_nlink (i : Nat) : (din.setAddrs i x).nlink = din.nlink := by
  unfold nlink setAddrs Bytes.setWord
  rw [Bytes.getLE_setLE_of_disjoint]
  omega

theorem setAddrs_addrs_self {i : Nat} (hi : i ≤ NDIRECT) (hx : x < 2 ^ 32)
    : (din.setAddrs i x).addrs i = x := by
  have hsizes := sizes
  unfold addrs setAddrs
  rw [Bytes.getWord_setWord _ _ (by omega), BitVec.toNat_ofNat, Nat.mod_eq_of_lt hx]

theorem setAddrs_addrs_ne {i j : Nat} (h : j ≠ i)
    : (din.setAddrs i x).addrs j = din.addrs j := by
  unfold addrs setAddrs
  rw [Bytes.getWord_setWord_of_disjoint]
  omega

@[simp]
theorem setSize_type : (din.setSize x).type = din.type := by
  unfold type setSize Bytes.setWord
  rw [Bytes.getLE_setLE_of_disjoint]
  omega

@[simp]
theorem setSize_nlink : (din.setSize x).nlink = din.nlink := by
  unfold nlink setSize Bytes.setWord
  rw [Bytes.getLE_setLE_of_disjoint]
  omega

@[simp]
theorem setSize_addrs (i : Nat) : (din.setSize x).addrs i = din.addrs i := by
  unfold addrs setSize
  rw [Bytes.getWord_setWord_of_disjoint]
  omega

theorem setSize_size (hx : x < 2 ^ 32) : (din.setSize x).size = x := by
  unfold size setSize
  rw [Bytes.getWord_setWord _ _ (by omega), BitVec.toNat_ofNat, Nat.mod_eq_of_lt hx]

end Dinode

inductive Slot where
  | data (bn : Nat)
  | indirect
  deriving DecidableEq

abbrev Key := Nat × Slot

end Fs

namespace Mkfs

open Fs (Key Slot)

def pointer (j : Nat) : Slot :=
  if j < NDIRECT then .data j else .indirect

def assign (map : Key → Nat) (k : Key) (b : Nat) : Key → Nat :=
  if map k = 0 then Function.update map k b else map

section Assign

variable {map : Key → Nat} {k l : Key} {b : Nat}

theorem assign_of_ne (h : l ≠ k) : assign map k b l = map l := by
  unfold assign
  split
  . rw [Function.update_of_ne h]
  . rfl

theorem assign_self_ne_zero (hb : b ≠ 0) : assign map k b k ≠ 0 := by
  unfold assign
  split
  . rw [Function.update_self]
    exact hb
  . assumption

theorem assign_of_ne_zero (h : map l ≠ 0) : assign map k b l = map l := by
  by_cases hl : l = k
  . subst hl
    unfold assign
    rw [if_neg h]
  . exact assign_of_ne hl

end Assign

namespace State

theorem seek_eq {sec : Nat} (h : sec < 2 ^ 23) : seek sec = sec := by
  have hsizes := sizes
  unfold seek
  rw [hsizes.1]
  omega

/--
The pointers on the disk and in the dinodes `dins` are those of `map`, which has given out the blocks
from `nmeta` up to `freeblock`, each once.
-/
structure Tree (s : State) (dins : Nat → Fs.Dinode) (map : Key → Nat) : Prop where
  size : s.size = FSSIZE
  bump : Bump nmeta s.freeblock map
  data : ∀ i bn, bn < MAXFILE → s.disk.mapped (dins i) bn = map (i, .data bn)
  indirect : ∀ i, (dins i).addrs NDIRECT = map (i, .indirect)
  bound : ∀ i bn, MAXFILE ≤ bn → map (i, .data bn) = 0
  fresh : ∀ b, s.freeblock ≤ b → s.disk b = Bytes.zero

namespace Tree

variable {s : State} {dins : Nat → Fs.Dinode} {map : Key → Nat}

theorem addrs_eq (h : Tree s dins map) (i : Nat) {j : Nat} (hj : j ≤ NDIRECT)
    : (dins i).addrs j = map (i, pointer j) := by
  have hsizes := sizes
  unfold pointer
  split
  . next hlt =>
    rw [← h.data i j (by omega)]
    unfold Fs.Disk.mapped
    rw [if_pos hlt]
  . have hj' : j = NDIRECT := by omega
    rw [hj', h.indirect]

theorem freeblock_ne_zero (h : Tree s dins map) : s.freeblock ≠ 0 := by
  have := h.bump.pos
  have := h.bump.le
  omega

theorem setAddrs (h : Tree s dins map) (hfree : s.freeblock ≤ FSSIZE) {i j : Nat}
    (hj : j ≤ NDIRECT) (hzero : map (i, pointer j) = 0)
    : Tree { s with freeblock := s.freeblock + 1 }
        (Function.update dins i ((dins i).setAddrs j s.freeblock))
        (Function.update map (i, pointer j) s.freeblock) where
  size := h.size
  bump := h.bump.assign hzero
  data := by
    intro k bn hbn
    have hsizes := sizes
    by_cases hk : k = i
    case neg =>
      rw [Function.update_of_ne hk, Function.update_of_ne (by simp [hk]), ← h.data k bn hbn]
    subst hk
    rw [Function.update_self]
    unfold Fs.Disk.mapped
    by_cases hdirect : bn < NDIRECT
    . rw [if_pos hdirect]
      have hp : pointer bn = .data bn := if_pos hdirect
      by_cases hbj : bn = j
      . subst hbj
        rw [Fs.Dinode.setAddrs_addrs_self _ _ hj (by omega), hp, Function.update_self]
      . have hne : (k, Slot.data bn) ≠ (k, pointer j) := by
          unfold pointer
          split <;> simp [hbj]
        rw [Fs.Dinode.setAddrs_addrs_ne _ _ hbj, Function.update_of_ne hne, h.addrs_eq k (by omega),
          hp]
    . rw [if_neg hdirect]
      have hne : (k, Slot.data bn) ≠ (k, pointer j) := by
        unfold pointer
        split
        . simp
          omega
        . simp
      rw [Function.update_of_ne hne, ← h.data k bn hbn]
      unfold Fs.Disk.mapped
      rw [if_neg hdirect]
      by_cases hind : j = NDIRECT
      . -- the new indirect block has no pointers yet
        subst hind
        have hold : (dins k).addrs NDIRECT = 0 := by rw [h.addrs_eq k hj, hzero]
        rw [Fs.Dinode.setAddrs_addrs_self _ _ hj (by omega), if_neg h.freeblock_ne_zero,
          if_pos hold, h.fresh _ (Nat.le_refl _)]
        simp
      . rw [Fs.Dinode.setAddrs_addrs_ne _ _ (Ne.symm hind)]
  indirect := by
    intro k
    have hsizes := sizes
    by_cases hk : k = i
    case neg =>
      rw [Function.update_of_ne hk, Function.update_of_ne (by simp [hk]), h.indirect]
    subst hk
    rw [Function.update_self]
    by_cases hind : j = NDIRECT
    . subst hind
      have hp : pointer NDIRECT = .indirect := rfl
      rw [Fs.Dinode.setAddrs_addrs_self _ _ hj (by omega), hp, Function.update_self]
    . have hp : pointer j = .data j := if_pos (by omega)
      rw [Fs.Dinode.setAddrs_addrs_ne _ _ (Ne.symm hind), hp, Function.update_of_ne (by simp),
        h.indirect]
  bound := by
    intro k bn hbn
    have hsizes := sizes
    rw [Function.update_of_ne]
    . exact h.bound k bn hbn
    . unfold pointer
      split
      . simp
        omega
      . simp
  fresh := by
    intro b hb
    exact h.fresh b (by dsimp only at hb; omega)

theorem addrsAlloc (h : Tree s dins map) (hfree : s.freeblock ≤ FSSIZE) (i : Nat) {j : Nat}
    (hj : j ≤ NDIRECT)
    : Tree (s.addrsAlloc (dins i) j).2 (Function.update dins i (s.addrsAlloc (dins i) j).1)
        (assign map (i, pointer j) s.freeblock) := by
  unfold State.addrsAlloc assign
  rw [h.addrs_eq i hj]
  split
  . next hzero => exact h.setAddrs hfree hj hzero
  . rw [Function.update_eq_self]
    exact h

theorem wsect_data (h : Tree s dins map) {i bn : Nat} (hx : map (i, .data bn) ≠ 0)
    (hlt : map (i, .data bn) < FSSIZE) (buf : Block)
    : Tree (s.wsect (.data (map (i, .data bn))) buf) dins map := by
  have hsizes := sizes
  have hseek : seek (map (i, .data bn)) = map (i, .data bn) := seek_eq (by omega)
  constructor
  . show max s.size (seek (map (i, .data bn)) + 1) = FSSIZE
    rw [hseek, h.size]
    omega
  . exact h.bump
  . intro k m hm
    rw [← h.data k m hm]
    unfold Fs.Disk.mapped
    by_cases hind : (dins k).addrs NDIRECT = 0
    . rw [if_pos hind, if_pos hind]
    . have hne : (dins k).addrs NDIRECT ≠ seek (map (i, .data bn)) := by
        rw [hseek, h.indirect]
        rw [h.indirect] at hind
        intro heq
        have := h.bump.inj _ _ hind heq
        simp at this
      show (if m < NDIRECT then _ else if _ then 0
        else ((Function.update s.disk (seek (map (i, .data bn))) buf
          ((dins k).addrs NDIRECT)).getWord _).toNat) = _
      rw [Function.update_of_ne hne]
  . exact h.indirect
  . exact h.bound
  . intro b hb
    have hrange := h.bump.range _ hx
    show Function.update s.disk (seek (map (i, .data bn))) buf b = _
    rw [hseek, Function.update_of_ne]
    . exact h.fresh b hb
    . have hb' : s.freeblock ≤ b := hb
      omega

theorem setIndirect (h : Tree s dins map) (hfree : s.freeblock ≤ FSSIZE + 1) {i j : Nat}
    (hj : j < NINDIRECT) (hzero : map (i, .data (NDIRECT + j)) = 0)
    (hind : map (i, .indirect) ≠ 0) (hlt : map (i, .indirect) < FSSIZE)
    : Tree ({ s with freeblock := s.freeblock + 1 }.wsect (.data (map (i, .indirect)))
          ((s.disk (map (i, .indirect))).setWord (4 * j) (BitVec.ofNat 32 s.freeblock)))
        dins (Function.update map (i, .data (NDIRECT + j)) s.freeblock) := by
  have hsizes := sizes
  have hseek : seek (map (i, .indirect)) = map (i, .indirect) := seek_eq (by omega)
  constructor
  . show max s.size (seek (map (i, .indirect)) + 1) = FSSIZE
    rw [hseek, h.size]
    omega
  . exact h.bump.assign hzero
  . intro k bn hbn
    show Fs.Disk.mapped (Function.update s.disk (seek (map (i, .indirect))) _) (dins k) bn = _
    rw [hseek]
    unfold Fs.Disk.mapped
    by_cases hdirect : bn < NDIRECT
    . have hne : (k, Slot.data bn) ≠ (i, Slot.data (NDIRECT + j)) := by
        simp
        omega
      have hp : pointer bn = .data bn := if_pos hdirect
      rw [if_pos hdirect, Function.update_of_ne hne, h.addrs_eq k (by omega), hp]
    rw [if_neg hdirect, h.indirect]
    by_cases hk : k = i
    . subst hk
      rw [if_neg hind, Function.update_self]
      by_cases hbj : bn = NDIRECT + j
      . subst hbj
        rw [Nat.add_sub_cancel_left, Bytes.getWord_setWord _ _ (by omega), Function.update_self,
          BitVec.toNat_ofNat, Nat.mod_eq_of_lt (by omega)]
      . have hne : (k, Slot.data bn) ≠ (k, Slot.data (NDIRECT + j)) := by simp [hbj]
        rw [Bytes.getWord_setWord_of_disjoint _ _ (by omega), Function.update_of_ne hne,
          ← h.data k bn hbn]
        unfold Fs.Disk.mapped
        rw [if_neg hdirect, h.indirect, if_neg hind]
    . have hne : (k, Slot.data bn) ≠ (i, Slot.data (NDIRECT + j)) := by simp [hk]
      rw [Function.update_of_ne hne, ← h.data k bn hbn]
      unfold Fs.Disk.mapped
      rw [if_neg hdirect, h.indirect]
      by_cases hother : map (k, .indirect) = 0
      . rw [if_pos hother, if_pos hother]
      . rw [if_neg hother, if_neg hother, Function.update_of_ne]
        intro heq
        have := h.bump.inj _ _ hother heq
        simp [hk] at this
  . intro k
    rw [Function.update_of_ne (by simp)]
    exact h.indirect k
  . intro k bn hbn
    rw [Function.update_of_ne]
    . exact h.bound k bn hbn
    . simp
      omega
  . intro b hb
    have hrange := h.bump.range _ hind
    have hb' : s.freeblock + 1 ≤ b := hb
    show Function.update s.disk (seek (map (i, .indirect))) _ b = _
    rw [hseek, Function.update_of_ne (by omega)]
    exact h.fresh b (by omega)

end Tree

/--
What iappend does besides writing data: nothing below the data blocks changes.
-/
structure Frame (s t : State) : Prop where
  freeinode : t.freeinode = s.freeinode
  low : ∀ b, b < nmeta → t.disk b = s.disk b
  writes : ∀ w ∈ t.writes, w ∈ s.writes ∨ ∃ sec, w = .data sec ∧ nmeta ≤ sec ∧ sec < FSSIZE

namespace Frame

variable {s t u : State}

theorem refl (s : State) : Frame s s :=
  ⟨rfl, fun _ _ => rfl, fun _ h => .inl h⟩

theorem setFreeblock (s : State) (n : Nat) : Frame s { s with freeblock := n } :=
  ⟨rfl, fun _ _ => rfl, fun _ h => .inl h⟩

theorem trans (h₁ : Frame s t) (h₂ : Frame t u) : Frame s u where
  freeinode := by rw [h₂.freeinode, h₁.freeinode]
  low := by
    intro b hb
    rw [h₂.low b hb, h₁.low b hb]
  writes := by
    intro w hw
    cases h₂.writes w hw with
    | inl h => exact h₁.writes w h
    | inr h => exact .inr h

theorem wsect_data (s : State) {sec : Nat} (hlo : nmeta ≤ sec) (hhi : sec < FSSIZE) (buf : Block)
    : Frame s (s.wsect (.data sec) buf) where
  freeinode := rfl
  low := by
    intro b hb
    have hsizes := sizes
    have hseek : seek sec = sec := seek_eq (by omega)
    show Function.update s.disk (seek sec) buf b = _
    rw [hseek, Function.update_of_ne (by omega)]
  writes := by
    intro w hw
    cases List.mem_cons.mp hw with
    | inl h => exact .inr ⟨sec, h, hlo, hhi⟩
    | inr h => exact .inl h

end Frame

theorem rsect_ensures {T : Prop} {s : State} {sec : Nat} (hsec : sec < 2 ^ 23)
    (hT : T → sec < s.size)
    : Ensures T (s.rsect sec) (fun buf => buf = s.disk sec ∧ sec < s.size) := by
  unfold rsect
  rw [seek_eq hsec]
  split
  . next hlt => exact .ok ⟨rfl, hlt⟩
  . next hge => exact .error fun hT' => hge (hT hT')

section Alloc

variable {T : Prop} {s t : State} {dins : Nat → Fs.Dinode} {map map' : Key → Nat} {i bn x : Nat}
  {din : Fs.Dinode}

/--
The state `t` in which block `bn` of inode `i` is `x`, given out if it was missing.
-/
structure Grows (s t : State) (dins : Nat → Fs.Dinode) (din : Fs.Dinode) (map map' : Key → Nat)
    (i bn x : Nat) : Prop where
  tree : Tree t (Function.update dins i din) map'
  frame : Frame s t
  type : din.type = (dins i).type
  nlink : din.nlink = (dins i).nlink
  x_eq : x = map' (i, .data bn)
  x_ne : x ≠ 0
  last : map (i, .data bn) = 0 → x + 1 = t.freeblock
  keep : ∀ k, map k ≠ 0 → map' k = map k
  other : ∀ k, k ≠ (i, .data bn) → k ≠ (i, .indirect) → map' k = map k
  indirect : map' (i, .indirect) ≠ 0 ↔ map (i, .indirect) ≠ 0 ∨ NDIRECT ≤ bn
  disk : ∀ b, b ≠ map' (i, .indirect) → t.disk b = s.disk b
  freeblock : t.freeblock = s.freeblock + (if map (i, .data bn) = 0 then 1 else 0) +
    (if NDIRECT ≤ bn ∧ map (i, .indirect) = 0 then 1 else 0)

theorem addrsAlloc_freeblock (h : Tree s dins map) {j : Nat} (hj : j ≤ NDIRECT)
    : (s.addrsAlloc (dins i) j).2.freeblock =
        s.freeblock + (if map (i, pointer j) = 0 then 1 else 0) := by
  unfold addrsAlloc
  rw [h.addrs_eq i hj]
  split <;> rfl

theorem addrsAlloc_frame (s : State) (din : Fs.Dinode) (j : Nat)
    : Frame s (s.addrsAlloc din j).2 ∧ (s.addrsAlloc din j).2.disk = s.disk ∧
      (s.addrsAlloc din j).1.type = din.type ∧ (s.addrsAlloc din j).1.nlink = din.nlink := by
  unfold addrsAlloc
  split
  . exact ⟨.setFreeblock s _, rfl, din.setAddrs_type _ _, din.setAddrs_nlink _ _⟩
  . exact ⟨.refl s, rfl, rfl, rfl⟩

theorem blockAlloc_direct (h : Tree s dins map) (hfree : s.freeblock ≤ FSSIZE) (hbn : bn < NDIRECT)
    : Ensures T (s.blockAlloc (dins i) bn) (fun r =>
        ∃ map', Grows s r.2.2 dins r.2.1 map map' i bn r.1) := by
  have hsizes := sizes
  have hp : pointer bn = .data bn := if_pos hbn
  have htree := h.addrsAlloc hfree i (j := bn) (by omega)
  have hcount := addrsAlloc_freeblock (i := i) h (j := bn) (by omega)
  rcases addrsAlloc_frame s (dins i) bn with ⟨hframe, hdisk, htype, hnlink⟩
  have haddr := htree.addrs_eq i (j := bn) (by omega)
  rw [Function.update_self] at haddr
  rw [hp] at htree hcount haddr
  unfold blockAlloc
  rw [if_pos hbn]
  dsimp only
  generalize s.addrsAlloc (dins i) bn = r at htree hcount hframe hdisk htype hnlink haddr
  rcases r with ⟨din, t⟩
  dsimp only at htree hcount hframe hdisk htype hnlink haddr ⊢
  refine .ok ⟨_, htree, hframe, htype, hnlink, haddr, ?_, ?_, ?_, ?_, ?_, ?_, ?_⟩
  . dsimp only
    rw [haddr]
    exact assign_self_ne_zero h.freeblock_ne_zero
  . intro hzero
    dsimp only
    rw [hcount, haddr, if_pos hzero]
    unfold assign
    rw [if_pos hzero, Function.update_self]
  . intro k hk
    exact assign_of_ne_zero hk
  . intro k hk _
    exact assign_of_ne hk
  . rw [assign_of_ne (by simp)]
    constructor
    . exact .inl
    . rintro (hne | hle)
      . exact hne
      . omega
  . intro b _
    dsimp only
    rw [hdisk]
  . have hnot : ¬ (NDIRECT ≤ bn ∧ map (i, .indirect) = 0) := by omega
    dsimp only
    rw [hcount, if_neg hnot]
    rfl

theorem indirectAlloc_ensures (h : Tree s dins map) (hfree : s.freeblock ≤ FSSIZE + 1) {j : Nat}
    (hj : j < NINDIRECT) (hind : map (i, .indirect) ≠ 0) (hT : T → map (i, .indirect) < FSSIZE)
    : Ensures T (s.indirectAlloc (map (i, .indirect)) j) (fun r =>
        r.1 = assign map (i, .data (NDIRECT + j)) s.freeblock (i, .data (NDIRECT + j)) ∧
        Tree r.2 dins (assign map (i, .data (NDIRECT + j)) s.freeblock) ∧ Frame s r.2 ∧
        (∀ b, b ≠ map (i, .indirect) → r.2.disk b = s.disk b) ∧
        r.2.freeblock = s.freeblock + (if map (i, .data (NDIRECT + j)) = 0 then 1 else 0)) := by
  have hsizes := sizes
  have hrange := h.bump.range _ hind
  unfold indirectAlloc
  apply (rsect_ensures (by omega) (by rw [h.size]; exact hT)).bind
  rintro buf ⟨rfl, hlt⟩
  rw [h.size] at hlt
  have hword : ((s.disk (map (i, .indirect))).getWord (4 * j)).toNat =
      map (i, .data (NDIRECT + j)) := by
    rw [← h.data i (NDIRECT + j) (by omega)]
    unfold Fs.Disk.mapped
    rw [if_neg (by omega), h.indirect, if_neg hind, Nat.add_sub_cancel_left]
  unfold assign
  split
  . next hzero =>
    have hkey : map (i, .data (NDIRECT + j)) = 0 := by
      rw [← hword, hzero]
      rfl
    rw [if_pos hkey, if_pos hkey]
    refine .ok ⟨?_, h.setIndirect hfree hj hkey hind hlt, ?_, ?_, rfl⟩
    . dsimp only
      rw [Bytes.getWord_setWord _ _ (by omega), Function.update_self, BitVec.toNat_ofNat,
        Nat.mod_eq_of_lt (by omega)]
    . apply (Frame.setFreeblock s (s.freeblock + 1)).trans
      exact .wsect_data _ hrange.1 hlt _
    . intro b hb
      show Function.update s.disk (seek (map (i, .indirect))) _ b = _
      rw [seek_eq (by omega), Function.update_of_ne hb]
  . next hne =>
    have hkey : map (i, .data (NDIRECT + j)) ≠ 0 := by
      rw [← hword]
      intro hzero
      exact hne (BitVec.eq_of_toNat_eq hzero)
    rw [if_neg hkey, if_neg hkey]
    exact .ok ⟨hword, h, .refl s, fun _ _ => rfl, rfl⟩

theorem blockAlloc_indirect (h : Tree s dins map) (hfree : s.freeblock ≤ FSSIZE)
    (hlo : NDIRECT ≤ bn) (hhi : bn < MAXFILE)
    (hT : T → s.freeblock + (if map (i, .indirect) = 0 then 1 else 0) ≤ FSSIZE)
    : Ensures T (s.blockAlloc (dins i) bn) (fun r =>
        ∃ map', Grows s r.2.2 dins r.2.1 map map' i bn r.1) := by
  have hsizes := sizes
  have hp : pointer NDIRECT = .indirect := rfl
  have htree := h.addrsAlloc hfree i (Nat.le_refl NDIRECT)
  have hcount := addrsAlloc_freeblock (i := i) h (Nat.le_refl NDIRECT)
  rcases addrsAlloc_frame s (dins i) NDIRECT with ⟨hframe, hdisk, htype, hnlink⟩
  have haddr := htree.indirect i
  rw [Function.update_self] at haddr
  rw [hp] at htree hcount haddr
  rcases Nat.exists_eq_add_of_le hlo with ⟨j, rfl⟩
  unfold blockAlloc
  rw [if_neg (by omega)]
  dsimp only
  generalize s.addrsAlloc (dins i) NDIRECT = r at htree hcount hframe hdisk htype hnlink haddr
  rcases r with ⟨din, u⟩
  dsimp only at htree hcount hframe hdisk htype hnlink haddr ⊢
  generalize hmap : assign map (i, .indirect) s.freeblock = mid at htree haddr
  have hmid : mid (i, .indirect) ≠ 0 := by
    rw [← hmap]
    exact assign_self_ne_zero h.freeblock_ne_zero
  have hmidKeep : ∀ k, map k ≠ 0 → mid k = map k := by
    intro k hk
    rw [← hmap]
    exact assign_of_ne_zero hk
  have hmidOther : ∀ k, k ≠ (i, .indirect) → mid k = map k := by
    intro k hk
    rw [← hmap]
    exact assign_of_ne hk
  have hdata := hmidOther (i, .data (NDIRECT + j)) (by simp)
  have hmidRange := htree.bump.range _ hmid
  rw [Nat.add_sub_cancel_left, haddr]
  have hT' : T → mid (i, .indirect) < FSSIZE := by
    intro t
    have := hT t
    omega
  have hu : u.freeblock ≤ FSSIZE + 1 := by
    rw [hcount]
    split <;> omega
  apply (indirectAlloc_ensures htree hu (by omega) hmid hT').bind
  rintro ⟨x, t⟩ ⟨hx, ht, hframe', hdisk', hcount'⟩
  dsimp only at hx ht hframe' hdisk' hcount' ⊢
  have hind : assign mid (i, .data (NDIRECT + j)) u.freeblock (i, .indirect) =
      mid (i, .indirect) := assign_of_ne (by simp)
  refine .ok ⟨_, ht, hframe.trans hframe', htype, hnlink, hx, ?_, ?_, ?_, ?_, ?_, ?_, ?_⟩
  . rw [hx]
    exact assign_self_ne_zero htree.freeblock_ne_zero
  . intro hzero
    rw [← hdata] at hzero
    rw [hcount', hx, if_pos hzero]
    unfold assign
    rw [if_pos hzero, Function.update_self]
  . intro k hk
    rw [assign_of_ne_zero (by rw [hmidKeep k hk]; exact hk), hmidKeep k hk]
  . intro k hk hk'
    rw [assign_of_ne hk, hmidOther k hk']
  . rw [hind]
    exact ⟨fun _ => .inr hlo, fun _ => hmid⟩
  . intro b hb
    rw [hind] at hb
    rw [hdisk' b hb, hdisk]
  . rw [hcount', hdata, hcount]
    simp only [hlo, true_and]
    omega

end Alloc

end State
end Mkfs
end Xv6
