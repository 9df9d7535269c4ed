import Xv6.Fs.Lemmas.Append

namespace Xv6
namespace Mkfs

open Fs (Key Slot)

abbrev NROOM : Nat := ninodeblocks * IPB

theorem iblock_range {i : Nat} (hi : i < NROOM)
    : sb.inodestart ≤ sb.iblock i ∧ sb.iblock i < sb.bmapstart := by
  have hroom : NROOM = 208 := rfl
  have hipb : IPB = 8 := rfl
  have hstart : sb.inodestart = 32 := rfl
  have hbmap : sb.bmapstart = 58 := rfl
  unfold Superblock.iblock
  rw [hroom] at hi
  rw [hipb, hstart, hbmap]
  omega

theorem layout : sb.inodestart = 32 ∧ sb.bmapstart = 58 := ⟨rfl, rfl⟩

/--
The sector lies in the region for what is written, and inode numbers are below `n`.
-/
def Write.Inside (n : Nat) : Write → Prop
  | .layout sec => sec < FSSIZE
  | .inode inum sec => inum < n ∧ sb.inodestart ≤ sec ∧ sec < sb.bmapstart
  | .data sec => nmeta ≤ sec ∧ sec < FSSIZE
  | .bitmap sec => sb.bmapstart ≤ sec ∧ sec < nmeta

theorem Write.Inside.mono {m n : Nat} (h : m ≤ n) {w : Write} (hw : w.Inside m) : w.Inside n := by
  cases w with
  | inode inum sec => exact ⟨Nat.lt_of_lt_of_le hw.1 h, hw.2⟩
  | layout sec => exact hw
  | data sec => exact hw
  | bitmap sec => exact hw

def inodeType (i : Nat) : Nat :=
  if i = Fs.ROOTINO then Fs.T_DIR else Fs.T_FILE

namespace State

section Inodes

variable {s : State} {i : Nat} (din : Fs.Dinode)

theorem rinode_eq (hsize : s.size = FSSIZE) (hi : i < NROOM)
    : s.rinode i = .ok (s.disk.dinode sb i) := by
  have hsizes := sizes
  have hlayout := layout
  have hrange := iblock_range hi
  unfold rinode rsect
  dsimp only
  rw [seek_eq (by omega), hsize, if_pos (by omega)]
  rfl

def putInode (s : State) (i : Nat) (din : Fs.Dinode) : State :=
  s.wsect (.inode i (sb.iblock i)) ((s.disk (sb.iblock i)).blit (i % IPB * 64) 64 din.byte)

theorem winode_eq (hsize : s.size = FSSIZE) (hi : i < NROOM)
    : s.winode i din = .ok (s.putInode i din) := by
  have hsizes := sizes
  have hlayout := layout
  have hrange := iblock_range hi
  unfold winode rsect
  dsimp only
  rw [seek_eq (by omega), hsize, if_pos (by omega)]
  rfl

theorem putInode_size (hsize : s.size = FSSIZE) (hi : i < NROOM)
    : (s.putInode i din).size = FSSIZE := by
  have hsizes := sizes
  have hlayout := layout
  have hrange := iblock_range hi
  show max s.size (seek (sb.iblock i) + 1) = FSSIZE
  rw [seek_eq (by omega), hsize]
  omega

theorem putInode_disk_of_ne (hi : i < NROOM) {b : Nat} (hb : b ≠ sb.iblock i)
    : (s.putInode i din).disk b = s.disk b := by
  have hsizes := sizes
  have hlayout := layout
  have hrange := iblock_range hi
  show Function.update s.disk (seek (sb.iblock i)) _ b = _
  rw [seek_eq (by omega), Function.update_of_ne hb]

theorem putInode_dinode (hi : i < NROOM) (k : Nat)
    : (s.putInode i din).disk.dinode sb k =
        Function.update (s.disk.dinode sb) i din k := by
  have hsizes := sizes
  have hlayout := layout
  have hrange := iblock_range hi
  show Bytes.slice (Function.update s.disk (seek (sb.iblock i)) _ (sb.iblock k)) _ _ = _
  rw [seek_eq (by omega)]
  by_cases hk : k = i
  . subst hk
    rw [Function.update_self, Function.update_self]
    apply Bytes.slice_blit_self
    simp only [hsizes.1, hsizes.2.2.2.2.1]
    omega
  rw [Function.update_of_ne hk]
  by_cases hblock : sb.iblock k = sb.iblock i
  . -- another inode of the same sector
    have hmod : k % IPB ≠ i % IPB := by
      unfold Superblock.iblock at hblock
      simp only [hsizes.2.2.2.2.1] at hblock ⊢
      omega
    rw [hblock, Function.update_self, Bytes.slice_blit_of_disjoint _ _ (by omega), ← hblock]
    rfl
  . rw [Function.update_of_ne hblock]
    rfl

end Inodes

/--
The invariant of `main`: the files `c` lie in the image, with a dinode for each inode number below
`freeinode`.
-/
structure Image (s : State) (dins : Nat → Fs.Dinode) (map : Key → Nat)
    (c : Nat → List (BitVec 8)) : Prop extends Filled s dins map c where
  freeinode_le : s.freeinode ≤ NROOM
  inodes : ∀ i, i < NROOM → s.disk.dinode sb i = dins i
  sized : ∀ i, (dins i).size = (c i).length
  type : ∀ i, 0 < i → i < s.freeinode → (dins i).type = inodeType i ∧ (dins i).nlink = 1
  unused : ∀ i, s.freeinode ≤ i → dins i = Bytes.zero
  super : s.disk 1 = sb.store Bytes.zero
  writes : ∀ w ∈ s.writes, w.Inside s.freeinode

section Image

variable {T : Prop} {s t : State} {dins dins' : Nat → Fs.Dinode} {map : Key → Nat}
  {c : Nat → List (BitVec 8)} {i : Nat}

theorem Filled.congr (h : Filled s dins map c) (hdisk : ∀ b, nmeta ≤ b → t.disk b = s.disk b)
    (hsize : t.size = s.size) (hfree : t.freeblock = s.freeblock)
    (haddrs : ∀ k j, (dins' k).addrs j = (dins k).addrs j)
    : Filled t dins' map c where
  size := by rw [hsize, h.size]
  bump := by
    rw [hfree]
    exact h.bump
  data := by
    intro k bn hbn
    rw [← h.data k bn hbn]
    unfold Fs.Disk.mapped
    rw [haddrs, haddrs]
    by_cases hzero : (dins k).addrs NDIRECT = 0
    . rw [if_pos hzero, if_pos hzero]
    . have hrange := h.bump.range (k, .indirect) (by rw [← h.indirect]; exact hzero)
      rw [← h.indirect] at hrange
      rw [hdisk _ hrange.1]
  indirect := by
    intro k
    rw [haddrs, h.indirect]
  bound := h.bound
  fresh := by
    intro b hb
    rw [hfree] at hb
    have := h.bump.le
    rw [hdisk b (by omega)]
    exact h.fresh b hb
  free_le := by
    rw [hfree]
    exact h.free_le
  mapped := h.mapped
  indirect_iff := h.indirect_iff
  bytes := by
    intro k j hj
    have hne : map (k, .data (j / BSIZE)) ≠ 0 := by
      rw [h.mapped]
      have := Nat.div_mul_le_self j BSIZE
      omega
    rw [hdisk _ (h.bump.range _ hne).1]
    exact h.bytes k j hj

theorem Filled.putInode (h : Filled s dins map c) (hi : i < NROOM) (din : Fs.Dinode)
    (haddrs : ∀ j, din.addrs j = (dins i).addrs j)
    : Filled (s.putInode i din) (Function.update dins i din) map c := by
  have hsizes := sizes
  have hlayout := layout
  have hrange := iblock_range hi
  apply h.congr
  . intro b hb
    exact putInode_disk_of_ne din hi (by omega)
  . rw [putInode_size din h.size hi, h.size]
  . rfl
  . intro k j
    by_cases hk : k = i
    . subst hk
      rw [Function.update_self, haddrs]
    . rw [Function.update_of_ne hk]

theorem Image.iappend (h : Image s dins map c) (hpos : 0 < i) (hi : i < s.freeinode)
    (p : List (BitVec 8))
    (hT : T → (c i).length + p.length ≤ MAXFILE * BSIZE ∧
      s.freeblock + blocks ((c i).length + p.length) ≤ FSSIZE + blocks (c i).length)
    : Ensures T (s.iappend i p) (fun t =>
        (∃ dins' map', Image t dins' map' (Function.update c i (c i ++ p))) ∧
        t.freeinode = s.freeinode ∧
        t.freeblock + blocks (c i).length = s.freeblock + blocks ((c i).length + p.length)) := by
  have hsizes := sizes
  have hlayout := layout
  have hroom : i < NROOM := Nat.lt_of_lt_of_le hi h.freeinode_le
  unfold State.iappend
  rw [rinode_eq h.size hroom, h.inodes i hroom]
  apply Ensures.bind (Q := (· = dins i)) (.ok rfl)
  rintro _ rfl
  rw [h.sized i]
  apply (h.toFilled.iappendLoop rfl (Nat.le_refl _) hT).bind
  rintro ⟨din, off, t⟩ ht
  rcases ht.filled with ⟨map', hfilled⟩
  have hoff := ht.off_eq
  have hframe := ht.frame
  have htype := ht.type
  have hnlink := ht.nlink
  have hcount := ht.freeblock
  dsimp only at hfilled hoff hframe htype hnlink hcount ⊢
  have hlen : (c i ++ p).length = off := by
    rw [List.length_append, hoff]
  have hmax : off ≤ MAXFILE * BSIZE := by
    have := hfilled.length_le i
    rw [Function.update_self, hlen] at this
    exact this
  rw [winode_eq _ hfilled.size hroom]
  refine .ok ⟨⟨Function.update dins i (din.setSize off), map', ?_⟩, hframe.freeinode, hcount⟩
  have hput := hfilled.putInode hroom (din.setSize off) (fun j => by
    rw [Function.update_self, Fs.Dinode.setSize_addrs])
  rw [Function.update_idem] at hput
  refine ⟨hput, ?_, ?_, ?_, ?_, ?_, ?_, ?_⟩
  . show t.freeinode ≤ _
    rw [hframe.freeinode]
    exact h.freeinode_le
  . intro k hk
    have hkrange := iblock_range hk
    have hdin : t.disk.dinode sb k = dins k := by
      rw [← h.inodes k hk]
      unfold Fs.Disk.dinode
      rw [hframe.low _ (by omega)]
    rw [putInode_dinode _ hroom]
    by_cases hki : k = i
    . subst hki
      rw [Function.update_self, Function.update_self]
    . rw [Function.update_of_ne hki, Function.update_of_ne hki, hdin]
  . intro k
    by_cases hki : k = i
    . subst hki
      rw [Function.update_self, Function.update_self, hlen]
      apply Fs.Dinode.setSize_size
      simp only [hsizes.1, hsizes.2.2.2.1] at hmax
      omega
    . rw [Function.update_of_ne hki, Function.update_of_ne hki, h.sized]
  . intro k hkpos hk
    have hk' : k < s.freeinode := by
      rw [← hframe.freeinode]
      exact hk
    have hold := h.type k hkpos hk'
    by_cases hki : k = i
    . subst hki
      rw [Function.update_self, Fs.Dinode.setSize_type, Fs.Dinode.setSize_nlink, htype, hnlink]
      exact hold
    . rw [Function.update_of_ne hki]
      exact hold
  . intro k hk
    have hk' : s.freeinode ≤ k := by
      rw [← hframe.freeinode]
      exact hk
    rw [Function.update_of_ne (by omega)]
    exact h.unused k hk'
  . have hrange := iblock_range hroom
    rw [putInode_disk_of_ne _ hroom (by omega), hframe.low 1 (by omega)]
    exact h.super
  . intro w hw
    show w.Inside t.freeinode
    rw [hframe.freeinode]
    cases List.mem_cons.mp hw with
    | inl heq =>
      subst heq
      exact ⟨hi, iblock_range hroom⟩
    | inr hmem =>
      cases hframe.writes w hmem with
      | inl hold => exact h.writes w hold
      | inr hnew =>
        rcases hnew with ⟨sec, rfl, hlo, hhi⟩
        exact ⟨hlo, hhi⟩

def newDinode (type : Nat) : Fs.Dinode :=
  let din : Fs.Dinode := Bytes.zero
  ((din.setType type).setNlink 1).setSize 0

theorem newDinode_addrs (type j : Nat) : (newDinode type).addrs j = 0 := by
  unfold newDinode
  rw [Fs.Dinode.setSize_addrs]
  unfold Fs.Dinode.addrs Fs.Dinode.setNlink Fs.Dinode.setType Bytes.getWord
  rw [Bytes.getLE_setLE_of_disjoint _ (by omega), Bytes.getLE_setLE_of_disjoint _ (by omega),
    Bytes.getLE_zero]
  rfl

theorem newDinode_nlink (type : Nat) : (newDinode type).nlink = 1 := by
  unfold newDinode
  rw [Fs.Dinode.setSize_nlink]
  unfold Fs.Dinode.nlink Fs.Dinode.setNlink
  rw [Bytes.getLE_setLE _ _ (by omega)]
  rfl

theorem newDinode_type {type : Nat} (h : type < 2 ^ 16) : (newDinode type).type = type := by
  unfold newDinode
  rw [Fs.Dinode.setSize_type]
  unfold Fs.Dinode.type Fs.Dinode.setNlink Fs.Dinode.setType
  rw [Bytes.getLE_setLE_of_disjoint _ (by omega), Bytes.getLE_setLE _ _ (by omega)]
  exact Nat.mod_eq_of_lt h

theorem inodeType_lt (i : Nat) : inodeType i < 2 ^ 16 := by
  unfold inodeType
  split <;> decide

theorem Image.content_eq_nil (h : Image s dins map c) (hi : s.freeinode ≤ i) : c i = [] := by
  have hsized := h.sized i
  rw [h.unused i hi] at hsized
  apply List.eq_nil_of_length_eq_zero
  rw [← hsized]
  unfold Fs.Dinode.size
  rw [Bytes.getWord_zero]
  rfl

theorem Image.ialloc (h : Image s dins map c) (hpos : 0 < s.freeinode) (hroom : s.freeinode < NROOM)
    {type : Nat} (htype : type = inodeType s.freeinode)
    : ∃ t, s.ialloc type = .ok (s.freeinode, t) ∧ (∃ dins', Image t dins' map c) ∧
        t.freeinode = s.freeinode + 1 ∧ t.freeblock = s.freeblock := by
  have hsizes := sizes
  have hlayout := layout
  subst htype
  generalize hn : s.freeinode = n at hpos hroom
  generalize hu : { s with freeinode := n + 1 } = u
  have husize : u.size = FSSIZE := by
    rw [← hu]
    exact h.size
  have hufilled : Filled u dins map c := by
    rw [← hu]
    exact h.toFilled.congr (fun _ _ => rfl) rfl rfl (fun _ _ => rfl)
  refine ⟨u.putInode n (newDinode (inodeType n)), ?_,
    ⟨Function.update dins n (newDinode (inodeType n)), ?_⟩, ?_, ?_⟩
  . unfold State.ialloc
    dsimp only
    rw [hn, hu]
    have := winode_eq (newDinode (inodeType n)) husize hroom
    unfold newDinode at this
    rw [this]
    rfl
  . have hzero := h.unused n (by omega)
    have hput := hufilled.putInode hroom (newDinode (inodeType n)) (fun j => by
      rw [newDinode_addrs, hzero]
      unfold Fs.Dinode.addrs
      rw [Bytes.getWord_zero]
      rfl)
    refine ⟨hput, ?_, ?_, ?_, ?_, ?_, ?_, ?_⟩
    . show u.freeinode ≤ _
      rw [← hu]
      exact hroom
    . intro k hk
      rw [putInode_dinode _ hroom]
      by_cases hkn : k = n
      . subst hkn
        rw [Function.update_self, Function.update_self]
      . rw [Function.update_of_ne hkn, Function.update_of_ne hkn, ← hu]
        exact h.inodes k hk
    . intro k
      by_cases hkn : k = n
      . subst hkn
        rw [Function.update_self, h.content_eq_nil (by omega)]
        unfold newDinode
        exact Fs.Dinode.setSize_size _ _ (by omega)
      . rw [Function.update_of_ne hkn, h.sized]
    . intro k hkpos hk
      have hk' : k < n + 1 := by
        have : u.freeinode = n + 1 := by rw [← hu]
        rw [← this]
        exact hk
      by_cases hkn : k = n
      . subst hkn
        rw [Function.update_self]
        exact ⟨newDinode_type (inodeType_lt k), newDinode_nlink _⟩
      . rw [Function.update_of_ne hkn]
        exact h.type k hkpos (by omega)
    . intro k hk
      have hk' : n + 1 ≤ k := by
        have : u.freeinode = n + 1 := by rw [← hu]
        rw [← this]
        exact hk
      rw [Function.update_of_ne (by omega)]
      exact h.unused k (by omega)
    . have hrange := iblock_range hroom
      rw [putInode_disk_of_ne _ hroom (by omega), ← hu]
      exact h.super
    . intro w hw
      have hfree : (u.putInode n (newDinode (inodeType n))).freeinode = n + 1 := by
        show u.freeinode = _
        rw [← hu]
      rw [hfree]
      cases List.mem_cons.mp hw with
      | inl heq =>
        subst heq
        exact ⟨Nat.lt_succ_self n, iblock_range hroom⟩
      | inr hmem =>
        rw [← hu] at hmem
        apply Write.Inside.mono _ (h.writes w hmem)
        omega
  . show u.freeinode = _
    rw [← hu]
  . show u.freeblock = _
    rw [← hu]

end Image

end State
end Mkfs
end Xv6
