import Xv6.Fs.Lemmas.Mkfs

/-!
The image that `mkfs` leaves, and what the kernel expects of its block map.
-/

namespace Xv6

namespace Fs
namespace Disk

def pointer (d : Disk) (ip : Dinode) : Slot → Nat
  | .data bn => if bn < MAXFILE then d.mapped ip bn else 0
  | .indirect => ip.addrs NDIRECT

/--
The block maps of the inodes 1 to `n - 1` and the bitmap agree: a file of `size` bytes has exactly the
blocks it needs, from `start` on, and no block has two uses.
-/
structure Consistent (d : Disk) (sb : Superblock) (start n : Nat) : Prop where
  data : ∀ i, 0 < i → i < n → ∀ bn, bn < MAXFILE →
    (d.mapped (d.dinode sb i) bn ≠ 0 ↔ bn < ((d.dinode sb i).size + BSIZE - 1) / BSIZE)
  indirect : ∀ i, 0 < i → i < n →
    ((d.dinode sb i).addrs NDIRECT ≠ 0 ↔ NDIRECT < ((d.dinode sb i).size + BSIZE - 1) / BSIZE)
  range : ∀ i, 0 < i → i < n → ∀ sl, d.pointer (d.dinode sb i) sl ≠ 0 →
    start ≤ d.pointer (d.dinode sb i) sl ∧ d.pointer (d.dinode sb i) sl < sb.size
  distinct : ∀ i j sl sl', 0 < i → i < n → 0 < j → j < n → d.pointer (d.dinode sb i) sl ≠ 0 →
    d.pointer (d.dinode sb i) sl = d.pointer (d.dinode sb j) sl' → i = j ∧ sl = sl'
  bitmap : ∀ b, b < BPB → (d.bit sb b = true ↔
    b < start ∨ ∃ i sl, 0 < i ∧ i < n ∧ d.pointer (d.dinode sb i) sl = b)

end Disk
end Fs

namespace Mkfs

open Fs (Key Slot)

namespace State

theorem getLsbD_one_shiftLeft {i j : Nat} (hi : i < 8) (hj : j < 8)
    : ((1 : BitVec 8) <<< i).getLsbD j = decide (j = i) := by
  have hall : ∀ a b : Fin 8, ((1 : BitVec 8) <<< a.val).getLsbD b.val = decide (b.val = a.val) := by
    decide
  exact hall ⟨i, hi⟩ ⟨j, hj⟩

theorem ballocBuf_bit (used : Nat)
    : ∀ b, b < BPB → ((ballocBuf used).byte (b / 8)).getLsbD (b % 8) = decide (b < used) := by
  have hsizes := sizes
  unfold ballocBuf
  apply Fold.foldl_range (P := fun k (buf : Block) =>
    ∀ b, b < BPB → (buf.byte (b / 8)).getLsbD (b % 8) = decide (b < k))
  . intro b _
    simp
  . intro i buf _ h b hb
    rw [Bytes.byte_blit _ _ _ _ _ (by omega)]
    split
    . next hin =>
      have hdiv : b / 8 = i / 8 := by omega
      have hbit := getLsbD_one_shiftLeft (Nat.mod_lt i (y := 8) (by omega))
        (Nat.mod_lt b (y := 8) (by omega))
      rw [BitVec.getLsbD_or, hbit, ← hdiv, h b hb]
      by_cases heq : b = i
      . subst heq
        simp
      . have hmod : b % 8 ≠ i % 8 := by omega
        have hlt : b < i + 1 ↔ b < i := by omega
        simp [hmod, hlt]
    . next hout =>
      have hlt : b < i + 1 ↔ b < i := by omega
      rw [h b hb]
      simp [hlt]

/--
The image after `fixRoot` and `balloc`. The size of the root directory is that of `fixRoot`.
-/
structure Finished (s : State) (dins : Nat → Fs.Dinode) (map : Key → Nat) (files : List File)
    : Prop extends Filled s dins map (content files) where
  inodes : ∀ i, i < NROOM → s.disk.dinode sb i = dins i
  root_size : (dins Fs.ROOTINO).size = ((rootBytes files).length / BSIZE + 1) * BSIZE
  file_size : ∀ i, i ≠ Fs.ROOTINO → (dins i).size = (content files i).length
  type : ∀ i, 0 < i → i < files.length + 2 → (dins i).type = inodeType i ∧ (dins i).nlink = 1
  super : s.disk 1 = sb.store Bytes.zero
  bitmap : s.disk sb.bmapstart = ballocBuf s.freeblock
  freeinode : s.freeinode = files.length + 2
  freeblock : s.freeblock = nmeta + need files
  writes : ∀ w ∈ s.writes, w.Inside (files.length + 2)

section Main

variable {s : State} {files : List File}

theorem format_holds
    : ∃ s t u, format.ialloc Fs.T_DIR = .ok (Fs.ROOTINO, s) ∧
        s.iappend Fs.ROOTINO (dirent Fs.ROOTINO dot) = .ok t ∧
        t.iappend Fs.ROOTINO (dirent Fs.ROOTINO dotdot) = .ok u ∧ Holds u [] := by
  have hsizes := sizes
  have hroot : Fs.ROOTINO = 1 := rfl
  have hroom : NROOM = 208 := rfl
  have hblocks : blocks 0 = 0 ∧ blocks 16 = 1 ∧ blocks (16 + 16) = 1 := by decide
  rcases format_spec with ⟨_, _, hfree, hblock, _⟩
  have htype : Fs.T_DIR = inodeType format.freeinode := by
    unfold inodeType
    rw [hfree, if_pos hroot.symm]
  rcases format_image.ialloc (by omega) (by omega) htype with ⟨s, hs, ⟨dins, hsi⟩, hsfree, hsblock⟩
  rw [hfree, ← hroot] at hs
  have hdot := dirent_length Fs.ROOTINO dot
  have hdotdot := dirent_length Fs.ROOTINO dotdot
  have happend := hsi.iappend (i := Fs.ROOTINO) (T := True) (by omega) (by omega)
    (dirent Fs.ROOTINO dot) (fun _ => by
      rw [hdot, List.length_nil, Nat.zero_add]
      simp only [hsizes.1, hsizes.2.2.2.1]
      omega)
  rcases happend.2 trivial with ⟨t, ht⟩
  rcases happend.1 t ht with ⟨⟨dins', map', hti⟩, htfree, htblock⟩
  rw [hdot, List.length_nil, Nat.zero_add, hblocks.1, hblocks.2.1] at htblock
  rw [List.nil_append] at hti
  have hlen : (Function.update (fun _ => []) Fs.ROOTINO (dirent Fs.ROOTINO dot) Fs.ROOTINO).length =
      16 := by
    rw [Function.update_self, hdot]
  have happend' := hti.iappend (i := Fs.ROOTINO) (T := True) (by omega) (by omega)
    (dirent Fs.ROOTINO dotdot) (fun _ => by
      rw [hlen, hdotdot]
      simp only [hsizes.1, hsizes.2.2.2.1]
      omega)
  rcases happend'.2 trivial with ⟨u, hu⟩
  rcases happend'.1 u hu with ⟨⟨dins'', map'', hui⟩, hufree, hublock⟩
  rw [hlen, hdotdot, hblocks.2.1] at hublock
  refine ⟨s, t, u, hs, ht, hu, ⟨dins'', map'', ?_⟩, ?_, ?_⟩
  . have hcontent : Function.update (Function.update (fun _ => []) Fs.ROOTINO
        (dirent Fs.ROOTINO dot)) Fs.ROOTINO (dirent Fs.ROOTINO dot ++ dirent Fs.ROOTINO dotdot) =
          content [] := by
      funext i
      rw [Function.update_idem]
      by_cases hi : i = Fs.ROOTINO
      . subst hi
        rw [Function.update_self, content_root]
        rfl
      . rw [Function.update_of_ne hi]
        unfold content
        rw [if_neg hi]
        split <;> rfl
    rw [Function.update_self, hcontent] at hui
    exact hui
  . rw [hufree, htfree, hsfree, hfree]
    rfl
  . have hneed : need [] = 1 := by decide
    omega

theorem Holds.finish (h : Holds s files) (hroom : files.length + 2 ≤ NROOM)
    : ∃ t u, fixRoot s Fs.ROOTINO = .ok t ∧ t.balloc t.freeblock = .ok u ∧
        ∃ dins map, Finished u dins map files := by
  have hsizes := sizes
  have hlayout := layout
  have hroot : Fs.ROOTINO = 1 := rfl
  have hroomVal : NROOM = 208 := rfl
  rcases h.image with ⟨dins, map, himage⟩
  have hin : Fs.ROOTINO < NROOM := by omega
  have hfree := h.freeinode
  have hle := himage.free_le
  have hge := himage.bump.le
  generalize hoff : ((rootBytes files).length / BSIZE + 1) * BSIZE = off
  have hofflt : off < 2 ^ 32 := by
    rw [← hoff, rootBytes_length, hsizes.1]
    omega
  have hfix : fixRoot s Fs.ROOTINO = .ok (s.putInode Fs.ROOTINO ((dins Fs.ROOTINO).setSize off)) := by
    unfold fixRoot
    rw [rinode_eq himage.size hin, himage.inodes _ hin, Fold.ok_bind]
    dsimp only
    rw [himage.sized, content_root, hoff]
    exact winode_eq _ himage.size hin
  have hput := himage.toFilled.putInode hin ((dins Fs.ROOTINO).setSize off)
    (fun j => Fs.Dinode.setSize_addrs _ _ j)
  generalize ht : s.putInode Fs.ROOTINO ((dins Fs.ROOTINO).setSize off) = t at hfix hput
  have htfree : t.freeinode = files.length + 2 := by
    rw [← ht]
    exact hfree
  have htblock : t.freeblock = s.freeblock := by
    rw [← ht]
    rfl
  have hseek : seek sb.bmapstart = sb.bmapstart := seek_eq (by omega)
  have hdisk : ∀ b, b ≠ sb.bmapstart →
      (t.wsect (.bitmap sb.bmapstart) (ballocBuf t.freeblock)).disk b = t.disk b := by
    intro b hb
    show Function.update t.disk (seek sb.bmapstart) _ b = _
    rw [hseek, Function.update_of_ne hb]
  refine ⟨t, t.wsect (.bitmap sb.bmapstart) (ballocBuf t.freeblock), hfix, ?_,
    Function.update dins Fs.ROOTINO ((dins Fs.ROOTINO).setSize off), map, ?_⟩
  . unfold State.balloc
    rw [if_pos (by simp only [hsizes.1]; omega)]
  have hfilled : Filled (t.wsect (.bitmap sb.bmapstart) (ballocBuf t.freeblock))
      (Function.update dins Fs.ROOTINO ((dins Fs.ROOTINO).setSize off)) map (content files) := by
    apply hput.congr
    . intro b hb
      exact hdisk b (by omega)
    . show max t.size (seek sb.bmapstart + 1) = t.size
      rw [hseek, hput.size]
      omega
    . rfl
    . intros
      rfl
  refine ⟨hfilled, ?_, ?_, ?_, ?_, ?_, ?_, htfree, htblock.trans h.freeblock, ?_⟩
  . intro i hi
    have hrange := iblock_range hi
    have hsame : (t.wsect (.bitmap sb.bmapstart) (ballocBuf t.freeblock)).disk.dinode sb i =
        t.disk.dinode sb i := by
      unfold Fs.Disk.dinode
      rw [hdisk _ (by omega)]
    rw [hsame, ← ht, putInode_dinode _ hin]
    by_cases hir : i = Fs.ROOTINO
    . rw [hir, Function.update_self, Function.update_self]
    . rw [Function.update_of_ne hir, Function.update_of_ne hir, himage.inodes i hi]
  . rw [Function.update_self, hoff]
    exact Fs.Dinode.setSize_size _ _ hofflt
  . intro i hi
    rw [Function.update_of_ne hi, himage.sized]
  . intro i hpos hi
    have hold := himage.type i hpos (by omega)
    by_cases hir : i = Fs.ROOTINO
    . subst hir
      rw [Function.update_self, Fs.Dinode.setSize_type, Fs.Dinode.setSize_nlink]
      exact hold
    . rw [Function.update_of_ne hir]
      exact hold
  . have hrange := iblock_range hin
    rw [hdisk 1 (by omega), ← ht, putInode_disk_of_ne _ hin (by omega)]
    exact himage.super
  . show Function.update t.disk (seek sb.bmapstart) _ sb.bmapstart = _
    rw [hseek, Function.update_self]
    rfl
  . intro w hw
    cases List.mem_cons.mp hw with
    | inl heq =>
      subst heq
      refine ⟨Nat.le_refl _, ?_⟩
      omega
    | inr hmem =>
      rw [← ht] at hmem
      cases List.mem_cons.mp hmem with
      | inl heq =>
        subst heq
        exact ⟨by omega, iblock_range hin⟩
      | inr hold =>
        rw [← hfree]
        exact himage.writes w hold

/--
Files that are not too many for the inode area end in an image of them or in an error, and in an
image if there is room for them.
-/
theorem main_ensures (files : List File) (hroom : files.length + 2 ≤ NROOM)
    : Ensures (Room files) (main files) (fun t => ∃ dins map, Finished t dins map files) := by
  have hsizes := sizes
  rcases format_holds with ⟨s, t, u, hs, ht, hu, hholds⟩
  have hnil : ([] : List File).length + files.length + 2 ≤ NROOM := by
    rw [List.length_nil]
    omega
  have hfit : Room files → (∀ f ∈ files, f.bytes.length ≤ MAXFILE * BSIZE) ∧
      nmeta + need ([] ++ files) ≤ FSSIZE := by
    intro h
    have := h.total
    refine ⟨h.size, ?_⟩
    rw [List.nil_append]
    omega
  unfold main
  rw [hs, Fold.ok_bind]
  dsimp only
  rw [if_pos rfl, ht, Fold.ok_bind, hu, Fold.ok_bind]
  apply (hholds.addFiles files hnil hfit).bind
  intro v hv
  rw [List.nil_append] at hv
  rcases hv.finish hroom with ⟨x, y, hx, hy, hfinished⟩
  rw [hx, Fold.ok_bind, hy]
  exact .ok hfinished

theorem fits_room (h : Fits files) : files.length + 2 ≤ NROOM := by
  have hroom : NROOM = 208 := rfl
  have hninodes : NINODES = 200 := rfl
  have := h.count
  omega

theorem main_ok (h : Fits files)
    : ∃ t, main files = .ok t ∧ ∃ dins map, Finished t dins map files := by
  have hmain := main_ensures files (fits_room h)
  rcases hmain.2 h.toRoom with ⟨t, ht⟩
  exact ⟨t, ht, hmain.1 t ht⟩

end Main

section Finished

variable {s : State} {dins : Nat → Fs.Dinode} {map : Key → Nat} {files : List File}

theorem Finished.readsb_eq (h : Finished s dins map files) : readsb s.disk = sb := by
  have himage : readsb image = sb := by decide +kernel
  rw [← himage]
  unfold readsb
  rw [h.super]
  rfl

theorem Finished.pointer_eq (h : Finished s dins map files) {i : Nat} (hi : i < NROOM) (sl : Slot)
    : s.disk.pointer (s.disk.dinode sb i) sl = map (i, sl) := by
  rw [h.inodes i hi]
  unfold Fs.Disk.pointer
  cases sl with
  | data bn =>
    dsimp only
    split
    . next hlt => exact h.data i bn hlt
    . next hge => exact (h.bound i bn (by omega)).symm
  | indirect => exact h.indirect i

theorem Finished.inum_of_ne_zero (h : Finished s dins map files) {k : Key} (hk : map k ≠ 0)
    : 0 < k.1 ∧ k.1 < files.length + 2 := by
  have hroot : Fs.ROOTINO = 1 := rfl
  have hlen : 0 < (content files k.1).length := by
    rcases k with ⟨i, sl⟩
    cases sl with
    | data bn =>
      have := (h.mapped i bn).mp hk
      dsimp only
      omega
    | indirect =>
      have := (h.indirect_iff i).mp hk
      dsimp only
      omega
  unfold content at hlen
  split at hlen
  . omega
  . split at hlen
    . by_cases hlt : k.1 - 2 < files.length
      . omega
      . rw [List.getElem?_eq_none (by omega)] at hlen
        simp at hlen
    . simp at hlen

theorem Finished.room (h : Finished s dins map files) : Room files := by
  have hfree := h.free_le
  have hblock := h.freeblock
  refine ⟨?_, by omega⟩
  intro f hf
  rcases List.mem_iff_getElem?.mp hf with ⟨i, hi⟩
  have hlen := h.length_le (i + 2)
  rw [content_file, hi] at hlen
  exact hlen

theorem Finished.blocks_iff (h : Finished s dins map files) (hmod : (files.length + 2) % 32 ≠ 0)
    (i bn : Nat)
    : bn < ((dins i).size + BSIZE - 1) / BSIZE ↔ bn * BSIZE < (content files i).length := by
  have hsizes := sizes
  by_cases hi : i = Fs.ROOTINO
  . subst hi
    rw [h.root_size, content_root, rootBytes_length]
    simp only [hsizes.1]
    omega
  . rw [h.file_size i hi]
    simp only [hsizes.1]
    omega

theorem Finished.consistent (h : Finished s dins map files) (hroom : files.length + 2 ≤ NROOM)
    (hmod : (files.length + 2) % 32 ≠ 0)
    : s.disk.Consistent sb nmeta (files.length + 2) := by
  have hsizes := sizes
  have hlayout := layout
  have hsize : sb.size = FSSIZE := rfl
  have hfree := h.free_le
  constructor
  . intro i _ hi bn hbn
    rw [h.inodes i (by omega), h.blocks_iff hmod, h.data i bn hbn, h.mapped]
  . intro i _ hi
    rw [h.inodes i (by omega), h.blocks_iff hmod, h.indirect, h.indirect_iff]
  . intro i _ hi sl
    rw [h.pointer_eq (by omega), hsize]
    intro hne
    have := h.bump.range _ hne
    omega
  . intro i j sl sl' _ hi _ hj
    rw [h.pointer_eq (by omega), h.pointer_eq (by omega)]
    intro hne heq
    have := h.bump.inj _ _ hne heq
    simpa using this
  . intro b hb
    have hblock : sb.bblock b = sb.bmapstart := by
      unfold Superblock.bblock
      rw [Nat.div_eq_of_lt hb, Nat.zero_add]
    have hbit : s.disk.bit sb b = decide (b < s.freeblock) := by
      unfold Fs.Disk.bit
      rw [hblock, h.bitmap, Nat.mod_eq_of_lt hb]
      exact ballocBuf_bit s.freeblock b hb
    rw [hbit, decide_eq_true_iff]
    have hle := h.bump.le
    constructor
    . intro hlt
      by_cases hlow : b < nmeta
      . exact .inl hlow
      . rcases h.bump.onto b (by omega) hlt with ⟨⟨i, sl⟩, hk⟩
        have hinum := h.inum_of_ne_zero (k := (i, sl)) (by omega)
        dsimp only at hinum
        refine .inr ⟨i, sl, hinum.1, hinum.2, ?_⟩
        rw [h.pointer_eq (by omega), hk]
    . rintro (hlow | ⟨i, sl, _, hi, hp⟩)
      . omega
      . rw [h.pointer_eq (by omega)] at hp
        by_cases hzero : b = 0
        . omega
        . have := h.bump.range (i, sl) (by omega)
          omega

-- fixRoot gives a root directory that ends with a block one block more than it has
theorem Finished.not_consistent (h : Finished s dins map files) (hroom : files.length + 2 ≤ NROOM)
    (hmod : (files.length + 2) % 32 = 0)
    : ¬s.disk.Consistent sb nmeta (files.length + 2) := by
  have hsizes := sizes
  have hroomVal : NROOM = 208 := rfl
  have hroot : Fs.ROOTINO = 1 := rfl
  intro hcons
  have hbn : (files.length + 2) / 32 < MAXFILE := by omega
  have hdata := hcons.data Fs.ROOTINO (by omega) (by omega) _ hbn
  rw [h.inodes _ (by omega), h.data _ _ hbn, h.mapped, h.root_size, content_root, rootBytes_length]
    at hdata
  simp only [hsizes.1] at hdata
  omega

end Finished

section Freeinode

variable {s : State}

end Freeinode

def emptyFile (i : Fin NINODES) : File where
  name := [BitVec.ofNat 8 (i.val + 33)]
  name_ne_zero := by
    intro b hb hzero
    rw [List.mem_singleton.mp hb] at hzero
    have hval := congrArg BitVec.toNat hzero
    rw [BitVec.toNat_ofNat] at hval
    have hi : i.val < 200 := i.isLt
    have : (0 : BitVec 8).toNat = 0 := rfl
    omega
  chunks := []
  chunks_length := nofun

def empties (n : Nat) : List File :=
  ((List.finRange NINODES).take n).map emptyFile

theorem empties_length {n : Nat} (hn : n ≤ NINODES) : (empties n).length = n := by
  unfold empties
  rw [List.length_map, List.length_take, List.length_finRange]
  omega

theorem empties_bytes {n : Nat} : ∀ f ∈ empties n, f.bytes.length = 0 := by
  intro f hf
  rcases List.mem_map.mp hf with ⟨i, _, rfl⟩
  rfl

theorem empties_room {n : Nat} (hn : n ≤ NINODES) : Room (empties n) := by
  have hsizes := sizes
  have hninodes : NINODES = 200 := rfl
  have hsum : ((empties n).map (fun f => blocks f.bytes.length)).sum = 0 := by
    rw [List.sum_eq_zero_iff_forall_eq_nat]
    intro b hb
    rcases List.mem_map.mp hb with ⟨f, hf, rfl⟩
    rw [empties_bytes f hf]
    rfl
  constructor
  . intro f hf
    rw [empties_bytes f hf]
    omega
  . have hblocks : blocks (16 * (n + 2)) ≤ blocks (16 * 202) := blocks_mono (by omega)
    have hseven : blocks (16 * 202) = 7 := by decide
    unfold need
    rw [hsum, empties_length hn]
    omega

def smallFile : File where
  name := [97]
  name_ne_zero := by decide
  chunks := [[1, 2, 3], [4]]
  chunks_length := by decide

-- 13 blocks of data, so that there is an indirect block
def largeFile : File where
  name := [98]
  name_ne_zero := by decide
  chunks := List.replicate 13 (List.replicate 512 7)
  chunks_length := by
    intro c hc
    rw [List.eq_of_mem_replicate hc, List.length_replicate]
    decide

theorem largeFile_bytes : largeFile.bytes = List.replicate 6656 7 :=
  List.flatten_replicate_replicate

theorem twoFiles_fits : Fits [smallFile, largeFile] := by
  have hsmall : smallFile.bytes.length = 4 := rfl
  have hlarge : largeFile.bytes.length = 6656 := by
    rw [largeFile_bytes, List.length_replicate]
  refine ⟨⟨?_, ?_⟩, by decide⟩
  . simp only [List.forall_mem_cons, hsmall, hlarge]
    decide
  . simp only [need, List.map_cons, hsmall, hlarge]
    decide

/-- Every inode number and every sector written is in its region. -/
def Inside (t : State) : Prop :=
  t.freeinode ≤ NINODES ∧ ∀ w ∈ t.writes, w.Inside NINODES

theorem main_consistent (files : List File) (h : Fits files)
    : ∃ t, main files = .ok t ∧
        (t.disk.Consistent (readsb t.disk) nmeta (files.length + 2) ↔ (files.length + 2) % 32 ≠ 0) := by
  rcases main_ok h with ⟨t, ht, dins, map, hfinished⟩
  refine ⟨t, ht, ?_⟩
  rw [hfinished.readsb_eq]
  constructor
  . intro hcons hmod
    exact hfinished.not_consistent (fits_room h) hmod hcons
  . intro hmod
    exact hfinished.consistent (fits_room h) hmod

theorem main_consistent_twoFiles
    : Fits [smallFile, largeFile] ∧
      ∃ t, main [smallFile, largeFile] = .ok t ∧ t.disk.Consistent (readsb t.disk) nmeta 4 := by
  rcases main_consistent _ twoFiles_fits with ⟨t, ht, hcons⟩
  exact ⟨twoFiles_fits, t, ht, hcons.mpr (by decide)⟩

-- 32 entries fill one block, and the size of the root directory becomes two
theorem main_root_hole
    : Fits (empties 30) ∧
      ∃ t, main (empties 30) = .ok t ∧
        (t.disk.dinode (readsb t.disk) Fs.ROOTINO).size = 2 * BSIZE ∧
        t.disk.mapped (t.disk.dinode (readsb t.disk) Fs.ROOTINO) 1 = 0 := by
  have hsizes := sizes
  have hlen : (empties 30).length = 30 := empties_length (by decide)
  have hfits : Fits (empties 30) := ⟨empties_room (by decide), by rw [hlen]; decide⟩
  rcases main_ok hfits with ⟨t, ht, dins, map, hfinished⟩
  have hmapped := hfinished.mapped Fs.ROOTINO 1
  rw [content_root, rootBytes_length, hlen] at hmapped
  refine ⟨hfits, t, ht, ?_, ?_⟩
  . rw [hfinished.readsb_eq, hfinished.inodes _ (by decide), hfinished.root_size, rootBytes_length,
      hlen]
    rfl
  . rw [hfinished.readsb_eq, hfinished.inodes _ (by decide), hfinished.data _ 1 (by omega)]
    omega

end State
end Mkfs
end Xv6
