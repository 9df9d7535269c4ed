import Xv6.Fs.Lemmas.Image

namespace Xv6
namespace Mkfs

open Fs (Key Slot)

theorem dirent_length (inum : Nat) (name : List (BitVec 8)) : (dirent inum name).length = 16 := by
  have hdirsiz : Fs.DIRSIZ = 14 := rfl
  unfold dirent direntName
  simp only [List.length_append, List.length_cons, List.length_nil, List.length_take,
    List.length_replicate]
  omega

def rootEntries (files : List File) : List (Nat × List (BitVec 8)) :=
  [(Fs.ROOTINO, dot), (Fs.ROOTINO, dotdot)] ++ files.mapIdx (fun i f => (i + 2, f.name))

def rootBytes (files : List File) : List (BitVec 8) :=
  ((rootEntries files).map (fun e => dirent e.1 e.2)).flatten

def content (files : List File) (i : Nat) : List (BitVec 8) :=
  if i = Fs.ROOTINO then
    rootBytes files
  else if 2 ≤ i then
    ((files[i - 2]?).map File.bytes).getD []
  else
    []

theorem content_root (files : List File) : content files Fs.ROOTINO = rootBytes files :=
  if_pos rfl

theorem content_file (files : List File) (i : Nat)
    : content files (i + 2) = ((files[i]?).map File.bytes).getD [] := by
  unfold content
  have hroot : i + 2 ≠ Fs.ROOTINO := by
    have : Fs.ROOTINO = 1 := rfl
    omega
  rw [if_neg hroot, if_pos (by omega), Nat.add_sub_cancel]

theorem rootBytes_concat (files : List File) (f : File)
    : rootBytes (files ++ [f]) = rootBytes files ++ dirent (files.length + 2) f.name := by
  unfold rootBytes rootEntries
  simp only [List.mapIdx_append, List.mapIdx_cons, List.mapIdx_nil, List.map_append,
    List.flatten_append, List.map_cons, List.map_nil, List.flatten_cons, List.flatten_nil,
    List.append_nil, List.append_assoc, Nat.zero_add]

theorem rootBytes_length (files : List File)
    : (rootBytes files).length = 16 * (files.length + 2) := by
  have hlen : ∀ l : List (Nat × List (BitVec 8)),
      ((l.map (fun e => dirent e.1 e.2)).flatten).length = 16 * l.length := by
    intro l
    induction l with
    | nil => rfl
    | cons e l ih =>
      rw [List.map_cons, List.flatten_cons, List.length_append, ih, dirent_length,
        List.length_cons]
      omega
  unfold rootBytes
  rw [hlen]
  unfold rootEntries
  simp only [List.length_append, List.length_cons, List.length_nil, List.length_mapIdx]
  omega

theorem content_concat (files : List File) (f : File)
    : content (files ++ [f]) =
        Function.update (Function.update (content files) Fs.ROOTINO
          (content files Fs.ROOTINO ++ dirent (files.length + 2) f.name))
          (files.length + 2) f.bytes := by
  have hroot : Fs.ROOTINO = 1 := rfl
  funext i
  by_cases hi : i = files.length + 2
  . subst hi
    rw [Function.update_self, content_file]
    simp
  rw [Function.update_of_ne hi]
  by_cases hi1 : i = Fs.ROOTINO
  . subst hi1
    rw [Function.update_self, content_root, content_root, rootBytes_concat]
  rw [Function.update_of_ne hi1]
  unfold content
  rw [if_neg hi1, if_neg hi1]
  split
  . by_cases hlt : i - 2 < files.length
    . rw [List.getElem?_append_left hlt]
    . rw [List.getElem?_eq_none (by simp; omega), List.getElem?_eq_none (by omega)]
  . rfl

def need (files : List File) : Nat :=
  blocks (16 * (files.length + 2)) + (files.map (fun f => blocks f.bytes.length)).sum

theorem need_concat (files : List File) (f : File)
    : need (files ++ [f]) + blocks (16 * (files.length + 2)) =
        need files + blocks (16 * (files.length + 3)) + blocks f.bytes.length := by
  unfold need
  simp only [List.length_append, List.length_cons, List.length_nil, List.map_append, List.map_cons,
    List.map_nil, List.sum_append, List.sum_cons, List.sum_nil]
  have : files.length + (0 + 1) + 2 = files.length + 3 := by omega
  rw [this]
  omega

theorem need_append (files rest : List File) : need files ≤ need (files ++ rest) := by
  unfold need
  have hmono : blocks (16 * (files.length + 2)) ≤ blocks (16 * ((files ++ rest).length + 2)) := by
    apply blocks_mono
    rw [List.length_append]
    omega
  rw [List.map_append, List.sum_append]
  omega

structure Room (files : List File) : Prop where
  size : ∀ f ∈ files, f.bytes.length ≤ MAXFILE * BSIZE
  total : need files ≤ FSSIZE - nmeta

/--
The input files fit into an image: their number, the size of each, and the data blocks of all.
-/
structure Fits (files : List File) : Prop extends Room files where
  count : files.length ≤ NINODES - 2

namespace State

structure Zeroed (k : Nat) (s : State) : Prop where
  disk : ∀ b, s.disk b = Bytes.zero
  size : s.size = k
  freeinode : s.freeinode = 1
  freeblock : s.freeblock = nmeta
  writes : ∀ w ∈ s.writes, w.Inside 1

theorem zeroes_zeroed : Zeroed FSSIZE zeroes := by
  have hsizes := sizes
  unfold zeroes
  apply Fold.foldl_range (P := Zeroed)
  . exact ⟨fun _ => rfl, rfl, rfl, rfl, nofun⟩
  . intro i s hi h
    have hseek : seek i = i := seek_eq (by omega)
    refine ⟨?_, ?_, h.freeinode, h.freeblock, ?_⟩
    . intro b
      show Function.update s.disk (seek i) Bytes.zero b = _
      rw [Function.update_apply, h.disk]
      split <;> rfl
    . show max s.size (seek i + 1) = i + 1
      rw [hseek, h.size]
      omega
    . intro w hw
      cases List.mem_cons.mp hw with
      | inl heq =>
        subst heq
        exact hi
      | inr hmem => exact h.writes w hmem

theorem format_spec
    : (∀ b, format.disk b = if b = 1 then sb.store Bytes.zero else Bytes.zero) ∧
      format.size = FSSIZE ∧ format.freeinode = 1 ∧ format.freeblock = nmeta ∧
      ∀ w ∈ format.writes, w.Inside 1 := by
  have hsizes := sizes
  have hzeroed := zeroes_zeroed
  unfold format
  generalize zeroes = s at hzeroed
  have hseek : seek 1 = 1 := seek_eq (by omega)
  refine ⟨?_, ?_, hzeroed.freeinode, hzeroed.freeblock, ?_⟩
  . intro b
    show Function.update s.disk (seek 1) _ b = _
    rw [hseek, Function.update_apply, hzeroed.disk]
  . show max s.size (seek 1 + 1) = _
    rw [hseek, hzeroed.size]
    omega
  . intro w hw
    cases List.mem_cons.mp hw with
    | inl heq =>
      subst heq
      show 1 < FSSIZE
      omega
    | inr hmem => exact hzeroed.writes w hmem

theorem format_image
    : Image format (fun _ => Bytes.zero) (fun _ => 0) (fun _ => []) := by
  have hsizes := sizes
  have hlayout := layout
  rcases format_spec with ⟨hdisk, hsize, hfree, hblock, hwrites⟩
  have haddrs : ∀ j, Fs.Dinode.addrs Bytes.zero j = 0 := by
    intro j
    unfold Fs.Dinode.addrs
    rw [Bytes.getWord_zero]
    rfl
  have hzero : ∀ b, b ≠ 1 → format.disk b = Bytes.zero := by
    intro b hb
    rw [hdisk, if_neg hb]
  constructor
  . constructor
    . constructor
      . exact hsize
      . rw [hblock]
        exact .empty (by omega)
      . intro i bn _
        unfold Fs.Disk.mapped
        rw [haddrs, haddrs, if_pos rfl]
        split <;> rfl
      . intro i
        exact haddrs NDIRECT
      . intros
        rfl
      . intro b hb
        exact hzero b (by omega)
    . omega
    . intros
      simp
    . intros
      simp
    . intro i j hj
      simp at hj
  . have hroom : NROOM = 208 := rfl
    omega
  . intro i hi
    have hrange := iblock_range hi
    unfold Fs.Disk.dinode
    rw [hzero _ (by omega)]
    funext j
    exact Bytes.byte_zero _
  . intro i
    unfold Fs.Dinode.size
    rw [Bytes.getWord_zero]
    rfl
  . intro i h1 h2
    omega
  . intros
    rfl
  . rw [hdisk, if_pos rfl]
  . rw [hfree]
    exact hwrites

section Files

variable {T : Prop} {s : State} {dins : Nat → Fs.Dinode} {map : Key → Nat}
  {c : Nat → List (BitVec 8)} {i : Nat}

theorem Image.iappendChunks (h : Image s dins map c) (hpos : 0 < i) (hi : i < s.freeinode)
    (chunks : List (List (BitVec 8)))
    (hT : T → (c i).length + chunks.flatten.length ≤ MAXFILE * BSIZE ∧
      s.freeblock + blocks ((c i).length + chunks.flatten.length) ≤ FSSIZE + blocks (c i).length)
    : Ensures T (chunks.foldlM (fun s p => s.iappend i p) s) (fun t =>
        (∃ dins' map', Image t dins' map' (Function.update c i (c i ++ chunks.flatten))) ∧
        t.freeinode = s.freeinode ∧
        t.freeblock + blocks (c i).length =
          s.freeblock + blocks ((c i).length + chunks.flatten.length)) := by
  induction chunks generalizing s dins map c with
  | nil =>
    refine .ok ⟨⟨dins, map, ?_⟩, rfl, rfl⟩
    rw [List.flatten_nil, List.append_nil, Function.update_eq_self]
    exact h
  | cons p chunks ih =>
    rw [List.foldlM_cons]
    rw [List.flatten_cons, List.length_append] at hT
    have hmono : blocks ((c i).length + p.length) ≤
        blocks ((c i).length + (p.length + chunks.flatten.length)) := blocks_mono (by omega)
    apply (h.iappend hpos hi p (T := T) (fun hT' => by have := hT hT'; omega)).bind
    rintro t ⟨⟨dins', map', ht⟩, hfree, hcount⟩
    have hlen : (Function.update c i (c i ++ p) i).length = (c i).length + p.length := by
      rw [Function.update_self, List.length_append]
    have hassoc : (c i).length + p.length + chunks.flatten.length =
        (c i).length + (p.length + chunks.flatten.length) := by omega
    have hrest : T → (Function.update c i (c i ++ p) i).length + chunks.flatten.length ≤
          MAXFILE * BSIZE ∧
        t.freeblock + blocks ((Function.update c i (c i ++ p) i).length + chunks.flatten.length) ≤
          FSSIZE + blocks (Function.update c i (c i ++ p) i).length := by
      intro hT'
      have := hT hT'
      rw [hlen, hassoc]
      omega
    apply (ih ht (by omega) hrest).mono
    rintro u ⟨⟨dins'', map'', hu⟩, hufree, hucount⟩
    rw [hlen, hassoc] at hucount
    rw [Function.update_idem, Function.update_self, List.append_assoc] at hu
    refine ⟨⟨dins'', map'', hu⟩, by rw [hufree, hfree], ?_⟩
    rw [List.flatten_cons, List.length_append]
    omega

structure Holds (s : State) (files : List File) : Prop where
  image : ∃ dins map, Image s dins map (content files)
  freeinode : s.freeinode = files.length + 2
  freeblock : s.freeblock = nmeta + need files

theorem Holds.addFile {files : List File} (h : Holds s files) (f : File)
    (hroom : files.length + 2 < NROOM)
    (hT : T → f.bytes.length ≤ MAXFILE * BSIZE ∧ nmeta + need (files ++ [f]) ≤ FSSIZE)
    : Ensures T (Mkfs.addFile Fs.ROOTINO s f) (fun t => Holds t (files ++ [f])) := by
  have hsizes := sizes
  have hroot : Fs.ROOTINO = 1 := rfl
  have hroomVal : NROOM = 208 := rfl
  rcases h.image with ⟨dins, map, himage⟩
  have hfree := h.freeinode
  have hblock := h.freeblock
  have hneed := need_concat files f
  have htype : Fs.T_FILE = inodeType s.freeinode := by
    unfold inodeType
    rw [if_neg (by omega)]
  rcases himage.ialloc (by omega) (by omega) htype with ⟨t, ht, ⟨dins', himage'⟩, hfree', hblock'⟩
  unfold Mkfs.addFile
  rw [ht]
  apply Ensures.bind (Q := (· = (s.freeinode, t))) (.ok rfl)
  rintro _ rfl
  dsimp only
  have hrootLen : (content files Fs.ROOTINO).length = 16 * (files.length + 2) := by
    rw [content_root, rootBytes_length]
  have hentry := dirent_length s.freeinode f.name
  have hsum : 16 * (files.length + 2) + 16 = 16 * (files.length + 3) := by omega
  have hcap : T → (content files Fs.ROOTINO).length + (dirent s.freeinode f.name).length ≤
        MAXFILE * BSIZE ∧
      t.freeblock + blocks ((content files Fs.ROOTINO).length +
        (dirent s.freeinode f.name).length) ≤
        FSSIZE + blocks (content files Fs.ROOTINO).length := by
    intro hT'
    have := hT hT'
    rw [hrootLen, hentry, hsum]
    simp only [hsizes.1, hsizes.2.2.2.1]
    omega
  apply (himage'.iappend (by omega) (by omega) (dirent s.freeinode f.name) hcap).bind
  rintro u ⟨⟨dins'', map'', hu⟩, hufree, hucount⟩
  rw [hrootLen, hentry, hsum] at hucount
  rw [hfree] at hu ⊢
  generalize hc : Function.update (content files) Fs.ROOTINO
    (content files Fs.ROOTINO ++ dirent (files.length + 2) f.name) = c at hu
  have hempty : c (files.length + 2) = [] := by
    rw [← hc, Function.update_of_ne (by omega), content_file, List.getElem?_eq_none (by omega)]
    rfl
  have hzero : blocks 0 = 0 := rfl
  have hcap' : T → (c (files.length + 2)).length + f.chunks.flatten.length ≤ MAXFILE * BSIZE ∧
      u.freeblock + blocks ((c (files.length + 2)).length + f.chunks.flatten.length) ≤
        FSSIZE + blocks (c (files.length + 2)).length := by
    intro hT'
    have := hT hT'
    unfold File.bytes at this hneed
    rw [hempty, List.length_nil, Nat.zero_add]
    omega
  apply (hu.iappendChunks (by omega) (by omega) f.chunks hcap').mono
  rintro v ⟨⟨dins₃, map₃, hv⟩, hvfree, hvcount⟩
  refine ⟨⟨dins₃, map₃, ?_⟩, ?_, ?_⟩
  . rw [content_concat, hc]
    rw [hempty, List.nil_append] at hv
    exact hv
  . rw [hvfree, hufree, hfree', hfree, List.length_append]
    rfl
  . rw [hempty, List.length_nil, Nat.zero_add] at hvcount
    unfold File.bytes at hneed
    omega

theorem Holds.addFiles {done : List File} (h : Holds s done) (files : List File)
    (hroom : done.length + files.length + 2 ≤ NROOM)
    (hT : T → (∀ f ∈ files, f.bytes.length ≤ MAXFILE * BSIZE) ∧
      nmeta + need (done ++ files) ≤ FSSIZE)
    : Ensures T (files.foldlM (Mkfs.addFile Fs.ROOTINO) s) (fun t => Holds t (done ++ files)) := by
  induction files generalizing s done with
  | nil =>
    refine .ok ?_
    rw [List.append_nil]
    exact h
  | cons f files ih =>
    rw [List.length_cons] at hroom
    have hsplit : done ++ f :: files = done ++ [f] ++ files := by simp
    rw [hsplit] at hT ⊢
    have hneed := need_append (done ++ [f]) files
    rw [List.foldlM_cons]
    have hone : T → f.bytes.length ≤ MAXFILE * BSIZE ∧ nmeta + need (done ++ [f]) ≤ FSSIZE := by
      intro hT'
      have hall := hT hT'
      refine ⟨hall.1 f List.mem_cons_self, ?_⟩
      omega
    apply (h.addFile f (by omega) hone).bind
    intro t ht
    apply ih ht
    . rw [List.length_append, List.length_cons, List.length_nil]
      omega
    . intro hT'
      have hall := hT hT'
      exact ⟨fun g hg => hall.1 g (List.mem_cons_of_mem f hg), hall.2⟩

end Files

end State
end Mkfs
end Xv6
