import Xv6.Fs.Lemmas.Consistent

/-!
The kernel reads the files and the root directory of an image as `mkfs` has been given them.
-/

namespace Xv6

namespace Fs

theorem strncmpEq_padded (n : Nat) (s t : List (BitVec 8)) (hs : ∀ b ∈ s, b ≠ 0)
    (ht : ∀ b ∈ t, b ≠ 0)
    : strncmpEq n s (t.take n ++ List.replicate (n - t.length) 0) = decide (s.take n = t.take n) := by
  induction n generalizing s t with
  | zero => simp [strncmpEq]
  | succ n ih =>
    unfold strncmpEq
    cases s with
    | nil =>
      cases t with
      | nil => simp [List.replicate_succ]
      | cons y ys =>
        have hy : 0#8 ≠ y := Ne.symm (ht y List.mem_cons_self)
        simp [hy]
    | cons x xs =>
      have hx : x ≠ 0#8 := hs x List.mem_cons_self
      cases t with
      | nil => simp [List.replicate_succ, hx]
      | cons y ys =>
        by_cases hxy : x = y
        . subst hxy
          have hrest : strncmpEq n xs (ys.take n ++ List.replicate (n - ys.length) 0#8) =
              decide (xs.take n = ys.take n) :=
            ih xs ys (fun b hb => hs b (List.mem_cons_of_mem x hb))
              (fun b hb => ht b (List.mem_cons_of_mem x hb))
          simp [hx, hrest]
        . simp [hxy]

end Fs

namespace Mkfs

open Fs (Key Slot)

theorem namecmpEq_direntName {s t : List (BitVec 8)} (hs : ∀ b ∈ s, b ≠ 0) (ht : ∀ b ∈ t, b ≠ 0)
    : Fs.namecmpEq s (direntName t) = decide (s.take Fs.DIRSIZ = t.take Fs.DIRSIZ) :=
  Fs.strncmpEq_padded Fs.DIRSIZ s t hs ht

theorem dirent_drop (inum : Nat) (name : List (BitVec 8))
    : (dirent inum name).drop 2 = direntName name :=
  rfl

theorem direntInum_dirent {inum : Nat} (h : inum < 2 ^ 16) (name : List (BitVec 8))
    : Fs.direntInum (dirent inum name) = inum := by
  show (BitVec.ofNat 8 inum).toNat + 256 * (BitVec.ofNat 8 (inum / 256)).toNat = inum
  rw [BitVec.toNat_ofNat, BitVec.toNat_ofNat]
  omega

theorem entry_of_flatten (l : List (Nat × List (BitVec 8))) {k : Nat} {e : Nat × List (BitVec 8)}
    (hk : l[k]? = some e)
    : (((l.map (fun e => dirent e.1 e.2)).flatten).drop (16 * k)).take 16 = dirent e.1 e.2 := by
  induction l generalizing k with
  | nil => simp at hk
  | cons a l ih =>
    have hlen := dirent_length a.1 a.2
    rw [List.map_cons, List.flatten_cons]
    cases k with
    | zero =>
      have ha : a = e := by simpa using hk
      subst ha
      rw [Nat.mul_zero, List.drop_zero]
      exact List.take_left' hlen
    | succ k =>
      have hmul : 16 * (k + 1) = 16 + 16 * k := by omega
      rw [hmul, ← List.drop_drop, List.drop_left' hlen]
      apply ih
      simpa using hk

namespace State

section Read

variable {s : State} {dins : Nat → Fs.Dinode} {map : Key → Nat} {c : Nat → List (BitVec 8)} {i : Nat}

theorem Filled.bmap_eq (h : Filled s dins map c) {bn : Nat} (hbn : bn * BSIZE < (c i).length)
    : s.disk.bmap sb (dins i) bn = .ok (map (i, .data bn), dins i, s.disk) := by
  have hsizes := sizes
  have hne := (h.mapped i bn).mpr hbn
  have hmax : bn < MAXFILE := by
    by_cases hlt : bn < MAXFILE
    . exact hlt
    . exact absurd (h.bound i bn (by omega)) hne
  have hmapped := h.data i bn hmax
  rw [← hmapped] at hne ⊢
  unfold Fs.Disk.mapped at hne ⊢
  unfold Fs.Disk.bmap
  by_cases hdirect : bn < NDIRECT
  . rw [if_pos hdirect] at hne
    rw [if_pos hdirect, if_pos hdirect, if_neg hne]
  . rw [if_neg hdirect] at hne
    have hind : (dins i).addrs NDIRECT ≠ 0 := by
      intro hzero
      rw [if_pos hzero] at hne
      exact hne rfl
    rw [if_neg hind] at hne
    rw [if_neg hdirect, if_neg hdirect, if_pos (by omega), if_neg hind, if_neg hind, Fold.ok_bind]
    dsimp only
    rw [if_neg hne]
    rfl

theorem Filled.readiLoop_eq (h : Filled s dins map c) {fuel off n : Nat} (hfuel : n ≤ fuel)
    (hn : off + n ≤ (c i).length)
    : Fs.Disk.readiLoop sb fuel s.disk (dins i) off n =
        .ok (((c i).drop off).take n, dins i, s.disk) := by
  have hsizes := sizes
  induction fuel generalizing off n with
  | zero =>
    have hzero : n = 0 := by omega
    subst hzero
    rfl
  | succ fuel ih =>
    unfold Fs.Disk.readiLoop
    by_cases hpos : 0 < n
    case neg =>
      have hzero : n = 0 := by omega
      subst hzero
      rfl
    rw [if_pos hpos]
    have hmod : off % BSIZE < BSIZE := Nat.mod_lt _ (by omega)
    have hdiv := Nat.div_add_mod' off BSIZE
    rw [h.bmap_eq (i := i) (by omega), Fold.ok_bind]
    dsimp only
    generalize hm : min n (BSIZE - off % BSIZE) = m
    have hrest : n - m ≤ fuel := by omega
    have hin : off + m + (n - m) ≤ (c i).length := by omega
    rw [ih hrest hin, Fold.ok_bind]
    dsimp only
    have hpart : (List.range m).map (fun k =>
        (s.disk (map (i, .data (off / BSIZE)))).byte (off % BSIZE + k)) =
          ((c i).drop off).take m := by
      apply List.ext_getElem
      . rw [List.length_map, List.length_range, List.length_take, List.length_drop]
        omega
      . intro k hk _
        rw [List.length_map, List.length_range] at hk
        have hbyte := h.bytes i (off + k) (by omega)
        have hd : (off + k) / BSIZE = off / BSIZE := by
          simp only [hsizes.1] at hm hmod ⊢
          omega
        have hr : (off + k) % BSIZE = off % BSIZE + k := by
          simp only [hsizes.1] at hm hmod ⊢
          omega
        rw [hd, hr, List.getD_eq_getElem _ _ (by omega)] at hbyte
        rw [List.getElem_map, List.getElem_range, hbyte, List.getElem_take, List.getElem_drop]
    have hsplit : m + (n - m) = n := by omega
    rw [hpart, ← List.drop_drop, ← List.take_add, hsplit]
    rfl

theorem Filled.readi_eq (h : Filled s dins map c) {off n : Nat} (hn : off + n ≤ (c i).length)
    (hsize : (c i).length ≤ (dins i).size) (hlt : off + n < 2 ^ 32)
    : s.disk.readi sb (dins i) off n =
        .ok (some (((c i).drop off).take n), dins i, s.disk) := by
  unfold Fs.Disk.readi
  rw [if_neg (by omega), if_neg (by omega)]
  dsimp only
  rw [h.readiLoop_eq (Nat.le_refl n) hn, Fold.ok_bind]
  rfl

end Read

section Lookup

variable {s : State} {dins : Nat → Fs.Dinode} {map : Key → Nat} {files : List File}

theorem rootEntries_length (files : List File) : (rootEntries files).length = files.length + 2 := by
  unfold rootEntries
  simp only [List.length_append, List.length_cons, List.length_nil, List.length_mapIdx]
  omega

theorem rootEntries_file {i : Nat} {f : File} (hf : files[i]? = some f)
    : (rootEntries files)[i + 2]? = some (i + 2, f.name) := by
  unfold rootEntries
  simp [hf]

theorem rootEntries_cases {k : Nat} {e : Nat × List (BitVec 8)} (he : (rootEntries files)[k]? = some e)
    : (k = 0 ∧ e = (Fs.ROOTINO, dot)) ∨ (k = 1 ∧ e = (Fs.ROOTINO, dotdot)) ∨
      ∃ i f, k = i + 2 ∧ files[i]? = some f ∧ e = (i + 2, f.name) := by
  unfold rootEntries at he
  match k with
  | 0 => exact .inl ⟨rfl, by simpa using he.symm⟩
  | 1 => exact .inr (.inl ⟨rfl, by simpa using he.symm⟩)
  | i + 2 =>
    cases hf : files[i]? with
    | none => simp [hf] at he
    | some f => exact .inr (.inr ⟨i, f, rfl, hf, by simpa [hf] using he.symm⟩)

theorem rootEntries_wf {k : Nat} {e : Nat × List (BitVec 8)} (hroom : files.length + 2 ≤ NROOM)
    (he : (rootEntries files)[k]? = some e)
    : 0 < e.1 ∧ e.1 < 2 ^ 16 ∧ ∀ b ∈ e.2, b ≠ 0 := by
  have hroomVal : NROOM = 208 := rfl
  rcases rootEntries_cases he with ⟨_, rfl⟩ | ⟨_, rfl⟩ | ⟨i, f, _, hf, rfl⟩
  . decide
  . decide
  . rcases List.getElem?_eq_some_iff.mp hf with ⟨hlt, _⟩
    refine ⟨?_, ?_, f.name_ne_zero⟩
    . dsimp only
      omega
    . dsimp only
      omega

theorem Finished.root_size_ge (h : Finished s dins map files)
    : (content files Fs.ROOTINO).length ≤ (dins Fs.ROOTINO).size := by
  have hsizes := sizes
  rw [h.root_size, content_root]
  simp only [hsizes.1]
  omega

/--
The loop of `dirlookup` goes over entries of other names and returns the first one of this name.
-/
theorem Finished.dirlookupLoop_eq (h : Finished s dins map files) (hroom : files.length + 2 ≤ NROOM)
    {name : List (BitVec 8)} (hname : ∀ b ∈ name, b ≠ 0) {e : Nat × List (BitVec 8)} {m : Nat}
    (he : (rootEntries files)[m]? = some e) (heq : name.take Fs.DIRSIZ = e.2.take Fs.DIRSIZ)
    (hfirst : ∀ k e', k < m → (rootEntries files)[k]? = some e' →
      name.take Fs.DIRSIZ ≠ e'.2.take Fs.DIRSIZ)
    {k fuel : Nat} (hk : k ≤ m) (hfuel : m < k + fuel)
    : Fs.dirlookupLoop sb name fuel s.disk (dins Fs.ROOTINO) (16 * k) =
        .ok (some (e.1, 16 * m)) := by
  have hroomVal : NROOM = 208 := rfl
  have hrootLen : (content files Fs.ROOTINO).length = 16 * (files.length + 2) := by
    rw [content_root, rootBytes_length]
  have hsize := h.root_size_ge
  rcases List.getElem?_eq_some_iff.mp he with ⟨hm, _⟩
  rw [rootEntries_length] at hm
  induction fuel generalizing k with
  | zero => omega
  | succ fuel ih =>
    have hklt : k < (rootEntries files).length := by
      rw [rootEntries_length]
      omega
    rcases hget : (rootEntries files)[k]? with _ | e'
    . rw [List.getElem?_eq_none_iff] at hget
      omega
    have hin : 16 * k + 16 ≤ (content files Fs.ROOTINO).length := by omega
    have hread := h.toFilled.readi_eq hin hsize (by omega)
    have hentry : ((content files Fs.ROOTINO).drop (16 * k)).take 16 = dirent e'.1 e'.2 := by
      rw [content_root]
      exact entry_of_flatten _ hget
    rw [hentry] at hread
    have hwf := rootEntries_wf hroom hget
    unfold Fs.dirlookupLoop
    rw [if_pos (by omega), hread, Fold.ok_bind]
    dsimp only
    rw [if_neg (by rw [dirent_length]; omega), direntInum_dirent hwf.2.1, if_neg (by omega),
      dirent_drop, namecmpEq_direntName hname hwf.2.2]
    by_cases hkm : k = m
    . subst hkm
      have hsame : e' = e := by
        rw [hget] at he
        exact Option.some.inj he
      subst hsame
      rw [if_pos (decide_eq_true heq)]
    . have hne := hfirst k e' (by omega) hget
      rw [if_neg (by simpa using hne)]
      exact ih (k := k + 1) (by omega) (by omega)

theorem Finished.dirlookup_eq (h : Finished s dins map files) (hroom : files.length + 2 ≤ NROOM)
    {name : List (BitVec 8)} (hname : ∀ b ∈ name, b ≠ 0) {e : Nat × List (BitVec 8)} {m : Nat}
    (he : (rootEntries files)[m]? = some e) (heq : name.take Fs.DIRSIZ = e.2.take Fs.DIRSIZ)
    (hfirst : ∀ k e', k < m → (rootEntries files)[k]? = some e' →
      name.take Fs.DIRSIZ ≠ e'.2.take Fs.DIRSIZ)
    : Fs.dirlookup s.disk sb (dins Fs.ROOTINO) name = .ok (some (e.1, 16 * m)) := by
  have htype : (dins Fs.ROOTINO).type = Fs.T_DIR := (h.type Fs.ROOTINO (by decide) (by
    have : Fs.ROOTINO = 1 := rfl
    omega)).1
  have hsize := h.root_size_ge
  rw [content_root, rootBytes_length] at hsize
  rcases List.getElem?_eq_some_iff.mp he with ⟨hm, _⟩
  rw [rootEntries_length] at hm
  unfold Fs.dirlookup
  rw [htype, if_neg (by decide)]
  exact h.dirlookupLoop_eq hroom hname he heq hfirst (Nat.zero_le m) (by omega)

theorem Finished.ilock_eq (h : Finished s dins map files) (hroom : files.length + 2 ≤ NROOM) {i : Nat}
    (hpos : 0 < i) (hi : i < files.length + 2)
    : Fs.ilock s.disk sb i = .ok (dins i) := by
  have htype := (h.type i hpos hi).1
  unfold Fs.ilock
  rw [h.inodes i (by omega)]
  dsimp only
  rw [htype, if_neg]
  unfold inodeType
  split <;> decide

end Lookup

/--
`readsb`, `ilock`, `readi` and `dirlookup` on the image give back the input files. A name is found if
its first `DIRSIZ` bytes are not those of another entry.
-/
theorem main_readback (files : List File) (h : Fits files)
    : ∃ t dp, main files = .ok t ∧
        Fs.ilock t.disk (readsb t.disk) Fs.ROOTINO = .ok dp ∧
        (∃ off, Fs.dirlookup t.disk (readsb t.disk) dp dot = .ok (some (Fs.ROOTINO, off))) ∧
        (∃ off, Fs.dirlookup t.disk (readsb t.disk) dp dotdot = .ok (some (Fs.ROOTINO, off))) ∧
        ∀ i f, files[i]? = some f →
          (∃ ip, Fs.ilock t.disk (readsb t.disk) (i + 2) = .ok ip ∧ ip.type = Fs.T_FILE ∧
            ip.nlink = 1 ∧ ip.size = f.bytes.length ∧
            ∀ off n, off + n ≤ f.bytes.length →
              t.disk.readi (readsb t.disk) ip off n =
                .ok (some ((f.bytes.drop off).take n), ip, t.disk)) ∧
          ((∀ j g, files[j]? = some g → g.name.take Fs.DIRSIZ = f.name.take Fs.DIRSIZ → j = i) →
            f.name.take Fs.DIRSIZ ≠ dot → f.name.take Fs.DIRSIZ ≠ dotdot →
              ∃ off, Fs.dirlookup t.disk (readsb t.disk) dp (f.name.take Fs.DIRSIZ) =
                .ok (some (i + 2, off))) := by
  have hsizes := sizes
  have hroot : Fs.ROOTINO = 1 := rfl
  have hroom := fits_room h
  rcases main_ok h with ⟨t, ht, dins, map, hfin⟩
  refine ⟨t, dins Fs.ROOTINO, ht, ?_⟩
  rw [hfin.readsb_eq]
  refine ⟨hfin.ilock_eq hroom (by omega) (by omega), ⟨16 * 0, ?_⟩, ⟨16 * 1, ?_⟩, ?_⟩
  . exact hfin.dirlookup_eq (e := (Fs.ROOTINO, dot)) (m := 0) hroom (by decide) rfl rfl
      (fun k e' hk => by omega)
  . apply hfin.dirlookup_eq (e := (Fs.ROOTINO, dotdot)) (m := 1) hroom (by decide) rfl rfl
    intro k e' hk hget
    have hzero : k = 0 := by omega
    subst hzero
    have he' : e' = (Fs.ROOTINO, dot) := by
      rcases rootEntries_cases hget with ⟨_, rfl⟩ | ⟨hone, _⟩ | ⟨i, f, htwo, _⟩
      . rfl
      . omega
      . omega
    subst he'
    decide
  . intro i f hf
    rcases List.getElem?_eq_some_iff.mp hf with ⟨hi, _⟩
    have hcontent : content files (i + 2) = f.bytes := by
      rw [content_file, hf]
      rfl
    have hne : i + 2 ≠ Fs.ROOTINO := by omega
    have hsize := hfin.file_size (i + 2) hne
    have htype := hfin.type (i + 2) (by omega) (by omega)
    have hmax := h.size f (List.mem_of_getElem? hf)
    constructor
    . refine ⟨dins (i + 2), hfin.ilock_eq hroom (by omega) (by omega), ?_, htype.2, ?_, ?_⟩
      . rw [htype.1]
        exact if_neg hne
      . rw [hsize, hcontent]
      . intro off n hn
        rw [← hcontent] at hn ⊢
        apply hfin.toFilled.readi_eq hn (Nat.le_of_eq hsize.symm)
        rw [hcontent] at hn
        simp only [hsizes.1, hsizes.2.2.2.1] at hmax
        omega
    . intro hdistinct hdot hdotdot
      refine ⟨_, hfin.dirlookup_eq hroom ?_ (rootEntries_file hf) ?_ ?_⟩
      . intro b hb
        exact f.name_ne_zero b (List.mem_of_mem_take hb)
      . rw [List.take_take, Nat.min_self]
      . intro k e' hk hget
        rw [List.take_take, Nat.min_self]
        rcases rootEntries_cases hget with ⟨_, rfl⟩ | ⟨_, rfl⟩ | ⟨j, g, hj, hg, rfl⟩
        . exact hdot
        . exact hdotdot
        . intro heq
          have := hdistinct j g hg heq.symm
          omega

theorem main_readback_twoFiles
    : Fits [smallFile, largeFile] ∧
      ∃ t dp ip ip' off off', main [smallFile, largeFile] = .ok t ∧
        Fs.ilock t.disk (readsb t.disk) Fs.ROOTINO = .ok dp ∧
        Fs.dirlookup t.disk (readsb t.disk) dp [97] = .ok (some (2, off)) ∧
        Fs.dirlookup t.disk (readsb t.disk) dp [98] = .ok (some (3, off')) ∧
        Fs.ilock t.disk (readsb t.disk) 2 = .ok ip ∧
        t.disk.readi (readsb t.disk) ip 0 4 = .ok (some [1, 2, 3, 4], ip, t.disk) ∧
        Fs.ilock t.disk (readsb t.disk) 3 = .ok ip' ∧
        t.disk.readi (readsb t.disk) ip' 0 6656 = .ok (some (List.replicate 6656 7), ip', t.disk) := by
  rcases main_readback _ twoFiles_fits with ⟨t, dp, ht, hdp, _, _, hfiles⟩
  rcases hfiles 0 smallFile rfl with ⟨⟨ip, hip, _, _, _, hread⟩, hlookup⟩
  rcases hfiles 1 largeFile rfl with ⟨⟨ip', hip', _, _, _, hread'⟩, hlookup'⟩
  have hsmall : ∀ j g, [smallFile, largeFile][j]? = some g →
      g.name.take Fs.DIRSIZ = smallFile.name.take Fs.DIRSIZ → j = 0 := by
    intro j g hg hname
    match j with
    | 0 => rfl
    | 1 =>
      rw [← Option.some.inj hg] at hname
      exact absurd hname (by decide)
  have hlarge : ∀ j g, [smallFile, largeFile][j]? = some g →
      g.name.take Fs.DIRSIZ = largeFile.name.take Fs.DIRSIZ → j = 1 := by
    intro j g hg hname
    match j with
    | 0 =>
      rw [← Option.some.inj hg] at hname
      exact absurd hname (by decide)
    | 1 => rfl
  rcases hlookup hsmall (by decide) (by decide) with ⟨off, hoff⟩
  rcases hlookup' hlarge (by decide) (by decide) with ⟨off', hoff'⟩
  rw [largeFile_bytes] at hread'
  have hall := hread' 0 6656 (by rw [List.length_replicate])
  rw [List.drop_zero, List.take_of_length_le (by rw [List.length_replicate])] at hall
  exact ⟨twoFiles_fits, t, dp, ip, ip', off, off', ht, hdp, hoff, hoff', hip, hread 0 4 (by decide), hip',
    hall⟩

end State
end Mkfs
end Xv6
