import Xv6.Sysfile.Lemmas.Lookup

/-!
A directory as its entries, and what dirlookup finds among them.
-/

open Prog

namespace Xv6
namespace Sysfile

def entryAt (s : Sys) (data : Icache.Dinode) (k : Nat) : List Byte :=
  (List.range 16).map fun j => (s.block (mapped s data (k / 32)).toNat).byte (16 * (k % 32) + j)

def hasName (name : Name) (de : List Byte) : Bool :=
  Fs.direntInum de ≠ 0 ∧ Fs.namecmpEq name (de.drop 2)

def lookup (s : Sys) (data : Icache.Dinode) (name : Name) : Option Nat :=
  (List.range (data.size.toNat / 16)).find? fun k => hasName name (entryAt s data k)

structure Directory (s : Sys) (data : Icache.Dinode) : Prop where
  type : data.type = T_DIR
  size : data.size.toNat % 16 = 0
  max : data.size.toNat ≤ MAXFILE * BSIZE
  noHoles : NoHoles s data

section Congr

variable {s t : Sys} (hblock : t.block = s.block) (data : Icache.Dinode)

include hblock

theorem mapped_congr (bn : Nat) : mapped t data bn = mapped s data bn := by
  unfold mapped
  rw [hblock]

theorem entryAt_congr (k : Nat) : entryAt t data k = entryAt s data k := by
  unfold entryAt
  rw [mapped_congr hblock, hblock]

theorem lookup_congr (name : Name) : lookup t data name = lookup s data name := by
  unfold lookup
  simp only [entryAt_congr hblock]

theorem Directory.congr {data : Icache.Dinode} (h : Directory s data) : Directory t data where
  type := h.type
  size := h.size
  max := h.max
  noHoles := by
    intro bn hbn
    rw [mapped_congr hblock]
    exact h.noHoles bn hbn

end Congr

theorem entryAt_length (s : Sys) (data : Icache.Dinode) (k : Nat) : (entryAt s data k).length = 16 := by
  simp [entryAt]

theorem lookup_some {s : Sys} {data : Icache.Dinode} {name : Name} {k : Nat}
    (h : lookup s data name = some k)
    : k < data.size.toNat / 16 ∧ hasName name (entryAt s data k) = true := by
  unfold lookup at h
  have hname := List.find?_some h
  exact ⟨List.mem_range.1 (List.mem_of_find?_eq_some h), hname⟩

theorem Directory.max_lt {s : Sys} {data : Icache.Dinode} (h : Directory s data)
    : data.size.toNat ≤ 71680 :=
  h.max

theorem Directory.entries_eq {s : Sys} {dp : InodeId} (h : Directory s (s.inode dp).data)
    : entries s dp = (s.inode dp).data.size.toNat / 16 := by
  have := h.size
  unfold entries
  omega

variable (sb : Superblock) (devs : Devices) {s₁ : Sys} {dp : InodeId}

theorem readiLoop_entry (h : Directory s₁ (s₁.inode dp).data) {k : Nat}
    (hk : k < (s₁.inode dp).data.size.toNat / 16)
    : Spec (fun s => s = s₁) (readiLoop sb dp 16 (16 * k) 16)
        (fun de s => s = s₁ ∧ de = entryAt s₁ (s₁.inode dp).data k) (fun _ => False) := by
  have hBSIZE : BSIZE = 512 := rfl
  have hMAXFILE : MAXFILE = 140 := rfl
  have hmax := h.max_lt
  have hblock : 16 * k / BSIZE = k / 32 := by
    rw [hBSIZE]
    omega
  have hoff : 16 * k % BSIZE = 16 * (k % 32) := by
    rw [hBSIZE]
    omega
  have hmapped : mapped s₁ (s₁.inode dp).data (k / 32) ≠ 0 := by
    apply h.noHoles
    rw [hBSIZE]
    omega
  have hpart : min 16 (BSIZE - 16 * (k % 32)) = 16 := by omega
  unfold readiLoop
  rw [hblock, hoff, if_pos (by decide)]
  refine .bind ((bmap_mapped sb hmapped).no_error ?_) ?_
  . rintro s ⟨_, hrange⟩
    omega
  . intro addr
    refine .get_bind ?_
    rintro s ⟨hs, haddr⟩
    subst hs haddr
    rw [hpart]
    exact .pure fun t ht => ⟨ht, List.append_nil _⟩

theorem readDirent_entry (h : Directory s₁ (s₁.inode dp).data) {k : Nat}
    (hk : k < (s₁.inode dp).data.size.toNat / 16) (msg : String)
    : Spec (fun s => s = s₁) (readDirent sb devs dp (16 * k) msg)
        (fun de s => s = s₁ ∧ de = entryAt s₁ (s₁.inode dp).data k) (fun _ => False) := by
  have hmax := h.max_lt
  unfold readDirent
  refine .bind (Q := fun r s => s = s₁ ∧ r = some (entryAt s₁ (s₁.inode dp).data k)) ?_ ?_
  . unfold readi
    refine .get_bind ?_
    rintro s rfl
    have hdev : ¬ (s.inode dp).data.type = T_DEV := by
      rw [h.type]
      decide
    have hin : ¬ (16 * k > (s.inode dp).data.size.toNat ∨ 16 * k + 16 ≥ 2 ^ 32) := by omega
    have hn : ¬ 16 * k + 16 > (s.inode dp).data.size.toNat := by omega
    rw [if_neg hdev, if_neg hin]
    simp only [if_neg hn]
    refine .bind (readiLoop_entry sb h hk) ?_
    intro de
    exact .pure fun t ht => ⟨ht.1, congrArg some ht.2⟩
  . intro r
    split
    . refine .throw ?_
      rintro s ⟨_, hr⟩
      cases hr
    next de =>
      refine .ite ?_ ?_
      . intro hlen
        refine .throw ?_
        rintro s ⟨_, hr⟩
        rw [Option.some.inj hr] at hlen
        exact hlen (entryAt_length _ _ _)
      . intro _
        exact .pure fun s hs => ⟨hs.1, Option.some.inj hs.2⟩

def Looks (s₁ : Sys) (dp : InodeId) (found : Option Nat) (r : Option (InodeId × Nat)) (s : Sys)
    : Prop :=
  match found with
  | none => r = none ∧ s = s₁
  | some k => ∃ ip, r = some (ip, 16 * k) ∧
      Got s₁ (s₁.inode dp).dev
        (BitVec.ofNat 32 (Fs.direntInum (entryAt s₁ (s₁.inode dp).data k))) ip s

def LookFails (s₁ : Sys) (found : Option Nat) (s : Sys) : Prop :=
  s = s₁ ∧ found ≠ none ∧ ∀ ip, (s₁.inode ip).ref ≠ 0

theorem dirlookupLoop_looks (h : Directory s₁ (s₁.inode dp).data) (name : Name) (n k : Nat)
    (hn : k + n = (s₁.inode dp).data.size.toNat / 16) {found : Option Nat}
    (hfound : found = (List.range' k n).find? fun k =>
      hasName name (entryAt s₁ (s₁.inode dp).data k))
    : Spec (fun s => s = s₁) (dirlookupLoop sb devs dp name n (16 * k)) (Looks s₁ dp found)
        (LookFails s₁ found) := by
  induction n generalizing k with
  | zero =>
    subst hfound
    exact .pure fun s hs => ⟨rfl, hs⟩
  | succ n ih =>
    unfold dirlookupLoop
    rw [List.range'_succ, List.find?_cons] at hfound
    refine .bind ((readDirent_entry sb devs h (k := k) (by omega) _).conseq (fun _ => id)
      (fun _ _ => id) (fun _ => False.elim)) ?_
    intro de
    refine .of_pre (fun s hs => hs.2) ?_
    rintro rfl
    refine .ite ?_ ?_
    . intro hname
      have hhas : hasName name (entryAt s₁ (s₁.inode dp).data k) = true := decide_eq_true hname
      rw [hhas] at hfound
      subst hfound
      refine .get_bind ?_
      rintro s ⟨rfl, _⟩
      refine .bind ((iget_got s _ _).conseq (fun _ => id) (fun _ _ => id) ?_) ?_
      . rintro t ⟨ht, hfull⟩
        refine ⟨ht, ?_, hfull⟩
        rintro ⟨⟩
      . intro ip
        exact .pure fun t ht => ⟨ip, rfl, ht⟩
    . intro hname
      have hhas : hasName name (entryAt s₁ (s₁.inode dp).data k) = false := decide_eq_false hname
      rw [hhas] at hfound
      exact Spec.pre (ih (k + 1) (by omega) hfound) fun s hs => hs.1

theorem dirlookup_looks (h : Directory s₁ (s₁.inode dp).data) (name : Name)
    : Spec (fun s => s = s₁) (dirlookup sb devs dp name)
        (Looks s₁ dp (lookup s₁ (s₁.inode dp).data name))
        (LookFails s₁ (lookup s₁ (s₁.inode dp).data name)) := by
  unfold dirlookup
  refine .get_bind ?_
  rintro s rfl
  rw [if_neg (not_not_intro h.type), h.entries_eq]
  refine dirlookupLoop_looks sb devs h name _ 0 (Nat.zero_add _) ?_
  unfold lookup
  rw [List.range_eq_range']

end Sysfile
end Xv6
