import Mathlib.Data.List.Basic
import Xv6.Sysfile.Impl.Calls

/-!
`Calm`: since a state some references have been taken and some inodes read, and nothing else has
happened. `iget` and `ilock` keep it, and `bmap` too where a file has no hole.
-/

open Prog

namespace Xv6
namespace Sysfile

def mapped (s : Sys) (data : Icache.Dinode) (bn : Nat) : BitVec 32 :=
  if h : bn < NDIRECT then
    data.addrs ⟨bn, Nat.lt_succ_of_lt h⟩
  else if data.addrs (Fin.last NDIRECT) = 0 then
    0
  else
    (s.block (data.addrs (Fin.last NDIRECT)).toNat).getWord (4 * (bn - NDIRECT))

def NoHoles (s : Sys) (data : Icache.Dinode) : Prop :=
  ∀ bn, bn * BSIZE < data.size.toNat → mapped s data bn ≠ 0

structure Ref where
  ip : InodeId
  inum : BitVec 32
  loaded : Bool

def count (l : List Ref) (ip : InodeId) : Nat := (l.map Ref.ip).count ip

theorem count_cons (r : Ref) (l : List Ref) (ip : InodeId)
    : count (r :: l) ip = count l ip + if r.ip = ip then 1 else 0 := by
  simp [count, List.count_cons]

def Quiet (s₀ s : Sys) : Prop := ∃ n, s.calls = s₀.calls ++ List.replicate n .iput

/--
What the call has done since `s₀` is to take the references `l`. The inode cache has one entry for an
inode that is in use, and it has what the disk has.
-/
structure Calm (s₀ : Sys) (l : List Ref) (s : Sys) : Prop where
  dinode : s.dinode = s₀.dinode
  block : s.block = s₀.block
  used : s.used = s₀.used
  file : s.file = s₀.file
  ofile : s.ofile = s₀.ofile
  cwd : s.cwd = s₀.cwd
  quiet : Quiet s₀ s
  ref : ∀ ip, (s.inode ip).ref = (s₀.inode ip).ref + count l ip
  kept : ∀ ip, 0 < (s₀.inode ip).ref → (s.inode ip).inum = (s₀.inode ip).inum
  refs : ∀ r ∈ l, (s.inode r.ip).inum = r.inum ∧ (r.loaded = true → (s.inode r.ip).valid = true)
  dev : ∀ ip, 0 < (s.inode ip).ref → (s.inode ip).dev = ROOTDEV
  unique : ∀ ip jp, 0 < (s.inode ip).ref → 0 < (s.inode jp).ref →
    (s.inode ip).inum = (s.inode jp).inum → ip = jp
  cached : ∀ ip, 0 < (s.inode ip).ref → (s.inode ip).valid = true →
    (s.inode ip).data = s.dinode (s.inode ip).inum ∧ (s.inode ip).data.type ≠ 0

theorem Quiet.record {s₀ s : Sys} (h : Quiet s₀ s) : Quiet s₀ (s.record .iput) := by
  rcases h with ⟨n, hn⟩
  refine ⟨n + 1, ?_⟩
  show s.calls ++ [.iput] = _
  rw [hn, List.append_assoc, List.replicate_succ']

variable {s₀ s : Sys} {l l' : List Ref} {r : Ref} {ip dp : InodeId} {i d : BitVec 32} {b : Bool}

theorem Sys.setInode_self (s : Sys) (ip : InodeId) (x : Icache.Inode) : (s.setInode ip x).inode ip = x :=
  Function.update_self _ _ _

theorem Sys.setInode_of_ne (s : Sys) {ip jp : InodeId} (x : Icache.Inode) (h : jp ≠ ip)
    : (s.setInode ip x).inode jp = s.inode jp :=
  Function.update_of_ne h _ _

namespace Calm

theorem perm (h : Calm s₀ l s) (hl : l.Perm l') : Calm s₀ l' s :=
  { h with
    ref := by
      intro ip
      rw [h.ref ip]
      unfold count
      rw [(hl.map Ref.ip).count_eq]
    refs := by
      intro r hr
      exact h.refs r (hl.mem_iff.2 hr) }

theorem forget (h : Calm s₀ (⟨ip, i, b⟩ :: l) s) : Calm s₀ (⟨ip, i, false⟩ :: l) s :=
  { h with
    refs := by
      intro r hr
      rcases List.mem_cons.1 hr with hr | hr
      . subst hr
        exact ⟨(h.refs _ List.mem_cons_self).1, nofun⟩
      . exact h.refs r (List.mem_cons_of_mem _ hr) }

theorem ref_pos (h : Calm s₀ l s) (hr : r ∈ l) : 0 < (s.inode r.ip).ref := by
  have hcount : 0 < count l r.ip := List.count_pos_iff.2 (List.mem_map_of_mem hr)
  rw [h.ref]
  omega

theorem head_pos (h : Calm s₀ (⟨ip, i, b⟩ :: l) s) : 0 < (s.inode ip).ref :=
  h.ref_pos (r := ⟨ip, i, b⟩) List.mem_cons_self

theorem head_inum (h : Calm s₀ (⟨ip, i, b⟩ :: l) s) : (s.inode ip).inum = i :=
  (h.refs ⟨ip, i, b⟩ List.mem_cons_self).1

theorem head_data (h : Calm s₀ (⟨ip, i, true⟩ :: l) s)
    : (s.inode ip).data = s₀.dinode i ∧ (s₀.dinode i).type ≠ 0 := by
  have hcached := h.cached ip h.head_pos ((h.refs ⟨ip, i, true⟩ List.mem_cons_self).2 rfl)
  rw [h.head_inum, h.dinode] at hcached
  exact ⟨hcached.1, hcached.1 ▸ hcached.2⟩

theorem setLocked (h : Calm s₀ l s) (ip : InodeId) (x : Bool) : Calm s₀ l (s.setLocked ip x) :=
  { h with }

theorem record (h : Calm s₀ l s) : Calm s₀ l (s.record .iput) :=
  { h with quiet := h.quiet.record }

theorem setInode (h : Calm s₀ l s) {x : Icache.Inode} (href : x.ref = (s₀.inode ip).ref + count l' ip)
    (hcount : ∀ jp, jp ≠ ip → count l' jp = count l jp)
    (hkept : 0 < (s₀.inode ip).ref → x.inum = (s.inode ip).inum)
    (hrefs : ∀ r ∈ l', ((s.setInode ip x).inode r.ip).inum = r.inum ∧
      (r.loaded = true → ((s.setInode ip x).inode r.ip).valid = true))
    (hdev : 0 < x.ref → x.dev = ROOTDEV)
    (hunique : 0 < x.ref → ∀ jp, jp ≠ ip → 0 < (s.inode jp).ref → (s.inode jp).inum ≠ x.inum)
    (hcached : 0 < x.ref → x.valid = true → x.data = s.dinode x.inum ∧ x.data.type ≠ 0)
    : Calm s₀ l' (s.setInode ip x) := by
  have hdinode : (s.setInode ip x).dinode = s.dinode := rfl
  have hself := s.setInode_self ip x
  have hother : ∀ jp, jp ≠ ip → (s.setInode ip x).inode jp = s.inode jp := fun _ => s.setInode_of_ne x
  refine { h with ref := ?_, kept := ?_, refs := hrefs, dev := ?_, unique := ?_, cached := ?_ }
  . intro jp
    by_cases hjp : jp = ip
    . rw [hjp, hself]
      exact href
    . rw [hother jp hjp, h.ref jp, hcount jp hjp]
  . intro jp hpos
    by_cases hjp : jp = ip
    . rw [hjp] at hpos ⊢
      rw [hself, hkept hpos]
      exact h.kept ip hpos
    . rw [hother jp hjp]
      exact h.kept jp hpos
  . intro jp hpos
    by_cases hjp : jp = ip
    . rw [hjp, hself] at hpos ⊢
      exact hdev hpos
    . rw [hother jp hjp] at hpos ⊢
      exact h.dev jp hpos
  . intro jp kp hjpos hkpos hinum
    by_cases hj : jp = ip <;> by_cases hk : kp = ip
    . rw [hj, hk]
    . rw [hother kp hk] at hkpos hinum
      rw [hj, hself] at hjpos hinum
      exact absurd hinum.symm (hunique hjpos kp hk hkpos)
    . rw [hother jp hj] at hjpos hinum
      rw [hk, hself] at hkpos hinum
      exact absurd hinum (hunique hkpos jp hj hjpos)
    . rw [hother jp hj] at hjpos hinum
      rw [hother kp hk] at hkpos hinum
      exact h.unique jp kp hjpos hkpos hinum
  . intro jp hpos hvalid
    rw [hdinode]
    by_cases hjp : jp = ip
    . rw [hjp, hself] at hpos hvalid ⊢
      exact hcached hpos hvalid
    . rw [hother jp hjp] at hpos hvalid ⊢
      exact h.cached jp hpos hvalid

theorem setRef (h : Calm s₀ l s) {n : Nat} (hn : n = (s₀.inode ip).ref + count l' ip)
    (hcount : ∀ jp, jp ≠ ip → count l' jp = count l jp) (hpos : 0 < n → 0 < (s.inode ip).ref)
    (hl' : ∀ r ∈ l', (s.inode r.ip).inum = r.inum ∧ (r.loaded = true → (s.inode r.ip).valid = true))
    : Calm s₀ l' (s.setRef ip n) := by
  refine h.setInode hn hcount (fun _ => rfl) ?_ ?_ ?_ ?_
  . intro r hr
    by_cases hip : r.ip = ip
    . have hrefs := hl' r hr
      rw [hip] at hrefs ⊢
      rw [Sys.setInode_self]
      exact hrefs
    . rw [Sys.setInode_of_ne _ _ hip]
      exact hl' r hr
  . intro hx
    exact h.dev ip (hpos hx)
  . intro hx jp hjp hj heq
    exact hjp (h.unique jp ip hj (hpos hx) heq)
  . intro hx
    exact h.cached ip (hpos hx)

theorem gain (h : Calm s₀ l s) (hpos : 0 < (s.inode ip).ref)
    : Calm s₀ (⟨ip, (s.inode ip).inum, false⟩ :: l) (s.setRef ip ((s.inode ip).ref + 1)) := by
  refine h.setRef ?_ ?_ (fun _ => hpos) ?_
  . rw [h.ref ip, count_cons]
    simp only [↓reduceIte]
    omega
  . intro jp hjp
    have hne : ¬ ip = jp := fun heq => hjp heq.symm
    rw [count_cons]
    simp [hne]
  . intro r hr
    rcases List.mem_cons.1 hr with hr | hr
    . subst hr
      exact ⟨rfl, nofun⟩
    . exact h.refs r hr

theorem drop (h : Calm s₀ (⟨ip, i, b⟩ :: l) s)
    : Calm s₀ l (s.setRef ip ((s.inode ip).ref - 1)) := by
  refine h.setRef ?_ ?_ (fun _ => h.head_pos) ?_
  . rw [h.ref ip, count_cons]
    simp only [↓reduceIte]
    omega
  . intro jp hjp
    have hne : ¬ ip = jp := fun heq => hjp heq.symm
    rw [count_cons]
    simp [hne]
  . intro r hr
    exact h.refs r (List.mem_cons_of_mem _ hr)

theorem recycle (h : Calm s₀ l s) (hfree : (s.inode ip).ref = 0)
    (hmiss : ∀ jp, 0 < (s.inode jp).ref → (s.inode jp).inum ≠ i)
    : Calm s₀ (⟨ip, i, false⟩ :: l)
        (s.setInode ip { s.inode ip with dev := ROOTDEV, inum := i, ref := 1, valid := false }) := by
  have hbase : (s₀.inode ip).ref = 0 ∧ count l ip = 0 := by
    have href := h.ref ip
    omega
  refine h.setInode ?_ ?_ ?_ ?_ (fun _ => rfl) (fun _ jp _ => hmiss jp) (by rintro _ ⟨⟩)
  . rw [hbase.1, count_cons, hbase.2]
    simp
  . intro jp hjp
    have hne : ¬ ip = jp := fun heq => hjp heq.symm
    rw [count_cons]
    simp [hne]
  . intro hpos
    rw [hbase.1] at hpos
    cases hpos
  . intro r hr
    rcases List.mem_cons.1 hr with hr | hr
    . subst hr
      rw [Sys.setInode_self]
      exact ⟨rfl, nofun⟩
    . have hne : r.ip ≠ ip := by
        intro heq
        have hpos := h.ref_pos hr
        rw [heq, hfree] at hpos
        cases hpos
      rw [Sys.setInode_of_ne _ _ hne]
      exact h.refs r hr

theorem load (h : Calm s₀ (⟨ip, i, b⟩ :: l) s) (htype : (s.dinode (s.inode ip).inum).type ≠ 0)
    : Calm s₀ (⟨ip, i, true⟩ :: l)
        (s.setInode ip { s.inode ip with data := s.dinode (s.inode ip).inum, valid := true }) := by
  refine h.setInode ?_ ?_ (fun _ => rfl) ?_ (h.dev ip) ?_ (fun _ _ => ⟨rfl, htype⟩)
  . exact h.ref ip
  . intro jp _
    rw [count_cons, count_cons]
  . intro r hr
    by_cases hip : r.ip = ip
    . rw [hip, Sys.setInode_self]
      refine ⟨?_, fun _ => rfl⟩
      show (s.inode ip).inum = r.inum
      rcases List.mem_cons.1 hr with hr | hr
      . subst hr
        exact h.head_inum
      . rw [← hip]
        exact (h.refs r (List.mem_cons_of_mem _ hr)).1
    . rw [Sys.setInode_of_ne _ _ hip]
      rcases List.mem_cons.1 hr with hr | hr
      . subst hr
        exact absurd rfl hip
      . exact h.refs r (List.mem_cons_of_mem _ hr)
  . intro hpos jp hjp hj heq
    exact hjp (h.unique jp ip hj hpos heq)

-- The call's own reference to an inode without links is not the only one.
theorem not_last (h : Calm s₀ (⟨ip, i, b⟩ :: l) s)
    (hheld : (s₀.dinode i).type ≠ 0 → (s₀.dinode i).nlink = 0 →
      ∃ jp, 0 < (s₀.inode jp).ref ∧ (s₀.inode jp).inum = i)
    : ¬ ((s.inode ip).valid = true ∧ (s.inode ip).data.nlink = 0 ∧ (s.inode ip).ref = 1) := by
  rintro ⟨hvalid, hnlink, hlast⟩
  rcases h.cached ip h.head_pos hvalid with ⟨hdata, htype⟩
  rw [hdata, h.dinode, h.head_inum] at htype hnlink
  rcases hheld htype hnlink with ⟨jp, hjp, hinum⟩
  have href := h.ref ip
  rw [count_cons] at href
  simp only [↓reduceIte] at href
  have hsame : jp = ip := by
    apply h.unique jp ip
    . rw [h.ref jp]
      omega
    . exact h.head_pos
    . rw [h.kept jp hjp, hinum, h.head_inum]
  rw [hsame] at hjp
  omega

end Calm

variable (sb : Superblock) (devs : Devices)

theorem ilock_calm
    : Spec (Calm s₀ (⟨ip, i, b⟩ :: l)) (ilock ip) (fun _ => Calm s₀ (⟨ip, i, true⟩ :: l))
        (Quiet s₀) := by
  unfold ilock
  refine .get_bind ?_
  intro s₁ h₁
  refine .ite ?_ ?_
  . intro _
    refine .throw ?_
    rintro s rfl
    exact h₁.quiet
  . intro _
    unfold acquiresleep
    refine .bind (Q := fun _ s => s = s₁.setLocked ip true) ?_ ?_
    . refine .get_bind ?_
      rintro s rfl
      refine .ite ?_ ?_
      . intro _
        refine .throw ?_
        rintro s rfl
        exact h₁.quiet
      . intro _
        refine .modify ?_
        rintro s rfl
        rfl
    . intro _
      have hlocked := h₁.setLocked ip true
      refine .when ?_ ?_
      . intro hinvalid
        refine .bind (Q := fun _ s => s = (s₁.setLocked ip true).setInode ip
          { s₁.inode ip with data := s₁.dinode (s₁.inode ip).inum, valid := true }) ?_ ?_
        . refine .modify ?_
          rintro s rfl
          rfl
        . intro _
          refine .when ?_ ?_
          . intro _
            refine .throw ?_
            rintro s rfl
            exact h₁.quiet
          . rintro htype s rfl
            exact hlocked.load htype
      . rintro hvalid s rfl
        rw [Bool.not_eq_false] at hvalid
        exact
          { hlocked with
            ref := by
              intro jp
              rw [hlocked.ref jp, count_cons, count_cons]
            refs := by
              intro r hr
              rcases List.mem_cons.1 hr with hr | hr
              . subst hr
                exact ⟨hlocked.head_inum, fun _ => hvalid⟩
              . exact hlocked.refs r (List.mem_cons_of_mem _ hr) }

/--
What iget does: it takes one more reference to the entry of the inode, or if there is none, an entry
that is not in use.
-/
def Got (s₁ : Sys) (dev i : BitVec 32) (ip : InodeId) (s : Sys) : Prop :=
  (0 < (s₁.inode ip).ref ∧ (s₁.inode ip).dev = dev ∧ (s₁.inode ip).inum = i ∧
    s = s₁.setRef ip ((s₁.inode ip).ref + 1)) ∨
  ((s₁.inode ip).ref = 0 ∧
    (∀ jp, 0 < (s₁.inode jp).ref → (s₁.inode jp).dev = dev → (s₁.inode jp).inum ≠ i) ∧
    s = s₁.setInode ip { s₁.inode ip with dev, inum := i, ref := 1, valid := false })

theorem iget_got (s₁ : Sys) (dev i : BitVec 32)
    : Spec (fun s => s = s₁) (iget dev i) (Got s₁ dev i)
        (fun s => s = s₁ ∧ ∀ ip, (s₁.inode ip).ref ≠ 0) := by
  unfold iget
  refine .get_bind ?_
  rintro s rfl
  split
  next ip hfound =>
    have hp := List.find?_some hfound
    simp only [decide_eq_true_eq] at hp
    refine .bind (Q := fun _ t => t = s.setRef ip ((s.inode ip).ref + 1)) (.modify ?_) ?_
    . rintro s rfl
      rfl
    . intro _
      exact .pure fun t ht => .inl ⟨hp.1, hp.2.1, hp.2.2, ht⟩
  next hnone =>
    have hmiss : ∀ jp, 0 < (s.inode jp).ref → (s.inode jp).dev = dev → (s.inode jp).inum ≠ i := by
      intro jp hjp hdev hinum
      rw [List.find?_eq_none] at hnone
      have hp := hnone jp (List.mem_finRange jp)
      simp only [decide_eq_true_eq] at hp
      exact hp ⟨hjp, hdev, hinum⟩
    split
    next hfull =>
      refine .throw ?_
      rintro s rfl
      refine ⟨rfl, ?_⟩
      intro ip hzero
      rw [List.find?_eq_none] at hfull
      exact hfull ip (List.mem_finRange ip) (decide_eq_true hzero)
    next ip hfound =>
      have hfree := List.find?_some hfound
      simp only [decide_eq_true_eq] at hfree
      refine .bind (Q := fun _ t =>
        t = s.setInode ip { s.inode ip with dev, inum := i, ref := 1, valid := false }) (.modify ?_) ?_
      . rintro s rfl
        rfl
      . intro _
        exact .pure fun t ht => .inr ⟨hfree, hmiss, ht⟩

theorem Calm.got {s₁ : Sys} (h₁ : Calm s₀ l s₁) (hgot : Got s₁ ROOTDEV i ip s)
    : Calm s₀ (⟨ip, i, false⟩ :: l) s := by
  rcases hgot with ⟨hpos, _, hinum, rfl⟩ | ⟨hfree, hmiss, rfl⟩
  . have hgain := h₁.gain hpos
    rw [hinum] at hgain
    exact hgain
  . exact h₁.recycle hfree fun jp hjp => hmiss jp hjp (h₁.dev jp hjp)

theorem bmap_mapped {s₁ : Sys} {bn : Nat} (h : mapped s₁ (s₁.inode ip).data bn ≠ 0)
    : Spec (fun s => s = s₁) (bmap sb ip bn)
        (fun addr s => s = s₁ ∧ addr = mapped s₁ (s₁.inode ip).data bn)
        (fun s => s = s₁ ∧ MAXFILE ≤ bn) := by
  have hMAXFILE : MAXFILE = NDIRECT + NINDIRECT := rfl
  have haddrs : ∀ k, (s₁.inode ip).data.addrs k ≠ 0 →
      Spec (fun s => s = s₁) (addrsAlloc sb ip k)
        (fun addr s => s = s₁ ∧ addr = (s₁.inode ip).data.addrs k)
        (fun s => s = s₁ ∧ MAXFILE ≤ bn) := by
    intro k hk
    unfold addrsAlloc
    refine .get_bind ?_
    rintro s rfl
    rw [if_neg hk]
    exact .pure fun s hs => ⟨hs, rfl⟩
  unfold mapped at h ⊢
  unfold bmap
  split
  next hbn =>
    rw [dif_pos hbn] at h
    exact haddrs _ h
  next hbn =>
    rw [dif_neg hbn] at h
    have hlast : (s₁.inode ip).data.addrs (Fin.last NDIRECT) ≠ 0 := by
      intro hzero
      rw [if_pos hzero] at h
      exact h rfl
    rw [if_neg hlast] at h ⊢
    refine .ite ?_ ?_
    . intro _
      refine Spec.bind (haddrs _ hlast) ?_
      intro addr
      refine .get_bind ?_
      rintro s ⟨hs, haddr⟩
      subst hs haddr
      rw [if_neg h]
      exact .pure fun s hs => ⟨hs, rfl⟩
    . intro hrange
      exact .throw fun s hs => ⟨hs, by omega⟩

end Sysfile
end Xv6
