import Mathlib.Data.Fintype.Option
import Xv6.Bio.Impl.Bio
import Xv6.Data.Count

/-!
The buffers are in one circular list, a block has one buffer, and bread returns what was stored last.
-/

open Circular
open Count

namespace Xv6

theorem binit_ring (s : Links BufPtr)
    : (binit s).Ring none ((List.finRange NBUF).reverse.map some) := by
  -- the buffers pushed so far, the last one first
  have hfold : ∀ (bs : List (Fin NBUF)) (s : Links BufPtr) (l : List BufPtr), s.Ring none l →
      bs.Nodup → (∀ b ∈ bs, some b ∉ l) →
      (bs.foldl (fun s b => s.pushFront none (some b)) s).Ring none (bs.reverse.map some ++ l) := by
    intro bs
    induction bs with
    | nil =>
      intro s l hring _ _
      exact hring
    | cons b bs ih =>
      intro s l hring hnodup hnew
      rw [List.nodup_cons] at hnodup
      rw [List.foldl_cons, List.reverse_cons, List.map_append, List.append_assoc]
      apply ih
      . exact hring.pushFront (hnew b List.mem_cons_self) (by nofun)
      . exact hnodup.2
      . intro c hc hmem
        rcases List.mem_cons.1 hmem with heq | hmem
        . cases heq
          exact hnodup.1 hc
        . exact hnew c (List.mem_cons_of_mem b hc) hmem
  have hempty : ((s.setPrev none none).setNext none none).Ring none [] := by
    refine ⟨⟨?_, ?_⟩, List.nodup_nil, List.not_mem_nil⟩
    . simp [Links.setNext]
    . simp [Links.setNext, Links.setPrev]
  have hring := hfold (List.finRange NBUF) _ [] hempty (List.nodup_finRange NBUF) (by simp)
  rw [List.append_nil] at hring
  exact hring

namespace BioPc

def target : BioPc → Option (BitVec 32 × BufPtr)
  | .idle => none
  | .wants n b => some (n, b)
  | .locked n b => some (n, b)
  | .io n b => some (n, b)
  | .holding n b _ => some (n, b)
  | .released n b => some (n, b)

def buf (pc : BioPc) : Option BufPtr := pc.target.map Prod.snd

def owns : BioPc → Option BufPtr
  | .locked _ b => some b
  | .io _ b => some b
  | .holding _ b _ => some b
  | _ => none

end BioPc

namespace BioSys

variable {ι : Type} {s t : BioSys ι} {d : BitVec 32 → Block} {u v : ι}
  {b : BufPtr} {n : BitVec 32}

def bufs (s : BioSys ι) : ι → Option BufPtr := fun u => (s.pc u).buf

structure Inv [Fintype ι] (d : BitVec 32 → Block) (s : BioSys ι) : Prop where
  ring : ∃ l, s.links.Ring none l ∧ ∀ b, b ≠ none → b ∈ l
  head : (s.buf none).dev = 0
  refcnt : ∀ b, (s.buf b).refcnt = occ s.bufs b
  lock : ∀ b u, s.lock b = some u ↔ (s.pc u).owns = some b
  target : ∀ u n b, (s.pc u).target = some (n, b) → (s.buf b).dev = ROOTDEV ∧ (s.buf b).blockno = n
  unique : ∀ b c, (s.buf b).dev = ROOTDEV → (s.buf c).dev = ROOTDEV →
    (s.buf b).blockno = (s.buf c).blockno → b = c
  value : ∀ b, (s.buf b).dev = ROOTDEV → (s.buf b).valid = true →
    (s.buf b).data = latest d s.stored (s.buf b).blockno
  dirty : ∀ b, (s.buf b).dirty = true → (s.buf b).valid = true
  holding : ∀ u n b c, s.pc u = .holding n b c → (s.buf b).valid = true
  io : ∀ u n b, s.pc u = .io n b → (s.buf b).valid = true → (s.buf b).dirty = true
  -- what the disk has not got is in a buffer that will not be recycled
  disk : ∀ n, s.disk n ≠ latest d s.stored n → ∃ b, (s.buf b).dev = ROOTDEV ∧ (s.buf b).blockno = n ∧
    (s.buf b).valid = true ∧ ((s.buf b).dirty = true ∨ ∃ u, s.pc u = .holding n b true)

theorem bufs_setPc [DecidableEq ι] (s : BioSys ι) (u : ι) (x : BioPc)
    : (s.setPc u x).bufs = Function.update s.bufs u x.buf := by
  funext v
  by_cases hv : v = u
  . subst hv
    simp [bufs, setPc]
  . simp [bufs, setPc, hv]

theorem Start.inv [Fintype ι] (h : s.Start) : s.Inv s.disk where
  ring := by
    rcases h.links with ⟨s₀, hs₀⟩
    refine ⟨_, hs₀ ▸ binit_ring s₀, ?_⟩
    intro b hb
    cases b with
    | none => contradiction
    | some b => simp
  head := (h.buf none).2.2.1
  refcnt := by
    intro b
    rw [(h.buf b).2.2.2.2, occ_eq_zero]
    intro u
    unfold bufs
    rw [h.pc u]
    nofun
  lock := by
    intro b u
    rw [h.lock b, h.pc u]
    constructor
    . nofun
    . nofun
  target := by
    intro u n b hu
    rw [h.pc u] at hu
    contradiction
  unique := by
    intro b c hb
    rw [(h.buf b).2.2.1] at hb
    contradiction
  value := by
    intro b hb
    rw [(h.buf b).2.2.1] at hb
    contradiction
  dirty := by
    intro b hb
    rw [(h.buf b).2.1] at hb
    contradiction
  holding := by
    intro u n b c hu
    rw [h.pc u] at hu
    contradiction
  io := by
    intro u n b hu
    rw [h.pc u] at hu
    contradiction
  disk := by
    intro n hn
    rw [h.stored] at hn
    exact absurd rfl hn

theorem sameBlock_update {x : Buf} (c : BufPtr)
    (hx : x.dev = (s.buf b).dev ∧ x.blockno = (s.buf b).blockno)
    : ((Function.update s.buf b x) c).dev = (s.buf c).dev ∧
        ((Function.update s.buf b x) c).blockno = (s.buf c).blockno := by
  by_cases hc : c = b
  . subst hc
    rw [Function.update_self]
    exact hx
  . rw [Function.update_of_ne hc]
    exact ⟨rfl, rfl⟩

variable [Fintype ι]

namespace Inv

theorem ne_head (h : s.Inv d) (hdev : (s.buf b).dev = ROOTDEV) : b ≠ none := by
  intro heq
  subst heq
  rw [h.head] at hdev
  contradiction

theorem owner_unique (h : s.Inv d) (hu : (s.pc u).owns = some b) (hv : (s.pc v).owns = some b)
    : v = u := by
  have hlu := (h.lock b u).2 hu
  have hlv := (h.lock b v).2 hv
  exact Option.some.inj (hlv.symm.trans hlu)

theorem refcnt_eq (h : s.Inv d) (c : BufPtr) : s.buf c = { s.buf c with refcnt := occ s.bufs c } := by
  rw [← h.refcnt c]

theorem own_disk (h : s.Inv d) (howns : (s.pc u).owns = some b)
    (htarget : (s.pc u).target = some (n, b)) (hne : s.disk n ≠ latest d s.stored n)
    : (s.buf b).valid = true ∧ ((s.buf b).dirty = true ∨ s.pc u = .holding n b true) := by
  have hb := h.target u n b htarget
  rcases h.disk n hne with ⟨c, hdev, hblockno, hvalid, hkept⟩
  have hcb := h.unique c b hdev hb.1 (hblockno.trans hb.2.symm)
  subst hcb
  refine ⟨hvalid, ?_⟩
  rcases hkept with hd | ⟨v, hv⟩
  . exact .inl hd
  . right
    have hvu : v = u := by
      apply h.owner_unique howns
      rw [hv]
      rfl
    rw [← hvu]
    exact hv

-- What bget finds: the buffer of the block, or one that nobody uses if the block has none.
theorem bget_cases (h : s.Inv d) (hget : s.bget ROOTDEV n = .ok (b, t))
    : ((s.buf b).dev = ROOTDEV ∧ (s.buf b).blockno = n ∧
          t = s.setBuf b { s.buf b with refcnt := (s.buf b).refcnt + 1 }) ∨
        ((∀ c, (s.buf c).dev = ROOTDEV → (s.buf c).blockno ≠ n) ∧ b ≠ none ∧ (s.buf b).refcnt = 0 ∧
          (s.buf b).dirty = false ∧
          t = s.setBuf b { s.buf b with
            dev := ROOTDEV, blockno := n, valid := false, dirty := false, refcnt := 1 }) := by
  rcases h.ring with ⟨l, hring, hall⟩
  have hlength : l.length < NBUF + 1 := by
    have hnodup : (none :: l).Nodup := List.nodup_cons.2 ⟨hring.head, hring.nodup⟩
    have hcard := hnodup.length_le_card
    rw [List.length_cons, Fintype.card_option, Fintype.card_fin] at hcard
    omega
  unfold BioSys.bget at hget
  rw [hring.find_next hlength] at hget
  split at hget
  . contradiction
  next b' hfind =>
    have hfind := List.find?_some (Option.some.inj hfind)
    cases hget
    rw [decide_eq_true_iff] at hfind
    exact .inl ⟨hfind.1, hfind.2, rfl⟩
  next hfind =>
    have hmiss := List.find?_eq_none.1 (Option.some.inj hfind)
    rw [hring.find_prev hlength] at hget
    split at hget
    . contradiction
    next b' hfree =>
      have hmem := List.mem_of_find?_eq_some (Option.some.inj hfree)
      have hfree := List.find?_some (Option.some.inj hfree)
      rw [decide_eq_true_iff] at hfree
      cases hget
      refine .inr ⟨?_, ?_, hfree.1, hfree.2, rfl⟩
      . intro c hdev hblockno
        have hc := hmiss c (hall c (h.ne_head hdev))
        rw [decide_eq_true_iff] at hc
        exact hc ⟨hdev, hblockno⟩
      . intro heq
        subst heq
        rw [List.mem_reverse] at hmem
        exact hring.head hmem
    . contradiction

theorem owned {x : BioPc} (h : s.Inv d) (hu : s.pc u = x) (howns : x.owns = some b)
    (htarget : x.target = some (n, b))
    : (s.pc u).owns = some b ∧ (s.pc u).target = some (n, b) ∧
        (s.buf b).dev = ROOTDEV ∧ (s.buf b).blockno = n := by
  rw [hu]
  refine ⟨howns, htarget, ?_⟩
  apply h.target u
  rw [hu]
  exact htarget

variable [DecidableEq ι]

-- A step of the use that has the lock of `b`, on the record of `b` and on the block in it.
theorem own (h : s.Inv d) {x : Buf} {y : BioPc} (howns : (s.pc u).owns = some b)
    (htarget : (s.pc u).target = some (n, b))
    (hlinks : t.links = s.links) (hlock : t.lock = s.lock)
    (hbuf : t.buf = Function.update s.buf b x) (hpc : t.pc = Function.update s.pc u y)
    (hx : x.dev = (s.buf b).dev ∧ x.blockno = (s.buf b).blockno ∧ x.refcnt = (s.buf b).refcnt)
    (hy : y.target = some (n, b) ∧ y.owns = some b)
    (hother : ∀ m, m ≠ n → t.disk m = s.disk m ∧ latest d t.stored m = latest d s.stored m)
    (hvalue : x.valid = true → x.data = latest d t.stored n)
    (hdirty : x.dirty = true → x.valid = true)
    (hholding : ∀ m c e, y = .holding m c e → x.valid = true)
    (hio : ∀ m c, y = .io m c → x.valid = true → x.dirty = true)
    (hdisk : t.disk n ≠ latest d t.stored n → x.valid = true ∧ (x.dirty = true ∨ y = .holding n b true))
    : t.Inv d := by
  have hb := h.target u n b htarget
  have hself : t.buf b = x := by
    rw [hbuf, Function.update_self]
  have hrest : ∀ c, c ≠ b → t.buf c = s.buf c := by
    intro c hc
    rw [hbuf, Function.update_of_ne hc]
  have hdev : ∀ c, (t.buf c).dev = (s.buf c).dev ∧ (t.buf c).blockno = (s.buf c).blockno ∧
      (t.buf c).refcnt = (s.buf c).refcnt := by
    intro c
    by_cases hc : c = b
    . subst hc
      rw [hself]
      exact hx
    . rw [hrest c hc]
      exact ⟨rfl, rfl, rfl⟩
  have hpcu : t.pc u = y := by
    rw [hpc, Function.update_self]
  have hpcv : ∀ v, v ≠ u → t.pc v = s.pc v := by
    intro v hv
    rw [hpc, Function.update_of_ne hv]
  have htargets : ∀ v, (t.pc v).target = (s.pc v).target ∧ (t.pc v).owns = (s.pc v).owns := by
    intro v
    by_cases hv : v = u
    . subst hv
      rw [hpcu, htarget, howns]
      exact hy
    . rw [hpcv v hv]
      exact ⟨rfl, rfl⟩
  constructor
  . rw [hlinks]
    exact h.ring
  . rw [(hdev none).1]
    exact h.head
  . intro c
    have hbufs : t.bufs = s.bufs := by
      funext v
      unfold bufs BioPc.buf
      rw [(htargets v).1]
    rw [(hdev c).2.2, hbufs]
    exact h.refcnt c
  . intro c v
    rw [hlock, (htargets v).2]
    exact h.lock c v
  . intro v m c hv
    rw [(htargets v).1] at hv
    rw [(hdev c).1, (hdev c).2.1]
    exact h.target v m c hv
  . intro c e hc he heq
    rw [(hdev c).1] at hc
    rw [(hdev e).1] at he
    rw [(hdev c).2.1, (hdev e).2.1] at heq
    exact h.unique c e hc he heq
  . intro c hc hvalid
    rw [(hdev c).1] at hc
    rw [(hdev c).2.1]
    by_cases hcb : c = b
    . subst hcb
      rw [hself] at hvalid ⊢
      rw [hb.2]
      exact hvalue hvalid
    . have hne : (s.buf c).blockno ≠ n := by
        intro heq
        exact hcb (h.unique c b hc hb.1 (heq.trans hb.2.symm))
      rw [hrest c hcb] at hvalid ⊢
      rw [(hother _ hne).2]
      exact h.value c hc hvalid
  . intro c hc
    by_cases hcb : c = b
    . subst hcb
      rw [hself] at hc ⊢
      exact hdirty hc
    . rw [hrest c hcb] at hc ⊢
      exact h.dirty c hc
  . intro v m c e hv
    by_cases hvu : v = u
    . subst hvu
      rw [hpcu] at hv
      have hcb : c = b := by
        have hown := hy.2
        rw [hv] at hown
        exact Option.some.inj hown
      subst hcb
      rw [hself]
      exact hholding m c e hv
    . rw [hpcv v hvu] at hv
      have hcb : c ≠ b := by
        intro heq
        subst heq
        apply hvu
        apply h.owner_unique howns
        rw [hv]
        rfl
      rw [hrest c hcb]
      exact h.holding v m c e hv
  . intro v m c hv hvalid
    by_cases hvu : v = u
    . subst hvu
      rw [hpcu] at hv
      have hcb : c = b := by
        have hown := hy.2
        rw [hv] at hown
        exact Option.some.inj hown
      subst hcb
      rw [hself] at hvalid ⊢
      exact hio m c hv hvalid
    . rw [hpcv v hvu] at hv
      have hcb : c ≠ b := by
        intro heq
        subst heq
        apply hvu
        apply h.owner_unique howns
        rw [hv]
        rfl
      rw [hrest c hcb] at hvalid ⊢
      exact h.io v m c hv hvalid
  . intro m hm
    by_cases hmn : m = n
    . subst hmn
      have hkept := hdisk hm
      refine ⟨b, ?_, ?_, ?_, ?_⟩
      . rw [(hdev b).1]
        exact hb.1
      . rw [(hdev b).2.1]
        exact hb.2
      . rw [hself]
        exact hkept.1
      . rcases hkept.2 with hd | hheld
        . left
          rw [hself]
          exact hd
        . right
          exact ⟨u, hpcu.trans hheld⟩
    . rw [(hother m hmn).1, (hother m hmn).2] at hm
      rcases h.disk m hm with ⟨c, hcdev, hcno, hvalid, hkept⟩
      have hcb : c ≠ b := by
        intro heq
        subst heq
        exact hmn (hcno.symm.trans hb.2)
      refine ⟨c, ?_, ?_, ?_, ?_⟩
      . rw [hrest c hcb]
        exact hcdev
      . rw [hrest c hcb]
        exact hcno
      . rw [hrest c hcb]
        exact hvalid
      . rcases hkept with hd | ⟨v, hv⟩
        . left
          rw [hrest c hcb]
          exact hd
        . right
          refine ⟨v, ?_⟩
          rw [hpcv v]
          . exact hv
          . intro heq
            subst heq
            rw [hv] at howns
            exact hcb (Option.some.inj howns)

-- A step that changes no buffer but for its count, by a use that has no data to lose.
theorem move (h : s.Inv d) (hring : ∃ l, t.links.Ring none l ∧ ∀ b, b ≠ none → b ∈ l)
    (hbuf : ∀ c, t.buf c = { s.buf c with refcnt := occ t.bufs c })
    (hdisk : t.disk = s.disk) (hstored : t.stored = s.stored)
    (hpc : ∀ v, v ≠ u → t.pc v = s.pc v)
    (hlock : ∀ c v, t.lock c = some v ↔ (t.pc v).owns = some c)
    (htarget : ∀ m c, (t.pc u).target = some (m, c) →
      (s.buf c).dev = ROOTDEV ∧ (s.buf c).blockno = m)
    (hold : ∀ m c, s.pc u ≠ .holding m c true)
    (hholding : ∀ m c e, t.pc u ≠ .holding m c e) (hio : ∀ m c, t.pc u ≠ .io m c)
    : t.Inv d where
  ring := hring
  head := by
    rw [hbuf]
    exact h.head
  refcnt := by
    intro c
    rw [hbuf]
  lock := hlock
  target := by
    intro v m c hv
    rw [hbuf]
    by_cases hvu : v = u
    . subst hvu
      exact htarget m c hv
    . rw [hpc v hvu] at hv
      exact h.target v m c hv
  unique := by
    intro c e
    rw [hbuf c, hbuf e]
    exact h.unique c e
  value := by
    intro c
    rw [hbuf c, hstored]
    exact h.value c
  dirty := by
    intro c
    rw [hbuf c]
    exact h.dirty c
  holding := by
    intro v m c e hv
    by_cases hvu : v = u
    . subst hvu
      exact absurd hv (hholding m c e)
    . rw [hpc v hvu] at hv
      rw [hbuf c]
      exact h.holding v m c e hv
  io := by
    intro v m c hv
    by_cases hvu : v = u
    . subst hvu
      exact absurd hv (hio m c)
    . rw [hpc v hvu] at hv
      rw [hbuf c]
      exact h.io v m c hv
  disk := by
    intro m hm
    rw [hdisk, hstored] at hm
    rcases h.disk m hm with ⟨c, hdev, hblockno, hvalid, hkept⟩
    refine ⟨c, ?_, ?_, ?_, ?_⟩
    . rw [hbuf]
      exact hdev
    . rw [hbuf]
      exact hblockno
    . rw [hbuf]
      exact hvalid
    . rcases hkept with hd | ⟨v, hv⟩
      . left
        rw [hbuf]
        exact hd
      . right
        refine ⟨v, ?_⟩
        rw [hpc v]
        . exact hv
        . intro heq
          subst heq
          exact hold m c hv

theorem occ_setPc (h : s.Inv d) (u : ι) (y : BioPc) (c : BufPtr)
    : occ (s.setPc u y).bufs c + (if (s.pc u).buf = some c then 1 else 0) =
        (s.buf c).refcnt + (if y.buf = some c then 1 else 0) := by
  rw [bufs_setPc, h.refcnt c]
  exact occ_update s.bufs u y.buf c

theorem hit (h : s.Inv d) (hu : s.pc u = .idle) (hdev : (s.buf b).dev = ROOTDEV)
    (hblockno : (s.buf b).blockno = n)
    : ((s.setBuf b { s.buf b with refcnt := (s.buf b).refcnt + 1 }).setPc u (.wants n b)).Inv d := by
  refine h.move (u := u) h.ring ?_ rfl rfl ?_ ?_ ?_ ?_ ?_ ?_
  . intro c
    have hocc := h.occ_setPc u (.wants n b) c
    rw [hu] at hocc
    have hbufs : ((s.setBuf b { s.buf b with refcnt := (s.buf b).refcnt + 1 }).setPc u
        (.wants n b)).bufs = (s.setPc u (.wants n b)).bufs := rfl
    rw [hbufs]
    by_cases hc : c = b
    . subst hc
      simp [BioPc.buf, BioPc.target] at hocc
      rw [hocc]
      exact Function.update_self ..
    . have hne : ¬ b = c := fun heq => hc heq.symm
      simp [BioPc.buf, BioPc.target, hne] at hocc
      rw [hocc]
      exact Function.update_of_ne hc _ _
  . intro v hv
    exact Function.update_of_ne hv _ _
  . intro c v
    show s.lock c = some v ↔ ((Function.update s.pc u _) v).owns = some c
    rw [h.lock c v]
    by_cases hv : v = u
    . subst hv
      rw [hu, Function.update_self]
      rfl
    . rw [Function.update_of_ne hv]
  . intro m c hm
    have hpc : ((s.setBuf b { s.buf b with refcnt := (s.buf b).refcnt + 1 }).setPc u
        (.wants n b)).pc u = .wants n b := Function.update_self ..
    rw [hpc] at hm
    cases hm
    exact ⟨hdev, hblockno⟩
  . rw [hu]
    rintro _ _ ⟨⟩
  . intro m c e
    show (Function.update s.pc u _) u ≠ _
    rw [Function.update_self]
    rintro ⟨⟩
  . intro m c
    show (Function.update s.pc u _) u ≠ _
    rw [Function.update_self]
    rintro ⟨⟩

-- The buffer of another block is recycled: nobody uses it and the disk has its data.
theorem miss (h : s.Inv d) (hu : s.pc u = .idle) (hb : b ≠ none) (hrefcnt : (s.buf b).refcnt = 0)
    (hdirty : (s.buf b).dirty = false)
    (hnone : ∀ c, (s.buf c).dev = ROOTDEV → (s.buf c).blockno ≠ n)
    (hbuf : t.buf = Function.update s.buf b ⟨false, false, ROOTDEV, n, 1, (s.buf b).data⟩)
    (hpc : t.pc = Function.update s.pc u (.wants n b)) (hlinks : t.links = s.links)
    (hlock : t.lock = s.lock) (hdisk : t.disk = s.disk) (hstored : t.stored = s.stored)
    : t.Inv d := by
  have hself : t.buf b = ⟨false, false, ROOTDEV, n, 1, (s.buf b).data⟩ := by
    rw [hbuf, Function.update_self]
  have hrest : ∀ c, c ≠ b → t.buf c = s.buf c := by
    intro c hc
    rw [hbuf, Function.update_of_ne hc]
  have hpcu : t.pc u = .wants n b := by
    rw [hpc, Function.update_self]
  have hpcv : ∀ v, v ≠ u → t.pc v = s.pc v := by
    intro v hv
    rw [hpc, Function.update_of_ne hv]
  have hunused : ∀ v, (s.pc v).buf ≠ some b := by
    intro v hv
    have hpos := occ_pos (show s.bufs v = some b from hv)
    rw [← h.refcnt b, hrefcnt] at hpos
    contradiction
  have htarget : ∀ v m c, (s.pc v).target = some (m, c) → c ≠ b := by
    intro v m c hv heq
    subst heq
    apply hunused v
    unfold BioPc.buf
    rw [hv]
    rfl
  have hondisk : ∀ m, s.disk m = latest d s.stored m ∨
      ∃ c, c ≠ b ∧ (s.buf c).dev = ROOTDEV ∧ (s.buf c).blockno = m ∧ (s.buf c).valid = true ∧
        ((s.buf c).dirty = true ∨ ∃ v, s.pc v = .holding m c true) := by
    intro m
    by_cases hm : s.disk m = latest d s.stored m
    . exact .inl hm
    . rcases h.disk m hm with ⟨c, hdev, hblockno, hvalid, hkept⟩
      refine .inr ⟨c, ?_, hdev, hblockno, hvalid, hkept⟩
      intro heq
      subst heq
      rcases hkept with hd | ⟨v, hv⟩
      . rw [hdirty] at hd
        contradiction
      . refine htarget v m c ?_ rfl
        rw [hv]
        rfl
  constructor
  . rw [hlinks]
    exact h.ring
  . rw [hrest none (Ne.symm hb)]
    exact h.head
  . intro c
    have hocc := h.occ_setPc u (.wants n b) c
    have hbufs : t.bufs = (s.setPc u (.wants n b)).bufs := by
      unfold bufs setPc
      rw [hpc]
    rw [hu] at hocc
    rw [hbufs]
    by_cases hc : c = b
    . subst hc
      simp [BioPc.buf, BioPc.target, hrefcnt] at hocc
      rw [hself, hocc]
    . have hne : ¬ b = c := fun heq => hc heq.symm
      simp [BioPc.buf, BioPc.target, hne] at hocc
      rw [hrest c hc, hocc]
  . intro c v
    rw [hlock, h.lock c v]
    by_cases hv : v = u
    . subst hv
      rw [hu, hpcu]
      rfl
    . rw [hpcv v hv]
  . intro v m c hv
    by_cases hvu : v = u
    . subst hvu
      rw [hpcu] at hv
      cases hv
      rw [hself]
      exact ⟨rfl, rfl⟩
    . rw [hpcv v hvu] at hv
      rw [hrest c (htarget v m c hv)]
      exact h.target v m c hv
  . intro c e hc he heq
    by_cases hcb : c = b
    . by_cases heb : e = b
      . rw [hcb, heb]
      . rw [hrest e heb] at he heq
        rw [hcb, hself] at heq
        exact absurd heq.symm (hnone e he)
    . rw [hrest c hcb] at hc heq
      by_cases heb : e = b
      . rw [heb, hself] at heq
        exact absurd heq (hnone c hc)
      . rw [hrest e heb] at he heq
        exact h.unique c e hc he heq
  . intro c hc hvalid
    by_cases hcb : c = b
    . rw [hcb, hself] at hvalid
      contradiction
    . rw [hrest c hcb] at hc hvalid ⊢
      rw [hstored]
      exact h.value c hc hvalid
  . intro c hc
    by_cases hcb : c = b
    . rw [hcb, hself] at hc
      contradiction
    . rw [hrest c hcb] at hc ⊢
      exact h.dirty c hc
  . intro v m c e hv
    by_cases hvu : v = u
    . subst hvu
      rw [hpcu] at hv
      contradiction
    . rw [hpcv v hvu] at hv
      rw [hrest c]
      . exact h.holding v m c e hv
      . apply htarget v m
        rw [hv]
        rfl
  . intro v m c hv
    by_cases hvu : v = u
    . subst hvu
      rw [hpcu] at hv
      contradiction
    . rw [hpcv v hvu] at hv
      rw [hrest c]
      . exact h.io v m c hv
      . apply htarget v m
        rw [hv]
        rfl
  . intro m hm
    rw [hdisk, hstored] at hm
    rcases hondisk m with heq | ⟨c, hcb, hdev, hblockno, hvalid, hkept⟩
    . exact absurd heq hm
    . refine ⟨c, ?_, ?_, ?_, ?_⟩
      . rw [hrest c hcb]
        exact hdev
      . rw [hrest c hcb]
        exact hblockno
      . rw [hrest c hcb]
        exact hvalid
      . rcases hkept with hd | ⟨v, hv⟩
        . left
          rw [hrest c hcb]
          exact hd
        . right
          refine ⟨v, ?_⟩
          rw [hpcv v]
          . exact hv
          . intro heq
            subst heq
            rw [hu] at hv
            contradiction

theorem brelseList (h : s.Inv d) (hu : s.pc u = .released n b) : (s.brelseList u b).Inv d := by
  have hb := h.target u n b (by
    rw [hu]
    rfl)
  have hpos : 0 < (s.buf b).refcnt := by
    rw [h.refcnt b]
    apply occ_pos (i := u)
    unfold bufs
    rw [hu]
    rfl
  have hpc : (s.brelseList u b).pc = Function.update s.pc u .idle := by
    unfold BioSys.brelseList
    dsimp only
    split
    . rfl
    . rfl
  have hlock : (s.brelseList u b).lock = s.lock := by
    unfold BioSys.brelseList
    dsimp only
    split
    . rfl
    . rfl
  have hdisk : (s.brelseList u b).disk = s.disk := by
    unfold BioSys.brelseList
    dsimp only
    split
    . rfl
    . rfl
  have hstored : (s.brelseList u b).stored = s.stored := by
    unfold BioSys.brelseList
    dsimp only
    split
    . rfl
    . rfl
  have hbuf : (s.brelseList u b).buf =
      Function.update s.buf b { s.buf b with refcnt := (s.buf b).refcnt - 1 } := by
    unfold BioSys.brelseList
    dsimp only
    split
    . rfl
    . rfl
  refine h.move (u := u) ?_ ?_ hdisk hstored ?_ ?_ ?_ ?_ ?_ ?_
  . rcases h.ring with ⟨l, hring, hall⟩
    have hmem := hall b (h.ne_head hb.1)
    unfold BioSys.brelseList
    dsimp only
    split
    . rcases List.append_of_mem hmem with ⟨l₁, l₂, hl⟩
      subst hl
      refine ⟨b :: (l₁ ++ l₂), ?_, ?_⟩
      . apply hring.unlink.pushFront
        . intro hmem'
          have hnodup := hring.nodup
          rw [List.nodup_middle, List.nodup_cons] at hnodup
          exact hnodup.1 hmem'
        . exact h.ne_head hb.1
      . intro c hc
        have hc := hall c hc
        rw [List.mem_append, List.mem_cons] at hc
        rw [List.mem_cons, List.mem_append]
        tauto
    . exact ⟨l, hring, hall⟩
  . intro c
    have hocc := h.occ_setPc u .idle c
    have hbufs : (s.brelseList u b).bufs = (s.setPc u .idle).bufs := by
      unfold bufs setPc
      rw [hpc]
    rw [hu] at hocc
    rw [hbufs, hbuf]
    by_cases hc : c = b
    . subst hc
      simp [BioPc.buf, BioPc.target] at hocc
      rw [Function.update_self, ← hocc]
      rfl
    . have hne : ¬ b = c := fun heq => hc heq.symm
      simp [BioPc.buf, BioPc.target, hne] at hocc
      rw [Function.update_of_ne hc, hocc]
  . intro v hv
    rw [hpc, Function.update_of_ne hv]
  . intro c v
    rw [hlock, hpc, h.lock c v]
    by_cases hv : v = u
    . subst hv
      rw [hu, Function.update_self]
      rfl
    . rw [Function.update_of_ne hv]
  . rw [hpc, Function.update_self]
    rintro _ _ ⟨⟩
  . rw [hu]
    rintro _ _ ⟨⟩
  . rw [hpc, Function.update_self]
    rintro _ _ _ ⟨⟩
  . rw [hpc, Function.update_self]
    rintro _ _ ⟨⟩

theorem holdingsleep (h : s.Inv d) (howns : (s.pc u).owns = some b) : s.holdingsleep u b = true := by
  unfold BioSys.holdingsleep
  rw [decide_eq_true_iff]
  exact (h.lock b u).2 howns

theorem setLock {o : Option ι} {y : BioPc} (h : s.Inv d) (htarget : y.target = (s.pc u).target)
    (hfree : ∀ v, v ≠ u → s.lock b ≠ some v) (ho : ∀ v, o = some v ↔ v = u ∧ y.owns = some b)
    (hother : ∀ c, c ≠ b → (s.pc u).owns ≠ some c ∧ y.owns ≠ some c)
    (hold : ∀ m c, s.pc u ≠ .holding m c true)
    (hholding : ∀ m c e, y ≠ .holding m c e) (hio : ∀ m c, y ≠ .io m c)
    : ((s.setLock b o).setPc u y).Inv d := by
  have hpc : ((s.setLock b o).setPc u y).pc u = y := Function.update_self ..
  refine h.move (u := u) h.ring ?_ rfl rfl ?_ ?_ ?_ hold ?_ ?_
  . intro c
    have hbufs : ((s.setLock b o).setPc u y).bufs = s.bufs := by
      rw [bufs_setPc]
      have hsame : y.buf = s.bufs u := congrArg (Option.map Prod.snd) htarget
      rw [hsame]
      exact Function.update_eq_self u s.bufs
    rw [hbufs]
    exact h.refcnt_eq c
  . intro v hv
    exact Function.update_of_ne hv _ _
  . intro c v
    show (Function.update s.lock b o) c = some v ↔ ((Function.update s.pc u y) v).owns = some c
    have hlock := h.lock c v
    by_cases hc : c = b
    . subst hc
      rw [Function.update_self, ho]
      by_cases hv : v = u
      . subst hv
        rw [Function.update_self]
        exact ⟨And.right, fun howns => ⟨rfl, howns⟩⟩
      . rw [Function.update_of_ne hv, ← hlock]
        exact ⟨fun hboth => absurd hboth.1 hv, fun hheld => absurd hheld (hfree v hv)⟩
    . rw [Function.update_of_ne hc]
      by_cases hv : v = u
      . subst hv
        rw [Function.update_self, hlock]
        exact ⟨fun howns => absurd howns (hother c hc).1, fun howns => absurd howns (hother c hc).2⟩
      . rw [Function.update_of_ne hv]
        exact hlock
  . intro m c hm
    rw [hpc, htarget] at hm
    exact h.target u m c hm
  . rw [hpc]
    exact hholding
  . rw [hpc]
    exact hio

theorem acquiresleep (h : s.Inv d) (hu : s.pc u = .wants n b) (hfree : s.lock b = none)
    : ((s.setLock b (some u)).setPc u (.locked n b)).Inv d := by
  refine h.setLock ?_ ?_ ?_ ?_ ?_ (by rintro _ _ _ ⟨⟩) (by rintro _ _ ⟨⟩)
  . rw [hu]
    rfl
  . intro v _
    rw [hfree]
    rintro ⟨⟩
  . intro v
    exact ⟨fun heq => ⟨(Option.some.inj heq).symm, rfl⟩, fun hboth => congrArg some hboth.1.symm⟩
  . intro c hc
    rw [hu]
    exact ⟨by rintro ⟨⟩, fun heq => hc (Option.some.inj heq).symm⟩
  . rw [hu]
    rintro _ _ ⟨⟩

theorem brelse (h : s.Inv d) (hu : s.pc u = .holding n b false)
    : s.brelse u n b = .ok ((s.setLock b none).setPc u (.released n b)) ∧
        ((s.setLock b none).setPc u (.released n b)).Inv d := by
  have howns : (s.pc u).owns = some b := by
    rw [hu]
    rfl
  constructor
  . unfold BioSys.brelse
    rw [h.holdingsleep howns]
    rfl
  . refine h.setLock ?_ ?_ ?_ ?_ ?_ (by rintro _ _ _ ⟨⟩) (by rintro _ _ ⟨⟩)
    . rw [hu]
      rfl
    . intro v hv hheld
      exact hv (h.owner_unique howns ((h.lock b v).mp hheld))
    . intro v
      exact ⟨by rintro ⟨⟩, by rintro ⟨_, ⟨⟩⟩⟩
    . intro c hc
      rw [howns]
      exact ⟨fun heq => hc (Option.some.inj heq).symm, by rintro ⟨⟩⟩
    . rw [hu]
      rintro _ _ ⟨⟩

theorem bread (h : s.Inv d) (hu : s.pc u = .locked n b)
    : ∃ t, s.bread u n b = .ok t ∧ t.Inv d ∧ t.buf = s.buf := by
  rcases h.owned hu rfl rfl with ⟨howns, htarget, hb⟩
  have hsame : s.buf = Function.update s.buf b (s.buf b) := (Function.update_eq_self b s.buf).symm
  have hvalue : (s.buf b).valid = true → (s.buf b).data = latest d s.stored n := by
    intro hvalid
    rw [h.value b hb.1 hvalid, hb.2]
  have hdisk : s.disk n ≠ latest d s.stored n → (s.buf b).valid = true ∧ (s.buf b).dirty = true := by
    intro hne
    rcases h.own_disk howns htarget hne with ⟨hvalid, hd | hheld⟩
    . exact ⟨hvalid, hd⟩
    . rw [hu] at hheld
      contradiction
  unfold BioSys.bread
  split
  next hinvalid =>
    unfold BioSys.iderw
    rw [h.holdingsleep howns, if_neg (by decide), if_neg (by simp [hinvalid])]
    refine ⟨_, rfl, ?_, rfl⟩
    refine h.own howns htarget rfl rfl hsame rfl ⟨rfl, rfl, rfl⟩ ⟨rfl, rfl⟩
      (fun _ _ => ⟨rfl, rfl⟩) hvalue (h.dirty b) (by nofun) ?_ ?_
    . intro _ _ _ hvalid
      rw [hinvalid] at hvalid
      contradiction
    . intro hne
      exact ⟨(hdisk hne).1, .inl (hdisk hne).2⟩
  next hvalid =>
    have hvalid : (s.buf b).valid = true := by simpa using hvalid
    refine ⟨_, rfl, ?_, rfl⟩
    refine h.own howns htarget rfl rfl hsame rfl ⟨rfl, rfl, rfl⟩ ⟨rfl, rfl⟩
      (fun _ _ => ⟨rfl, rfl⟩) hvalue (h.dirty b) (fun _ _ _ _ => hvalid) (by nofun) ?_
    intro hne
    exact ⟨hvalid, .inl (hdisk hne).2⟩

theorem ideintr (h : s.Inv d) (hu : s.pc u = .io n b) : (s.ideintr u n b).Inv d := by
  rcases h.owned hu rfl rfl with ⟨howns, htarget, hb⟩
  unfold BioSys.ideintr
  dsimp only
  split
  next hdirty =>
    have hvalid := h.dirty b hdirty
    have hvalue : (s.buf b).data = latest d s.stored n := by
      rw [h.value b hb.1 hvalid, hb.2]
    refine h.own howns htarget rfl rfl rfl rfl ⟨rfl, rfl, rfl⟩ ⟨rfl, rfl⟩ ?_ (fun _ => hvalue)
      (fun _ => rfl) (fun _ _ _ _ => rfl) (by nofun) ?_
    . intro m hm
      refine ⟨?_, rfl⟩
      show (Function.update s.disk _ _) m = s.disk m
      rw [hb.2, Function.update_of_ne hm]
    . intro hne
      exfalso
      apply hne
      show (Function.update s.disk _ _) n = _
      rw [hb.2, Function.update_self]
      exact hvalue
  next hclean =>
    have hinvalid : ¬ (s.buf b).valid = true := fun hvalid => hclean (h.io u n b hu hvalid)
    have hdisk : s.disk n = latest d s.stored n := by
      by_contra hne
      exact hinvalid (h.own_disk howns htarget hne).1
    have hbuf : ((s.setBuf b { s.buf b with data := s.disk (s.buf b).blockno }).setBuf b
        { (s.setBuf b { s.buf b with data := s.disk (s.buf b).blockno }).buf b with
          valid := true, dirty := false }).buf =
          Function.update s.buf b
            ⟨true, false, (s.buf b).dev, (s.buf b).blockno, (s.buf b).refcnt, s.disk (s.buf b).blockno⟩ := by
      simp [setBuf]
    refine h.own howns htarget rfl rfl hbuf rfl ⟨rfl, rfl, rfl⟩ ⟨rfl, rfl⟩
      (fun _ _ => ⟨rfl, rfl⟩) ?_ (by nofun) (fun _ _ _ _ => rfl) (by nofun) ?_
    . intro _
      dsimp only
      rw [hb.2]
      exact hdisk
    . intro hne
      exact absurd hdisk hne

theorem logWrite {changed : Bool} (h : s.Inv d) (hu : s.pc u = .holding n b changed)
    : (s.logWrite u n b).Inv d := by
  rcases h.owned hu rfl rfl with ⟨howns, htarget, hb⟩
  have hvalid := h.holding u n b changed hu
  refine h.own howns htarget rfl rfl rfl rfl ⟨rfl, rfl, rfl⟩ ⟨rfl, rfl⟩
    (fun _ _ => ⟨rfl, rfl⟩) ?_ (fun _ => hvalid) (fun _ _ _ _ => hvalid) (by nofun)
    (fun _ => ⟨hvalid, .inl rfl⟩)
  intro _
  show (s.buf b).data = latest d s.stored n
  rw [h.value b hb.1 hvalid, hb.2]

theorem bwrite {changed : Bool} (h : s.Inv d) (hu : s.pc u = .holding n b changed)
    : ∃ t, s.bwrite u n b = .ok t ∧ t.Inv d ∧
        t.buf = Function.update s.buf b { s.buf b with dirty := true } := by
  rcases h.owned hu rfl rfl with ⟨howns, htarget, hb⟩
  have hvalid := h.holding u n b changed hu
  have hheld : (s.setBuf b { s.buf b with dirty := true }).holdingsleep u b = true :=
    h.holdingsleep howns
  have hdirty : ((s.setBuf b { s.buf b with dirty := true }).buf b).dirty = true := by
    simp [setBuf]
  unfold BioSys.bwrite
  rw [h.holdingsleep howns, if_neg (by decide)]
  unfold BioSys.iderw
  rw [hheld, if_neg (by decide), if_neg (by simp [hdirty])]
  refine ⟨_, rfl, ?_, rfl⟩
  refine h.own howns htarget rfl rfl rfl rfl ⟨rfl, rfl, rfl⟩ ⟨rfl, rfl⟩
    (fun _ _ => ⟨rfl, rfl⟩) ?_ (fun _ => hvalid) (by nofun) (fun _ _ _ _ => rfl)
    (fun _ => ⟨hvalid, .inl rfl⟩)
  intro _
  show (s.buf b).data = latest d s.stored n
  rw [h.value b hb.1 hvalid, hb.2]

theorem latest_cons (stored : List (BitVec 32 × Block)) (m : BitVec 32) (data : Block)
    : latest d ((n, data) :: stored) m = if n = m then data else latest d stored m := by
  unfold latest
  rw [List.find?_cons]
  by_cases hm : n = m
  . simp [hm]
  . simp [hm]

theorem store {changed : Bool} (h : s.Inv d) (hu : s.pc u = .holding n b changed) (data : Block)
    : (s.store u n b data).Inv d := by
  rcases h.owned hu rfl rfl with ⟨howns, htarget, hb⟩
  have hvalid := h.holding u n b changed hu
  have hstored : (s.store u n b data).stored = (n, data) :: s.stored := by
    rw [← hb.2]
    rfl
  refine h.own howns htarget rfl rfl rfl rfl ⟨rfl, rfl, rfl⟩ ⟨rfl, rfl⟩ ?_ ?_ (h.dirty b)
    (fun _ _ _ _ => hvalid) (by nofun) (fun _ => ⟨hvalid, .inr rfl⟩)
  . intro m hm
    rw [hstored, latest_cons, if_neg (Ne.symm hm)]
    exact ⟨rfl, rfl⟩
  . intro _
    rw [hstored, latest_cons, if_pos rfl]

theorem step (h : s.Inv d) {e : Event ι} (hstep : s.Step e t) : t.Inv d := by
  cases hstep with
  | bget hu hget =>
    rcases h.bget_cases hget with ⟨hdev, hblockno, rfl⟩ | ⟨hnone, hb, hrefcnt, hdirty, rfl⟩
    . exact h.hit hu hdev hblockno
    . exact h.miss hu hb hrefcnt hdirty hnone rfl rfl rfl rfl rfl rfl
  | acquiresleep hu hfree => exact h.acquiresleep hu hfree
  | bread hu hread =>
    rcases h.bread hu with ⟨t', ht', hinv, _⟩
    cases ht'.symm.trans hread
    exact hinv
  | ideintr hu => exact h.ideintr hu
  | store hu => exact h.store hu _
  | logWrite hu => exact h.logWrite hu
  | bwrite hu hwrite =>
    rcases h.bwrite hu with ⟨t', ht', hinv, _⟩
    cases ht'.symm.trans hwrite
    exact hinv
  | brelse hu hrelse =>
    rcases h.brelse hu with ⟨ht', hinv⟩
    cases ht'.symm.trans hrelse
    exact hinv
  | brelseList hu => exact h.brelseList hu

end Inv

variable [DecidableEq ι]

theorem Inv.step_target (h : s.Inv d) {e : Event ι} (hstep : s.Step e t) (c : BufPtr)
    (hused : 0 < (s.buf c).refcnt ∨ (s.buf c).dirty = true)
    : (t.buf c).dev = (s.buf c).dev ∧ (t.buf c).blockno = (s.buf c).blockno := by
  cases hstep with
  | bget hu hget =>
    rcases h.bget_cases hget with ⟨_, _, rfl⟩ | ⟨_, _, hrefcnt, hdirty, rfl⟩
    . exact sameBlock_update c ⟨rfl, rfl⟩
    . show ((Function.update s.buf _ _) c).dev = _ ∧ ((Function.update s.buf _ _) c).blockno = _
      rw [Function.update_of_ne]
      . exact ⟨rfl, rfl⟩
      . intro heq
        subst heq
        rw [hrefcnt, hdirty] at hused
        rcases hused with hused | hused
        . contradiction
        . contradiction
  | acquiresleep => exact ⟨rfl, rfl⟩
  | bread hu hread =>
    rcases h.bread hu with ⟨t', ht', _, hbuf⟩
    cases ht'.symm.trans hread
    rw [hbuf]
    exact ⟨rfl, rfl⟩
  | @ideintr u n b hu =>
    unfold BioSys.ideintr
    dsimp only
    split
    . exact sameBlock_update c ⟨rfl, rfl⟩
    . simp only [setBuf, setPc, Function.update_self, Function.update_idem]
      exact sameBlock_update c ⟨rfl, rfl⟩
  | store hu => exact sameBlock_update c ⟨rfl, rfl⟩
  | logWrite hu => exact sameBlock_update c ⟨rfl, rfl⟩
  | bwrite hu hwrite =>
    rcases h.bwrite hu with ⟨t', ht', _, hbuf⟩
    cases ht'.symm.trans hwrite
    rw [hbuf]
    exact sameBlock_update c ⟨rfl, rfl⟩
  | brelse hu hrelse =>
    rcases h.brelse hu with ⟨ht', _⟩
    cases ht'.symm.trans hrelse
    exact ⟨rfl, rfl⟩
  | @brelseList u n b hu =>
    unfold BioSys.brelseList
    dsimp only
    split
    . exact sameBlock_update c ⟨rfl, rfl⟩
    . exact sameBlock_update c ⟨rfl, rfl⟩

theorem cache_coherent {es : List (Event ι)} (hstart : s.Start)
    (hrun : EventRun (fun _ _ => True) s es t)
    : (∃ l, t.links.Ring none l ∧ ∀ b, b ≠ none → b ∈ l) ∧
        (∀ b c, (t.buf b).dev = ROOTDEV → (t.buf c).dev = ROOTDEV →
          (t.buf b).blockno = (t.buf c).blockno → b = c) ∧
        (∀ e t' b, t.Step e t' → 0 < (t.buf b).refcnt ∨ (t.buf b).dirty = true →
          (t'.buf b).dev = (t.buf b).dev ∧ (t'.buf b).blockno = (t.buf b).blockno) ∧
        (∀ u n b, t.pc u = .locked n b → ∃ t', t.bread u n b = .ok t') ∧
        ∀ u n b changed, t.pc u = .holding n b changed →
          (t.buf b).dev = ROOTDEV ∧ (t.buf b).blockno = n ∧
            (t.buf b).data = latest s.disk t.stored n := by
  have hinv : t.Inv s.disk := by
    apply hrun.invariant _ hstart.inv
    intro v e w hv _ hstep
    exact hv.step hstep
  refine ⟨hinv.ring, hinv.unique, ?_, ?_, ?_⟩
  . intro e t' b hstep hused
    exact hinv.step_target hstep b hused
  . intro u n b hu
    rcases hinv.bread hu with ⟨t', ht', _⟩
    exact ⟨t', ht'⟩
  . intro u n b changed hu
    have hb := hinv.target u n b (by
      rw [hu]
      rfl)
    refine ⟨hb.1, hb.2, ?_⟩
    rw [hinv.value b hb.1 (hinv.holding u n b changed hu), hb.2]

def loaded : BioSys (Fin 2) where
  links := binit ⟨id, id⟩
  buf := fun _ => ⟨false, false, 0, 0, 0, fun _ => 0⟩
  lock := fun _ => none
  disk := fun _ _ => 0
  pc := fun _ => .idle
  stored := []

theorem loaded_start : loaded.Start where
  links := ⟨_, rfl⟩
  buf := fun _ => ⟨rfl, rfl, rfl, rfl, rfl⟩
  lock := fun _ => rfl
  pc := fun _ => rfl
  stored := rfl

set_option maxRecDepth 8192 in
theorem cache_coherent_logWrite
    : ∃ t, EventRun (fun _ _ => True) loaded
        [.bget 0 7, .acquiresleep 0, .bread 0, .ideintr 0, .store 0 (fun _ => 9), .logWrite 0,
          .brelse 0, .brelseList 0, .bget 1 7, .acquiresleep 1, .bread 1] t ∧
          t.pc 1 = .holding 7 (some 0) false ∧ (t.buf (some 0)).data = fun _ => 9 := by
  have hrun : EventRun (fun _ _ => True) loaded
      [.bget 0 7, .acquiresleep 0, .bread 0, .ideintr 0, .store 0 (fun _ => 9), .logWrite 0,
        .brelse 0, .brelseList 0, .bget 1 7, .acquiresleep 1, .bread 1] _ :=
    .cons trivial (.bget rfl rfl) <|
    .cons trivial (.acquiresleep rfl rfl) <|
    .cons trivial (.bread rfl rfl) <|
    .cons trivial (.ideintr rfl) <|
    .cons trivial (.store rfl) <|
    .cons trivial (.logWrite rfl) <|
    .cons trivial (.brelse rfl rfl) <|
    .cons trivial (.brelseList rfl) <|
    .cons trivial (.bget rfl rfl) <|
    .cons trivial (.acquiresleep rfl rfl) <|
    .cons trivial (.bread rfl rfl) (.nil _)
  have hcoherent := (cache_coherent loaded_start hrun).2.2.2.2 1 7 (some 0) false rfl
  exact ⟨_, hrun, rfl, hcoherent.2.2⟩

end BioSys
end Xv6
