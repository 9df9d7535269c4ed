import Xv6.Data.Linked
import Xv6.Ide.Impl.Memide

/-!
The driver of `ide.c` refines the system that serves its calls with `iderw` of `memide.c`.
-/

namespace Xv6

structure Addressed {ι : Type} (b : IdeBuf ι) (c : IdeCommand) : Prop where
  blockno : b.blockno.toNat < Mkfs.FSSIZE
  sector : c.sector = b.blockno.toNat
  second : c.second = true
  write : c.write = if b.dirty then some b.data else none

theorem low_byte_toNat (x : BitVec 32) : ((x &&& 0xff).setWidth 8).toNat = x.toNat % 2 ^ 8 := by
  rw [BitVec.toNat_setWidth, BitVec.toNat_and, show (0xff : BitVec 32).toNat = 2 ^ 8 - 1 from rfl,
    Nat.and_two_pow_sub_one_eq_mod, Nat.mod_mod]

theorem idestart_addressed {ι : Type} {b : IdeBuf ι} {c : IdeCommand} (h : idestart b = .ok c)
    (hdev : b.dev = 1)
    : Addressed b c := by
  unfold idestart at h
  split at h
  . contradiction
  next hlt =>
    rw [if_neg (by decide)] at h
    cases h
    have hsector : b.blockno * BitVec.ofNat 32 (BSIZE / SECTOR_SIZE) = b.blockno := BitVec.mul_one _
    simp only [hsector, hdev]
    rw [ge_iff_le, Nat.not_le] at hlt
    have hsmall : b.blockno.toNat < 1000 := hlt
    have hhigh : (b.blockno >>> 24) &&& 0x0f = 0#32 := by
      apply BitVec.eq_of_toNat_eq
      rw [BitVec.toNat_and, BitVec.toNat_ushiftRight, Nat.shiftRight_eq_div_pow,
        Nat.div_eq_of_lt (by omega), Nat.zero_and]
      rfl
    refine ⟨hlt, ?_, ?_, rfl⟩
    . unfold IdeCommand.sector
      simp only [hhigh, low_byte_toNat, BitVec.toNat_ushiftRight, Nat.shiftRight_eq_div_pow]
      have hdrive : (BitVec.setWidth 8 (0xe0#32 ||| (1 &&& 1 : BitVec 32) <<< 4 ||| 0#32) &&& 0x0f).toNat
          = 0 := rfl
      rw [hdrive]
      omega
    . unfold IdeCommand.second
      simp only [hhigh]
      rfl

namespace IdeSys

variable {ι β : Type} {s t : IdeSys ι β} {a : MemSys ι β} {p : ι} {b : β}

-- The first request has been given to the disk, and has perhaps been carried out.
def Serves (s : IdeSys ι β) (a : MemSys ι β) : Prop :=
  match a.queue with
  | [] => s.device = .idle ∧ s.disk true = a.memdisk
  | (_, b) :: _ =>
    ∃ c, idestart (s.buf b) = .ok c ∧
      ((s.device = .busy c ∧ s.disk true = a.memdisk) ∨
        ∃ disk, disk true = a.memdisk ∧ s.disk = (c.transfer disk).1 ∧
          s.device = .done c (c.transfer disk).2)

structure Simulates (s : IdeSys ι β) (a : MemSys ι β) : Prop where
  buf : s.buf = a.buf
  pc : s.pc = a.pc
  chain : Linked.Chain s.qnext s.idequeue (a.queue.map (·.2))
  nodup : (a.queue.map (·.2)).Nodup
  lock : ∀ p b, s.pc p = some b → (s.buf b).lock = some p
  waiting : ∀ p b, (p, b) ∈ a.queue → s.pc p = some b ∧ (s.buf b).dev = 1 ∧
    ¬ ((s.buf b).valid ∧ ¬ (s.buf b).dirty)
  finished : ∀ p b, s.pc p = some b → (p, b) ∉ a.queue → (s.buf b).valid ∧ ¬ (s.buf b).dirty
  serves : s.Serves a

theorem findEnd_eq {l : List β} {head pp : Option β} {k : Nat} (h : Linked.Chain s.qnext head l)
    (hk : l.length ≤ k)
    : s.findEnd (k + 1) pp head = .ok (l.getLast?.or pp) := by
  induction l generalizing head pp k with
  | nil =>
    have hhead : head = none := h
    rw [hhead]
    rfl
  | cons b l ih =>
    cases k with
    | zero => simp at hk
    | succ k =>
      rw [h.1, findEnd, ih h.2 (by simpa using hk), List.getLast?_cons]
      cases l.getLast? with
      | none => rfl
      | some c => rfl

theorem link_chain [DecidableEq β] {l : List β} (h : Linked.Chain s.qnext s.idequeue l)
    (hnodup : l.Nodup) (hb : b ∉ l)
    : Linked.Chain ((s.setQnext b none).link l.getLast? b).qnext
        ((s.setQnext b none).link l.getLast? b).idequeue (l ++ [b]) := by
  rcases List.eq_nil_or_concat l with hl | ⟨init, c, hl⟩
  . subst hl
    simp [link, setQnext, Linked.Chain]
  . rw [List.concat_eq_append] at hl
    subst hl
    have hne : c ≠ b := by
      intro heq
      simp [heq] at hb
    rw [List.getLast?_concat]
    simp only [link, setQnext]
    rw [Function.update_comm hne.symm]
    exact h.concat hnodup hb

theorem Simulates.notMem (h : s.Simulates a) (hp : s.pc p = none) (hlock : (s.buf b).lock = some p)
    : b ∉ a.queue.map (·.2) := by
  intro hin
  rcases List.mem_map.mp hin with ⟨⟨q, c⟩, hq, hc⟩
  have hwait := (h.waiting q c hq).1
  have hlock' := h.lock q c hwait
  rw [show c = b from hc, hlock] at hlock'
  cases hlock'
  rw [hp] at hwait
  contradiction

theorem start_eq (h : s.start b = .ok t)
    : ∃ c, idestart (s.buf b) = .ok c ∧ t = { s with device := .busy c } := by
  unfold IdeSys.start at h
  rcases Fold.bind_eq_ok h with ⟨c, hc, h⟩
  cases h
  exact ⟨c, hc, rfl⟩

theorem Simulates.transfer {c : IdeCommand} (h : s.Simulates a) (hdevice : s.device = .busy c)
    : Simulates { s with disk := (c.transfer s.disk).1, device := .done c (c.transfer s.disk).2 } a := by
  refine ⟨h.buf, h.pc, h.chain, h.nodup, h.lock, h.waiting, h.finished, ?_⟩
  have hserves := h.serves
  unfold Serves at hserves ⊢
  cases hq : a.queue with
  | nil =>
    rw [hq, hdevice] at hserves
    exact absurd hserves.1 nofun
  | cons r rest =>
    rw [hq] at hserves
    rcases hserves with ⟨c', hc', ⟨hbusy, hdisk⟩ | ⟨disk, _, _, hdone⟩⟩
    . rw [hdevice] at hbusy
      cases hbusy
      exact ⟨c, hc', .inr ⟨s.disk, hdisk, rfl, rfl⟩⟩
    . rw [hdevice] at hdone
      contradiction

theorem iderw_cases [DecidableEq ι] [DecidableEq β] [Fintype β] (h : s.Simulates a)
    (hp : s.pc p = none) (hok : s.iderw p b = .ok t)
    : (s.buf b).lock = some p ∧ ¬ ((s.buf b).valid ∧ ¬ (s.buf b).dirty) ∧
        t.buf = s.buf ∧ t.disk = s.disk ∧ t.pc = Function.update s.pc p (some b) ∧
        Linked.Chain t.qnext t.idequeue (a.queue.map (·.2) ++ [b]) ∧
        (a.queue = [] → ∃ c, idestart (s.buf b) = .ok c ∧ t.device = .busy c) ∧
        (a.queue ≠ [] → t.device = s.device) := by
  unfold iderw at hok
  split at hok
  . contradiction
  next hlock =>
    split at hok
    . contradiction
    next hflags =>
      split at hok
      . contradiction
      . rw [Decidable.not_not] at hlock
        have hb := h.notMem hp hlock
        have hlink := link_chain h.chain h.nodup hb
        have hend : (s.setQnext b none).findEnd (Fintype.card β + 1) none (s.setQnext b none).idequeue =
            .ok (a.queue.map (·.2)).getLast? := by
          rw [findEnd_eq (h.chain.update_of_notMem hb) h.nodup.length_le_card, Option.or_none]
        simp only at hok
        rw [hend, Fold.ok_bind] at hok
        have hsame : ∀ pp, ((s.setQnext b none).link pp b).buf = s.buf ∧
            ((s.setQnext b none).link pp b).disk = s.disk ∧
            ((s.setQnext b none).link pp b).pc = s.pc ∧
            ((s.setQnext b none).link pp b).device = s.device := by
          intro pp
          cases pp with
          | none => exact ⟨rfl, rfl, rfl, rfl⟩
          | some c => exact ⟨rfl, rfl, rfl, rfl⟩
        rcases hsame (a.queue.map (·.2)).getLast? with ⟨hbuf, hdisk, hpc, hdevice⟩
        have hhead := hlink.head_eq
        generalize (s.setQnext b none).link (a.queue.map (·.2)).getLast? b = s₁ at *
        by_cases hq : a.queue = []
        . rw [if_pos (by rw [hhead, hq]; rfl)] at hok
          rcases Fold.bind_eq_ok hok with ⟨s₂, hstart, hok⟩
          rcases start_eq hstart with ⟨c, hc, hs₂⟩
          cases hok
          rw [hs₂, ← hbuf]
          refine ⟨by rw [hbuf]; exact hlock, by rw [hbuf]; exact hflags, rfl, hdisk, by simp only [hpc],
            hlink, fun _ => ⟨c, hc, rfl⟩, fun hne => absurd hq hne⟩
        . have hne : s₁.idequeue ≠ some b := by
            rcases List.exists_cons_of_ne_nil hq with ⟨r, rest, hcons⟩
            rw [hcons] at hhead hb
            intro heq
            rw [hhead] at heq
            simp at heq hb
            exact hb.1 heq.symm
          rw [if_neg hne, Fold.ok_bind] at hok
          cases hok
          exact ⟨hlock, hflags, hbuf, hdisk, by simp only [hpc], hlink, fun h => absurd h hq,
            fun _ => hdevice⟩

theorem Simulates.call [DecidableEq ι] [DecidableEq β] [Fintype β] (h : s.Simulates a)
    (hp : s.pc p = none) (hdev : (s.buf b).dev = 1) (hok : s.iderw p b = .ok t)
    : t.Simulates { a with pc := Function.update a.pc p (some b), queue := a.queue ++ [(p, b)] } := by
  rcases iderw_cases h hp hok with ⟨hlock, hflags, hbuf, hdisk, hpc, hchain, hstart, hrun⟩
  have hb := h.notMem hp hlock
  refine ⟨?_, ?_, ?_, ?_, ?_, ?_, ?_, ?_⟩
  . rw [hbuf, h.buf]
  . rw [hpc, h.pc]
  . rw [List.map_append]
    exact hchain
  . rw [List.map_append]
    exact h.nodup.append (List.nodup_singleton b) (List.disjoint_singleton.mpr hb)
  . intro q c hq
    rw [hbuf]
    rw [hpc] at hq
    by_cases hqp : q = p
    . rw [hqp, Function.update_self] at hq
      cases hq
      rw [hqp]
      exact hlock
    . rw [Function.update_of_ne hqp] at hq
      exact h.lock q c hq
  . intro q c hin
    rw [hbuf, hpc]
    rcases List.mem_append.mp hin with hold | hnew
    . rcases h.waiting q c hold with ⟨hwait, hrest⟩
      have hqp : q ≠ p := by
        intro heq
        rw [heq, hp] at hwait
        contradiction
      rw [Function.update_of_ne hqp]
      exact ⟨hwait, hrest⟩
    . rw [List.mem_singleton] at hnew
      cases hnew
      rw [Function.update_self]
      exact ⟨rfl, hdev, hflags⟩
  . intro q c hq hout
    rw [List.mem_append, not_or, List.mem_singleton] at hout
    rw [hpc] at hq
    rw [hbuf]
    by_cases hqp : q = p
    . rw [hqp, Function.update_self] at hq
      cases hq
      rw [hqp] at hout
      exact absurd rfl hout.2
    . rw [Function.update_of_ne hqp] at hq
      exact h.finished q c hq hout.1
  . have hserves := h.serves
    unfold Serves at hserves ⊢
    cases hq : a.queue with
    | nil =>
      rw [hq] at hserves
      rcases hstart hq with ⟨c, hc, hdevice⟩
      exact ⟨c, by rw [hbuf]; exact hc, .inl ⟨hdevice, by rw [hdisk]; exact hserves.2⟩⟩
    | cons r rest =>
      rw [hq] at hserves
      have hdevice := hrun (by rw [hq]; simp)
      rcases hserves with ⟨c, hc, hdev⟩
      refine ⟨c, by rw [hbuf]; exact hc, ?_⟩
      simp only
      rw [hdevice, hdisk]
      exact hdev

theorem complete_lock (x : IdeBuf ι) (reg : Block) : (complete x reg).lock = x.lock := by
  unfold complete
  simp only
  split
  . rfl
  . rfl

theorem complete_flags (x : IdeBuf ι) (reg : Block)
    : (complete x reg).valid ∧ ¬ (complete x reg).dirty := by
  simp [complete]

theorem memide_iderw [DecidableEq ι] {x : IdeBuf ι} {c : IdeCommand} (disk : Bool → Nat → Block)
    (hlock : x.lock = some p) (hflags : ¬ (x.valid ∧ ¬ x.dirty)) (hdev : x.dev = 1)
    (hc : idestart x = .ok c)
    : Memide.iderw x p (disk true) =
        .ok (complete x (c.transfer disk).2, (c.transfer disk).1 true) := by
  have haddr := idestart_addressed hc hdev
  unfold Memide.iderw IdeCommand.transfer complete
  rw [if_neg (by simp [hlock]), if_neg hflags, if_neg (by simp [hdev]),
    if_neg (by rw [ge_iff_le, Nat.not_le]; exact haddr.blockno), haddr.write, haddr.second,
    haddr.sector]
  cases hdirty : x.dirty with
  | true => simp
  | false => simp

theorem ideintr_eq [DecidableEq β] {reg : Block} {l : List β}
    (h : Linked.Chain s.qnext s.idequeue (b :: l)) (hok : s.ideintr reg = .ok t)
    : t.buf = Function.update s.buf b (complete (s.buf b) reg) ∧
        t.pc = s.pc ∧ t.qnext = s.qnext ∧ t.idequeue = s.qnext b ∧ t.disk = s.disk ∧
        (l = [] → t.device = s.device) ∧
        ∀ b' l', l = b' :: l' → ∃ c, idestart (t.buf b') = .ok c ∧ t.device = .busy c := by
  have hrest := h.2.head_eq
  unfold ideintr at hok
  rw [h.1] at hok
  simp only at hok
  cases l with
  | nil =>
    rw [List.head?_nil] at hrest
    simp only [setBuf, hrest] at hok
    cases hok
    exact ⟨rfl, rfl, rfl, hrest.symm, rfl, fun _ => rfl, nofun⟩
  | cons b' l' =>
    rw [List.head?_cons] at hrest
    simp only [setBuf, hrest] at hok
    rcases start_eq hok with ⟨c, hc, ht⟩
    rw [ht]
    refine ⟨rfl, rfl, rfl, hrest.symm, rfl, nofun, ?_⟩
    intro b'' l'' heq
    cases heq
    exact ⟨c, hc, rfl⟩

theorem Simulates.intr [DecidableEq ι] [DecidableEq β] {c : IdeCommand} {reg : Block}
    (h : s.Simulates a) (hdevice : s.device = .done c reg) (hok : { s with device := .idle }.ideintr reg = .ok t)
    : ∃ a', a.Step .intr a' ∧ t.Simulates a' := by
  have hserves := h.serves
  unfold Serves at hserves
  cases hq : a.queue with
  | nil =>
    rw [hq, hdevice] at hserves
    exact absurd hserves.1 nofun
  | cons r rest =>
    rcases r with ⟨q, b⟩
    rw [hq] at hserves
    rcases hserves with ⟨c', hc', ⟨hbusy, _⟩ | ⟨disk, hdisk, htransfer, hdone⟩⟩
    . rw [hdevice] at hbusy
      contradiction
    . rw [hdevice] at hdone
      cases hdone
      have hin : (q, b) ∈ a.queue := by
        rw [hq]
        exact List.mem_cons_self
      rcases h.waiting q b hin with ⟨hpc, hdev, hflags⟩
      have hlock := h.lock q b hpc
      have hchain := h.chain
      have hnodup := h.nodup
      rw [hq, List.map_cons] at hchain hnodup
      rcases List.nodup_cons.mp hnodup with ⟨hb, hnodup⟩
      rcases ideintr_eq (s := { s with device := .idle }) hchain hok with
        ⟨hbuf, htpc, hqnext, hidequeue, htdisk, hlast, hnext⟩
      have hcopy := memide_iderw disk hlock hflags hdev hc'
      simp only at hbuf htpc hqnext hidequeue htdisk hlast
      have hother : ∀ b', b' ≠ b → t.buf b' = s.buf b' := by
        intro b' hne
        rw [hbuf, Function.update_of_ne hne]
      have hself : t.buf b = complete (s.buf b) (c.transfer disk).2 := by
        rw [hbuf, Function.update_self]
      refine ⟨_, .intr hq (by rw [← h.buf, ← hdisk]; exact hcopy), ?_, ?_, ?_, hnodup, ?_, ?_, ?_, ?_⟩
      . rw [hbuf, h.buf]
      . rw [htpc, h.pc]
      . rw [hqnext, hidequeue]
        exact hchain.2
      . intro q' b' hq'
        rw [htpc] at hq'
        by_cases hb' : b' = b
        . rw [hb'] at hq' ⊢
          rw [hself, complete_lock, h.lock q' b hq']
        . rw [hother b' hb']
          exact h.lock q' b' hq'
      . intro q' b' hin'
        have hb' : b' ≠ b := by
          intro heq
          apply hb
          rw [← heq]
          exact List.mem_map.mpr ⟨(q', b'), hin', rfl⟩
        rw [hother b' hb', htpc]
        exact h.waiting q' b' (by rw [hq]; exact List.mem_cons_of_mem _ hin')
      . intro q' b' hq' hout
        rw [htpc] at hq'
        by_cases hb' : b' = b
        . rw [hb', hself]
          exact complete_flags _ _
        . rw [hother b' hb']
          apply h.finished q' b' hq'
          rw [hq, List.mem_cons, not_or]
          refine ⟨?_, hout⟩
          intro heq
          cases heq
          exact hb' rfl
      . unfold Serves
        simp only
        cases rest with
        | nil =>
          refine ⟨hlast rfl, ?_⟩
          rw [htdisk, htransfer]
        | cons r' rest' =>
          rcases hnext r'.2 (rest'.map (·.2)) rfl with ⟨c', hc', hdev'⟩
          exact ⟨c', hc', .inl ⟨hdev', by rw [htdisk, htransfer]⟩⟩

theorem Simulates.ret [DecidableEq ι] (h : s.Simulates a) (hp : s.pc p = some b)
    (hvalid : (s.buf b).valid) (hdirty : ¬ (s.buf b).dirty)
    : (p, b) ∉ a.queue ∧
        Simulates { s with pc := Function.update s.pc p none }
          { a with pc := Function.update a.pc p none } := by
  have hout : (p, b) ∉ a.queue := fun hin => (h.waiting p b hin).2.2 ⟨hvalid, hdirty⟩
  have hold : ∀ q c, Function.update s.pc p none q = some c → q ≠ p ∧ s.pc q = some c := by
    intro q c hq
    by_cases hqp : q = p
    . rw [hqp, Function.update_self] at hq
      contradiction
    . rw [Function.update_of_ne hqp] at hq
      exact ⟨hqp, hq⟩
  refine ⟨hout, h.buf, ?_, h.chain, h.nodup, ?_, ?_, ?_, h.serves⟩
  . rw [h.pc]
  . intro q c hq
    exact h.lock q c (hold q c hq).2
  . intro q c hin
    have hne : q ≠ p := by
      intro heq
      rw [heq] at hin
      have hpc := (h.waiting p c hin).1
      rw [hp] at hpc
      cases hpc
      exact hout hin
    simp only
    rw [Function.update_of_ne hne]
    exact h.waiting q c hin
  . intro q c hq
    exact h.finished q c (hold q c hq).2

theorem Simulates.set [DecidableEq β] {x : IdeBuf ι} (h : s.Simulates a) (hb : ∀ p, s.pc p ≠ some b)
    : Simulates (s.setBuf b x) { a with buf := Function.update a.buf b x } := by
  have hother : ∀ q c, s.pc q = some c → (s.setBuf b x).buf c = s.buf c := by
    intro q c hq
    apply Function.update_of_ne
    intro heq
    rw [heq] at hq
    exact hb q hq
  refine ⟨?_, h.pc, h.chain, h.nodup, ?_, ?_, ?_, ?_⟩
  . rw [setBuf, h.buf]
  . intro q c hq
    rw [hother q c hq]
    exact h.lock q c hq
  . intro q c hin
    rw [hother q c (h.waiting q c hin).1]
    exact h.waiting q c hin
  . intro q c hq hout
    rw [hother q c hq]
    exact h.finished q c hq hout
  . have hserves := h.serves
    unfold Serves at hserves ⊢
    cases hq : a.queue with
    | nil =>
      rw [hq] at hserves
      exact hserves
    | cons r rest =>
      rw [hq] at hserves
      have hin : (r.1, r.2) ∈ a.queue := by
        rw [hq]
        exact List.mem_cons_self
      simp only
      rw [hother r.1 r.2 (h.waiting r.1 r.2 hin).1]
      exact hserves

theorem Simulates.step [DecidableEq ι] [DecidableEq β] [Fintype β] {e : Event ι β}
    (h : s.Simulates a) (hdisk : s.ForDisk1 e) (hstep : s.Step e t)
    : ∃ a', a.Step e a' ∧ t.Simulates a' := by
  cases hstep with
  | call hp hok => exact ⟨_, .call (by rw [← h.pc]; exact hp), h.call hp hdisk hok⟩
  | transfer hdevice => exact ⟨a, .transfer, h.transfer hdevice⟩
  | intr hdevice hok => exact h.intr hdevice hok
  | ret hp hvalid hdirty =>
    rcases h.ret hp hvalid hdirty with ⟨hout, hsim⟩
    exact ⟨_, .ret (by rw [← h.pc]; exact hp) hout, hsim⟩
  | set hb => exact ⟨_, .set (by rw [← h.pc]; exact hb), h.set hb⟩

def calls : List (Event ι β) → List (ι × β)
  | [] => []
  | .call p b :: es => (p, b) :: calls es
  | _ :: es => calls es

theorem calls_eq [DecidableEq ι] [DecidableEq β] {a' : MemSys ι β} {es : List (Event ι β)}
    (hrun : a.EventRun es a')
    : a.served ++ a.queue ++ calls es = a'.served ++ a'.queue := by
  induction hrun with
  | nil => rw [calls, List.append_nil]
  | cons _ hstep _ ih =>
    rw [← ih]
    cases hstep with
    | call _ => simp [calls]
    | transfer => rfl
    | intr hq _ =>
      rw [hq]
      simp [calls]
    | ret _ _ => rfl
    | set _ => rfl

theorem Simulates.run [DecidableEq ι] [DecidableEq β] [Fintype β] {es : List (Event ι β)}
    (hrun : s.EventRun es t) (h : s.Simulates a)
    : ∃ a', a.EventRun es a' ∧ t.Simulates a' := by
  induction hrun generalizing a with
  | nil => exact ⟨a, .nil _, h⟩
  | cons hok hstep _ ih =>
    rcases h.step hok hstep with ⟨a₁, hstep₁, hsim₁⟩
    rcases ih hsim₁ with ⟨a', hrun', hsim⟩
    exact ⟨a', .cons trivial hstep₁ hrun', hsim⟩

def memide (s : IdeSys ι β) : MemSys ι β where
  buf := s.buf
  memdisk := s.disk true
  pc := s.pc
  served := []
  queue := []

theorem Start.simulates (h : s.Start) : s.Simulates s.memide := by
  have hpc : ∀ p b, s.pc p ≠ some b := by
    intro p b hp
    rw [h.pc p] at hp
    contradiction
  refine ⟨rfl, rfl, h.idequeue, List.nodup_nil, ?_, ?_, ?_, h.device, rfl⟩
  . intro p b hp
    exact absurd hp (hpc p b)
  . nofun
  . intro p b hp
    exact absurd hp (hpc p b)

/--
Every run of the driver is one of the system that does the copies of `memide.c` one by one, in the
order of the calls; the queue is a list of distinct buffers whose first one is on the disk.
-/
theorem ide_refines_memide [DecidableEq ι] [DecidableEq β] [Fintype β] {es : List (Event ι β)}
    (hstart : s.Start) (hrun : s.EventRun es t)
    : ∃ a, s.memide.EventRun es a ∧ t.Simulates a ∧ calls es = a.served ++ a.queue := by
  rcases hstart.simulates.run hrun with ⟨a, hmem, hsim⟩
  exact ⟨a, hmem, hsim, calls_eq hmem⟩

def writerReader : IdeSys (Fin 2) (Fin 2) where
  buf b := ⟨1, 5, fun _ => if b = 0 then 7 else 0, false, b = 0, some b⟩
  qnext _ := none
  idequeue := none
  havedisk1 := true
  disk _ _ := fun _ => 0
  device := .idle
  pc _ := none

theorem ide_refines_memide_writerReader
    : ∃ t a, writerReader.EventRun [.call 0 0, .call 1 1, .transfer, .intr, .ret 0, .transfer, .intr,
          .ret 1] t ∧
        (t.buf 1).data = (fun _ => 7) ∧ a.served = [(0, 0), (1, 1)] ∧ t.Simulates a := by
  have hrun : writerReader.EventRun [.call 0 0, .call 1 1, .transfer, .intr, .ret 0, .transfer, .intr,
      .ret 1] _ :=
    .cons rfl (.call rfl rfl) (.cons rfl (.call rfl rfl) (.cons trivial (.transfer rfl)
      (.cons trivial (.intr rfl rfl) (.cons trivial (.ret rfl rfl (by decide))
        (.cons trivial (.transfer rfl) (.cons trivial (.intr rfl rfl)
          (.cons trivial (.ret rfl rfl (by decide)) (.nil _))))))))
  rcases ide_refines_memide (s := writerReader) ⟨rfl, rfl, fun _ => rfl⟩ hrun
    with ⟨a, hmem, hsim, hcalls⟩
  have hqueue : a.queue = [] := by
    have hhead : none = (a.queue.map (·.2)).head? := hsim.chain.head_eq
    exact List.map_eq_nil_iff.mp (List.head?_eq_none_iff.mp hhead.symm)
  rw [hqueue, List.append_nil] at hcalls
  exact ⟨_, a, hrun, rfl, hcalls.symm, hsim⟩

end IdeSys

end Xv6
