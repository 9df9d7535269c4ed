import Xv6.Data.Count
import Xv6.Icache.Impl.Icache

/-!
An entry of the inode cache that is in use stands for one inode, it is the only one that does, and
while nobody has its lock it agrees with the dinode in the buffer cache.
-/

open Count

namespace Xv6

namespace Icache

inductive Stage where
  | clean
  | dirty
  | typing
  | freed

namespace Pc

def owns : Pc → Option InodeId
  | .locked ip => some ip
  | .editing ip _ => some ip
  | .iput ip => some ip
  | .freeing ip => some ip
  | .truncating ip => some ip
  | .truncated ip => some ip
  | .typing ip => some ip
  | .freed ip => some ip
  | .unlocking ip => some ip
  | _ => none

def stage : Pc → Stage
  | .editing _ true => .dirty
  | .truncating _ => .dirty
  | .typing _ => .typing
  | .freed _ => .freed
  | _ => .clean

theorem ref_of_owns {pc : Pc} {ip : InodeId} (h : pc.owns = some ip) : pc.ref = some ip := by
  cases pc with
  | idle => cases h
  | ialloc => cases h
  | holds => cases h
  | wants => cases h
  | unlocked => cases h
  | _ => exact h

theorem owns_of_ref {pc : Pc} (h : pc.ref = none) : pc.owns = none := by
  cases hpc : pc.owns with
  | none => rfl
  | some ip =>
    rw [ref_of_owns hpc] at h
    cases h

end Pc

/--
How the copy `x` of the dinode `y` may differ from it. Until iput has written a zero type, the dinode
keeps one (`A`), so that ialloc leaves it alone.
-/
def Agrees (A : Prop) : Stage → Dinode → Dinode → Prop
  | .clean, x, y => x = y ∧ (A → y.type ≠ 0)
  | .dirty, x, y => A → x.type ≠ 0 ∧ y.type ≠ 0
  | .typing, _, y => A → y.type ≠ 0
  | .freed, _, _ => True

namespace Agrees

variable {A : Prop} {k : Stage} {x y : Dinode}

theorem type_ne (h : Agrees A k x y) (hk : k ≠ .freed) (hA : A) : y.type ≠ 0 := by
  cases k with
  | clean => exact h.2 hA
  | dirty => exact (h hA).2
  | typing => exact h hA
  | freed => exact absurd rfl hk

end Agrees

end Icache

open Icache

namespace IcacheSys

variable {ι : Type} {A : Prop} {s t : IcacheSys ι} {u v : ι} {ip jp : InodeId}

def refs (s : IcacheSys ι) : ι → Option InodeId := fun u => (s.pc u).ref

def stage (s : IcacheSys ι) (ip : InodeId) : Stage :=
  match s.lock ip with
  | none => .clean
  | some u => (s.pc u).stage

structure Inv (A : Prop) (s : IcacheSys ι) : Prop where
  ref : ∀ ip, Counted s.refs ip (s.inode ip).ref
  lock : ∀ ip u, s.lock ip = some u ↔ (s.pc u).owns = some ip
  unique : ∀ ip jp, 0 < (s.inode ip).ref → 0 < (s.inode jp).ref →
    (s.inode ip).dev = (s.inode jp).dev → (s.inode ip).inum = (s.inode jp).inum → ip = jp
  agrees : ∀ ip, 0 < (s.inode ip).ref → (s.inode ip).valid = true →
    Agrees A (s.stage ip) (s.inode ip).data (s.dip ip)

theorem stage_of_none (h : s.lock ip = none) : s.stage ip = .clean := by
  unfold stage
  rw [h]

theorem stage_of_some (h : s.lock ip = some u) : s.stage ip = (s.pc u).stage := by
  unfold stage
  rw [h]

theorem Start.inv (h : s.Start) : s.Inv A where
  ref := by
    intro ip
    rw [h.inode ip]
    apply Counted.zero
    intro u
    simp [refs, h.pc u, Pc.ref]
  lock := by
    intro ip u
    simp [h.lock ip, h.pc u, Pc.owns]
  unique := by
    intro ip jp hip
    rw [h.inode ip] at hip
    cases hip
  agrees := by
    intro ip hip
    rw [h.inode ip] at hip
    cases hip

theorem Inv.ref_pos (h : s.Inv A) (hu : (s.pc u).ref = some ip)
    : 0 < (s.inode ip).ref := by
  exact (h.ref ip).pos (i := u) hu

variable [DecidableEq ι]

theorem refs_update {y : Pc} (hpc : t.pc = Function.update s.pc u y)
    : t.refs = Function.update s.refs u y.ref := by
  funext v
  unfold refs
  rw [hpc]
  by_cases hv : v = u
  . subst hv
    simp
  . simp [hv]

namespace Inv

theorem ref_move (h : s.Inv A) {y : Pc} (hpc : t.pc = Function.update s.pc u y)
    (href : ∀ ip, (t.inode ip).ref + (if (s.pc u).ref = some ip then 1 else 0) =
      (s.inode ip).ref + (if y.ref = some ip then 1 else 0))
    (ip : InodeId)
    : Counted t.refs ip (t.inode ip).ref := by
  rw [refs_update hpc]
  exact (h.ref ip).update u y.ref (href ip)

theorem lock_move (h : s.Inv A) {y : Pc} (hpc : t.pc = Function.update s.pc u y)
    (hlock : t.lock = s.lock) (hy : y.owns = (s.pc u).owns) (ip : InodeId) (v : ι)
    : t.lock ip = some v ↔ (t.pc v).owns = some ip := by
  rw [hlock, hpc, h.lock ip v]
  by_cases hv : v = u
  . subst hv
    simp [hy]
  . simp [hv]

theorem stage_move (h : s.Inv A) {y : Pc} (hpc : t.pc = Function.update s.pc u y)
    (hlock : t.lock ip = s.lock ip) (hu : (s.pc u).owns ≠ some ip)
    : t.stage ip = s.stage ip := by
  unfold stage
  rw [hlock]
  cases hip : s.lock ip with
  | none => rfl
  | some v =>
    have hv : v ≠ u := by
      intro hv
      subst hv
      exact hu ((h.lock ip v).1 hip)
    simp [hpc, hv]

theorem own (h : s.Inv A) (hu : (s.pc u).owns = some ip) {y : Pc} {x : Inode} {d : Icache.Dinode}
    (hy : y.owns = some ip) (hdev : x.dev = (s.inode ip).dev) (hinum : x.inum = (s.inode ip).inum)
    (href : x.ref = (s.inode ip).ref)
    (hagrees : x.valid = true → Agrees A y.stage x.data d)
    (hpc : t.pc = Function.update s.pc u y) (hlock : t.lock = s.lock)
    (hinode : t.inode = Function.update s.inode ip x)
    (hdinode : t.dinode = Function.update s.dinode ((s.inode ip).dev, (s.inode ip).inum) d)
    : t.Inv A := by
  have huref := Pc.ref_of_owns hu
  have hip : t.inode ip = x := by
    rw [hinode]
    exact Function.update_self ip x s.inode
  have hrest : ∀ jp, jp ≠ ip → t.inode jp = s.inode jp := by
    intro jp hjp
    rw [hinode]
    exact Function.update_of_ne hjp x s.inode
  have hkeeps : ∀ jp, (t.inode jp).ref = (s.inode jp).ref ∧ (t.inode jp).dev = (s.inode jp).dev ∧
      (t.inode jp).inum = (s.inode jp).inum := by
    intro jp
    by_cases hjp : jp = ip
    . subst hjp
      rw [hip]
      exact ⟨href, hdev, hinum⟩
    . rw [hrest jp hjp]
      exact ⟨rfl, rfl, rfl⟩
  constructor
  case ref =>
    apply h.ref_move hpc
    intro jp
    rw [(hkeeps jp).1, Pc.ref_of_owns hy, huref]
  case lock =>
    apply h.lock_move hpc hlock
    rw [hy, hu]
  case unique =>
    intro jp kp hjp hkp hdev' hinum'
    rw [(hkeeps jp).1] at hjp
    rw [(hkeeps kp).1] at hkp
    rw [(hkeeps jp).2.1, (hkeeps kp).2.1] at hdev'
    rw [(hkeeps jp).2.2, (hkeeps kp).2.2] at hinum'
    exact h.unique jp kp hjp hkp hdev' hinum'
  case agrees =>
    intro jp hjp hvalid
    unfold dip
    rw [(hkeeps jp).2.1, (hkeeps jp).2.2, hdinode]
    rw [(hkeeps jp).1] at hjp
    by_cases hne : jp = ip
    . subst hne
      have hlocked : t.lock jp = some u := by
        rw [hlock]
        exact (h.lock jp u).2 hu
      rw [stage_of_some hlocked, hpc, Function.update_self, Function.update_self, hip]
      rw [hip] at hvalid
      exact hagrees hvalid
    . -- no other entry that is in use has this dinode
      have hother : ((s.inode jp).dev, (s.inode jp).inum) ≠ ((s.inode ip).dev, (s.inode ip).inum) := by
        intro heq
        rw [Prod.mk.injEq] at heq
        exact hne (h.unique jp ip hjp (h.ref_pos huref) heq.1 heq.2)
      have howns : (s.pc u).owns ≠ some jp := by
        rw [hu]
        intro heq
        exact hne (Option.some.inj heq).symm
      rw [h.stage_move hpc (congrFun hlock jp) howns, Function.update_of_ne hother, hrest jp hne]
      rw [hrest jp hne] at hvalid
      exact h.agrees jp hjp hvalid

theorem relock (h : s.Inv A) {y : Pc} {l : Option ι} (hu : (s.pc u).ref = some ip)
    (hy : y.ref = some ip) (hclean : s.stage ip = .clean)
    (hold : l = none ∧ (s.pc u).owns = some ip ∧ y.owns = none ∨
      l = some u ∧ s.lock ip = none ∧ (s.pc u).owns = none ∧ y.owns = some ip)
    (hstage : y.stage = .clean)
    : ((s.setLock ip l).setPc u y).Inv A := by
  constructor
  case ref =>
    apply h.ref_move rfl
    intro jp
    rw [hu, hy]
    rfl
  case lock =>
    intro jp v
    have hlocks := h.lock jp v
    have hown := h.lock ip v
    simp only [setLock, setPc]
    rcases hold with ⟨hl, howns, hyowns⟩ | ⟨hl, hnone, howns, hyowns⟩
    . subst hl
      by_cases hjp : jp = ip
      . subst hjp
        by_cases hv : v = u
        . subst hv
          simp [hyowns]
        . have hother : (s.pc v).owns ≠ some jp := by
            intro hv'
            have hu' := (h.lock jp u).2 howns
            rw [hown.2 hv'] at hu'
            exact hv (Option.some.inj hu')
          simp [hv, hother]
      . by_cases hv : v = u
        . subst hv
          have hne : ¬ ip = jp := fun heq => hjp heq.symm
          simp [hjp, hyowns, hlocks, howns, hne]
        . simp [hjp, hv, hlocks]
    . subst hl
      by_cases hjp : jp = ip
      . subst hjp
        by_cases hv : v = u
        . subst hv
          simp [hyowns]
        . have hother : (s.pc v).owns ≠ some jp := by
            intro hv'
            rw [hown.2 hv'] at hnone
            cases hnone
          have hne : ¬ u = v := fun heq => hv heq.symm
          simp [hv, hother, hne]
      . by_cases hv : v = u
        . subst hv
          have hne : ¬ ip = jp := fun heq => hjp heq.symm
          simp [hjp, hyowns, hlocks, howns, hne]
        . simp [hjp, hv, hlocks]
  case unique => exact h.unique
  case agrees =>
    intro jp hjp hvalid
    have hagrees := h.agrees jp hjp hvalid
    have hstages : ((s.setLock ip l).setPc u y).stage jp = s.stage jp := by
      by_cases hne : jp = ip
      . subst hne
        rw [hclean]
        rcases hold with ⟨hl, _, _⟩ | ⟨hl, _, _, _⟩
        . apply stage_of_none
          simp [setLock, setPc, hl]
        . rw [stage_of_some (u := u)]
          . simp [setPc, hstage]
          . simp [setLock, setPc, hl]
      . apply h.stage_move (u := u) (y := y) rfl
        . simp [setLock, setPc, hne]
        . intro howns
          have href := Pc.ref_of_owns howns
          rw [hu] at href
          exact hne (Option.some.inj href).symm
    rw [hstages]
    exact hagrees

theorem recount (h : s.Inv A) {y : Pc} {n : Nat} (hu : (s.pc u).owns = none) (hy : y.owns = none)
    (hpos : 0 < n → 0 < (s.inode ip).ref)
    (hself : n + (if (s.pc u).ref = some ip then 1 else 0) =
      (s.inode ip).ref + (if y.ref = some ip then 1 else 0))
    (hrest : ∀ jp, jp ≠ ip → ((s.pc u).ref = some jp ↔ y.ref = some jp))
    : ((s.setInode ip { s.inode ip with ref := n }).setPc u y).Inv A := by
  generalize ht : (s.setInode ip { s.inode ip with ref := n }).setPc u y = t
  have hpc : t.pc = Function.update s.pc u y := by
    rw [← ht]
    rfl
  have hlock : t.lock = s.lock := by
    rw [← ht]
    rfl
  have hself' : (t.inode ip).ref = n := by
    rw [← ht]
    simp [setPc, setInode]
  have hother : ∀ jp, jp ≠ ip → t.inode jp = s.inode jp := by
    intro jp hjp
    rw [← ht]
    simp [setPc, setInode, hjp]
  have hkeeps : ∀ jp, (t.inode jp).dev = (s.inode jp).dev ∧ (t.inode jp).inum = (s.inode jp).inum ∧
      (t.inode jp).valid = (s.inode jp).valid ∧ (t.inode jp).data = (s.inode jp).data ∧
      (0 < (t.inode jp).ref → 0 < (s.inode jp).ref) := by
    intro jp
    by_cases hjp : jp = ip
    . subst hjp
      rw [hself', ← ht]
      simp only [setPc, setInode, Function.update_self, true_and]
      exact hpos
    . rw [hother jp hjp]
      exact ⟨rfl, rfl, rfl, rfl, id⟩
  have hdip : ∀ jp, t.dip jp = s.dip jp := by
    intro jp
    unfold dip
    rw [(hkeeps jp).1, (hkeeps jp).2.1, ← ht]
    rfl
  constructor
  case ref =>
    apply h.ref_move hpc
    intro jp
    by_cases hjp : jp = ip
    . subst hjp
      rw [hself']
      exact hself
    . simp [hother jp hjp, hrest jp hjp]
  case lock =>
    apply h.lock_move hpc hlock
    rw [hy, hu]
  case unique =>
    intro jp kp hjp hkp hdev hinum
    rcases hkeeps jp with ⟨hjdev, hjinum, _, _, hjpos⟩
    rcases hkeeps kp with ⟨hkdev, hkinum, _, _, hkpos⟩
    rw [hjdev, hkdev] at hdev
    rw [hjinum, hkinum] at hinum
    exact h.unique jp kp (hjpos hjp) (hkpos hkp) hdev hinum
  case agrees =>
    intro jp hjp hvalid
    rcases hkeeps jp with ⟨_, _, hjvalid, hjdata, hjpos⟩
    have howns : (s.pc u).owns ≠ some jp := by
      rw [hu]
      nofun
    rw [h.stage_move hpc (congrFun hlock jp) howns, hdip, hjdata]
    rw [hjvalid] at hvalid
    exact h.agrees jp (hjpos hjp) hvalid

theorem wait (h : s.Inv A) (hu : s.pc u = .holds ip) : (s.setPc u (.wants ip)).Inv A := by
  have hsame : s = s.setInode ip { s.inode ip with ref := (s.inode ip).ref } := by
    simp [setInode]
  rw [hsame]
  apply h.recount (congrArg Pc.owns hu) rfl id
  . rw [hu]
    rfl
  . intro jp _
    rw [hu]
    rfl

theorem gain (h : s.Inv A) (hu : (s.pc u).ref = none) (hpos : 0 < (s.inode ip).ref)
    : ((s.idup ip).setPc u (.holds ip)).Inv A := by
  apply h.recount (Pc.owns_of_ref hu) rfl
  . intro _
    exact hpos
  . rw [hu]
    simp [Pc.ref]
  . intro jp hjp
    have hne : ¬ ip = jp := fun heq => hjp heq.symm
    rw [hu]
    simp [Pc.ref, hne]

theorem recycle (h : s.Inv A) {dev inum : BitVec 32} (hu : (s.pc u).ref = none)
    (hfree : (s.inode ip).ref = 0)
    (hmiss : ∀ jp, 0 < (s.inode jp).ref → ¬ ((s.inode jp).dev = dev ∧ (s.inode jp).inum = inum))
    : ((s.setInode ip { s.inode ip with dev, inum, ref := 1, valid := false }).setPc u
        (.holds ip)).Inv A := by
  have howns := Pc.owns_of_ref hu
  constructor
  case ref =>
    apply h.ref_move rfl
    intro jp
    rw [hu]
    by_cases hjp : jp = ip
    . subst hjp
      simp [setPc, setInode, Pc.ref, hfree]
    . have hne : ¬ ip = jp := fun heq => hjp heq.symm
      simp [setPc, setInode, Pc.ref, hjp, hne]
  case lock =>
    apply h.lock_move (t := (s.setInode ip _).setPc u (.holds ip)) (u := u) (y := .holds ip) rfl rfl
    rw [howns]
    rfl
  case unique =>
    intro jp kp hjp hkp hdev hinum
    simp only [setPc, setInode] at hjp hkp hdev hinum
    by_cases hj : jp = ip
    . by_cases hk : kp = ip
      . rw [hj, hk]
      . subst hj
        simp [hk] at hkp hdev hinum
        exact absurd ⟨hdev.symm, hinum.symm⟩ (hmiss kp hkp)
    . by_cases hk : kp = ip
      . subst hk
        simp [hj] at hjp hdev hinum
        exact absurd ⟨hdev, hinum⟩ (hmiss jp hjp)
      . simp only [Function.update_of_ne hj, Function.update_of_ne hk] at hjp hkp hdev hinum
        exact h.unique jp kp hjp hkp hdev hinum
  case agrees =>
    intro jp hjp hvalid
    by_cases hj : jp = ip
    . subst hj
      simp [setPc, setInode] at hvalid
    . have hsame : (s.setInode ip { s.inode ip with dev, inum, ref := 1, valid := false }).inode jp =
          s.inode jp := by
        simp [setInode, hj]
      have howns' : (s.pc u).owns ≠ some jp := by
        rw [howns]
        nofun
      rw [h.stage_move (t := (s.setInode ip _).setPc u (.holds ip)) rfl rfl howns']
      unfold dip
      simp only [setPc] at hjp hvalid ⊢
      rw [hsame] at hjp hvalid ⊢
      exact h.agrees jp hjp hvalid

theorem iget (h : s.Inv A) {dev inum : BitVec 32} (hu : (s.pc u).ref = none)
    (higet : s.iget dev inum = .ok (ip, t))
    : (t.setPc u (.holds ip)).Inv A := by
  unfold IcacheSys.iget at higet
  split at higet
  next jp hfound =>
    cases higet
    have hpos : 0 < (s.inode ip).ref := by
      have hp := List.find?_some hfound
      simp only [decide_eq_true_eq] at hp
      exact hp.1
    exact h.gain hu hpos
  next hnone =>
    have hmiss : ∀ jp, 0 < (s.inode jp).ref →
        ¬ ((s.inode jp).dev = dev ∧ (s.inode jp).inum = inum) := by
      intro jp hjp hsame
      rw [List.find?_eq_none] at hnone
      have hp := hnone jp (List.mem_finRange jp)
      simp only [decide_eq_true_eq] at hp
      exact hp ⟨hjp, hsame⟩
    split at higet
    next => cases higet
    next jp hfound =>
      cases higet
      have hfree := List.find?_some hfound
      simp only [decide_eq_true_eq] at hfree
      exact h.recycle hu hfree hmiss

theorem ialloc (h : s.Inv A) (hA : A) {dev inum : BitVec 32} {type : BitVec 16}
    (hu : s.pc u = .idle) (htype : (s.dinode (dev, inum)).type = 0)
    : ((s.ialloc dev inum type).setPc u (.ialloc dev inum)).Inv A := by
  have howns : ∀ jp, (s.pc u).owns ≠ some jp := by
    rw [hu]
    nofun
  constructor
  case ref =>
    apply h.ref_move (t := (s.ialloc dev inum type).setPc u (.ialloc dev inum)) rfl
    rw [hu]
    exact fun jp => rfl
  case lock =>
    apply h.lock_move (t := (s.ialloc dev inum type).setPc u (.ialloc dev inum)) (u := u) rfl rfl
    rw [hu]
    rfl
  case unique => exact h.unique
  case agrees =>
    intro jp hjp hvalid
    have hagrees := h.agrees jp hjp hvalid
    rw [h.stage_move (t := (s.ialloc dev inum type).setPc u (.ialloc dev inum)) rfl rfl (howns jp)]
    by_cases hsame : ((s.inode jp).dev, (s.inode jp).inum) = (dev, inum)
    . -- only an entry that iput has just freed has a dinode without a type
      have hfreed : s.stage jp = .freed := by
        by_contra hne
        have htype' := hagrees.type_ne hne hA
        unfold dip at htype'
        rw [hsame] at htype'
        exact htype' htype
      rw [hfreed]
      trivial
    . have hdip : ((s.ialloc dev inum type).setPc u (.ialloc dev inum)).dip jp = s.dip jp := by
        simp only [dip, setPc, IcacheSys.ialloc, setDinode]
        exact Function.update_of_ne hsame _ _
      rw [hdip]
      exact hagrees

theorem edit (h : s.Inv A) (hu : (s.pc u).owns = some ip) {y : Pc} {valid : Bool} {data : Icache.Dinode}
    (hy : y.owns = some ip) (hagrees : valid = true → Agrees A y.stage data (s.dip ip))
    : ((s.setInode ip { s.inode ip with valid, data }).setPc u y).Inv A := by
  apply h.own hu hy (x := { s.inode ip with valid, data }) rfl rfl rfl hagrees
  . rfl
  . rfl
  . rfl
  . exact (Function.update_eq_self _ s.dinode).symm

theorem go (h : s.Inv A) (hu : (s.pc u).owns = some ip) {y : Pc} (hy : y.owns = some ip)
    (hstage : y.stage = (s.pc u).stage)
    : (s.setPc u y).Inv A := by
  apply h.own hu hy rfl rfl rfl (x := s.inode ip) (d := s.dip ip)
  . intro hvalid
    have hagrees := h.agrees ip (h.ref_pos (Pc.ref_of_owns hu)) hvalid
    rw [stage_of_some ((h.lock ip u).2 hu)] at hagrees
    rw [hstage]
    exact hagrees
  . rfl
  . rfl
  . exact (Function.update_eq_self ip s.inode).symm
  . exact (Function.update_eq_self _ s.dinode).symm

theorem iupdate (h : s.Inv A) (hu : (s.pc u).owns = some ip) {y : Pc} (hy : y.owns = some ip)
    (hstage : y.stage = .freed ∨ y.stage = .clean ∧ ((s.pc u).stage = .clean ∨ (s.pc u).stage = .dirty))
    : ((s.iupdate ip).setPc u y).Inv A := by
  apply h.own hu hy rfl rfl rfl (x := s.inode ip) (d := (s.inode ip).data)
  . intro hvalid
    have hagrees := h.agrees ip (h.ref_pos (Pc.ref_of_owns hu)) hvalid
    rw [stage_of_some ((h.lock ip u).2 hu)] at hagrees
    rcases hstage with hy' | ⟨hy', hu' | hu'⟩
    . rw [hy']
      trivial
    . rw [hu'] at hagrees
      rw [hy']
      refine ⟨rfl, ?_⟩
      rw [hagrees.1]
      exact hagrees.2
    . rw [hu'] at hagrees
      rw [hy']
      exact ⟨rfl, fun hA => (hagrees hA).1⟩
  . rfl
  . rfl
  . exact (Function.update_eq_self ip s.inode).symm
  . rfl

end Inv

theorem Step.inv {e : Event ι} (h : s.Inv A) (hkeeps : e.Keeps A) (hstep : Step s e t)
    : t.Inv A := by
  have hagrees : ∀ u ip, (s.pc u).owns = some ip → (s.inode ip).valid = true →
      Agrees A (s.pc u).stage (s.inode ip).data (s.dip ip) := by
    intro u ip hu hvalid
    rw [← stage_of_some ((h.lock ip u).2 hu)]
    exact h.agrees ip (h.ref_pos (Pc.ref_of_owns hu)) hvalid
  have hstage : ∀ u ip, (s.pc u).owns = some ip → s.stage ip = (s.pc u).stage := by
    intro u ip hu
    exact stage_of_some ((h.lock ip u).2 hu)
  cases hstep with
  | ialloc hu htype => exact h.ialloc hkeeps hu htype
  | iget hu higet =>
    apply h.iget _ higet
    rcases hu with hu | hu
    . exact congrArg Pc.ref hu
    . exact congrArg Pc.ref hu
  | idup hu hv =>
    apply h.gain _ (h.ref_pos hv)
    exact congrArg Pc.ref hu
  | ilock hu hilock =>
    unfold IcacheSys.ilock at hilock
    split at hilock
    next => cases hilock
    next =>
      cases hilock
      apply h.wait hu
  | ilockAcquire hu hlock =>
    apply h.relock (congrArg Pc.ref hu) rfl (stage_of_none hlock) _ rfl
    exact .inr ⟨rfl, hlock, congrArg Pc.owns hu, rfl⟩
  | @ilockLoad u ip _ hu hload =>
    have howns := congrArg Pc.owns hu
    unfold IcacheSys.ilockLoad at hload
    split at hload
    next hvalid =>
      simp only at hload
      split at hload
      next => cases hload
      next htype =>
        cases hload
        refine h.edit howns rfl ?_
        intro _
        refine ⟨rfl, ?_⟩
        intro _
        simpa [setInode] using htype
    next hvalid =>
      cases hload
      apply h.go howns rfl
      rw [hu]
      rfl
  | @store u ip changed data hu =>
    have howns := congrArg Pc.owns hu
    refine h.edit howns rfl ?_
    intro hvalid hA
    refine ⟨hkeeps hA, ?_⟩
    apply (hagrees u ip howns hvalid).type_ne _ hA
    rw [hu]
    cases changed with
    | false => nofun
    | true => nofun
  | @iupdate u ip changed hu =>
    apply h.iupdate (congrArg Pc.owns hu) rfl
    rw [hu]
    cases changed with
    | false => exact .inr ⟨rfl, .inl rfl⟩
    | true => exact .inr ⟨rfl, .inr rfl⟩
  | @iunlock u ip _ hu hiunlock =>
    unfold IcacheSys.iunlock at hiunlock
    split at hiunlock
    next => cases hiunlock
    next =>
      cases hiunlock
      apply h.relock (congrArg Pc.ref hu) rfl _ _ rfl
      . rw [hstage u ip (congrArg Pc.owns hu), hu]
        rfl
      . exact .inl ⟨rfl, congrArg Pc.owns hu, rfl⟩
  | iputAcquire hu hlock =>
    apply h.relock (congrArg Pc.ref hu) rfl (stage_of_none hlock) _ rfl
    exact .inr ⟨rfl, hlock, congrArg Pc.owns hu, rfl⟩
  | iputCheck hu =>
    unfold IcacheSys.iputCheck
    split
    . apply h.go (congrArg Pc.owns hu) rfl
      rw [hu]
      rfl
    . apply h.go (congrArg Pc.owns hu) rfl
      rw [hu]
      rfl
  | @iputTrunc u ip hu =>
    have howns := congrArg Pc.owns hu
    refine h.edit howns rfl ?_
    intro hvalid hA
    have hclean := hagrees u ip howns hvalid
    rw [hu] at hclean
    refine ⟨?_, hclean.2 hA⟩
    show (s.inode ip).data.type ≠ 0
    rw [hclean.1]
    exact hclean.2 hA
  | iputTruncUpdate hu =>
    apply h.iupdate (congrArg Pc.owns hu) rfl
    rw [hu]
    exact .inr ⟨rfl, .inr rfl⟩
  | @iputType u ip hu =>
    have howns := congrArg Pc.owns hu
    refine h.edit howns rfl ?_
    intro hvalid hA
    have hclean := hagrees u ip howns hvalid
    rw [hu] at hclean
    exact hclean.2 hA
  | iputTypeUpdate hu => exact h.iupdate (congrArg Pc.owns hu) rfl (.inl rfl)
  | iputInvalid hu =>
    refine h.edit (congrArg Pc.owns hu) rfl ?_
    nofun
  | @iputRelease u ip hu =>
    apply h.relock (congrArg Pc.ref hu) rfl _ _ rfl
    . rw [hstage u ip (congrArg Pc.owns hu), hu]
      rfl
    . exact .inl ⟨rfl, congrArg Pc.owns hu, rfl⟩
  | @iputDrop u ip hu =>
    have hpos := h.ref_pos (congrArg Pc.ref hu)
    apply h.recount (congrArg Pc.owns hu) rfl
    . intro _
      exact hpos
    . rw [hu]
      simp [Pc.ref]
      omega
    . intro jp hjp
      have hne : ¬ ip = jp := fun heq => hjp heq.symm
      rw [hu]
      simp [Pc.ref, hne]

theorem Step.inode {e : Event ι} (hstep : Step s e t) (hip : 0 < (s.inode ip).ref)
    : (t.inode ip).dev = (s.inode ip).dev ∧ (t.inode ip).inum = (s.inode ip).inum := by
  have hset : ∀ jp x, x.dev = (s.inode jp).dev → x.inum = (s.inode jp).inum →
      ((s.setInode jp x).inode ip).dev = (s.inode ip).dev ∧
        ((s.setInode jp x).inode ip).inum = (s.inode ip).inum := by
    intro jp x hdev hinum
    by_cases hjp : ip = jp
    . subst hjp
      simp [setInode, hdev, hinum]
    . simp [setInode, hjp]
  cases hstep with
  | @iget _ _ _ jp _ hu higet =>
    unfold IcacheSys.iget at higet
    split at higet
    next =>
      cases higet
      exact hset _ _ rfl rfl
    next =>
      split at higet
      next => cases higet
      next hfound =>
        cases higet
        have hfree := List.find?_some hfound
        simp only [decide_eq_true_eq] at hfree
        have hne : ip ≠ jp := by
          intro heq
          rw [heq, hfree] at hip
          cases hip
        simp [setPc, setInode, hne]
  | idup => exact hset _ _ rfl rfl
  | ilock hu hilock =>
    unfold IcacheSys.ilock at hilock
    split at hilock
    next => cases hilock
    next =>
      cases hilock
      exact ⟨rfl, rfl⟩
  | ilockLoad hu hload =>
    unfold IcacheSys.ilockLoad at hload
    split at hload
    next =>
      simp only at hload
      split at hload
      next => cases hload
      next =>
        cases hload
        exact hset _ _ rfl rfl
    next =>
      cases hload
      exact ⟨rfl, rfl⟩
  | iunlock hu hiunlock =>
    unfold IcacheSys.iunlock at hiunlock
    split at hiunlock
    next => cases hiunlock
    next =>
      cases hiunlock
      exact ⟨rfl, rfl⟩
  | store => exact hset _ _ rfl rfl
  | iputTrunc => exact hset _ _ rfl rfl
  | iputType => exact hset _ _ rfl rfl
  | iputInvalid => exact hset _ _ rfl rfl
  | iputDrop => exact hset _ _ rfl rfl
  | _ => exact ⟨rfl, rfl⟩

/--
At every point of a run, an inode has at most one entry that is in use; no step gives such an entry
to another inode; and where nobody has its lock, what it has of the inode is what the dinode says.
-/
theorem entries_coherent {es : List (Event ι)} (hs : s.Start)
    (h : EventRun (fun _ e => e.Keeps A) s es t)
    : (∀ ip jp, 0 < (t.inode ip).ref → 0 < (t.inode jp).ref →
        (t.inode ip).dev = (t.inode jp).dev → (t.inode ip).inum = (t.inode jp).inum → ip = jp) ∧
      (∀ e t' ip, Step t e t' → 0 < (t.inode ip).ref →
        (t'.inode ip).dev = (t.inode ip).dev ∧ (t'.inode ip).inum = (t.inode ip).inum) ∧
      ∀ ip, 0 < (t.inode ip).ref → (t.inode ip).valid = true → t.lock ip = none →
        (t.inode ip).data = t.dinode ((t.inode ip).dev, (t.inode ip).inum) := by
  have hinv : t.Inv A := by
    apply h.invariant (P := Inv A) _ hs.inv
    intro s e t hinv hkeeps hstep
    exact hstep.inv hinv hkeeps
  refine ⟨hinv.unique, ?_, ?_⟩
  . intro e t' ip hstep hip
    exact hstep.inode hip
  . intro ip hip hvalid hlock
    have hagrees := hinv.agrees ip hip hvalid
    rw [stage_of_none hlock] at hagrees
    exact hagrees.1

def booted : IcacheSys Bool :=
  { inode := fun _ => ⟨0, 0, 0, false, .fresh 0⟩
    lock := fun _ => none
    dinode := fun _ => .fresh 2
    pc := fun _ => .idle }

theorem booted_start : booted.Start where
  inode := fun _ => rfl
  lock := fun _ => rfl
  pc := fun _ => rfl

theorem entries_coherent_link
    : ∃ t : IcacheSys Bool, EventRun (fun _ e => e.Keeps True) booted
        [.iget false 1 3, .ilock false, .ilock false, .ilock false,
          .store false { Icache.Dinode.fresh 2 with nlink := 1 }, .iupdate false, .idup true false,
          .iunlock false] t ∧
        (t.inode 0).ref = 2 ∧ t.dinode (1, 3) = (t.inode 0).data ∧ (t.inode 0).data.nlink = 1 := by
  have hrun : EventRun (fun _ e => e.Keeps True) booted
      [.iget false 1 3, .ilock false, .ilock false, .ilock false,
        .store false { Icache.Dinode.fresh 2 with nlink := 1 }, .iupdate false, .idup true false,
        .iunlock false] _ :=
    .cons trivial (.iget (.inl rfl) rfl) <|
    .cons trivial (.ilock rfl rfl) <|
    .cons trivial (.ilockAcquire rfl rfl) <|
    .cons trivial (.ilockLoad rfl rfl) <|
    .cons (fun _ => by decide) (.store rfl) <|
    .cons trivial (.iupdate rfl) <|
    .cons trivial (.idup rfl rfl) <|
    .cons trivial (.iunlock rfl rfl) <|
    .nil _
  have hcoherent := (entries_coherent booted_start hrun).2.2 0 (by decide) rfl rfl
  exact ⟨_, hrun, rfl, hcoherent.symm, rfl⟩

end IcacheSys
end Xv6
