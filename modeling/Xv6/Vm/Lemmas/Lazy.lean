import Xv6.Vm.Lemmas.Mappages
import Xv6.Vm.Lemmas.Wait

/-!
A process cannot tell that its memory is allocated lazily: it sees bytes that are kept until an
`sbrk` gives up their page, and zeroes in new pages.
-/

namespace Xv6

inductive Access where
  | sbrk (n : BitVec 32)
  | load (va : BitVec 32)
  | store (va : BitVec 32) (c : BitVec 8)

-- the flags that the processor checks in user mode
def allows (w : BitVec 32) (write : Bool) : Bool :=
  pteP w && pteU w && (!write || w &&& PTE_W != 0)

namespace VmSys

section

variable (L : Layout)

-- After a fault the instruction is started again, unless the process has exited: then it is `false`.
def reach (p : ProcId) (va : BitVec 32) (write : Bool) : Nat → VmSys → Except Fault (Bool × VmSys)
  | 0, _ => .error .diverges
  | fuel + 1, s => do
    let pgdir ← s.pgdir p
    let w := s.mem.pte pgdir va
    if allows w write then
      return (true, s)
    else
      let s ← s.userPgflt L p va (errcode w write)
      if (s.proc p).killed then
        return (false, s)
      else
        reach p va write fuel s

-- A fault that does not bring the page in kills the process, so there are at most two tries.
def access (p : ProcId) (s : VmSys) : Access → Except Fault (Option (BitVec 32) × VmSys)
  | .sbrk n => do
    if (s.proc p).killed then
      let s ← s.exit L p
      return (none, s)
    else
      let (addr, s) ← s.sysSbrk L p n
      return (some addr, s)
  | .load va => do
    let (alive, s) ← reach L p va false 2 s
    if alive then
      let pgdir ← s.pgdir p
      return (some ((s.mem.peek pgdir va).setWidth 32), s)
    else
      return (none, s)
  | .store va c => do
    let (alive, s) ← reach L p va true 2 s
    if alive then
      let pgdir ← s.pgdir p
      return (some 0, { s with mem := s.mem.poke pgdir va c })
    else
      return (none, s)

def accesses (p : ProcId) : VmSys → List Access → Except Fault (List (BitVec 32) × VmSys)
  | s, [] => return ([], s)
  | s, e :: es => do
    match ← s.access L p e with
    | (none, s) => return ([], s)
    | (some r, s) =>
      let (rs, s) ← accesses p s es
      return (r :: rs, s)

end

end VmSys

/--
What a process is to see of its memory.
-/
structure UserMem where
  sz : BitVec 32
  byte : Nat → BitVec 8

namespace UserMem

-- the whole pages above the new size are cleared
def sbrk (x : UserMem) (n : BitVec 32) : UserMem where
  sz := x.sz + n
  byte a := if (x.sz + n).toNat ≤ 4096 * (a / 4096) then 0 else x.byte a

def store (x : UserMem) (va : BitVec 32) (c : BitVec 8) : UserMem :=
  { x with byte := fun a => if a = va.toNat then c else x.byte a }

def access (x : UserMem) : Access → BitVec 32 × UserMem
  | .sbrk n => (x.sz, x.sbrk n)
  | .load va => ((x.byte va.toNat).setWidth 32, x)
  | .store va c => (0, x.store va c)

def accesses : UserMem → List Access → List (BitVec 32) × UserMem
  | x, [] => ([], x)
  | x, e :: es =>
    let (r, x) := x.access e
    let (rs, x) := accesses x es
    (r :: rs, x)

end UserMem

def InSize (sz n : BitVec 32) : Prop :=
  0 ≤ sz.toNat + n.toInt ∧ sz.toNat + n.toInt < 2 ^ 31

theorem InSize.toNat {sz n : BitVec 32} (h : InSize sz n)
    : ((sz + n).toNat : Int) = sz.toNat + n.toInt := by
  unfold InSize at h
  rw [BitVec.toInt_eq_toNat_cond] at h ⊢
  rw [BitVec.toNat_add]
  split at h <;> omega

namespace Mem

variable {L : Layout} {d n va : BitVec 32} {g : Nat} {x : UserMem} {m m' : Mem}

theorem Allocs.allows {P : Nat → Prop} (h : AllocsZero d P m m') (hm : Owned L m d) {u : Nat} (hu : P u)
    : allows (m'.walk d u) true := by
  have hpte := h.pteU hm hu
  have hpresent : pteP (m'.walk d u) := h.present hu
  rcases h.fresh u hu with ⟨_, pa, _, hwalk, _, _⟩
  unfold Xv6.allows
  rw [hpresent, hpte, hwalk]
  simp only [Bool.and_self, Bool.not_true, Bool.false_or, Bool.true_and, bne_iff_ne]
  intro hzero
  have hbit := congrArg (·.getLsbD 1) hzero
  simp [PTE_W, PTE_U, PTE_P] at hbit

theorem Frees.view {P : Nat → Prop} [DecidablePred P] (h : Frees d P m m') (hm : Owned L m d) {a : Nat}
    (ha : a < 2 ^ 31)
    : m'.view d a = if P (a / 4096) then 0 else m.view d a := by
  have hu : a / 4096 < 2 ^ 19 := by omega
  have hwalk := h.walk (a / 4096) (by omega)
  unfold Mem.view
  by_cases hp : pteP (m.walk d (a / 4096))
  . by_cases hP : P (a / 4096)
    . rw [if_pos ⟨hP, hp⟩] at hwalk
      rw [hwalk, if_pos hP, if_neg (by decide)]
    . rw [if_neg (fun hc => hP hc.1)] at hwalk
      have hfree : pteAddr (m.walk d (a / 4096)) ∉ m'.free := by
        rw [← hwalk] at hp ⊢
        exact ((Frees.owned hm h).user_disjoint (mem_user hu hp)).2
      rw [hwalk, if_pos hp, if_neg hP, if_pos hp,
        h.frame _ (hm.user_disjoint (mem_user hu hp)).1 hfree]
  . rw [if_neg (fun hc => hp hc.2)] at hwalk
    rw [hwalk, if_neg hp, if_neg hp, ite_self]

/--
The address space `d` holds `x`; `g` is the page under the stack, which user code cannot access.
-/
structure Image (L : Layout) (d : BitVec 32) (g : Nat) (x : UserMem) (m : Mem) : Prop where
  owned : Owned L m d
  bound : x.sz.toNat < 2 ^ 31
  view : ∀ a, a < 2 ^ 31 → m.view d a = x.byte a
  below : ∀ u, u < 2 ^ 19 → pteP (m.walk d u) → 4096 * u < x.sz.toNat
  user : ∀ u, u < 2 ^ 19 → u ≠ g → pteP (m.walk d u) → allows (m.walk d u) true

theorem Image.zero_above (h : Image L d g x m) {a : Nat} (ha : a < 2 ^ 31)
    (habove : x.sz.toNat ≤ 4096 * (a / 4096))
    : x.byte a = 0 := by
  rw [← h.view a ha]
  unfold Mem.view
  rw [if_neg]
  intro hp
  have := h.below (a / 4096) (by omega) hp
  omega

theorem Image.allocs {v : Nat} (h : Image L d g x m) (hallocs : AllocsZero d (· = v) m m')
    (habsent : ¬ pteP (m.walk d v)) (hv : 4096 * v < x.sz.toNat)
    : Image L d g x m' := by
  refine ⟨hallocs.owned h.owned, h.bound, ?_, ?_, ?_⟩
  . intro a ha
    rw [(hallocs.brings h.owned habsent).view a ha]
    exact h.view a ha
  . intro u hu hp
    by_cases huv : u = v
    . rw [huv]
      exact hv
    . rw [hallocs.walk u (by omega) huv] at hp
      exact h.below u hu hp
  . intro u hu hg hp
    by_cases huv : u = v
    . exact hallocs.allows h.owned huv
    . rw [hallocs.walk u (by omega) huv] at hp ⊢
      exact h.user u hu hg hp

theorem Image.poke (h : Image L d g x m) (hva : va < x.sz) (hp : pteP (m.walk d (va.toNat / 4096)))
    (c : BitVec 8)
    : Image L d g (x.store va c) (m.poke d va c) := by
  have hbound := h.bound
  rw [BitVec.lt_def] at hva
  rcases poke_view (c := c) h.owned (by omega) hp with ⟨hpours, hview⟩
  refine ⟨hpours.owned h.owned, hbound, ?_, ?_, ?_⟩
  . intro a ha
    rw [hview a ha, h.view a ha]
    rfl
  . intro u hu
    rw [hpours.walk h.owned (by omega)]
    exact h.below u hu
  . intro u hu
    rw [hpours.walk h.owned (by omega)]
    exact h.user u hu

theorem Image.shrink (h : Image L d g x m) (hsize : InSize x.sz n) (hn : n.toInt < 0)
    : ∃ m', m.deallocuvm L d x.sz (x.sz + n) = .ok (x.sz + n, m') ∧ Image L d g (x.sbrk n) m' := by
  have hnew := hsize.toNat
  have hbound := h.bound
  rcases h.owned.deallocuvm x.sz (x.sz + n) (by omega) with ⟨m', hok, hfrees⟩
  rw [if_neg (by rw [ge_iff_le, BitVec.le_def]; omega)] at hok
  have hkept : ∀ u, u < 2 ^ 19 → pteP (m'.walk d u) →
      4096 * u < (x.sz + n).toNat ∧ m'.walk d u = m.walk d u := by
    intro u hu hp
    have hwalk := hfrees.walk u (by omega)
    split at hwalk
    . rw [hwalk] at hp
      contradiction
    next hP =>
      rw [hwalk] at hp
      have hlt := h.below u hu hp
      refine ⟨?_, hwalk⟩
      by_contra hge
      exact hP ⟨⟨by omega, hlt⟩, hp⟩
  refine ⟨m', hok, Frees.owned h.owned hfrees, ?_, ?_, ?_, ?_⟩
  . show (x.sz + n).toNat < 2 ^ 31
    omega
  . intro a ha
    rw [hfrees.view h.owned ha, h.view a ha]
    show _ = if (x.sz + n).toNat ≤ 4096 * (a / 4096) then 0 else x.byte a
    by_cases hlow : (x.sz + n).toNat ≤ 4096 * (a / 4096)
    . rw [if_pos hlow, ite_eq_left_iff]
      intro hhigh
      exact h.zero_above ha (by omega)
    . rw [if_neg hlow, if_neg (fun hc => hlow hc.1)]
  . intro u hu hp
    exact (hkept u hu hp).1
  . intro u hu hg hp
    have heq := (hkept u hu hp).2
    rw [heq] at hp ⊢
    exact h.user u hu hg hp

theorem Image.grow (h : Image L d g x m) (hsize : InSize x.sz n) (hn : 0 ≤ n.toInt)
    : Image L d g (x.sbrk n) m := by
  have hnew := hsize.toNat
  have hlt := hsize.2
  refine ⟨h.owned, ?_, ?_, ?_, h.user⟩
  . show (x.sz + n).toNat < 2 ^ 31
    omega
  . intro a ha
    rw [h.view a ha]
    show _ = if (x.sz + n).toNat ≤ 4096 * (a / 4096) then 0 else x.byte a
    rw [eq_comm, ite_eq_right_iff]
    intro hlow
    rw [h.zero_above ha (by omega)]
  . intro u hu hp
    show 4096 * u < (x.sz + n).toNat
    have := h.below u hu hp
    omega

end Mem

namespace VmSys

variable {L : Layout} {s : VmSys} {p : ProcId} {d va n : BitVec 32} {write : Bool} {g : Nat}
  {x : UserMem}

theorem pteP_of_allows {w : BitVec 32} (h : allows w write) : pteP w := by
  unfold allows at h
  simp_all

structure Holds (L : Layout) (p : ProcId) (d : BitVec 32) (g : Nat) (x : UserMem) (s : VmSys) : Prop where
  pgdir : (s.proc p).pgdir = some d
  alive : (s.proc p).killed = false
  sz : (s.proc p).sz = x.sz
  image : Mem.Image L d g x s.mem

theorem reach_of_allows (hd : (s.proc p).pgdir = some d)
    (h : allows (s.mem.walk d (va.toNat / 4096)) true) (fuel : Nat)
    : reach L p va write (fuel + 1) s = .ok (true, s) := by
  have hallows : allows (s.mem.walk d (va.toNat / 4096)) write := by
    unfold allows at h ⊢
    simp_all
  unfold reach
  rw [pgdir_eq hd, Fold.ok_bind, Mem.pte_eq_walk]
  dsimp only
  rw [if_pos hallows]
  rfl

theorem Holds.userPgflt (h : Holds L p d g x s) (hlt : va.toNat < x.sz.toNat)
    (hp : ¬ pteP (s.mem.walk d (va.toNat / 4096))) (hmem : s.mem.Has 2)
    : ∃ t, s.userPgflt L p va (errcode (s.mem.walk d (va.toNat / 4096)) write) = .ok t ∧
        Holds L p d g x t ∧ allows (t.mem.walk d (va.toNat / 4096)) true := by
  have hbound := h.image.bound
  have hdown : pgrounddown va < (s.proc p).sz := by
    rw [BitVec.lt_def, pgrounddown_toNat, h.sz]
    omega
  rcases hmem.kalloc with ⟨pa, m₁, hkalloc, hm₁⟩
  rcases trapPgflt_absent h.image.owned h.pgdir (by rw [h.sz]; omega) (errcode_absent hp write) rfl
    hdown hp hkalloc (s.mem.denied.length + 1) with ⟨r, m, hmap, htrue, _⟩
  have hzeroed : (m₁.memset pa 0).Has 1 := hm₁.of_eq rfl rfl
  rcases htrue (hzeroed.mappages (by omega) hmap).1 with ⟨htrap, hallocs⟩
  refine ⟨{ s with mem := m }, ?_, ⟨h.pgdir, h.alive, h.sz, ?_⟩, hallocs.allows h.image.owned rfl⟩
  . unfold VmSys.userPgflt
    rw [htrap, Fold.ok_bind]
    dsimp only
    rw [h.alive]
    rfl
  . exact h.image.allocs hallocs hp (by omega)

theorem Holds.reach (h : Holds L p d g x s) (hlt : va < x.sz) (hg : va.toNat / 4096 ≠ g)
    (hmem : pteP (s.mem.walk d (va.toNat / 4096)) ∨ s.mem.Has 2) (write : Bool)
    : ∃ t, VmSys.reach L p va write 2 s = .ok (true, t) ∧ Holds L p d g x t ∧
        pteP (t.mem.walk d (va.toNat / 4096)) := by
  have hbound := h.image.bound
  rw [BitVec.lt_def] at hlt
  by_cases hp : pteP (s.mem.walk d (va.toNat / 4096))
  . have hallows := h.image.user _ (by omega) hg hp
    exact ⟨s, reach_of_allows h.pgdir hallows 1, h, hp⟩
  . rcases h.userPgflt hlt hp (hmem.resolve_left hp) with ⟨t, hfault, hholds, hallows⟩
    refine ⟨t, ?_, hholds, pteP_of_allows hallows⟩
    have hdenied : ¬ allows (s.mem.walk d (va.toNat / 4096)) write :=
      fun hc => hp (pteP_of_allows hc)
    unfold VmSys.reach
    rw [pgdir_eq h.pgdir, Fold.ok_bind, Mem.pte_eq_walk]
    dsimp only
    rw [if_neg hdenied, hfault, Fold.ok_bind, hholds.alive, if_neg Bool.false_ne_true]
    exact reach_of_allows hholds.pgdir hallows 0

theorem slt_zero (n : BitVec 32) : BitVec.slt n 0 = true ↔ n.toInt < 0 := by
  simp [BitVec.slt]

theorem Holds.sysSbrk (h : Holds L p d g x s) (hsize : InSize x.sz n)
    : ∃ t, s.sysSbrk L p n = .ok (x.sz, t) ∧ Holds L p d g (x.sbrk n) t := by
  have hresize : ∀ m, Mem.Image L d g (x.sbrk n) m →
      Holds L p d g (x.sbrk n) { s.modifyProc p ({ · with sz := x.sz + n }) with mem := m } := by
    intro m himage
    refine ⟨?_, ?_, ?_, himage⟩
    . simpa using h.pgdir
    . simpa using h.alive
    . simp [UserMem.sbrk]
  unfold VmSys.sysSbrk
  simp only [h.sz]
  split
  next hneg =>
    rcases h.image.shrink hsize ((slt_zero n).mp hneg) with ⟨m, hok, himage⟩
    rw [pgdir_eq (d := d) (by simpa using h.pgdir), Fold.ok_bind, modifyProc_mem, hok, Fold.ok_bind]
    exact ⟨_, rfl, hresize m himage⟩
  next hneg =>
    rw [slt_zero, not_lt] at hneg
    exact ⟨_, rfl, hresize s.mem (h.image.grow hsize hneg)⟩

-- The arguments are in range, and kalloc does not fail.
def Able (g : Nat) (s : VmSys) (p : ProcId) : Access → Prop
  | .sbrk n => InSize (s.proc p).sz n
  | .load va | .store va _ => va < (s.proc p).sz ∧ va.toNat / 4096 ≠ g ∧
      ∀ d, (s.proc p).pgdir = some d → pteP (s.mem.walk d (va.toNat / 4096)) ∨ s.mem.Has 2

def AllAble (L : Layout) (g : Nat) (p : ProcId) : VmSys → List Access → Prop
  | _, [] => True
  | s, e :: es => s.Able g p e ∧ ∀ r t, s.access L p e = .ok (r, t) → AllAble L g p t es

theorem Holds.access {e : Access} (h : Holds L p d g x s) (hable : s.Able g p e)
    : ∃ t, s.access L p e = .ok (some (x.access e).1, t) ∧ Holds L p d g (x.access e).2 t := by
  cases e with
  | sbrk n =>
    have hsize : InSize (s.proc p).sz n := hable
    rw [h.sz] at hsize
    rcases h.sysSbrk hsize with ⟨t, hok, hholds⟩
    refine ⟨t, ?_, hholds⟩
    unfold VmSys.access
    dsimp only
    rw [h.alive, if_neg Bool.false_ne_true, hok, Fold.ok_bind]
    rfl
  | load va =>
    rcases hable with ⟨hlt, hg, hmem⟩
    rw [h.sz] at hlt
    rcases h.reach hlt hg (hmem d h.pgdir) false with ⟨t, hreach, hholds, _⟩
    refine ⟨t, ?_, hholds⟩
    have hbound := h.image.bound
    rw [BitVec.lt_def] at hlt
    unfold VmSys.access
    dsimp only
    rw [hreach, Fold.ok_bind]
    dsimp only
    rw [if_pos rfl, pgdir_eq hholds.pgdir, Fold.ok_bind, Mem.peek_eq_view,
      hholds.image.view _ (by omega)]
    rfl
  | store va c =>
    rcases hable with ⟨hlt, hg, hmem⟩
    rw [h.sz] at hlt
    rcases h.reach hlt hg (hmem d h.pgdir) true with ⟨t, hreach, hholds, hpresent⟩
    refine ⟨{ t with mem := t.mem.poke d va c }, ?_, ⟨hholds.pgdir, hholds.alive, hholds.sz,
      hholds.image.poke hlt hpresent c⟩⟩
    unfold VmSys.access
    dsimp only
    rw [hreach, Fold.ok_bind]
    dsimp only
    rw [if_pos rfl, pgdir_eq hholds.pgdir, Fold.ok_bind]
    rfl

theorem Holds.accesses {es : List Access} (h : Holds L p d g x s) (hable : AllAble L g p s es)
    : ∃ t, VmSys.accesses L p s es = .ok ((x.accesses es).1, t) ∧
        Holds L p d g (x.accesses es).2 t := by
  induction es generalizing s x with
  | nil => exact ⟨s, rfl, h⟩
  | cons e es ih =>
    rcases h.access hable.1 with ⟨t, ht, hholds⟩
    rcases ih hholds (hable.2 _ t ht) with ⟨u, hu, hres⟩
    refine ⟨u, ?_, hres⟩
    rw [VmSys.accesses, ht, Fold.ok_bind]
    dsimp only
    rw [hu, Fold.ok_bind]
    rfl

/--
As long as there is memory, no access kills the process, and each returns what it returns on a memory
that is there as a whole. Above the size no page is there, and user code can write all pages below it
that are there, but for the page `g`.
-/
theorem lazy_refines_memory {es : List Access} (howned : Mem.Owned L s.mem d)
    (hd : (s.proc p).pgdir = some d) (halive : (s.proc p).killed = false)
    (hsz : (s.proc p).sz.toNat < 2 ^ 31)
    (hbelow : ∀ u, u < 2 ^ 19 → pteP (s.mem.walk d u) → 4096 * u < (s.proc p).sz.toNat)
    (huser : ∀ u, u < 2 ^ 19 → u ≠ g → pteP (s.mem.walk d u) → allows (s.mem.walk d u) true)
    (hable : AllAble L g p s es)
    : ∃ rs x t, (⟨(s.proc p).sz, s.mem.view d⟩ : UserMem).accesses es = (rs, x) ∧
        accesses L p s es = .ok (rs, t) ∧ (t.proc p).killed = false ∧ (t.proc p).sz = x.sz ∧
        (∀ a, a < 2 ^ 31 → t.mem.view d a = x.byte a) ∧
        ∀ u, u < 2 ^ 19 → pteP (t.mem.walk d u) →
          4096 * u < x.sz.toNat ∧ (u ≠ g → allows (t.mem.walk d u) true) := by
  have hholds : Holds L p d g ⟨(s.proc p).sz, s.mem.view d⟩ s :=
    ⟨hd, halive, rfl, howned, hsz, fun _ _ => rfl, hbelow, huser⟩
  rcases hholds.accesses hable with ⟨t, ht, hres⟩
  refine ⟨_, _, t, rfl, ht, hres.alive, hres.sz, hres.image.view, ?_⟩
  intro u hu hp
  exact ⟨hres.image.below u hu hp, fun hg => hres.image.user u hu hg hp⟩

def ample : VmSys :=
  laid 0x3000 0x403007 0x404003 0x405007 [0x406000, 0x407000]

theorem lazy_refines_memory_ample
    : ∃ t, accesses smallLayout 0 ample [.sbrk 4096, .store 0x3000 7] = .ok ([0x3000, 0], t) ∧
        t.mem.view 0x400000 0x3000 = 7 := by
  have hinv : Inv smallLayout ample := by
    apply laid_inv
      (l := [0x406000, 0x407000, 0x401000, 0x400000, 0x402000, 0x403000, 0x404000, 0x405000])
    . decide
    . decide
    . decide
    . simp
  have hwalk : ∀ u, pteP (ample.mem.walk 0x400000 u) → u < 3 ∧
      (u ≠ 1 → allows (ample.mem.walk 0x400000 u) true) := by
    intro u hp
    rw [show ample.mem.walk 0x400000 u = _ from laid_walk _ _ _ _ _ u] at hp ⊢
    by_cases hu : u < 3
    . interval_cases u <;> decide
    . rw [if_neg (by omega), if_neg (by omega), if_neg (by omega)] at hp
      contradiction
  have hable : AllAble smallLayout 1 0 ample [.sbrk 4096, .store 0x3000 7] := by
    refine ⟨⟨by decide, by decide⟩, ?_⟩
    intro r t ht
    cases ht
    exact ⟨⟨by decide, by decide, fun _ _ => .inr ⟨by decide, by decide⟩⟩, fun _ _ _ => trivial⟩
  rcases lazy_refines_memory (hinv.owned (p := 0) (by decide) rfl) rfl rfl (by decide)
    (fun u _ hp => Nat.mul_lt_mul_of_pos_left (hwalk u hp).1 (by decide))
    (fun u _ hg hp => (hwalk u hp).2 hg) hable with ⟨rs, x, t, hx, hok, _, _, hview, _⟩
  cases hx
  exact ⟨t, hok, hview 0x3000 (by decide)⟩

end VmSys
end Xv6
