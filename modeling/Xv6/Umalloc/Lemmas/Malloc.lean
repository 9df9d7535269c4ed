import Xv6.Umalloc.Lemmas.Free
import Xv6.Data.Transition

/-!
`malloc` takes a block from the free list or cuts its tail off, and asks `sbrk` for more memory at
most once: the list then has a block that is large enough.
-/

namespace Xv6
namespace Heap

open Cycle Tiling

section

variable {base : Nat} {h : Heap} {fl live : List Nat}

/-! Taking a block. -/

theorem Inv.reposition {h' : Heap} (i : Inv base h fl live) (hptr : h'.ptr = h.ptr)
    (hsize : h'.size = h.size) (hregions : h'.regions = h.regions) {f : Nat} (hf : f ∈ base :: fl)
    (hfreep : h'.freep = some f)
    : Inv base h' fl live := by
  cases h'
  subst hptr hsize hregions
  exact ⟨⟨i.cycle, i.base_size, i.sorted, i.above, i.pos, i.cover, i.regions⟩, i.gap, f, hf, hfreep⟩

theorem take_whole {l₁ l₂ : List Nat} {z prev : Nat} (i : Inv base h (l₁ ++ z :: l₂) live)
    (hprev : prev ∈ base :: (l₁ ++ z :: l₂)) (hnext : h.ptr prev = z)
    : Inv base { h.setPtr prev (h.ptr z) with freep := some prev } (l₁ ++ l₂) (z :: live) := by
  have heq := i.cycle.eq_pred_of_next hprev hnext
  have hperm : (l₁ ++ l₂ ++ z :: live).Perm (l₁ ++ z :: l₂ ++ live) :=
    (perm_insert l₁ l₂ live z).symm
  have hsub : ∀ a ∈ l₁ ++ l₂, a ∈ l₁ ++ z :: l₂ := fun a ha => mem_insert_iff.mpr (.inr ha)
  subst heq
  refine ⟨⟨i.cycle.remove, i.base_size, ?_, ?_, ?_, ?_, i.regions⟩, ?_, _, ?_, rfl⟩
  . have hsub := (List.Sublist.refl l₁).append (List.sublist_cons_self z l₂)
    exact i.sorted.sublist (hsub.cons_cons base)
  . intro a ha
    rcases List.mem_cons.mp ha with rfl | ha
    . exact i.base_lt (by simp)
    . exact i.above a ha
  . intro a ha
    exact i.pos a (hperm.mem_iff.mp ha)
  . intro x
    exact (cover_perm (hperm.map h.block) x).trans (i.cover x)
  . intro a ha hmem
    exact i.gap a (hsub a ha) (hsub _ hmem)
  . rw [← List.cons_append]
    exact List.mem_append_left l₂ List.getLastD_mem_cons

theorem take_tail {l₁ l₂ : List Nat} {z z' prev n : Nat} (i : Inv base h (l₁ ++ z :: l₂) live)
    (hprev : prev ∈ base :: (l₁ ++ z :: l₂)) (hn : 0 < n) (hlt : n < h.size z)
    (hz' : z' = z + HEADER * (h.size z - n))
    : Inv base { (h.setSize z (h.size z - n)).setSize z' n with freep := some prev }
        (l₁ ++ z :: l₂) (z' :: live) := by
  have hz : z ∈ l₁ ++ z :: l₂ ++ live := by simp
  have hmul : HEADER * h.size z = HEADER * (h.size z - n) + HEADER * n := by
    rw [← Nat.mul_add]
    congr 1
    omega
  have hpos1 : 0 < HEADER * (h.size z - n) := Nat.mul_pos (by decide) (by omega)
  have hpos2 : 0 < HEADER * n := Nat.mul_pos (by decide) hn
  have hne : z ≠ z' := by omega
  -- the new header lies inside the block, so it is none of the others
  have hnew : z' ∉ l₁ ++ z :: l₂ ++ live := by
    intro hmem
    have := i.apart hz hmem hne
    have := i.lt_end hmem
    omega
  have hbase : base < z := i.base_lt hz
  generalize hk : { (h.setSize z (h.size z - n)).setSize z' n with freep := some prev } = k
  have hptr : k.ptr = h.ptr := by
    rw [← hk]
    rfl
  have hregions : k.regions = h.regions := by
    rw [← hk]
    rfl
  have hkz : k.size z = h.size z - n := by
    rw [← hk]
    exact (Function.update_of_ne hne _ _).trans (Function.update_self _ _ _)
  have hkz' : k.size z' = n := by
    rw [← hk]
    exact Function.update_self _ _ _
  have hsize : ∀ a, a ≠ z → a ≠ z' → k.size a = h.size a := by
    intro a h1 h2
    rw [← hk]
    exact (Function.update_of_ne h2 _ _).trans (Function.update_of_ne h1 _ _)
  have hfl : ∀ a ∈ l₁ ++ z :: l₂ ++ live, a ≠ z' := fun a ha heq => hnew (heq ▸ ha)
  refine ⟨⟨hptr ▸ i.cycle, ?_, i.sorted, ?_, ?_, ?_, hregions ▸ i.regions⟩, ?_, prev, hprev, ?_⟩
  . rw [hsize base (by omega) (by omega)]
    exact i.base_size
  . intro a ha
    rcases List.mem_cons.mp ha with rfl | ha
    . omega
    . exact i.above a ha
  . intro a ha
    rcases mem_insert_iff.mp ha with rfl | ha
    . omega
    . by_cases haz : a = z
      . subst haz
        omega
      . rw [hsize a haz (hfl a ha)]
        exact i.pos a ha
  . intro x
    have hmid : (l₁ ++ l₂ ++ z' :: live).Perm (z' :: (l₁ ++ l₂ ++ live)) := List.perm_middle
    have hfront := (perm_front l₁ l₂ (z' :: live) z).trans (hmid.cons z)
    have hfront' := perm_front l₁ l₂ live z
    have hnd := List.nodup_cons.mp (hfront'.nodup_iff.mp i.nodup)
    have hrest : k.blocks (l₁ ++ l₂ ++ live) = h.blocks (l₁ ++ l₂ ++ live) := by
      apply blocks_congr
      intro a ha
      apply hsize a
      . intro heq
        exact hnd.1 (heq ▸ ha)
      . exact hfl a (hfront'.mem_iff.mpr (List.mem_cons_of_mem z ha))
    rw [hregions, ← i.cover x]
    calc Tiling.cover (k.blocks (l₁ ++ z :: l₂ ++ z' :: live)) x
      _ = Tiling.cover (k.blocks (z :: z' :: (l₁ ++ l₂ ++ live))) x := cover_perm (hfront.map _) x
      _ = mark (z, HEADER * (h.size z - n)) x
            + (mark (z', HEADER * n) x + Tiling.cover (h.blocks (l₁ ++ l₂ ++ live)) x) := by
        rw [blocks_cons, blocks_cons, hrest, hkz, hkz', cover_cons, cover_cons]
      _ = Tiling.cover (h.blocks (z :: (l₁ ++ l₂ ++ live))) x := by
        rw [blocks_cons, cover_cons, hmul, mark_add, ← hz', Nat.add_assoc]
      _ = Tiling.cover (h.blocks (l₁ ++ z :: l₂ ++ live)) x := (cover_perm (hfront'.map _) x).symm
  . intro a ha hmem
    by_cases haz : a = z
    . rw [haz, hkz, ← hz'] at hmem
      exact hnew (List.mem_append_left live hmem)
    . rw [hsize a haz (hfl a (List.mem_append_left live ha))] at hmem
      exact i.gap a ha hmem
  . rw [← hk]

theorem take_spec {z prev n : Nat} (i : Inv base h fl live) (hz : z ∈ fl)
    (hprev : prev ∈ base :: fl) (hnext : h.ptr prev = z) (hn : 0 < n) (hle : n ≤ h.size z)
    : ∃ fl', Inv base (h.take n prev z).2 fl' (((h.take n prev z).1 - HEADER) :: live) := by
  rcases List.append_of_mem hz with ⟨l₁, l₂, rfl⟩
  rw [take]
  split
  . next heq =>
    refine ⟨l₁ ++ l₂, ?_⟩
    rw [Nat.add_sub_cancel]
    exact take_whole i hprev hnext
  . next hne =>
    refine ⟨l₁ ++ z :: l₂, ?_⟩
    simp only [Nat.add_sub_cancel]
    exact take_tail i hprev hn (by omega) (by simp [setSize])

theorem take_size {z prev n : Nat}
    : (h.take n prev z).2.size ((h.take n prev z).1 - HEADER) = n := by
  rw [take]
  split
  . next heq =>
    rw [Nat.add_sub_cancel]
    exact heq
  . simp only [Nat.add_sub_cancel]
    exact Function.update_self _ _ _

theorem take_size_of_ne {z prev n a : Nat} (hz : a ≠ z) (hnew : a ≠ (h.take n prev z).1 - HEADER)
    : (h.take n prev z).2.size a = h.size a := by
  rw [take] at hnew ⊢
  split
  . rfl
  . next hne =>
    rw [if_neg hne] at hnew
    simp only [Nat.add_sub_cancel] at hnew ⊢
    exact (Function.update_of_ne hnew _ _).trans (Function.update_of_ne hz _ _)

theorem take_ledger (h : Heap) (n prev z : Nat)
    : (h.take n prev z).2.requests = h.requests ∧ (h.take n prev z).2.regions = h.regions := by
  rw [take]
  split <;> exact ⟨rfl, rfl⟩

/-! More memory. -/

-- A block starts in memory that has been obtained, hence below what is fresh.
theorem Tiled.lt_fresh {p n a : Nat} (t : Tiled base h fl live)
    (hfresh : HeapSys.Fresh base h.regions p n) (ha : a ∈ fl ++ live)
    : a < p := by
  have hcover : 0 < Tiling.cover h.regions a := by
    rw [← t.cover a]
    exact cover_pos_iff.mpr ⟨h.block a, List.mem_map_of_mem ha, Nat.le_refl a, t.lt_end ha⟩
  rcases cover_pos_iff.mp hcover with ⟨r, hr, _, hlt⟩
  have := hfresh.above_regions r hr
  omega

/-- The state in which `morecore` frees the block that `sbrk` returned. -/
def grown (h : Heap) (rest : List (Option Nat)) (p nu : Nat) : Heap :=
  ({ h with
      answers := rest
      regions := h.regions ++ [(p, nu * HEADER)]
      requests := h.requests ++ [(BitVec.ofNat 32 (nu * HEADER)).toInt]
      brk := p + nu * HEADER }).setSize p nu

theorem grown_inv {p nu : Nat} (rest : List (Option Nat)) (i : Inv base h fl live) (hnu : 0 < nu)
    (hfresh : HeapSys.Fresh base h.regions p (nu * HEADER))
    : Inv base (h.grown rest p nu) fl (p :: live) := by
  have hbase : base < p :=
    Nat.lt_of_lt_of_le (Nat.lt_add_of_pos_right (by decide)) hfresh.above_base
  have hsize : ∀ a, a < p → (h.grown rest p nu).size a = h.size a := fun a ha =>
    Function.update_of_ne (by omega) _ _
  have hp : (h.grown rest p nu).size p = nu := Function.update_self _ _ _
  have hlt : ∀ a ∈ fl ++ live, a < p := fun a ha => i.lt_fresh hfresh ha
  have hfl : ∀ a ∈ fl, (h.grown rest p nu).size a = h.size a := fun a ha =>
    hsize a (hlt a (List.mem_append_left live ha))
  refine ⟨⟨i.cycle, ?_, i.sorted, ?_, ?_, ?_, ?_⟩, ?_, i.freep⟩
  . exact (hsize base (by omega)).trans i.base_size
  . intro a ha
    rcases List.mem_cons.mp ha with rfl | ha
    . omega
    . exact i.above a ha
  . intro a ha
    rcases mem_insert_iff.mp ha with rfl | ha
    . omega
    . rw [hsize a (hlt a ha)]
      exact i.pos a ha
  . intro x
    have hrest : (h.grown rest p nu).blocks (fl ++ live) = h.blocks (fl ++ live) :=
      blocks_congr fun a ha => hsize a (hlt a ha)
    calc Tiling.cover ((h.grown rest p nu).blocks (fl ++ p :: live)) x
      _ = Tiling.cover ((h.grown rest p nu).blocks (p :: (fl ++ live))) x :=
        cover_perm (List.perm_middle.map _) x
      _ = mark (p, nu * HEADER) x + Tiling.cover h.regions x := by
        rw [blocks_cons, hrest, hp, cover_cons, i.cover, Nat.mul_comm]
      _ = Tiling.cover (h.regions ++ [(p, nu * HEADER)]) x := by
        rw [cover_append, cover_cons, cover_nil, Nat.add_zero, Nat.add_comm]
  . exact cover_concat_le_one i.regions hfresh.above_regions
  . intro a ha
    rw [hfl a ha]
    exact i.gap a ha

theorem coreUnits_pos (nu : Nat)
    : 0 < coreUnits nu := by
  rw [coreUnits]
  split <;> omega

theorem le_coreUnits (nu : Nat)
    : nu ≤ coreUnits nu := by
  rw [coreUnits]
  split <;> omega

theorem morecore_mono {nu m n : Nat} {r : Option Nat × Heap} (hle : m ≤ n)
    (h1 : h.morecore m nu = .ok r)
    : h.morecore n nu = .ok r := by
  simp only [morecore] at h1 ⊢
  split
  . next k hk =>
    rw [hk] at h1
    exact h1
  . next hp k hk =>
    simp only [hk] at h1
    split
    . next hstore =>
      rw [if_pos hstore] at h1
      rcases Fold.bind_eq_ok h1 with ⟨k', hk', h1⟩
      rw [free_mono hle hk']
      exact h1
    . next hstore =>
      rw [if_neg hstore] at h1
      cases h1

/-- What `sbrk` answers next is fresh memory, if it has any. -/
def Supplied (base : Nat) (h : Heap) (nu : Nat) : Prop :=
  ∀ p, h.answers.head? = some (some p) → HeapSys.Fresh base h.regions p (coreUnits nu * HEADER)

/-- What `morecore` asks `sbrk` for. -/
def request (nu : Nat) : Int := (BitVec.ofNat 32 (coreUnits nu * HEADER)).toInt

def refused (h : Heap) (nu : Nat) : Heap :=
  { h with answers := h.answers.tail, requests := h.requests ++ [request nu] }

def Obtains (nu : Nat) (h h' : Heap) : Prop :=
  ∃ added, h'.regions = h.regions ++ added ∧ ∀ g ∈ added, g.2 = coreUnits nu * HEADER

theorem Obtains.of_eq {nu : Nat} {h' : Heap} (hregions : h'.regions = h.regions) : Obtains nu h h' :=
  ⟨[], by rw [hregions, List.append_nil], nofun⟩

-- the sum of the end of the process and of what is asked for does not wrap around
theorem morecore_grown {p nu : Nat} {rest : List (Option Nat)} (hans : h.answers = some p :: rest)
    (hlt : p + coreUnits nu * HEADER < 2 ^ 32) (fuel : Nat)
    : h.morecore fuel nu = (do
        let h' ← (h.grown rest p (coreUnits nu)).free fuel (p + HEADER)
        return (h'.freep, h')) := by
  have hpos : 0 < coreUnits nu * HEADER := Nat.mul_pos (coreUnits_pos nu) (by decide)
  have hn : (BitVec.ofNat 32 (coreUnits nu * HEADER)).toNat = coreUnits nu * HEADER := by
    rw [BitVec.toNat_ofNat, Nat.mod_eq_of_lt (by omega)]
  have hmod : (p + coreUnits nu * HEADER) % 2 ^ 32 = p + coreUnits nu * HEADER := Nat.mod_eq_of_lt hlt
  simp only [morecore, sbrk, hans, hn, hmod]
  rw [if_pos (by omega), if_pos (by omega), Nat.add_sub_cancel_left]
  rfl

theorem morecore_spec {nu : Nat} (i : Inv base h fl live) (hok : Supplied base h nu)
    : ((∀ p, h.answers.head? ≠ some (some p)) ∧
        ∃ h', (∀ fuel, h.morecore fuel nu = .ok (none, h')) ∧ Inv base h' fl live ∧
          h'.size = h.size ∧ Obtains nu h h')
        ∨
      (∃ p, h.answers.head? = some (some p)) ∧
        ∃ fuel h' fl' f,
          h.morecore fuel nu = .ok (some f, h') ∧ h'.freep = some f ∧ Inv base h' fl' live ∧
            (∃ a ∈ fl', nu ≤ h'.size a) ∧ (∀ a ∈ live, h'.size a = h.size a) ∧ Obtains nu h h' := by
  rcases i.freep with ⟨f, hf, hfreep⟩
  rcases hans : h.answers with _ | ⟨_ | p, rest⟩
  . refine .inl ⟨nofun, h.refused nu, fun fuel => ?_, i.reposition rfl rfl rfl hf hfreep, rfl,
      .of_eq rfl⟩
    simp only [morecore, sbrk, refused, hans]
    rfl
  . refine .inl ⟨nofun, h.refused nu, fun fuel => ?_, i.reposition rfl rfl rfl hf hfreep, rfl,
      .of_eq rfl⟩
    simp only [morecore, sbrk, refused, hans]
    rfl
  . have hfresh := hok p (by rw [hans]; rfl)
    have hgrown := grown_inv rest i (coreUnits_pos nu) hfresh
    rcases free_spec hgrown with ⟨fuel, h', fl', hfree, hinv, a, ha, hbig⟩
    rcases hinv.freep with ⟨f', _, hfreep'⟩
    have hbig' : coreUnits nu ≤ h'.size a := by
      rw [← show (h.grown rest p (coreUnits nu)).size p = coreUnits nu from
        Function.update_self _ _ _]
      exact hbig
    have hsizes : ∀ a ∈ live, h'.size a = h.size a := by
      intro a ha
      have hlt := i.lt_fresh hfresh (List.mem_append_right fl ha)
      rw [free_size_of_live hgrown hfree hinv ha]
      exact Function.update_of_ne (Nat.ne_of_lt hlt) _ _
    refine .inr ⟨⟨p, rfl⟩, fuel, h', fl', f', ?_, hfreep', hinv,
      ⟨a, ha, Nat.le_trans (le_coreUnits nu) hbig'⟩, hsizes, [(p, coreUnits nu * HEADER)],
      (free_size_of_ne hfree).1.2, by simp⟩
    rw [morecore_grown hans hfresh.in_memory, hfree, Fold.ok_bind, hfreep']
    rfl

/-! The loop of `malloc`. -/

theorem mallocLoop_mono {nunits m n prevp p : Nat} {r : Option Nat × Heap} (hle : m ≤ n)
    (h1 : mallocLoop nunits m h prevp p = .ok r)
    : mallocLoop nunits n h prevp p = .ok r := by
  induction m generalizing n h prevp p with
  | zero => cases h1
  | succ m ih =>
    cases n with
    | zero => omega
    | succ n =>
      rw [mallocLoop] at h1 ⊢
      split
      . next hbig =>
        rw [if_pos hbig] at h1
        exact h1
      . next hbig =>
        rw [if_neg hbig] at h1
        split
        . next heq =>
          rw [if_pos heq] at h1
          rcases Fold.bind_eq_ok h1 with ⟨⟨q, k⟩, hk, h1⟩
          rw [morecore_mono (by omega) hk, Fold.ok_bind]
          cases q with
          | none => exact h1
          | some q => exact ih (by omega) h1
        . next hne =>
          rw [if_neg hne] at h1
          exact ih (by omega) h1

-- With a large enough block on the way to `freep`, the loop takes the first one.
theorem mallocLoop_found {nunits f a : Nat} {l : List Nat} (hpath : Path h.ptr a l f)
    (hfreep : h.freep = some f) (hf : f ∉ l) (hbig : ∃ y ∈ l ++ [f], nunits ≤ h.size y)
    : ∃ fuel prev z,
        mallocLoop nunits fuel h a (h.ptr a)
          =
        .ok (some (h.take nunits prev z).1, (h.take nunits prev z).2)
          ∧
        prev ∈ a :: l ∧ h.ptr prev = z ∧ nunits ≤ h.size z := by
  induction l generalizing a with
  | nil =>
    have hnext : h.ptr a = f := hpath
    rcases hbig with ⟨y, hy, hbig⟩
    rcases List.mem_singleton.mp hy with rfl
    refine ⟨1, a, y, ?_, by simp, hnext, hbig⟩
    rw [mallocLoop, hnext, if_pos hbig]
  | cons x l ih =>
    by_cases hx : nunits ≤ h.size x
    . refine ⟨1, a, x, ?_, by simp, hpath.1, hx⟩
      rw [mallocLoop, hpath.1, if_pos hx]
    . have hne : h.freep ≠ some x := by
        rw [hfreep]
        intro heq
        exact hf (by simp [Option.some.inj heq])
      have hbig' : ∃ y ∈ l ++ [f], nunits ≤ h.size y := by
        rcases hbig with ⟨y, hy, hbig⟩
        rcases List.mem_cons.mp hy with rfl | hy
        . contradiction
        . exact ⟨y, hy, hbig⟩
      rcases ih hpath.2 (fun hmem => hf (by simp [hmem])) hbig' with ⟨fuel, prev, z, hr, hprev, h2⟩
      refine ⟨fuel + 1, prev, z, ?_, List.mem_cons_of_mem a hprev, h2⟩
      rw [mallocLoop, hpath.1, if_neg hx, if_neg hne]
      exact hr

-- Without one it arrives at `freep` and asks for more memory.
theorem mallocLoop_around {nunits f a : Nat} {l : List Nat} (hpath : Path h.ptr a l f)
    (hfreep : h.freep = some f) (hf : f ∉ l) (hsmall : ∀ y ∈ l ++ [f], ¬nunits ≤ h.size y)
    (fuel : Nat)
    : ∃ prev,
        mallocLoop nunits (fuel + l.length + 1) h a (h.ptr a)
          =
        mallocLoop nunits (fuel + 1) h prev f := by
  induction l generalizing a with
  | nil => exact ⟨a, by rw [show h.ptr a = f from hpath]; rfl⟩
  | cons x l ih =>
    have hne : h.freep ≠ some x := by
      rw [hfreep]
      intro heq
      exact hf (by simp [Option.some.inj heq])
    rcases ih hpath.2 (fun hmem => hf (by simp [hmem]))
      (fun y hy => hsmall y (List.mem_cons_of_mem x hy)) with ⟨prev, hr⟩
    refine ⟨prev, ?_⟩
    rw [List.length_cons, ← Nat.add_assoc, mallocLoop, hpath.1, if_neg (hsmall x (by simp)),
      if_neg hne]
    exact hr

/-- The blocks that are live after `malloc` has returned `r`. -/
def granted (live : List Nat) : Option Nat → List Nat
  | none => live
  | some ap => (ap - HEADER) :: live

structure Served (base : Nat) (h : Heap) (live : List Nat) (nunits : Nat) (r : Option Nat × Heap)
    : Prop where
  inv : ∃ fl, Inv base r.2 fl (granted live r.1)
  sizes : ∀ a ∈ live, r.2.size a = h.size a
  obtains : Obtains nunits h r.2

theorem mallocLoop_big {nunits f : Nat} (i : Inv base h fl live) (hfreep : h.freep = some f)
    (hn : 0 < nunits) (hbig : ∃ y ∈ fl, nunits ≤ h.size y)
    : ∃ fuel r, mallocLoop nunits fuel h f (h.ptr f) = .ok r ∧ Served base h live nunits r ∧
        r.1 ≠ none ∧ r.2.requests = h.requests ∧ r.2.regions = h.regions := by
  rcases i.freep with ⟨f', hf, hf'⟩
  rcases hfreep.symm.trans hf' with ⟨rfl⟩
  rcases i.cycle.enter hf with ⟨l, hcycle, hiff⟩
  have hbig' : ∃ y ∈ l ++ [f], nunits ≤ h.size y := by
    rcases hbig with ⟨y, hy, hbig⟩
    refine ⟨y, ?_, hbig⟩
    have := (hiff y).mpr (List.mem_cons_of_mem base hy)
    simpa [or_comm] using this
  rcases mallocLoop_found hcycle.path hfreep (List.nodup_cons.mp hcycle.nodup).1 hbig' with
    ⟨fuel, prev, z, hr, hprev, hnext, hbig⟩
  have hprev := (hiff prev).mp hprev
  have hz : z ∈ fl := by
    rcases List.mem_cons.mp (hnext ▸ i.cycle.next_mem hprev) with rfl | hz
    . rw [i.base_size] at hbig
      omega
    . exact hz
  rcases take_spec i hz hprev hnext hn hbig with ⟨fl', hinv⟩
  have hledger := take_ledger h nunits prev z
  refine ⟨fuel, _, hr, ⟨⟨fl', hinv⟩, ?_, .of_eq hledger.2⟩, Option.some_ne_none _, hledger⟩
  intro a ha
  apply take_size_of_ne
  . rintro rfl
    exact i.notMem_of_live ha (List.mem_cons_of_mem base hz)
  . rintro rfl
    exact (List.nodup_cons.mp (List.nodup_append.mp hinv.nodup).2.1).1 ha

-- without a large enough block the loop comes to `morecore`
theorem mallocLoop_small {nunits f : Nat} (i : Inv base h fl live) (hfreep : h.freep = some f)
    (hn : 0 < nunits) (hsmall : ∀ y ∈ fl, ¬nunits ≤ h.size y)
    : ∃ k, ∀ fuel, mallocLoop nunits (fuel + k) h f (h.ptr f) = (do
        match ← h.morecore fuel nunits with
        | (none, h) => return (none, h)
        | (some p, h) => mallocLoop nunits fuel h p (h.ptr p)) := by
  rcases i.freep with ⟨f', hf, hf'⟩
  rcases hfreep.symm.trans hf' with ⟨rfl⟩
  rcases i.cycle.enter hf with ⟨l, hcycle, hiff⟩
  have hsmall : ∀ y ∈ base :: fl, ¬nunits ≤ h.size y := by
    intro y hy hle
    rcases List.mem_cons.mp hy with rfl | hy
    . rw [i.base_size] at hle
      omega
    . exact hsmall y hy hle
  have hsmall' : ∀ y ∈ l ++ [f], ¬nunits ≤ h.size y := by
    intro y hy
    apply hsmall y
    apply (hiff y).mp
    simpa [or_comm] using hy
  refine ⟨l.length + 1, fun fuel => ?_⟩
  rcases mallocLoop_around hcycle.path hfreep (List.nodup_cons.mp hcycle.nodup).1 hsmall' fuel with
    ⟨prev, hround⟩
  rw [← Nat.add_assoc, hround, mallocLoop, if_neg (hsmall f hf)]
  exact if_pos hfreep

theorem mallocLoop_spec {nunits f : Nat} (i : Inv base h fl live) (hfreep : h.freep = some f)
    (hn : 0 < nunits) (hok : Supplied base h nunits)
    : ∃ fuel r, mallocLoop nunits fuel h f (h.ptr f) = .ok r ∧ Served base h live nunits r ∧
        (r.1 = none ↔
          (∀ y ∈ fl, ¬nunits ≤ h.size y) ∧ ∀ p, h.answers.head? ≠ some (some p)) := by
  by_cases hbig : ∃ y ∈ fl, nunits ≤ h.size y
  . rcases mallocLoop_big i hfreep hn hbig with ⟨fuel, r, hr, hserved, hsome, _⟩
    refine ⟨fuel, r, hr, hserved, ?_⟩
    rcases hbig with ⟨y, hy, hle⟩
    exact ⟨fun hnone => absurd hnone hsome, fun hsmall => absurd hle (hsmall.1 y hy)⟩
  . have hsmall : ∀ y ∈ fl, ¬nunits ≤ h.size y := fun y hy hle => hbig ⟨y, hy, hle⟩
    rcases mallocLoop_small i hfreep hn hsmall with ⟨k, hround⟩
    rcases morecore_spec i hok with
      ⟨hrefused, h', hcore, hinv, hsize, hobtains⟩ |
        ⟨⟨p, hp⟩, fuel, h', fl', f', hcore, hf', hinv, hbig', hsizes, added, hregions, hadded⟩
    . refine ⟨0 + k, (none, h'), ?_, ⟨⟨fl, hinv⟩, fun a _ => congrFun hsize a, hobtains⟩,
        fun _ => ⟨hsmall, hrefused⟩, fun _ => rfl⟩
      rw [hround, hcore, Fold.ok_bind]
      rfl
    . rcases mallocLoop_big hinv hf' hn hbig' with ⟨fuel', r, hr, hserved, hsome, _, hsame⟩
      refine ⟨max fuel fuel' + k, r, ?_, ⟨hserved.inv, ?_, added, hsame.trans hregions, hadded⟩,
        fun hnone => absurd hnone hsome, fun hrefused => absurd hp (hrefused.2 p)⟩
      . rw [hround, morecore_mono (by omega) hcore, Fold.ok_bind]
        exact mallocLoop_mono (by omega) hr
      . intro a ha
        exact (hserved.sizes a ha).trans (hsizes a ha)

theorem unitsFor_pos (nbytes : BitVec 32)
    : 0 < unitsFor nbytes :=
  Nat.succ_pos _

theorem malloc_mono {m n : Nat} {nbytes : BitVec 32} {r : Option Nat × Heap} (hle : m ≤ n)
    (h1 : malloc base h m nbytes = .ok r)
    : malloc base h n nbytes = .ok r := by
  simp only [malloc] at h1 ⊢
  split
  . next hnone =>
    simp only [hnone] at h1
    exact mallocLoop_mono hle h1
  . next p hsome =>
    simp only [hsome] at h1
    exact mallocLoop_mono hle h1

theorem malloc_unique {m n : Nat} {nbytes : BitVec 32} {r r' : Option Nat × Heap}
    (h1 : malloc base h m nbytes = .ok r) (h2 : malloc base h n nbytes = .ok r')
    : r = r' :=
  Except.ok.inj ((malloc_mono (Nat.le_max_left m n) h1).symm.trans
    (malloc_mono (Nat.le_max_right m n) h2))

/-- Before the first `malloc` nothing has been obtained; then the free list exists. -/
def Good (base : Nat) (h : Heap) (live : List Nat) : Prop :=
  (h.freep = none ∧ h.regions = [] ∧ live = []) ∨ ∃ fl, Inv base h fl live

theorem init_inv (hregions : h.regions = [])
    : Inv base ((({ h with freep := some base } : Heap).setPtr base base).setSize base 0) [] [] := by
  refine ⟨⟨⟨?_, by simp⟩, ?_, by simp, by simp, by simp, ?_, ?_⟩, by simp, base, by simp, rfl⟩
  . exact Function.update_self _ _ _
  . exact Function.update_self _ _ _
  . intro x
    exact congrArg (Tiling.cover · x) hregions.symm
  . intro x
    exact (congrArg (Tiling.cover · x) hregions).trans_le (Nat.zero_le 1)

/-- Some free block has `n` units. -/
def FreeBlock (base : Nat) (h : Heap) (live : List Nat) (n : Nat) : Prop :=
  ∃ fl, Inv base h fl live ∧ ∃ y ∈ fl, n ≤ h.size y

/-- What the loop of `malloc` starts with, the first time or later. -/
structure Started (base : Nat) (h : Heap) (live : List Nat) (nbytes : BitVec 32) (k : Heap)
    (fl : List Nat) (f : Nat) : Prop where
  inv : Inv base k fl live
  freep : k.freep = some f
  big : FreeBlock base h live (unitsFor nbytes) ↔ ∃ y ∈ fl, unitsFor nbytes ≤ k.size y
  answers : k.answers = h.answers
  regions : k.regions = h.regions
  requests : k.requests = h.requests
  sizes : ∀ a ∈ live, k.size a = h.size a
  eq : ∀ fuel, malloc base h fuel nbytes = mallocLoop (unitsFor nbytes) fuel k f (k.ptr f)

theorem malloc_start (hg : Good base h live) (nbytes : BitVec 32)
    : ∃ k fl f, Started base h live nbytes k fl f := by
  by_cases hbig : FreeBlock base h live (unitsFor nbytes)
  . rcases hbig with ⟨fl, i, hbig⟩
    rcases i.freep with ⟨f, _, hfreep⟩
    refine ⟨h, fl, f, i, hfreep, ⟨fun _ => hbig, fun _ => ⟨fl, i, hbig⟩⟩, rfl, rfl, rfl,
      fun _ _ => rfl, fun fuel => ?_⟩
    simp only [malloc, hfreep]
  rcases hg with ⟨hnone, hregions, rfl⟩ | ⟨fl, i⟩
  . refine ⟨_, [], base, init_inv hregions, rfl, ⟨fun h => absurd h hbig, ?_⟩, rfl, rfl, rfl, nofun,
      fun fuel => ?_⟩
    . rintro ⟨y, hy, _⟩
      cases hy
    . simp only [malloc, hnone]
  . rcases i.freep with ⟨f, _, hfreep⟩
    refine ⟨h, fl, f, i, hfreep, ⟨fun h => absurd h hbig, fun hy => ⟨fl, i, hy⟩⟩, rfl, rfl, rfl,
      fun _ _ => rfl, fun fuel => ?_⟩
    simp only [malloc, hfreep]

theorem malloc_spec {nbytes : BitVec 32} (hg : Good base h live)
    (hok : Supplied base h (unitsFor nbytes))
    : ∃ fuel r, malloc base h fuel nbytes = .ok r ∧ Served base h live (unitsFor nbytes) r ∧
        (r.1 = none ↔
          ¬FreeBlock base h live (unitsFor nbytes) ∧ ∀ p, h.answers.head? ≠ some (some p)) := by
  rcases malloc_start hg nbytes with ⟨k, fl, f, hk⟩
  have hok' : Supplied base k (unitsFor nbytes) := by
    unfold Supplied
    rw [hk.answers, hk.regions]
    exact hok
  rcases mallocLoop_spec hk.inv hk.freep (unitsFor_pos nbytes) hok' with ⟨fuel, r, hr, hserved, hnone⟩
  refine ⟨fuel, r, (hk.eq fuel).trans hr, ?_, ?_⟩
  . refine ⟨hserved.inv, fun a ha => (hserved.sizes a ha).trans (hk.sizes a ha), ?_⟩
    have := hserved.obtains
    unfold Obtains at this ⊢
    rw [← hk.regions]
    exact this
  . rw [hnone, hk.big, hk.answers]
    simp

theorem Inv.perm {live' : List Nat} (i : Inv base h fl live) (hperm : live.Perm live')
    : Inv base h fl live' := by
  have happ := hperm.append_left fl
  refine ⟨⟨i.cycle, i.base_size, i.sorted, ?_, ?_, ?_, i.regions⟩, i.gap, i.freep⟩
  . intro a ha
    exact i.above a (hperm.mem_iff.mpr ha)
  . intro a ha
    exact i.pos a (happ.mem_iff.mpr ha)
  . intro x
    exact (cover_perm (happ.symm.map h.block) x).trans (i.cover x)

theorem Inv.store {x v w : Nat} (i : Inv base h fl live) (hx : x ∉ base :: (fl ++ live))
    : Inv base ((h.setPtr x v).setSize x w) fl live := by
  have hsize : ∀ a ∈ base :: (fl ++ live), ((h.setPtr x v).setSize x w).size a = h.size a := by
    intro a ha
    apply Function.update_of_ne
    intro heq
    exact hx (heq ▸ ha)
  have hfl : ∀ a ∈ fl ++ live, ((h.setPtr x v).setSize x w).size a = h.size a := fun a ha =>
    hsize a (List.mem_cons_of_mem base ha)
  refine ⟨⟨⟨?_, i.cycle.nodup⟩, ?_, i.sorted, i.above, ?_, ?_, i.regions⟩, ?_, i.freep⟩
  . apply i.cycle.path.update_of_notMem
    intro hmem
    apply hx
    rw [← List.cons_append]
    exact List.mem_append_left live hmem
  . exact (hsize base (by simp)).trans i.base_size
  . intro a ha
    rw [hfl a ha]
    exact i.pos a ha
  . intro x
    rw [blocks_congr hfl]
    exact i.cover x
  . intro a ha
    rw [hfl a (List.mem_append_left live ha)]
    exact i.gap a ha

theorem Inv.payload_notMem {a k : Nat} (i : Inv base h fl live) (ha : a ∈ live) (hk : 0 < k)
    (hlt : k < h.size a)
    : a + HEADER * k ∉ base :: (fl ++ live) := by
  have hin : a ∈ fl ++ live := List.mem_append_right fl ha
  have hbase := i.base_lt hin
  have h1 : 0 < HEADER * k := Nat.mul_pos (by decide) hk
  have h2 : HEADER * k < HEADER * h.size a := Nat.mul_lt_mul_of_pos_left hlt (by decide)
  intro hmem
  rcases List.mem_cons.mp hmem with heq | hmem
  . omega
  . have := i.apart hin hmem (by omega)
    have := i.lt_end hmem
    omega

end

end Heap

namespace HeapSys

open Heap Cycle Tiling Transition

variable {base : Nat} {s t : HeapSys}

theorem malloc_step {nbytes : BitVec 32} {answers : List (Option Nat)}
    (hg : Good base s.heap s.live) (hok : Ok base s (.malloc nbytes answers))
    : ∃ fuel r fl,
        malloc base { s.heap with answers := answers } fuel nbytes = .ok r
          ∧
        Inv base r.2 fl (granted s.live r.1) := by
  have hg' : Good base { s.heap with answers := answers } s.live := by
    rcases hg with ⟨h1, h2, h3⟩ | ⟨fl, i⟩
    . exact .inl ⟨h1, h2, h3⟩
    . rcases i.freep with ⟨f, hf, hfreep⟩
      exact .inr ⟨fl, i.reposition rfl rfl rfl hf hfreep⟩
  rcases malloc_spec hg' (fun p hp => (hok p hp).1) with ⟨fuel, r, hm, hserved, _⟩
  rcases hserved.inv with ⟨fl, hinv⟩
  exact ⟨fuel, r, fl, hm, hinv⟩

theorem free_step {ap : Nat} (hg : Good base s.heap s.live) (hok : Ok base s (.free ap))
    : ∃ fuel h fl,
        s.heap.free fuel ap = .ok h ∧ Inv base h fl (s.live.erase (ap - HEADER)) := by
  rcases hg with ⟨_, _, hlive⟩ | ⟨fl, i⟩
  . have := hok.2
    rw [hlive] at this
    cases this
  . rcases free_spec (i.perm (List.perm_cons_erase hok.2)) with ⟨fuel, h, fl', hfree, hinv, _⟩
    rw [Nat.sub_add_cancel hok.1] at hfree
    exact ⟨fuel, h, fl', hfree, hinv⟩

theorem step_good {e : Event} (hg : Good base s.heap s.live) (hok : Ok base s e)
    (hstep : Step base s e t)
    : Good base t.heap t.live := by
  cases hstep with
  | malloc hm =>
    rcases malloc_step hg hok with ⟨fuel, r, fl, hm', hinv⟩
    rcases malloc_unique hm hm' with rfl
    exact .inr ⟨fl, hinv⟩
  | noMemory hm =>
    rcases malloc_step hg hok with ⟨fuel, r, fl, hm', hinv⟩
    rcases malloc_unique hm hm' with rfl
    exact .inr ⟨fl, hinv⟩
  | free hf =>
    rcases free_step hg hok with ⟨fuel, h, fl, hf', hinv⟩
    rcases free_unique hf hf' with rfl
    exact .inr ⟨fl, hinv⟩
  | store =>
    rcases hok with ⟨ha, hk, hlt⟩
    rcases hg with ⟨_, _, hlive⟩ | ⟨fl, i⟩
    . rw [hlive] at ha
      cases ha
    . exact .inr ⟨fl, i.store (i.payload_notMem ha hk hlt)⟩

theorem run_good {es : List Event} (hs : Start s) (hrun : Run (Step base) (Ok base) s es t)
    : Good base t.heap t.live :=
  hrun.invariant (P := fun s => Good base s.heap s.live) (fun _ _ _ => step_good)
    (.inl ⟨hs.freep, hs.regions, hs.live⟩)

/--
The free list, as the pointers run through it from `base`, together with the live blocks.
-/
structure Represents (base : Nat) (h : Heap) (fl live : List Nat) : Prop where
  cycle : IsCycle h.ptr base fl
  freep : ∃ f ∈ base :: fl, h.freep = some f
  sorted : (base :: fl).Pairwise (· < ·)
  one_wrap : ∃! a, a ∈ base :: fl ∧ h.ptr a ≤ a
  apart : (h.blocks (fl ++ live)).Pairwise Apart
  not_adjacent : ∀ a ∈ fl, a + HEADER * h.size a ∉ fl
  nonempty : ∀ a ∈ fl ++ live, 0 < h.size a
  fills : ∀ x,
    (∃ e ∈ h.blocks (fl ++ live), e.1 ≤ x ∧ x < e.1 + e.2) ↔
    ∃ r ∈ h.regions, r.1 ≤ x ∧ x < r.1 + r.2

theorem one_wrap {h : Heap} {fl live : List Nat} (i : Inv base h fl live)
    : ∃! a, a ∈ base :: fl ∧ h.ptr a ≤ a := by
  have hlast : h.ptr (fl.getLastD base) = base := i.cycle.path.next_last
  refine ⟨fl.getLastD base, ⟨List.getLastD_mem_cons, ?_⟩, ?_⟩
  . rw [hlast]
    rcases List.mem_cons.mp (List.getLastD_mem_cons (l := fl) (a := base)) with heq | hmem
    . exact Nat.le_of_eq heq.symm
    . exact Nat.le_of_lt ((List.pairwise_cons.mp i.sorted).1 _ hmem)
  . rintro a ⟨ha, hle⟩
    rcases i.cycle.path.ascends i.sorted ha with hbase | hlt
    . exact i.cycle.eq_last_of_next ha hbase
    . omega

theorem represents {h : Heap} {fl live : List Nat} (i : Inv base h fl live)
    : Represents base h fl live where
  cycle := i.cycle
  freep := i.freep
  sorted := i.sorted
  one_wrap := one_wrap i
  apart := i.pairwise_apart
  not_adjacent := i.gap
  nonempty := i.pos
  fills x := by
    rw [← cover_pos_iff, ← cover_pos_iff, i.cover x]

theorem malloc_free_represented {es : List Event} (hs : Start s)
    (hrun : Run (Step base) (Ok base) s es t)
    : ((t.heap.freep = none ∧ t.heap.regions = [] ∧ t.live = [])
          ∨
        ∃ fl, Represents base t.heap fl t.live)
        ∧
      ∀ e, Ok base t e → ∃ u, Step base t e u := by
  have hg := run_good hs hrun
  refine ⟨?_, ?_⟩
  . rcases hg with hg | ⟨fl, i⟩
    . exact .inl hg
    . exact .inr ⟨fl, represents i⟩
  . intro e hok
    cases e with
    | malloc nbytes answers =>
      rcases malloc_step hg hok with ⟨fuel, ⟨ap, h⟩, fl, hm, _⟩
      cases ap with
      | none => exact ⟨_, .noMemory hm⟩
      | some ap => exact ⟨_, .malloc hm⟩
    | free ap =>
      rcases free_step hg hok with ⟨fuel, h, fl, hf, _⟩
      exact ⟨_, .free hf⟩
    | store a k v w => exact ⟨_, .store⟩

/-- No call has been made yet. -/
def blank : HeapSys := ⟨⟨fun _ => 0, fun _ => 0, none, [], [], [], 0⟩, []⟩

def mallocThenFree : List Event := [.malloc 100#32 [some 4096], .free 36760]

theorem blank_start
    : Start blank :=
  ⟨rfl, rfl, rfl⟩

theorem mallocThenFree_run
    : ∃ t,
        Run (Step 16) (Ok 16) blank mallocThenFree t
          ∧
        t.live = [] ∧ t.heap.freep = some 4096 := by
  have hok : Ok 16 blank (.malloc 100#32 [some 4096]) := by
    intro p hp
    rcases hp with ⟨rfl⟩
    exact ⟨⟨by decide, by simp [blank], by decide⟩, by decide⟩
  refine ⟨_, .cons hok (@Step.malloc _ _ _ _ 4 _ _ rfl) (.cons ⟨by decide, ?_⟩
    (@Step.free _ _ 4 _ _ rfl) (.nil _)), ?_, ?_⟩
  . exact List.mem_singleton.mpr rfl
  . rfl
  . rfl

theorem malloc_free_represented_blank
    : ∃ t,
        Run (Step 16) (Ok 16) blank mallocThenFree t
          ∧
        t.live = []
          ∧
        ∃ fl, Represents 16 t.heap fl t.live := by
  rcases mallocThenFree_run with ⟨t, hrun, hlive, hfreep⟩
  refine ⟨t, hrun, hlive, ?_⟩
  rcases (malloc_free_represented blank_start hrun).1 with hnone | hr
  . rw [hnone.1] at hfreep
    cases hfreep
  . exact hr

end HeapSys

end Xv6
