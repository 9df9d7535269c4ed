import Xv6.Umalloc.Impl.Umalloc
import Xv6.Data.Cycle
import Xv6.Data.Fold
import Xv6.Data.Tiling
import Mathlib.Data.List.Pairwise

/-!
The free list is a cycle through `base` that is sorted by address, and its blocks together with the
live ones fill the memory obtained from `sbrk`. `free` keeps this: it finds the place of the block
in the cycle and leaves no two adjacent blocks there.
-/

namespace Xv6
namespace Heap

open Cycle Tiling

def block (h : Heap) (a : Nat) : Nat × Nat := (a, HEADER * h.size a)

def blocks (h : Heap) (l : List Nat) : List (Nat × Nat) := l.map h.block

structure Tiled (base : Nat) (h : Heap) (fl live : List Nat) : Prop where
  cycle : IsCycle h.ptr base fl
  base_size : h.size base = 0
  sorted : (base :: fl).Pairwise (· < ·)
  above : ∀ a ∈ live, base < a
  pos : ∀ a ∈ fl ++ live, 0 < h.size a
  cover : ∀ x, cover (h.blocks (fl ++ live)) x = cover h.regions x
  regions : ∀ x, Tiling.cover h.regions x ≤ 1

structure Inv (base : Nat) (h : Heap) (fl live : List Nat) : Prop extends Tiled base h fl live where
  gap : ∀ a ∈ fl, a + HEADER * h.size a ∉ fl
  freep : ∃ f ∈ base :: fl, h.freep = some f

section

variable {base : Nat} {h : Heap} {fl live : List Nat}

theorem blocks_congr {h h' : Heap} {l : List Nat} (hsize : ∀ a ∈ l, h'.size a = h.size a)
    : h'.blocks l = h.blocks l := by
  apply List.map_congr_left
  intro a ha
  rw [block, block, hsize a ha]

theorem blocks_cons (a : Nat) (l : List Nat)
    : h.blocks (a :: l) = (a, HEADER * h.size a) :: h.blocks l :=
  rfl

namespace Tiled

theorem pairwise_apart (t : Tiled base h fl live)
    : (h.blocks (fl ++ live)).Pairwise Apart := by
  apply Tiling.pairwise_apart
  . intro e he
    rcases List.mem_map.mp he with ⟨a, ha, rfl⟩
    exact Nat.mul_pos (by decide) (t.pos a ha)
  . intro x
    rw [t.cover x]
    exact t.regions x

theorem lt_end (t : Tiled base h fl live) {a : Nat} (ha : a ∈ fl ++ live)
    : a < a + HEADER * h.size a :=
  Nat.lt_add_of_pos_right (Nat.mul_pos (by decide) (t.pos a ha))

theorem nodup (t : Tiled base h fl live)
    : (fl ++ live).Nodup := by
  apply (List.pairwise_map.mp t.pairwise_apart).imp_of_mem
  intro a b ha hb hab heq
  subst heq
  have := t.lt_end ha
  simp only [Apart, block] at hab
  omega

theorem apart (t : Tiled base h fl live) {a b : Nat} (ha : a ∈ fl ++ live) (hb : b ∈ fl ++ live)
    (hne : a ≠ b)
    : a + HEADER * h.size a ≤ b ∨ b + HEADER * h.size b ≤ a := by
  have hsymm : Std.Symm fun a b => Apart (h.block a) (h.block b) := ⟨fun _ _ h => h.symm⟩
  exact (List.pairwise_map.mp t.pairwise_apart).forall ha hb hne

theorem end_le (t : Tiled base h fl live) {a b : Nat} (ha : a ∈ fl ++ live) (hb : b ∈ fl ++ live)
    (hlt : a < b)
    : a + HEADER * h.size a ≤ b := by
  have := t.apart ha hb (by omega)
  omega

theorem base_lt (t : Tiled base h fl live) {a : Nat} (ha : a ∈ fl ++ live)
    : base < a := by
  rcases List.mem_append.mp ha with ha | ha
  . exact (List.pairwise_cons.mp t.sorted).1 a ha
  . exact t.above a ha

end Tiled

/-! The search of `free`. -/

theorem split_sorted {l : List Nat} {b : Nat} (hsorted : l.Pairwise (· < ·)) (hb : b ∉ l)
    : ∃ pre post, l = pre ++ post ∧ (∀ a ∈ pre, a < b) ∧ ∀ a ∈ post, b < a := by
  induction l with
  | nil => exact ⟨[], [], rfl, by simp, by simp⟩
  | cons c l ih =>
    rcases List.pairwise_cons.mp hsorted with ⟨hlt, hsorted⟩
    rw [List.mem_cons, not_or] at hb
    by_cases hc : c < b
    . rcases ih hsorted hb.2 with ⟨pre, post, rfl, hpre, hpost⟩
      refine ⟨c :: pre, post, rfl, ?_, hpost⟩
      intro a ha
      rcases List.mem_cons.mp ha with rfl | ha
      . exact hc
      . exact hpre a ha
    . refine ⟨[], c :: l, rfl, by simp, ?_⟩
      intro a ha
      rcases List.mem_cons.mp ha with rfl | ha
      . omega
      . have := hlt a ha
        omega

-- The search ends at the last node below the block, from which the list goes on above it or wraps.
theorem stops_iff {pre post : List Nat} {bp q : Nat} (t : Tiled base h (pre ++ post) live)
    (hbase : base < bp) (hpre : ∀ a ∈ pre, a < bp) (hpost : ∀ b ∈ post, bp < b)
    (hq : q ∈ base :: (pre ++ post))
    : h.stops bp q ↔ q = pre.getLastD base := by
  have hasc := t.cycle.path.ascends t.sorted hq
  have hqbase : base ≤ q := by
    rcases List.mem_cons.mp hq with rfl | hq
    . exact Nat.le_refl q
    . exact Nat.le_of_lt ((List.pairwise_cons.mp t.sorted).1 q hq)
  have hstop : h.stops bp q ↔ q < bp ∧ (h.ptr q = base ∨ bp < h.ptr q) := by
    simp only [stops, Bool.or_eq_true, Bool.and_eq_true, decide_eq_true_eq]
    omega
  rw [hstop]
  rcases Path.append_last.mp t.cycle.path with ⟨hpath, hrest⟩
  apply Iff.intro
  . rintro ⟨hlt, hnext⟩
    by_contra hne
    have hmem : q ∈ base :: pre := by
      rw [← List.cons_append] at hq
      rcases List.mem_append.mp hq with hq | hq
      . exact hq
      . have := hpost q hq
        omega
    have hin := hpath.next_mem_of_ne_last hmem hne
    have h1 := hpre _ hin
    have h2 := (List.pairwise_cons.mp t.sorted).1 _ (List.mem_append_left post hin)
    omega
  . rintro rfl
    refine ⟨?_, ?_⟩
    . rcases List.mem_cons.mp (List.getLastD_mem_cons (l := pre) (a := base)) with heq | hmem
      . rw [heq]
        exact hbase
      . exact hpre _ hmem
    . cases post with
      | nil => exact .inl hrest
      | cons b post =>
        rw [hrest.1]
        exact .inr (hpost b (by simp))

theorem search_path {bp x y : Nat} {l : List Nat} (hpath : Path h.ptr x l y)
    (hgo : ∀ z ∈ x :: l, ¬h.stops bp z) (hstop : h.stops bp y)
    : h.search bp (l.length + 2) x = .ok y := by
  induction l generalizing x with
  | nil =>
    have hnext : h.ptr x = y := hpath
    rw [List.length_nil, search, if_neg (hgo x (by simp)), search, hnext, if_pos hstop]
  | cons z l ih =>
    rw [List.length_cons, search, if_neg (hgo x (by simp)), hpath.1]
    apply ih hpath.2
    intro w hw
    exact hgo w (List.mem_cons_of_mem x hw)

theorem search_spec {pre post : List Nat} {bp f : Nat} (t : Tiled base h (pre ++ post) live)
    (hbase : base < bp) (hpre : ∀ a ∈ pre, a < bp) (hpost : ∀ b ∈ post, bp < b)
    (hf : f ∈ base :: (pre ++ post))
    : ∃ fuel, h.search bp fuel f = .ok (pre.getLastD base) := by
  have hlast : pre.getLastD base ∈ base :: (pre ++ post) := by
    rw [← List.cons_append]
    exact List.mem_append_left post (List.getLastD_mem_cons (l := pre) (a := base))
  have hstop : h.stops bp (pre.getLastD base) := (stops_iff t hbase hpre hpost hlast).mpr rfl
  by_cases hne : f = pre.getLastD base
  . refine ⟨1, ?_⟩
    rw [search, hne, if_pos hstop]
  . rcases t.cycle.reach hf hlast hne with ⟨l, hpath, hnot, hin⟩
    refine ⟨_, search_path hpath ?_ hstop⟩
    intro z hz hz'
    rw [stops_iff t hbase hpre hpost (hin z hz)] at hz'
    exact hnot (hz' ▸ hz)

theorem search_mono {bp p q m n : Nat} (hle : m ≤ n) (h1 : h.search bp m p = .ok q)
    : h.search bp n p = .ok q := by
  induction m generalizing p n with
  | zero => cases h1
  | succ m ih =>
    cases n with
    | zero => omega
    | succ n =>
      rw [search] at h1 ⊢
      split
      . next hs =>
        rw [if_pos hs] at h1
        exact h1
      . next hs =>
        rw [if_neg hs] at h1
        exact ih (by omega) h1

/-! Linking the block in, and merging it with its neighbours. -/

theorem sorted_insert {pre post : List Nat} {bp : Nat}
    (hsorted : (base :: (pre ++ post)).Pairwise (· < ·)) (hbase : base < bp)
    (hpre : ∀ a ∈ pre, a < bp) (hpost : ∀ b ∈ post, bp < b)
    : (base :: (pre ++ bp :: post)).Pairwise (· < ·) := by
  rw [← List.cons_append, List.pairwise_append] at hsorted ⊢
  rcases hsorted with ⟨h1, h2, h3⟩
  refine ⟨h1, .cons hpost h2, ?_⟩
  intro a ha b hb
  have hab : a < bp := by
    rcases List.mem_cons.mp ha with rfl | ha
    . exact hbase
    . exact hpre a ha
  rcases List.mem_cons.mp hb with rfl | hb
  . exact hab
  . exact Nat.lt_trans hab (hpost b hb)

theorem perm_front (pre post live : List Nat) (a : Nat)
    : (pre ++ a :: post ++ live).Perm (a :: (pre ++ post ++ live)) := by
  rw [List.append_assoc, List.cons_append, List.append_assoc]
  exact List.perm_middle

theorem perm_insert (pre post live : List Nat) (bp : Nat)
    : (pre ++ bp :: post ++ live).Perm (pre ++ post ++ bp :: live) :=
  (perm_front pre post live bp).trans List.perm_middle.symm

theorem Tiled.freed_notMem {bp : Nat} (t : Tiled base h fl (bp :: live))
    : bp ∉ base :: fl := by
  intro hmem
  rcases List.mem_cons.mp hmem with heq | hmem
  . have := t.above bp (by simp)
    omega
  . exact List.disjoint_of_nodup_append t.nodup hmem (by simp)

theorem mem_insert_iff {pre post : List Nat} {c b : Nat}
    : b ∈ pre ++ c :: post ↔ b = c ∨ b ∈ pre ++ post := by
  simp only [List.mem_append, List.mem_cons, or_left_comm]

theorem Tiled.link {pre post : List Nat} {bp : Nat} (t : Tiled base h (pre ++ post) (bp :: live))
    (hpre : ∀ a ∈ pre, a < bp) (hpost : ∀ b ∈ post, bp < b)
    : Tiled base ((h.setPtr bp (h.ptr (pre.getLastD base))).setPtr (pre.getLastD base) bp)
        (pre ++ bp :: post) live where
  cycle := t.cycle.insert t.freed_notMem
  base_size := t.base_size
  sorted := sorted_insert t.sorted (t.above bp (by simp)) hpre hpost
  above a ha := t.above a (List.mem_cons_of_mem bp ha)
  pos a ha := t.pos a ((perm_insert pre post live bp).mem_iff.mp ha)
  cover x := (cover_perm ((perm_insert pre post live bp).map h.block) x).trans (t.cover x)
  regions := t.regions

/-- The block `a` grows by the block `b` behind it, which leaves the list. -/
def absorb (h : Heap) (a b : Nat) : Heap :=
  (h.setSize a (h.size a + h.size b)).setPtr a (h.ptr b)

theorem absorb_size_self (h : Heap) (a b : Nat)
    : (h.absorb a b).size a = h.size a + h.size b :=
  Function.update_self _ _ _

theorem absorb_size_of_ne (h : Heap) {a b c : Nat} (hne : c ≠ a)
    : (h.absorb a b).size c = h.size c :=
  Function.update_of_ne hne _ _

theorem cover_absorb {a b : Nat} {l : List Nat} (hadj : a + HEADER * h.size a = b) (ha : a ∉ l)
    (x : Nat)
    : cover ((h.absorb a b).blocks (a :: l)) x = cover (h.blocks (a :: b :: l)) x := by
  have hl : (h.absorb a b).blocks l = h.blocks l := by
    apply blocks_congr
    intro c hc
    apply absorb_size_of_ne
    intro heq
    exact ha (heq ▸ hc)
  rw [blocks_cons, blocks_cons, blocks_cons, hl, absorb_size_self, Nat.mul_add, cover_cons,
    mark_add, hadj, cover_cons, cover_cons, Nat.add_assoc]

theorem Tiled.absorb {l₁ l₂ : List Nat} {a b : Nat} (t : Tiled base h (l₁ ++ a :: b :: l₂) live)
    (hadj : a + HEADER * h.size a = b)
    : Tiled base (h.absorb a b) (l₁ ++ a :: l₂) live := by
  have hsub : List.Sublist (l₁ ++ a :: l₂) (l₁ ++ a :: b :: l₂) :=
    (List.Sublist.refl l₁).append ((List.sublist_cons_self b l₂).cons_cons a)
  have hnd : (l₁ ++ a :: l₂ ++ live).Nodup := t.nodup.sublist (hsub.append_right live)
  have hfront := perm_front l₁ l₂ live a
  constructor
  . have hcycle := t.cycle
    rw [show l₁ ++ a :: b :: l₂ = l₁ ++ [a] ++ b :: l₂ by simp] at hcycle
    have := hcycle.remove
    rw [List.getLastD_concat] at this
    rw [show l₁ ++ a :: l₂ = l₁ ++ [a] ++ l₂ by simp]
    exact this
  . rw [absorb_size_of_ne]
    . exact t.base_size
    . have := t.base_lt (a := a) (by simp)
      omega
  . exact t.sorted.sublist (hsub.cons_cons base)
  . exact t.above
  . intro c hc
    have hpos := t.pos c ((hsub.append_right live).subset hc)
    by_cases hca : c = a
    . subst hca
      rw [absorb_size_self]
      omega
    . rw [absorb_size_of_ne h hca]
      exact hpos
  . intro x
    have hfront' : (l₁ ++ a :: b :: l₂ ++ live).Perm (a :: b :: (l₁ ++ l₂ ++ live)) :=
      (perm_front l₁ (b :: l₂) live a).trans ((perm_front l₁ l₂ live b).cons a)
    have ha : a ∉ l₁ ++ l₂ ++ live := (List.nodup_cons.mp (hfront.nodup_iff.mp hnd)).1
    calc Tiling.cover ((h.absorb a b).blocks (l₁ ++ a :: l₂ ++ live)) x
      _ = Tiling.cover ((h.absorb a b).blocks (a :: (l₁ ++ l₂ ++ live))) x :=
        cover_perm (hfront.map _) x
      _ = Tiling.cover (h.blocks (a :: b :: (l₁ ++ l₂ ++ live))) x := cover_absorb hadj ha x
      _ = Tiling.cover (h.blocks (l₁ ++ a :: b :: l₂ ++ live)) x :=
        (cover_perm (hfront'.map _) x).symm
      _ = Tiling.cover h.regions x := t.cover x
  . exact t.regions

-- The successor starts no later than any other block above `bp`, so an adjacent one is it.
theorem Tiled.upper_adjacent {pre post : List Nat} {bp : Nat}
    (t : Tiled base h (pre ++ post) (bp :: live)) (hpre : ∀ a ∈ pre, a < bp)
    (hpost : ∀ b ∈ post, bp < b) (hmem : bp + HEADER * h.size bp ∈ pre ++ post)
    : bp + HEADER * h.size bp = h.ptr (pre.getLastD base) := by
  have hlt := t.lt_end (a := bp) (by simp)
  rcases List.mem_append.mp hmem with hmem | hmem
  . have := hpre _ hmem
    omega
  . cases post with
    | nil => cases hmem
    | cons n post =>
      rw [t.cycle.next_last]
      rcases List.mem_cons.mp hmem with heq | hmem
      . exact heq
      . have hle := t.end_le (a := bp) (b := n) (by simp) (by simp) (hpost n (by simp))
        have hsorted := List.pairwise_append.mp (List.pairwise_cons.mp t.sorted).2
        have := (List.pairwise_cons.mp hsorted.2.1).1 _ hmem
        omega


/--
The block is linked in, in front of `post`, and of its neighbours only the lower one may be
adjacent.
-/
structure Half (base : Nat) (k : Heap) (pre post live : List Nat) (bp : Nat) : Prop
    extends Tiled base k (pre ++ bp :: post) live where
  gap : ∀ a ∈ pre ++ bp :: post,
    a + HEADER * k.size a ∈ pre ++ bp :: post → a + HEADER * k.size a = bp

theorem absorb_link {bp p m n : Nat} (hp : bp ≠ p) (hn : n ≠ bp) (hnp : n ≠ p)
    : ((h.setPtr bp m).setPtr p bp).absorb bp n
        =
      (h.absorb bp n).setPtr p bp := by
  simp only [absorb, setPtr, setSize]
  rw [Function.update_comm hp, Function.update_idem, Function.update_of_ne hn,
    Function.update_of_ne hnp, Function.update_comm hp]

theorem mergeUpper_of_adjacent {bp p : Nat} (hadj : bp + HEADER * h.size bp = h.ptr p)
    : h.mergeUpper bp p = h.absorb bp (h.ptr p) :=
  if_pos hadj

theorem mergeUpper_of_apart {bp p : Nat} (hadj : bp + HEADER * h.size bp ≠ h.ptr p)
    : h.mergeUpper bp p = h.setPtr bp (h.ptr p) :=
  if_neg hadj

theorem mergeUpper_spec {pre post : List Nat} {bp p : Nat}
    (i : Inv base h (pre ++ post) (bp :: live)) (hpre : ∀ a ∈ pre, a < bp)
    (hpost : ∀ b ∈ post, bp < b) (hp : p = pre.getLastD base)
    : ∃ post',
        Half base ((h.mergeUpper bp p).setPtr p bp) pre post' live bp
          ∧
        h.size bp ≤ (h.mergeUpper bp p).size bp := by
  have hbase : base < bp := i.above bp (by simp)
  have hpbp : p < bp := by
    rcases List.mem_cons.mp (List.getLastD_mem_cons (l := pre) (a := base)) with heq | hmem
    . omega
    . exact hp ▸ hpre _ hmem
  have hlink := i.link hpre hpost
  rw [← hp] at hlink
  by_cases hadj : bp + HEADER * h.size bp = h.ptr p
  . rw [mergeUpper_of_adjacent hadj]
    cases post with
    | nil =>
      have : h.ptr p = base := by
        rw [hp]
        exact (Path.append_last.mp i.cycle.path).2
      omega
    | cons n post =>
      have hn : h.ptr p = n := by
        rw [hp]
        exact i.cycle.next_last
      have hbn := hpost n (by simp)
      have habs := hlink.absorb (hadj.trans hn)
      rw [absorb_link (by omega) (by omega) (by omega)] at habs
      rw [hn]
      refine ⟨post, ⟨habs, ?_⟩, ?_⟩
      . intro a ha hmem
        change a + HEADER * (h.absorb bp n).size a = bp
        change a + HEADER * (h.absorb bp n).size a ∈ pre ++ bp :: post at hmem
        rcases mem_insert_iff.mp hmem with heq | hmem
        . exact heq
        . have hmem := (mem_insert_iff (c := n)).mpr (.inr hmem)
          rcases mem_insert_iff.mp ha with rfl | ha
          . rw [absorb_size_self, Nat.mul_add, ← Nat.add_assoc, hadj, hn] at hmem
            exact absurd hmem (i.gap n (by simp))
          . have hin := (mem_insert_iff (c := n)).mpr (.inr ha)
            rw [absorb_size_of_ne] at hmem
            . exact absurd hmem (i.gap a hin)
            . rintro rfl
              exact i.freed_notMem (List.mem_cons_of_mem base hin)
      . rw [absorb_size_self]
        omega
  . rw [mergeUpper_of_apart hadj]
    refine ⟨post, ⟨hlink, ?_⟩, Nat.le_refl _⟩
    intro a ha hmem
    rcases mem_insert_iff.mp hmem with heq | hmem
    . exact heq
    . rcases mem_insert_iff.mp ha with rfl | ha
      . exact absurd (hp ▸ i.upper_adjacent hpre hpost hmem) hadj
      . exact absurd hmem (i.gap a ha)

theorem mergeLower_link {bp p : Nat} (hp : bp ≠ p)
    : (h.setPtr p bp).mergeLower bp p = h.mergeLower bp p := by
  simp only [mergeLower, setPtr, setSize]
  rw [Function.update_idem, Function.update_of_ne hp, Function.update_idem]
  rfl

theorem mergeLower_of_adjacent {bp p : Nat} (hadj : p + HEADER * h.size p = bp)
    : h.mergeLower bp p = h.absorb p bp :=
  if_pos hadj

theorem mergeLower_of_apart {bp p : Nat} (hadj : p + HEADER * h.size p ≠ bp) (hlink : h.ptr p = bp)
    : h.mergeLower bp p = h := by
  rw [mergeLower, if_neg hadj, setPtr, Function.update_eq_self_iff.mpr hlink.symm]

-- What ends at the block lies below it, and between it and the block there is no other node.
theorem Tiled.lower_adjacent {pre post : List Nat} {bp a : Nat}
    (t : Tiled base h (pre ++ bp :: post) live) (ha : a ∈ pre ++ bp :: post)
    (hend : a + HEADER * h.size a = bp)
    : a = pre.getLastD base := by
  have hin : ∀ c ∈ pre ++ bp :: post, c ∈ pre ++ bp :: post ++ live := fun c hc =>
    List.mem_append_left live hc
  have hlt := t.lt_end (hin a ha)
  rcases List.pairwise_append.mp (List.pairwise_cons.mp t.sorted).2 with ⟨_, hpost, hpre⟩
  have hmem : a ∈ pre := by
    rcases List.mem_append.mp ha with ha | ha
    . exact ha
    . rcases List.mem_cons.mp ha with rfl | ha
      . omega
      . have := (List.pairwise_cons.mp hpost).1 a ha
        omega
  by_contra hne
  have hpath := (Path.append.mp t.cycle.path).1
  have hnext := hpath.next_mem_of_ne_last (List.mem_cons_of_mem base hmem) hne
  have hnextin := List.mem_append_left (bp :: post) hnext
  have hnextlt := hpre _ hnext bp (by simp)
  have hbase := t.base_lt (hin _ hnextin)
  rcases t.cycle.path.ascends t.sorted (List.mem_cons_of_mem base ha) with hasc | hasc
  . omega
  . have := t.end_le (hin a ha) (hin _ hnextin) hasc
    omega

theorem mergeLower_spec {pre post : List Nat} {bp p : Nat} (i : Half base h pre post live bp)
    (hp : p = pre.getLastD base)
    : ∃ fl,
        Inv base { h.mergeLower bp p with freep := some p } fl live
          ∧
        ∃ a ∈ fl, h.size bp ≤ (h.mergeLower bp p).size a := by
  have hbase : base < bp := i.base_lt (by simp)
  have hlast : pre.getLastD base ∈ base :: pre := List.getLastD_mem_cons
  rw [← hp] at hlast
  by_cases hadj : p + HEADER * h.size p = bp
  . rw [mergeLower_of_adjacent hadj]
    rcases List.eq_nil_or_concat pre with rfl | ⟨pre, q, rfl⟩
    . have := i.base_size
      rw [show p = base from hp, this] at hadj
      omega
    . rw [List.concat_eq_append, List.getLastD_concat] at hp
      subst hp
      have heq : pre.concat p ++ bp :: post = pre ++ p :: bp :: post := by simp
      have hsub : ∀ c ∈ pre ++ p :: post, c ∈ pre.concat p ++ bp :: post := by
        intro c hc
        rw [heq]
        simp only [List.mem_append, List.mem_cons] at hc ⊢
        tauto
      have hnot : bp ∉ pre ++ p :: post := by
        have hnd := (perm_front (pre.concat p) post live bp).nodup_iff.mp i.nodup
        intro hmem
        apply (List.nodup_cons.mp hnd).1
        simpa using List.mem_append_left live hmem
      have habs := (heq ▸ i.toTiled).absorb hadj
      refine ⟨pre ++ p :: post, ⟨⟨habs.cycle, habs.base_size, habs.sorted, habs.above, habs.pos,
        habs.cover, habs.regions⟩, ?_, p, by simp, rfl⟩, p, by simp, ?_⟩
      . intro a ha hmem
        change a + HEADER * (h.absorb p bp).size a ∈ pre ++ p :: post at hmem
        by_cases hap : a = p
        . rw [hap, absorb_size_self, Nat.mul_add, ← Nat.add_assoc, hadj] at hmem
          have := i.gap bp (by simp) (hsub _ hmem)
          have := i.lt_end (a := bp) (by simp)
          omega
        . rw [absorb_size_of_ne h hap] at hmem
          exact hnot (i.gap a (hsub a ha) (hsub _ hmem) ▸ hmem)
      . rw [absorb_size_self]
        omega
  . have hlink : h.ptr p = bp := by
      rw [hp]
      exact i.cycle.next_last
    rw [mergeLower_of_apart hadj hlink]
    refine ⟨pre ++ bp :: post, ⟨⟨i.cycle, i.base_size, i.sorted, i.above, i.pos, i.cover,
      i.regions⟩, ?_, p, ?_, rfl⟩, bp, by simp, Nat.le_refl _⟩
    . intro a ha hmem
      have hend := i.gap a ha hmem
      rw [i.lower_adjacent ha hend, ← hp] at hend
      exact hadj hend
    . rw [← List.cons_append]
      exact List.mem_append_left _ hlast

/-! `free`. -/

theorem free_mono {ap m n : Nat} {h' : Heap} (hle : m ≤ n) (h1 : h.free m ap = .ok h')
    : h.free n ap = .ok h' := by
  rw [free] at h1 ⊢
  split
  . next hnone =>
    rw [hnone] at h1
    exact h1
  . next p hsome =>
    simp only [hsome] at h1
    rcases Fold.bind_eq_ok h1 with ⟨q, hq, h1⟩
    rw [search_mono hle hq]
    exact h1

theorem Inv.notMem_of_live {a : Nat} (i : Inv base h fl live) (ha : a ∈ live)
    : a ∉ base :: fl := by
  intro hmem
  rcases List.mem_cons.mp hmem with rfl | hmem
  . exact absurd (i.above a ha) (Nat.lt_irrefl a)
  . exact (List.disjoint_of_nodup_append i.nodup) hmem ha

theorem free_size_of_ne {fuel ap : Nat} {h' : Heap} (h1 : h.free fuel ap = .ok h')
    : (h'.requests = h.requests ∧ h'.regions = h.regions) ∧
        ∃ p, h'.freep = some p ∧ ∀ a, a ≠ ap - HEADER → a ≠ p → h'.size a = h.size a := by
  rw [free] at h1
  split at h1
  . cases h1
  . next f _ =>
    rcases Fold.bind_eq_ok h1 with ⟨p, _, h1⟩
    cases h1
    constructor
    . simp only [mergeLower, mergeUpper]
      split <;> split <;> exact ⟨rfl, rfl⟩
    . refine ⟨p, rfl, ?_⟩
      intro a hbp hp
      simp only [mergeLower, mergeUpper]
      split <;> split <;> simp [setSize, setPtr, hbp, hp]

theorem free_size_of_live {fuel bp : Nat} {h' : Heap} {fl' : List Nat}
    (i : Inv base h fl (bp :: live)) (h1 : h.free fuel (bp + HEADER) = .ok h')
    (i' : Inv base h' fl' live) {a : Nat} (ha : a ∈ live)
    : h'.size a = h.size a := by
  rcases (free_size_of_ne h1).2 with ⟨p, hp, hsize⟩
  rcases i'.freep with ⟨f, hf, hfreep⟩
  rcases hfreep.symm.trans hp with ⟨rfl⟩
  have hbp : bp ∉ live := (List.nodup_cons.mp (List.nodup_append.mp i.nodup).2.1).1
  apply hsize a
  . rw [Nat.add_sub_cancel]
    rintro rfl
    exact hbp ha
  . rintro rfl
    exact i'.notMem_of_live ha hf

theorem free_unique {ap m n : Nat} {h₁ h₂ : Heap} (h1 : h.free m ap = .ok h₁)
    (h2 : h.free n ap = .ok h₂)
    : h₁ = h₂ :=
  Except.ok.inj ((free_mono (Nat.le_max_left m n) h1).symm.trans
    (free_mono (Nat.le_max_right m n) h2))

theorem free_spec {bp : Nat} (i : Inv base h fl (bp :: live))
    : ∃ fuel h' fl',
        h.free fuel (bp + HEADER) = .ok h'
          ∧
        Inv base h' fl' live
          ∧
        ∃ a ∈ fl', h.size bp ≤ h'.size a := by
  have hbase : base < bp := i.above bp (by simp)
  have hnot := i.freed_notMem
  rw [List.mem_cons, not_or] at hnot
  rcases split_sorted (List.pairwise_cons.mp i.sorted).2 hnot.2 with ⟨pre, post, rfl, hpre, hpost⟩
  rcases i.freep with ⟨f, hf, hfreep⟩
  rcases search_spec i.toTiled hbase hpre hpost hf with ⟨fuel, hsearch⟩
  rcases mergeUpper_spec i hpre hpost rfl with ⟨post', hhalf, hsize⟩
  rcases mergeLower_spec hhalf rfl with ⟨fl', hinv, a, ha, hbig⟩
  have hne : bp ≠ pre.getLastD base := by
    intro heq
    apply i.freed_notMem
    rw [← List.cons_append, heq]
    exact List.mem_append_left post (List.getLastD_mem_cons (l := pre) (a := base))
  rw [mergeLower_link hne] at hinv hbig
  refine ⟨fuel, _, fl', ?_, hinv, a, ha, Nat.le_trans hsize hbig⟩
  rw [free, Nat.add_sub_cancel, hfreep]
  simp only [hsearch]
  rfl

end

end Heap
end Xv6
