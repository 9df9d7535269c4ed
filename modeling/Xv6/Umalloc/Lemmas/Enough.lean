import Xv6.Umalloc.Lemmas.Malloc

/-!
The block that `malloc` returns is as large as it was asked for, as long as the number of units and
what `morecore` asks for do not overflow.
-/

namespace Xv6
namespace Heap

open Tiling

variable {base nunits nu : Nat} {h h' : Heap} {live : List Nat} {nbytes : BitVec 32}
  {r : Option Nat × Heap}

theorem morecore_requests {fuel : Nat} (h1 : h.morecore fuel nu = .ok r)
    : r.2.requests = h.requests ++ [request nu] := by
  simp only [morecore, sbrk] at h1
  split at h1
  . next k hk =>
    cases h1
    split at hk
    . cases hk
      rfl
    . cases hk
      rfl
    . cases hk
  . next p k hk =>
    split at h1
    . rcases Fold.bind_eq_ok h1 with ⟨k', hfree, h1⟩
      cases h1
      split at hk
      . cases hk
      . cases hk
      . cases hk
        exact (free_size_of_ne hfree).1.1
    . cases h1

theorem mallocLoop_ledger {fuel prevp p : Nat} (h1 : mallocLoop nunits fuel h prevp p = .ok r)
    : (∃ k, r.2.requests = h.requests ++ List.replicate k (request nunits)) ∧
        ∀ ap, r.1 = some ap → r.2.size (ap - HEADER) = nunits := by
  induction fuel generalizing h prevp p with
  | zero => cases h1
  | succ fuel ih =>
    rw [mallocLoop] at h1
    split at h1
    . cases h1
      refine ⟨⟨0, ?_⟩, ?_⟩
      . rw [List.replicate_zero, List.append_nil]
        exact (take_ledger h nunits prevp p).1
      . rintro _ ⟨⟩
        exact take_size
    . split at h1
      . rcases Fold.bind_eq_ok h1 with ⟨⟨q, k⟩, hk, h1⟩
        have hmore := morecore_requests hk
        cases q with
        | none =>
          cases h1
          refine ⟨⟨1, hmore⟩, ?_⟩
          rintro _ ⟨⟩
        | some q =>
          rcases ih h1 with ⟨⟨j, hj⟩, hsize⟩
          refine ⟨⟨j + 1, ?_⟩, hsize⟩
          rw [hj, hmore, List.append_assoc]
          rfl
      . exact ih h1

theorem malloc_ledger {fuel : Nat} (hg : Good base h live) (h1 : malloc base h fuel nbytes = .ok r)
    : (∃ k, r.2.requests = h.requests ++ List.replicate k (request (unitsFor nbytes))) ∧
        ∀ ap, r.1 = some ap → r.2.size (ap - HEADER) = unitsFor nbytes := by
  rcases malloc_start hg nbytes with ⟨k, fl, f, hk⟩
  rw [hk.eq] at h1
  rw [← hk.requests]
  exact mallocLoop_ledger h1

-- `sbrk` is called if no free block is large enough
theorem malloc_asks {fuel : Nat} (hg : Good base h live)
    (hsmall : ¬FreeBlock base h live (unitsFor nbytes)) (h1 : malloc base h fuel nbytes = .ok r)
    : ∃ rest, r.2.requests = h.requests ++ request (unitsFor nbytes) :: rest := by
  rcases malloc_start hg nbytes with ⟨k, fl, f, hk⟩
  rw [hk.big] at hsmall
  rcases mallocLoop_small hk.inv hk.freep (unitsFor_pos nbytes) (fun y hy hle => hsmall ⟨y, hy, hle⟩)
    with ⟨n, hround⟩
  rw [hk.eq] at h1
  have h2 := (hround fuel).symm.trans (mallocLoop_mono (Nat.le_add_right fuel n) h1)
  rcases Fold.bind_eq_ok h2 with ⟨⟨q, k'⟩, hcore, h2⟩
  have hmore := morecore_requests hcore
  cases q with
  | none =>
    cases h2
    exact ⟨[], by rw [hmore, hk.requests]⟩
  | some q =>
    rcases (mallocLoop_ledger h2).1 with ⟨j, hj⟩
    refine ⟨List.replicate j (request (unitsFor nbytes)), ?_⟩
    rw [hj, hmore, hk.requests, List.append_assoc]
    rfl

theorem malloc_big (hg : Good base h live) (hbig : FreeBlock base h live (unitsFor nbytes))
    : ∃ fuel r, malloc base h fuel nbytes = .ok r ∧ Served base h live (unitsFor nbytes) r ∧
        r.2.requests = h.requests := by
  rcases malloc_start hg nbytes with ⟨k, fl, f, hk⟩
  rcases mallocLoop_big hk.inv hk.freep (unitsFor_pos nbytes) (hk.big.mp hbig) with
    ⟨fuel, r, hr, hserved, _, hrequests, hregions⟩
  refine ⟨fuel, r, (hk.eq fuel).trans hr, ⟨hserved.inv, ?_, .of_eq (hregions.trans hk.regions)⟩,
    hrequests.trans hk.requests⟩
  intro a ha
  exact (hserved.sizes a ha).trans (hk.sizes a ha)

theorem toNat_add_seven (nbytes : BitVec 32)
    : (nbytes + BitVec.ofNat 32 HEADER - 1).toNat = (nbytes.toNat + 7) % 2 ^ 32 := by
  rw [BitVec.sub_eq_add_neg, BitVec.add_assoc, BitVec.toNat_add]
  rfl

theorem unitsFor_eq (hn : nbytes.toNat ≤ 0xFFFFFFF8)
    : unitsFor nbytes = (nbytes.toNat + 7) / 8 + 1 := by
  unfold unitsFor
  rw [toNat_add_seven, Nat.mod_eq_of_lt (by omega)]

theorem unitsFor_wraps (hn : ¬nbytes.toNat ≤ 0xFFFFFFF8) : unitsFor nbytes = 1 := by
  have := nbytes.isLt
  unfold unitsFor
  rw [toNat_add_seven]
  simp only [HEADER]
  omega

theorem coreUnits_lt_iff : coreUnits nu * HEADER < 2 ^ 31 ↔ nu * HEADER < 2 ^ 31 := by
  simp only [coreUnits, HEADER]
  split <;> omega

theorem request_eq_iff : request nu = coreUnits nu * HEADER ↔ nu * HEADER < 2 ^ 31 := by
  rw [← coreUnits_lt_iff]
  constructor
  . intro heq
    have hlt : request nu < 2 ^ 31 := BitVec.toInt_lt
    omega
  . intro hlt
    have hn : (BitVec.ofNat 32 (coreUnits nu * HEADER)).toNat = coreUnits nu * HEADER := by
      rw [BitVec.toNat_ofNat, Nat.mod_eq_of_lt (by omega)]
    unfold request
    rw [BitVec.toInt_eq_toNat_of_lt (by omega), hn]
    rfl

/--
What `malloc` promises: a block with room for the request, in memory from `sbrk` and apart from all
live blocks, unless it returns nothing. No call of `sbrk` has been for another number of bytes than
that of the units recorded, and the blocks fill exactly what was obtained.
-/
structure Provides (base : Nat) (h : Heap) (live : List Nat) (nbytes : BitVec 32)
    (r : Option Nat × Heap) : Prop where
  block : ∀ ap, r.1 = some ap →
    nbytes.toNat ≤ (r.2.size (ap - HEADER) - 1) * HEADER ∧
    (∀ x, ap - HEADER ≤ x → x < ap - HEADER + HEADER * r.2.size (ap - HEADER) →
      ∃ g ∈ r.2.regions, g.1 ≤ x ∧ x < g.1 + g.2) ∧
    ∀ a ∈ live, r.2.size a = h.size a ∧ Apart (r.2.block (ap - HEADER)) (h.block a)
  requests : ∃ asked, r.2.requests = h.requests ++ asked ∧
    ∀ n ∈ asked, 0 < n ∧ n = coreUnits (unitsFor nbytes) * HEADER
  regions : ∃ added, r.2.regions = h.regions ++ added ∧
    ∀ g ∈ added, g.2 = coreUnits (unitsFor nbytes) * HEADER
  represents : ∃ fl, HeapSys.Represents base r.2 fl (granted live r.1)

theorem Served.provides (hserved : Served base h live (unitsFor nbytes) r)
    (hsize : ∀ ap, r.1 = some ap → r.2.size (ap - HEADER) = unitsFor nbytes)
    (henough : r.1 ≠ none → nbytes.toNat ≤ 0xFFFFFFF8)
    (hasked : ∃ k, r.2.requests = h.requests ++ List.replicate k (request (unitsFor nbytes)) ∧
      (0 < k → unitsFor nbytes * HEADER < 2 ^ 31))
    : Provides base h live nbytes r := by
  rcases hserved.inv with ⟨fl, hinv⟩
  refine ⟨?_, ?_, hserved.obtains, fl, HeapSys.represents hinv⟩
  . intro ap hap
    rw [hap] at hinv
    have hmem : ap - HEADER ∈ fl ++ granted live (some ap) :=
      List.mem_append_right fl List.mem_cons_self
    refine ⟨?_, ?_, ?_⟩
    . rw [hsize ap hap, unitsFor_eq (henough (by rw [hap]; exact Option.some_ne_none ap))]
      simp only [HEADER]
      omega
    . intro x hlo hhi
      rw [← cover_pos_iff, ← hinv.cover x, cover_pos_iff]
      exact ⟨r.2.block (ap - HEADER), List.mem_map_of_mem hmem, hlo, hhi⟩
    . intro a ha
      have hnodup : ap - HEADER ∉ live :=
        (List.nodup_cons.mp (List.nodup_append.mp hinv.nodup).2.1).1
      refine ⟨hserved.sizes a ha, ?_⟩
      unfold block
      rw [← hserved.sizes a ha]
      apply hinv.apart hmem (List.mem_append_right fl (List.mem_cons_of_mem _ ha))
      rintro heq
      exact hnodup (heq ▸ ha)
  . rcases hasked with ⟨k, hrequests, hlt⟩
    refine ⟨_, hrequests, ?_⟩
    intro n hn
    rcases List.mem_replicate.mp hn with ⟨hk, rfl⟩
    have hpos := Nat.mul_pos (coreUnits_pos (unitsFor nbytes)) (show 0 < HEADER by decide)
    have heq := request_eq_iff.mpr (hlt (Nat.pos_of_ne_zero hk))
    exact ⟨by omega, heq⟩

/--
`malloc` keeps its promise exactly if the number of units does not wrap around and some free block
has them or they are a positive int of bytes. Where it does wrap around, only a `malloc` that can
return nothing at all does no harm.
-/
theorem malloc_enough (hg : Good base h live)
    (hok : unitsFor nbytes * HEADER < 2 ^ 31 → Supplied base h (unitsFor nbytes))
    : (∃ fuel r, (∀ n, fuel ≤ n → malloc base h n nbytes = .ok r) ∧ Provides base h live nbytes r) ↔
        if nbytes.toNat ≤ 0xFFFFFFF8 then
          FreeBlock base h live (unitsFor nbytes) ∨ unitsFor nbytes * HEADER < 2 ^ 31
        else
          ¬FreeBlock base h live (unitsFor nbytes) ∧ ∀ p, h.answers.head? ≠ some (some p) := by
  constructor
  . rintro ⟨fuel, r, hr, hprovides⟩
    have hr := hr fuel (Nat.le_refl fuel)
    split
    . by_cases hbig : FreeBlock base h live (unitsFor nbytes)
      . exact .inl hbig
      . rcases hprovides.requests with ⟨asked, hasked, hall⟩
        rcases malloc_asks hg hbig hr with ⟨rest, hrest⟩
        rcases List.append_cancel_left (hasked.symm.trans hrest) with rfl
        exact .inr (request_eq_iff.mp (hall _ List.mem_cons_self).2)
    . next hwrap =>
      have hunits := unitsFor_wraps hwrap
      rcases malloc_spec hg (hok (by rw [hunits]; decide)) with ⟨fuel', r', hr', _, hnone⟩
      rcases malloc_unique hr hr' with rfl
      rw [← hnone]
      cases hap : r.1 with
      | none => rfl
      | some ap =>
        have := (hprovides.block ap hap).1
        rw [(malloc_ledger hg hr).2 ap hap, hunits] at this
        omega
  . intro hcond
    by_cases hwrap : nbytes.toNat ≤ 0xFFFFFFF8
    . rw [if_pos hwrap] at hcond
      rcases hcond with hbig | hlt
      . rcases malloc_big hg hbig with ⟨fuel, r, hr, hserved, hrequests⟩
        refine ⟨fuel, r, fun n hle => malloc_mono hle hr, ?_⟩
        refine hserved.provides (malloc_ledger hg hr).2 (fun _ => hwrap) ⟨0, ?_, nofun⟩
        rw [hrequests, List.replicate_zero, List.append_nil]
      . rcases malloc_spec hg (hok hlt) with ⟨fuel, r, hr, hserved, _⟩
        rcases malloc_ledger hg hr with ⟨⟨k, hk⟩, hsize⟩
        exact ⟨fuel, r, fun n hle => malloc_mono hle hr,
          hserved.provides hsize (fun _ => hwrap) ⟨k, hk, fun _ => hlt⟩⟩
    . rw [if_neg hwrap] at hcond
      have hlt : unitsFor nbytes * HEADER < 2 ^ 31 := by
        rw [unitsFor_wraps hwrap]
        decide
      rcases malloc_spec hg (hok hlt) with ⟨fuel, r, hr, hserved, hnone⟩
      rcases malloc_ledger hg hr with ⟨⟨k, hk⟩, hsize⟩
      exact ⟨fuel, r, fun n hle => malloc_mono hle hr,
        hserved.provides hsize (fun hsome => absurd (hnone.mpr hcond) hsome) ⟨k, hk, fun _ => hlt⟩⟩

def unused : Heap := { HeapSys.blank.heap with answers := [some 4096] }

theorem malloc_enough_unused
    : ∃ fuel r, malloc 16 unused fuel 100 = .ok r ∧ Provides 16 unused [] 100 r := by
  have hok : Supplied 16 unused (unitsFor 100) := by
    rintro _ ⟨⟩
    exact ⟨by decide, nofun, by decide⟩
  have hgood : Good 16 unused [] := .inl ⟨rfl, rfl, rfl⟩
  rcases (malloc_enough hgood fun _ => hok).mpr (.inr (by decide)) with ⟨fuel, r, hr, hprovides⟩
  exact ⟨fuel, r, hr fuel (le_refl fuel), hprovides⟩

-- `nbytes + sizeof(Header) - 1` wraps around, and one unit is enough
theorem malloc_overflows
    : Good 16 unused [] ∧ Supplied 16 unused (unitsFor 0xFFFFFFFF) ∧
        ∃ h', malloc 16 unused 4 0xFFFFFFFF = .ok (some 36864, h') ∧
          h'.size (36864 - HEADER) = 1 := by
  refine ⟨.inl ⟨rfl, rfl, rfl⟩, ?_, _, rfl, rfl⟩
  rintro _ ⟨⟩
  exact ⟨by decide, nofun, by decide⟩

end Heap
end Xv6
