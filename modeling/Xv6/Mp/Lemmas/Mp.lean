import Xv6.Mp.Impl.Mp
import Xv6.Ulib.Lemmas.Memmove

/-!
The loop of `mpinit` over the entries of a table: it ends when all types are known, and never when it
comes to another one.
-/

namespace Xv6
namespace Mp

inductive Entry where
  | proc (apicid : BitVec 8)
  | ioapic (apicno : BitVec 8)
  | other
  deriving DecidableEq, Repr

def Entry.apicid? : Entry → Option (BitVec 8)
  | .proc apicid => some apicid
  | _ => none

def entryAt (m : Memory) (p : BitVec 32) : Option (Entry × BitVec 32) :=
  if m p = MPPROC then
    some (.proc (m (p + 1)), SIZEOF_MPPROC)
  else if m p = MPIOAPIC then
    some (.ioapic (m (p + 1)), SIZEOF_MPIOAPIC)
  else if m p = MPBUS ∨ m p = MPIOINTR ∨ m p = MPLINTR then
    some (.other, 8)
  else
    none

-- The bytes from `p` to `e` are a list of entries, of which the last one may go past `e`.
inductive Listed (m : Memory) (e : BitVec 32) : BitVec 32 → List Entry → Prop where
  | nil {p : BitVec 32} : ¬ p < e → Listed m e p []
  | cons {p k : BitVec 32} {x : Entry} {es : List Entry} : p < e → entryAt m p = some (x, k) →
      Listed m e (p + k) es → Listed m e p (x :: es)

def Machine.record (s : Machine) : Entry → Machine
  | .proc apicid => s.addCpu apicid
  | .ioapic apicno => { s with ioapicid := apicno }
  | .other => s

variable {m : Memory} {e p k : BitVec 32} {x : Entry} {es : List Entry} {fuel : Nat} {s : Machine}

theorem entryAt_size (h : entryAt m p = some (x, k)) : 8 ≤ k.toNat ∧ k.toNat ≤ 20 := by
  unfold entryAt at h
  split at h
  . cases h
    decide
  . split at h
    . cases h
      decide
    . split at h
      . cases h
        decide
      . cases h

theorem entryLoop_end (hp : ¬ p < e) (fuel : Nat) (ismp : Bool) (s : Machine)
    : entryLoop m e (fuel + 1) p ismp s = .ok (ismp, s) := by
  rw [entryLoop, if_neg hp]

theorem entryLoop_known (hp : p < e) (hx : entryAt m p = some (x, k)) (fuel : Nat) (ismp : Bool)
    (s : Machine)
    : entryLoop m e (fuel + 1) p ismp s = entryLoop m e fuel (p + k) ismp (s.record x) := by
  unfold entryAt at hx
  rw [entryLoop, if_pos hp]
  split at hx
  next h =>
    cases hx
    rw [if_pos h]
    rfl
  next h =>
    rw [if_neg h]
    split at hx
    next h =>
      cases hx
      rw [if_pos h]
      rfl
    next h =>
      rw [if_neg h]
      split at hx
      next h =>
        cases hx
        rw [if_pos h]
        rfl
      next => cases hx

theorem entryLoop_unknown (hp : p < e) (hx : entryAt m p = none) (fuel : Nat) (ismp : Bool) (s : Machine)
    : entryLoop m e fuel p ismp s = .error .diverges := by
  induction fuel generalizing ismp with
  | zero => rfl
  | succ fuel ih =>
    unfold entryAt at hx
    rw [entryLoop, if_pos hp]
    split at hx
    next => cases hx
    next h =>
      rw [if_neg h]
      split at hx
      next => cases hx
      next h =>
        rw [if_neg h]
        split at hx
        next => cases hx
        next h =>
          rw [if_neg h]
          exact ih false

theorem entryLoop_listed (h : Listed m e p es) (hfuel : es.length < fuel) (ismp : Bool) (s : Machine)
    : entryLoop m e fuel p ismp s = .ok (ismp, es.foldl Machine.record s) := by
  induction h generalizing fuel s with
  | nil hp =>
    cases fuel with
    | zero => omega
    | succ fuel => exact entryLoop_end hp fuel ismp s
  | cons hp hx _ ih =>
    cases fuel with
    | zero => omega
    | succ fuel =>
      rw [entryLoop_known hp hx, ih (Nat.lt_of_succ_lt_succ hfuel)]
      rfl

theorem toNat_next (hp : p < e) (htop : e.toNat + 20 ≤ 2 ^ 32) (hx : entryAt m p = some (x, k))
    : (p + k).toNat = p.toNat + k.toNat := by
  have hsize := entryAt_size hx
  rw [BitVec.lt_def] at hp
  rw [BitVec.toNat_add]
  omega

theorem Listed.length_le (h : Listed m e p es) (htop : e.toNat + 20 ≤ 2 ^ 32)
    : 8 * es.length ≤ e.toNat - p.toNat + 7 := by
  induction h with
  | nil => exact Nat.zero_le _
  | cons hp hx _ ih =>
    have hsize := entryAt_size hx
    rw [toNat_next hp htop hx] at ih
    rw [BitVec.lt_def] at hp
    rw [List.length_cons]
    omega

theorem listed_or_diverges (htop : e.toNat + 20 ≤ 2 ^ 32) (p : BitVec 32)
    : (∃ es, Listed m e p es) ∨
        ∀ fuel ismp s, entryLoop m e fuel p ismp s = .error .diverges := by
  -- what is left of the table gets smaller with every entry
  induction hleft : e.toNat - p.toNat using Nat.strongRecOn generalizing p with
  | ind left ih =>
    by_cases hp : p < e
    . cases hx : entryAt m p with
      | none => exact .inr (entryLoop_unknown hp hx)
      | some r =>
        rcases r with ⟨x, k⟩
        have hnext := toNat_next hp htop hx
        have hsize := entryAt_size hx
        have hlt := BitVec.lt_def.mp hp
        rcases ih (e.toNat - (p + k).toNat) (by omega) (p + k) rfl with ⟨es, hes⟩ | hloop
        . exact .inl ⟨x :: es, .cons hp hx hes⟩
        . refine .inr ?_
          intro fuel ismp s
          cases fuel with
          | zero => rfl
          | succ fuel => rw [entryLoop_known hp hx, hloop]
    . exact .inl ⟨[], .nil hp⟩

theorem record_ncpu (h : s.ncpu ≤ NCPU) (x : Entry)
    : (s.record x).ncpu = min NCPU (s.ncpu + x.apicid?.toList.length) := by
  cases x with
  | proc apicid =>
    simp only [Machine.record, Machine.addCpu, Entry.apicid?, Option.toList_some, List.length_singleton]
    split
    . dsimp only
      omega
    . omega
  | ioapic => exact (Nat.min_eq_right h).symm
  | other => exact (Nat.min_eq_right h).symm

theorem foldl_record_ncpu (h : s.ncpu ≤ NCPU) (es : List Entry)
    : (es.foldl Machine.record s).ncpu = min NCPU (s.ncpu + (es.filterMap Entry.apicid?).length) := by
  induction es generalizing s with
  | nil => exact (Nat.min_eq_right h).symm
  | cons x es ih =>
    have hx := record_ncpu h x
    rw [List.foldl_cons, ih (by omega), hx]
    cases ha : x.apicid? with
    | none =>
      rw [List.filterMap_cons_none ha, Option.toList_none, List.length_nil]
      omega
    | some a =>
      rw [List.filterMap_cons_some ha, Option.toList_some, List.length_singleton, List.length_cons]
      omega

theorem record_apicid {j : Fin NCPU} (hj : j.val < s.ncpu) (x : Entry)
    : (s.record x).apicid j = s.apicid j := by
  cases x with
  | proc apicid =>
    simp only [Machine.record, Machine.addCpu]
    split
    . apply Function.update_of_ne
      intro h
      rw [h] at hj
      exact absurd hj (Nat.lt_irrefl _)
    . rfl
  | ioapic => rfl
  | other => rfl

theorem foldl_record_apicid_old (h : s.ncpu ≤ NCPU) {j : Fin NCPU} (hj : j.val < s.ncpu)
    (es : List Entry)
    : (es.foldl Machine.record s).apicid j = s.apicid j := by
  induction es generalizing s with
  | nil => rfl
  | cons x es ih =>
    have hx := record_ncpu h x
    have hlt := j.isLt
    rw [List.foldl_cons, ih (by omega) (by omega), record_apicid hj]

theorem foldl_record_apicid (h : s.ncpu ≤ NCPU) {j : Fin NCPU} (hj : s.ncpu ≤ j.val)
    {a : BitVec 8} (es : List Entry)
    (ha : (es.filterMap Entry.apicid?)[j.val - s.ncpu]? = some a)
    : (es.foldl Machine.record s).apicid j = a := by
  induction es generalizing s with
  | nil => cases ha
  | cons x es ih =>
    have hncpu := record_ncpu h x
    have hlt := j.isLt
    rw [List.foldl_cons]
    cases hx : x.apicid? with
    | none =>
      rw [hx, Option.toList_none, List.length_nil] at hncpu
      rw [List.filterMap_cons_none hx] at ha
      apply ih (by omega) (by omega)
      rw [hncpu, Nat.add_zero, Nat.min_eq_right h]
      exact ha
    | some b =>
      rw [hx, Option.toList_some, List.length_singleton] at hncpu
      rw [List.filterMap_cons_some hx] at ha
      by_cases heq : j.val = s.ncpu
      . rw [heq, Nat.sub_self, List.getElem?_cons_zero] at ha
        rw [foldl_record_apicid_old (by omega) (by omega)]
        cases x with
        | proc apicid =>
          cases hx
          cases ha
          simp only [Machine.record, Machine.addCpu]
          rw [dif_pos (by omega)]
          have hplace : ⟨s.ncpu, by omega⟩ = j := Fin.ext heq.symm
          rw [hplace]
          exact Function.update_self ..
        | ioapic => cases hx
        | other => cases hx
      . apply ih (by omega) (by omega)
        have hsub : j.val - s.ncpu = j.val - (s.record x).ncpu + 1 := by omega
        rw [hsub, List.getElem?_cons_succ] at ha
        exact ha

/--
When the table consists of entries of the known types, `mpinit` returns and has recorded the first
`NCPU` processors. With another entry it neither returns nor panics.
-/
theorem mpinit_reads_entries {mp conf : BitVec 32} (hconf : mpconfig m = some (mp, conf))
    (htop : conf.toNat + length m conf + 44 < 2 ^ 32) (hncpu : s.ncpu ≤ NCPU) (inb : BitVec 8)
    : (∀ es, Listed m (conf + BitVec.ofNat 32 (length m conf)) (conf + SIZEOF_MPCONF) es →
        ∃ t, (∀ fuel, length m conf < fuel → mpinit m inb fuel s = .ok t) ∧
          t.ncpu = min NCPU (s.ncpu + (es.filterMap Entry.apicid?).length) ∧
          ∀ j : Fin NCPU, s.ncpu ≤ j.val → ∀ a,
            (es.filterMap Entry.apicid?)[j.val - s.ncpu]? = some a → t.apicid j = a) ∧
      ((¬ ∃ es, Listed m (conf + BitVec.ofNat 32 (length m conf)) (conf + SIZEOF_MPCONF) es) →
        ∀ fuel, mpinit m inb fuel s = .error .diverges) := by
  have hend := toNat_add_ofNat (a := conf) (i := length m conf) (by omega)
  have hstart : (conf + SIZEOF_MPCONF).toNat = conf.toNat + 44 := by
    have hsize : SIZEOF_MPCONF.toNat = 44 := rfl
    rw [BitVec.toNat_add, hsize]
    omega
  constructor
  . intro es hes
    have hlength := hes.length_le (by omega)
    rw [hend, hstart] at hlength
    generalize hs : ({ s with lapic := lapicaddr m conf } : Machine) = s'
    have hcount := foldl_record_ncpu (s := s') (by rw [← hs]; exact hncpu) es
    have hplaces := fun j => foldl_record_apicid (s := s') (j := j) (by rw [← hs]; exact hncpu)
    rw [← hs] at hcount hplaces
    have hloop : ∀ fuel, length m conf < fuel → mpinit m inb fuel s = .ok
        (if imcrp m mp ≠ 0 then
          { es.foldl Machine.record s' with
            ports := (es.foldl Machine.record s').ports ++ [(0x22, 0x70), (0x23, inb ||| 1)] }
        else
          es.foldl Machine.record s') := by
      intro fuel hfuel
      unfold mpinit
      rw [hconf]
      dsimp only
      rw [hs, entryLoop_listed hes (by omega)]
      show (if imcrp m mp ≠ 0 then _ else _) = _
      split
      . rfl
      . rfl
    refine ⟨_, hloop, ?_, ?_⟩
    . rw [apply_ite Machine.ncpu, ite_self, ← hs]
      exact hcount
    . intro j hj a ha
      rw [apply_ite Machine.apicid, ite_self, ← hs]
      exact hplaces j hj es ha
  . intro hnot fuel
    rcases listed_or_diverges (m := m) (e := conf + BitVec.ofNat 32 (length m conf)) (by omega)
        (conf + SIZEOF_MPCONF) with hes | hloop
    . exact absurd hes hnot
    . unfold mpinit
      rw [hconf]
      dsimp only
      rw [hloop]
      rfl

def firmware (checksum : BitVec 8) (entries : List (BitVec 8)) : Memory := fun a =>
  let mp : List (BitVec 8) := MP_SIGNATURE ++ [0, 0x10, 0x0f, 0, 1, 4, 0x81, 0, 0, 0, 0, 0]
  let conf : List (BitVec 8) :=
    PCMP_SIGNATURE ++ [BitVec.ofNat 8 (44 + entries.length), 0, 4, checksum] ++
      List.replicate 28 0 ++ [0, 0, 0xe0, 0xfe, 0, 0, 0, 0] ++ entries
  if a < 0x800f1000 then
    if a < 0x800f0000 then 0 else mp.getD (a.toNat - 0x800f0000) 0
  else
    conf.getD (a.toNat - 0x800f1000) 0

def unprobed : Machine := ⟨0, fun _ => 0, 0, 0, []⟩

def twoProcs : List (BitVec 8) :=
  [0] ++ List.replicate 19 0 ++ [0, 1] ++ List.replicate 18 0 ++ [1] ++ List.replicate 7 0 ++
    [2, 2] ++ List.replicate 6 0

theorem mpinit_reads_entries_twoProcs
    : mpconfig (firmware 0x84 twoProcs) = some (0x800f0000, 0x800f1000) ∧
        ∃ t, (∀ fuel, 100 < fuel → mpinit (firmware 0x84 twoProcs) 0 fuel unprobed = .ok t) ∧
          t.ncpu = 2 ∧ t.apicid 1 = 1 := by
  have hconf : mpconfig (firmware 0x84 twoProcs) = some (0x800f0000, 0x800f1000) := by
    decide +kernel
  have hlength : length (firmware 0x84 twoProcs) 0x800f1000 = 100 := by decide +kernel
  have hes : Listed (firmware 0x84 twoProcs) (0x800f1000 + BitVec.ofNat 32 100)
      (0x800f1000 + SIZEOF_MPCONF) [.proc 0, .proc 1, .other, .ioapic 2] :=
    .cons (k := 20) (by decide) (by decide +kernel) <|
    .cons (k := 20) (by decide) (by decide +kernel) <|
    .cons (k := 8) (by decide) (by decide +kernel) <|
    .cons (k := 8) (by decide) (by decide +kernel) <|
    .nil (by decide)
  have h := mpinit_reads_entries (s := unprobed) hconf (by rw [hlength]; decide) (Nat.zero_le _) 0
  rw [hlength] at h
  rcases h.1 _ hes with ⟨t, hok, hncpu, hapicid⟩
  exact ⟨hconf, t, hok, hncpu, hapicid 1 (Nat.zero_le _) 1 rfl⟩

theorem mpinit_unknown_entry_hangs
    : mpconfig (firmware 0xbc [5]) = some (0x800f0000, 0x800f1000) ∧
        ∀ fuel, mpinit (firmware 0xbc [5]) 0 fuel unprobed = .error .diverges := by
  have hconf : mpconfig (firmware 0xbc [5]) = some (0x800f0000, 0x800f1000) := by decide +kernel
  refine ⟨hconf, ?_⟩
  intro fuel
  have hlength : length (firmware 0xbc [5]) 0x800f1000 = 45 := by decide +kernel
  unfold mpinit
  rw [hconf]
  dsimp only
  rw [hlength, entryLoop_unknown (by decide) (by decide +kernel)]
  rfl

end Mp
end Xv6
