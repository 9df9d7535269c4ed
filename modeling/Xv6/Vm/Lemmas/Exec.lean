import Xv6.Vm.Impl.Exec
import Xv6.Vm.Lemmas.Alloc

/-!
The address space that `exec` builds: below its size every page is present and holds the segments of
the file, its kernel half is that of `setupkvm`, and if `exec` fails the pages are free again.
-/

namespace Xv6

def Binary.phdrs (ip : Binary) : Nat → BitVec 32 → Option (List Proghdr)
  | 0, _ => some []
  | k + 1, off =>
    match ip.read 32 off with
    | none => none
    | some b => (ip.phdrs k (off + 32)).map (Proghdr.ofBytes b :: ·)

def Proghdr.covers (ph : Proghdr) (a : Nat) : Bool :=
  ph.type = 1 ∧ ph.memsz ≠ 0 ∧ ph.vaddr.toNat ≤ a ∧ a < ph.vaddr.toNat + ph.filesz.toNat

def Binary.content (ip : Binary) (phs : List Proghdr) (c : BitVec 8) (a : Nat) : BitVec 8 :=
  match phs.reverse.find? (·.covers a) with
  | some ph => ip.byte (ph.off.toNat + (a - ph.vaddr.toNat))
  | none => c

theorem Binary.content_cons (ip : Binary) (ph : Proghdr) (phs : List Proghdr) (c : BitVec 8) (a : Nat)
    : ip.content (ph :: phs) c a =
        ip.content phs
          (if ph.covers a then ip.byte (ph.off.toNat + (a - ph.vaddr.toNat)) else c) a := by
  unfold Binary.content
  rw [List.reverse_cons, List.find?_append]
  cases phs.reverse.find? (·.covers a) with
  | some ph' => rfl
  | none =>
    rw [Option.none_or, List.find?_singleton]
    cases ph.covers a with
    | false => rfl
    | true => rfl

theorem Binary.readi_full {ip : Binary} {off n : BitVec 32} (h : ip.readi off n = some n.toNat)
    : off.toNat + n.toNat < 2 ^ 32 ∨ n.toNat = 0 := by
  unfold Binary.readi at h
  split at h
  . contradiction
  next hwrap =>
    rw [not_or, BitVec.lt_def, BitVec.toNat_add] at hwrap
    have := off.isLt
    have := n.isLt
    omega

namespace Mem

variable {L : Layout} {d : BitVec 32} {m m' m'' : Mem}

structure Pours (d : BitVec 32) (m m' : Mem) : Prop where
  free : m'.free = m.free
  frame : ∀ x, x ∉ m.user d → m'.phys x = m.phys x

theorem Pours.refl (d : BitVec 32) (m : Mem) : Pours d m m :=
  ⟨rfl, fun _ _ => rfl⟩

theorem Pours.phys_tables (h : Pours d m m') (hm : Owned L m d)
    : ∀ x ∈ m.tables d, m'.phys x = m.phys x := by
  intro x hx
  apply h.frame
  intro hin
  exact (hm.user_disjoint hin).1 hx

theorem Pours.walk (h : Pours d m m') (hm : Owned L m d) {u : Nat} (hu : u < 2 ^ 20)
    : m'.walk d u = m.walk d u :=
  walk_congr (h.phys_tables hm) hu

theorem Pours.user (h : Pours d m m') (hm : Owned L m d) : m'.user d = m.user d :=
  user_congr (fun _ hu => h.walk hm (by omega))

theorem Pours.own (h : Pours d m m') (hm : Owned L m d) : m'.own d = m.own d := by
  unfold Mem.own
  rw [tables_congr (h.phys_tables hm), h.user hm]

theorem Pours.owned (h : Pours d m m') (hm : Owned L m d) : Owned L m' d := by
  apply hm.of_eq
  rw [h.own hm, h.free]

theorem Pours.trans (h₁ : Pours d m m') (h₂ : Pours d m' m'') (hm : Owned L m d)
    : Pours d m m'' := by
  constructor
  . rw [h₂.free, h₁.free]
  . intro x hx
    rw [h₂.frame x (by rw [h₁.user hm]; exact hx), h₁.frame x hx]

theorem pours_update {u : Nat} (hu : u < 2 ^ 19) (hp : pteP (m.walk d u)) (page : Page)
    : Pours d m { m with phys := Function.update m.phys (pteAddr (m.walk d u)) page } := by
  refine ⟨rfl, ?_⟩
  intro x hx
  apply Function.update_of_ne
  intro heq
  apply hx
  rw [heq]
  exact mem_user hu hp

theorem Owned.user_inj {u v : Nat} (h : Owned L m d) (hu : u < 2 ^ 19) (hv : v < 2 ^ 19)
    (hpu : pteP (m.walk d u)) (hpv : pteP (m.walk d v))
    (heq : pteAddr (m.walk d u) = pteAddr (m.walk d v))
    : u = v := by
  have hnodup := h.nodup
  rw [own_add_free, Multiset.nodup_add] at hnodup
  apply Ledger.eq_of_mem hnodup.2.1 (mem_userPages.mpr hu) (mem_userPages.mpr hv)
    (mem_frameOf.mpr ⟨hpu, rfl⟩)
  exact mem_frameOf.mpr ⟨hpv, heq⟩

def view (m : Mem) (d : BitVec 32) (a : Nat) : BitVec 8 :=
  if pteP (m.walk d (a / 4096)) then
    (m.phys (pteAddr (m.walk d (a / 4096)))).byte (a % 4096)
  else
    0

theorem view_blit {u off len : Nat} {src : Nat → BitVec 8} (h : Owned L m d) (hu : u < 2 ^ 19)
    (hp : pteP (m.walk d u)) (hfit : off + len ≤ 4096) {a : Nat} (ha : a < 2 ^ 31)
    : view { m with
            phys := Function.update m.phys (pteAddr (m.walk d u))
              ((m.phys (pteAddr (m.walk d u))).blit off len src) } d a =
        if 4096 * u + off ≤ a ∧ a < 4096 * u + off + len then src (a - (4096 * u + off))
          else m.view d a := by
  have hpours := pours_update hu hp ((m.phys (pteAddr (m.walk d u))).blit off len src)
  unfold view
  rw [hpours.walk h (by omega)]
  by_cases hpage : a / 4096 = u
  . rw [hpage, if_pos hp, if_pos hp]
    simp only [Function.update_self]
    have hlt : a % 4096 < PGSIZE := Nat.mod_lt _ (by decide)
    rw [Bytes.byte_blit _ _ _ _ _ hlt]
    by_cases hin : off ≤ a % 4096 ∧ a % 4096 < off + len
    . rw [if_pos hin, if_pos (by omega)]
      congr 1
      omega
    . rw [if_neg hin, if_neg (by omega)]
  . have hout : ¬ (4096 * u + off ≤ a ∧ a < 4096 * u + off + len) := by omega
    rw [if_neg hout]
    split
    next hpa =>
      simp only
      rw [Function.update_of_ne]
      intro heq
      exact hpage (h.user_inj (by omega) hu hpa hp heq)
    next => rfl

theorem pde_of_walk {va : BitVec 32} (h : pteP (m.walk d (va.toNat / 4096)))
    : pteP (m.entry d (pdx va)) := by
  apply Classical.byContradiction
  intro hpde
  rw [walk_of_absent hpde, pteP_zero] at h
  contradiction

theorem loaduvm_loop {addr offset sz : BitVec 32} {ip : Binary} {k i : Nat} (h : Owned L m d)
    (haddr : addr.toNat % 4096 = 0) (hend : addr.toNat + sz.toNat ≤ 2 ^ 31)
    (hi : 4096 * i ≤ 2 ^ 31) (hk : sz.toNat ≤ 4096 * i + 4096 * k)
    (hp : ∀ u, addr.toNat ≤ 4096 * u → 4096 * u < addr.toNat + sz.toNat → pteP (m.walk d u))
    : ∃ r m', loaduvm.loop d addr ip offset sz (k + 1) m (pageAddr i) = .ok (r, m') ∧
        Pours d m m' ∧
        (r = true → ∀ a, a < 2 ^ 31 → m'.view d a =
          if addr.toNat + 4096 * i ≤ a ∧ a < addr.toNat + sz.toNat then
            ip.byte ((offset + pageAddr i).toNat + (a - (addr.toNat + 4096 * i)))
          else
            m.view d a) := by
  have hnil : sz.toNat ≤ 4096 * i → ∀ a, a < 2 ^ 31 → m.view d a =
      if addr.toNat + 4096 * i ≤ a ∧ a < addr.toNat + sz.toNat then
        ip.byte ((offset + pageAddr i).toNat + (a - (addr.toNat + 4096 * i)))
      else
        m.view d a := by
    intro hle a _
    rw [if_neg (by omega)]
  induction k generalizing m i with
  | zero =>
    have hva : (pageAddr i).toNat = 4096 * i := pageAddr_toNat (by omega)
    unfold loaduvm.loop
    rw [if_neg (by rw [BitVec.lt_def]; omega)]
    exact ⟨true, m, rfl, .refl d m, fun _ => hnil (by omega)⟩
  | succ k ih =>
    have hva : (pageAddr i).toNat = 4096 * i := pageAddr_toNat (by omega)
    unfold loaduvm.loop
    split
    next hlt =>
      rw [BitVec.lt_def, hva] at hlt
      have hsum : (addr + pageAddr i).toNat = addr.toNat + 4096 * i := by
        rw [BitVec.toNat_add, hva]
        omega
      have hvpn : (addr + pageAddr i).toNat / 4096 = addr.toNat / 4096 + i := by omega
      have hpage : pteP (m.walk d ((addr + pageAddr i).toNat / 4096)) := by
        rw [hvpn]
        apply hp
        . omega
        . omega
      have hpde := pde_of_walk hpage
      rw [walkpgdir_false, if_pos hpde]
      simp only
      rw [get_eq_walk hpde]
      have hsize : (if sz - pageAddr i < 4096 then sz - pageAddr i else 4096).toNat =
          min (sz.toNat - 4096 * i) 4096 := by
        have hsub : (sz - pageAddr i).toNat = sz.toNat - 4096 * i := by
          rw [BitVec.toNat_sub, hva]
          omega
        split
        next hsmall =>
          rw [BitVec.lt_def, hsub] at hsmall
          simp only [BitVec.ofNat_eq_ofNat, BitVec.toNat_ofNat] at hsmall
          omega
        next hbig =>
          rw [BitVec.lt_def, hsub] at hbig
          simp only [BitVec.ofNat_eq_ofNat, BitVec.toNat_ofNat] at hbig ⊢
          omega
      generalize (if sz - pageAddr i < 4096 then sz - pageAddr i else 4096) = size at hsize ⊢
      split
      . exact ⟨false, m, rfl, .refl d m, nofun⟩
      next n hn =>
        have hpours := pours_update (by omega) hpage ((m.phys (pteAddr (m.walk d
          ((addr + pageAddr i).toNat / 4096)))).blit 0 n
          (fun j => ip.byte ((offset + pageAddr i).toNat + j)))
        split
        . exact ⟨false, _, rfl, hpours, nofun⟩
        next hfull =>
          have hneq : n = size.toNat := Classical.byContradiction hfull
          rw [hneq] at hn
          have hview : ∀ a, a < 2 ^ 31 → view { m with
                phys := Function.update m.phys
                  (pteAddr (m.walk d ((addr + pageAddr i).toNat / 4096)))
                  ((m.phys (pteAddr (m.walk d ((addr + pageAddr i).toNat / 4096)))).blit 0 n
                    (fun j => ip.byte ((offset + pageAddr i).toNat + j))) } d a = _ :=
            fun a ha => view_blit h (by omega) hpage (by omega) ha
          rw [pageAddr_succ]
          rcases ih (i := i + 1) (hpours.owned h) (by omega) (by omega) (by
            intro u hu1 hu2
            rw [hpours.walk h (by omega)]
            exact hp u hu1 hu2) (by
            intro hle a _
            rw [if_neg (by omega)]) with ⟨r, m', hok, hpours', hview'⟩
          refine ⟨r, m', hok, hpours.trans hpours' h, ?_⟩
          intro hr a ha
          rw [hview' hr a ha, hview a ha]
          -- there is a next page only after one that was read in full
          by_cases hlater : addr.toNat + 4096 * (i + 1) ≤ a ∧ a < addr.toNat + sz.toNat
          . have hnext : (offset + pageAddr (i + 1)).toNat = (offset + pageAddr i).toNat + 4096 := by
              have hread := ip.readi_full hn
              rw [← pageAddr_succ, ← BitVec.add_assoc, BitVec.toNat_add]
              simp only [BitVec.ofNat_eq_ofNat, BitVec.toNat_ofNat]
              omega
            have hbyte : (offset + pageAddr i).toNat + 4096 + (a - (addr.toNat + 4096 * (i + 1))) =
                (offset + pageAddr i).toNat + (a - (addr.toNat + 4096 * i)) := by omega
            rw [if_pos hlater, if_pos (by omega), hnext, hbyte]
          . rw [if_neg hlater]
            by_cases hthis : addr.toNat + 4096 * i ≤ a ∧ a < addr.toNat + sz.toNat
            . rw [if_pos hthis, if_pos (by omega), Nat.add_zero, hvpn]
              have hbyte : a - 4096 * (addr.toNat / 4096 + i) = a - (addr.toNat + 4096 * i) := by omega
              rw [hbyte]
            . rw [if_neg hthis, if_neg (by omega)]
    next hge =>
      rw [BitVec.lt_def, hva] at hge
      exact ⟨true, m, rfl, .refl d m, fun _ => hnil (by omega)⟩

theorem Owned.loaduvm {addr sz : BitVec 32} (h : Owned L m d) (ip : Binary) (offset : BitVec 32)
    (haddr : addr.toNat % 4096 = 0) (hend : addr.toNat + sz.toNat ≤ 2 ^ 31)
    (hp : ∀ u, addr.toNat ≤ 4096 * u → 4096 * u < addr.toNat + sz.toNat → pteP (m.walk d u))
    : ∃ r m', m.loaduvm d addr ip offset sz = .ok (r, m') ∧ Pours d m m' ∧
        (r = true → ∀ a, a < 2 ^ 31 → m'.view d a =
          if addr.toNat ≤ a ∧ a < addr.toNat + sz.toNat then
            ip.byte (offset.toNat + (a - addr.toNat))
          else
            m.view d a) := by
  unfold Mem.loaduvm
  rw [if_neg (by rw [PGSIZE]; omega), NPAGES_eq]
  rcases loaduvm_loop (i := 0) (k := 1048575) h haddr hend (by omega) (by omega) hp
    with ⟨r, m', hok, hpours, hview⟩
  refine ⟨r, m', hok, hpours, ?_⟩
  intro hr a ha
  rw [hview hr a ha, Nat.mul_zero, Nat.add_zero, show offset + pageAddr 0 = offset from
    BitVec.add_zero offset]

theorem uva2ka_of_pde {cr3 va : BitVec 32} (h : pteP (m.entry d (pdx va)))
    : m.uva2ka cr3 d va =
        .ok (if pteP (m.walk d (va.toNat / 4096)) && pteU (m.walk d (va.toNat / 4096)) then
          some (pteAddr (m.walk d (va.toNat / 4096))) else none) := by
  unfold uva2ka
  rw [walkpgdir_false, if_pos h]
  simp only
  rw [get_eq_walk h, Fold.ok_bind]
  cases pteP (m.walk d (va.toNat / 4096)) with
  | false => rfl
  | true =>
    cases pteU (m.walk d (va.toNat / 4096)) with
    | false => rfl
    | true => rfl

theorem copyout_loop {cr3 va : BitVec 32} {buf : List (BitVec 8)} {fuel : Nat} (h : Owned L m d)
    (hfuel : buf.length ≤ fuel) (hend : va.toNat + buf.length ≤ 2 ^ 31)
    (hp : ∀ u, va.toNat / 4096 ≤ u → 4096 * u < va.toNat + buf.length → pteP (m.walk d u))
    : ∃ r m', copyout.loop cr3 d fuel m va buf = .ok (r, m') ∧ Pours d m m' := by
  induction fuel generalizing m va buf with
  | zero => exact ⟨true, m, rfl, .refl d m⟩
  | succ fuel ih =>
    unfold copyout.loop
    split
    next hpos =>
      have hva0 := pgrounddown_toNat va
      have hvpn : (pgrounddown va).toNat / 4096 = va.toNat / 4096 := by omega
      have hpage : pteP (m.walk d ((pgrounddown va).toNat / 4096)) := by
        rw [hvpn]
        apply hp
        . omega
        . omega
      simp only
      rw [uva2ka_of_pde (pde_of_walk hpage), Fold.ok_bind]
      rw [hvpn] at hpage ⊢
      cases pteU (m.walk d (va.toNat / 4096)) with
      | false =>
        rw [Bool.and_false]
        exact ⟨false, m, rfl, .refl d m⟩
      | true =>
        rw [Bool.and_true, if_pos hpage]
        simp only
        have hsub : (va - pgrounddown va).toNat = va.toNat % 4096 := by
          rw [BitVec.toNat_sub, hva0]
          omega
        have hnext : (pgrounddown va + 4096).toNat = 4096 * (va.toNat / 4096 + 1) := by
          rw [BitVec.toNat_add, hva0]
          simp only [BitVec.ofNat_eq_ofNat, BitVec.toNat_ofNat]
          omega
        rw [hsub]
        generalize hn : min (PGSIZE - va.toNat % 4096) buf.length = n
        rw [PGSIZE] at hn
        have hpours := pours_update (by omega) hpage
          ((m.phys (pteAddr (m.walk d (va.toNat / 4096)))).blit (va.toNat % 4096) n
            (fun i => buf.getD i 0))
        generalize ({ m with
          phys := Function.update m.phys (pteAddr (m.walk d (va.toNat / 4096)))
            ((m.phys (pteAddr (m.walk d (va.toNat / 4096)))).blit (va.toNat % 4096) n
              (fun i => buf.getD i 0)) } : Mem) = m₁ at hpours ⊢
        have hrest : (buf.drop n).length = buf.length - n := List.length_drop
        have hrec : ∃ r m', copyout.loop cr3 d fuel m₁ (pgrounddown va + 4096) (buf.drop n)
            = .ok (r, m') ∧ Pours d m₁ m' := by
          apply ih (hpours.owned h)
          . omega
          . omega
          . intro u hu1 hu2
            rw [hpours.walk h (by omega)]
            apply hp
            . omega
            . omega
        rcases hrec with ⟨r, m', hok, hpours'⟩
        exact ⟨r, m', hok, hpours.trans hpours' h⟩
    next => exact ⟨true, m, rfl, .refl d m⟩

theorem Owned.copyout {va : BitVec 32} {buf : List (BitVec 8)} (h : Owned L m d) (cr3 : BitVec 32)
    (hend : va.toNat + buf.length ≤ 2 ^ 31)
    (hp : ∀ u, va.toNat / 4096 ≤ u → 4096 * u < va.toNat + buf.length → pteP (m.walk d u))
    : ∃ r m', m.copyout cr3 d va buf = .ok (r, m') ∧ Pours d m m' :=
  copyout_loop h (le_refl _) hend hp

theorem copyout_kernel {va : BitVec 32} {buf : List (BitVec 8)} (cr3 : BitVec 32)
    (hbuf : 0 < buf.length) (hp : pteP (m.walk d (va.toNat / 4096)))
    (hu : pteU (m.walk d (va.toNat / 4096)) = false)
    : m.copyout cr3 d va buf = .ok (false, m) := by
  unfold copyout
  generalize hfuel : buf.length = fuel
  cases fuel with
  | zero => omega
  | succ fuel =>
    unfold copyout.loop
    have hvpn : (pgrounddown va).toNat / 4096 = va.toNat / 4096 := by
      rw [pgrounddown_toNat]
      omega
    have hpage : pteP (m.walk d ((pgrounddown va).toNat / 4096)) := by
      rw [hvpn]
      exact hp
    rw [if_pos hbuf]
    simp only
    rw [uva2ka_of_pde (pde_of_walk hpage), Fold.ok_bind, hvpn, hu, Bool.and_false]
    rfl

-- The pages of `d` and the free pages are the same together, and no other page changes.
structure Moves (d : BitVec 32) (m m' : Mem) : Prop where
  conserve : m'.own d + m'.free = m.own d + m.free
  frame : ∀ x, x ∉ m.own d + m.free → m'.phys x = m.phys x

theorem Moves.refl (d : BitVec 32) (m : Mem) : Moves d m m :=
  ⟨rfl, fun _ _ => rfl⟩

theorem Moves.trans (h₁ : Moves d m m') (h₂ : Moves d m' m'') : Moves d m m'' := by
  constructor
  . rw [h₂.conserve, h₁.conserve]
  . intro x hx
    rw [h₂.frame x (by rw [h₁.conserve]; exact hx), h₁.frame x hx]

theorem Moves.owned (h : Moves d m m') (hm : Owned L m d) : Owned L m' d :=
  hm.of_eq h.conserve

theorem Pours.moves (h : Pours d m m') (hm : Owned L m d) : Moves d m m' := by
  constructor
  . rw [h.own hm, h.free]
  . intro x hx
    apply h.frame
    intro hin
    apply hx
    rw [own_add_free, Multiset.mem_add]
    exact .inr hin

theorem Allocs.moves {P : Nat → Prop} {content : Nat → Page} {perm : Nat → BitVec 32}
    (h : Allocs d P content perm m m')
    : Moves d m m' :=
  ⟨h.conserve, fun _ => h.frame_own⟩

theorem Allocs.view {P : Nat → Prop} (h : AllocsZero d P m m') (hm : Owned L m d)
    (habsent : ∀ u, P u → ¬ pteP (m.walk d u)) {a : Nat} (ha : a < 2 ^ 31)
    : m'.view d a = m.view d a := by
  unfold Mem.view
  by_cases hP : P (a / 4096)
  . rcases h.fresh _ hP with ⟨_, pa, _, _, hpa, hzero⟩
    rw [if_pos (h.present hP), if_neg (habsent _ hP), hpa, hzero]
    exact Bytes.byte_zero _
  . rw [h.walk _ (by omega) hP]
    split
    next hp =>
      have hdisj := hm.user_disjoint (mem_user (by omega) hp)
      rw [h.frame]
      rw [Multiset.mem_add, not_or]
      exact hdisj
    next => rfl

theorem Allocs.pteU {P : Nat → Prop} (h : AllocsZero d P m m') (hm : Owned L m d) {u : Nat} (hu : P u)
    : pteU (m'.walk d u) = true := by
  rcases h.fresh u hu with ⟨_, pa, hfree, hwalk, _, _⟩
  have hmanaged := hm.managed pa (Multiset.mem_add.mpr (.inr hfree))
  rw [hwalk, BitVec.or_assoc, pteU_or _ hmanaged.1]
  decide

theorem Undoes.moves {P : Nat → Prop} (h : Undoes d P m m') : Moves d m m' := by
  refine ⟨h.conserve, ?_⟩
  intro x hx
  apply h.frame
  intro hin
  apply hx
  rw [← h.conserve, own_add_free, Multiset.mem_add]
  exact .inl hin

theorem Extends.moves {I : Nat → Prop} (h : Extends d I m m') : Moves d m m' := by
  refine ⟨h.own, ?_⟩
  intro x hx
  apply h.grows.frame
  intro hin
  apply hx
  rw [own_add_free, Multiset.mem_add]
  exact .inl hin

theorem Frees.moves {P : Nat → Prop} [DecidablePred P] (h : Frees d P m m') : Moves d m m' :=
  (Undoes.of_frees h).moves

/--
The user pages of `d` are those below `sz`, and its kernel half is that of `setupkvm`.
-/
structure Spans (L : Layout) (d : BitVec 32) (sz : Nat) (m : Mem) : Prop where
  owned : Owned L m d
  present : ∀ u, u < 2 ^ 19 → (pteP (m.walk d u) ↔ 4096 * u < sz)
  kernel : ∀ u, 2 ^ 19 ≤ u → u < 2 ^ 20 → m.walk d u = Kmap.walk L.kmap u

section

variable {sz : Nat}

theorem Kvm.spans (h : Kvm L d m m') (hm : Free L m) : Spans L d 0 m' := by
  refine ⟨h.owned hm, ?_, ?_⟩
  . intro u hu
    rw [h.walk u (by omega), L.kmap_ascending.walk_of_lt hu, pteP_zero]
    simp
  . intro u _ hu
    exact h.walk u hu

theorem Spans.view_zero (h : Spans L d 0 m) {a : Nat} (ha : a < 2 ^ 31) : m.view d a = 0 := by
  unfold view
  rw [if_neg]
  rw [h.present _ (by omega)]
  omega

theorem Spans.pours (h : Spans L d sz m) (hp : Pours d m m') : Spans L d sz m' := by
  refine ⟨hp.owned h.owned, ?_, ?_⟩
  . intro u hu
    rw [hp.walk h.owned (by omega)]
    exact h.present u hu
  . intro u hlo hu
    rw [hp.walk h.owned hu]
    exact h.kernel u hlo hu

theorem Spans.allocs (h : Spans L d sz m) {new : Nat}
    (ha : AllocsZero d (fun u => sz ≤ 4096 * u ∧ 4096 * u < new) m m') (hnew : new < 2 ^ 31)
    : Spans L d (max sz new) m' := by
  refine ⟨ha.owned h.owned, ?_, ?_⟩
  . intro u hu
    by_cases hP : sz ≤ 4096 * u ∧ 4096 * u < new
    . have hpresent := ha.present hP
      simp only [hpresent, true_iff]
      omega
    . rw [ha.walk u (by omega) hP, h.present u hu]
      omega
  . intro u hlo hu
    rw [ha.walk u hu (by omega), h.kernel u hlo hu]

theorem Spans.clearpteu (h : Spans L d sz m) {v : Nat} (hv : v < 2 ^ 19) (hsz : 4096 * v < sz)
    : ∃ m', m.clearpteu d (pageAddr v) = .ok m' ∧ Moves d m m' ∧ Spans L d sz m' ∧
        (∀ u, u < 2 ^ 20 → m'.walk d u = if u = v then m.walk d v &&& ~~~ PTE_U else m.walk d u) ∧
        (∀ i, m'.entry d i = m.entry d i) ∧ ∀ a, a < 2 ^ 31 → m'.view d a = m.view d a := by
  have hvpn : (pageAddr v).toNat / 4096 = v := by
    rw [pageAddr_toNat (by omega)]
    omega
  have hp : pteP (m.walk d ((pageAddr v).toNat / 4096)) := by
    rw [hvpn]
    exact (h.present v hv).mpr hsz
  have hpde := pde_of_walk hp
  unfold Mem.clearpteu
  rw [walkpgdir_false, if_pos hpde]
  simp only
  rw [get_eq_walk hpde]
  have hstores := h.owned.valid.set hpde (m.walk d ((pageAddr v).toNat / 4096) &&& ~~~ PTE_U)
  rw [hvpn] at hstores hp ⊢
  generalize m.set ⟨pteAddr (m.entry d (pdx (pageAddr v))), ptx (pageAddr v)⟩
    (m.walk d v &&& ~~~ PTE_U) = m₁ at hstores ⊢
  have hwalk : ∀ u, u < 2 ^ 20 → pteP (m₁.walk d u) = pteP (m.walk d u) ∧
      pteAddr (m₁.walk d u) = pteAddr (m.walk d u) := by
    intro u hu
    rw [hstores.walk u hu]
    split
    next heq => rw [heq, pteP_clear, pteAddr_clear]; exact ⟨rfl, rfl⟩
    . exact ⟨rfl, rfl⟩
  have huser : m₁.user d = m.user d := by
    unfold user
    apply Finset.sum_congr rfl
    intro u hu
    rw [mem_userPages] at hu
    unfold frameOf
    rw [(hwalk u (by omega)).1, (hwalk u (by omega)).2]
  have hmoves : Moves d m m₁ := by
    constructor
    . rw [own_add_free, own_add_free, huser, hstores.grows.conserve]
    . intro x hx
      apply hstores.grows.frame
      intro hin
      apply hx
      rw [own_add_free, Multiset.mem_add]
      exact .inl hin
  refine ⟨m₁, rfl, hmoves, ⟨hmoves.owned h.owned, ?_, ?_⟩, hstores.walk, hstores.entry, ?_⟩
  . intro u hu
    rw [(hwalk u (by omega)).1]
    exact h.present u hu
  . intro u hlo hu
    rw [hstores.walk u hu, if_neg (by omega), h.kernel u hlo hu]
  . intro a ha
    unfold view
    rw [(hwalk _ (by omega)).1, (hwalk _ (by omega)).2]
    split
    next hpa =>
      have hdisj := h.owned.user_disjoint (mem_user (by omega) hpa)
      rw [hstores.grows.frame]
      rw [Multiset.mem_add, not_or]
      exact hdisj
    next => rfl

end

theorem Spans.allocuvm {sz : BitVec 32} (h : Spans L d sz.toNat m) (new : BitVec 32)
    : ∃ r m', m.allocuvm L d sz new = .ok (r, m') ∧ Moves d m m' ∧
        (r ≠ 0 → new.toNat < 2 ^ 31 ∧ r.toNat = max sz.toNat new.toNat ∧ Spans L d r.toNat m' ∧
          (∀ a, a < 2 ^ 31 → m'.view d a = m.view d a) ∧
          ∀ u, sz.toNat ≤ 4096 * u → 4096 * u < new.toNat → pteU (m'.walk d u) = true) := by
  have habsent : ∀ u, u < 2 ^ 19 → sz.toNat ≤ 4096 * u → 4096 * u < new.toNat →
      ¬ pteP (m.walk d u) := by
    intro u hu hle _ hp
    rw [h.present u hu] at hp
    omega
  rcases h.owned.allocuvm habsent with ⟨r, m', hok, hres⟩
  refine ⟨r, m', hok, ?_⟩
  cases hres with
  | inl hsome =>
    rcases hsome with ⟨hnew, hr, hallocs⟩
    have hmax : r.toNat = max sz.toNat new.toNat := by
      rw [hr]
      split
      next hlt =>
        rw [BitVec.lt_def] at hlt
        omega
      next hle =>
        rw [BitVec.lt_def] at hle
        omega
    refine ⟨hallocs.moves, ?_⟩
    intro _
    rw [hmax]
    refine ⟨hnew, rfl, h.allocs hallocs hnew, ?_, ?_⟩
    . intro a ha
      apply hallocs.view h.owned _ ha
      intro u hu
      exact habsent u (by omega) hu.1 hu.2
    . intro u hu1 hu2
      exact hallocs.pteU h.owned ⟨hu1, hu2⟩
  | inr hzero =>
    refine ⟨hzero.2.moves, ?_⟩
    intro hr
    exact absurd hzero.1 hr

structure Loaded (L : Layout) (d : BitVec 32) (ip : Binary) (k : Nat) (off sz : BitVec 32) (m m' : Mem)
    : Prop where
  spans : Spans L d sz.toNat m'
  sz : sz.toNat < 2 ^ 31
  content : ∃ phs, ip.phdrs k off = some phs ∧
    ∀ a, a < 2 ^ 31 → m'.view d a = ip.content phs (m.view d a) a

theorem Loaded.cons {ip : Binary} {k : Nat} {off sz : BitVec 32} {b : Bytes 32}
    (h : Loaded L d ip k (off + 32) sz m' m'') (hb : ip.read 32 off = some b)
    (hview : ∀ a, a < 2 ^ 31 → m'.view d a = if (Proghdr.ofBytes b).covers a then
      ip.byte ((Proghdr.ofBytes b).off.toNat + (a - (Proghdr.ofBytes b).vaddr.toNat)) else m.view d a)
    : Loaded L d ip (k + 1) off sz m m'' := by
  rcases h.content with ⟨phs, hphs, hcontent⟩
  refine ⟨h.spans, h.sz, Proghdr.ofBytes b :: phs, ?_, ?_⟩
  . unfold Binary.phdrs
    rw [hb]
    simp only
    rw [hphs]
    rfl
  . intro a ha
    rw [hcontent a ha, hview a ha, Binary.content_cons]

theorem execLoad_ok (ip : Binary) (k : Nat) (off : BitVec 32) {sz : BitVec 32} (h : Spans L d sz.toNat m)
    (hsz : sz.toNat < 2 ^ 31)
    : ∃ r m', execLoad L d ip k m off sz = .ok (r, m') ∧ Moves d m m' ∧
        ∀ sz', r = some sz' → Loaded L d ip k off sz' m m' := by
  induction k generalizing m off sz with
  | zero =>
    refine ⟨some sz, m, rfl, .refl d m, ?_⟩
    intro sz' heq
    cases heq
    exact ⟨h, hsz, [], rfl, fun _ _ => rfl⟩
  | succ k ih =>
    have hbad : ∀ m', Moves d m m' → ∃ r m'', (.ok (none, m') : Except Fault (Option (BitVec 32) × Mem))
        = .ok (r, m'') ∧ Moves d m m'' ∧
        ∀ sz', r = some sz' → Loaded L d ip (k + 1) off sz' m m'' :=
      fun m' hm' => ⟨none, m', rfl, hm', nofun⟩
    unfold execLoad
    split
    . exact hbad m (.refl d m)
    next b hb =>
      simp only
      have hcons : ∀ {sz' m₁ m₂}, Loaded L d ip k (off + 32) sz' m₁ m₂ →
          (∀ a, a < 2 ^ 31 → m₁.view d a = if (Proghdr.ofBytes b).covers a then
            ip.byte ((Proghdr.ofBytes b).off.toNat + (a - (Proghdr.ofBytes b).vaddr.toNat))
            else m.view d a) →
          Loaded L d ip (k + 1) off sz' m m₂ := by
        intro sz' m₁ m₂ hrest hview
        exact hrest.cons hb hview
      generalize Proghdr.ofBytes b = ph at hcons ⊢
      split
      next hskip =>
        rcases ih (off + 32) h hsz with ⟨r, m', hok, hmoves, hpost⟩
        refine ⟨r, m', hok, hmoves, ?_⟩
        intro sz' hr
        apply hcons (hpost sz' hr)
        intro a _
        rw [if_neg]
        unfold Proghdr.covers
        rw [decide_eq_true_eq]
        intro hcov
        cases hskip with
        | inl htype => exact htype hcov.1
        | inr hmemsz => exact hcov.2.1 hmemsz
      next hkeep =>
        rw [not_or, Classical.not_not] at hkeep
        split
        . exact hbad m (.refl d m)
        next hfile =>
          split
          . exact hbad m (.refl d m)
          next hwrap =>
            rw [BitVec.lt_def] at hfile hwrap
            rcases h.allocuvm (ph.vaddr + ph.memsz) with ⟨sz₁, m₁, hok, hmoves, hspans⟩
            rw [hok, Fold.ok_bind]
            split
            . exact hbad m₁ hmoves
            next hzero =>
              rcases hspans hzero with ⟨hnew, hmax, hspans₁, hview₁, _⟩
              split
              . exact hbad m₁ hmoves
              next halign =>
                have hsum : (ph.vaddr + ph.memsz).toNat = ph.vaddr.toNat + ph.memsz.toNat := by
                  rw [BitVec.toNat_add] at hwrap ⊢
                  have := ph.vaddr.isLt
                  have := ph.memsz.isLt
                  omega
                rw [PGSIZE] at halign
                have hload : ∃ r m', m₁.loaduvm d ph.vaddr ip ph.off ph.filesz = .ok (r, m') ∧
                    Pours d m₁ m' ∧
                    (r = true → ∀ a, a < 2 ^ 31 → m'.view d a =
                      if ph.vaddr.toNat ≤ a ∧ a < ph.vaddr.toNat + ph.filesz.toNat then
                        ip.byte (ph.off.toNat + (a - ph.vaddr.toNat))
                      else
                        m₁.view d a) := by
                  apply hspans₁.owned.loaduvm
                  . omega
                  . omega
                  . intro u hu1 hu2
                    rw [hspans₁.present u (by omega)]
                    omega
                rcases hload with ⟨r, m₂, hok₂, hpours, hview₂⟩
                rw [hok₂, Fold.ok_bind]
                have hmoves₂ := hmoves.trans (hpours.moves hspans₁.owned)
                cases r with
                | false => exact hbad m₂ hmoves₂
                | true =>
                  rcases ih (off + 32) (hspans₁.pours hpours) (by omega)
                    with ⟨r, m', hok', hmoves', hpost⟩
                  refine ⟨r, m', hok', hmoves₂.trans hmoves', ?_⟩
                  intro sz' hr
                  apply hcons (hpost sz' hr)
                  intro a ha
                  rw [hview₂ rfl a ha, hview₁ a ha]
                  simp only [Proghdr.covers, hkeep, ne_eq, not_false_eq_true, true_and,
                    decide_eq_true_eq]

theorem Spans.copyout {sz : Nat} {va : BitVec 32} {buf : List (BitVec 8)} (h : Spans L d sz m)
    (cr3 : BitVec 32) (hsz : sz ≤ 2 ^ 31) (hbuf : 0 < buf.length)
    (hva : va.toNat + buf.length ≤ sz ∨ 0xFE000000 ≤ va.toNat)
    : ∃ r m', m.copyout cr3 d va buf = .ok (r, m') ∧ Pours d m m' ∧
        (r = true → va.toNat + buf.length ≤ sz) := by
  cases hva with
  | inl hle =>
    have hcopy : ∃ r m', m.copyout cr3 d va buf = .ok (r, m') ∧ Pours d m m' := by
      apply h.owned.copyout
      . omega
      . intro u _ hu
        rw [h.present u (by omega)]
        omega
    rcases hcopy with ⟨r, m', hok, hpours⟩
    exact ⟨r, m', hok, hpours, fun _ => hle⟩
  | inr hge =>
    have hva := va.isLt
    have hwalk := h.kernel (va.toNat / 4096) (by omega) (by omega)
    refine ⟨false, m, ?_, .refl d m, by simp⟩
    apply copyout_kernel cr3 hbuf
    . rw [hwalk]
      exact L.kmap_devspace (by omega) (by omega)
    . rw [hwalk]
      exact L.kmap_pteU _

-- Subtracting from a stack pointer below `sz` leads below it or, for up to 32 MB, to the devices.
theorem sub_below (sp : BitVec 32) {n : Nat} (hn : n + 3 ≤ 2 ^ 25)
    : ((sp - BitVec.ofNat 32 n) &&& ~~~ 3).toNat + n ≤ sp.toNat ∨
        0xFE000000 ≤ ((sp - BitVec.ofNat 32 n) &&& ~~~ 3).toNat := by
  rw [and_not_three_toNat, BitVec.toNat_sub, BitVec.toNat_ofNat]
  have := sp.isLt
  omega

theorem execArgs_ok {cr3 sp : BitVec 32} {sz argc : Nat} {argv : List (List (BitVec 8))}
    {ustack : List (BitVec 32)} (h : Spans L d sz m) (hsz : sz ≤ 2 ^ 31)
    (hargv : ∀ s ∈ argv, s.length + 4 ≤ 2 ^ 25) (hsp : sp.toNat ≤ sz) (hargc : argc ≤ 32)
    (hustack : ustack.length = argc)
    : ∃ r m', execArgs cr3 d argv argc m sp ustack = .ok (r, m') ∧ Pours d m m' ∧
        ∀ x, r = some x → x.1 ≤ 32 ∧ x.2.1.toNat ≤ sz ∧ x.2.2.length = x.1 := by
  induction argv generalizing m sp argc ustack with
  | nil =>
    refine ⟨some (argc, sp, ustack), m, rfl, .refl d m, ?_⟩
    intro x hx
    cases hx
    exact ⟨hargc, hsp, hustack⟩
  | cons s argv ih =>
    unfold execArgs
    split
    . exact ⟨none, m, rfl, .refl d m, by simp⟩
    next hlt =>
      rw [MAXARG] at hlt
      have hlen : (s ++ [0]).length = s.length + 1 := by simp
      have hs := hargv s List.mem_cons_self
      have hsub := sub_below sp (n := s.length + 1) (by omega)
      simp only
      generalize (sp - BitVec.ofNat 32 (s.length + 1)) &&& ~~~ 3 = sp' at hsub ⊢
      have hcopy : ∃ r m', m.copyout cr3 d sp' (s ++ [0]) = .ok (r, m') ∧ Pours d m m' ∧
          (r = true → sp'.toNat + (s ++ [0]).length ≤ sz) := by
        apply h.copyout cr3 hsz
        . omega
        . omega
      rcases hcopy with ⟨r, m₁, hok, hpours, hbelow⟩
      rw [hok, Fold.ok_bind]
      cases r with
      | false => exact ⟨none, m₁, rfl, hpours, by simp⟩
      | true =>
        have hsp' := hbelow rfl
        have hrec : ∃ r m', execArgs cr3 d argv (argc + 1) m₁ sp' (ustack ++ [sp']) = .ok (r, m') ∧
            Pours d m₁ m' ∧
            ∀ x, r = some x → x.1 ≤ 32 ∧ x.2.1.toNat ≤ sz ∧ x.2.2.length = x.1 := by
          apply ih (h.pours hpours)
          . intro t ht
            exact hargv t (List.mem_cons_of_mem s ht)
          . omega
          . omega
          . rw [List.length_append, hustack]
            rfl
        rcases hrec with ⟨r, m', hok', hpours', hpost⟩
        exact ⟨r, m', hok', hpours.trans hpours' h.owned, hpost⟩

theorem length_wordBytes (w : BitVec 32) : (wordBytes w).length = 4 := by
  simp [wordBytes]

theorem length_flatMap_wordBytes (l : List (BitVec 32)) : (l.flatMap wordBytes).length = 4 * l.length := by
  induction l with
  | nil => rfl
  | cons w l ih =>
    rw [List.flatMap_cons, List.length_append, length_wordBytes, ih, List.length_cons]
    omega

theorem execStack_ok {cr3 sz : BitVec 32} {argv : List (List (BitVec 8))}
    (h : Spans L d sz.toNat m) (hsz : sz.toNat ≤ 2 ^ 31)
    (hargv : ∀ s ∈ argv, s.length + 4 ≤ 2 ^ 25)
    : ∃ r m', m.execStack cr3 d sz argv = .ok (r, m') ∧ Pours d m m' := by
  unfold execStack
  have hargs : ∃ r m', execArgs cr3 d argv 0 m sz [] = .ok (r, m') ∧ Pours d m m' ∧
      ∀ x, r = some x → x.1 ≤ 32 ∧ x.2.1.toNat ≤ sz.toNat ∧ x.2.2.length = x.1 :=
    execArgs_ok h hsz hargv (le_refl _) (Nat.zero_le 32) rfl
  rcases hargs with ⟨r, m₁, hok, hpours, hpost⟩
  rw [hok, Fold.ok_bind]
  cases r with
  | none => exact ⟨none, m₁, rfl, hpours⟩
  | some x =>
    rcases x with ⟨argc, sp, ustack⟩
    rcases hpost _ rfl with ⟨hargc, hsp, hlen⟩
    simp only at *
    generalize hbuf : ([0xffffffff, BitVec.ofNat 32 argc, sp - BitVec.ofNat 32 ((argc + 1) * 4)] ++
      ustack ++ [0]).flatMap wordBytes = buf
    have hbuflen : buf.length = (3 + argc + 1) * 4 := by
      rw [← hbuf, length_flatMap_wordBytes]
      simp only [List.length_append, List.length_cons, List.length_nil, hlen]
      omega
    have hva : (sp - BitVec.ofNat 32 ((3 + argc + 1) * 4)).toNat + buf.length ≤ sz.toNat ∨
        0xFE000000 ≤ (sp - BitVec.ofNat 32 ((3 + argc + 1) * 4)).toNat := by
      rw [BitVec.toNat_sub, BitVec.toNat_ofNat]
      have := sp.isLt
      omega
    rcases (h.pours hpours).copyout cr3 hsz (by omega) hva with ⟨r, m₂, hok₂, hpours₂, _⟩
    rw [hok₂, Fold.ok_bind]
    exact ⟨_, m₂, rfl, hpours.trans hpours₂ h.owned⟩

-- an address space with one page for the stack at its end, and one below it that is not accessible
-- to user code
structure Guarded (L : Layout) (d : BitVec 32) (sz : Nat) (m : Mem) : Prop where
  spans : Spans L d sz m
  align : sz % 4096 = 0
  two : 8192 ≤ sz
  below : sz < 2 ^ 31
  stack : pteU (m.walk d (sz / 4096 - 1)) = true
  guard : pteU (m.walk d (sz / 4096 - 2)) = false

theorem Guarded.pours {sz : Nat} (h : Guarded L d sz m) (hp : Pours d m m') : Guarded L d sz m' := by
  have := h.below
  refine ⟨h.spans.pours hp, h.align, h.two, h.below, ?_, ?_⟩
  . rw [hp.walk h.spans.owned (by omega)]
    exact h.stack
  . rw [hp.walk h.spans.owned (by omega)]
    exact h.guard

structure Ready (L : Layout) (d : BitVec 32) (sz : Nat) (content : Nat → BitVec 8) (m : Mem) : Prop
    extends Guarded L d sz m where
  view : ∀ a, a < sz → m.view d a = content a

structure Built (L : Layout) (ip : Binary) (elf : Elfhdr) (image : Image) (m m' : Mem) : Prop where
  eip : image.eip = elf.entry
  ready : ∃ phs, ip.phdrs elf.phnum elf.phoff = some phs ∧
    Ready L image.pgdir image.sz.toNat (ip.content phs 0) m
  pours : Pours image.pgdir m m'

-- the guard page and the stack begin with the next page
theorem Spans.rounded {sz : BitVec 32} (h : Spans L d sz.toNat m) (hsz : sz.toNat < 2 ^ 31)
    : (pgroundup sz).toNat = 4096 * ((sz.toNat + 4095) / 4096) ∧ Spans L d (pgroundup sz).toNat m ∧
        (pgroundup sz + 2 * 4096).toNat = (pgroundup sz).toNat + 8192 := by
  have hup := pgroundup_toNat (by omega : sz.toNat + 4095 < 2 ^ 32)
  refine ⟨hup, ⟨h.owned, ?_, h.kernel⟩, ?_⟩
  . intro u hu
    rw [h.present u hu, hup]
    omega
  . rw [BitVec.toNat_add, show (2 * 4096 : BitVec 32).toNat = 8192 from rfl]
    omega

theorem guard_eq {sz : BitVec 32} {k : Nat} (h : sz.toNat = 4096 * k + 8192)
    : sz - 2 * 4096 = pageAddr k := by
  apply BitVec.eq_of_toNat_eq
  rw [BitVec.toNat_sub, show (2 * 4096 : BitVec 32).toNat = 8192 from rfl, pageAddr_toNat (by omega)]
  omega

section

variable {cr3 : BitVec 32} {argv : List (List (BitVec 8))}
  {Q : BitVec 32 → BitVec 32 → BitVec 32 → Mem → Mem → Prop}

theorem execBuild_of {ip : Binary} {elf : Elfhdr} (h : Spans L d 0 m)
    (hstack : ∀ sz content m₁, Moves d m m₁ → Ready L d sz.toNat content m₁ →
      ∃ r m', m₁.execStack cr3 d sz argv = .ok (r, m') ∧ Pours d m₁ m' ∧
        ∀ sp, r = some sp → Q d sz sp m₁ m')
    : ∃ r m', m.execBuild L cr3 d ip elf argv = .ok (r, m') ∧ Moves d m m' ∧
        ∀ image, r = some image → image.pgdir = d ∧
          ∃ m₁, Built L ip elf image m₁ m' ∧ Q d image.sz image.esp m₁ m' := by
  unfold execBuild
  have hload : ∃ r m', execLoad L d ip elf.phnum m elf.phoff 0 = .ok (r, m') ∧ Moves d m m' ∧
      ∀ sz', r = some sz' → Loaded L d ip elf.phnum elf.phoff sz' m m' :=
    execLoad_ok _ _ elf.phoff h (by decide)
  rcases hload with ⟨r, m₁, hok, hmoves, hpost⟩
  rw [hok, Fold.ok_bind]
  cases r with
  | none => exact ⟨none, m₁, rfl, hmoves, nofun⟩
  | some sz =>
    rcases hpost sz rfl with ⟨hspans, hsz, phs, hphs, hcontent⟩
    simp only
    rcases hspans.rounded hsz with ⟨hup, hspans', hsum⟩
    rcases hspans'.allocuvm (pgroundup sz + 2 * 4096) with ⟨sz₁, m₂, hok₂, hmoves₂, hpost₂⟩
    rw [hok₂, Fold.ok_bind]
    split
    . exact ⟨none, m₂, rfl, hmoves.trans hmoves₂, nofun⟩
    next hzero =>
      rcases hpost₂ hzero with ⟨hnew, hmax, hspans₂, hview₂, huser₂⟩
      have hsz₁ : sz₁.toNat = 4096 * ((sz.toNat + 4095) / 4096) + 8192 := by omega
      rw [guard_eq hsz₁]
      rcases hspans₂.clearpteu (v := (sz.toNat + 4095) / 4096) (by omega) (by omega)
        with ⟨m₃, hok₃, hmoves₃, hspans₃, hwalk₃, _, hview₃⟩
      rw [hok₃, Fold.ok_bind]
      have hmoves' := (hmoves.trans hmoves₂).trans hmoves₃
      have hready : Ready L d sz₁.toNat (ip.content phs 0) m₃ := by
        refine ⟨⟨hspans₃, by omega, by omega, by omega, ?_, ?_⟩, ?_⟩
        . rw [hwalk₃ _ (by omega), if_neg (by omega)]
          exact huser₂ _ (by omega) (by omega)
        . rw [hwalk₃ _ (by omega), if_pos (by omega)]
          exact pteU_clear _
        . intro a ha
          rw [hview₃ a (by omega), hview₂ a (by omega), hcontent a (by omega), h.view_zero (by omega)]
      rcases hstack sz₁ _ m₃ hmoves' hready with ⟨r, m₄, hok₄, hpours, hQ⟩
      rw [hok₄, Fold.ok_bind]
      have hall := hmoves'.trans (hpours.moves hspans₃.owned)
      cases r with
      | none => exact ⟨none, m₄, rfl, hall, nofun⟩
      | some sp =>
        refine ⟨some ⟨d, sz₁, elf.entry, sp⟩, m₄, rfl, hall, ?_⟩
        intro image himage
        cases himage
        exact ⟨rfl, m₃, ⟨rfl, ⟨phs, hphs, hready⟩, hpours⟩, hQ sp rfl⟩

/--
The outcomes of `exec` up to its commit: nothing is taken, or there is a new address space.
-/
theorem Free.execImage_of (ip : Option Binary) (h : Free L m)
    (hstack : ∀ d sz content m₁, m₁.own d + m₁.free = m.free →
      (∀ x, x ∉ m.free → m₁.phys x = m.phys x) → Ready L d sz.toNat content m₁ →
      ∃ r m', m₁.execStack cr3 d sz argv = .ok (r, m') ∧ Pours d m₁ m' ∧
        ∀ sp, r = some sp → Q d sz sp m₁ m')
    : ∃ r m', m.execImage L cr3 ip argv = .ok (r, m') ∧
        ((r = none ∧ Restores m m') ∨
          ∃ file b image m₁, ip = some file ∧ file.read 52 0 = some b ∧ r = some image ∧
            Built L file (Elfhdr.ofBytes b) image m₁ m' ∧ Q image.pgdir image.sz image.esp m₁ m' ∧
            m'.own image.pgdir + m'.free = m.free ∧ ∀ x, x ∉ m.free → m'.phys x = m.phys x) := by
  have hnone : Restores m m := ⟨rfl, fun _ _ => rfl⟩
  unfold Mem.execImage
  cases ip with
  | none => exact ⟨none, m, rfl, .inl ⟨rfl, hnone⟩⟩
  | some ip =>
    simp only
    split
    . exact ⟨none, m, rfl, .inl ⟨rfl, hnone⟩⟩
    next b hb =>
      split
      . exact ⟨none, m, rfl, .inl ⟨rfl, hnone⟩⟩
      . rcases h.setupkvm with ⟨r, m₁, hok, hres⟩
        rw [hok, Fold.ok_bind]
        cases hres with
        | inl hfail =>
          rw [hfail.1]
          exact ⟨none, m₁, rfl, .inl ⟨rfl, hfail.2⟩⟩
        | inr hsome =>
          rcases hsome with ⟨d, hr, hkvm⟩
          rw [hr]
          simp only
          have hmoved : ∀ {m₂}, Moves d m₁ m₂ → m₂.own d + m₂.free = m.free ∧
              ∀ x, x ∉ m.free → m₂.phys x = m.phys x := by
            intro m₂ hmoves
            refine ⟨by rw [hmoves.conserve, hkvm.own], ?_⟩
            intro x hx
            rw [hmoves.frame x (by rw [hkvm.own]; exact hx), hkvm.frame x hx]
          have hbuild : ∃ r m', m₁.execBuild L cr3 d ip (Elfhdr.ofBytes b) argv = .ok (r, m') ∧
              Moves d m₁ m' ∧
              ∀ image, r = some image → image.pgdir = d ∧
                ∃ m₂, Built L ip (Elfhdr.ofBytes b) image m₂ m' ∧ Q d image.sz image.esp m₂ m' := by
            apply execBuild_of (hkvm.spans h)
            intro sz content m₂ hmoves hready
            exact hstack d sz content m₂ (hmoved hmoves).1 (hmoved hmoves).2 hready
          rcases hbuild with ⟨r, m₂, hok₂, hmoves, hpost⟩
          rw [hok₂, Fold.ok_bind]
          rcases hmoved hmoves with ⟨hown, hframe⟩
          cases r with
          | none =>
            rcases (hmoves.owned (hkvm.owned h)).freevm with ⟨m₃, hok₃, hfree, hframe₃⟩
            simp only
            rw [hok₃, Fold.ok_bind]
            refine ⟨none, m₃, rfl, .inl ⟨rfl, ?_, ?_⟩⟩
            . rw [hfree, hown]
            . intro x hx
              rw [hframe₃ x (by rw [hown]; exact hx), hframe x hx]
          | some image =>
            rcases hpost image rfl with ⟨hd, m₃, hbuilt, hQ⟩
            rw [← hd] at hown hQ
            exact ⟨some image, m₂, rfl,
              .inr ⟨ip, b, image, m₃, rfl, hb, rfl, hbuilt, hQ, hown, hframe⟩⟩

end

theorem Built.spans {ip : Binary} {elf : Elfhdr} {image : Image} (h : Built L ip elf image m m')
    : image.sz.toNat % 4096 = 0 ∧ image.sz.toNat < 2 ^ 31 ∧ Spans L image.pgdir image.sz.toNat m' := by
  rcases h.ready with ⟨phs, _, hready⟩
  exact ⟨hready.align, hready.below, hready.spans.pours h.pours⟩

theorem Free.execImage {cr3 : BitVec 32} {ip : Option Binary} {argv : List (List (BitVec 8))}
    (h : Free L m) (hargv : ∀ s ∈ argv, s.length + 4 ≤ 2 ^ 25)
    : ∃ r m', m.execImage L cr3 ip argv = .ok (r, m') ∧
        ((r = none ∧ Restores m m') ∨
          ∃ image, r = some image ∧ image.sz.toNat % 4096 = 0 ∧ image.sz.toNat < 2 ^ 31 ∧
            Spans L image.pgdir image.sz.toNat m' ∧ m'.own image.pgdir + m'.free = m.free ∧
            ∀ x, x ∉ m.free → m'.phys x = m.phys x) := by
  have hstack : ∀ d sz content m₁, m₁.own d + m₁.free = m.free →
      (∀ x, x ∉ m.free → m₁.phys x = m.phys x) → Ready L d sz.toNat content m₁ →
      ∃ r m', m₁.execStack cr3 d sz argv = .ok (r, m') ∧ Pours d m₁ m' ∧
        ∀ sp, r = some sp → True := by
    intro d sz content m₁ _ _ hready
    have hok : ∃ r m', m₁.execStack cr3 d sz argv = .ok (r, m') ∧ Pours d m₁ m' :=
      execStack_ok hready.spans (le_of_lt hready.below) hargv
    rcases hok with ⟨r, m', hok, hpours⟩
    exact ⟨r, m', hok, hpours, fun _ _ => trivial⟩
  rcases h.execImage_of ip hstack with ⟨r, m', hok, hres⟩
  refine ⟨r, m', hok, ?_⟩
  cases hres with
  | inl hnone => exact .inl hnone
  | inr hsome =>
    rcases hsome with ⟨_, _, image, _, _, _, hr, hbuilt, _, hown, hframe⟩
    rcases hbuilt.spans with ⟨halign, hsz, hspans⟩
    exact .inr ⟨image, hr, halign, hsz, hspans, hown, hframe⟩

end Mem

end Xv6
