import Xv6.Vm.Lemmas.Conserve
import Xv6.Vm.Lemmas.Supply

/-!
An argument of `exec` that is so long that `copyout` gets below the devices, where there is no page
table: `uva2ka` then takes the word at address 0 of the running program for the entry of a page.
-/

namespace Xv6

namespace Mem

variable {L : Layout} {d cr3 w : BitVec 32} {m m' : Mem}

theorem nullWord_of_walk (hp : pteP (m.walk cr3 0))
    : m.nullWord cr3 = .ok ((m.phys (pteAddr (m.walk cr3 0))).getWord 0) := by
  have hpde : pteP (m.entry cr3 (pdx 0)) := pde_of_walk hp
  have hget : m.get ⟨pteAddr (m.entry cr3 (pdx 0)), ptx 0⟩ = m.walk cr3 0 := get_eq_walk hpde
  unfold nullWord
  rw [walkpgdir_false, if_pos hpde]
  dsimp only
  rw [hget, if_pos hp]

def overrun (m : Mem) (t : BitVec 32) (buf : List (BitVec 8)) : Mem :=
  { m with phys := Function.update m.phys t ((m.phys t).blit 0 4096 (fun i => buf.getD i 0)) }

theorem overrun_phys_of_ne {t x : BitVec 32} (buf : List (BitVec 8)) (h : x ≠ t)
    : (m.overrun t buf).phys x = m.phys x :=
  Function.update_of_ne h _ _

-- the first page has no page table, and the second one is of the kernel
theorem copyout_overrun {va : BitVec 32} {buf : List (BitVec 8)}
    (hpde : ¬pteP (m.entry d (pdx va))) (hnull : m.nullWord cr3 = .ok w) (hp : pteP w) (hu : pteU w)
    (halign : va.toNat % 4096 = 0) (hlen : 4096 < buf.length) (hout : pteAddr w ∉ m.tables d)
    (hva : va.toNat / 4096 + 1 < 2 ^ 20) (hnext : pteP (m.walk d (va.toNat / 4096 + 1)))
    (hkernel : ¬pteU (m.walk d (va.toNat / 4096 + 1)))
    : m.copyout cr3 d va buf = .ok (false, m.overrun (pteAddr w) buf) := by
  have hva0 : pgrounddown va = va := by
    apply BitVec.eq_of_toNat_eq
    rw [pgrounddown_toNat]
    omega
  have hmin : min (PGSIZE - (va - va).toNat) buf.length = 4096 := by
    rw [BitVec.sub_self, show PGSIZE - (0#32).toNat = 4096 from rfl]
    omega
  have hka : m.uva2ka cr3 d va = .ok (some (pteAddr w)) := by
    unfold uva2ka
    rw [walkpgdir_false, if_neg hpde]
    dsimp only
    rw [hnull, Fold.ok_bind, hp, hu]
    rfl
  have hsame : ∀ x ∈ m.tables d, (m.overrun (pteAddr w) buf).phys x = m.phys x := by
    intro x hx
    apply overrun_phys_of_ne
    rintro rfl
    exact hout hx
  have hva1 : (va + 4096).toNat / 4096 = va.toNat / 4096 + 1 := by
    rw [BitVec.toNat_add, show (4096 : BitVec 32).toNat = 4096 from rfl]
    omega
  rcases Nat.exists_eq_add_of_le (show 2 ≤ buf.length by omega) with ⟨k, hk⟩
  unfold Mem.copyout
  generalize hfuel : buf.length = fuel
  rw [hfuel, Nat.add_comm] at hk
  rw [hk, copyout.loop, if_pos (by omega)]
  dsimp only
  rw [hva0, hka, Fold.ok_bind]
  dsimp only
  rw [hmin, BitVec.sub_self]
  show copyout.loop cr3 d (k + 1) (m.overrun (pteAddr w) buf) _ _ = _
  rw [copyout_step, hva1, walk_congr hsame hva, if_neg]
  . unfold pteUser
    rw [Bool.and_eq_true, not_and]
    intro _
    exact hkernel
  . rw [List.length_drop]
    omega
  . apply pde_of_walk
    rw [hva1, walk_congr hsame hva]
    exact hnext

-- With 0x2000 bytes for the stack, a string of this length begins with the page below the devices.
abbrev LONG : Nat := 0x2002FFF

theorem execStack_overrun {s : List (BitVec 8)} (hlong : s.length = LONG) (h : Spans L d 8192 m)
    (hentry : m.entry d 1015 = 0) (hnull : m.nullWord cr3 = .ok w) (hp : pteP w) (hu : pteU w)
    (hout : pteAddr w ∉ m.own d)
    : m.execStack cr3 d 8192 [s] = .ok (none, m.overrun (pteAddr w) (s ++ [0])) := by
  have hsp : (8192 - BitVec.ofNat 32 (s.length + 1)) &&& ~~~ 3 = (0xFDFFF000 : BitVec 32) := by
    rw [hlong]
    decide
  have hcopy : m.copyout cr3 d 0xFDFFF000 (s ++ [0]) =
      .ok (false, m.overrun (pteAddr w) (s ++ [0])) := by
    have hwalk : m.walk d 0xFE000 = Kmap.walk L.kmap 0xFE000 := h.kernel _ (by decide) (by decide)
    apply copyout_overrun _ hnull hp hu
    . decide
    . rw [List.length_append, hlong]
      decide
    . intro hin
      exact hout (Multiset.mem_add.mpr (.inl hin))
    . decide
    . show pteP (m.walk d 0xFE000)
      rw [hwalk]
      exact L.kmap_devspace (by decide) (by decide)
    . show ¬pteU (m.walk d 0xFE000)
      rw [hwalk, L.kmap_pteU]
      decide
    . rw [show pdx 0xFDFFF000 = 1015 from rfl, hentry, pteP_zero]
      decide
  unfold execStack execArgs
  rw [if_neg (by decide), hsp]
  dsimp only
  rw [hcopy]
  rfl

-- the address space of an empty program, before the arguments are copied
theorem Free.hollow_space (h : Free L m) (hdenied : m.denied = []) (hcard : 1028 ≤ m.free.card)
    : ∃ d m₁ m₂ m₃, m.setupkvm L = .ok (some d, m₁) ∧ m₁.allocuvm L d 0 8192 = .ok (8192, m₂) ∧
        m₂.clearpteu d (pageAddr 0) = .ok m₃ ∧ Spans L d 8192 m₃ ∧ m₃.entry d 1015 = 0 ∧
        m₃.own d + m₃.free = m.free ∧ ∀ x, x ∉ m.free → m₃.phys x = m.phys x := by
  rcases h.setupkvm_supplied (n := 2) hdenied hcard with ⟨d, m₁, hok₁, hkvm, hs⟩
  have hspans : Spans L d (0 : BitVec 32).toNat m₁ := hkvm.spans h
  rcases hspans.allocuvm_supplied 8192 (n := 0) (l := 2) (by decide) (by decide) hs (by decide)
    with ⟨m₂, hok₂, _⟩
  have hallocs : AllocsZero d (fun u => 0 ≤ 4096 * u ∧ 4096 * u < 8192) m₁ m₂ := by
    have habsent : ∀ u, u < 2 ^ 19 → (0 : BitVec 32).toNat ≤ 4096 * u →
        4096 * u < (8192 : BitVec 32).toNat → ¬ pteP (m₁.walk d u) := by
      intro u hu _ _
      rw [hspans.present u hu]
      exact Nat.not_lt_zero _
    rcases hspans.owned.allocuvm habsent with ⟨r, m', hok, hres⟩
    rw [hok₂] at hok
    cases hok
    rcases hres with ⟨_, _, hallocs⟩ | ⟨hr, _⟩
    . exact hallocs
    . contradiction
  have hspans₂ : Spans L d 8192 m₂ := hspans.allocs hallocs (by decide)
  rcases hspans₂.clearpteu (v := 0) (by decide) (by decide) with
    ⟨m₃, hok₃, hmoves₃, hspans₃, _, hentry₃, _⟩
  have hmoves : Moves d m₁ m₃ := hallocs.moves.trans hmoves₃
  refine ⟨d, m₁, m₂, m₃, hok₁, hok₂, hok₃, hspans₃, ?_, ?_, ?_⟩
  . rw [hentry₃, hallocs.entry 1015 (by decide), hkvm.entry 1015 (L.kmap_spares (by decide) (by decide))]
  . rw [hmoves.conserve, hkvm.own]
  . intro x hx
    rw [hmoves.frame x (by rw [hkvm.own]; exact hx), hkvm.frame x hx]

-- `exec` of an empty program fails, and has overwritten the page that the null pointer leads to.
theorem Owned.execImage_overrun {s : List (BitVec 8)} (hlong : s.length = LONG) (h : Owned L m cr3)
    (hdenied : m.denied = []) (hcard : 1028 ≤ m.free.card) (hzero : pteP (m.walk cr3 0))
    (hw : (m.phys (pteAddr (m.walk cr3 0))).getWord 0 = w) (hp : pteP w) (hu : pteU w)
    (hout : pteAddr w ∉ m.free)
    : ∃ m', m.execImage L cr3 (some hollow) [s] = .ok (none, m') ∧ m'.free = m.free ∧
        ∀ x, x ∉ m.free → m'.phys x = (m.overrun (pteAddr w) (s ++ [0])).phys x := by
  rcases h.free.hollow_space hdenied hcard with
    ⟨d, m₁, m₂, m₃, hok₁, hok₂, hok₃, hspans₃, hentry, hown, hframe⟩
  have hwalk : m₃.walk cr3 0 = m.walk cr3 0 := by
    apply walk_congr _ (by decide)
    intro x hx
    exact hframe x (h.notMem_free (Multiset.mem_add.mpr (.inl hx)))
  have hnull : m₃.nullWord cr3 = .ok w := by
    have huser : pteAddr (m.walk cr3 0) ∉ m.free :=
      h.notMem_free (Multiset.mem_add.mpr (.inr (mem_user (by decide) hzero)))
    rw [nullWord_of_walk (by rw [hwalk]; exact hzero), hwalk, hframe _ huser, hw]
  have hout' : pteAddr w ∉ m₃.own d := by
    intro hin
    apply hout
    rw [← hown]
    exact Multiset.mem_add.mpr (.inl hin)
  have hstack := execStack_overrun hlong hspans₃ hentry hnull hp hu hout'
  generalize hm₄ : m₃.overrun (pteAddr w) (s ++ [0]) = m₄ at hstack
  have hown₄ : m₄.own d + m₄.free = m.free := by
    have hsame : ∀ x ∈ m₃.tables d, m₄.phys x = m₃.phys x := by
      intro x hx
      rw [← hm₄]
      apply overrun_phys_of_ne
      rintro rfl
      exact hout' (Multiset.mem_add.mpr (.inl hx))
    rw [own_congr hsame, ← hown, ← hm₄]
    rfl
  have howned : Owned L m₄ d := by
    apply hspans₃.owned.of_eq
    rw [hown₄, hown]
  rcases howned.freevm with ⟨m₅, hok₅, hfree₅, hframe₅⟩
  rw [hown₄] at hfree₅ hframe₅
  refine ⟨m₅, ?_, hfree₅, ?_⟩
  . have hbuild : ∀ elf : Elfhdr, elf.phnum = 1 → elf.phoff = 52 →
        m₁.execBuild L cr3 d hollow elf [s] = .ok (none, m₄) := by
      intro elf hphnum hphoff
      unfold execBuild
      rw [hphnum, hphoff, hollow_execLoad, Fold.ok_bind]
      dsimp only
      rw [show pgroundup 0 + 2 * 4096 = 8192 from rfl, show pgroundup 0 = 0 from rfl, hok₂, Fold.ok_bind]
      dsimp only
      rw [if_neg (by decide), show (8192 - 2 * 4096 : BitVec 32) = pageAddr 0 from rfl, hok₃, Fold.ok_bind,
        hstack]
      rfl
    unfold Mem.execImage
    dsimp only
    rw [show hollow.read 52 0 = some (fun i => hollow.byte (0 + i.val)) from rfl]
    dsimp only
    rw [if_neg (by decide), hok₁, Fold.ok_bind]
    dsimp only
    rw [hbuild _ rfl rfl, Fold.ok_bind]
    dsimp only
    rw [hok₅, Fold.ok_bind]
    rfl
  . intro x hx
    rw [hframe₅ x hx, ← hm₄]
    unfold overrun
    dsimp only
    rw [Function.update_apply, Function.update_apply, hframe _ hout, hframe x hx]

theorem sum_frames {S : Finset Nat} {n : Nat} {w f : Nat → BitVec 32} (hS : ∀ i, i < n → i ∈ S)
    (hp : ∀ i, i < n → pteP (w i) ∧ pteAddr (w i) = f i) (hzero : ∀ i ∈ S, n ≤ i → pteP (w i) = false)
    : ∑ i ∈ S, frameOf (w i) = ((List.range n).map f : List (BitVec 32)) := by
  have hsub : Finset.range n ⊆ S := fun i hi => hS i (Finset.mem_range.mp hi)
  rw [← Finset.sum_subset hsub (fun i hi hout => frameOf_of_absent (hzero i hi (by simpa using hout)))]
  clear hS hzero hsub
  induction n with
  | zero => rfl
  | succ n ih =>
    rcases hp n (by omega) with ⟨hpn, haddr⟩
    rw [Finset.sum_range_succ, ih (fun i hi => hp i (by omega)), List.range_succ, List.map_append,
      frameOf_of_present hpn, haddr]
    rfl

end Mem

namespace VmSys

def table (i : Nat) : BitVec 32 := BitVec.ofNat 32 (0x402000 + 4096 * i)

def frame (v : Nat) : BitVec 32 := BitVec.ofNat 32 (0x1000000 + 4096 * v)

def userPte (pa : BitVec 32) : BitVec 32 := pa ||| PTE_P ||| PTE_W ||| PTE_U

def wordPage (f : Nat → BitVec 32) : Page :=
  fun i => (f (i.val / 4)).extractLsb' (8 * (i.val % 4)) 8

theorem wordPage_byte (f : Nat → BitVec 32) {k : Nat} (hk : k < 4096)
    : (wordPage f).byte k = (f (k / 4)).extractLsb' (8 * (k % 4)) 8 := by
  simp [Bytes.byte, wordPage, show k < PGSIZE from hk]

theorem wordPage_getWord (f : Nat → BitVec 32) {j : Nat} (hj : j < 1024)
    : (wordPage f).getWord (4 * j) = f j := by
  have hbyte : ∀ i, i < 4 → ((wordPage f).byte (4 * j + i)).toNat = (f j).toNat / 2 ^ (8 * i) % 256 := by
    intro i hi
    rw [wordPage_byte f (by omega), show (4 * j + i) / 4 = j by omega,
      show (4 * j + i) % 4 = i by omega, BitVec.extractLsb'_toNat, Nat.shiftRight_eq_div_pow]
  have h0 : ((wordPage f).byte (4 * j)).toNat = _ := hbyte 0 (by decide)
  have h1 := hbyte 1 (by decide)
  have h2 : ((wordPage f).byte (4 * j + 1 + 1)).toNat = _ := hbyte 2 (by decide)
  have h3 : ((wordPage f).byte (4 * j + 1 + 1 + 1)).toNat = _ := hbyte 3 (by decide)
  apply BitVec.eq_of_toNat_eq
  unfold Bytes.getWord
  simp only [Bytes.getLE]
  rw [BitVec.toNat_ofNat]
  omega

-- the page directory, 9 page tables with all pages, and in these `b` everywhere but in the last
-- page; the first word of all has the form of an entry for the last page table
def bulkyWord (x : BitVec 32) (j : Nat) : BitVec 32 :=
  if x.toNat = 0x400000 then
    if j < 9 then userPte (table j) else 0
  else if x.toNat < 0x1000000 then
    userPte (frame ((x.toNat - 0x402000) / 4096 * 1024 + j))
  else if x.toNat = 0x33FF000 then
    0
  else if x.toNat = 0x1000000 ∧ j = 0 then
    userPte (table 8)
  else
    0x62626262

def bulkyMem : Mem := ⟨fun x => wordPage (bulkyWord x), pool, []⟩

def bulky : VmSys := alone bulkyMem 0x2400000

theorem table_toNat {i : Nat} (hi : i < 9) : (table i).toNat = 0x402000 + 4096 * i := by
  unfold table
  rw [BitVec.toNat_ofNat]
  omega

theorem frame_toNat {v : Nat} (hv : v < 9216) : (frame v).toNat = 0x1000000 + 4096 * v := by
  unfold frame
  rw [BitVec.toNat_ofNat]
  omega

theorem userPte_table {i : Nat} (hi : i < 9)
    : pteP (userPte (table i)) ∧ pteAddr (userPte (table i)) = table i := by
  refine ⟨Mem.pde_present _, Mem.pde_addr ?_⟩
  rw [table_toNat hi]
  omega

theorem userPte_frame {v : Nat} (hv : v < 9216)
    : pteP (userPte (frame v)) ∧ pteAddr (userPte (frame v)) = frame v := by
  refine ⟨Mem.pde_present _, Mem.pde_addr ?_⟩
  rw [frame_toNat hv]
  omega

theorem bulky_free : bulkyMem.free = pool := by
  rw [Mem.free, bulkyMem]

theorem bulky_free_range {x : BitVec 32} (h : x ∈ bulkyMem.free)
    : 0x500000 ≤ x.toNat ∧ x.toNat < 0x1000000 := by
  rw [bulky_free, Multiset.mem_coe] at h
  rcases mem_pool h with ⟨i, hi, hval⟩
  omega

theorem bulky_pde {i : Nat} (hi : i < 1024)
    : bulkyMem.entry 0x400000 i = if i < 9 then userPte (table i) else 0 :=
  wordPage_getWord (bulkyWord 0x400000) hi

theorem bulky_pte {v : Nat} (hv : v < 9216)
    : bulkyMem.entry (table (v / 1024)) (v % 1024) = userPte (frame v) := by
  have hword : bulkyWord (table (v / 1024)) (v % 1024) = userPte (frame v) := by
    unfold bulkyWord
    rw [table_toNat (by omega), if_neg (by omega), if_pos (by omega)]
    congr 2
    omega
  exact (wordPage_getWord _ (by omega)).trans hword

theorem bulky_walk {v : Nat} (hv : v < 2 ^ 20)
    : bulkyMem.walk 0x400000 v = if v < 9216 then userPte (frame v) else 0 := by
  unfold Mem.walk
  rw [bulky_pde (by omega)]
  by_cases hin : v < 9216
  . rcases userPte_table (show v / 1024 < 9 by omega) with ⟨hp, haddr⟩
    rw [if_pos (show v / 1024 < 9 by omega), if_pos hp, haddr, if_pos hin, bulky_pte hin]
  . rw [if_neg (show ¬v / 1024 < 9 by omega), if_neg (by decide), if_neg hin]

-- the page directory, the kernel stack and the page tables are one behind the other
theorem pages_of_walk {m : Mem} {n : Nat} (hn : n ≤ 9216) (hfree : m.free = pool)
    (hpde : ∀ i, i < 1024 → m.entry 0x400000 i = if i < 9 then userPte (table i) else 0)
    (hwalk : ∀ v, v < n → m.walk 0x400000 v = userPte (frame v))
    (habsent : ∀ v, n ≤ v → v < 2 ^ 19 → pteP (m.walk 0x400000 v) = false)
    : m.free + ({0x401000} + m.own 0x400000) =
        (pool ++ (pageRun 0x400000 11 ++ pageRun 0x1000000 n) : List (BitVec 32)) := by
  have htables : ∑ i ∈ Mem.pdIndices, Mem.frameOf (m.entry 0x400000 i) =
      ((List.range 9).map table : List (BitVec 32)) := by
    apply Mem.sum_frames
    . intro i hi
      exact Mem.mem_pdIndices.mpr (by omega)
    . intro i hi
      rw [hpde i (by omega), if_pos hi]
      exact userPte_table hi
    . intro i hS hi
      rw [hpde i (Mem.mem_pdIndices.mp hS), if_neg (by omega), pteP_zero]
  have huser : m.user 0x400000 = ((List.range n).map frame : List (BitVec 32)) := by
    apply Mem.sum_frames
    . intro v hv
      exact Mem.mem_userPages.mpr (by omega)
    . intro v hv
      rw [hwalk v hv]
      exact userPte_frame (by omega)
    . intro v hS hv
      exact habsent v hv (Mem.mem_userPages.mp hS)
  have hlow : pageRun 0x400000 11 = 0x400000 :: 0x401000 :: (List.range 9).map table := by decide
  unfold Mem.own Mem.tables
  rw [htables, huser, hfree, hlow, show pageRun 0x1000000 n = (List.range n).map frame from rfl]
  generalize (List.range 9).map table = T
  generalize (List.range n).map frame = F
  rw [← Multiset.coe_add, ← Multiset.coe_add, ← add_assoc {0x401000}]
  congr 2
  exact Multiset.cons_swap (0x401000 : BitVec 32) 0x400000 (T : Multiset (BitVec 32))

theorem bulky_pages
    : bulkyMem.free + ({0x401000} + bulkyMem.own 0x400000) =
        (pool ++ (pageRun 0x400000 11 ++ pageRun 0x1000000 9216) : List (BitVec 32)) := by
  apply pages_of_walk le_rfl bulky_free
  . intro i hi
    exact bulky_pde hi
  . intro v hv
    rw [bulky_walk (by omega), if_pos hv]
  . intro v hv hbound
    rw [bulky_walk (by omega), if_neg (by omega), pteP_zero]

theorem mem_pages {n : Nat} {x : BitVec 32} (hn : n ≤ 9216)
    (h : x ∈ pool ++ (pageRun 0x400000 11 ++ pageRun 0x1000000 n))
    : x.toNat % 4096 = 0 ∧ 0x400000 ≤ x.toNat ∧ x.toNat < 0x1000000 + 4096 * n := by
  rw [List.mem_append, List.mem_append] at h
  rcases h with h | h | h
  . rcases mem_pool h with ⟨i, hi, hval⟩
    omega
  . rcases mem_pageRun (by decide) h with ⟨i, hi, hval⟩
    omega
  . rcases mem_pageRun (by omega) h with ⟨i, hi, hval⟩
    omega

theorem bulky_inv : Inv smallLayout bulky := by
  apply alone_inv (by decide) bulky_pages
  . rw [List.nodup_append, List.nodup_append]
    refine ⟨nodup_pool, ⟨nodup_pageRun (by decide), nodup_pageRun (by decide), ?_⟩, ?_⟩
    . rintro x hx y hy rfl
      rcases mem_pageRun (by decide) hx with ⟨i, hi, hval⟩
      rcases mem_pageRun (by decide) hy with ⟨j, hj, hval'⟩
      omega
    . rintro x hx y hy rfl
      rcases mem_pool hx with ⟨i, hi, hval⟩
      rcases List.mem_append.mp hy with hy | hy
      . rcases mem_pageRun (by decide) hy with ⟨j, hj, hval'⟩
        omega
      . rcases mem_pageRun (by decide) hy with ⟨j, hj, hval'⟩
        omega
  . intro x hx
    have := mem_pages (by decide) hx
    omega

theorem bulky_view {a : Nat} (hlo : 4096 ≤ a) (ha : a < 0x2400000)
    : bulkyMem.view 0x400000 a = if a < 0x23FF000 then 0x62 else 0 := by
  have hv : a / 4096 < 9216 := by omega
  rcases userPte_frame hv with ⟨hp, haddr⟩
  have hword : bulkyWord (frame (a / 4096)) (a % 4096 / 4) =
      if a < 0x23FF000 then 0x62626262 else 0 := by
    unfold bulkyWord
    rw [frame_toNat hv, if_neg (by omega), if_neg (by omega)]
    by_cases hin : a < 0x23FF000
    . rw [if_neg (by omega), if_neg (by omega), if_pos hin]
    . rw [if_pos (by omega), if_neg hin]
  have hbyte : ∀ i : Fin 4, (0x62626262 : BitVec 32).extractLsb' (8 * i.val) 8 = 0x62 := by decide
  unfold Mem.view
  rw [bulky_walk (by omega), if_pos hv, if_pos hp, haddr]
  show (wordPage (bulkyWord (frame (a / 4096)))).byte (a % 4096) = _
  rw [wordPage_byte _ (by omega), hword]
  split
  . exact hbyte ⟨a % 4096 % 4, by omega⟩
  . exact BitVec.extractLsb'_zero

def clobbered : Mem := bulkyMem.overrun (table 8) (List.replicate Mem.LONG 0x62 ++ [0])

-- what the argument leaves of the last page table
theorem clobbered_pte {j : Nat} (hj : j < 1024) : ¬pteP (clobbered.entry (table 8) j) := by
  have hbyte : ∀ k, k < 4096 → (clobbered.phys (table 8)).byte k = 0x62 := by
    intro k hk
    have hlong : k < Mem.LONG := by
      rw [Mem.LONG]
      omega
    unfold clobbered Mem.overrun
    dsimp only
    rw [Function.update_self, Bytes.byte_blit _ _ _ _ _ (show k < PGSIZE from hk), if_pos (by omega),
      Nat.sub_zero, List.getD_eq_getElem?_getD, List.getElem?_append_left (by simpa using hlong),
      List.getElem?_replicate, if_pos hlong]
    rfl
  have hword : clobbered.entry (table 8) j = 0x62626262 := by
    unfold Mem.entry Bytes.getWord
    simp only [Bytes.getLE]
    rw [hbyte _ (by omega), hbyte _ (by omega), hbyte _ (by omega), hbyte _ (by omega)]
    rfl
  rw [hword]
  decide

-- what the call leaves: the pages of the last page table are in no place any more
theorem clobbered_pages {m : Mem} (hfree : m.free = bulkyMem.free)
    (hphys : ∀ x, x ∉ bulkyMem.free → m.phys x = clobbered.phys x)
    : m.free + ({0x401000} + m.own 0x400000) =
        (pool ++ (pageRun 0x400000 11 ++ pageRun 0x1000000 8192) : List (BitVec 32)) := by
  have hout : ∀ x : BitVec 32, x.toNat < 0x500000 → x ∉ bulkyMem.free := by
    intro x hx hin
    have := bulky_free_range hin
    omega
  have hpde : ∀ i, i < 1024 → m.entry 0x400000 i = if i < 9 then userPte (table i) else 0 := by
    intro i hi
    rw [← bulky_pde hi]
    apply Mem.entry_congr
    rw [hphys _ (hout _ (by decide)), clobbered, Mem.overrun_phys_of_ne _ (by decide)]
  have hwalk : ∀ v, v / 1024 < 9 →
      m.walk 0x400000 v = clobbered.entry (table (v / 1024)) (v % 1024) := by
    intro v hv
    rcases userPte_table hv with ⟨hp, haddr⟩
    unfold Mem.walk
    rw [hpde _ (by omega), if_pos hv, if_pos hp, haddr]
    apply Mem.entry_congr
    apply hphys _ (hout _ _)
    rw [table_toNat hv]
    omega
  apply pages_of_walk (by decide) (hfree.trans bulky_free) hpde
  . intro v hv
    have hne : table (v / 1024) ≠ table 8 := by
      rw [BitVec.toNat_ne, table_toNat (by omega), table_toNat (by decide)]
      omega
    rw [hwalk v (by omega), clobbered, Mem.entry_congr (Mem.overrun_phys_of_ne _ hne),
      bulky_pte (by omega)]
  . intro v hv hbound
    by_cases hlast : v / 1024 = 8
    . rw [hwalk v (by omega), hlast]
      exact Bool.eq_false_iff.mpr (clobbered_pte (by omega))
    . unfold Mem.walk
      rw [hpde _ (by omega), if_neg (show ¬v / 1024 < 9 by omega), if_neg (by decide), pteP_zero]

-- The string is in the memory of the program, with the null byte behind it. `exec` returns -1, and
-- a page of the program is in no place any more.
theorem exec_long_argument_loses_page
    : Inv smallLayout bulky ∧ (∀ k, k < Mem.LONG → bulkyMem.view 0x400000 (0x3FC001 + k) = 0x62) ∧
        bulkyMem.view 0x400000 (0x3FC001 + Mem.LONG) = 0 ∧
        0x3FC001 + Mem.LONG < (bulky.proc 0).sz.toNat ∧
        ∃ u, PageStep smallLayout bulky
            (.call (.exec 0 (some hollow) [List.replicate Mem.LONG 0x62])) u ∧
          frame 9000 ∈ bulky.pages ∧ frame 9000 ∉ u.pages := by
  have howned : Mem.Owned smallLayout bulkyMem 0x400000 := bulky_inv.owned (p := 0) (by decide) rfl
  have hzero : bulkyMem.walk 0x400000 0 = userPte (frame 0) := bulky_walk (by decide)
  rcases userPte_frame (v := 0) (by decide) with ⟨hp, haddr⟩
  have hword : (bulkyMem.phys (pteAddr (bulkyMem.walk 0x400000 0))).getWord 0 = userPte (table 8) := by
    rw [hzero, haddr]
    exact wordPage_getWord (bulkyWord (frame 0)) (j := 0) (by decide)
  have htable : pteAddr (userPte (table 8)) = table 8 := by decide
  rcases howned.execImage_overrun (s := List.replicate Mem.LONG 0x62) List.length_replicate
    rfl (by rw [bulky_free, Multiset.coe_card, length_pool]; decide) (by rw [hzero]; exact hp) hword
    (by decide) (by decide) (by
      rw [htable]
      intro hin
      exact absurd (bulky_free_range hin) (by decide)) with ⟨m, hexec, hfree, hphys⟩
  rw [htable] at hphys
  refine ⟨bulky_inv, ?_, ?_, by decide, alone m 0x2400000,
    .call (.exec (r := false) ⟨by decide, by decide⟩ ?_), ?_, ?_⟩
  . intro k hk
    rw [Mem.LONG] at hk
    rw [bulky_view (by omega) (by omega), if_pos (by omega)]
  . exact bulky_view (by decide) (by decide)
  . unfold VmSys.exec
    rw [show bulky.pgdir 0 = .ok 0x400000 from rfl, Fold.ok_bind,
      show bulky.mem = bulkyMem from rfl, hexec, Fold.ok_bind]
    rfl
  . rw [bulky, alone_pages, bulky_pages, Multiset.mem_coe, List.mem_append, List.mem_append]
    exact .inr (.inr (List.mem_map.mpr ⟨9000, List.mem_range.mpr (by decide), rfl⟩))
  . rw [alone_pages, clobbered_pages hfree hphys, Multiset.mem_coe]
    intro hin
    exact absurd (mem_pages (by decide) hin).2.2 (by decide)

end VmSys

end Xv6
