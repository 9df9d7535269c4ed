import Xv6.Data.Transition
import Xv6.Vm.Impl.Syscall
import Xv6.Vm.Lemmas.Trap

/-!
A process stays below `KERNBASE`, and the kernel part of its page tables is left alone, as long as
the sizes that `sbrk` stores do not pass `KERNBASE`.
-/

namespace Xv6

section

variable {sz esp addr i n size : BitVec 32} {load : BitVec 32 → BitVec 32}
  {byte : BitVec 32 → BitVec 8}

theorem fetchint_le (hsz : sz.toNat ≤ 2 ^ 31) (h : fetchint sz load addr = some i)
    : addr.toNat + 4 ≤ sz.toNat := by
  unfold fetchint at h
  split at h
  . contradiction
  next hin =>
    rw [not_or] at hin
    bv_omega

theorem fetchstr_lt {len : Nat} (h : fetchstr sz byte addr = some len)
    : addr.toNat + len < sz.toNat := by
  unfold fetchstr at h
  split at h
  . contradiction
  . have hmem := List.mem_of_find?_eq_some h
    rw [List.mem_range] at hmem
    omega

theorem argptr_le (hsz : sz.toNat ≤ 2 ^ 31) (h : argptr sz esp load n size = some i)
    : i.toNat + size.toNat ≤ sz.toNat := by
  unfold argptr at h
  generalize argint sz esp load n = arg at h
  cases arg with
  | none => contradiction
  | some j =>
    rw [Option.bind_eq_bind, Option.bind_some] at h
    split at h
    . contradiction
    next hin =>
      cases h
      rw [not_or, not_or] at hin
      rcases hin with ⟨hpos, hlt, hle⟩
      -- a size that is not negative cannot wrap around from below sz
      have hsize : size.toNat < 2 ^ 31 := by
        rw [BitVec.ofNat_eq_ofNat, BitVec.slt_zero_eq_msb, Bool.not_eq_true, BitVec.msb_eq_false_iff_two_mul_lt] at hpos
        omega
      bv_omega

end

namespace VmSys

variable {L : Layout} {s t : VmSys} {p : ProcId} {d cr2 err n : BitVec 32} {fuel : Nat}

structure KernelSame (d : BitVec 32) (m m' : Mem) : Prop where
  entry : ∀ i, 512 ≤ i → m'.entry d i = m.entry d i
  walk : ∀ v, 2 ^ 19 ≤ v → v < 2 ^ 20 → m'.walk d v = m.walk d v

theorem KernelSame.refl (d : BitVec 32) (m : Mem) : KernelSame d m m :=
  ⟨fun _ _ => rfl, fun _ _ _ => rfl⟩

theorem Inv.sysSbrk_kernel {r : BitVec 32} (h : Inv L s) (hp : s.Active p)
    (hd : (s.proc p).pgdir = some d) (hok : s.sysSbrk L p n = .ok (r, t))
    : KernelSame d s.mem t.mem := by
  have hsz := h.sz p hp.1
  unfold VmSys.sysSbrk at hok
  simp only at hok
  split at hok
  . rcases (h.owned hp.1 hd).deallocuvm (s.proc p).sz ((s.proc p).sz + n) hsz with ⟨m', hm, hfrees⟩
    rw [pgdir_eq (d := d) (by simpa using hd), Fold.ok_bind, modifyProc_mem, hm, Fold.ok_bind] at hok
    cases hok
    refine ⟨fun i _ => hfrees.entry i, ?_⟩
    intro v hv hlt
    rw [hfrees.walk v hlt, if_neg]
    omega
  . cases hok
    exact .refl d s.mem

theorem trapPgflt_mem (h : trapPgflt L p fuel s cr2 err = .ok t)
    (hge : (s.proc p).sz.toNat ≤ 4096 * (cr2.toNat / 4096))
    : t.mem = s.mem := by
  cases fuel with
  | zero => contradiction
  | succ fuel =>
    unfold trapPgflt at h
    simp only at h
    split at h
    . cases h
      rfl
    . split at h
      . cases h
        rfl
      . rw [if_neg] at h
        . cases h
          rfl
        . rw [BitVec.lt_def, pgrounddown_toNat]
          omega

theorem Inv.trapPgflt_kernel (h : Inv L s) (hp : s.Active p) (hd : (s.proc p).pgdir = some d)
    (hok : trapPgflt L p fuel s cr2 err = .ok t)
    : KernelSame d s.mem t.mem := by
  have hsz := h.sz p hp.1
  have howned := h.owned hp.1 hd
  by_cases hge : (s.proc p).sz.toNat ≤ 4096 * (cr2.toNat / 4096)
  . rw [trapPgflt_mem hok hge]
    exact .refl d s.mem
  . have hcases := trapPgflt_cases hok howned hd hsz
    generalize cr2.toNat / 4096 = v at hge hcases
    cases hcases with
    | inl hpgflt =>
      cases hpgflt with
      | ignored _ => exact .refl d s.mem
      | killed => exact .refl d s.mem
      | mapped _ _ hallocs =>
        refine ⟨hallocs.entry, ?_⟩
        intro u hu hlt
        exact hallocs.walk u hlt (by omega)
      | refused hext =>
        refine ⟨?_, fun u _ hlt => hext.walk u hlt⟩
        intro i hi
        exact hext.entry i (by omega)
    | inr hoom =>
      rcases hoom.mem with ⟨m, hpours, _, hentry, hwalk⟩
      constructor
      . intro i hi
        rw [hentry i (by omega)]
        -- the page that is cleared is a user page, and so not the page directory
        have hnot : d ∉ s.mem.user d := fun hmem => (howned.user_disjoint hmem).1 (by simp [Mem.tables])
        unfold Mem.entry
        rw [hpours.frame d hnot]
      . intro u hu hlt
        rw [hwalk u hlt, if_neg (by omega)]

-- The size that sbrk stores fits, and the strings of exec are not huge.
def InRange (s : VmSys) : Event → Prop
  | .sbrk p n => ((s.proc p).sz + n).toNat ≤ KERNBASE.toNat
  | .fork _ => True
  | .exec _ _ argv => ∀ a ∈ argv, a.length + 4 ≤ 2 ^ 25
  | .pgflt _ _ _ => True

abbrev EventRun (L : Layout) : VmSys → List Event → VmSys → Prop :=
  Transition.Run (Step L) InRange

theorem Inv.exit_of (h : Inv L s) (hp : (s.proc p).state ≠ .unused) (hok : s.exit L p = .ok t)
    : Inv L t ∧ t.pages = s.pages := by
  rcases h.pgdir p hp with ⟨d, hd⟩
  have hinit : s.initproc ≠ some p := by
    intro heq
    unfold VmSys.exit at hok
    rw [if_pos heq] at hok
    contradiction
  rcases h.exit hp hinit hd with ⟨u, hexit, hsteps, _⟩
  rw [hexit] at hok
  cases hok
  exact ⟨hsteps.inv h, hsteps.pages h⟩

theorem Inv.userPgflt (h : Inv L s) (hp : s.Active p) (hok : s.userPgflt L p cr2 err = .ok t)
    : Inv L t ∧ t.pages = s.pages := by
  rcases h.pgdir p hp.1 with ⟨d, hd⟩
  unfold VmSys.userPgflt at hok
  rcases Fold.bind_eq_ok hok with ⟨u, htrap, hok⟩
  cases trapPgflt_cases htrap (h.owned hp.1 hd) hd (h.sz p hp.1) with
  | inr hoom =>
    -- the process has been killed, and its exit does not return
    have hkilled : (u.proc p).killed = true := by
      rw [hoom.state]
      simp [VmSys.kill]
    rw [if_pos hkilled] at hok
    exact absurd hok (hoom.exit_fails (h.owned hp.1 hd) hd (h.sz p hp.1))
  | inl hpgflt =>
    have hsteps := hpgflt.steps h hp.1 hp.2 hd
    split at hok
    . have hup : (u.proc p).state ≠ .unused := by
        cases hpgflt with
        | ignored _ | mapped _ _ _ => exact hp.1
        | killed | refused _ => simpa [VmSys.kill] using hp.1
      rcases (hsteps.inv h).exit_of hup hok with ⟨hinv, hpages⟩
      exact ⟨hinv, hpages.trans (hsteps.pages h)⟩
    . cases hok
      exact ⟨hsteps.inv h, hsteps.pages h⟩

theorem Inv.call {e : Event} (h : Inv L s) (hrange : InRange s e) (hstep : Step L s e t)
    : Inv L t ∧ t.pages = s.pages := by
  cases hstep with
  | sbrk hp hok =>
    rcases h.sysSbrk hp.1 hp.2 hrange with ⟨u, hu, hsteps⟩
    rw [hu] at hok
    cases hok
    exact ⟨hsteps.inv h, hsteps.pages h⟩
  | fork hp hok =>
    rcases h.fork hp.1 with ⟨r, u, hu, hsteps, _⟩
    rw [hu] at hok
    cases hok
    rcases hsteps with heq | ⟨np, hsteps⟩
    . rw [heq]
      exact ⟨h, rfl⟩
    . exact ⟨hsteps.inv h, hsteps.pages h⟩
  | exec hp hok =>
    rcases h.exec hp.1 hp.2 hrange with ⟨r, u, hu, hsteps, _⟩
    rw [hu] at hok
    cases hok
    exact ⟨hsteps.inv h, hsteps.pages h⟩
  | pgflt hp hok => exact h.userPgflt hp hok

theorem Inv.step {e : Event} (h : Inv L s) (hrange : InRange s e) (hstep : Step L s e t) : Inv L t :=
  (h.call hrange hstep).1

/--
The size of a process in use is at most `KERNBASE`, so are the ends of the arguments its system
calls accept, and neither `sbrk` nor a page fault would change the entries of the kernel.
-/
structure Confined (L : Layout) (s : VmSys) (p : ProcId) : Prop where
  sz : (s.proc p).sz ≤ KERNBASE
  fetchint : ∀ load addr x, fetchint (s.proc p).sz load addr = some x →
    addr.toNat + 4 ≤ KERNBASE.toNat
  fetchstr : ∀ byte addr len, fetchstr (s.proc p).sz byte addr = some len →
    addr.toNat + len < KERNBASE.toNat
  argptr : ∀ esp load n size i, argptr (s.proc p).sz esp load n size = some i →
    i.toNat + size.toNat ≤ KERNBASE.toNat
  sbrk : ∀ d n r t, s.Active p → (s.proc p).pgdir = some d → s.sysSbrk L p n = .ok (r, t) →
    KernelSame d s.mem t.mem
  pgflt : ∀ d fuel cr2 err t, s.Active p → (s.proc p).pgdir = some d →
    trapPgflt L p fuel s cr2 err = .ok t → KernelSame d s.mem t.mem

theorem Inv.confined (h : Inv L s) (hp : (s.proc p).state ≠ .unused) : Confined L s p := by
  have hsz : (s.proc p).sz.toNat ≤ 2 ^ 31 := h.sz p hp
  refine ⟨?_, ?_, ?_, ?_, ?_, ?_⟩
  . rw [BitVec.le_def, KERNBASE_toNat]
    exact hsz
  . intro load addr x hx
    have := fetchint_le hsz hx
    rw [KERNBASE_toNat]
    omega
  . intro byte addr len hlen
    have := fetchstr_lt hlen
    rw [KERNBASE_toNat]
    omega
  . intro esp load n size i hi
    have := argptr_le hsz hi
    rw [KERNBASE_toNat]
    omega
  . intro d n r t hactive hd hok
    exact h.sysSbrk_kernel hactive hd hok
  . intro d fuel cr2 err t hactive hd hok
    exact h.trapPgflt_kernel hactive hd hok

theorem confined_of_eventRun {es : List Event} (hs : Inv L s) (hrun : EventRun L s es t)
    (hp : (t.proc p).state ≠ .unused)
    : Confined L t p := by
  have hinv : Inv L t := hrun.invariant (fun _ _ _ h hrange hstep => h.step hrange hstep) hs
  exact hinv.confined hp

def smallLayout : Layout :=
  ⟨0x80200000, 0x80300000, by decide, by decide, by decide, by decide⟩

def single : VmSys where
  mem := ⟨fun _ => Bytes.zero, [], []⟩
  proc p :=
    if p = 0 then
      ⟨.runnable, none, some 0x401000, some 0x400000, 4096, 0, 4096, false⟩
    else
      ⟨.unused, none, none, none, 0, 0, 0, false⟩
  initproc := some 0
  pipes := []

theorem single_entry (x : BitVec 32) (i : Nat) : single.mem.entry x i = 0 :=
  Bytes.getWord_zero _

theorem single_user (d : BitVec 32) : single.mem.user d = 0 := by
  unfold Mem.user Mem.walk
  simp only [single_entry, pteP_zero, Bool.false_eq_true, ↓reduceIte,
    Mem.frameOf_of_absent pteP_zero, Finset.sum_const_zero]

theorem single_pages : single.pages = {0x401000, 0x400000} := by
  have hown : single.mem.own 0x400000 = {0x400000} := by
    unfold Mem.own Mem.tables
    rw [single_user]
    simp only [single_entry, Mem.frameOf_of_absent pteP_zero, Finset.sum_const_zero, add_zero]
  have hsum : ∑ p, procPages single.mem (single.proc p) = procPages single.mem (single.proc 0) := by
    apply Finset.sum_eq_single_of_mem 0 (Finset.mem_univ 0)
    intro p _ hp
    apply procPages_unused
    simp [single, hp]
  have hzero : procPages single.mem (single.proc 0) = {0x401000} + single.mem.own 0x400000 :=
    procPages_used (by simp [single]) rfl rfl
  unfold pages
  rw [hsum, hzero, hown]
  rfl

theorem single_inv : Inv smallLayout single := by
  refine ⟨?_, ?_, ?_, ?_, ?_, ?_⟩
  . rw [single_pages]
    decide
  . rw [single_pages]
    intro x hx
    rw [Multiset.insert_eq_cons, Multiset.mem_cons, Multiset.mem_singleton] at hx
    unfold Layout.Managed
    rcases hx with hx | hx
    . rw [hx]
      decide
    . rw [hx]
      decide
  . intro p hp
    by_cases h : p = 0
    . exact ⟨0x401000, by simp [single, h]⟩
    . simp [single, h] at hp
  . intro p hp
    by_cases h : p = 0
    . exact ⟨0x400000, by simp [single, h]⟩
    . simp [single, h] at hp
  . intro p hp
    by_cases h : p = 0
    . simp [single, h]
    . simp [single, h] at hp
  . intro p d _ _
    exact single_user d

-- sbrk checks nothing: the size passes `KERNBASE`, and a pointer to the kernel is accepted.
theorem sbrk_past_kernbase
    : ∃ t, Inv smallLayout single ∧ Step smallLayout single (.sbrk 0 0x7fffffff) t ∧
        (t.proc 0).sz = 0x80000fff ∧ KERNBASE < (t.proc 0).sz ∧
        argptr (t.proc 0).sz (t.proc 0).esp (fun _ => KERNBASE) 0 4 = some KERNBASE := by
  refine ⟨single.modifyProc 0 ({ · with sz := (single.proc 0).sz + 0x7fffffff }), single_inv, ?_, ?_⟩
  . exact .sbrk ⟨by decide, by decide⟩ rfl
  . decide

end VmSys

end Xv6
