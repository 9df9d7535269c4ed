import Xv6.Vm.Lemmas.Supply

/-!
What a process finds after `exec`: the program, the page below its stack and its arguments.
-/

namespace Xv6

namespace Mem

variable {L : Layout} {d : BitVec 32} {m m' m'' : Mem}

theorem nullWord_eq (m : Mem) (d : BitVec 32)
    : m.nullWord d =
        if pteP (m.walk d 0) then .ok ((m.phys (pteAddr (m.walk d 0))).getWord 0)
        else .error .nullDeref := by
  unfold nullWord
  rw [walkpgdir_false]
  by_cases hpde : pteP (m.entry d (pdx 0))
  . rw [if_pos hpde]
    simp only
    rw [get_eq_walk hpde]
    rfl
  . have hwalk := walk_of_absent hpde
    rw [show (0 : BitVec 32).toNat / 4096 = 0 from rfl] at hwalk
    rw [if_neg hpde, hwalk, pteP_zero]
    rfl

theorem Agree.failsOnNull (h : Agree d m m') (hm : FailsOnNull d m) : FailsOnNull d m' := by
  unfold FailsOnNull at *
  rw [nullWord_eq] at *
  rw [h.walk (by decide)]
  split
  next hp =>
    rw [if_pos hp] at hm
    rw [h _ (Multiset.mem_add.mpr (.inr (mem_user (by decide) hp)))]
    exact hm
  next hp =>
    rw [if_neg hp] at hm
    exact hm

theorem Guarded.agree {sz : Nat} (h : Guarded L d sz m) (ha : Agree d m m') (ho : Owned L m' d)
    : Guarded L d sz m' := by
  have := h.below
  refine ⟨⟨ho, ?_, ?_⟩, h.align, h.two, h.below, ?_, ?_⟩
  . intro u hu
    rw [ha.walk (by omega)]
    exact h.spans.present u hu
  . intro u hlo hu
    rw [ha.walk hu]
    exact h.spans.kernel u hlo hu
  . rw [ha.walk (by omega)]
    exact h.stack
  . rw [ha.walk (by omega)]
    exact h.guard

theorem ArgStack.congr {sz : Nat} {sp : BitVec 32} {argv : List (List (BitVec 8))}
    (h : ArgStack d sz sp argv m m') (hsame : ∀ a, a < sz → m''.view d a = m'.view d a)
    : ArgStack d sz sp argv m m'' := by
  have htop := h.top
  unfold argSpace at htop
  rcases h.decode with ⟨ptrs, hpushed, hwords⟩
  refine ⟨h.count, h.bottom, h.top, ?_, ptrs, ?_, ?_⟩
  . intro a ha
    rw [hsame a (by omega), h.below a ha]
  . apply hpushed.congr (Nat.le_of_eq (Nat.sub_add_cancel (by omega)))
    intro a _ ha
    exact hsame a ha
  . intro i hi
    rw [hsame _ (by omega), hwords i hi]

end Mem

/--
The process `x` after `exec` of the file: the address space below its stack is filled from the file,
and the stack from `argv`.
-/
structure Started (L : Layout) (file : Binary) (argv : List (List (BitVec 8))) (x : VmProc) (m : Mem)
    (b : Bytes 52) (phs : List Proghdr) (d : BitVec 32) : Prop where
  header : file.read 52 0 = some b
  phdrs : file.phdrs (Elfhdr.ofBytes b).phnum (Elfhdr.ofBytes b).phoff = some phs
  pgdir : x.pgdir = some d
  eip : x.eip = (Elfhdr.ofBytes b).entry
  guarded : Mem.Guarded L d x.sz.toNat m
  content : ∀ a, a < x.sz.toNat - 4096 → m.view d a = file.content phs 0 a
  args : ∃ m₁, Mem.ArgStack d x.sz.toNat x.esp argv m₁ m

namespace VmSys

variable {L : Layout} {s : VmSys} {p : ProcId} {d : BitVec 32} {argv : List (List (BitVec 8))}

theorem Inv.exec_spec (h : Inv L s) (hp : s.Active p) (hd : (s.proc p).pgdir = some d)
    (ip : Option Binary) (hargv : ∀ a ∈ argv, a.length + 1 < 2 ^ 32)
    (hnull : (∀ a ∈ argv, a.length < 4096) ∨ Mem.FailsOnNull d s.mem)
    : ∃ r t, s.exec L p ip argv = .ok (r, t) ∧
        (r = false → t.proc = s.proc ∧ Mem.Agree d s.mem t.mem) ∧
        (r = true → ∃ file b phs e, ip = some file ∧ Started L file argv (t.proc p) t.mem b phs e) := by
  have howned := h.owned hp.1 hd
  -- the address space in use stays as it is while the new one is made
  have hstack : ∀ e sz content m₁, m₁.own e + m₁.free = s.mem.free →
      (∀ x, x ∉ s.mem.free → m₁.phys x = s.mem.phys x) → Mem.Ready L e sz.toNat content m₁ →
      ∃ r m', m₁.execStack d e sz argv = .ok (r, m') ∧ Mem.Pours e m₁ m' ∧
        ∀ sp, r = some sp → Mem.ArgStack e sz.toNat sp argv m₁ m' := by
    intro e sz content m₁ hown hframe hready
    have hnull₁ : (∀ a ∈ argv, a.length < 4096) ∨ Mem.NullStops d e m₁ := by
      apply hnull.imp_right
      intro hfails m' hmoves
      apply Mem.Agree.failsOnNull _ hfails
      intro x hx
      have hfree := howned.notMem_free hx
      rw [hmoves.frame x (by rw [hown]; exact hfree), hframe x hfree]
    rcases Mem.execStack_spec hready.toGuarded hargv hnull₁ with ⟨r, m', hok, hpours, _, hpost⟩
    exact ⟨r, m', hok, hpours, hpost⟩
  rcases howned.free.execImage_of ip hstack with ⟨r, m₁, hok, hres⟩
  have hres' : Execs s.mem m₁ r := by
    apply hres.imp_right
    rintro ⟨_, _, image, _, _, _, hr, hbuilt, _, hown, hframe⟩
    exact ⟨image, hr, hbuilt.spans.2.1, hown, hframe⟩
  rcases h.exec_of hp.1 hp.2 hd hok hres' with ⟨t, ht, hsteps, hfail, hsome⟩
  refine ⟨r.isSome, t, ht, ?_, ?_⟩
  . intro hr
    cases hres with
    | inl hnone =>
      rw [hfail hnone.1]
      exact ⟨rfl, fun x hx => hnone.2.frame x (howned.notMem_free hx)⟩
    | inr himage =>
      rcases himage with ⟨_, _, image, _, _, _, himage, _⟩
      rw [himage] at hr
      contradiction
  . intro hr
    cases hres with
    | inl hnone =>
      rw [hnone.1] at hr
      contradiction
    | inr himage =>
      rcases himage with ⟨file, b, image, m₂, hip, hb, himage, hbuilt, hargs, _, _⟩
      rcases hbuilt.ready with ⟨phs, hphs, hready⟩
      rcases hsome image himage with ⟨hproc, hkeep⟩
      have hx : t.proc p = { s.proc p with
          pgdir := some image.pgdir, sz := image.sz, eip := image.eip, esp := image.esp } := by
        rw [hproc, Function.update_self]
      have hactive : (t.proc p).state ≠ .unused := by
        rw [hx]
        exact hp.1
      have hpgdir : (t.proc p).pgdir = some image.pgdir := by
        rw [hx]
      have hguarded : Mem.Guarded L image.pgdir image.sz.toNat t.mem :=
        (hready.toGuarded.pours hbuilt.pours).agree hkeep ((hsteps.inv h).owned hactive hpgdir)
      have hbelow := hguarded.below
      have hargs' : Mem.ArgStack image.pgdir image.sz.toNat image.esp argv m₂ t.mem :=
        hargs.congr (fun a ha => Mem.Agree.view hkeep (by omega))
      refine ⟨file, b, phs, image.pgdir, hip, hb, hphs, hpgdir, ?_, ?_, ?_, m₂, ?_⟩
      . rw [hx, ← hbuilt.eip]
      . rw [hx]
        exact hguarded
      . rw [hx]
        intro a ha
        simp only at ha
        rw [hargs'.below a ha, hready.view a (by omega)]
      . rw [hx]
        exact hargs'

/--
The initial stack decodes to the arguments, and arguments that do not fit on its page are refused.
-/
theorem initial_stack_decodes (h : Inv L s) (hp : s.Active p) (hd : (s.proc p).pgdir = some d)
    (ip : Option Binary) (hargv : ∀ a ∈ argv, a.length + 1 < 2 ^ 32)
    (hnull : (∀ a ∈ argv, a.length < 4096) ∨ Mem.FailsOnNull d s.mem)
    : ∃ r t, s.exec L p ip argv = .ok (r, t) ∧
        (r = true → ∃ e P ptrs, (t.proc p).pgdir = some e ∧
          t.mem.Decodes e (t.proc p).sz.toNat (t.proc p).esp argv P ptrs) ∧
        (PGSIZE < argSpace argv → r = false) := by
  rcases h.exec_spec hp hd ip hargv hnull with ⟨r, t, hok, _, hsome⟩
  refine ⟨r, t, hok, ?_, ?_⟩
  . intro hr
    rcases hsome hr with ⟨file, b, phs, e, _, hstarted⟩
    rcases hstarted.args with ⟨m₁, hargs⟩
    rcases hargs.decodes hstarted.guarded with ⟨P, ptrs, hdecodes⟩
    exact ⟨e, P, ptrs, hstarted.pgdir, hdecodes⟩
  . intro hlong
    cases r with
    | false => rfl
    | true =>
      rcases hsome rfl with ⟨file, b, phs, e, _, hstarted⟩
      rcases hstarted.args with ⟨m₁, hargs⟩
      have htop := hargs.top
      have hbottom := hargs.bottom
      have := hstarted.guarded.two
      rw [PGSIZE] at hlong
      omega

theorem roomy_active : roomy.Active 0 :=
  ⟨by decide, by decide⟩

theorem roomy_card : roomy.mem.free.card = 1100 := by
  have hlist : roomy.mem.freelist = pool := laid_freelist _ _ _ _ _
  rw [Mem.free, hlist, Multiset.coe_card, length_pool]

theorem roomy_exec {file : Binary} {image : Image} {m' : Mem}
    (himage : roomy.mem.execImage smallLayout 0x400000 (some file) [[0x61, 0x62]] = .ok (some image, m'))
    : ∃ t, roomy.exec smallLayout 0 (some file) [[0x61, 0x62]] = .ok (true, t) := by
  have hargs : ∀ a ∈ ([[0x61, 0x62]] : List (List (BitVec 8))), a.length < 4096 := by decide
  rcases roomy_inv.exec_spec roomy_active rfl (some file) (by decide) (.inl hargs)
    with ⟨r, t, hok, _⟩
  have hr : r = true := by
    unfold VmSys.exec at hok
    rw [pgdir_eq (d := 0x400000) rfl, Fold.ok_bind, himage, Fold.ok_bind] at hok
    rcases Fold.bind_eq_ok hok with ⟨m'', _, hok⟩
    cases hok
    rfl
  rw [hr] at hok
  exact ⟨t, hok⟩

theorem roomy_exec_hollow
    : ∃ t, roomy.exec smallLayout 0 (some hollow) [[0x61, 0x62]] = .ok (true, t) := by
  have hfree := (roomy_inv.owned (p := 0) (d := 0x400000) (by decide) rfl).free
  rcases hfree.execImage_supplied 0x400000 0 hollow [[0x61, 0x62]] (n := 2) rfl (by rw [roomy_card]; decide) rfl (by decide)
    (fun d m _ hs => ⟨m, hs, hollow_execLoad smallLayout d m⟩) (by decide) (by decide) (by decide)
    (by decide) with ⟨image, m', himage⟩
  exact roomy_exec himage

theorem roomy_exec_filled
    : ∃ t, roomy.exec smallLayout 0 (some filled) [[0x61, 0x62]] = .ok (true, t) := by
  have hfree := (roomy_inv.owned (p := 0) (d := 0x400000) (by decide) rfl).free
  rcases hfree.execImage_supplied 0x400000 100 filled [[0x61, 0x62]] (n := 3) rfl (by rw [roomy_card]; decide) rfl (by decide)
    (fun d m h hs => filled_execLoad h hs) (by decide) (by decide) (by decide)
    (by decide) with ⟨image, m', himage⟩
  exact roomy_exec himage

theorem initial_stack_decodes_roomy
    : ∃ t e P ptrs, roomy.exec smallLayout 0 (some filled) [[0x61, 0x62]] = .ok (true, t) ∧
        (t.proc 0).pgdir = some e ∧
        t.mem.Decodes e (t.proc 0).sz.toNat (t.proc 0).esp [[0x61, 0x62]] P ptrs := by
  have hargs : ∀ a ∈ ([[0x61, 0x62]] : List (List (BitVec 8))), a.length < 4096 := by decide
  rcases initial_stack_decodes roomy_inv roomy_active rfl (some filled) (by decide) (.inl hargs)
    with ⟨r, t, hok, hdecodes, _⟩
  rcases roomy_exec_filled with ⟨t', hok'⟩
  rw [hok'] at hok
  cases hok
  rcases hdecodes rfl with ⟨e, P, ptrs, he, hstack⟩
  exact ⟨t, e, P, ptrs, hok', he, hstack⟩

end VmSys

namespace NamedSys

variable {L : Layout} {s : NamedSys} {p : ProcId} {d : BitVec 32} {argv : List (List (BitVec 8))}

/--
`exec` of any file: it fails and the process is as before, or the process has the segments of the file
that take memory, the last one where several overlap, and zeroes elsewhere below its stack.
-/
theorem exec_handles_every_elf (h : VmSys.Inv L s.sys) (hp : s.sys.Active p)
    (hd : (s.sys.proc p).pgdir = some d) (path : List (BitVec 8)) (file : Binary)
    (hargv : (argv.map List.length).sum < PGSIZE)
    : ∃ r t, s.exec L p path (some file) argv = .ok (r, t) ∧
        (r = false → t.sys.proc = s.sys.proc ∧ t.name = s.name ∧
          (∀ u, u < 2 ^ 20 → t.sys.mem.walk d u = s.sys.mem.walk d u) ∧
          ∀ va, va < KERNBASE → t.sys.mem.load d va = s.sys.mem.load d va) ∧
        (r = true → ∃ b phs e, file.read 52 0 = some b ∧
          file.phdrs (Elfhdr.ofBytes b).phnum (Elfhdr.ofBytes b).phoff = some phs ∧
          (t.sys.proc p).pgdir = some e ∧ (t.sys.proc p).eip = (Elfhdr.ofBytes b).entry ∧
          (t.sys.proc p).sz.toNat % PGSIZE = 0 ∧ (t.sys.proc p).sz < KERNBASE ∧
          (∀ u, 4096 * u < (t.sys.proc p).sz.toNat → pteP (t.sys.mem.walk e u)) ∧
          (∀ va, va.toNat < (t.sys.proc p).sz.toNat - PGSIZE →
            t.sys.mem.load e va = some (file.content phs 0 va.toNat)) ∧
          pteU (t.sys.mem.walk e ((t.sys.proc p).sz.toNat / 4096 - 2)) = false) := by
  have hshort : ∀ a ∈ argv, a.length < 4096 := by
    intro a ha
    have hle : a.length ≤ (argv.map List.length).sum := List.le_sum_of_mem (List.mem_map_of_mem ha)
    rw [PGSIZE] at hargv
    omega
  have hlong : ∀ a ∈ argv, a.length + 1 < 2 ^ 32 := by
    intro a ha
    have := hshort a ha
    omega
  rcases h.exec_spec hp hd (some file) hlong (.inl hshort) with ⟨r, t, hok, hfail, hsome⟩
  unfold NamedSys.exec
  rw [hok, Fold.ok_bind]
  cases r with
  | false =>
    refine ⟨false, _, rfl, ?_, Bool.noConfusion⟩
    intro _
    rcases hfail rfl with ⟨hproc, hagree⟩
    refine ⟨hproc, rfl, fun u hu => hagree.walk hu, ?_⟩
    intro va hva
    rw [BitVec.lt_def, KERNBASE_toNat] at hva
    exact hagree.load hva
  | true =>
    refine ⟨true, _, rfl, Bool.noConfusion, ?_⟩
    intro _
    rcases hsome rfl with ⟨file', b, phs, e, hfile, hstarted⟩
    cases hfile
    have hbelow := hstarted.guarded.below
    have hpresent : ∀ u, 4096 * u < (t.proc p).sz.toNat → pteP (t.mem.walk e u) := by
      intro u hu
      rw [hstarted.guarded.spans.present u (by omega)]
      exact hu
    refine ⟨b, phs, e, hstarted.header, hstarted.phdrs, hstarted.pgdir, hstarted.eip,
      hstarted.guarded.align, ?_, hpresent, ?_, hstarted.guarded.guard⟩
    . rw [BitVec.lt_def, KERNBASE_toNat]
      exact hbelow
    . intro va hva
      simp only at hva
      rw [Mem.load_of_present (hpresent _ (by omega)), hstarted.content _ hva]

def roomy : NamedSys where
  sys := VmSys.roomy
  name _ := Bytes.zero

theorem roomy_exec {file : Binary} {u : VmSys}
    (hexec : VmSys.roomy.exec VmSys.smallLayout 0 (some file) [[0x61, 0x62]] = .ok (true, u))
    : ∃ t, exec VmSys.smallLayout roomy 0 [0x61] (some file) [[0x61, 0x62]] = .ok (true, t) ∧
        t.sys = u := by
  refine ⟨⟨u, Function.update roomy.name 0 (safestrcpy (roomy.name 0) (lastElem [0x61]) 16)⟩, ?_, rfl⟩
  unfold NamedSys.exec
  rw [show roomy.sys = VmSys.roomy from rfl, hexec, Fold.ok_bind]
  rfl

theorem segment_phdrs {filesz memsz : BitVec 8} {b : Bytes 52} {phs : List Proghdr}
    (hb : (segment filesz memsz).read 52 0 = some b)
    (hphs : (segment filesz memsz).phdrs (Elfhdr.ofBytes b).phnum (Elfhdr.ofBytes b).phoff = some phs)
    : phs = [Proghdr.ofBytes (fun i => (segment filesz memsz).byte (52 + i.val))] := by
  rw [show (segment filesz memsz).read 52 0 =
    some (fun i => (segment filesz memsz).byte (0 + i.val)) from rfl] at hb
  cases hb
  exact (Option.some.inj hphs).symm

theorem roomy_exec_size {file : Binary} {u : VmSys}
    (hexec : VmSys.roomy.exec VmSys.smallLayout 0 (some file) [[0x61, 0x62]] = .ok (true, u))
    : 4096 ≤ (u.proc 0).sz.toNat - 4096 := by
  have hargs : ∀ a ∈ ([[0x61, 0x62]] : List (List (BitVec 8))), a.length < 4096 := by decide
  rcases VmSys.roomy_inv.exec_spec VmSys.roomy_active rfl (some file) (by decide) (.inl hargs)
    with ⟨r, t, hok, _, hsome⟩
  rw [hexec] at hok
  cases hok
  rcases hsome rfl with ⟨_, _, _, _, _, hstarted⟩
  have htwo := hstarted.guarded.two
  omega

theorem exec_handles_every_elf_filled
    : ∃ t e, exec VmSys.smallLayout roomy 0 [0x61] (some filled) [[0x61, 0x62]] = .ok (true, t) ∧
        (t.sys.proc 0).pgdir = some e ∧ (t.sys.proc 0).sz < KERNBASE ∧
        t.sys.mem.load e 3 = some 0x46 ∧ t.sys.mem.load e 84 = some 0 := by
  have hargs : (([[0x61, 0x62]] : List (List (BitVec 8))).map List.length).sum < PGSIZE := by decide
  rcases exec_handles_every_elf (s := roomy) (d := 0x400000) VmSys.roomy_inv VmSys.roomy_active rfl
    [0x61] filled hargs with ⟨r, t, hok, _, hsome⟩
  rcases VmSys.roomy_exec_filled with ⟨u, hu⟩
  have hsize := roomy_exec_size hu
  rcases roomy_exec hu with ⟨t', hexec, rfl⟩
  rw [hexec] at hok
  cases hok
  rcases hsome rfl with ⟨b, phs, e, hb, hphs, hpgdir, _, _, hsz, _, hload, _⟩
  rw [segment_phdrs hb hphs] at hload
  refine ⟨t, e, hexec, hpgdir, hsz, ?_, ?_⟩
  . rw [hload 3 (Nat.lt_of_lt_of_le (by decide) hsize)]
    rfl
  . rw [hload 84 (Nat.lt_of_lt_of_le (by decide) hsize)]
    rfl

/--
A segment that takes no memory is skipped before its size in the file is looked at: the byte it has
for the address 0 is not loaded.
-/
theorem exec_skips_empty_segment
    : ∃ t b ph e, exec VmSys.smallLayout roomy 0 [0x61] (some hollow) [[0x61, 0x62]] = .ok (true, t) ∧
        hollow.read 52 0 = some b ∧
        hollow.phdrs (Elfhdr.ofBytes b).phnum (Elfhdr.ofBytes b).phoff = some [ph] ∧
        ph.type = 1 ∧ ph.vaddr = 0 ∧ ph.filesz = 1 ∧ ph.off = 0 ∧ hollow.byte 0 = 0x7f ∧
        (t.sys.proc 0).pgdir = some e ∧ 8192 ≤ (t.sys.proc 0).sz.toNat ∧
        t.sys.mem.load e 0 = some 0 := by
  rcases VmSys.roomy_exec_hollow with ⟨u, hexec⟩
  rcases roomy_exec hexec with ⟨t, hnamed, rfl⟩
  have hargs : ∀ a ∈ ([[0x61, 0x62]] : List (List (BitVec 8))), a.length < 4096 := by decide
  rcases VmSys.roomy_inv.exec_spec VmSys.roomy_active rfl (some hollow) (by decide) (.inl hargs)
    with ⟨r, t', hok, _, hsome⟩
  rw [hexec] at hok
  cases hok
  rcases hsome rfl with ⟨file, b, phs, e, hfile, hstarted⟩
  cases hfile
  rcases segment_phdrs hstarted.header hstarted.phdrs with rfl
  have htwo := hstarted.guarded.two
  have hbelow := hstarted.guarded.below
  have hp : pteP (t.sys.mem.walk e ((0 : BitVec 32).toNat / 4096)) := by
    rw [hstarted.guarded.spans.present _ (by decide)]
    exact Nat.lt_of_lt_of_le (by decide) htwo
  refine ⟨t, _, _, e, hnamed, hstarted.header, hstarted.phdrs, by decide, by decide, by decide,
    by decide, rfl, hstarted.pgdir, htwo, ?_⟩
  rw [Mem.load_of_present hp, hstarted.content _ (Nat.lt_of_lt_of_le (by decide)
    (Nat.sub_le_sub_right htwo 4096))]
  rfl

end NamedSys

end Xv6
