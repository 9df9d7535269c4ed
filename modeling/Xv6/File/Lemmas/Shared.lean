import Mathlib.Data.List.GetD
import Xv6.File.Impl.Shared

namespace Xv6

namespace DataInode

def byte (ip : DataInode) (j : Nat) : BitVec 8 :=
  (ip.block (j / BSIZE)).byte (j % BSIZE)

theorem byte_add (ip : DataInode) {off k : Nat} (hk : k < BSIZE - off % BSIZE)
    : ip.byte (off + k) = (ip.block (off / BSIZE)).byte (off % BSIZE + k) := by
  have hbsize : BSIZE = 512 := rfl
  have hdiv : (off + k) / BSIZE = off / BSIZE := by
    rw [hbsize] at hk ⊢
    omega
  have hmod : (off + k) % BSIZE = off % BSIZE + k := by
    rw [hbsize] at hk ⊢
    omega
  unfold byte
  rw [hdiv, hmod]

theorem readiLoop_eq (ip : DataInode) {fuel off n : Nat} (hfuel : n ≤ fuel)
    : ip.readiLoop fuel off n = (List.range n).map (fun k => ip.byte (off + k)) := by
  have hbsize : BSIZE = 512 := rfl
  induction fuel generalizing off n with
  | zero =>
    have hzero : n = 0 := by omega
    subst hzero
    rfl
  | succ fuel ih =>
    unfold readiLoop
    split
    . next hpos =>
      dsimp only
      generalize hm : min n (BSIZE - off % BSIZE) = m
      have hmpos : 0 < m := by
        have := Nat.mod_lt off (y := BSIZE) (by omega)
        omega
      have hpart : (List.range m).map (fun i => (ip.block (off / BSIZE)).byte (off % BSIZE + i)) =
          (List.range m).map (fun k => ip.byte (off + k)) := by
        apply List.map_congr_left
        intro k hk
        rw [List.mem_range] at hk
        rw [byte_add ip (by omega)]
      have hrest : n - m ≤ fuel := by omega
      have hsplit : n = m + (n - m) := by omega
      rw [hpart, ih hrest]
      conv =>
        rhs
        rw [hsplit, List.range_add, List.map_append, List.map_map]
      congr 1
      apply List.map_congr_left
      intro k _
      show _ = ip.byte (off + (m + k))
      rw [Nat.add_assoc]
    . have hzero : n = 0 := by omega
      subst hzero
      rfl

theorem writeiLoop_size (fuel : Nat) (ip : DataInode) (off : Nat) (src : List (BitVec 8))
    : (writeiLoop fuel ip off src).size = ip.size := by
  induction fuel generalizing ip off src with
  | zero => rfl
  | succ fuel ih =>
    unfold writeiLoop
    split
    . rw [ih]
      rfl
    . rfl

theorem byte_writeBlock (ip : DataInode) {off m : Nat} (hm : m ≤ BSIZE - off % BSIZE)
    (src : List (BitVec 8)) (j : Nat)
    : (ip.setBlock (off / BSIZE)
          ((ip.block (off / BSIZE)).blit (off % BSIZE) m (src.getD · 0))).byte j =
        if off ≤ j ∧ j < off + m then src.getD (j - off) 0 else ip.byte j := by
  have hbsize : BSIZE = 512 := rfl
  unfold byte setBlock
  dsimp only
  have hmod : j % BSIZE < BSIZE := Nat.mod_lt j (by omega)
  by_cases hblock : j / BSIZE = off / BSIZE
  . rw [hblock, Function.update_self, Bytes.byte_blit _ _ _ _ _ hmod]
    have hiff : (off % BSIZE ≤ j % BSIZE ∧ j % BSIZE < off % BSIZE + m) ↔ (off ≤ j ∧ j < off + m) := by
      rw [hbsize] at hblock ⊢
      omega
    have hsub : j % BSIZE - off % BSIZE = j - off := by
      rw [hbsize] at hblock ⊢
      omega
    simp only [hiff, hsub]
  . have hout : ¬ (off ≤ j ∧ j < off + m) := by
      rw [hbsize] at hblock hm
      omega
    rw [Function.update_of_ne hblock, if_neg hout]

theorem byte_writeiLoop (fuel : Nat) (ip : DataInode) (off : Nat) (src : List (BitVec 8))
    (hfuel : src.length ≤ fuel) (j : Nat)
    : (writeiLoop fuel ip off src).byte j =
        if off ≤ j ∧ j < off + src.length then src.getD (j - off) 0 else ip.byte j := by
  have hbsize : BSIZE = 512 := rfl
  induction fuel generalizing ip off src with
  | zero =>
    have hout : ¬ (off ≤ j ∧ j < off + src.length) := by omega
    rw [if_neg hout]
    rfl
  | succ fuel ih =>
    unfold writeiLoop
    split
    . next hpos =>
      dsimp only
      generalize hm : min src.length (BSIZE - off % BSIZE) = m
      have hmpos : 0 < m := by
        have := Nat.mod_lt off (y := BSIZE) (by omega)
        omega
      have hlen : (src.drop m).length = src.length - m := List.length_drop
      rw [ih _ _ _ (by omega), byte_writeBlock ip (by omega), hlen]
      by_cases hin : off ≤ j ∧ j < off + src.length
      . rw [if_pos hin]
        by_cases hfirst : j < off + m
        . rw [if_neg (by omega), if_pos (by omega)]
        . rw [if_pos (by omega), List.getD_eq_getElem?_getD, List.getElem?_drop,
            ← List.getD_eq_getElem?_getD]
          congr 1
          omega
      . rw [if_neg hin, if_neg (by omega), if_neg (by omega)]
    . have hout : ¬ (off ≤ j ∧ j < off + src.length) := by omega
      rw [if_neg hout]

theorem readi_some {ip : DataInode} {off n : BitVec 32} {bytes : List (BitVec 8)}
    (h : ip.readi off n = some bytes)
    : off.toNat + bytes.length ≤ ip.size.toNat ∧
      bytes = (List.range bytes.length).map (fun k => ip.byte (off.toNat + k)) := by
  unfold readi at h
  split at h
  . contradiction
  . next hbad =>
    rw [not_or] at hbad
    have hle : off.toNat ≤ ip.size.toNat := by
      have := hbad.1
      bv_omega
    dsimp only at h
    generalize hn : (if off + n > ip.size then ip.size - off else n) = n' at h
    have hn' : off.toNat + n'.toNat ≤ ip.size.toNat := by
      rw [← hn]
      have := hbad.2
      split <;> bv_omega
    cases h
    rw [readiLoop_eq ip (Nat.le_refl _)]
    rw [List.length_map, List.length_range]
    exact ⟨hn', rfl⟩

theorem writei_some {ip ip' : DataInode} {off : BitVec 32} {src : List (BitVec 8)}
    (hsrc : src.length < 2 ^ 31) (h : ip.writei off src = some ip')
    : off.toNat ≤ ip.size.toNat ∧ off.toNat + src.length ≤ MAXFILE * BSIZE ∧
      ip'.size.toNat = max ip.size.toNat (off.toNat + src.length) ∧
      ∀ j, ip'.byte j =
        if off.toNat ≤ j ∧ j < off.toNat + src.length then src.getD (j - off.toNat) 0
        else ip.byte j := by
  have hmax : MAXFILE * BSIZE = 71680 := rfl
  unfold writei at h
  dsimp only at h
  rw [hmax] at h ⊢
  split at h
  . contradiction
  next hbad =>
  split at h
  . contradiction
  next hfit =>
  rw [not_or] at hbad
  have hlen : (BitVec.ofNat 32 src.length).toNat = src.length := by
    rw [BitVec.toNat_ofNat]
    omega
  generalize BitVec.ofNat 32 src.length = n at h hbad hfit hlen
  have hle : off.toNat ≤ ip.size.toNat := by
    have := hbad.1
    bv_omega
  have hsum : (off + n).toNat = off.toNat + src.length := by
    have := hbad.2
    bv_omega
  have hfits : off.toNat + src.length ≤ 71680 := by
    rw [← hsum]
    bv_omega
  have hsize := writeiLoop_size src.length ip off.toNat src
  have hbyte := byte_writeiLoop src.length ip off.toNat src (Nat.le_refl _)
  generalize writeiLoop src.length ip off.toNat src = u at h hsize hbyte
  refine ⟨hle, hfits, ?_⟩
  split at h
  . next hgrow =>
    cases h
    refine ⟨?_, hbyte⟩
    have := hgrow.2
    rw [hsize] at this
    dsimp only
    rw [hsum]
    bv_omega
  . next hsame =>
    cases h
    refine ⟨?_, hbyte⟩
    rw [hsize] at hsame ⊢
    rw [not_and_or] at hsame
    cases hsame with
    | inl hzero => bv_omega
    | inr hge => bv_omega

end DataInode

namespace SharedSys

/--
Each transfer starts where the one before it ends, the first one at `off`.
-/
def Consecutive : Nat → List Transfer → Prop
  | _, [] => True
  | off, x :: xs => x.start = off ∧ Consecutive (off + x.bytes.length) xs

def total (h : List Transfer) : Nat :=
  (h.map (fun x => x.bytes.length)).sum

def bytesOf (call : Nat) (h : List Transfer) : List (BitVec 8) :=
  (h.filter (fun x => x.write && x.call == call)).flatMap (fun x => x.bytes)

section History

variable {off : Nat} {h : List Transfer} {x : Transfer}

theorem total_concat (h : List Transfer) (x : Transfer)
    : total (h ++ [x]) = total h + x.bytes.length := by
  simp [total]

theorem Consecutive.concat (hh : Consecutive off h) (hx : x.start = off + total h)
    : Consecutive off (h ++ [x]) := by
  induction h generalizing off with
  | nil => exact ⟨by simpa [total] using hx, trivial⟩
  | cons y h ih =>
    refine ⟨hh.1, ih hh.2 ?_⟩
    rw [hx]
    simp [total]
    omega

theorem Consecutive.le (hh : Consecutive off h) (hx : x ∈ h)
    : off ≤ x.start ∧ x.start + x.bytes.length ≤ off + total h := by
  induction h generalizing off with
  | nil => contradiction
  | cons y h ih =>
    have htotal : total (y :: h) = y.bytes.length + total h := by simp [total]
    have hy := hh.1
    cases List.mem_cons.mp hx with
    | inl heq =>
      subst heq
      omega
    | inr hmem =>
      have := ih hh.2 hmem
      omega

theorem Consecutive.pairwise (hh : Consecutive off h)
    : h.Pairwise (fun x y => x.start + x.bytes.length ≤ y.start) := by
  induction h generalizing off with
  | nil => exact .nil
  | cons y h ih =>
    refine .cons ?_ (ih hh.2)
    intro x hx
    have hy := hh.1
    have := (Consecutive.le hh.2 hx).1
    omega

theorem bytesOf_concat (call : Nat) (h : List Transfer) (x : Transfer)
    : bytesOf call (h ++ [x]) =
        bytesOf call h ++ if x.write = true ∧ x.call = call then x.bytes else [] := by
  unfold bytesOf
  rw [List.filter_append, List.flatMap_append]
  congr 1
  by_cases hx : x.write = true ∧ x.call = call
  . rw [if_pos hx]
    simp [hx.1, hx.2]
  . rw [if_neg hx]
    simp
    intro hw hc
    exact absurd ⟨hw, hc⟩ hx

theorem bytesOf_eq_nil {call : Nat} (hcall : ∀ x ∈ h, x.call < call) : bytesOf call h = [] := by
  unfold bytesOf
  rw [List.filter_eq_nil_iff.mpr]
  . rfl
  . intro x hx
    have := hcall x hx
    simp
    omega

end History

/--
The transfers lie one behind the other, and the file still has their bytes.
-/
structure Placed (off₀ : Nat) (s : SharedSys) : Prop where
  consecutive : Consecutive off₀ s.history
  off : s.off.toNat = off₀ + total s.history
  size : s.ip.size.toNat ≤ MAXFILE * BSIZE
  stored : ∀ x ∈ s.history, ∀ k, k < x.bytes.length → s.ip.byte (x.start + k) = x.bytes.getD k 0

theorem Placed.concat {off₀ : Nat} {s t : SharedSys} {x : Transfer} (h : Placed off₀ s)
    (hhistory : t.history = s.history ++ [x]) (hstart : x.start = s.off.toNat)
    (hoff : t.off.toNat = s.off.toNat + x.bytes.length)
    (hsize : t.ip.size.toNat ≤ MAXFILE * BSIZE)
    (hold : ∀ j, j < s.off.toNat → t.ip.byte j = s.ip.byte j)
    (hnew : ∀ k, k < x.bytes.length → t.ip.byte (x.start + k) = x.bytes.getD k 0)
    : Placed off₀ t where
  consecutive := by
    rw [hhistory]
    apply h.consecutive.concat
    rw [hstart, h.off]
  off := by
    rw [hhistory, total_concat, hoff, h.off]
    omega
  size := hsize
  stored := by
    intro y hy k hk
    rw [hhistory, List.mem_append, List.mem_singleton] at hy
    cases hy with
    | inl hmem =>
      have hle := (h.consecutive.le hmem).2
      have hoff' := h.off
      rw [hold _ (by omega)]
      exact h.stored y hmem k hk
    | inr heq =>
      subst heq
      exact hnew k hk

/--
A call in the loop of `filewrite` has stored `addr[0]`, ..., `addr[i - 1]`, and one that has returned
`n` has stored all of `addr`.
-/
structure Calls (s : SharedSys) : Prop where
  known : ∀ x ∈ s.history, x.call < s.calls
  running : ∀ p call addr i, s.pc p = .writing call addr i →
    call < s.calls ∧ i < addr.length ∧ addr.length < 2 ^ 31 ∧ bytesOf call s.history = addr.take i
  unique : ∀ p q call addr addr' i i', s.pc p = .writing call addr i →
    s.pc q = .writing call addr' i' → p = q
  returned : ∀ w ∈ s.returned, w.call < s.calls ∧ (∀ p addr i, s.pc p ≠ .writing w.call addr i) ∧
    (w.r = w.addr.length → bytesOf w.call s.history = w.addr)

section Steps

variable {off₀ : Nat} {s t : SharedSys} {p : Nat} {addr : List (BitVec 8)}

/--
What a step may do to the calls: process `p` goes on in, or returns from, a call that no other process
is in and that has not returned.
-/
theorem Calls.update (h : Calls s) {call : Nat} {pc : SharedPc} (hcall : call < t.calls)
    (hle : s.calls ≤ t.calls) (hknown : ∀ x ∈ t.history, x.call < t.calls)
    (hpc : t.pc = Function.update s.pc p pc)
    (howner : ∀ q addr i, q ≠ p → s.pc q ≠ .writing call addr i)
    (hpending : ∀ w ∈ s.returned, w.call ≠ call)
    (hbytes : ∀ call', call' ≠ call → bytesOf call' t.history = bytesOf call' s.history)
    (hrunning : pc = .outside ∨ ∃ addr i, pc = .writing call addr i ∧ i < addr.length ∧
      addr.length < 2 ^ 31 ∧ bytesOf call t.history = addr.take i)
    (hreturned : t.returned = s.returned ∨ pc = .outside ∧ ∃ w, t.returned = w :: s.returned ∧
      w.call = call ∧ (w.r = w.addr.length → bytesOf call t.history = w.addr))
    : Calls t := by
  have hself : ∀ call' addr i, t.pc p = .writing call' addr i → pc = .writing call' addr i := by
    intro call' addr i hp
    rw [hpc, Function.update_self] at hp
    exact hp
  have hother : ∀ q call' addr i, q ≠ p → t.pc q = .writing call' addr i →
      s.pc q = .writing call' addr i ∧ call' ≠ call := by
    intro q call' addr i hqp hq
    rw [hpc, Function.update_of_ne hqp] at hq
    refine ⟨hq, ?_⟩
    rintro rfl
    exact howner q addr i hqp hq
  -- the call that p is in
  have hown : ∀ call' addr i, t.pc p = .writing call' addr i → call' = call ∧ i < addr.length ∧
      addr.length < 2 ^ 31 ∧ bytesOf call t.history = addr.take i := by
    intro call' addr i hp
    have hpc' := hself call' addr i hp
    rcases hrunning with hout | ⟨addr', i', heq, hrest⟩
    . rw [hout] at hpc'
      contradiction
    . rw [heq] at hpc'
      cases hpc'
      exact ⟨rfl, hrest⟩
  have hold : ∀ w ∈ s.returned, w.call < t.calls ∧
      (∀ q addr i, t.pc q ≠ .writing w.call addr i) ∧
      (w.r = w.addr.length → bytesOf w.call t.history = w.addr) := by
    intro w hw
    have hw' := h.returned w hw
    refine ⟨Nat.lt_of_lt_of_le hw'.1 hle, ?_, ?_⟩
    . intro q addr i hq
      by_cases hqp : q = p
      . subst hqp
        exact hpending w hw (hown _ addr i hq).1
      . exact hw'.2.1 q addr i (hother q _ addr i hqp hq).1
    . rw [hbytes w.call (hpending w hw)]
      exact hw'.2.2
  constructor
  . exact hknown
  . intro q call' addr i hq
    by_cases hqp : q = p
    . subst hqp
      rcases hown call' addr i hq with ⟨rfl, hrest⟩
      exact ⟨hcall, hrest⟩
    . rcases hother q call' addr i hqp hq with ⟨hq', hne⟩
      have hrun := h.running q call' addr i hq'
      rw [hbytes call' hne]
      exact ⟨Nat.lt_of_lt_of_le hrun.1 hle, hrun.2⟩
  . intro q q' call' addr₁ addr₂ i₁ i₂ hq hq'
    by_cases hqp : q = p <;> by_cases hqp' : q' = p
    . rw [hqp, hqp']
    . subst hqp
      exact absurd (hown call' addr₁ i₁ hq).1 (hother q' call' addr₂ i₂ hqp' hq').2
    . subst hqp'
      exact absurd (hown call' addr₂ i₂ hq').1 (hother q call' addr₁ i₁ hqp hq).2
    . exact h.unique q q' call' addr₁ addr₂ i₁ i₂ (hother q call' addr₁ i₁ hqp hq).1
        (hother q' call' addr₂ i₂ hqp' hq').1
  . intro w hw
    rcases hreturned with hsame | ⟨hout, w', hcons, hwcall, hwbytes⟩
    . rw [hsame] at hw
      exact hold w hw
    . rw [hcons] at hw
      cases List.mem_cons.mp hw with
      | inr hmem => exact hold w hmem
      | inl heq =>
        subst heq
        rw [hwcall]
        refine ⟨hcall, ?_, hwbytes⟩
        intro q addr i hq
        by_cases hqp : q = p
        . subst hqp
          have hpc' := hself _ addr i hq
          rw [hout] at hpc'
          contradiction
        . exact (hother q _ addr i hqp hq).2 rfl

theorem Calls.filewriteStart (h : Calls s) (p : Nat) (hlen : addr.length < 2 ^ 31)
    : Calls (s.filewriteStart p addr) := by
  have hnil : bytesOf s.calls s.history = [] := bytesOf_eq_nil h.known
  have hknown : ∀ x ∈ s.history, x.call < s.calls + 1 :=
    fun x hx => Nat.lt_succ_of_lt (h.known x hx)
  have howner : ∀ q addr' i, q ≠ p → s.pc q ≠ .writing s.calls addr' i := by
    intro q addr' i _ hq
    exact Nat.lt_irrefl _ (h.running q _ addr' i hq).1
  have hpending : ∀ w ∈ s.returned, w.call ≠ s.calls :=
    fun w hw => Nat.ne_of_lt (h.returned w hw).1
  unfold SharedSys.filewriteStart
  dsimp only
  split
  . refine h.update (Nat.lt_succ_self s.calls) (Nat.le_succ _) hknown rfl howner hpending
      (fun _ _ => rfl) (.inl rfl) ?_
    refine .inr ⟨rfl, _, rfl, rfl, ?_⟩
    intro hr
    dsimp only at hr
    omega
  split
  . next hpos =>
    refine h.update (Nat.lt_succ_self s.calls) (Nat.le_succ _) hknown rfl howner hpending
      (fun _ _ => rfl) ?_ (.inl rfl)
    exact .inr ⟨addr, 0, rfl, hpos, hlen, hnil⟩
  . next hpos =>
    refine h.update (Nat.lt_succ_self s.calls) (Nat.le_succ _) hknown rfl howner hpending
      (fun _ _ => rfl) (.inl rfl) ?_
    refine .inr ⟨rfl, _, rfl, rfl, ?_⟩
    intro _
    have haddr : addr = [] := List.eq_nil_of_length_eq_zero (by omega)
    rw [haddr]
    exact hnil

theorem Calls.filewriteStep (h : Calls s) {call i : Nat} (hpc : s.pc p = .writing call addr i)
    : Calls (s.filewriteStep p call addr i) := by
  rcases h.running p call addr i hpc with ⟨hcall, hi, hlen, hbytes⟩
  have howner : ∀ q addr' i', q ≠ p → s.pc q ≠ .writing call addr' i' := by
    intro q addr' i' hqp hq
    exact hqp (h.unique q p call addr' addr i' i hq hpc)
  have hpending : ∀ w ∈ s.returned, w.call ≠ call := by
    intro w hw heq
    have hnot := (h.returned w hw).2.1 p addr i
    rw [heq] at hnot
    exact hnot hpc
  unfold SharedSys.filewriteStep
  dsimp only
  generalize hn1 : min (addr.length - i) MAXCHUNK = n1
  split
  . refine h.update hcall (Nat.le_refl _) h.known rfl howner hpending (fun _ _ => rfl) (.inl rfl) ?_
    refine .inr ⟨rfl, _, rfl, rfl, ?_⟩
    intro hr
    dsimp only at hr
    omega
  . have hknown : ∀ x ∈ s.history ++ [Transfer.mk call true s.off.toNat ((addr.drop i).take n1)],
        x.call < s.calls := by
      intro x hx
      rw [List.mem_append, List.mem_singleton] at hx
      cases hx with
      | inl hmem => exact h.known x hmem
      | inr heq =>
        subst heq
        exact hcall
    have hsame : bytesOf call
        (s.history ++ [Transfer.mk call true s.off.toNat ((addr.drop i).take n1)]) =
          addr.take (i + n1) := by
      rw [bytesOf_concat, if_pos ⟨rfl, rfl⟩, hbytes, List.take_add]
    have hothers : ∀ call', call' ≠ call → bytesOf call'
        (s.history ++ [Transfer.mk call true s.off.toNat ((addr.drop i).take n1)]) =
          bytesOf call' s.history := by
      intro call' hne
      rw [bytesOf_concat, if_neg (fun hx => hne hx.2.symm), List.append_nil]
    split
    . next hmore =>
      refine h.update hcall (Nat.le_refl _) hknown rfl howner hpending hothers ?_ (.inl rfl)
      exact .inr ⟨addr, i + n1, rfl, hmore, hlen, hsame⟩
    . next hdone =>
      refine h.update hcall (Nat.le_refl _) hknown rfl howner hpending hothers (.inl rfl) ?_
      refine .inr ⟨rfl, _, rfl, rfl, ?_⟩
      intro _
      exact hsame.trans (List.take_of_length_le (by omega))

theorem Calls.fileread (h : Calls s) (n : BitVec 32) : Calls (s.fileread n) := by
  have hrunning : ∀ q call addr i, s.pc q = .writing call addr i → call < s.calls + 1 ∧
      i < addr.length ∧ addr.length < 2 ^ 31 ∧ bytesOf call s.history = addr.take i := by
    intro q call addr i hq
    have hrun := h.running q call addr i hq
    exact ⟨Nat.lt_succ_of_lt hrun.1, hrun.2⟩
  have hreturned : ∀ w ∈ s.returned, w.call < s.calls + 1 ∧
      (∀ q addr i, s.pc q ≠ .writing w.call addr i) ∧
      (w.r = w.addr.length → bytesOf w.call s.history = w.addr) := by
    intro w hw
    have hw' := h.returned w hw
    exact ⟨Nat.lt_succ_of_lt hw'.1, hw'.2⟩
  have hknown : ∀ x ∈ s.history, x.call < s.calls + 1 :=
    fun x hx => Nat.lt_succ_of_lt (h.known x hx)
  unfold SharedSys.fileread
  dsimp only
  split
  . exact ⟨hknown, hrunning, h.unique, hreturned⟩
  split
  . exact ⟨hknown, hrunning, h.unique, hreturned⟩
  . next bytes _ =>
    -- a piece that is read counts for no call of filewrite
    have hsame : ∀ call, bytesOf call
        (s.history ++ [Transfer.mk s.calls false s.off.toNat bytes]) = bytesOf call s.history := by
      intro call
      rw [bytesOf_concat, if_neg (by simp), List.append_nil]
    refine ⟨?_, ?_, h.unique, ?_⟩
    . intro x hx
      dsimp only at hx ⊢
      rw [List.mem_append, List.mem_singleton] at hx
      cases hx with
      | inl hmem => exact hknown x hmem
      | inr heq =>
        subst heq
        exact Nat.lt_succ_self _
    . intro q call addr i hq
      dsimp only at hq ⊢
      rw [hsame]
      exact hrunning q call addr i hq
    . intro w hw
      dsimp only at hw ⊢
      rw [hsame]
      exact hreturned w hw

theorem Placed.filewriteStart (h : Placed off₀ s) (p : Nat) (addr : List (BitVec 8))
    : Placed off₀ (s.filewriteStart p addr) := by
  have hkeep : ∀ t : SharedSys, t.history = s.history → t.off = s.off → t.ip = s.ip →
      Placed off₀ t := by
    intro t hhistory hoff hip
    refine ⟨?_, ?_, ?_, ?_⟩
    . rw [hhistory]
      exact h.consecutive
    . rw [hhistory, hoff]
      exact h.off
    . rw [hip]
      exact h.size
    . rw [hhistory, hip]
      exact h.stored
  unfold SharedSys.filewriteStart
  dsimp only
  split
  . exact hkeep _ rfl rfl rfl
  . split <;> exact hkeep _ rfl rfl rfl

theorem Placed.filewriteStep (h : Placed off₀ s) {call i : Nat} (hlen : addr.length < 2 ^ 31)
    : Placed off₀ (s.filewriteStep p call addr i) := by
  have hmax : MAXFILE * BSIZE = 71680 := rfl
  unfold SharedSys.filewriteStep
  dsimp only
  generalize hn1 : min (addr.length - i) MAXCHUNK = n1
  generalize hsrc : (addr.drop i).take n1 = src
  have hsrclen : src.length = n1 := by
    rw [← hsrc, List.length_take, List.length_drop]
    omega
  split
  . exact ⟨h.consecutive, h.off, h.size, h.stored⟩
  . next ip hwrite =>
    rcases DataInode.writei_some (by omega) hwrite with ⟨_, hfits, hsize, hbyte⟩
    have hoff : (s.off + BitVec.ofNat 32 n1).toNat = s.off.toNat + n1 := by
      rw [hmax] at hfits
      rw [BitVec.toNat_add, BitVec.toNat_ofNat]
      omega
    have hplaced : ∀ t : SharedSys,
        t.history = s.history ++ [Transfer.mk call true s.off.toNat src] →
        t.off = s.off + BitVec.ofNat 32 n1 → t.ip = ip → Placed off₀ t := by
      intro t hhistory htoff hip
      apply h.concat hhistory rfl
      . rw [htoff, hoff, hsrclen]
      . have := h.size
        rw [hip, hsize]
        omega
      . intro j hj
        rw [hip, hbyte, if_neg (by omega)]
      . intro k hk
        dsimp only at hk ⊢
        rw [hip, hbyte, if_pos (by omega), Nat.add_sub_cancel_left]
    split
    . exact hplaced _ rfl rfl rfl
    . exact hplaced _ rfl rfl rfl

theorem Placed.fileread (h : Placed off₀ s) (n : BitVec 32) : Placed off₀ (s.fileread n) := by
  have hmax : MAXFILE * BSIZE = 71680 := rfl
  unfold SharedSys.fileread
  dsimp only
  split
  . exact ⟨h.consecutive, h.off, h.size, h.stored⟩
  split
  . exact ⟨h.consecutive, h.off, h.size, h.stored⟩
  . next bytes hread =>
    rcases DataInode.readi_some hread with ⟨hle, hbytes⟩
    have hsize := h.size
    apply h.concat rfl rfl
    . dsimp only
      rw [hmax] at hsize
      rw [BitVec.toNat_add, BitVec.toNat_ofNat]
      omega
    . exact h.size
    . intros
      rfl
    . intro k hk
      dsimp only at hk ⊢
      rw [hbytes, List.getD_eq_getElem _ _ (by rw [← hbytes]; exact hk), List.getElem_map,
        List.getElem_range]

theorem Step.inv {e : Event} (hstep : Step s e t) (h : Placed off₀ s ∧ Calls s)
    : Placed off₀ t ∧ Calls t := by
  cases hstep with
  | filewriteStart _ hlen => exact ⟨h.1.filewriteStart _ _, h.2.filewriteStart _ hlen⟩
  | filewriteStep hpc =>
    exact ⟨h.1.filewriteStep (h.2.running _ _ _ _ hpc).2.2.1, h.2.filewriteStep hpc⟩
  | fileread _ => exact ⟨h.1.fileread _, h.2.fileread _⟩

theorem Start.inv (h : Start s) : Placed s.off.toNat s ∧ Calls s := by
  constructor
  . constructor
    . rw [h.history]
      trivial
    . rw [h.history]
      rfl
    . exact h.size
    . rw [h.history]
      nofun
  . constructor
    . rw [h.history]
      nofun
    . intro p call addr i hp
      rw [h.pc] at hp
      contradiction
    . intro p q call addr addr' i i' hp
      rw [h.pc] at hp
      contradiction
    . rw [h.returned]
      nofun

end Steps

/--
The transfers of all calls through one `struct file` lie one behind the other in the file in the order
in which they happen, each still there at the end, and a `filewrite` that has returned `n` has stored
its `n` bytes.
-/
theorem transfers_consecutive {s t : SharedSys} {es : List Event} (hs : s.Start)
    (hrun : EventRun s es t)
    : Consecutive s.off.toNat t.history ∧
      t.history.Pairwise (fun x y => x.start + x.bytes.length ≤ y.start) ∧
      t.off.toNat = s.off.toNat + total t.history ∧
      (∀ x ∈ t.history, ∀ k, k < x.bytes.length →
        t.ip.byte (x.start + k) = x.bytes.getD k 0) ∧
      ∀ w ∈ t.returned, w.r = w.addr.length → bytesOf w.call t.history = w.addr := by
  have hinv := hrun.invariant (P := fun u => Placed s.off.toNat u ∧ Calls u)
    (fun _ _ _ h _ hstep => hstep.inv h) hs.inv
  rcases hinv with ⟨hplaced, hcalls⟩
  refine ⟨hplaced.consecutive, hplaced.consecutive.pairwise, hplaced.off, hplaced.stored, ?_⟩
  intro w hw
  exact (hcalls.returned w hw).2.2

def fresh : SharedSys where
  ip := ⟨0, fun _ => Bytes.zero⟩
  off := 0
  readable := true
  writable := true
  pc := fun _ => .outside
  calls := 0
  history := []
  returned := []

theorem fresh_start : fresh.Start where
  size := by decide
  pc := fun _ => rfl
  history := rfl
  returned := rfl

theorem writei_append (ip : DataInode) (src : List (BitVec 8))
    (hroom : ip.size.toNat + src.length ≤ MAXFILE * BSIZE) (hpos : 0 < src.length)
    : ∃ ip', ip.writei ip.size src = some ip' ∧ ip'.size = ip.size + BitVec.ofNat 32 src.length := by
  have hmax : MAXFILE * BSIZE = 71680 := rfl
  have hsize := DataInode.writeiLoop_size src.length ip ip.size.toNat src
  have hzero : (0 : BitVec 32).toNat = 0 := rfl
  unfold DataInode.writei
  simp only [BitVec.lt_def, BitVec.toNat_add, BitVec.toNat_ofNat, gt_iff_lt, hsize, hzero]
  rw [if_neg (by omega), if_neg (by omega), if_pos (by omega)]
  exact ⟨_, rfl, rfl⟩

structure Appended (s : SharedSys) (p call : Nat) (addr : List (BitVec 8)) (i n : Nat) (t : SharedSys)
    : Prop where
  ip : t.off = t.ip.size
  off : t.off = s.off + BitVec.ofNat 32 n
  history : t.history = s.history ++ [⟨call, true, s.off.toNat, (addr.drop i).take n⟩]
  pc : t.pc = Function.update s.pc p (if i + n < addr.length then .writing call addr (i + n) else .outside)
  returned : t.returned =
    if i + n < addr.length then s.returned else ⟨call, addr, addr.length⟩ :: s.returned

theorem filewriteStep_append (s : SharedSys) (p call : Nat) (addr : List (BitVec 8)) (i n : Nat)
    (hoff : s.off = s.ip.size) (hn : min (addr.length - i) MAXCHUNK = n) (hpos : 0 < n)
    (hroom : s.off.toNat + n ≤ MAXFILE * BSIZE)
    : Appended s p call addr i n (s.filewriteStep p call addr i) := by
  have hlen : ((addr.drop i).take n).length = n := by
    rw [List.length_take, List.length_drop]
    omega
  rcases writei_append s.ip ((addr.drop i).take n) (by rw [hlen, ← hoff]; exact hroom)
    (by rw [hlen]; exact hpos) with ⟨ip, hip, hsize⟩
  rw [hlen, ← hoff] at hsize
  rw [← hoff] at hip
  unfold filewriteStep
  dsimp only
  rw [hn, hip]
  dsimp only
  split
  . next hmore =>
    refine ⟨hsize.symm, rfl, rfl, ?_, ?_⟩
    . rw [if_pos hmore]
      rfl
    . rw [if_pos hmore]
      rfl
  . next hlast =>
    refine ⟨hsize.symm, rfl, rfl, ?_, ?_⟩
    . rw [if_neg hlast]
      rfl
    . rw [if_neg hlast]
      rfl

def longWrite (addr : List (BitVec 8)) : List Event :=
  [.filewriteStart 0 addr, .filewriteStart 1 [3], .filewriteStep 0, .filewriteStep 1, .filewriteStep 0]

theorem longWrite_run (addr : List (BitVec 8)) (hlen : addr.length = 1600)
    : ∃ t, EventRun fresh (longWrite addr) t ∧ t.returned = [⟨0, addr, addr.length⟩, ⟨1, [3], 1⟩] ∧
        t.history.map (fun x => (x.call, x.start, x.bytes.length)) =
          [(0, 0, 1536), (1, 1536, 1), (0, 1537, 64)] := by
  have hstart : fresh.filewriteStart 0 addr =
      { fresh with calls := 1 }.setPc 0 (.writing 0 addr 0) := by
    unfold filewriteStart
    dsimp only
    rw [if_neg (by decide), if_pos (by omega)]
    rfl
  generalize hs : (fresh.filewriteStart 0 addr).filewriteStart 1 [3] = s
  have hoff : s.off = 0 := by
    rw [← hs, hstart]
    rfl
  have hfirst := filewriteStep_append s 0 0 addr 0 1536
    (by rw [← hs, hstart]; rfl) (by rw [hlen]; rfl) (by decide) (by rw [hoff]; decide)
  generalize ht : s.filewriteStep 0 0 addr 0 = t at hfirst
  have htoff : t.off = 1536 := by
    rw [hfirst.off, hoff]
    rfl
  have hsecond := filewriteStep_append t 1 1 [3] 0 1
    hfirst.ip rfl (by decide) (by rw [htoff]; decide)
  generalize hu : t.filewriteStep 1 1 [3] 0 = u at hsecond
  have huoff : u.off = 1537 := by
    rw [hsecond.off, htoff]
    rfl
  have hthird := filewriteStep_append u 0 0 addr 1536 64
    hsecond.ip (by rw [hlen]; rfl) (by decide) (by rw [huoff]; decide)
  have hspc : s.pc = Function.update (Function.update fresh.pc 0 (.writing 0 addr 0)) 1 (.writing 1 [3] 0) := by
    rw [← hs, hstart]
    rfl
  have hmore : (0 : Nat) + 1536 < addr.length := by omega
  refine ⟨u.filewriteStep 0 0 addr 1536, ?_, ?_, ?_⟩
  . refine .cons trivial (.filewriteStart rfl (by omega)) ?_
    refine .cons trivial (.filewriteStart (by rw [hstart]; rfl) (by decide)) ?_
    rw [hs]
    refine .cons trivial (.filewriteStep (by rw [hspc]; rfl)) ?_
    rw [ht]
    refine .cons trivial (.filewriteStep (by rw [hfirst.pc, hspc]; rfl)) ?_
    rw [hu]
    refine .cons trivial (.filewriteStep (by rw [hsecond.pc, hfirst.pc, hspc, if_pos hmore]; rfl)) ?_
    exact .nil _
  . rw [hthird.returned, hsecond.returned, hfirst.returned, if_neg (by omega), if_neg (by decide),
      if_pos hmore, ← hs, hstart]
    rfl
  . have hnil : s.history = [] := by
      rw [← hs, hstart]
      rfl
    rw [hthird.history, hsecond.history, hfirst.history, huoff, htoff, hoff, hnil]
    simp [hlen]

theorem transfers_consecutive_longWrite
    : ∃ t, EventRun fresh (longWrite (List.replicate 1600 7)) t ∧ Consecutive 0 t.history ∧
        t.history.map (fun x => (x.call, x.start, x.bytes.length)) =
          [(0, 0, 1536), (1, 1536, 1), (0, 1537, 64)] ∧
        bytesOf 0 t.history = List.replicate 1600 7 := by
  rcases longWrite_run (List.replicate 1600 7) List.length_replicate with
    ⟨t, hrun, hreturned, hhistory⟩
  have h := transfers_consecutive fresh_start hrun
  refine ⟨t, hrun, h.1, hhistory, ?_⟩
  generalize List.replicate 1600 (7 : BitVec 8) = addr at hreturned ⊢
  have hmem : ⟨0, addr, addr.length⟩ ∈ t.returned := by
    rw [hreturned]
    exact List.mem_cons_self
  exact h.2.2.2.2 _ hmem rfl

end SharedSys
end Xv6
