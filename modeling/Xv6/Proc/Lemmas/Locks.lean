import Xv6.Data.Ensures
import Xv6.Proc.Impl.Locks
import Xv6.Proc.Lemmas.Sched

namespace Xv6
namespace Kernel

variable {ncpu : Nat}

theorem makeRunnable_total {k : Kernel ncpu} (h : k.PrioOk) (p : ProcId)
    : ∃ t, k.makeRunnable p = .ok t ∧ t.PrioOk := by
  have hk : (k.modifyProc p ({ · with state := .runnable })).PrioOk := h.modifyProc (h p)
  refine ⟨_, insertProc_eq _ p (q := ⟨_, hk p⟩) rfl, ?_⟩
  exact hk.of_linksOnly (insertProcAt_linksOnly _ _ _)

-- The loop of setNewPrio comes to p.
def Leads (k : Kernel ncpu) (actual : Option ProcId) (p : ProcId) (fuel : Nat) : Prop :=
  ∃ i < fuel, Linked.follow k.sigprio i actual = some p

/--
What `setNewPrio` relies on when it has the lock: the links of the queue lead to the process.
-/
structure Settable (k : Kernel ncpu) (p : ProcId) (prio : BitVec 32) (prt : Fin NPRIO) : Prop where
  prio : prio.toNat < NPRIO
  queued : k.Leads (k.priotable prt).primero p (NPROC + 1)
  current : (k.priotable prt).primero = some p → (k.proc p).prio.toNat < NPRIO

theorem kill_total {k : Kernel ncpu} (h : k.PrioOk) (pid : BitVec 32)
    : ∃ r, k.kill pid = .ok r := by
  unfold kill
  split
  . exact ⟨_, rfl⟩
  . next p _ =>
    dsimp only
    split
    . have hk : (k.modifyProc p ({ · with killed := true })).PrioOk := h.modifyProc (h p)
      rcases makeRunnable_total hk p with ⟨t, ht, _⟩
      rw [ht]
      exact ⟨_, rfl⟩
    . exact ⟨_, rfl⟩

end Kernel

-- the read of *pte in sys_phmem
def Spaces.pte (sp : Spaces) (p : ProcId) (a : BitVec 32) : Except Fault (BitVec 32) :=
  match (sp.mem.walkpgdir (sp.pgdir p) a false).1 with
  | none => sp.mem.nullWord sp.cr3
  | some pte => .ok (sp.mem.get pte)

namespace LockSys

variable {ncpu : Nat} {T : Prop} {w : World ncpu} {s : LockSys ncpu} {n : Int}

/--
The `pushcli` depth of the caller's CPU is `n`, and its interrupts are off inside `pushcli`.
-/
structure Depth (n : Int) (s : LockSys ncpu) : Prop where
  ncli : (s.flags s.cpu).ncli = n
  interrupts : (s.flags s.cpu).interrupts = true → n = 0

structure Free (n : Int) (s : LockSys ncpu) : Prop extends Depth n s where
  lock : s.lock ≠ some s.cpu

structure Held (n : Int) (s : LockSys ncpu) : Prop extends Depth (n + 1) s where
  lock : s.lock = some s.cpu

structure FlagsOnly (s t : LockSys ncpu) : Prop where
  kernel : t.kernel = s.kernel
  lock : t.lock = s.lock
  cpu : t.cpu = s.cpu
  turn : t.turn = s.turn

theorem Depth.off (h : Depth (n + 1) s) (hn : 0 ≤ n) : (s.flags s.cpu).interrupts = false := by
  cases hi : (s.flags s.cpu).interrupts with
  | false => rfl
  | true =>
    have := h.interrupts hi
    omega

theorem Free.setKernel (h : Free n s) (k : Kernel ncpu) : Free n (s.setKernel k) :=
  ⟨⟨h.ncli, h.interrupts⟩, h.lock⟩

theorem Held.setKernel (h : Held n s) (k : Kernel ncpu) : Held n (s.setKernel k) :=
  ⟨⟨h.ncli, h.interrupts⟩, h.lock⟩

theorem FlagsOnly.free {t : LockSys ncpu} (h : FlagsOnly s t) (hs : Free n s) (ht : Depth n t)
    : Free n t := by
  refine ⟨ht, ?_⟩
  rw [h.lock, h.cpu]
  exact hs.lock

theorem FlagsOnly.held {t : LockSys ncpu} (h : FlagsOnly s t) (hs : Held n s)
    (ht : Depth (n + 1) t)
    : Held n t := by
  refine ⟨ht, ?_⟩
  rw [h.lock, h.cpu]
  exact hs.lock

theorem unlocked_kernel (w : World ncpu) (s : LockSys ncpu)
    : (s.unlocked w).kernel = w.table s.turn s.kernel := by
  unfold unlocked
  split <;> rfl

theorem Free.unlocked (h : Free n s) : Free n (s.unlocked w) := by
  unfold LockSys.unlocked
  split
  . next hi =>
    have hn := h.interrupts hi
    subst hn
    refine ⟨⟨?_, fun _ => rfl⟩, nofun⟩
    simp
  . exact ⟨⟨h.ncli, h.interrupts⟩, h.lock⟩

theorem Depth.pushcli (h : Depth n s) : Depth (n + 1) s.pushcli := by
  constructor
  . simp [LockSys.pushcli, setFlags, h.ncli]
  . simp [LockSys.pushcli, setFlags]

theorem mycpu_ensures (hn : 0 ≤ n) (h : Depth (n + 1) s) : Ensures T s.mycpu (· = s.cpu) := by
  unfold mycpu
  rw [h.off hn]
  exact .ok rfl

theorem popcli_ensures (hn : 0 ≤ n) (h : Depth (n + 1) s)
    : Ensures T s.popcli (fun t => Depth n t ∧ FlagsOnly s t) := by
  unfold popcli
  dsimp only
  rw [h.off hn, h.ncli, if_neg (by decide), if_neg (by omega)]
  apply Ensures.ok
  refine ⟨⟨?_, ?_⟩, rfl, rfl, rfl, rfl⟩
  . simp [setFlags]
  . simp [setFlags]
    omega

theorem holding_ensures (hn : 0 ≤ n) (h : Depth n s)
    : Ensures T s.holding (fun r =>
        (r.1 = true ↔ s.lock = some s.cpu) ∧ Depth n r.2 ∧ FlagsOnly s r.2) := by
  unfold holding
  apply (mycpu_ensures hn h.pushcli).bind
  rintro c rfl
  apply (popcli_ensures hn h.pushcli).bind
  rintro t ⟨ht, hkeep⟩
  refine .ok ⟨?_, ht, hkeep.kernel, hkeep.lock, hkeep.cpu, hkeep.turn⟩
  exact decide_eq_true_iff

theorem acquire_ensures (hn : 0 ≤ n) (h : Free n s)
    : Ensures T (s.acquire w) (fun t =>
        Held n t ∧ t.kernel = w.table s.turn s.kernel ∧ t.cpu = s.cpu ∧ t.turn = s.turn + 1) := by
  unfold acquire
  apply (holding_ensures (by omega) h.pushcli).bind
  rintro ⟨r, t⟩ ⟨hr, ht, hkeep⟩
  have hfree : r = false := by
    cases r with
    | false => rfl
    | true => exact absurd (hr.mp rfl) h.lock
  subst hfree
  have hothers : Depth (n + 1) (t.others w) := ⟨ht.ncli, ht.interrupts⟩
  apply (mycpu_ensures hn hothers).bind
  rintro c rfl
  refine .ok ⟨⟨⟨ht.ncli, ht.interrupts⟩, rfl⟩, ?_, hkeep.cpu, congrArg (· + 1) hkeep.turn⟩
  show w.table t.turn t.kernel = _
  rw [hkeep.turn, hkeep.kernel]
  rfl

theorem release_same (hn : 0 ≤ n) (h : Held n s)
    : Ensures T s.release (fun t => Free n t ∧ t.kernel = s.kernel ∧ t.turn = s.turn) := by
  unfold release
  apply (holding_ensures (by omega) h.toDepth).bind
  rintro ⟨r, t⟩ ⟨hr, ht, hkeep⟩
  have hheld : r = true := hr.mpr h.lock
  subst hheld
  have hdepth : Depth (n + 1) { t with lock := none } := ⟨ht.ncli, ht.interrupts⟩
  apply (popcli_ensures hn hdepth).mono
  rintro u ⟨hu, hkeep'⟩
  refine ⟨⟨hu, ?_⟩, hkeep'.kernel.trans hkeep.kernel, hkeep'.turn.trans hkeep.turn⟩
  rw [hkeep'.lock]
  nofun

/--
The table that the caller finds when it gets the lock or looks at it for the `i`-th time.
-/
def table (w : World ncpu) (s : LockSys ncpu) : Nat → Kernel ncpu
  | 0 => s.kernel
  | i + 1 => w.table (s.turn + i) (s.table w i)

theorem getProcbyPID_ensures (hn : 0 ≤ n) (h : Free n s) (pid : BitVec 32)
    : Ensures T (s.getProcbyPID w pid) (fun r =>
        r.1 = (s.table w 1).findPid pid ∧ r.2.kernel = s.table w 1 ∧ r.2.turn = s.turn + 1 ∧
          (r.1 = none → Held n r.2) ∧ (r.1 ≠ none → Free n r.2)) := by
  unfold getProcbyPID
  apply (acquire_ensures hn h).bind
  rintro t ⟨ht, hk, _, hturn⟩
  rw [show w.table s.turn s.kernel = s.table w 1 from rfl] at hk
  rw [hk]
  cases hfind : (s.table w 1).findPid pid with
  | none => exact .ok ⟨rfl, hk, hturn, fun _ => ht, fun hne => absurd rfl hne⟩
  | some p =>
    apply (release_same hn ht).bind
    rintro u ⟨hu, huk, huturn⟩
    exact .ok ⟨rfl, huk.trans hk, huturn.trans hturn, nofun, fun _ => hu⟩

-- setNewPrio computes prt from the first table and takes the lock in the second
def Settable (w : World ncpu) (s : LockSys ncpu) (p : ProcId) (prio : BitVec 32) : Prop :=
  ∃ prt : Fin NPRIO, (s.kernel.proc p).prio.toNat = prt ∧
    (w.table s.turn s.kernel).Settable p prio prt

/--
What `sys_setprio` relies on when it has found the process.
-/
def SetprioReturns (w : World ncpu) (s : LockSys ncpu) (p : ProcId) (prio : BitVec 32) : Prop :=
  ((s.table w 2).proc p).state = .runnable →
    ∃ prt : Fin NPRIO, ((s.table w 3).proc p).prio.toNat = prt ∧
      (s.table w 4).Settable p prio prt

theorem phmemLoop_succ (p : ProcId) (fuel : Nat) (a count : BitVec 32)
    : phmemLoop w p (fuel + 1) a count s =
        if a ≤ (w.spaces s.turn).sz p then do
          let pte ← (w.spaces s.turn).pte p a
          phmemLoop w p fuel (a + 4096) (if pteP pte then count + 1 else count) (s.unlocked w)
        else
          .ok (count, s.unlocked w) := by
  conv => lhs; unfold phmemLoop
  unfold Spaces.pte
  dsimp only
  congr 1
  cases ((w.spaces s.turn).mem.walkpgdir ((w.spaces s.turn).pgdir p) a false).1 with
  | none => rfl
  | some pte => rfl

/--
What `sys_phmem` relies on from address `a` on, in at most `fuel` rounds: up to the size that the
process has at each round, the entry of the page can be read.
-/
def PhmemReturns (w : World ncpu) (p : ProcId) : Nat → Nat → BitVec 32 → Prop
  | 0, _, _ => False
  | fuel + 1, turn, a =>
    a ≤ (w.spaces turn).sz p →
      (∃ pte, (w.spaces turn).pte p a = .ok pte) ∧ PhmemReturns w p fuel (turn + 1) (a + 4096)

def Call.Returns (w : World ncpu) (s : LockSys ncpu) : Call → Prop
  | .sysSetprio (some pid) (some a) =>
    ∀ p, (s.table w 1).findPid pid = some p → s.SetprioReturns w p a
  | .sysPhmem fuel (some pid) =>
    ∀ p, (s.table w 1).findPid pid = some p → PhmemReturns w p fuel (s.turn + 1) 0
  | _ => True

-- the caller does not hold the lock, and its CPU is in a state that pushcli and popcli lead to
structure Entry (s : LockSys ncpu) : Prop where
  lock : s.lock ≠ some s.cpu
  ncli : 0 ≤ (s.flags s.cpu).ncli
  interrupts : (s.flags s.cpu).interrupts = true → (s.flags s.cpu).ncli = 0

def quiet : World 1 where
  table := fun _ k => k
  spaces := fun _ => ⟨⟨fun _ _ => 0, [], []⟩, 0, fun _ => 0, fun _ => 0⟩
  resume := fun _ => 0
  flags := fun _ _ => ⟨0, false, true⟩

def started : LockSys 1 where
  kernel := Kernel.boot.allocproc.2
  lock := none
  flags := fun _ => ⟨0, false, true⟩
  cpu := 0
  turn := 0

theorem started_entry : started.Entry where
  lock := nofun
  ncli := by decide
  interrupts := fun _ => rfl

-- init waits in its queue
def queued : LockSys 1 :=
  let k := started.kernel.modifyProc 0 ({ · with state := .runnable })
  started.setKernel (k.insertProcAt 0 ⟨(k.proc 0).prio.toNat, by decide⟩)

end LockSys
end Xv6
