import Mathlib.Data.Fin.Basic
import Mathlib.Logic.Function.Basic
import Xv6.Basic

/-!
The process table of `proc.c` with its priority queues, and the `proc` pointer of every CPU.
-/

namespace Xv6

abbrev ProcId := Fin NPROC

abbrev NPRIO : Nat := 10

inductive ProcState where
  | unused
  | embryo
  | sleeping
  | runnable
  | running
  | zombie
  deriving DecidableEq, Repr

inductive Chan where
  | null
  | proc (p : ProcId)
  | other (addr : Nat)
  deriving DecidableEq, Repr

def Chan.ofProc : Option ProcId → Chan
  | none => .null
  | some p => .proc p

structure Proc where
  state : ProcState
  pid : BitVec 32
  parent : Option ProcId
  chan : Chan
  killed : Bool
  status : BitVec 32
  prio : BitVec 32
  sigprio : Option ProcId
  deriving DecidableEq, Repr

instance : Inhabited Proc where
  default :=
    {
        state := .unused
        pid := 0
        parent := none
        chan := .null
        killed := false
        status := 0
        prio := 0
        sigprio := none
    }

structure Priotable where
  primero : Option ProcId
  ultimo : Option ProcId
  deriving DecidableEq, Repr

/--
What `ptable.lock` protects, for a machine with `ncpu` CPUs. `cpu c` is `cpus[c].proc`.
-/
structure Kernel (ncpu : Nat) where
  proc : ProcId → Proc
  priotable : Fin NPRIO → Priotable
  nextpid : BitVec 32
  initproc : Option ProcId
  cpu : Fin ncpu → Option ProcId

namespace Kernel

variable {ncpu : Nat}

def boot : Kernel ncpu where
  proc := fun _ => default
  priotable := fun _ => ⟨none, none⟩
  nextpid := 1
  initproc := none
  cpu := fun _ => none

def sigprio (s : Kernel ncpu) : ProcId → Option ProcId :=
  fun p => (s.proc p).sigprio

def modifyProc (s : Kernel ncpu) (p : ProcId) (f : Proc → Proc) : Kernel ncpu :=
  { s with proc := Function.update s.proc p (f (s.proc p)) }

def setPriotable (s : Kernel ncpu) (q : Fin NPRIO) (pt : Priotable) : Kernel ncpu :=
  { s with priotable := Function.update s.priotable q pt }

def setCpu (s : Kernel ncpu) (c : Fin ncpu) (p : Option ProcId) : Kernel ncpu :=
  { s with cpu := Function.update s.cpu c p }

section Projections

variable (s : Kernel ncpu) (p q : ProcId) (f : Proc → Proc) (k : Fin NPRIO) (pt : Priotable)
  (c : Fin ncpu) (o : Option ProcId)

theorem modifyProc_proc
    : (s.modifyProc p f).proc q = if q = p then f (s.proc p) else s.proc q := by
  simp only [modifyProc, Function.update_apply]

@[simp]
theorem modifyProc_proc_self : (s.modifyProc p f).proc p = f (s.proc p) := by
  simp [modifyProc_proc]

theorem modifyProc_proc_ne (h : q ≠ p) : (s.modifyProc p f).proc q = s.proc q := by
  simp [modifyProc_proc, h]

@[simp]
theorem modifyProc_priotable : (s.modifyProc p f).priotable = s.priotable := rfl

@[simp]
theorem modifyProc_cpu : (s.modifyProc p f).cpu = s.cpu := rfl

@[simp]
theorem modifyProc_initproc : (s.modifyProc p f).initproc = s.initproc := rfl

@[simp]
theorem setPriotable_proc : (s.setPriotable k pt).proc = s.proc := rfl

@[simp]
theorem setPriotable_cpu : (s.setPriotable k pt).cpu = s.cpu := rfl

@[simp]
theorem setPriotable_priotable
    : (s.setPriotable k pt).priotable = Function.update s.priotable k pt := rfl

@[simp]
theorem setPriotable_sigprio : (s.setPriotable k pt).sigprio = s.sigprio := rfl

@[simp]
theorem setCpu_proc : (s.setCpu c o).proc = s.proc := rfl

@[simp]
theorem setCpu_priotable : (s.setCpu c o).priotable = s.priotable := rfl

@[simp]
theorem setCpu_sigprio : (s.setCpu c o).sigprio = s.sigprio := rfl

@[simp]
theorem setCpu_cpu : (s.setCpu c o).cpu = Function.update s.cpu c o := rfl

theorem modifyProc_sigprio
    : (s.modifyProc p f).sigprio = Function.update s.sigprio p (f (s.proc p)).sigprio := by
  funext q
  simp only [sigprio, modifyProc_proc, Function.update_apply]
  split <;> rfl

theorem modifyProc_sigprio_of_eq (h : (f (s.proc p)).sigprio = (s.proc p).sigprio)
    : (s.modifyProc p f).sigprio = s.sigprio := by
  rw [modifyProc_sigprio, h]
  exact Function.update_eq_self p s.sigprio

end Projections

end Kernel

end Xv6
