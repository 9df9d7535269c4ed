import Xv6.Basic
import Xv6.Data.Ring
import Xv6.Data.Transition

/-!
The input side of `console.c`: `consoleintr`, which runs with `cons.lock` held, the stretches of
`consoleread` from `acquire` or from the return of `sleep` to the next `sleep` or `release`, and the
system of any number of readers. What is echoed is left out.
-/

namespace Xv6

abbrev INPUT_BUF : Nat := 128

abbrev LF : BitVec 8 := 0x0a
abbrev CR : BitVec 8 := 0x0d
abbrev DEL : BitVec 8 := 0x7f
abbrev CTRL_D : BitVec 8 := 0x04
abbrev CTRL_H : BitVec 8 := 0x08
abbrev CTRL_P : BitVec 8 := 0x10
abbrev CTRL_U : BitVec 8 := 0x15

structure Input where
  buf : Fin INPUT_BUF → BitVec 8
  r : BitVec 32
  w : BitVec 32
  e : BitVec 32

namespace Input

-- The loop of C('U'): after `e - w` iterations there is nothing left to remove.
def killLine : Nat → Input → Input
  | 0, s => s
  | k + 1, s =>
    if s.e ≠ s.w ∧ s.buf (Ring.slot (s.e - 1)) ≠ LF then
      killLine k { s with e := s.e - 1 }
    else
      s

def consolechar (s : Input) (c : BitVec 8) : Input :=
  if c = CTRL_P then
    s
  else if c = CTRL_U then
    killLine (s.e - s.w).toNat s
  else if c = CTRL_H ∨ c = DEL then
    if s.e ≠ s.w then { s with e := s.e - 1 } else s
  else if c ≠ 0 ∧ s.e - s.r < BitVec.ofNat 32 INPUT_BUF then
    let c := if c = CR then LF else c
    let s := { s with buf := Function.update s.buf (Ring.slot s.e) c, e := s.e + 1 }
    if c = LF ∨ c = CTRL_D ∨ s.e = s.r + BitVec.ofNat 32 INPUT_BUF then
      { s with w := s.e }
    else
      s
  else
    s

-- `cs` is what `getc` returns before it returns a negative number
def consoleintr (s : Input) (cs : List (BitVec 8)) : Input :=
  cs.foldl consolechar s

inductive ReadResult where
  | returns
  | fails
  -- sleep(&input.r, &cons.lock)
  | sleeps
  deriving DecidableEq, Repr

/--
The loop of `consoleread` with `n` bytes left to read, the bytes stored so far in `dst`, and both
when it ends.
-/
def consoleread (killed : Bool) (target : Nat)
    : Nat → List (BitVec 8) → Input → ReadResult × Nat × List (BitVec 8) × Input
  | 0, dst, s => (.returns, 0, dst, s)
  | n + 1, dst, s =>
    if s.r = s.w then
      if killed then (.fails, n + 1, dst, s) else (.sleeps, n + 1, dst, s)
    else
      let c := s.buf (Ring.slot s.r)
      let s := { s with r := s.r + 1 }
      if c = CTRL_D then
        if n + 1 < target then
          (.returns, n + 1, dst, { s with r := s.r - 1 })
        else
          (.returns, n + 1, dst, s)
      else if c = LF then
        (.returns, n, dst ++ [c], s)
      else
        consoleread killed target n (dst ++ [c]) s

end Input

structure Reader where
  target : Nat
  n : Nat
  dst : List (BitVec 8)

structure ReadCall (ι : Type) where
  proc : ι
  target : Nat
  dst : List (BitVec 8)
  ret : Option Nat

structure ConsSys (ι : Type) where
  input : Input
  reader : ι → Option Reader
  killed : ι → Bool
  returned : List (ReadCall ι)

inductive ConsEvent (ι : Type) where
  | intr (cs : List (BitVec 8))
  | read (p : ι) (n : Int)
  | run (p : ι)
  | kill (p : ι)
  -- the slot of a process is taken by a new one
  | replace (p : ι)

namespace ConsSys

variable {ι : Type} [DecidableEq ι]

def afterRead (s : ConsSys ι) (p : ι) (target : Nat)
    : Input.ReadResult × Nat × List (BitVec 8) × Input → ConsSys ι
  | (.returns, n, dst, input) =>
    { s with
      input := input
      reader := Function.update s.reader p none
      returned := s.returned ++ [⟨p, target, dst, some (target - n)⟩] }
  | (.fails, _, dst, input) =>
    { s with
      input := input
      reader := Function.update s.reader p none
      returned := s.returned ++ [⟨p, target, dst, none⟩] }
  | (.sleeps, n, dst, input) =>
    { s with input := input, reader := Function.update s.reader p (some ⟨target, n, dst⟩) }

/--
A call with a negative `n` is one with nothing to read. A reader that sleeps may run at any time,
whether or not there was a `wakeup`.
-/
inductive Step (s : ConsSys ι) : ConsEvent ι → ConsSys ι → Prop where
  | intr {cs} : Step s (.intr cs) { s with input := s.input.consoleintr cs }
  | read {p n} :
      s.reader p = none →
        Step s (.read p n) { s with reader := Function.update s.reader p (some ⟨n.toNat, n.toNat, []⟩) }
  | run {p rd} :
      s.reader p = some rd →
        Step s (.run p)
          (s.afterRead p rd.target (Input.consoleread (s.killed p) rd.target rd.n rd.dst s.input))
  | kill {p} : Step s (.kill p) { s with killed := Function.update s.killed p true }
  | replace {p} :
      s.reader p = none → Step s (.replace p) { s with killed := Function.update s.killed p false }

structure Start (s : ConsSys ι) : Prop where
  w : s.input.w = s.input.r
  e : s.input.e = s.input.r
  reader : ∀ p, s.reader p = none
  returned : s.returned = []

abbrev EventRun (s : ConsSys ι) (es : List (ConsEvent ι)) (t : ConsSys ι) : Prop :=
  Transition.Run Step (fun _ _ => True) s es t

end ConsSys

end Xv6
