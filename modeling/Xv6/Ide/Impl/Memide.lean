import Xv6.Ide.Impl.Ide

/-!
`memide.c`: a disk in memory, on which `iderw` is one copy. `MemSys` is a system that takes calls in
the order they are made and does the copies one by one.
-/

namespace Xv6

namespace Memide

abbrev disksize : Nat := Mkfs.FSSIZE

def iderw {ι : Type} [DecidableEq ι] (b : IdeBuf ι) (p : ι) (memdisk : Nat → Block)
    : Except Fault (IdeBuf ι × (Nat → Block)) :=
  if b.lock ≠ some p then
    .error (.panic "iderw: buf not locked")
  else if b.valid ∧ ¬ b.dirty then
    .error (.panic "iderw: nothing to do")
  else if b.dev ≠ 1 then
    .error (.panic "iderw: request not for disk 1")
  else if b.blockno.toNat ≥ disksize then
    .error (.panic "iderw: block out of range")
  else if b.dirty then
    .ok ({ b with dirty := false, valid := true }, Function.update memdisk b.blockno.toNat b.data)
  else
    .ok ({ b with data := memdisk b.blockno.toNat, valid := true }, memdisk)

end Memide

-- `served` are the calls that have had their effect, `queue` those that have not.
structure MemSys (ι β : Type) where
  buf : β → IdeBuf ι
  memdisk : Nat → Block
  pc : ι → Option β
  served : List (ι × β)
  queue : List (ι × β)

namespace MemSys

variable {ι β : Type} [DecidableEq ι] [DecidableEq β]

inductive Step (a : MemSys ι β) : IdeSys.Event ι β → MemSys ι β → Prop where
  | call {p b} :
      a.pc p = none →
        Step a (.call p b)
          { a with pc := Function.update a.pc p (some b), queue := a.queue ++ [(p, b)] }
  | transfer : Step a .transfer a
  | intr {p b x memdisk queue} :
      a.queue = (p, b) :: queue → Memide.iderw (a.buf b) p a.memdisk = .ok (x, memdisk) →
        Step a .intr
          { a with
            buf := Function.update a.buf b x
            memdisk := memdisk
            served := a.served ++ [(p, b)]
            queue := queue }
  | ret {p b} :
      a.pc p = some b → (p, b) ∉ a.queue →
        Step a (.ret p) { a with pc := Function.update a.pc p none }
  | set {b x} :
      (∀ p, a.pc p ≠ some b) → Step a (.set b x) { a with buf := Function.update a.buf b x }

abbrev EventRun (a : MemSys ι β) (es : List (IdeSys.Event ι β)) (a' : MemSys ι β) : Prop :=
  Transition.Run Step (fun _ _ => True) a es a'

end MemSys

end Xv6
