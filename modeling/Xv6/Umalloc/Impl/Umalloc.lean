import Xv6.Basic
import Mathlib.Logic.Function.Basic

/-!
The allocator of user programs, `umalloc.c`. An address is a number of bytes, and the memory that
the allocator reads and writes is the header in front of each block.
-/

namespace Xv6

/-- The size of a `Header`: sizes are counted in this unit, and `p + k` is `k` headers after `p`. -/
abbrev HEADER : Nat := 8

structure Heap where
  ptr : Nat → Nat
  size : Nat → Nat
  freep : Option Nat
  -- what the next calls of `sbrk` answer; there is no memory left after the last one
  answers : List (Option Nat)
  -- the memory obtained so far: start and number of bytes
  regions : List (Nat × Nat)
  -- the arguments of the calls of `sbrk` so far
  requests : List Int
  -- where the last call of `sbrk` has put the end of the process
  brk : Nat

namespace Heap

def setPtr (h : Heap) (p q : Nat) : Heap := { h with ptr := Function.update h.ptr p q }

def setSize (h : Heap) (p n : Nat) : Heap := { h with size := Function.update h.size p n }

def cut (brk : Nat) (r : Nat × Nat) : Nat × Nat := (r.1, min r.2 (brk - r.1))

/--
The kernel answers with the end `p` of the process and adds the int `n` to it. The sum is a `uint`;
what is above it is given back.
-/
def sbrk (h : Heap) (n : BitVec 32) : Option Nat × Heap :=
  let h := { h with requests := h.requests ++ [n.toInt] }
  match h.answers with
  | [] => (none, h)
  | none :: rest => (none, { h with answers := rest })
  | some p :: rest =>
    let brk := (p + n.toNat) % 2 ^ 32
    let regions := if p < brk then h.regions ++ [(p, brk - p)] else h.regions.map (cut brk)
    (some p, { h with answers := rest, regions := regions, brk := brk })

/-- The condition that ends the search of `free`: that of the `for`, or that of the `break`. -/
def stops (h : Heap) (bp p : Nat) : Bool :=
  (bp > p && bp < h.ptr p) || (p ≥ h.ptr p && (bp > p || bp < h.ptr p))

def search (h : Heap) (bp : Nat) : Nat → Nat → Except Fault Nat
  | 0, _ => .error .diverges
  | fuel + 1, p =>
    if h.stops bp p then
      .ok p
    else
      search h bp fuel (h.ptr p)

def mergeUpper (h : Heap) (bp p : Nat) : Heap :=
  if bp + HEADER * h.size bp = h.ptr p then
    let h := h.setSize bp (h.size bp + h.size (h.ptr p))
    h.setPtr bp (h.ptr (h.ptr p))
  else
    h.setPtr bp (h.ptr p)

def mergeLower (h : Heap) (bp p : Nat) : Heap :=
  if p + HEADER * h.size p = bp then
    let h := h.setSize p (h.size p + h.size bp)
    h.setPtr p (h.ptr bp)
  else
    h.setPtr p bp

def free (h : Heap) (fuel : Nat) (ap : Nat) : Except Fault Heap := do
  let bp := ap - HEADER
  match h.freep with
  | none => .error .nullDeref
  | some p =>
    let p ← h.search bp fuel p
    let h := h.mergeUpper bp p
    let h := h.mergeLower bp p
    return { h with freep := some p }

/-- What `morecore` asks for: the argument, or 4096 units if it is less. -/
def coreUnits (nu : Nat) : Nat :=
  if nu < 4096 then
    4096
  else
    nu

def morecore (h : Heap) (fuel : Nat) (nu : Nat) : Except Fault (Option Nat × Heap) :=
  let nu := coreUnits nu
  match h.sbrk (BitVec.ofNat 32 (nu * HEADER)) with
  | (none, h) => return (none, h)
  | (some hp, h) =>
    -- a process that stores to a page behind its end is killed
    if hp / 4096 * 4096 < h.brk then do
      let h := h.setSize hp nu
      let h ← h.free fuel (hp + HEADER)
      return (h.freep, h)
    else
      .error .outOfBounds

def unitsFor (nbytes : BitVec 32) : Nat :=
  (nbytes + BitVec.ofNat 32 HEADER - 1).toNat / HEADER + 1

/-- A large enough block is taken from the list, or its tail is cut off. -/
def take (h : Heap) (nunits prevp p : Nat) : Nat × Heap :=
  if h.size p = nunits then
    let h := h.setPtr prevp (h.ptr p)
    (p + HEADER, { h with freep := some prevp })
  else
    let h := h.setSize p (h.size p - nunits)
    let p := p + HEADER * h.size p
    let h := h.setSize p nunits
    (p + HEADER, { h with freep := some prevp })

def mallocLoop (nunits : Nat) : Nat → Heap → Nat → Nat → Except Fault (Option Nat × Heap)
  | 0, _, _, _ => .error .diverges
  | fuel + 1, h, prevp, p =>
    if h.size p ≥ nunits then
      let (ap, h) := h.take nunits prevp p
      .ok (some ap, h)
    else if h.freep = some p then do
      match ← h.morecore fuel nunits with
      | (none, h) => return (none, h)
      | (some p, h) => mallocLoop nunits fuel h p (h.ptr p)
    else
      mallocLoop nunits fuel h p (h.ptr p)

def malloc (base : Nat) (h : Heap) (fuel : Nat) (nbytes : BitVec 32)
    : Except Fault (Option Nat × Heap) :=
  let nunits := unitsFor nbytes
  match h.freep with
  | none =>
    let h := { h with freep := some base }
    let h := h.setPtr base base
    let h := h.setSize base 0
    mallocLoop nunits fuel h base (h.ptr base)
  | some prevp => mallocLoop nunits fuel h prevp (h.ptr prevp)

end Heap

/-!
The calls of a program: `live` are the headers of the blocks that it got and has not freed.
-/

structure HeapSys where
  heap : Heap
  live : List Nat

namespace HeapSys

inductive Event where
  -- the answers are those that `sbrk` gives during the call
  | malloc (nbytes : BitVec 32) (answers : List (Option Nat))
  | free (ap : Nat)
  -- the program writes to its block `a`, behind the header; the words may become headers later
  | store (a k : Nat) (v w : Nat)

/-- The call returns: some number of rounds of its loops is enough. -/
inductive Step (base : Nat) : HeapSys → Event → HeapSys → Prop where
  | malloc {s : HeapSys} {nbytes : BitVec 32} {answers : List (Option Nat)} {fuel ap : Nat}
      {h : Heap} :
      Heap.malloc base { s.heap with answers := answers } fuel nbytes = .ok (some ap, h) →
      Step base s (.malloc nbytes answers) ⟨h, (ap - HEADER) :: s.live⟩
  | noMemory {s : HeapSys} {nbytes : BitVec 32} {answers : List (Option Nat)} {fuel : Nat}
      {h : Heap} :
      Heap.malloc base { s.heap with answers := answers } fuel nbytes = .ok (none, h) →
      Step base s (.malloc nbytes answers) ⟨h, s.live⟩
  | free {s : HeapSys} {fuel ap : Nat} {h : Heap} :
      s.heap.free fuel ap = .ok h →
      Step base s (.free ap) ⟨h, s.live.erase (ap - HEADER)⟩
  | store {s : HeapSys} {a k v w : Nat} :
      Step base s (.store a k v w)
        ⟨(s.heap.setPtr (a + HEADER * k) v).setSize (a + HEADER * k) w, s.live⟩

/--
`sbrk` answers with the start of fresh bytes: above the static `base` and all memory obtained
before, inside the address space.
-/
structure Fresh (base : Nat) (regions : List (Nat × Nat)) (p n : Nat) : Prop where
  above_base : base + HEADER ≤ p
  above_regions : ∀ r ∈ regions, r.1 + r.2 ≤ p
  in_memory : p + n < 2 ^ 32

def total (regions : List (Nat × Nat)) : Nat := (regions.map Prod.snd).sum

/--
What the program and `sbrk` have to keep to: a request that is granted gets fresh memory and keeps
the heap below 2^31 bytes, and only blocks that are live are freed or written to.
-/
def Ok (base : Nat) (s : HeapSys) : Event → Prop
  | .malloc nbytes answers =>
    ∀ p, answers.head? = some (some p) →
      Fresh base s.heap.regions p (Heap.coreUnits (Heap.unitsFor nbytes) * HEADER) ∧
      total s.heap.regions + Heap.coreUnits (Heap.unitsFor nbytes) * HEADER < 2 ^ 31
  | .free ap => HEADER ≤ ap ∧ ap - HEADER ∈ s.live
  | .store a k _ _ => a ∈ s.live ∧ 0 < k ∧ k < s.heap.size a

/-- Before the first call; the memory may hold anything. -/
structure Start (s : HeapSys) : Prop where
  freep : s.heap.freep = none
  regions : s.heap.regions = []
  live : s.live = []

end HeapSys

end Xv6
