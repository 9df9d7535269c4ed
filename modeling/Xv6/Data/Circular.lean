import Mathlib.Data.List.Nodup
import Mathlib.Logic.Function.Basic

/-!
Circular doubly linked lists with a head node, threaded through the nodes themselves.
-/

namespace Circular

variable {α : Type u}

structure Links (α : Type u) where
  next : α → α
  prev : α → α

namespace Links

section

variable [DecidableEq α]

def setNext (s : Links α) (a b : α) : Links α := { s with next := Function.update s.next a b }

def setPrev (s : Links α) (a b : α) : Links α := { s with prev := Function.update s.prev a b }

def unlink (s : Links α) (x : α) : Links α :=
  let s := s.setPrev (s.next x) (s.prev x)
  s.setNext (s.prev x) (s.next x)

def pushFront (s : Links α) (h x : α) : Links α :=
  let s := s.setNext x (s.next h)
  let s := s.setPrev x h
  let s := s.setPrev (s.next h) x
  s.setNext h x

/--
The first node that satisfies `p` on the way from `a` along `step` to the head; no result when the
head is not reached.
-/
def find (step : α → α) (p : α → Bool) (h : α) : Nat → α → Option (Option α)
  | 0, _ => none
  | n + 1, a =>
    if a = h then
      some none
    else if p a then
      some (some a)
    else
      find step p h n (step a)

end

def flip (s : Links α) : Links α := ⟨s.prev, s.next⟩

/--
From `a` the pointers `next` visit the nodes of the list and arrive at `b`, and the pointers `prev`
take the same way back.
-/
def Seg (s : Links α) : α → List α → α → Prop
  | a, [], b => s.next a = b ∧ s.prev b = a
  | a, x :: l, b => s.next a = x ∧ s.prev x = a ∧ Seg s x l b

structure Ring (s : Links α) (h : α) (l : List α) : Prop where
  seg : s.Seg h l h
  nodup : l.Nodup
  head : h ∉ l

namespace Seg

variable {s t : Links α} {a b x : α} {l : List α}

theorem congr (h : s.Seg a l b) (hnext : ∀ y, y = a ∨ y ∈ l → t.next y = s.next y)
    (hprev : ∀ y, y = b ∨ y ∈ l → t.prev y = s.prev y)
    : t.Seg a l b := by
  induction l generalizing a with
  | nil =>
    refine ⟨?_, ?_⟩
    . rw [hnext a (.inl rfl)]
      exact h.1
    . rw [hprev b (.inl rfl)]
      exact h.2
  | cons x l ih =>
    refine ⟨?_, ?_, ?_⟩
    . rw [hnext a (.inl rfl)]
      exact h.1
    . rw [hprev x (.inr List.mem_cons_self)]
      exact h.2.1
    . apply ih h.2.2
      . intro y hy
        apply hnext
        right
        rcases hy with hy | hy
        . rw [hy]
          exact List.mem_cons_self
        . exact List.mem_cons_of_mem x hy
      . intro y hy
        apply hprev
        rcases hy with hy | hy
        . exact .inl hy
        . exact .inr (List.mem_cons_of_mem x hy)

theorem append {l₁ l₂ : List α}
    : s.Seg a (l₁ ++ x :: l₂) b ↔ s.Seg a l₁ x ∧ s.Seg x l₂ b := by
  induction l₁ generalizing a with
  | nil =>
    constructor
    . rintro ⟨hnext, hprev, hseg⟩
      exact ⟨⟨hnext, hprev⟩, hseg⟩
    . rintro ⟨⟨hnext, hprev⟩, hseg⟩
      exact ⟨hnext, hprev, hseg⟩
  | cons y l₁ ih =>
    constructor
    . rintro ⟨hnext, hprev, hseg⟩
      have hseg := ih.1 hseg
      exact ⟨⟨hnext, hprev, hseg.1⟩, hseg.2⟩
    . rintro ⟨⟨hnext, hprev, hseg⟩, hseg'⟩
      exact ⟨hnext, hprev, ih.2 ⟨hseg, hseg'⟩⟩

theorem flip (h : s.Seg a l b) : s.flip.Seg b l.reverse a := by
  induction l generalizing a with
  | nil => exact ⟨h.2, h.1⟩
  | cons x l ih =>
    rw [List.reverse_cons]
    rw [append]
    exact ⟨ih h.2.2, h.2.1, h.1⟩

theorem prev_mem (h : s.Seg a l x) : s.prev x = a ∨ s.prev x ∈ l := by
  induction l generalizing a with
  | nil => exact .inl h.2
  | cons y l ih =>
    right
    rcases ih h.2.2 with heq | hmem
    . rw [heq]
      exact List.mem_cons_self
    . exact List.mem_cons_of_mem y hmem

theorem next_mem (h : s.Seg x l b) : s.next x = b ∨ s.next x ∈ l := by
  cases l with
  | nil => exact .inl h.1
  | cons y l =>
    right
    rw [h.1]
    exact List.mem_cons_self

theorem find_eq [DecidableEq α] {p : α → Bool} {n : Nat} (h : s.Seg a l b) (hb : b ∉ l)
    (hn : l.length < n)
    : find s.next p b n (s.next a) = some (l.find? p) := by
  induction l generalizing a n with
  | nil =>
    cases n with
    | zero => contradiction
    | succ n =>
      unfold find
      rw [if_pos h.1]
      rfl
  | cons x l ih =>
    rw [List.mem_cons, not_or] at hb
    cases n with
    | zero => contradiction
    | succ n =>
      rw [List.length_cons] at hn
      unfold find
      rw [h.1, if_neg (Ne.symm hb.1)]
      split
      next hp => rw [List.find?_cons_of_pos hp]
      next hp =>
        rw [List.find?_cons_of_neg hp]
        exact ih h.2.2 hb.2 (by omega)

end Seg

namespace Ring

variable [DecidableEq α] {s : Links α} {h x : α} {l l₁ l₂ : List α}

theorem unlink_eq (hne : s.next x ≠ x)
    : s.unlink x = ⟨Function.update s.next (s.prev x) (s.next x),
        Function.update s.prev (s.next x) (s.prev x)⟩ := by
  unfold unlink setNext setPrev
  dsimp only
  rw [Function.update_of_ne (Ne.symm hne)]

theorem unlink_seg {a b : α} (hl : s.Seg a l₁ x) (hr : s.Seg x l₂ b)
    (hnodup : (a :: (l₁ ++ x :: l₂)).Nodup) (hb : b ∉ l₁ ++ x :: l₂)
    : (⟨Function.update s.next (s.prev x) (s.next x),
        Function.update s.prev (s.next x) (s.prev x)⟩ : Links α).Seg a (l₁ ++ l₂) b := by
  induction l₁ generalizing a with
  | nil =>
    rcases hl with ⟨hanext, hxprev⟩
    rw [hxprev]
    rw [List.nil_append, List.nodup_cons, List.mem_cons, not_or, List.nodup_cons] at hnodup
    rw [List.nil_append, List.mem_cons, not_or] at hb
    cases l₂ with
    | nil =>
      refine ⟨?_, ?_⟩
      . dsimp only
        rw [Function.update_self]
        exact hr.1
      . dsimp only
        rw [hr.1, Function.update_self]
    | cons y l₂ =>
      rw [hr.1]
      rw [List.mem_cons, not_or] at hnodup
      rw [List.mem_cons, not_or] at hb
      have hy := List.nodup_cons.1 hnodup.2.2
      refine ⟨?_, ?_, ?_⟩
      . dsimp only
        rw [Function.update_self]
      . dsimp only
        rw [Function.update_self]
      . apply hr.2.2.congr
        . intro z hz
          apply Function.update_of_ne
          intro heq
          subst heq
          rcases hz with hz | hz
          . exact hnodup.1.2.1 hz
          . exact hnodup.1.2.2 hz
        . intro z hz
          apply Function.update_of_ne
          intro heq
          subst heq
          rcases hz with hz | hz
          . exact hb.2.1 hz.symm
          . exact hy.1 hz
  | cons y l₁ ih =>
    rcases hl with ⟨hanext, hyprev, hl⟩
    rw [List.cons_append, List.nodup_cons] at hnodup
    rw [List.cons_append, List.mem_cons, not_or] at hb
    have hp : s.prev x ∈ y :: (l₁ ++ x :: l₂) := by
      rcases hl.prev_mem with hp | hp
      . rw [hp]
        exact List.mem_cons_self
      . exact List.mem_cons_of_mem y (List.mem_append_left _ hp)
    refine ⟨?_, ?_, ?_⟩
    . dsimp only
      rw [Function.update_of_ne]
      . exact hanext
      . intro heq
        rw [heq] at hnodup
        exact hnodup.1 hp
    . dsimp only
      rw [Function.update_of_ne]
      . exact hyprev
      . intro heq
        rcases hr.next_mem with hn | hn
        . exact hb.1 (hn.symm.trans heq.symm)
        . rw [← heq] at hn
          have hy := (List.nodup_cons.1 hnodup.2).1
          exact hy (List.mem_append_right l₁ (List.mem_cons_of_mem x hn))
    . exact ih hl hnodup.2 hb.2

theorem unlink (hring : s.Ring h (l₁ ++ x :: l₂)) : (s.unlink x).Ring h (l₁ ++ l₂) := by
  rcases Seg.append.1 hring.seg with ⟨hl, hr⟩
  have hsub : (l₁ ++ l₂).Sublist (l₁ ++ x :: l₂) :=
    List.Sublist.append_left (List.sublist_cons_self x l₂) l₁
  have hne : s.next x ≠ x := by
    intro heq
    rcases hr.next_mem with hn | hn
    . apply hring.head
      rw [← hn, heq]
      exact List.mem_append_right l₁ List.mem_cons_self
    . rw [heq] at hn
      have hnodup := (List.nodup_append.1 hring.nodup).2.1
      exact (List.nodup_cons.1 hnodup).1 hn
  constructor
  . rw [unlink_eq hne]
    apply unlink_seg hl hr
    . rw [List.nodup_cons]
      exact ⟨hring.head, hring.nodup⟩
    . exact hring.head
  . exact hring.nodup.sublist hsub
  . exact fun hmem => hring.head (hsub.subset hmem)

theorem pushFront (hring : s.Ring h l) (hx : x ∉ l) (hxh : x ≠ h)
    : (s.pushFront h x).Ring h (x :: l) where
  seg := by
    have hhx : h ≠ x := Ne.symm hxh
    have hseg := hring.seg
    unfold Links.pushFront setNext setPrev
    dsimp only
    rw [Function.update_of_ne hhx]
    refine ⟨?_, ?_, ?_⟩
    . dsimp only
      rw [Function.update_self]
    . dsimp only
      rw [Function.update_of_ne]
      . rw [Function.update_self]
      . intro heq
        rcases hseg.next_mem with hn | hn
        . exact hxh (heq.trans hn)
        . rw [← heq] at hn
          exact hx hn
    . cases l with
      | nil =>
        refine ⟨?_, ?_⟩
        . dsimp only
          rw [Function.update_of_ne hxh, Function.update_self]
          exact hseg.1
        . dsimp only
          rw [hseg.1, Function.update_self]
      | cons y l =>
        rcases hseg with ⟨hnext, hprev, hseg⟩
        have hhead := hring.head
        rw [List.mem_cons, not_or] at hhead hx
        refine ⟨?_, ?_, ?_⟩
        . dsimp only
          rw [Function.update_of_ne hxh, Function.update_self]
          exact hnext
        . dsimp only
          rw [hnext, Function.update_self]
        . apply hseg.congr
          . intro z hz
            dsimp only
            have hzh : z ≠ h := by
              rintro rfl
              rcases hz with hz | hz
              . exact hhead.1 hz
              . exact hhead.2 hz
            have hzx : z ≠ x := by
              rintro rfl
              rcases hz with hz | hz
              . exact hx.1 hz
              . exact hx.2 hz
            rw [Function.update_of_ne hzh, Function.update_of_ne hzx]
          . intro z hz
            dsimp only
            have hzy : z ≠ y := by
              rintro rfl
              rcases hz with hz | hz
              . exact hhead.1 hz.symm
              . exact (List.nodup_cons.1 hring.nodup).1 hz
            have hzx : z ≠ x := by
              rintro rfl
              rcases hz with hz | hz
              . exact hxh hz
              . exact hx.2 hz
            rw [hnext, Function.update_of_ne hzy, Function.update_of_ne hzx]
  nodup := List.nodup_cons.2 ⟨hx, hring.nodup⟩
  head := by
    rw [List.mem_cons, not_or]
    exact ⟨Ne.symm hxh, hring.head⟩

theorem find_next {p : α → Bool} {n : Nat} (hring : s.Ring h l) (hn : l.length < n)
    : find s.next p h n (s.next h) = some (l.find? p) :=
  hring.seg.find_eq hring.head hn

theorem find_prev {p : α → Bool} {n : Nat} (hring : s.Ring h l) (hn : l.length < n)
    : find s.prev p h n (s.prev h) = some (l.reverse.find? p) := by
  apply hring.seg.flip.find_eq
  . rw [List.mem_reverse]
    exact hring.head
  . rw [List.length_reverse]
    exact hn

end Ring
end Links
end Circular
