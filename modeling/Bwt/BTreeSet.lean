import Bwt.Basic
import Mathlib.Order.Defs.LinearOrder
import Mathlib.Data.List.Sort

/-!
# Ordered sets

A `std::collections::BTreeSet` ordered by a comparison `cmp`, kept as its in-order
traversal, which is strictly increasing under `cmp`.  Every search of the tree stops at
the element that compares equal to the one searched for, so the set holds at most one
element of each class of `cmp`.  When `cmp` answers `Equal` only on equal values this
is a set of values; `addrman.rs` orders its history entries by a comparison that does
not, and there one entry of each class is all the set keeps.
-/

namespace Bwt

open Batteries

structure BTreeSet (α : Type) (cmp : α → α → Ordering) where
  toList : List α
  sorted : toList.Sorted (cmp · · = .lt)

namespace BTreeSet

variable {α : Type} {cmp : α → α → Ordering}

theorem ext_iff' {s t : BTreeSet α cmp} : s = t ↔ s.toList = t.toList := by
  cases s; cases t; simp

instance [DecidableEq α] : DecidableEq (BTreeSet α cmp) := fun _ _ =>
  decidable_of_iff _ ext_iff'.symm

def empty : BTreeSet α cmp := ⟨[], List.sorted_nil⟩

/-- Whether an element compares equal to `x`, which is what a search of the tree finds. -/
def contains (s : BTreeSet α cmp) (x : α) : Bool :=
  s.toList.any fun y => cmp x y = .eq

def isEmpty (s : BTreeSet α cmp) : Bool := s.toList.isEmpty

def len (s : BTreeSet α cmp) : Nat := s.toList.length

@[simp] theorem empty_toList : (empty : BTreeSet α cmp).toList = [] := rfl

theorem contains_iff {s : BTreeSet α cmp} {x : α} :
    s.contains x = true ↔ ∃ y ∈ s.toList, cmp x y = .eq := by
  simp [contains]

/-- `BTreeSet::remove`: drops the element that compares equal to `x`, if there is one. -/
def remove (s : BTreeSet α cmp) (x : α) : Bool × BTreeSet α cmp :=
  (s.contains x, ⟨s.toList.filter fun y => cmp x y ≠ .eq, s.sorted.filter _⟩)

@[simp] theorem remove_fst (s : BTreeSet α cmp) (x : α) : (s.remove x).1 = s.contains x := rfl

theorem mem_remove {s : BTreeSet α cmp} {x z : α} :
    z ∈ (s.remove x).2.toList ↔ z ∈ s.toList ∧ cmp x z ≠ .eq := by
  simp [remove]

variable [TransCmp cmp]

theorem sorted_orderedInsert {l : List α} {x : α} (hl : l.Sorted (cmp · · = .lt))
    (hx : ∀ y ∈ l, cmp x y ≠ .eq) :
    (l.orderedInsert (cmp · · ≠ .gt) x).Sorted (cmp · · = .lt) := by
  induction l with
  | nil => exact List.sorted_singleton x
  | cons y l ih =>
      obtain ⟨hy, hl⟩ := List.sorted_cons.mp hl
      by_cases hxy : cmp x y = .gt
      · have hyx : cmp y x = .lt := OrientedCmp.cmp_eq_gt.mp hxy
        simp only [List.orderedInsert, hxy, ne_eq, not_true_eq_false, if_false]
        refine List.sorted_cons.mpr ⟨fun z hz => ?_, ih hl fun z hz => hx z (.tail _ hz)⟩
        rcases (List.mem_orderedInsert _).mp hz with rfl | hz
        · exact hyx
        · exact hy z hz
      · have hlt : cmp x y = .lt := by
          cases h : cmp x y
          · rfl
          · exact absurd h (hx y (.head _))
          · exact absurd h hxy
        simp only [List.orderedInsert, hxy, ne_eq, not_false_eq_true, if_true]
        refine List.sorted_cons.mpr ⟨fun z hz => ?_, List.sorted_cons.mpr ⟨hy, hl⟩⟩
        rcases List.mem_cons.mp hz with rfl | hz
        · exact hlt
        · exact TransCmp.lt_trans hlt (hy z hz)

/-- `BTreeSet::insert`: `false`, and no change, when an element compares equal to `x`. -/
def insert (s : BTreeSet α cmp) (x : α) : Bool × BTreeSet α cmp :=
  if h : s.contains x then (false, s)
  else (true, ⟨s.toList.orderedInsert (cmp · · ≠ .gt) x,
    sorted_orderedInsert s.sorted fun y hy hxy => h (contains_iff.mpr ⟨y, hy, hxy⟩)⟩)

@[simp] theorem insert_fst (s : BTreeSet α cmp) (x : α) : (s.insert x).1 = !s.contains x := by
  unfold insert; split <;> simp [*]

theorem mem_insert {s : BTreeSet α cmp} {x z : α} :
    z ∈ (s.insert x).2.toList ↔ z ∈ s.toList ∨ (z = x ∧ s.contains x = false) := by
  unfold insert
  split <;> simp_all [List.mem_orderedInsert, or_comm]

/-! ## Comparisons that identify equal values -/

section Lawful

variable (hcmp : ∀ {x y : α}, cmp x y = .eq ↔ x = y)
include hcmp

theorem isLinearOrder_of_lawful : IsLinearOrder α (cmp · · ≠ .gt) where
  refl _ := by simp [OrientedCmp.cmp_refl]
  trans _ _ _ := TransCmp.le_trans
  antisymm x y hxy hyx := hcmp.mp <| by
    have := OrientedCmp.cmp_ne_gt.mp hyx
    cases h : cmp x y <;> simp_all
  total x y := (em (cmp x y = .gt)).symm.imp id fun h => by
    simp [OrientedCmp.cmp_eq_gt.mp h]

omit [TransCmp cmp] in
theorem contains_eq_true {s : BTreeSet α cmp} {x : α} : s.contains x = true ↔ x ∈ s.toList := by
  simp [contains_iff, hcmp]

theorem mem_insert_of_lawful {s : BTreeSet α cmp} {x z : α} :
    z ∈ (s.insert x).2.toList ↔ z = x ∨ z ∈ s.toList := by
  rw [mem_insert]
  by_cases hx : x ∈ s.toList
  · have : s.contains x = true := (contains_eq_true hcmp).mpr hx
    constructor
    · rintro (h | ⟨-, h⟩)
      · exact .inr h
      · simp [this] at h
    · rintro (rfl | h)
      · exact .inl hx
      · exact .inl h
  · have : s.contains x = false :=
      Bool.eq_false_iff.mpr fun h => hx ((contains_eq_true hcmp).mp h)
    simp [this, or_comm]

omit [TransCmp cmp] in
theorem mem_remove_of_lawful {s : BTreeSet α cmp} {x z : α} :
    z ∈ (s.remove x).2.toList ↔ z ≠ x ∧ z ∈ s.toList := by
  rw [mem_remove, ne_eq, hcmp, and_comm]
  exact and_congr_left' (not_congr eq_comm)

end Lawful

end BTreeSet

end Bwt
