import Bwt.Basic
import Mathlib.Order.Defs.LinearOrder
import Mathlib.Algebra.Group.Int

/-!
# Transaction status

`TxStatus` and its order, as `addrman.rs` defines them: conflicted below
unconfirmed below every confirmed height, and confirmed statuses by height.  This
is the only definition of the type in the source.  `store.rs` imports a status of the
same three variants from `crate::types`, which is not in the source; the store orders
it as the spec does (`Store.statusCmp`).

The status is derived from the confirmation count the node reports against the
tip height of the moment.  The height arithmetic is `u32` arithmetic, which wraps
in release builds.
-/

namespace Bwt

inductive TxStatus where
  | conflicted
  | unconfirmed
  | confirmed (height : Nat)
  deriving DecidableEq, Repr

namespace TxStatus

/-- `impl Ord for TxStatus`. -/
def cmp : TxStatus → TxStatus → Ordering
  | confirmed height, confirmed otherHeight => compare height otherHeight
  | confirmed _, _ => .gt
  | unconfirmed, confirmed _ => .lt
  | unconfirmed, unconfirmed => .eq
  | unconfirmed, conflicted => .gt
  | conflicted, conflicted => .eq
  | conflicted, _ => .lt

def partialCmp (s s' : TxStatus) : Option Ordering := some (s.cmp s')

/-- `tip_height - (confirmations as u32) + 1`, wrapping modulo `2 ^ 32`. -/
def blockHeight (confirmations : Int) (tipHeight : Nat) : Nat :=
  ((tipHeight - confirmations + 1) % 2 ^ 32).toNat

def new (confirmations : Int) (tipHeight : Nat) : TxStatus :=
  if confirmations > 0 then confirmed (blockHeight confirmations tipHeight)
  else if confirmations = 0 then unconfirmed
  else conflicted

def isViable : TxStatus → Bool
  | confirmed _ | unconfirmed => true
  | conflicted => false

def isConfirmed : TxStatus → Bool
  | confirmed _ => true
  | unconfirmed | conflicted => false

def isUnconfirmed : TxStatus → Bool
  | unconfirmed => true
  | confirmed _ | conflicted => false

@[simp] theorem isViable_eq_true {s : TxStatus} : s.isViable = true ↔ s ≠ conflicted := by
  cases s <;> simp [isViable]

@[simp] theorem isUnconfirmed_eq_true {s : TxStatus} :
    s.isUnconfirmed = true ↔ s = unconfirmed := by
  cases s <;> simp [isUnconfirmed]

/-! ## The order -/

theorem cmp_eq_eq {s s' : TxStatus} : s.cmp s' = .eq ↔ s = s' := by
  cases s <;> cases s' <;> simp [cmp, Nat.compare_eq_eq]

instance : Ord TxStatus := ⟨cmp⟩

instance : Batteries.TransCmp TxStatus.cmp where
  symm s s' := by
    cases s <;> cases s' <;> simp only [cmp] <;>
      first
        | rfl
        | exact @Batteries.OrientedCmp.symm _ (compare : Nat → Nat → Ordering) _ _ _
  le_trans {s s' s''} := by
    cases s <;> cases s' <;> cases s'' <;> simp only [cmp] <;>
      first
        | decide
        | exact @Batteries.TransCmp.le_trans _ (compare : Nat → Nat → Ordering) _ _ _ _
        | simp

instance : Batteries.TransOrd TxStatus := inferInstanceAs (Batteries.TransCmp TxStatus.cmp)

/-! ## Classification -/

theorem new_of_pos {confirmations : Int} {tipHeight : Nat} (hpos : 0 < confirmations)
    (hle : confirmations ≤ tipHeight + 1) (htip : tipHeight < 2 ^ 32) :
    new confirmations tipHeight = confirmed (tipHeight + 1 - confirmations.toNat) := by
  have hmod : ((tipHeight : Int) - confirmations + 1) % 2 ^ 32 =
      (tipHeight : Int) - confirmations + 1 := Int.emod_eq_of_lt (by omega) (by omega)
  simp only [new, gt_iff_lt, hpos, if_true, blockHeight, hmod, confirmed.injEq]
  omega

@[simp] theorem new_zero (tipHeight : Nat) : new 0 tipHeight = unconfirmed := by
  simp [new]

theorem new_of_neg {confirmations : Int} (h : confirmations < 0) (tipHeight : Nat) :
    new confirmations tipHeight = conflicted := by
  simp only [new]
  rw [if_neg (by omega), if_neg (by omega)]

/-- A count above `h + 1` at tip `h`, which a node whose tip has moved past the one read
reports, wraps in the `u32` subtraction: the status is confirmed above the tip. -/
theorem new_of_gt {confirmations : Int} {tipHeight : Nat}
    (hgt : (tipHeight : Int) + 1 < confirmations) (hbound : confirmations < 2 ^ 31) :
    new confirmations tipHeight =
      confirmed ((2 ^ 32 + (tipHeight : Int) + 1 - confirmations).toNat) := by
  have hmod : ((tipHeight : Int) - confirmations + 1) % 2 ^ 32 =
      2 ^ 32 + (tipHeight : Int) + 1 - confirmations := by
    rw [← Int.add_emod_self, Int.emod_eq_of_lt (by omega) (by omega)]
    omega
  simp only [new, gt_iff_lt, show 0 < confirmations by omega, if_true, blockHeight, hmod]

theorem new_classifies (confirmations : Int) (tipHeight : Nat) (hbound : confirmations < 2 ^ 31)
    (htip : tipHeight < 2 ^ 32) :
    (new confirmations tipHeight = conflicted ↔ confirmations < 0) ∧
    (new confirmations tipHeight = unconfirmed ↔ confirmations = 0) ∧
    (0 < confirmations → confirmations ≤ tipHeight + 1 → ∃ height,
      new confirmations tipHeight = confirmed height ∧ height ≤ tipHeight ∧
        (tipHeight : Int) + 1 - height = confirmations) ∧
    ((tipHeight : Int) + 1 < confirmations → ∃ height,
      new confirmations tipHeight = confirmed height ∧ tipHeight < height ∧
        (height : Int) = 2 ^ 32 + tipHeight + 1 - confirmations) := by
  have hconfirmed : 0 < confirmations → ∃ height, new confirmations tipHeight = confirmed height :=
    fun hpos => ⟨_, if_pos hpos⟩
  refine ⟨⟨fun h => ?_, (new_of_neg · tipHeight)⟩, ⟨fun h => ?_, fun h => h ▸ new_zero tipHeight⟩,
    fun hpos hle => ⟨_, new_of_pos hpos hle htip, by omega, by omega⟩,
    fun hgt => ⟨_, new_of_gt hgt hbound, by omega, by omega⟩⟩
  · rcases lt_trichotomy confirmations 0 with hc | rfl | hc
    · exact hc
    · simp at h
    · obtain ⟨height, hh⟩ := hconfirmed hc; rw [hh] at h; cases h
  · rcases lt_trichotomy confirmations 0 with hc | rfl | hc
    · rw [new_of_neg hc] at h; cases h
    · rfl
    · obtain ⟨height, hh⟩ := hconfirmed hc; rw [hh] at h; cases h

theorem new_classifies_five_at_100 :
    (new 5 100 = conflicted ↔ (5 : Int) < 0) ∧ (new 5 100 = unconfirmed ↔ (5 : Int) = 0) ∧
    ((0 : Int) < 5 → (5 : Int) ≤ (100 : Nat) + 1 → ∃ height,
      new 5 100 = confirmed height ∧ height ≤ 100 ∧ ((100 : Nat) : Int) + 1 - height = 5) ∧
    (((100 : Nat) : Int) + 1 < 5 → ∃ height,
      new 5 100 = confirmed height ∧ 100 < height ∧ (height : Int) = 2 ^ 32 + (100 : Nat) + 1 - 5) :=
  new_classifies 5 100 (by decide) (by decide)

end TxStatus

end Bwt
