import Bwt.Store.MemoryStore

/-!
# The orders of the store

`TxStatus::cmp` and `HistoryEntry::cmp` obey the laws of `Ord`: each is a linear order
whose `Equal` is equality, and `partial_cmp` answers with `cmp`.  Under such an order a
`BTreeSet` of history entries is a set of values, whose `insert` and `remove` report
whether the value was there, and `sort_unstable` followed by `dedup` gives the one
strictly ascending list of the distinct entries, whatever order they came in.
-/

namespace Bwt.Store

open Batteries

/-! ## Dropping repeats from an ascending list -/

section Destutter

variable {α : Type} [DecidableEq α]

theorem mem_destutter'_ne {a x : α} {l : List α} (h : x ∈ a :: l) :
    x ∈ l.destutter' (· ≠ ·) a := by
  induction l generalizing a with
  | nil => simpa using h
  | cons b l ih =>
      by_cases hab : a = b
      · subst hab
        rw [List.destutter'_cons_neg l (by simp)]
        exact ih (by simpa using h)
      · rw [List.destutter'_cons_pos l hab]
        rcases List.mem_cons.mp h with rfl | h
        · exact .head _
        · exact .tail _ (ih h)

theorem mem_destutter_ne {l : List α} {x : α} : x ∈ l.destutter (· ≠ ·) ↔ x ∈ l := by
  refine ⟨fun h => (List.destutter_sublist _ l).subset h, fun h => ?_⟩
  cases l with
  | nil => cases h
  | cons a l => exact mem_destutter'_ne h

variable {cmp : α → α → Ordering} [TransCmp cmp] (hcmp : ∀ {x y : α}, cmp x y = .eq ↔ x = y)
include hcmp

theorem sorted_destutter'_ne {a : α} {l : List α} (hl : (a :: l).Sorted (cmp · · ≠ .gt)) :
    (l.destutter' (· ≠ ·) a).Sorted (cmp · · = .lt) := by
  induction l generalizing a with
  | nil => exact List.sorted_singleton a
  | cons b l ih =>
      obtain ⟨ha, hl⟩ := List.sorted_cons.mp hl
      by_cases hab : a = b
      · subst hab
        rw [List.destutter'_cons_neg l (by simp)]
        exact ih (List.sorted_cons.mpr ⟨fun y hy => ha y (.tail _ hy), hl.of_cons⟩)
      · have hlt : cmp a b = .lt := by
          have := ha b (.head _)
          cases h : cmp a b <;> simp_all
        have hb := (List.sorted_cons.mp hl).1
        rw [List.destutter'_cons_pos l hab]
        refine List.sorted_cons.mpr ⟨fun y hy => ?_, ih hl⟩
        rcases List.mem_cons.mp ((List.destutter'_sublist l _ b).subset hy) with rfl | hy
        · exact hlt
        · exact TransCmp.lt_le_trans hlt (hb y hy)

theorem sorted_destutter_ne {l : List α} (hl : l.Sorted (cmp · · ≠ .gt)) :
    (l.destutter (· ≠ ·)).Sorted (cmp · · = .lt) := by
  cases l with
  | nil => exact List.sorted_nil
  | cons a l => exact sorted_destutter'_ne hcmp hl

omit [DecidableEq α] hcmp

theorem nodup_of_sorted_lt {l : List α} (hl : l.Sorted (cmp · · = .lt)) : l.Nodup :=
  hl.imp fun h heq => by subst heq; simp [OrientedCmp.cmp_refl] at h

theorem eq_of_sorted_of_mem_iff {l l' : List α} (hl : l.Sorted (cmp · · = .lt))
    (hl' : l'.Sorted (cmp · · = .lt)) (h : ∀ x, x ∈ l ↔ x ∈ l') : l = l' := by
  refine List.Perm.eq_of_sorted ?_ hl hl'
    ((List.perm_ext_iff_of_nodup (nodup_of_sorted_lt hl) (nodup_of_sorted_lt hl')).mpr h)
  exact fun _ _ _ _ h h' => absurd h' (TransCmp.lt_asymm h)

theorem sublist_of_sorted_of_subset {l l' : List α} (hl : l.Sorted (cmp · · = .lt))
    (hl' : l'.Sorted (cmp · · = .lt)) (h : ∀ x ∈ l, x ∈ l') : l.Sublist l' :=
  haveI : IsAntisymm α (cmp · · = .lt) := ⟨fun _ _ h h' => absurd h' (TransCmp.lt_asymm h)⟩
  List.sublist_of_subperm_of_sorted (List.subperm_of_subset (nodup_of_sorted_lt hl) h) hl hl'

end Destutter

/-! ## `sort_unstable` and `dedup` in `get_history_since` -/

namespace MemoryStore

theorem sorted_sortDedup (entries : List HistoryEntry) :
    (sortDedup entries).Sorted (·.cmp · = .lt) :=
  haveI := BTreeSet.isLinearOrder_of_lawful HistoryEntry.cmp_eq_eq
  sorted_destutter_ne HistoryEntry.cmp_eq_eq (List.sorted_insertionSort _ entries)

theorem mem_sortDedup {entries : List HistoryEntry} {x : HistoryEntry} :
    x ∈ sortDedup entries ↔ x ∈ entries :=
  mem_destutter_ne.trans (List.perm_insertionSort _ entries).mem_iff

theorem sortDedup_eq_of_sorted {entries l : List HistoryEntry}
    (hl : l.Sorted (·.cmp · = .lt)) (h : ∀ x, x ∈ l ↔ x ∈ entries) : sortDedup entries = l :=
  eq_of_sorted_of_mem_iff (sorted_sortDedup entries) hl fun _ => mem_sortDedup.trans (h _).symm

theorem sortDedup_congr {entries entries' : List HistoryEntry}
    (h : ∀ x, x ∈ entries ↔ x ∈ entries') : sortDedup entries = sortDedup entries' :=
  sortDedup_eq_of_sorted (sorted_sortDedup entries') fun _ => mem_sortDedup.trans (h _).symm

end MemoryStore

/-! ## The laws -/

theorem HistoryEntry.height_le_of_cmp_lt {a b : HistoryEntry} {height height' : Nat}
    (h : a.cmp b = .lt) (ha : a.status = .confirmed height) (hb : b.status = .confirmed height') :
    height ≤ height' := by
  simp only [HistoryEntry.cmp, ha, hb, statusCmp, Ordering.then_eq_lt, Nat.compare_eq_lt,
    Nat.compare_eq_eq] at h
  omega

theorem HistoryEntry.confirmed_of_cmp_lt {a b : HistoryEntry} {height' : Nat}
    (h : a.cmp b = .lt) (hb : b.status = .confirmed height') (ha : a.status ≠ .conflicted) :
    ∃ height ≤ height', a.status = .confirmed height := by
  cases hs : a.status with
  | confirmed height => exact ⟨height, HistoryEntry.height_le_of_cmp_lt h hs hb, rfl⟩
  | unconfirmed => simp [HistoryEntry.cmp, hs, hb, statusCmp, Ordering.then] at h
  | conflicted => exact absurd hs ha

theorem HistoryEntry.cmp_eq_eq_iff {a b : HistoryEntry} :
    a.cmp b = .eq ↔ a.txid = b.txid ∧ a.status = b.status := by
  rw [HistoryEntry.cmp_eq_eq]
  cases a; cases b
  simp

theorem History.insert_remove_of_lawful (history : History) (x z : HistoryEntry) :
    ((history.insert x).1 = true ↔ x ∉ history.toList) ∧
    (z ∈ (history.insert x).2.toList ↔ z = x ∨ z ∈ history.toList) ∧
    ((history.remove x).1 = true ↔ x ∈ history.toList) ∧
    (z ∈ (history.remove x).2.toList ↔ z ≠ x ∧ z ∈ history.toList) := by
  have hc : history.contains x = true ↔ x ∈ history.toList :=
    BTreeSet.contains_eq_true HistoryEntry.cmp_eq_eq
  refine ⟨?_, BTreeSet.mem_insert_of_lawful HistoryEntry.cmp_eq_eq, ?_,
    BTreeSet.mem_remove_of_lawful HistoryEntry.cmp_eq_eq⟩
  · simp [BTreeSet.insert_fst, ← hc]
  · rw [BTreeSet.remove_fst, hc]

theorem store_orders_lawful :
    IsLinearOrder TxStatus (TxStatus.cmp · · ≠ .gt) ∧
    (∀ s s' : TxStatus, s.cmp s' = .eq ↔ s = s') ∧
    (∀ s s' : TxStatus, s.partialCmp s' = some (s.cmp s')) ∧
    IsLinearOrder HistoryEntry (HistoryEntry.cmp · · ≠ .gt) ∧
    (∀ a b : HistoryEntry, a.cmp b = .eq ↔ a.txid = b.txid ∧ a.status = b.status) ∧
    (∀ a b : HistoryEntry, a.partialCmp b = some (a.cmp b)) ∧
    (∀ (history : History) (x z : HistoryEntry),
      ((history.insert x).1 = true ↔ x ∉ history.toList) ∧
      (z ∈ (history.insert x).2.toList ↔ z = x ∨ z ∈ history.toList) ∧
      ((history.remove x).1 = true ↔ x ∈ history.toList) ∧
      (z ∈ (history.remove x).2.toList ↔ z ≠ x ∧ z ∈ history.toList)) ∧
    ∀ entries : List HistoryEntry,
      (MemoryStore.sortDedup entries).Sorted (·.cmp · = .lt) ∧
      (∀ x, x ∈ MemoryStore.sortDedup entries ↔ x ∈ entries) ∧
      ∀ l : List HistoryEntry, l.Sorted (·.cmp · = .lt) → (∀ x, x ∈ l ↔ x ∈ entries) →
        MemoryStore.sortDedup entries = l :=
  ⟨BTreeSet.isLinearOrder_of_lawful TxStatus.cmp_eq_eq, fun _ _ => TxStatus.cmp_eq_eq,
    fun _ _ => rfl, BTreeSet.isLinearOrder_of_lawful HistoryEntry.cmp_eq_eq,
    fun _ _ => HistoryEntry.cmp_eq_eq_iff, fun _ _ => rfl, History.insert_remove_of_lawful,
    fun entries => ⟨MemoryStore.sorted_sortDedup entries, fun _ => MemoryStore.mem_sortDedup,
      fun _ => MemoryStore.sortDedup_eq_of_sorted⟩⟩

end Bwt.Store
