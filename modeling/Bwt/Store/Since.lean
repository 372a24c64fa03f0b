import Bwt.Store.History
import Bwt.Store.Order

/-!
# The history since a height

`get_history_since` walks each history from its greatest entry down and stops at the
first entry confirmed below the height.  Under the store's order unconfirmed entries sit
above every confirmed one and confirmed entries go by height, so the walk meets the
unconfirmed entries first and, once it stops, every entry left is confirmed lower still:
it returns every entry that is unconfirmed or confirmed at the height or above, sorted,
each once, as its doc comment promises.

Over runs that never give `upsert_tx` a `Conflicted` status, no history holds a
conflicted entry, and the `unreachable!()` arm is never reached.
-/

namespace Bwt.Store

/-- The calls of the runs considered here: `upsert_tx` is never given `Conflicted`. -/
def Op.Viable (op : Op) : Prop := ∀ t, op ≠ .upsertTx t .conflicted

namespace MemoryStore

/-! ## No conflicted entries -/

structure NoConflicted (st : MemoryStore) : Prop where
  stored : ∀ t e, st.transactions.lookup t = some e → e.status ≠ .conflicted
  histories : ∀ sh f, f ∈ historyOf st.scripthashes sh → f.status ≠ .conflicted

theorem mem_historyOf_of_replace {old new : HistoryEntry} {shs : List ScriptHash}
    {m m' : HashMap ScriptHash ScriptEntry} {x : ScriptHash}
    (hl : m'.lookup x = if x ∈ shs then (m.lookup x).map (replaceEntry old new) else m.lookup x)
    {f : HistoryEntry} (hf : f ∈ historyOf m' x) : f = new ∨ f ∈ historyOf m x := by
  obtain ⟨se', hse', hf⟩ := mem_historyOf.mp hf
  rw [hl] at hse'
  split at hse'
  · obtain ⟨se, hse, rfl⟩ := Option.map_eq_some'.mp hse'
    simp only [replaceEntry, History.mem_insert, History.mem_remove] at hf
    exact hf.imp_right fun h => mem_historyOf.mpr ⟨se, hse, h.2⟩
  · exact .inr (mem_historyOf.mpr ⟨se', hse', hf⟩)

section Preservation

variable {st st' : MemoryStore} (hnc : st.NoConflicted)
include hnc

theorem NoConflicted.of_eq (htx : st'.transactions = st.transactions)
    (hsh : st'.scripthashes = st.scripthashes) : st'.NoConflicted :=
  ⟨htx ▸ hnc.stored, hsh ▸ hnc.histories⟩

theorem NoConflicted.grow {t : Txid} {e e' : TxEntry} (he : st.transactions.lookup t = some e)
    (htx : st'.transactions = st.transactions.insert t e') (hs : e'.status = e.status)
    (hm : ∀ x f, f ∈ historyOf st'.scripthashes x →
      f = ⟨t, e.status⟩ ∨ f ∈ historyOf st.scripthashes x) : st'.NoConflicted := by
  refine ⟨fun x e₁ he₁ => ?_, fun x f hf => ?_⟩
  · rw [htx] at he₁
    by_cases hx : x = t
    · subst hx
      simp only [AList.lookup_insert, Option.some.injEq] at he₁
      exact he₁ ▸ hs ▸ hnc.stored x e he
    · exact hnc.stored x e₁ (by simpa [AList.lookup_insert_ne hx] using he₁)
  · rcases hm x f hf with rfl | hf
    · exact hnc.stored t e he
    · exact hnc.histories x f hf

theorem noConflicted_upsertTx {t : Txid} {s : TxStatus} (hs : s ≠ .conflicted) {b : Bool}
    (h : st.upsertTx t s = .ok (st', b)) : st'.NoConflicted := by
  rcases upsertTx_ok h with ⟨-, -, -, rfl⟩ | ⟨e, -, -, rfl, -⟩ | ⟨e, he, -, -, h⟩
  · refine ⟨fun x e₁ he₁ => ?_, hnc.histories⟩
    by_cases hx : x = t
    · subst hx
      simp only [AList.lookup_insert, Option.some.injEq] at he₁
      exact he₁ ▸ hs
    · exact hnc.stored x e₁ (by simpa [AList.lookup_insert_ne hx] using he₁)
  · exact hnc
  · obtain ⟨e₁, m, -, hm, hcase⟩ := updateTxStatus_ok h
    have hst : st'.scripthashes = m ∧
        st'.transactions = st.transactions.insert t { e with status := s } := by
      rcases hcase with ⟨-, -, rfl⟩ | ⟨-, -, -, rfl⟩ | ⟨-, -, rfl⟩ <;> exact ⟨rfl, rfl⟩
    refine ⟨fun x e₂ he₂ => ?_, fun x f hf => ?_⟩
    · rw [hst.2] at he₂
      by_cases hx : x = t
      · subst hx
        simp only [AList.lookup_insert, Option.some.injEq] at he₂
        exact he₂ ▸ hs
      · exact hnc.stored x e₂ (by simpa [AList.lookup_insert_ne hx] using he₂)
    · rw [hst.1] at hf
      rcases mem_historyOf_of_replace (updateScriptHistories_lookup e₁.scripthashes_nodup hm x)
        hf with rfl | hf
      · exact hs
      · exact hnc.histories x f hf

theorem noConflicted_purgeTx {t : Txid} {b : Bool} (h : st.purgeTx t = .ok (st', b)) :
    st'.NoConflicted := by
  rcases purgeTx_ok h with ⟨-, rfl, -⟩ | ⟨e, -, -, -, htx, -, hsh, -⟩
  · exact hnc
  refine ⟨fun x e₁ he₁ => ?_, fun x f hf => ?_⟩
  · rw [htx] at he₁
    by_cases hx : x = t
    · subst hx; simp at he₁
    · exact hnc.stored x e₁ (by simpa [AList.lookup_erase_ne hx] using he₁)
  · exact hnc.histories x f
      ((mem_historyOf_purge (purgeScriptHistories_lookup e.scripthashes_nodup hsh x) f).mp hf).1

end Preservation

theorem noConflicted_apply {st st' : MemoryStore} (hnc : st.NoConflicted) {op : Op}
    (hop : op.Viable) (h : st.apply op = .ok st') : st'.NoConflicted := by
  cases op with
  | indexScripthash sh origin address =>
      obtain ⟨b, h⟩ := map_fst_eq_ok.mp h
      rcases indexScripthash_ok h with rfl | ⟨hn, rfl⟩
      · exact hnc
      · refine ⟨hnc.stored, fun x f hf => ?_⟩
        by_cases hx : x = sh
        · subst hx; simp at hf
        · exact hnc.histories x f (by simpa [hx] using hf)
  | upsertTx t s =>
      obtain ⟨b, h⟩ := map_fst_eq_ok.mp h
      exact noConflicted_upsertTx hnc (fun hs => hop t (by rw [hs])) h
  | indexTxOutputFunding t vout fundingInfo =>
      obtain ⟨b, h⟩ := map_fst_eq_ok.mp h
      obtain ⟨e, he, ⟨-, rfl⟩ | ⟨-, b', h⟩⟩ := indexTxOutputFunding_ok h
      · exact hnc
      obtain ⟨se, hse, -, rfl⟩ := indexHistoryEntry_eq_ok.mp h
      refine hnc.grow he rfl rfl fun x f hf => ?_
      by_cases hx : x = fundingInfo.scripthash
      · subst hx
        simp only [historyOf_insert, if_true, History.mem_insert] at hf
        exact hf.imp_right fun hf => mem_historyOf.mpr ⟨se, hse, hf⟩
      · exact .inr (by simpa [hx] using hf)
  | indexTxInputsSpending t spending allowOverwrite =>
      obtain ⟨e, he, -, h⟩ := indexTxInputsSpending_ok h
      obtain ⟨m, rfl, hm⟩ := indexHistoryEntries_ok h
      exact hnc.grow he rfl rfl fun x f hf => ((hm x f).mp hf).imp_left And.right
  | indexTxoSpend spentPrevout spendingInput =>
      cases h
      exact hnc.of_eq rfl rfl
  | purgeTx t =>
      obtain ⟨b, h⟩ := map_fst_eq_ok.mp h
      exact noConflicted_purgeTx hnc h

theorem NoConflicted.of_reachable {st : MemoryStore} (h : Reachable (fun _ op => op.Viable) st) :
    st.NoConflicted :=
  h.induction ⟨fun _ _ he => by simp [new] at he, fun _ _ hf => by simp [new, historyOf] at hf⟩
    fun _ _ _ hnc hop h => noConflicted_apply hnc hop h

/-! ## The walk of `get_history_since` -/

theorem takeSince_ok (minBlockHeight : Nat) {l : List HistoryEntry}
    (hl : ∀ f ∈ l, f.status ≠ .conflicted) : ∃ r, takeSince minBlockHeight l = .ok r := by
  induction l with
  | nil => exact ⟨[], rfl⟩
  | cons f rest ih =>
      obtain ⟨r, hr⟩ := ih fun g hg => hl g (.tail _ hg)
      have hf := hl f (.head _)
      simp only [takeSince]
      split
      · split
        · exact ⟨f :: r, by rw [hr]; rfl⟩
        · exact ⟨[], rfl⟩
      · exact ⟨f :: r, by rw [hr]; rfl⟩
      · contradiction

theorem NoConflicted.getHistorySince_ok {st : MemoryStore} (hnc : st.NoConflicted)
    (minBlockHeight : Nat) : ∃ r, st.getHistorySince minBlockHeight = .ok r := by
  have hall : ∀ e ∈ st.scripthashes.entries,
      ∃ r, takeSince minBlockHeight e.2.history.toList.reverse = .ok r := fun e he =>
    takeSince_ok minBlockHeight fun f hf => hnc.histories e.1 f
      (mem_historyOf.mpr ⟨e.2, AList.mem_lookup_iff.mpr he, List.mem_reverse.mp hf⟩)
  obtain ⟨rs, hrs⟩ := mapM_ok hall
  exact ⟨sortDedup rs.flatten, by simp only [getHistorySince, hrs, ok_bind, pure_eq_ok]⟩

theorem getHistorySince_returns {st : MemoryStore} (h : Reachable (fun _ op => op.Viable) st)
    (minBlockHeight : Nat) : ∃ r, st.getHistorySince minBlockHeight = .ok r :=
  (NoConflicted.of_reachable h).getHistorySince_ok minBlockHeight

theorem getHistorySince_returns_funded :
    ∃ st, new.run [.indexScripthash 9 .standalone "a", .upsertTx 1 (.confirmed 1),
        .indexTxOutputFunding 1 0 ⟨9, 5⟩] = .ok st ∧ ∃ r, st.getHistorySince 2 = .ok r :=
  ⟨_, rfl, getHistorySince_returns (Reachable.run .new (by simp [Op.Viable])
    (rfl : new.run [.indexScripthash 9 .standalone "a", .upsertTx 1 (.confirmed 1),
      .indexTxOutputFunding 1 0 ⟨9, 5⟩] = .ok _)) 2⟩

/-! ## What the doc comment promises -/

/-- Unconfirmed, or confirmed at `minBlockHeight` or above: the entries the walk keeps. -/
def since (minBlockHeight : Nat) (txhist : HistoryEntry) : Bool :=
  match txhist.status with
  | .confirmed blockHeight => blockHeight ≥ minBlockHeight
  | .unconfirmed => true
  | .conflicted => false

/-- Every entry of every history that is unconfirmed or confirmed at `minBlockHeight` or
above, sorted, each once. -/
def historySinceSpec (st : MemoryStore) (minBlockHeight : Nat) : List HistoryEntry :=
  sortDedup ((st.scripthashes.entries.map (·.2.history.toList)).flatten.filter
    (since minBlockHeight))

/-! ## What the walk keeps -/

theorem takeSince_sound {minBlockHeight : Nat} {l r : List HistoryEntry}
    (h : takeSince minBlockHeight l = .ok r) :
    ∀ f ∈ r, f ∈ l ∧ since minBlockHeight f = true := by
  induction l generalizing r with
  | nil => cases h; simp
  | cons g rest ih =>
      have keep : ∀ {r'}, (g :: ·) <$> takeSince minBlockHeight rest = .ok r' →
          since minBlockHeight g = true → ∀ f ∈ r', f ∈ g :: rest ∧ since minBlockHeight f = true := by
        intro r' h' hg f hf
        obtain ⟨r'', hr'', rfl⟩ := map_eq_ok.mp h'
        rcases List.mem_cons.mp hf with rfl | hf
        · exact ⟨.head _, hg⟩
        · exact (ih hr'' f hf).imp (.tail _) id
      simp only [takeSince] at h
      split at h
      next height hs =>
        split at h
        next hm => exact keep h (by simpa [since, hs] using hm)
        next => cases h; simp
      next hs => exact keep h (by simp [since, hs])
      next => cases h

theorem takeSince_eq_filter {minBlockHeight : Nat} {l : List HistoryEntry}
    (hl : l.Sorted fun a b => b.cmp a = .lt) (hc : ∀ f ∈ l, f.status ≠ .conflicted) :
    takeSince minBlockHeight l = .ok (l.filter (since minBlockHeight)) := by
  induction l with
  | nil => rfl
  | cons g rest ih =>
      obtain ⟨hg, hrest⟩ := List.sorted_cons.mp hl
      have ih := ih hrest fun f hf => hc f (.tail _ hf)
      cases hs : g.status with
      | unconfirmed =>
          simp only [takeSince, hs, List.filter_cons, since, if_true, ih]
          rfl
      | conflicted => exact absurd hs (hc g (.head _))
      | confirmed height =>
          by_cases hm : minBlockHeight ≤ height
          · simp only [takeSince, hs, List.filter_cons, since, ge_iff_le, hm, decide_True,
              if_true, ih]
            rfl
          · have hnil : rest.filter (since minBlockHeight) = [] := List.filter_eq_nil_iff.mpr
              fun f hf => by
                obtain ⟨height', hle, hs'⟩ :=
                  HistoryEntry.confirmed_of_cmp_lt (hg f hf) hs (hc f (.tail _ hf))
                simp only [since, hs', ge_iff_le, decide_eq_true_eq]
                omega
            simp [takeSince, hs, since, hm, hnil]

theorem getHistorySince_sublist_spec {st : MemoryStore} {minBlockHeight : Nat}
    {r : List HistoryEntry} (h : st.getHistorySince minBlockHeight = .ok r) :
    r.Sublist (st.historySinceSpec minBlockHeight) := by
  obtain ⟨rs, hrs, hr⟩ := bind_eq_ok.mp h
  cases hr
  refine sublist_of_sorted_of_subset (sorted_sortDedup _) (sorted_sortDedup _) fun x hx => ?_
  obtain ⟨l, hl, hxl⟩ := List.mem_flatten.mp (mem_sortDedup.mp hx)
  obtain ⟨e, he, hel⟩ := mem_of_mapM_eq_ok hrs l hl
  obtain ⟨hx', hs⟩ := takeSince_sound hel x hxl
  exact mem_sortDedup.mpr (List.mem_filter.mpr
    ⟨List.mem_flatten.mpr ⟨_, List.mem_map_of_mem _ he, List.mem_reverse.mp hx'⟩, hs⟩)

theorem getHistorySince_sublist_spec_funded :
    ∃ st, new.run [.indexScripthash 9 .standalone "a", .upsertTx 1 (.confirmed 1),
        .indexTxOutputFunding 1 0 ⟨9, 5⟩] = .ok st ∧
      List.Sublist [⟨1, .confirmed 1⟩] (st.historySinceSpec 1) :=
  ⟨_, rfl, getHistorySince_sublist_spec (by rfl)⟩

/-- Every history holds no unconfirmed entry, or none confirmed below `minBlockHeight`. -/
def WalkComplete (st : MemoryStore) (minBlockHeight : Nat) : Prop :=
  ∀ e ∈ st.scripthashes.entries, (∀ f ∈ e.2.history.toList, f.status ≠ .unconfirmed) ∨
    ∀ f ∈ e.2.history.toList, since minBlockHeight f = true

instance (st : MemoryStore) (minBlockHeight : Nat) : Decidable (st.WalkComplete minBlockHeight) :=
  inferInstanceAs (Decidable (∀ e ∈ st.scripthashes.entries,
    (∀ f ∈ e.2.history.toList, f.status ≠ .unconfirmed) ∨
      ∀ f ∈ e.2.history.toList, since minBlockHeight f = true))

theorem NoConflicted.getHistorySince_eq {st : MemoryStore} (hnc : st.NoConflicted)
    (minBlockHeight : Nat) :
    st.getHistorySince minBlockHeight = .ok (st.historySinceSpec minBlockHeight) := by
  have hwalk : ∀ e ∈ st.scripthashes.entries, takeSince minBlockHeight
      e.2.history.toList.reverse = .ok (e.2.history.toList.reverse.filter (since minBlockHeight)) :=
    fun e he => takeSince_eq_filter (List.pairwise_reverse.mpr e.2.history.sorted)
      fun f hf => hnc.histories e.1 f
        (mem_historyOf.mpr ⟨e.2, AList.mem_lookup_iff.mpr he, List.mem_reverse.mp hf⟩)
  simp only [getHistorySince, mapM_eq_ok_map hwalk, ok_bind, pure_eq_ok, historySinceSpec]
  refine congrArg _ (sortDedup_congr fun x => ?_)
  simp only [List.mem_flatten, List.mem_map, List.mem_filter, List.mem_reverse,
    exists_exists_and_eq_and, ← and_assoc, exists_and_right]

theorem getHistorySince_eq_spec {st : MemoryStore} (hnc : st.NoConflicted) {minBlockHeight : Nat}
    (hw : st.WalkComplete minBlockHeight) :
    st.getHistorySince minBlockHeight = .ok (st.historySinceSpec minBlockHeight) :=
  hnc.getHistorySince_eq minBlockHeight

theorem getHistorySince_eq_spec_from_one :
    ∃ st, new.run [.indexScripthash 9 .standalone "a", .upsertTx 1 (.confirmed 1),
        .indexTxOutputFunding 1 0 ⟨9, 5⟩, .upsertTx 2 .unconfirmed,
        .indexTxOutputFunding 2 0 ⟨9, 6⟩] = .ok st ∧
      st.getHistorySince 1 = .ok (st.historySinceSpec 1) :=
  ⟨_, rfl, getHistorySince_eq_spec (NoConflicted.of_reachable (Reachable.run .new
    (by simp [Op.Viable]) (rfl : new.run [.indexScripthash 9 .standalone "a",
      .upsertTx 1 (.confirmed 1), .indexTxOutputFunding 1 0 ⟨9, 5⟩, .upsertTx 2 .unconfirmed,
      .indexTxOutputFunding 2 0 ⟨9, 6⟩] = .ok _))) (by decide)⟩

theorem getHistorySince_eq_historySinceSpec {st : MemoryStore}
    (h : Reachable (fun _ op => op.Viable) st) (minBlockHeight : Nat) :
    st.getHistorySince minBlockHeight = .ok (st.historySinceSpec minBlockHeight) :=
  (NoConflicted.of_reachable h).getHistorySince_eq minBlockHeight

theorem getHistorySince_eq_historySinceSpec_funded :
    ∃ st, new.run [.indexScripthash 9 .standalone "a", .upsertTx 1 (.confirmed 1),
        .indexTxOutputFunding 1 0 ⟨9, 5⟩, .upsertTx 2 .unconfirmed,
        .indexTxOutputFunding 2 0 ⟨9, 6⟩] = .ok st ∧
      st.historySinceSpec 2 = [⟨2, .unconfirmed⟩] ∧
      st.getHistorySince 2 = .ok (st.historySinceSpec 2) :=
  ⟨_, rfl, rfl, getHistorySince_eq_historySinceSpec (Reachable.run .new (by simp [Op.Viable])
    (rfl : new.run [.indexScripthash 9 .standalone "a", .upsertTx 1 (.confirmed 1),
      .indexTxOutputFunding 1 0 ⟨9, 5⟩, .upsertTx 2 .unconfirmed,
      .indexTxOutputFunding 2 0 ⟨9, 6⟩] = .ok _)) 2⟩

end MemoryStore

end Bwt.Store
