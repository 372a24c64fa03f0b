import Bwt.Store.History

/-!
# Purging a transaction

What `purge_tx` does to a store whose histories and mempool agree with its
transactions: it returns `true` exactly when the transaction was stored, removes it from
the transactions, the mempool and every history, drops the script entries it was the
last entry of, removes the spend edges that still name it, and touches nothing else.

The loop over the spend edges asserts that each of the transaction's prevouts still has
an edge: the purge returns exactly when it finds them all.  Two inputs spending one prevout
make the second turn find the edge already gone; two transactions spending one prevout make
the purge of the one the edge names take the edge the other relies on.  Both panic.
-/

namespace Bwt.Store

namespace MemoryStore

/-! ## Spend edges -/

/-- Every prevout a stored transaction spends has a spend edge. -/
def EdgesRecorded (st : MemoryStore) : Prop :=
  ∀ te ∈ st.transactions.entries, ∀ si ∈ te.2.spending.entries, si.2.prevout ∈ st.txoSpends

instance (st : MemoryStore) : Decidable st.EdgesRecorded := List.decidableBAll _ _

/-- No stored transaction spends one prevout from two of its inputs. -/
def DistinctPrevouts (st : MemoryStore) : Prop :=
  ∀ te ∈ st.transactions.entries, (te.2.spending.entries.map (·.2.prevout)).Nodup

instance (st : MemoryStore) : Decidable st.DistinctPrevouts := List.decidableBAll _ _

/-! ## The frame of a purge -/

/-- What `purge_tx` of the stored transaction `t`, with entry `e`, leaves of the store. -/
structure PurgeFrame (st : MemoryStore) (t : Txid) (e : TxEntry) (st' : MemoryStore) : Prop where
  transactions : ∀ x, st'.transactions.lookup x = if x = t then none else st.transactions.lookup x
  mempool : ∀ x, st'.mempool.lookup x = if x = t then none else st.mempool.lookup x
  historyClean : ∀ sh f, f ∈ historyOf st'.scripthashes sh → f.txid ≠ t
  removed : ∀ sh, st'.scripthashes.lookup sh = none ↔ st.scripthashes.lookup sh = none ∨
    sh ∈ e.scripthashes ∧ ∀ f ∈ historyOf st.scripthashes sh, f.txid = t
  kept : ∀ sh se', st'.scripthashes.lookup sh = some se' →
    ∃ se, st.scripthashes.lookup sh = some se ∧ se'.address = se.address ∧
      se'.origin = se.origin ∧ ∀ f, f ∈ se'.history.toList ↔ f ∈ se.history.toList ∧ f.txid ≠ t
  txoSpends : ∀ p, st'.txoSpends.lookup p =
    if p ∈ e.spending.entries.map (·.2.prevout) ∧ (st.txoSpends.lookup p).map (·.txid) = some t
    then none else st.txoSpends.lookup p

theorem HistoryInv.txid_eq {st : MemoryStore} (hinv : st.HistoryInv) {t : Txid} {e : TxEntry}
    (he : st.transactions.lookup t = some e) {sh : ScriptHash} {f : HistoryEntry}
    (hf : f ∈ historyOf st.scripthashes sh) (ht : f.txid = t) :
    f = ⟨t, e.status⟩ ∧ sh ∈ e.scripthashes := by
  obtain ⟨t', s⟩ := f
  obtain rfl : t' = t := ht
  obtain ⟨rfl, hsh⟩ := hinv.entry_of_mem he hf
  exact ⟨rfl, hsh⟩

section Frame

variable {st : MemoryStore} (hinv : st.HistoryInv) {t : Txid} {e : TxEntry}
  (he : st.transactions.lookup t = some e) {m : HashMap ScriptHash ScriptEntry}
  (hm : purgeScriptHistories ⟨t, e.status⟩ e.scripthashes st.scripthashes = .ok m)
include hinv he hm

theorem purge_removed (sh : ScriptHash) :
    m.lookup sh = none ↔ st.scripthashes.lookup sh = none ∨
      sh ∈ e.scripthashes ∧ ∀ f ∈ historyOf st.scripthashes sh, f.txid = t := by
  rw [purgeScriptHistories_lookup e.scripthashes_nodup hm sh]
  by_cases hsh : sh ∈ e.scripthashes
  · cases hse : st.scripthashes.lookup sh with
    | none => simp
    | some se =>
        have hall : (∀ f, ¬(f ≠ ⟨t, e.status⟩ ∧ f ∈ se.history.toList)) ↔
            ∀ f ∈ se.history.toList, f.txid = t := by
          refine forall_congr' fun f => ⟨fun h hf => ?_, fun h ⟨hne, hf⟩ => ?_⟩
          · by_contra ht
            exact h ⟨fun hf' => ht (hf' ▸ rfl), hf⟩
          · exact hne (hinv.txid_eq he (mem_historyOf.mpr ⟨se, hse, hf⟩) (h hf)).1
        simp only [hsh, if_true, hse, Option.some_bind, purgedEntry, historyOf,
          Option.map_some', Option.getD_some, reduceCtorEq, false_or, true_and]
        split
        · simp_all [List.eq_nil_iff_forall_not_mem]
        · simp_all [List.eq_nil_iff_forall_not_mem]
  · simp [hsh]

theorem purge_kept (sh : ScriptHash) (se' : ScriptEntry) (h : m.lookup sh = some se') :
    ∃ se, st.scripthashes.lookup sh = some se ∧ se'.address = se.address ∧
      se'.origin = se.origin ∧
        ∀ f, f ∈ se'.history.toList ↔ f ∈ se.history.toList ∧ f.txid ≠ t := by
  rw [purgeScriptHistories_lookup e.scripthashes_nodup hm sh] at h
  by_cases hsh : sh ∈ e.scripthashes
  · simp only [hsh, if_true, Option.bind_eq_some] at h
    obtain ⟨se, hse, h⟩ := h
    refine ⟨se, hse, ?_⟩
    unfold purgedEntry at h
    split at h
    · cases h
    · cases h
      refine ⟨rfl, rfl, fun f => ?_⟩
      simp only [History.mem_remove]
      constructor
      · rintro ⟨hne, hf⟩
        exact ⟨hf, fun ht => hne (hinv.txid_eq he (mem_historyOf.mpr ⟨se, hse, hf⟩) ht).1⟩
      · rintro ⟨hf, ht⟩
        exact ⟨fun h => ht (h ▸ rfl), hf⟩
  · simp only [hsh, if_false] at h
    refine ⟨se', h, rfl, rfl, fun f => ⟨fun hf => ⟨hf, fun ht => hsh ?_⟩, And.left⟩⟩
    exact (hinv.txid_eq he (mem_historyOf.mpr ⟨se', h, hf⟩) ht).2

end Frame

theorem purge_removes_transaction {st : MemoryStore} (hinv : st.HistoryInv)
    (hmp : st.MempoolInv) (hedges : st.EdgesRecorded) (hdist : st.DistinctPrevouts) (t : Txid) :
    (st.transactions.lookup t = none → st.purgeTx t = .ok (st, false)) ∧
    ∀ e, st.transactions.lookup t = some e → ∃ st', st.purgeTx t = .ok (st', true) ∧
      PurgeFrame st t e st' ∧ st'.purgeTx t = .ok (st', false) := by
  refine ⟨fun hn => by simp [purgeTx, hn], fun e he => ?_⟩
  have hentry : ⟨t, e⟩ ∈ st.transactions.entries := AList.mem_lookup_iff.mp he
  have hmem : e.status = .unconfirmed → t ∈ st.mempool := fun hu =>
    (hmp t).mpr (by simp [getTxStatus_of_lookup he, hu])
  obtain ⟨m, hm⟩ := hinv.purgeScriptHistories_ok he
  have hnd := hdist _ hentry
  obtain ⟨txo, htxo⟩ : ∃ txo, purgeTxoSpends t _ st.txoSpends = .ok txo :=
    purgeTxoSpends_ok hnd fun p hp => by
      obtain ⟨si, hsi, rfl⟩ := List.mem_map.mp hp
      exact hedges _ hentry si hsi
  refine ⟨_, purgeTx_eq_ok he hmem hm htxo, ?_, by simp [purgeTx]⟩
  exact {
    transactions := fun x => by
      by_cases hx : x = t
      · subst hx; simp
      · simp [hx, AList.lookup_erase_ne hx]
    mempool := fun x => by
      by_cases hx : x = t
      · subst hx
        split
        · simp
        · have : x ∉ st.mempool := by simp [hmp x, getTxStatus_of_lookup he, *]
          exact (if_pos rfl).symm ▸ AList.lookup_eq_none.mpr this
      · split <;> simp [hx, AList.lookup_erase_ne hx]
    historyClean := fun sh f hf ht => by
      obtain ⟨se', hse', hf⟩ := mem_historyOf.mp hf
      obtain ⟨se, -, -, -, hmemf⟩ := purge_kept hinv he hm sh se' hse'
      exact ((hmemf f).mp hf).2 ht
    removed := purge_removed hinv he hm
    kept := purge_kept hinv he hm
    txoSpends := purgeTxoSpends_lookup hnd htxo }

theorem purge_removes_transaction_spent :
    ∃ st, new.run [.indexScripthash 9 .standalone "a", .upsertTx 1 .unconfirmed,
        .indexTxInputsSpending 1 ((∅ : HashMap Nat SpendingInfo).insert 0 ⟨9, ⟨3, 0⟩, 5⟩) false,
        .indexTxoSpend ⟨3, 0⟩ ⟨1, 0⟩] = .ok st ∧
      (st.transactions.lookup 1 = none → st.purgeTx 1 = .ok (st, false)) ∧
      ∀ e, st.transactions.lookup 1 = some e → ∃ st', st.purgeTx 1 = .ok (st', true) ∧
        PurgeFrame st 1 e st' ∧ st'.purgeTx 1 = .ok (st', false) := by
  have hr : Reachable KeepsScripthashes _ := Reachable.keepsScripthashes (fun _ _ h => h)
    (Reachable.run .new (by simp) (rfl : new.run [.indexScripthash 9 .standalone "a",
        .upsertTx 1 .unconfirmed,
        .indexTxInputsSpending 1 ((∅ : HashMap Nat SpendingInfo).insert 0 ⟨9, ⟨3, 0⟩, 5⟩) false,
        .indexTxoSpend ⟨3, 0⟩ ⟨1, 0⟩] = .ok _) :
      Reachable (fun _ op => ∀ t spending, op ≠ .indexTxInputsSpending t spending true) _)
  exact ⟨_, rfl, purge_removes_transaction (HistoryInv.of_reachable hr)
    (MempoolInv.of_reachable hr) (by decide) (by decide) 1⟩

/-- A transaction whose two inputs spend one prevout: the histories, the mempool and
the spend edges agree with the transactions, and `purge_tx` panics. -/
theorem purge_panics_on_repeated_prevout :
    ∃ st : MemoryStore, st.HistoryInv ∧ st.MempoolInv ∧ st.EdgesRecorded ∧
      (st.transactions.lookup 1).isSome ∧ st.purgeTx 1 = .error Panic.purgeTxoSpend := by
  have hr : Reachable KeepsScripthashes _ := Reachable.keepsScripthashes (fun _ _ h => h)
    (Reachable.run .new (by simp) (rfl : new.run [.indexScripthash 9 .standalone "a",
        .upsertTx 1 (.confirmed 3),
        .indexTxInputsSpending 1 (((∅ : HashMap Nat SpendingInfo).insert 0 ⟨9, ⟨3, 0⟩, 5⟩).insert
          1 ⟨9, ⟨3, 0⟩, 5⟩) false,
        .indexTxoSpend ⟨3, 0⟩ ⟨1, 0⟩, .indexTxoSpend ⟨3, 0⟩ ⟨1, 1⟩] = .ok _) :
      Reachable (fun _ op => ∀ t spending, op ≠ .indexTxInputsSpending t spending true) _)
  exact ⟨_, HistoryInv.of_reachable hr, MempoolInv.of_reachable hr, by decide, rfl, rfl⟩

/-! ## When the loop over the spend edges panics -/

/-- `remove_if` reports a present key whatever its predicate says, so the loop finds every
prevout's edge unless the prevout never had one, or has one naming the purged transaction
that an earlier input spending the same prevout took. -/
theorem purgeTxoSpends_ok_iff {txid : Txid} {prevouts : List OutPoint}
    {m : HashMap OutPoint InPoint} :
    (∃ m', purgeTxoSpends txid prevouts m = .ok m') ↔
      ∀ p ∈ prevouts, p ∈ m ∧ ((m.lookup p).map (·.txid) = some txid → prevouts.count p = 1) := by
  induction prevouts generalizing m with
  | nil => simp [purgeTxoSpends]
  | cons q rest ih =>
      cases hq : m.lookup q with
      | none =>
          simp only [purgeTxoSpends, removeIf_of_lookup_none _ hq, ok_bind, assert_false, error_bind,
            List.forall_mem_cons, AList.lookup_eq_none.mp hq, false_and, iff_false]
          rintro ⟨_, ⟨⟩⟩
      | some v =>
          have hstep : purgeTxoSpends txid (q :: rest) m = purgeTxoSpends txid rest
              (if v.txid = txid then m.erase q else m.insert q v) := by
            simp [purgeTxoSpends, removeIf_of_lookup_some _ hq, Except.map]
          -- the popped prevout keeps its edge exactly when the edge names another transaction
          have hpopped : (q ∈ (if v.txid = txid then m.erase q else m.insert q v) ∧
              (((if v.txid = txid then m.erase q else m.insert q v).lookup q).map (·.txid) =
                some txid → rest.count q = 1)) ↔ v.txid ≠ txid := by
            split <;> simp [*]
          -- every other prevout reads the same edge before and after
          have hlookup : ∀ p ≠ q,
              (if v.txid = txid then m.erase q else m.insert q v).lookup p = m.lookup p := by
            intro p hpq
            split
            · exact AList.lookup_erase_ne hpq
            · exact AList.lookup_insert_ne hpq
          have hother : ∀ p ≠ q, (p ∈ (if v.txid = txid then m.erase q else m.insert q v) ∧
              (((if v.txid = txid then m.erase q else m.insert q v).lookup p).map (·.txid) =
                some txid → rest.count p = 1)) ↔
              (p ∈ m ∧ ((m.lookup p).map (·.txid) = some txid → (q :: rest).count p = 1)) := by
            intro p hpq
            rw [← AList.lookup_isSome, ← AList.lookup_isSome, hlookup p hpq,
              List.count_cons_of_ne hpq]
          have hqm : q ∈ m := AList.lookup_isSome.mp (by rw [hq]; rfl)
          rw [hstep, ih, List.forall_mem_cons, hq]
          simp only [Option.map_some', Option.some.injEq, List.count_cons_self, add_left_eq_self,
            List.count_eq_zero, hqm, true_and]
          constructor
          · intro h
            refine ⟨fun hv hr => hpopped.mp (h q hr) hv, fun p hp => ?_⟩
            by_cases hpq : p = q
            · subst hpq
              exact ⟨hqm, fun h' => absurd (by simpa [hq] using h') (hpopped.mp (h p hp))⟩
            · exact (hother p hpq).mp (h p hp)
          · rintro ⟨hhd, h⟩ p hp
            by_cases hpq : p = q
            · subst hpq
              exact hpopped.mpr fun hv => hhd hv hp
            · exact (hother p hpq).mpr (h p hp)

theorem purgeTx_eq_error {st : MemoryStore} {t : Txid} {e : TxEntry}
    (he : st.transactions.lookup t = some e) (hmem : e.status = .unconfirmed → t ∈ st.mempool)
    {m : HashMap ScriptHash ScriptEntry}
    (hm : purgeScriptHistories ⟨t, e.status⟩ e.scripthashes st.scripthashes = .ok m)
    {err : Panic}
    (htxo : purgeTxoSpends t (e.spending.entries.map (·.2.prevout)) st.txoSpends = .error err) :
    st.purgeTx t = .error err := by
  unfold purgeTx
  by_cases hu : e.status = .unconfirmed
  · have hl : (st.mempool.lookup t).isSome = true := AList.lookup_isSome.mpr (hmem hu)
    simp only [he, hu, TxStatus.isUnconfirmed, if_true, hl, assert_true, ok_bind, pure_eq_ok]
    rw [← hu, hm, ok_bind, htxo]
    rfl
  · have hu' : e.status.isUnconfirmed = false :=
      Bool.eq_false_iff.mpr fun h => hu (TxStatus.isUnconfirmed_eq_true.mp h)
    simp only [he, hu', Bool.false_eq_true, if_false, ok_bind, pure_eq_ok, hm, htxo]
    rfl

theorem purgeTx_returns_iff_edges_found {st : MemoryStore} (hinv : st.HistoryInv)
    (hmp : st.MempoolInv) {t : Txid} {e : TxEntry} (he : st.transactions.lookup t = some e) :
    ((∃ r, st.purgeTx t = .ok r) ↔ ∀ p ∈ e.spending.entries.map (·.2.prevout),
      p ∈ st.txoSpends ∧ ((st.txoSpends.lookup p).map (·.txid) = some t →
        (e.spending.entries.map (·.2.prevout)).count p = 1)) ∧
    ∀ err, st.purgeTx t = .error err → err = Panic.purgeTxoSpend := by
  obtain ⟨m, hm⟩ := hinv.purgeScriptHistories_ok he
  have hmem : e.status = .unconfirmed → t ∈ st.mempool := fun hu =>
    (hmp t).mpr (by simp [getTxStatus_of_lookup he, hu])
  rw [← purgeTxoSpends_ok_iff]
  cases htxo : purgeTxoSpends t (e.spending.entries.map (·.2.prevout)) st.txoSpends with
  | error err =>
      rw [purgeTx_eq_error he hmem hm htxo]
      exact ⟨by simp, fun _ h => by cases h; exact purgeTxoSpends_error htxo⟩
  | ok txo =>
      rw [purgeTx_eq_ok he hmem hm htxo]
      exact ⟨by simp, fun _ h => by cases h⟩

theorem purgeTx_returns_iff_edges_found_after_double_spend :
    ∃ st, new.run [.indexScripthash 9 .standalone "a", .upsertTx 1 .unconfirmed,
        .indexTxInputsSpending 1 ((∅ : HashMap Nat SpendingInfo).insert 0 ⟨9, ⟨3, 0⟩, 5⟩) false,
        .indexTxoSpend ⟨3, 0⟩ ⟨1, 0⟩, .upsertTx 2 .unconfirmed,
        .indexTxInputsSpending 2 ((∅ : HashMap Nat SpendingInfo).insert 0 ⟨9, ⟨3, 0⟩, 5⟩) false,
        .indexTxoSpend ⟨3, 0⟩ ⟨2, 0⟩, .purgeTx 2] = .ok st ∧
      ∃ e, st.transactions.lookup 1 = some e ∧
        ((∃ r, st.purgeTx 1 = .ok r) ↔ ∀ p ∈ e.spending.entries.map (·.2.prevout),
          p ∈ st.txoSpends ∧ ((st.txoSpends.lookup p).map (·.txid) = some 1 →
            (e.spending.entries.map (·.2.prevout)).count p = 1)) ∧
        ∀ err, st.purgeTx 1 = .error err → err = Panic.purgeTxoSpend := by
  have hr : Reachable KeepsScripthashes _ := Reachable.keepsScripthashes (fun _ _ h => h)
    (Reachable.run .new (by simp) (rfl : new.run [.indexScripthash 9 .standalone "a",
        .upsertTx 1 .unconfirmed,
        .indexTxInputsSpending 1 ((∅ : HashMap Nat SpendingInfo).insert 0 ⟨9, ⟨3, 0⟩, 5⟩) false,
        .indexTxoSpend ⟨3, 0⟩ ⟨1, 0⟩, .upsertTx 2 .unconfirmed,
        .indexTxInputsSpending 2 ((∅ : HashMap Nat SpendingInfo).insert 0 ⟨9, ⟨3, 0⟩, 5⟩) false,
        .indexTxoSpend ⟨3, 0⟩ ⟨2, 0⟩, .purgeTx 2] = .ok _) :
      Reachable (fun _ op => ∀ t spending, op ≠ .indexTxInputsSpending t spending true) _)
  exact ⟨_, rfl, _, rfl, purgeTx_returns_iff_edges_found (HistoryInv.of_reachable hr)
    (MempoolInv.of_reachable hr) rfl⟩

theorem purge_panics_after_double_spend :
    ∃ st, new.run [.indexScripthash 9 .standalone "a", .upsertTx 1 .unconfirmed,
        .indexTxInputsSpending 1 ((∅ : HashMap Nat SpendingInfo).insert 0 ⟨9, ⟨3, 0⟩, 5⟩) false,
        .indexTxoSpend ⟨3, 0⟩ ⟨1, 0⟩, .upsertTx 2 .unconfirmed,
        .indexTxInputsSpending 2 ((∅ : HashMap Nat SpendingInfo).insert 0 ⟨9, ⟨3, 0⟩, 5⟩) false,
        .indexTxoSpend ⟨3, 0⟩ ⟨2, 0⟩, .purgeTx 2] = .ok st ∧
      (st.transactions.lookup 1).isSome ∧ st.lookupTxoSpend ⟨3, 0⟩ = none ∧
      st.purgeTx 1 = .error Panic.purgeTxoSpend :=
  ⟨_, rfl, rfl, rfl, rfl⟩

end MemoryStore

end Bwt.Store
