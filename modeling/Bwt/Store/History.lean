import Bwt.Store.Invariants
import Bwt.Store.Order

/-!
# The histories of the store

A script hash's history should hold exactly the current entry `(txid, status)` of
every stored transaction whose funding or spending map names the script hash.  The
store keeps no reverse index from script hashes to transactions: `update_tx_status`
and `purge_tx` find the histories to change through the transaction's own maps.  So
the invariant holds only over runs in which an overwrite of a spending map keeps every
script hash the entry already named; an overwrite that drops one leaves an entry that
no later call reaches.

Over those runs every history holds at most one entry per transaction, and neither
the cascade of `update_tx_status` nor the first loop of `purge_tx` can panic.
-/

namespace Bwt.Store

namespace MemoryStore

/-! ## The invariant -/

/-- Transaction `e.txid` is stored with status `e.status` and funds or spends from `sh`. -/
def Touches (transactions : HashMap Txid TxEntry) (sh : ScriptHash) (e : HistoryEntry) : Prop :=
  ∃ te, transactions.lookup e.txid = some te ∧ te.status = e.status ∧ sh ∈ te.scripthashes

instance (transactions : HashMap Txid TxEntry) (sh : ScriptHash) (e : HistoryEntry) :
    Decidable (Touches transactions sh e) :=
  match h : transactions.lookup e.txid with
  | some te => decidable_of_iff (te.status = e.status ∧ sh ∈ te.scripthashes) (by simp [Touches, h])
  | none => isFalse (by simp [Touches, h])

/-- Every history holds exactly the current entries of the transactions touching it. -/
def HistoryInv (st : MemoryStore) : Prop :=
  ∀ sh e, e ∈ historyOf st.scripthashes sh ↔ Touches st.transactions sh e

theorem touches_of_lookup {transactions : HashMap Txid TxEntry} {t : Txid} {te : TxEntry}
    (h : transactions.lookup t = some te) (sh : ScriptHash) (s : TxStatus) :
    Touches transactions sh ⟨t, s⟩ ↔ te.status = s ∧ sh ∈ te.scripthashes := by
  simp [Touches, h]

theorem touches_insert (transactions : HashMap Txid TxEntry) (t : Txid) (te : TxEntry)
    (sh : ScriptHash) (e : HistoryEntry) :
    Touches (transactions.insert t te) sh e ↔
      if e.txid = t then te.status = e.status ∧ sh ∈ te.scripthashes
      else Touches transactions sh e := by
  by_cases h : e.txid = t
  · subst h; simp [Touches]
  · simp [Touches, h, AList.lookup_insert_ne h]

theorem touches_erase (transactions : HashMap Txid TxEntry) (t : Txid) (sh : ScriptHash)
    (e : HistoryEntry) :
    Touches (transactions.erase t) sh e ↔ e.txid ≠ t ∧ Touches transactions sh e := by
  by_cases h : e.txid = t
  · subst h; simp [Touches]
  · simp [Touches, h, AList.lookup_erase_ne h]

theorem HistoryInv.entry_of_mem {st : MemoryStore} (hinv : st.HistoryInv) {sh : ScriptHash}
    {t : Txid} {s : TxStatus} {te : TxEntry} (he : st.transactions.lookup t = some te)
    (hmem : ⟨t, s⟩ ∈ historyOf st.scripthashes sh) : te.status = s ∧ sh ∈ te.scripthashes :=
  (touches_of_lookup he sh s).mp ((hinv sh _).mp hmem)

theorem HistoryInv.eq_of_txid_eq {st : MemoryStore} (hinv : st.HistoryInv) {sh : ScriptHash}
    {e e' : HistoryEntry} (he : e ∈ historyOf st.scripthashes sh)
    (he' : e' ∈ historyOf st.scripthashes sh) (ht : e.txid = e'.txid) : e = e' := by
  obtain ⟨te, hte, hs, -⟩ := (hinv sh e).mp he
  obtain ⟨te', hte', hs', -⟩ := (hinv sh e').mp he'
  rw [ht, hte'] at hte
  cases e; cases e'
  simp_all

/-! ## What the loops do to one history -/

theorem mem_historyOf_replace {old new : HistoryEntry} {shs : List ScriptHash}
    {m m' : HashMap ScriptHash ScriptEntry} {x : ScriptHash}
    (hl : m'.lookup x = if x ∈ shs then (m.lookup x).map (replaceEntry old new) else m.lookup x)
    (hx : x ∈ shs → old ∈ historyOf m x) (f : HistoryEntry) :
    f ∈ historyOf m' x ↔ x ∈ shs ∧ f = new ∨ f ∈ historyOf m x ∧ (x ∈ shs → f ≠ old) := by
  by_cases hxs : x ∈ shs
  · obtain ⟨se, hse, -⟩ := mem_historyOf.mp (hx hxs)
    simp only [historyOf, hl, hxs, if_true, hse, Option.map_some', Option.getD_some,
      replaceEntry, History.mem_insert, History.mem_remove, true_and, forall_const]
    exact or_congr_right and_comm
  · simp [historyOf_congr (hl.trans (if_neg hxs)), hxs]

theorem mem_historyOf_purge {old : HistoryEntry} {shs : List ScriptHash}
    {m m' : HashMap ScriptHash ScriptEntry} {x : ScriptHash}
    (hl : m'.lookup x = if x ∈ shs then (m.lookup x).bind (purgedEntry old) else m.lookup x)
    (f : HistoryEntry) :
    f ∈ historyOf m' x ↔ f ∈ historyOf m x ∧ (x ∈ shs → f ≠ old) := by
  by_cases hxs : x ∈ shs
  · cases hse : m.lookup x with
    | none => simp [historyOf, hl, hxs, hse]
    | some se =>
        by_cases hempty : (se.history.remove old).2.toList = []
        · have : f ∉ (se.history.remove old).2.toList := by simp [hempty]
          simp only [History.mem_remove, not_and, not_not] at this
          simp [historyOf, hl, hxs, hse, purgedEntry, hempty]
          exact fun hf => Decidable.byContradiction fun h => this h hf
        · simp [historyOf, hl, hxs, hse, purgedEntry, hempty, and_comm]
  · simp [historyOf_congr (hl.trans (if_neg hxs)), hxs]

/-! ## Each call keeps the invariant -/

section Preservation

variable {st st' : MemoryStore} (hinv : st.HistoryInv)
include hinv

theorem HistoryInv.grow {t : Txid} {e e' : TxEntry} (he : st.transactions.lookup t = some e)
    (htx : st'.transactions = st.transactions.insert t e') (hs : e'.status = e.status)
    (A : List ScriptHash) (hA : ∀ x, x ∈ e'.scripthashes ↔ x ∈ A ∨ x ∈ e.scripthashes)
    (hm : ∀ x f, f ∈ historyOf st'.scripthashes x ↔
      x ∈ A ∧ f = ⟨t, e.status⟩ ∨ f ∈ historyOf st.scripthashes x) :
    st'.HistoryInv := by
  intro x f
  simp only [hm, htx, touches_insert]
  obtain ⟨t', s⟩ := f
  by_cases ht : t' = t
  · subst ht
    simp only [if_true, hinv x, touches_of_lookup he, HistoryEntry.mk.injEq, true_and, hs, hA]
    constructor
    · rintro (⟨hx, rfl⟩ | ⟨rfl, hx⟩)
      exacts [⟨rfl, .inl hx⟩, ⟨rfl, .inr hx⟩]
    · rintro ⟨rfl, hx | hx⟩
      exacts [.inl ⟨hx, rfl⟩, .inr ⟨rfl, hx⟩]
  · simp [ht, hinv x]

theorem historyInv_indexScripthash {sh : ScriptHash} {origin : KeyOrigin} {address : Address}
    {b : Bool} (h : st.indexScripthash sh origin address = .ok (st', b)) : st'.HistoryInv := by
  rcases indexScripthash_ok h with rfl | ⟨hn, rfl⟩
  · exact hinv
  · intro x f
    by_cases hx : x = sh
    · subst hx
      simpa [historyOf, hn] using hinv x f
    · simpa [hx] using hinv x f

theorem historyInv_upsertTx {t : Txid} {s : TxStatus} {b : Bool}
    (h : st.upsertTx t s = .ok (st', b)) : st'.HistoryInv := by
  rcases upsertTx_ok h with ⟨hn, -, -, rfl⟩ | ⟨e, -, -, rfl, -⟩ | ⟨e, he, hne, -, h⟩
  · intro x f
    have hf : f ∈ historyOf st.scripthashes x → f.txid ≠ t := fun hf ht => by
      obtain ⟨te, hte, -⟩ := (hinv x f).mp hf
      rw [ht, hn] at hte
      cases hte
    by_cases ht : f.txid = t
    · simpa [touches_insert, ht, TxEntry.new, TxEntry.scripthashes] using mt hf (not_not.mpr ht)
    · simpa [touches_insert, ht] using hinv x f
  · exact hinv
  · obtain ⟨e₁, m, he₁, hm, hcase⟩ := updateTxStatus_ok h
    simp only [AList.lookup_insert, Option.some.injEq] at he₁
    subst he₁
    have hst : st'.scripthashes = m ∧
        st'.transactions = st.transactions.insert t { e with status := s } := by
      rcases hcase with ⟨-, -, rfl⟩ | ⟨-, -, -, rfl⟩ | ⟨-, -, rfl⟩ <;> exact ⟨rfl, rfl⟩
    intro x f
    rw [hst.1, hst.2, mem_historyOf_replace (updateScriptHistories_lookup e.scripthashes_nodup hm x)
      (fun hx => (hinv x _).mpr ⟨e, he, rfl, hx⟩), touches_insert]
    obtain ⟨t', s'⟩ := f
    by_cases ht : t' = t
    · subst ht
      simp only [hinv x, touches_of_lookup he, HistoryEntry.mk.injEq, true_and, if_true]
      constructor
      · rintro (⟨hx, rfl⟩ | ⟨⟨rfl, hx⟩, hne'⟩)
        · exact ⟨rfl, hx⟩
        · exact absurd rfl (hne' hx)
      · rintro ⟨rfl, hx⟩
        exact .inl ⟨hx, rfl⟩
    · simp [ht, hinv x]

theorem historyInv_indexTxOutputFunding {t : Txid} {vout : Nat} {fundingInfo : FundingInfo}
    {b : Bool} (h : st.indexTxOutputFunding t vout fundingInfo = .ok (st', b)) :
    st'.HistoryInv := by
  obtain ⟨e, he, ⟨-, rfl⟩ | ⟨hv, b', h⟩⟩ := indexTxOutputFunding_ok h
  · exact hinv
  obtain ⟨se, hse, -, rfl⟩ := indexHistoryEntry_eq_ok.mp h
  refine hinv.grow he rfl rfl [fundingInfo.scripthash] (fun x => ?_) fun x f => ?_
  · have hvout : vout ∉ e.funding := AList.lookup_eq_none.mp hv
    simp only [TxEntry.scripthashes, AList.insert_entries_of_neg hvout, List.mem_dedup,
      List.map_cons, List.cons_append, List.mem_cons, List.mem_nil_iff, or_false]
  · by_cases hx : x = fundingInfo.scripthash
    · subst hx
      simp [historyOf, hse, eq_comm]
    · simp [hx]

/-- An overwrite of a spending map keeps every script hash the entry already names. -/
def KeepsScripthashes (st : MemoryStore) : Op → Prop
  | .indexTxInputsSpending t spending _ =>
      ∀ e, st.transactions.lookup t = some e → ∀ x ∈ e.scripthashes,
        x ∈ { e with spending }.scripthashes
  | _ => True

theorem historyInv_indexTxInputsSpending {t : Txid} {spending : HashMap Nat SpendingInfo}
    {allowOverwrite : Bool} (hkeep : st.KeepsScripthashes (.indexTxInputsSpending t spending
      allowOverwrite))
    (h : st.indexTxInputsSpending t spending allowOverwrite = .ok st') : st'.HistoryInv := by
  obtain ⟨e, he, -, h⟩ := indexTxInputsSpending_ok h
  obtain ⟨m, rfl, hm⟩ := indexHistoryEntries_ok h
  refine hinv.grow he rfl rfl _ ?_ hm
  exact fun x => ⟨.inl, fun h => h.elim id (hkeep e he x)⟩

theorem historyInv_purgeTx {t : Txid} {b : Bool} (h : st.purgeTx t = .ok (st', b)) :
    st'.HistoryInv := by
  rcases purgeTx_ok h with ⟨-, rfl, -⟩ | ⟨e, he, -, -, htx, -, hsh, -⟩
  · exact hinv
  intro x f
  rw [mem_historyOf_purge (purgeScriptHistories_lookup e.scripthashes_nodup hsh x), htx,
    touches_erase, hinv x]
  obtain ⟨t', s⟩ := f
  by_cases ht : t' = t
  · subst ht
    simp only [touches_of_lookup he, ne_eq, not_true_eq_false, false_and, iff_false, not_and,
      HistoryEntry.mk.injEq, true_and]
    rintro ⟨rfl, hx⟩
    exact fun h => h hx rfl
  · simp [ht]

end Preservation

theorem historyInv_apply {st st' : MemoryStore} (hinv : st.HistoryInv) {op : Op}
    (hkeep : st.KeepsScripthashes op) (h : st.apply op = .ok st') : st'.HistoryInv := by
  cases op with
  | indexScripthash sh origin address =>
      obtain ⟨b, h⟩ := map_fst_eq_ok.mp h
      exact historyInv_indexScripthash hinv h
  | upsertTx t s =>
      obtain ⟨b, h⟩ := map_fst_eq_ok.mp h
      exact historyInv_upsertTx hinv h
  | indexTxOutputFunding t vout fundingInfo =>
      obtain ⟨b, h⟩ := map_fst_eq_ok.mp h
      exact historyInv_indexTxOutputFunding hinv h
  | indexTxInputsSpending t spending allowOverwrite =>
      exact historyInv_indexTxInputsSpending hinv hkeep h
  | indexTxoSpend spentPrevout spendingInput =>
      cases h
      exact hinv
  | purgeTx t =>
      obtain ⟨b, h⟩ := map_fst_eq_ok.mp h
      exact historyInv_purgeTx hinv h

theorem historyInv_new : MemoryStore.new.HistoryInv := by
  intro sh e; simp [new, historyOf, Touches]

theorem HistoryInv.of_reachable {st : MemoryStore} (h : Reachable KeepsScripthashes st) :
    st.HistoryInv :=
  h.induction historyInv_new fun _ _ _ hinv hkeep hop => historyInv_apply hinv hkeep hop

theorem keepsScripthashes_of_apply {st st' : MemoryStore} {op : Op}
    (hop : st.apply op = .ok st')
    (hno : ∀ t spending, op ≠ .indexTxInputsSpending t spending true) :
    st.KeepsScripthashes op := by
  cases op with
  | indexTxInputsSpending t spending allowOverwrite =>
      obtain ⟨e, he, hw, -⟩ := indexTxInputsSpending_ok hop
      intro e' he' x hx
      obtain rfl : e = e' := Option.some.inj (he.symm.trans he')
      have hsp : e.spending.entries = [] := hw.resolve_left fun h => hno t spending (by rw [h])
      simp only [TxEntry.scripthashes, hsp, List.map_nil, List.append_nil, List.mem_dedup,
        List.mem_append] at hx ⊢
      exact .inl hx
  | _ => trivial

/-! ## What the invariant rules out -/

theorem HistoryInv.updateScriptHistories_ok {st : MemoryStore} (hinv : st.HistoryInv)
    {t : Txid} {e : TxEntry} (he : st.transactions.lookup t = some e) {s : TxStatus}
    (hs : s ≠ e.status) :
    ∃ m, updateScriptHistories ⟨t, e.status⟩ ⟨t, s⟩ e.scripthashes st.scripthashes = .ok m := by
  refine MemoryStore.updateScriptHistories_ok (by simpa using hs) e.scripthashes_nodup
    fun x hx => ?_
  obtain ⟨se, hse, hold⟩ := mem_historyOf.mp ((hinv x ⟨t, e.status⟩).mpr ⟨e, he, rfl, hx⟩)
  refine ⟨se, hse, hold, fun hnew => hs ?_⟩
  exact ((hinv.entry_of_mem he (mem_historyOf.mpr ⟨se, hse, hnew⟩)).1).symm

theorem HistoryInv.purgeScriptHistories_ok {st : MemoryStore} (hinv : st.HistoryInv)
    {t : Txid} {e : TxEntry} (he : st.transactions.lookup t = some e) :
    ∃ m, purgeScriptHistories ⟨t, e.status⟩ e.scripthashes st.scripthashes = .ok m :=
  MemoryStore.purgeScriptHistories_ok e.scripthashes_nodup fun x hx =>
    mem_historyOf.mp ((hinv x ⟨t, e.status⟩).mpr ⟨e, he, rfl, hx⟩)

theorem upsertTx_ok_of_inv {st : MemoryStore} (hmp : st.MempoolInv) (hinv : st.HistoryInv)
    (t : Txid) (s : TxStatus) : ∃ r, st.upsertTx t s = .ok r := by
  cases h : st.upsertTx t s with
  | ok r => exact ⟨r, rfl⟩
  | error p =>
      exfalso
      obtain ⟨e, he, hne, h⟩ := (upsertTx_error h).resolve_left fun ⟨hn, _, hmem, _⟩ => by
        simp [hmp t, getTxStatus, hn] at hmem
      obtain ⟨m, hm⟩ := hinv.updateScriptHistories_ok he (Ne.symm hne)
      rcases updateTxStatus_error h with ⟨hn, -⟩ | ⟨e₁, he₁, hc | ⟨-, hcase⟩⟩
      · simp at hn
      · simp only [AList.lookup_insert, Option.some.injEq] at he₁
        subst he₁
        exact ok_ne_error _ _ (hm.symm.trans hc)
      · rcases hcase with ⟨hu, hmem, -⟩ | ⟨hu, -, hmem, -⟩
        · exact hmem ((hmp t).mpr (by simp [getTxStatus_of_lookup he, hu]))
        · simp [hmp t, getTxStatus_of_lookup he, hu] at hmem

theorem purgeTx_panic_of_inv {st : MemoryStore} (hmp : st.MempoolInv) (hinv : st.HistoryInv)
    {t : Txid} {p : Panic} (h : st.purgeTx t = .error p) : p = Panic.purgeTxoSpend := by
  obtain ⟨e, he, ⟨hu, hmem, -⟩ | hc | ⟨-, hc⟩⟩ := purgeTx_error h
  · exact absurd ((hmp t).mpr (by simp [getTxStatus_of_lookup he, hu])) hmem
  · obtain ⟨m, hm⟩ := hinv.purgeScriptHistories_ok he
    exact absurd (hm.symm.trans hc) (ok_ne_error _ _)
  · exact purgeTxoSpends_error hc

theorem Reachable.keepsScripthashes {allowed : MemoryStore → Op → Prop}
    (hno : ∀ st op, allowed st op → ∀ t spending, op ≠ .indexTxInputsSpending t spending true)
    {st : MemoryStore} (h : Reachable allowed st) : Reachable KeepsScripthashes st :=
  h.mono fun _ _ _ hallowed hop => keepsScripthashes_of_apply hop (hno _ _ hallowed)

theorem history_tracks_transactions {st : MemoryStore} (h : Reachable KeepsScripthashes st) :
    (∀ sh t s, ⟨t, s⟩ ∈ historyOf st.scripthashes sh ↔
      ∃ te, st.transactions.lookup t = some te ∧ te.status = s ∧ sh ∈ te.scripthashes) ∧
    (∀ sh e e', e ∈ historyOf st.scripthashes sh → e' ∈ historyOf st.scripthashes sh →
      e.txid = e'.txid → e = e') ∧
    (∀ t s, ∃ r, st.upsertTx t s = .ok r) ∧
    (∀ t p, st.purgeTx t = .error p → p = Panic.purgeTxoSpend) := by
  have hmp := MempoolInv.of_reachable h
  have hinv := HistoryInv.of_reachable h
  exact ⟨fun sh t s => hinv sh ⟨t, s⟩, fun _ _ _ => hinv.eq_of_txid_eq,
    upsertTx_ok_of_inv hmp hinv, fun _ _ => purgeTx_panic_of_inv hmp hinv⟩

theorem history_tracks_transactions_funded_and_spent :
    ∃ st, new.run [.indexScripthash 1 .standalone "a", .indexScripthash 2 .standalone "b",
        .upsertTx 5 .unconfirmed, .indexTxOutputFunding 5 0 ⟨1, 100⟩,
        .indexTxInputsSpending 5 ((∅ : HashMap Nat SpendingInfo).insert 0 ⟨2, ⟨3, 0⟩, 50⟩) false,
        .upsertTx 5 (.confirmed 10)] = .ok st ∧
      (∀ sh t s, ⟨t, s⟩ ∈ historyOf st.scripthashes sh ↔
        ∃ te, st.transactions.lookup t = some te ∧ te.status = s ∧ sh ∈ te.scripthashes) ∧
      (∀ sh e e', e ∈ historyOf st.scripthashes sh → e' ∈ historyOf st.scripthashes sh →
        e.txid = e'.txid → e = e') ∧
      (∀ t s, ∃ r, st.upsertTx t s = .ok r) ∧
      (∀ t p, st.purgeTx t = .error p → p = Panic.purgeTxoSpend) :=
  ⟨_, rfl, history_tracks_transactions (Reachable.keepsScripthashes (fun _ _ h => h)
    (Reachable.run .new (by simp) (rfl : new.run
      [.indexScripthash 1 .standalone "a", .indexScripthash 2 .standalone "b",
        .upsertTx 5 .unconfirmed, .indexTxOutputFunding 5 0 ⟨1, 100⟩,
        .indexTxInputsSpending 5 ((∅ : HashMap Nat SpendingInfo).insert 0 ⟨2, ⟨3, 0⟩, 50⟩) false,
        .upsertTx 5 (.confirmed 10)] = .ok _) :
      Reachable (fun _ op => ∀ t spending, op ≠ .indexTxInputsSpending t spending true) _))⟩

theorem history_keeps_purged_entry :
    ∃ st, Reachable (fun _ op => ∀ t, op ≠ .upsertTx t .conflicted) st ∧
      ⟨7, .confirmed 5⟩ ∈ historyOf st.scripthashes 1 ∧ st.transactions.lookup 7 = none :=
  ⟨_, Reachable.run .new (by simp) (rfl : new.run [.indexScripthash 1 .standalone "a",
      .upsertTx 7 (.confirmed 5),
      .indexTxInputsSpending 7 ((∅ : HashMap Nat SpendingInfo).insert 0 ⟨1, ⟨3, 0⟩, 10⟩) false,
      .indexTxInputsSpending 7 ∅ true, .purgeTx 7] = .ok _), by decide, rfl⟩

/-! ## The count of a history -/

theorem getTxCount_eq_length (st : MemoryStore) (sh : ScriptHash) :
    st.getTxCount sh = (historyOf st.scripthashes sh).length := by
  unfold getTxCount historyOf
  cases st.scripthashes.lookup sh <;> rfl

theorem HistoryInv.getTxCount_eq {st : MemoryStore} (hinv : st.HistoryInv) (sh : ScriptHash) :
    st.getTxCount sh = (st.transactions.entries.filter fun e => sh ∈ e.2.scripthashes).length := by
  have hnodup : (historyOf st.scripthashes sh).Nodup := by
    unfold historyOf
    cases st.scripthashes.lookup sh with
    | none => exact List.nodup_nil
    | some se => exact nodup_of_sorted_lt se.history.sorted
  have hperm : ((historyOf st.scripthashes sh).map (·.txid)).Perm
      (st.transactions.entries.filter fun e => sh ∈ e.2.scripthashes).keys := by
    refine (List.perm_ext_iff_of_nodup
      (hnodup.map_on fun _ he _ he' => hinv.eq_of_txid_eq he he')
      (List.NodupKeys.sublist (List.filter_sublist _) st.transactions.nodupKeys)).mpr fun t => ?_
    simp only [List.mem_map, List.mem_keys, List.mem_filter, decide_eq_true_eq]
    constructor
    · rintro ⟨⟨t', s⟩, he, rfl⟩
      obtain ⟨te, hte, -, hsh⟩ := (hinv sh _).mp he
      exact ⟨te, AList.mem_lookup_iff.mp hte, hsh⟩
    · rintro ⟨te, he, hsh⟩
      exact ⟨⟨t, te.status⟩, (hinv sh _).mpr ⟨te, AList.mem_lookup_iff.mpr he, rfl, hsh⟩, rfl⟩
  rw [getTxCount_eq_length, ← List.length_map _ (·.txid), hperm.length_eq, List.keys,
    List.length_map]

theorem getTxCount_counts_transactions {st : MemoryStore} (h : Reachable KeepsScripthashes st)
    (sh : ScriptHash) :
    st.getTxCount sh = (st.transactions.entries.filter fun e => sh ∈ e.2.scripthashes).length :=
  (HistoryInv.of_reachable h).getTxCount_eq sh

theorem getTxCount_counts_transactions_funded_and_spent :
    ∃ st, new.run [.indexScripthash 1 .standalone "a", .indexScripthash 2 .standalone "b",
        .upsertTx 5 .unconfirmed, .indexTxOutputFunding 5 0 ⟨1, 100⟩,
        .indexTxInputsSpending 5 ((∅ : HashMap Nat SpendingInfo).insert 0 ⟨2, ⟨3, 0⟩, 50⟩) false,
        .upsertTx 5 (.confirmed 10)] = .ok st ∧ st.getTxCount 1 = 1 ∧ st.getTxCount 2 = 1 ∧
      st.getTxCount 2 =
        (st.transactions.entries.filter fun e => 2 ∈ e.2.scripthashes).length :=
  ⟨_, rfl, rfl, rfl, getTxCount_counts_transactions (Reachable.keepsScripthashes (fun _ _ h => h)
    (Reachable.run .new (by simp) (rfl : new.run
      [.indexScripthash 1 .standalone "a", .indexScripthash 2 .standalone "b",
        .upsertTx 5 .unconfirmed, .indexTxOutputFunding 5 0 ⟨1, 100⟩,
        .indexTxInputsSpending 5 ((∅ : HashMap Nat SpendingInfo).insert 0 ⟨2, ⟨3, 0⟩, 50⟩) false,
        .upsertTx 5 (.confirmed 10)] = .ok _) :
      Reachable (fun _ op => ∀ t spending, op ≠ .indexTxInputsSpending t spending true) _)) 2⟩

/-! ## The histories as a recomputation -/

theorem historyOf_sorted (m : HashMap ScriptHash ScriptEntry) (sh : ScriptHash) :
    (historyOf m sh).Sorted (·.cmp · = .lt) := by
  unfold historyOf
  cases m.lookup sh with
  | none => exact List.sorted_nil
  | some se => exact se.history.sorted

theorem getHistory_toList (st : MemoryStore) (sh : ScriptHash) :
    ((st.getHistory sh).map (·.toList)).getD [] = historyOf st.scripthashes sh := by
  unfold getHistory historyOf
  cases st.scripthashes.lookup sh <;> rfl

theorem HistoryInv.historyOf_eq_sortDedup {st : MemoryStore} (hinv : st.HistoryInv)
    (sh : ScriptHash) :
    historyOf st.scripthashes sh = sortDedup ((st.transactions.entries.filter fun e =>
      sh ∈ e.2.scripthashes).map fun e => (⟨e.1, e.2.status⟩ : HistoryEntry)) := by
  refine (sortDedup_eq_of_sorted (historyOf_sorted _ _) fun e => ?_).symm
  obtain ⟨t, s⟩ := e
  rw [hinv sh _]
  simp only [Touches, List.mem_map, List.mem_filter, decide_eq_true_eq, HistoryEntry.mk.injEq]
  constructor
  · rintro ⟨te, hte, rfl, hsh⟩
    exact ⟨⟨t, te⟩, ⟨AList.mem_lookup_iff.mp hte, hsh⟩, rfl, rfl⟩
  · rintro ⟨⟨t', te⟩, ⟨hte, hsh⟩, rfl, rfl⟩
    exact ⟨te, AList.mem_lookup_iff.mpr hte, rfl, hsh⟩

theorem getHistory_recomputed {st : MemoryStore} (h : Reachable KeepsScripthashes st)
    (sh : ScriptHash) :
    ((st.getHistory sh).map (·.toList)).getD [] = sortDedup ((st.transactions.entries.filter
      fun e => sh ∈ e.2.scripthashes).map fun e => (⟨e.1, e.2.status⟩ : HistoryEntry)) := by
  rw [getHistory_toList]
  exact (HistoryInv.of_reachable h).historyOf_eq_sortDedup sh

theorem getHistory_recomputed_two_funded :
    ∃ st, new.run [.indexScripthash 1 .standalone "a", .upsertTx 5 (.confirmed 10),
        .indexTxOutputFunding 5 0 ⟨1, 100⟩, .upsertTx 3 .unconfirmed,
        .indexTxOutputFunding 3 0 ⟨1, 50⟩] = .ok st ∧
      ((st.getHistory 1).map (·.toList)).getD [] = [⟨5, .confirmed 10⟩, ⟨3, .unconfirmed⟩] ∧
      ((st.getHistory 1).map (·.toList)).getD [] = sortDedup ((st.transactions.entries.filter
        fun e => 1 ∈ e.2.scripthashes).map fun e => (⟨e.1, e.2.status⟩ : HistoryEntry)) :=
  ⟨_, rfl, rfl, getHistory_recomputed (Reachable.keepsScripthashes (fun _ _ h => h)
    (Reachable.run .new (by simp) (rfl : new.run [.indexScripthash 1 .standalone "a",
        .upsertTx 5 (.confirmed 10), .indexTxOutputFunding 5 0 ⟨1, 100⟩, .upsertTx 3 .unconfirmed,
        .indexTxOutputFunding 3 0 ⟨1, 50⟩] = .ok _) :
      Reachable (fun _ op => ∀ t spending, op ≠ .indexTxInputsSpending t spending true) _)) 1⟩

end MemoryStore

end Bwt.Store
