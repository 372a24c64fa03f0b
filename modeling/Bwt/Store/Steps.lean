import Bwt.Store.MemoryStore

/-!
# What each operation does

One lemma per operation of the store: what a call that returns has done to every
map, and for the loops, when they run through and what each script entry or spend
edge becomes.  The invariants of `Store.Invariants` are derived from these lemmas
and never unfold an operation.
-/

namespace Bwt.Store

open Batteries

/-! ## Histories as sets -/

namespace History

@[simp] theorem contains_eq_true {h : History} {x : HistoryEntry} :
    h.contains x = true ↔ x ∈ h.toList :=
  BTreeSet.contains_eq_true HistoryEntry.cmp_eq_eq

@[simp] theorem mem_insert {h : History} {x e : HistoryEntry} :
    e ∈ (h.insert x).2.toList ↔ e = x ∨ e ∈ h.toList :=
  BTreeSet.mem_insert_of_lawful HistoryEntry.cmp_eq_eq

@[simp] theorem mem_remove {h : History} {x e : HistoryEntry} :
    e ∈ (h.remove x).2.toList ↔ e ≠ x ∧ e ∈ h.toList :=
  BTreeSet.mem_remove_of_lawful HistoryEntry.cmp_eq_eq

@[simp] theorem contains_eq_false {h : History} {x : HistoryEntry} :
    h.contains x = false ↔ x ∉ h.toList := by
  rw [← Bool.not_eq_true, contains_eq_true]

@[simp] theorem insert_fst_eq_true {h : History} {x : HistoryEntry} :
    (h.insert x).1 = true ↔ x ∉ h.toList := by
  simp

@[simp] theorem remove_fst_eq_true {h : History} {x : HistoryEntry} :
    (h.remove x).1 = true ↔ x ∈ h.toList := by
  simp

@[simp] theorem isEmpty_eq_true {h : History} : h.isEmpty = true ↔ h.toList = [] := by
  simp [BTreeSet.isEmpty]

end History

def historyOf (scripthashes : HashMap ScriptHash ScriptEntry) (scripthash : ScriptHash) :
    List HistoryEntry :=
  ((scripthashes.lookup scripthash).map (·.history.toList)).getD []

theorem mem_historyOf {m : HashMap ScriptHash ScriptEntry} {x : ScriptHash} {e : HistoryEntry} :
    e ∈ historyOf m x ↔ ∃ se, m.lookup x = some se ∧ e ∈ se.history.toList := by
  unfold historyOf
  cases m.lookup x <;> simp

@[simp] theorem historyOf_insert (m : HashMap ScriptHash ScriptEntry) (k x : ScriptHash)
    (se : ScriptEntry) :
    historyOf (m.insert k se) x = if x = k then se.history.toList else historyOf m x := by
  by_cases hx : x = k
  · subst hx; simp [historyOf]
  · simp [historyOf, hx]

@[simp] theorem historyOf_erase (m : HashMap ScriptHash ScriptEntry) (k x : ScriptHash) :
    historyOf (m.erase k) x = if x = k then [] else historyOf m x := by
  by_cases hx : x = k
  · subst hx; simp [historyOf]
  · simp [historyOf, hx]

theorem historyOf_congr {m m' : HashMap ScriptHash ScriptEntry} {x : ScriptHash}
    (h : m'.lookup x = m.lookup x) : historyOf m' x = historyOf m x := by
  simp [historyOf, h]

namespace MemoryStore

/-! ## The loop of `update_tx_status` -/

/-- What the loop of `update_tx_status` makes of one script entry. -/
def replaceEntry (oldTxhist newTxhist : HistoryEntry) (se : ScriptEntry) : ScriptEntry :=
  { se with history := ((se.history.remove oldTxhist).2.insert newTxhist).2 }

theorem updateScriptHistories_lookup {old new : HistoryEntry} {shs : List ScriptHash}
    (hnd : shs.Nodup) {m m' : HashMap ScriptHash ScriptEntry}
    (h : updateScriptHistories old new shs m = .ok m') (x : ScriptHash) :
    m'.lookup x = if x ∈ shs then (m.lookup x).map (replaceEntry old new) else m.lookup x := by
  induction shs generalizing m with
  | nil =>
      simp only [updateScriptHistories, Except.ok.injEq] at h
      simp [h]
  | cons sh rest ih =>
      obtain ⟨hsh, hnd⟩ := List.nodup_cons.mp hnd
      simp only [updateScriptHistories, bind_eq_ok, expect_eq_ok] at h
      obtain ⟨se, hse, _, _, _, _, h⟩ := h
      rw [ih hnd h]
      by_cases hx : x = sh
      · subst hx
        simp [hsh, hse, replaceEntry]
      · simp [hx, AList.lookup_insert_ne hx]

theorem updateScriptHistories_ok {old new : HistoryEntry} (hne : new ≠ old)
    {shs : List ScriptHash} (hnd : shs.Nodup) {m : HashMap ScriptHash ScriptEntry}
    (hpre : ∀ x ∈ shs, ∃ se, m.lookup x = some se ∧ old ∈ se.history.toList ∧
      new ∉ se.history.toList) :
    ∃ m', updateScriptHistories old new shs m = .ok m' := by
  induction shs generalizing m with
  | nil => exact ⟨m, rfl⟩
  | cons sh rest ih =>
      obtain ⟨hsh, hnd⟩ := List.nodup_cons.mp hnd
      obtain ⟨se, hse, hold, hnew⟩ := hpre sh (.head _)
      have hrest := @ih hnd (m.insert sh (replaceEntry old new se)) fun x hx => by
        have hxsh : x ≠ sh := fun e => hsh (e ▸ hx)
        simpa [AList.lookup_insert_ne hxsh] using hpre x (.tail _ hx)
      simpa [updateScriptHistories, hse, hold, hnew, hne, assert, replaceEntry] using hrest

theorem updateScriptHistories_error {old new : HistoryEntry} {shs : List ScriptHash}
    {m : HashMap ScriptHash ScriptEntry} {p : Panic}
    (h : updateScriptHistories old new shs m = .error p) :
    p = Panic.missingScriptEntry ∨ p = Panic.statusRemove ∨ p = Panic.statusInsert := by
  induction shs generalizing m with
  | nil => simp [updateScriptHistories] at h
  | cons sh rest ih =>
      simp only [updateScriptHistories] at h
      cases hse : m.lookup sh with
      | none => simp_all
      | some se =>
          simp only [hse, expect_some, ok_bind, assert] at h
          split at h
          · split at h
            · exact ih h
            · cases h; simp
          · cases h; simp

/-! ## The loops of `purge_tx` -/

/-- What the first loop of `purge_tx` leaves of one script entry: nothing once its
history is empty. -/
def purgedEntry (oldTxhist : HistoryEntry) (se : ScriptEntry) : Option ScriptEntry :=
  if (se.history.remove oldTxhist).2.isEmpty then none
  else some { se with history := (se.history.remove oldTxhist).2 }

theorem purgeScriptHistories_lookup {old : HistoryEntry} {shs : List ScriptHash}
    (hnd : shs.Nodup) {m m' : HashMap ScriptHash ScriptEntry}
    (h : purgeScriptHistories old shs m = .ok m') (x : ScriptHash) :
    m'.lookup x = if x ∈ shs then (m.lookup x).bind (purgedEntry old) else m.lookup x := by
  induction shs generalizing m with
  | nil =>
      simp only [purgeScriptHistories, Except.ok.injEq] at h
      simp [h]
  | cons sh rest ih =>
      obtain ⟨hsh, hnd⟩ := List.nodup_cons.mp hnd
      simp only [purgeScriptHistories, bind_eq_ok] at h
      obtain ⟨⟨had, m₁⟩, hrm, _, hhad, h⟩ := h
      rw [ih hnd h]
      cases hse : m.lookup sh with
      | none => simp_all
      | some se =>
          have hold : old ∈ se.history.toList := by
            by_contra hn
            simp [removeIf_of_lookup_some _ hse, assert, hn, Except.map] at hrm
          simp only [removeIf_of_lookup_some _ hse, assert, History.remove_fst_eq_true, hold,
            if_true, ok_bind, pure_eq_ok, Except.map, Except.ok.injEq, Prod.mk.injEq] at hrm
          obtain ⟨-, rfl⟩ := hrm
          by_cases hx : x = sh
          · subst hx
            by_cases he : (se.history.remove old).2.toList = [] <;>
              simp [hsh, hse, he, purgedEntry]
          · by_cases he : (se.history.remove old).2.toList = [] <;>
              simp [hx, he, AList.lookup_insert_ne hx]

theorem purgeScriptHistories_ok {old : HistoryEntry} {shs : List ScriptHash} (hnd : shs.Nodup)
    {m : HashMap ScriptHash ScriptEntry}
    (hpre : ∀ x ∈ shs, ∃ se, m.lookup x = some se ∧ old ∈ se.history.toList) :
    ∃ m', purgeScriptHistories old shs m = .ok m' := by
  induction shs generalizing m with
  | nil => exact ⟨m, rfl⟩
  | cons sh rest ih =>
      obtain ⟨hsh, hnd⟩ := List.nodup_cons.mp hnd
      obtain ⟨se, hse, hold⟩ := hpre sh (.head _)
      have hm₁ : ∀ x ∈ rest, (if (se.history.remove old).2.isEmpty then m.erase sh
          else m.insert sh { se with history := (se.history.remove old).2 }).lookup x =
            m.lookup x := fun x hx => by
        have hxsh : x ≠ sh := fun e => hsh (e ▸ hx)
        split <;> simp [hxsh, AList.lookup_insert_ne hxsh]
      obtain ⟨m', hm'⟩ := ih hnd fun x hx => (hm₁ x hx).symm ▸ hpre x (.tail _ hx)
      refine ⟨m', ?_⟩
      simp only [purgeScriptHistories, removeIf_of_lookup_some _ hse]
      simpa [hold, assert, Except.map] using hm'

theorem purgeScriptHistories_error {old : HistoryEntry} {shs : List ScriptHash}
    {m : HashMap ScriptHash ScriptEntry} {p : Panic}
    (h : purgeScriptHistories old shs m = .error p) :
    p = Panic.purgeHistoryRemove ∨ p = Panic.purgeScriptEntry := by
  induction shs generalizing m with
  | nil => simp [purgeScriptHistories] at h
  | cons sh rest ih =>
      simp only [purgeScriptHistories] at h
      cases hse : m.lookup sh with
      | none => simp_all [assert]
      | some se =>
          simp only [removeIf_of_lookup_some _ hse, assert] at h
          split at h
          · simp only [ok_bind, pure_eq_ok, Except.map] at h
            exact ih h
          · cases h; simp

theorem purgeTxoSpends_lookup {txid : Txid} {prevouts : List OutPoint} (hnd : prevouts.Nodup)
    {m m' : HashMap OutPoint InPoint} (h : purgeTxoSpends txid prevouts m = .ok m')
    (p : OutPoint) :
    m'.lookup p =
      if p ∈ prevouts ∧ (m.lookup p).map (·.txid) = some txid then none else m.lookup p := by
  induction prevouts generalizing m with
  | nil =>
      simp only [purgeTxoSpends, Except.ok.injEq] at h
      simp [h]
  | cons q rest ih =>
      obtain ⟨hq, hnd⟩ := List.nodup_cons.mp hnd
      simp only [purgeTxoSpends, bind_eq_ok] at h
      obtain ⟨⟨had, m₁⟩, hrm, _, hhad, h⟩ := h
      rw [ih hnd h]
      cases hqm : m.lookup q with
      | none => simp_all
      | some v =>
          simp only [removeIf_of_lookup_some _ hqm, pure_eq_ok, Except.map, Except.ok.injEq,
            Prod.mk.injEq] at hrm
          obtain ⟨-, rfl⟩ := hrm
          by_cases hp : p = q
          · subst hp
            by_cases hv : v.txid = txid <;> simp [hq, hqm, hv]
          · split <;> simp [hp, AList.lookup_insert_ne hp]

theorem purgeTxoSpends_ok {txid : Txid} {prevouts : List OutPoint} (hnd : prevouts.Nodup)
    {m : HashMap OutPoint InPoint} (hpre : ∀ p ∈ prevouts, p ∈ m) :
    ∃ m', purgeTxoSpends txid prevouts m = .ok m' := by
  induction prevouts generalizing m with
  | nil => exact ⟨m, rfl⟩
  | cons q rest ih =>
      obtain ⟨hq, hnd⟩ := List.nodup_cons.mp hnd
      obtain ⟨v, hv⟩ := Option.isSome_iff_exists.mp (AList.lookup_isSome.mpr (hpre q (.head _)))
      have hm₁ : ∀ p ∈ rest, p ∈ (if v.txid = txid then m.erase q else m.insert q v) :=
        fun p hp => by
          have hpq : p ≠ q := fun e => hq (e ▸ hp)
          split <;> simp [hpq, hpre p (.tail _ hp)]
      obtain ⟨m', hm'⟩ := ih hnd hm₁
      exact ⟨m', by simpa [purgeTxoSpends, removeIf_of_lookup_some _ hv, Except.map] using hm'⟩

theorem purgeTxoSpends_error {txid : Txid} {prevouts : List OutPoint}
    {m : HashMap OutPoint InPoint} {p : Panic} (h : purgeTxoSpends txid prevouts m = .error p) :
    p = Panic.purgeTxoSpend := by
  induction prevouts generalizing m with
  | nil => simp [purgeTxoSpends] at h
  | cons q rest ih =>
      simp only [purgeTxoSpends] at h
      cases hqm : m.lookup q with
      | none => simp_all [assert]
      | some v =>
          simp only [removeIf_of_lookup_some _ hqm, pure_eq_ok, Except.map, ok_bind, assert,
            if_true] at h
          exact ih h

/-! ## Indexing history entries -/

theorem indexHistoryEntry_eq_ok {st st' : MemoryStore} {sh : ScriptHash} {e : HistoryEntry}
    {b : Bool} :
    st.indexHistoryEntry sh e = .ok (st', b) ↔
      ∃ se, st.scripthashes.lookup sh = some se ∧ b = (se.history.insert e).1 ∧
        st' = { st with scripthashes :=
          st.scripthashes.insert sh { se with history := (se.history.insert e).2 } } := by
  unfold indexHistoryEntry
  cases hse : st.scripthashes.lookup sh with
  | none => simp
  | some se =>
      simp only [expect_some, ok_bind, pure_eq_ok, Except.ok.injEq, Prod.mk.injEq,
        Option.some.injEq, exists_eq_left']
      exact ⟨fun ⟨h1, h2⟩ => ⟨h2.symm, h1.symm⟩, fun ⟨h1, h2⟩ => ⟨h2.symm, h1.symm⟩⟩

theorem indexHistoryEntries_ok {st st' : MemoryStore} {e : HistoryEntry} {shs : List ScriptHash}
    (h : st.indexHistoryEntries e shs = .ok st') :
    ∃ m, st' = { st with scripthashes := m } ∧
      ∀ x f, f ∈ historyOf m x ↔ (x ∈ shs ∧ f = e) ∨ f ∈ historyOf st.scripthashes x := by
  induction shs generalizing st with
  | nil =>
      simp only [indexHistoryEntries, Except.ok.injEq] at h
      exact ⟨st.scripthashes, by simp [← h], by simp⟩
  | cons sh rest ih =>
      simp only [indexHistoryEntries, bind_eq_ok] at h
      obtain ⟨⟨st₁, b⟩, h₁, h⟩ := h
      obtain ⟨se, hse, -, rfl⟩ := indexHistoryEntry_eq_ok.mp h₁
      obtain ⟨m, rfl, hm⟩ := ih h
      refine ⟨m, rfl, fun x f => ?_⟩
      rw [hm]
      by_cases hx : x = sh
      · subst hx
        have : f ∈ historyOf st.scripthashes x ↔ f ∈ se.history.toList := by
          simp [historyOf, hse]
        simp only [historyOf_insert, if_true, History.mem_insert, this, List.mem_cons, true_or,
          true_and]
        exact ⟨fun h => h.elim (fun h => .inl h.2) id, .inr⟩
      · simp [hx]

/-! ## The public operations -/

theorem indexScripthash_ok {st st' : MemoryStore} {sh : ScriptHash} {origin : KeyOrigin}
    {address : Address} {b : Bool} (h : st.indexScripthash sh origin address = .ok (st', b)) :
    st' = st ∨ st.scripthashes.lookup sh = none ∧
      st' = { st with scripthashes := st.scripthashes.insert sh ⟨address, origin, .empty⟩ } := by
  unfold indexScripthash at h
  cases hse : st.scripthashes.lookup sh with
  | none =>
      simp only [hse, pure_eq_ok, Except.ok.injEq, Prod.mk.injEq] at h
      exact .inr ⟨rfl, h.1.symm⟩
  | some se =>
      simp only [hse, bind_eq_ok, pure_eq_ok, Except.ok.injEq, Prod.mk.injEq] at h
      obtain ⟨_, _, h, _⟩ := h
      exact .inl h.symm

theorem updateTxStatus_ok {st st' : MemoryStore} {t : Txid} {old new : TxStatus}
    (h : st.updateTxStatus t old new = .ok st') :
    ∃ e m, st.transactions.lookup t = some e ∧
      updateScriptHistories ⟨t, old⟩ ⟨t, new⟩ e.scripthashes st.scripthashes = .ok m ∧
      (old = .unconfirmed ∧ t ∈ st.mempool ∧
          st' = { st with scripthashes := m, mempool := st.mempool.erase t } ∨
        old ≠ .unconfirmed ∧ new = .unconfirmed ∧ t ∉ st.mempool ∧
          st' = { st with scripthashes := m, mempool := st.mempool.insert t none } ∨
        old ≠ .unconfirmed ∧ new ≠ .unconfirmed ∧ st' = { st with scripthashes := m }) := by
  simp only [updateTxStatus, bind_eq_ok, expect_eq_ok] at h
  obtain ⟨e, he, m, hm, h⟩ := h
  refine ⟨e, m, he, hm, ?_⟩
  split at h
  · simp only [bind_eq_ok, assert_eq_ok, AList.lookup_isSome, pure_eq_ok, Except.ok.injEq] at h
    obtain ⟨_, hmem, rfl⟩ := h
    exact .inl ⟨rfl, hmem, rfl⟩
  · simp only [bind_eq_ok, assert_eq_ok, Option.isNone_iff_eq_none, AList.lookup_eq_none,
      pure_eq_ok, Except.ok.injEq] at h
    obtain ⟨_, hmem, rfl⟩ := h
    exact .inr (.inl ⟨‹_›, rfl, hmem, rfl⟩)
  · simp only [pure_eq_ok, Except.ok.injEq] at h
    exact .inr (.inr ⟨‹_›, ‹_›, h.symm⟩)

theorem upsertTx_ok {st st' : MemoryStore} {t : Txid} {s : TxStatus} {b : Bool}
    (h : st.upsertTx t s = .ok (st', b)) :
    st.transactions.lookup t = none ∧ b = true ∧ (s = .unconfirmed → t ∉ st.mempool) ∧
        st' = { st with transactions := st.transactions.insert t (TxEntry.new s),
                        mempool := if s = .unconfirmed then st.mempool.insert t none
                          else st.mempool } ∨
      (∃ e, st.transactions.lookup t = some e ∧ e.status = s ∧ st' = st ∧ b = false) ∨
      ∃ e, st.transactions.lookup t = some e ∧ e.status ≠ s ∧ b = true ∧
        ({ st with transactions := st.transactions.insert t { e with status := s } }).updateTxStatus
          t e.status s = .ok st' := by
  unfold upsertTx at h
  cases he : st.transactions.lookup t with
  | none =>
      simp only [he] at h
      refine .inl ⟨rfl, ?_⟩
      split at h
      · simp only [bind_eq_ok, assert_eq_ok, Option.isNone_iff_eq_none, AList.lookup_eq_none,
          pure_eq_ok, Except.ok.injEq, Prod.mk.injEq] at h
        obtain ⟨_, hmem, rfl, rfl⟩ := h
        exact ⟨rfl, fun _ => hmem, by simp⟩
      · simp only [Except.ok.injEq, Prod.mk.injEq] at h
        obtain ⟨rfl, rfl⟩ := h
        exact ⟨rfl, fun hs => absurd hs ‹_›, by simp only [if_neg ‹_›]⟩
  | some e =>
      simp only [he] at h
      split at h
      · simp only [Except.ok.injEq, Prod.mk.injEq] at h
        obtain ⟨rfl, rfl⟩ := h
        exact .inr (.inl ⟨e, rfl, ‹_›, rfl, rfl⟩)
      · simp only [bind_eq_ok, pure_eq_ok, Except.ok.injEq, Prod.mk.injEq] at h
        obtain ⟨st'', h, rfl, rfl⟩ := h
        exact .inr (.inr ⟨e, rfl, ‹_›, rfl, h⟩)

theorem indexTxOutputFunding_ok {st st' : MemoryStore} {t : Txid} {vout : Nat}
    {fundingInfo : FundingInfo} {b : Bool}
    (h : st.indexTxOutputFunding t vout fundingInfo = .ok (st', b)) :
    ∃ e, st.transactions.lookup t = some e ∧
      ((e.funding.lookup vout).isSome ∧ st' = st ∨
        e.funding.lookup vout = none ∧ ∃ b',
          ({ st with transactions :=
              (st.transactions.insert t { e with funding := e.funding.insert vout fundingInfo }) }
            ).indexHistoryEntry fundingInfo.scripthash ⟨t, e.status⟩ = .ok (st', b')) := by
  simp only [indexTxOutputFunding, bind_eq_ok, expect_eq_ok] at h
  obtain ⟨e, he, h⟩ := h
  refine ⟨e, he, ?_⟩
  cases hf : e.funding.lookup vout with
  | some f =>
      simp only [hf, Except.ok.injEq, Prod.mk.injEq] at h
      exact .inl ⟨rfl, h.1.symm⟩
  | none =>
      simp only [hf, bind_eq_ok] at h
      obtain ⟨⟨st'', b'⟩, h₁, h⟩ := h
      simp only [pure_eq_ok, Except.ok.injEq, Prod.mk.injEq] at h
      obtain ⟨rfl, -⟩ := h
      exact .inr ⟨rfl, b', h₁⟩

theorem indexTxInputsSpending_ok {st st' : MemoryStore} {t : Txid}
    {spending : HashMap Nat SpendingInfo} {allowOverwrite : Bool}
    (h : st.indexTxInputsSpending t spending allowOverwrite = .ok st') :
    ∃ e, st.transactions.lookup t = some e ∧
      (allowOverwrite = true ∨ e.spending.entries = []) ∧
      ({ st with transactions := st.transactions.insert t { e with spending } }).indexHistoryEntries
        ⟨t, e.status⟩ { e with spending }.scripthashes = .ok st' := by
  simp only [indexTxInputsSpending, bind_eq_ok, expect_eq_ok, assert_eq_ok, Bool.or_eq_true,
    List.isEmpty_iff] at h
  obtain ⟨e, he, _, hw, h⟩ := h
  exact ⟨e, he, hw, h⟩

theorem purgeTx_ok {st st' : MemoryStore} {t : Txid} {b : Bool}
    (h : st.purgeTx t = .ok (st', b)) :
    st.transactions.lookup t = none ∧ st' = st ∧ b = false ∨
      ∃ e, st.transactions.lookup t = some e ∧ b = true ∧
        (e.status = .unconfirmed → t ∈ st.mempool) ∧
        st'.transactions = st.transactions.erase t ∧
        st'.mempool = (if e.status = .unconfirmed then st.mempool.erase t else st.mempool) ∧
        purgeScriptHistories ⟨t, e.status⟩ e.scripthashes st.scripthashes =
          .ok st'.scripthashes ∧
        purgeTxoSpends t (e.spending.entries.map (·.2.prevout)) st.txoSpends =
          .ok st'.txoSpends := by
  unfold purgeTx at h
  cases he : st.transactions.lookup t with
  | none =>
      simp only [he, Except.ok.injEq, Prod.mk.injEq] at h
      exact .inl ⟨rfl, h.1.symm, h.2.symm⟩
  | some e =>
      simp only [he] at h
      refine .inr ⟨e, rfl, ?_⟩
      by_cases hu : e.status = .unconfirmed
      · simp only [hu, TxStatus.isUnconfirmed, if_true, bind_eq_ok, assert_eq_ok,
          AList.lookup_isSome, pure_eq_ok, Except.ok.injEq, Prod.mk.injEq] at h
        obtain ⟨_, hmem, _, rfl, m, hm, txo, htxo, rfl, rfl⟩ := h
        exact ⟨rfl, fun _ => hmem, rfl, by simp [hu], by rw [hu]; exact hm, htxo⟩
      · have hu' : e.status.isUnconfirmed = false :=
          Bool.eq_false_iff.mpr fun h => hu (TxStatus.isUnconfirmed_eq_true.mp h)
        simp only [hu', Bool.false_eq_true, if_false, ok_bind, bind_eq_ok, pure_eq_ok,
          Except.ok.injEq, Prod.mk.injEq] at h
        obtain ⟨m, hm, txo, htxo, rfl, rfl⟩ := h
        exact ⟨rfl, fun h => absurd h hu, rfl, by simp [hu], hm, htxo⟩

theorem purgeTx_eq_ok {st : MemoryStore} {t : Txid} {e : TxEntry}
    (he : st.transactions.lookup t = some e) (hmem : e.status = .unconfirmed → t ∈ st.mempool)
    {m : HashMap ScriptHash ScriptEntry} {txo : HashMap OutPoint InPoint}
    (hm : purgeScriptHistories ⟨t, e.status⟩ e.scripthashes st.scripthashes = .ok m)
    (htxo : purgeTxoSpends t (e.spending.entries.map (·.2.prevout)) st.txoSpends = .ok txo) :
    st.purgeTx t = .ok (⟨m, st.transactions.erase t,
      if e.status = .unconfirmed then st.mempool.erase t else st.mempool, txo⟩, true) := by
  unfold purgeTx
  by_cases hu : e.status = .unconfirmed
  · have hl : (st.mempool.lookup t).isSome = true := AList.lookup_isSome.mpr (hmem hu)
    simp only [he, hu, TxStatus.isUnconfirmed, if_true, hl, assert_true, ok_bind, pure_eq_ok]
    rw [← hu, hm, htxo]
    rfl
  · have hu' : e.status.isUnconfirmed = false :=
      Bool.eq_false_iff.mpr fun h => hu (TxStatus.isUnconfirmed_eq_true.mp h)
    simp only [he, hu', hu, Bool.false_eq_true, if_false, ok_bind, pure_eq_ok, hm, htxo]

/-! ## Where a call can panic -/

theorem updateTxStatus_error {st : MemoryStore} {t : Txid} {old new : TxStatus} {p : Panic}
    (h : st.updateTxStatus t old new = .error p) :
    st.transactions.lookup t = none ∧ p = Panic.missingTxEntry ∨
      ∃ e, st.transactions.lookup t = some e ∧
        (updateScriptHistories ⟨t, old⟩ ⟨t, new⟩ e.scripthashes st.scripthashes = .error p ∨
          (∃ m, updateScriptHistories ⟨t, old⟩ ⟨t, new⟩ e.scripthashes st.scripthashes = .ok m) ∧
          (old = .unconfirmed ∧ t ∉ st.mempool ∧ p = Panic.mempoolLeave ∨
            old ≠ .unconfirmed ∧ new = .unconfirmed ∧ t ∈ st.mempool ∧
              p = Panic.mempoolEnter)) := by
  simp only [updateTxStatus, bind_eq_error, expect_eq_error, expect_eq_ok] at h
  rcases h with h | ⟨e, he, h | ⟨m, hm, h⟩⟩
  · exact .inl h
  · exact .inr ⟨e, he, .inl h⟩
  refine .inr ⟨e, he, .inr ⟨⟨m, hm⟩, ?_⟩⟩
  split at h
  · simp only [bind_eq_error, assert_eq_error, pure_eq_ok, ok_ne_error, and_false, exists_false,
      or_false, Option.not_isSome, Option.isNone_iff_eq_none, AList.lookup_eq_none] at h
    exact .inl ⟨rfl, h⟩
  · simp only [bind_eq_error, assert_eq_error, pure_eq_ok, ok_ne_error, and_false, exists_false,
      or_false, Option.isNone_eq_false_iff, Option.isSome_iff_ne_none, ne_eq,
      AList.lookup_eq_none, not_not] at h
    exact .inr ⟨‹_›, rfl, h⟩
  · cases h

theorem upsertTx_error {st : MemoryStore} {t : Txid} {s : TxStatus} {p : Panic}
    (h : st.upsertTx t s = .error p) :
    st.transactions.lookup t = none ∧ s = .unconfirmed ∧ t ∈ st.mempool ∧
        p = Panic.newMempoolTx ∨
      ∃ e, st.transactions.lookup t = some e ∧ e.status ≠ s ∧
        ({ st with transactions := st.transactions.insert t { e with status := s } }).updateTxStatus
          t e.status s = .error p := by
  unfold upsertTx at h
  cases he : st.transactions.lookup t with
  | none =>
      simp only [he] at h
      split at h
      · simp only [bind_eq_error, assert_eq_error, pure_eq_ok, ok_ne_error, and_false, exists_false,
          or_false, Option.isNone_eq_false_iff, Option.isSome_iff_ne_none, ne_eq,
          AList.lookup_eq_none, not_not] at h
        exact .inl ⟨rfl, rfl, h⟩
      · cases h
  | some e =>
      simp only [he] at h
      split at h
      · cases h
      · simp only [bind_eq_error, pure_eq_ok, ok_ne_error, and_false, exists_false, or_false] at h
        exact .inr ⟨e, rfl, ‹_›, h⟩

theorem purgeTx_error {st : MemoryStore} {t : Txid} {p : Panic} (h : st.purgeTx t = .error p) :
    ∃ e, st.transactions.lookup t = some e ∧
      (e.status = .unconfirmed ∧ t ∉ st.mempool ∧ p = Panic.purgeMempool ∨
        purgeScriptHistories ⟨t, e.status⟩ e.scripthashes st.scripthashes = .error p ∨
        (∃ m, purgeScriptHistories ⟨t, e.status⟩ e.scripthashes st.scripthashes = .ok m) ∧
          purgeTxoSpends t (e.spending.entries.map (·.2.prevout)) st.txoSpends = .error p) := by
  unfold purgeTx at h
  cases he : st.transactions.lookup t with
  | none => simp [he] at h
  | some e =>
      refine ⟨e, rfl, ?_⟩
      by_cases hu : e.status = .unconfirmed
      · simp only [he, hu, TxStatus.isUnconfirmed, if_true, bind_eq_error, assert_eq_error,
          Option.not_isSome, Option.isNone_iff_eq_none, AList.lookup_eq_none, pure_eq_ok,
          ok_ne_error, Except.ok.injEq, exists_eq_left', and_false, exists_false, or_false,
          false_or] at h
        rcases h with h | ⟨-, -, h | ⟨m, hm, h⟩⟩
        · exact .inl ⟨hu, h⟩
        · exact .inr (.inl (hu ▸ h))
        · exact .inr (.inr ⟨⟨m, hu ▸ hm⟩, h⟩)
      · have hu' : e.status.isUnconfirmed = false :=
          Bool.eq_false_iff.mpr fun h => hu (TxStatus.isUnconfirmed_eq_true.mp h)
        simp only [he, hu', Bool.false_eq_true, if_false, bind_eq_error, pure_eq_ok,
          ok_ne_error, Except.ok.injEq, exists_eq_left', and_false, exists_false, or_false,
          false_or] at h
        rcases h with h | ⟨m, hm, h⟩
        · exact .inr (.inl h)
        · exact .inr (.inr ⟨⟨m, hm⟩, h⟩)

end MemoryStore

end Bwt.Store
