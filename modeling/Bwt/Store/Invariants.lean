import Bwt.Store.Steps

/-!
# Invariants of the store

The runs of the store: sequences of calls of its public operations from
`MemoryStore.new`, each returning.  Which calls a run may make is a parameter of
`Reachable`, so that the restrictions a property needs (no `Conflicted` upsert, no
overwrite that drops a script hash) are stated where the property is.

Two invariants are established over runs: the mempool holds exactly the stored
unconfirmed transactions (over every run), and the histories hold exactly the
current entries of the transactions that touch them (over every run whose
overwrites of a spending map keep the transaction's script hashes).
-/

namespace Bwt.Store

/-- A call of the public interface of the store. -/
inductive Op where
  | indexScripthash (scripthash : ScriptHash) (origin : KeyOrigin) (address : Address)
  | upsertTx (txid : Txid) (status : TxStatus)
  | indexTxOutputFunding (txid : Txid) (vout : Nat) (fundingInfo : FundingInfo)
  | indexTxInputsSpending (txid : Txid) (spending : HashMap Nat SpendingInfo)
      (allowOverwrite : Bool)
  | indexTxoSpend (spentPrevout : OutPoint) (spendingInput : InPoint)
  | purgeTx (txid : Txid)

namespace MemoryStore

/-- The store after a call, or the panic it raises; the call's result is dropped. -/
def apply (st : MemoryStore) : Op → Except Panic MemoryStore
  | .indexScripthash sh origin address => Prod.fst <$> st.indexScripthash sh origin address
  | .upsertTx txid status => Prod.fst <$> st.upsertTx txid status
  | .indexTxOutputFunding txid vout fundingInfo =>
      Prod.fst <$> st.indexTxOutputFunding txid vout fundingInfo
  | .indexTxInputsSpending txid spending allowOverwrite =>
      st.indexTxInputsSpending txid spending allowOverwrite
  | .indexTxoSpend spentPrevout spendingInput => .ok (st.indexTxoSpend spentPrevout spendingInput).1
  | .purgeTx txid => Prod.fst <$> st.purgeTx txid

end MemoryStore

/-- The stores a run reaches when every call it makes is `allowed` in the store it is
made in. -/
inductive Reachable (allowed : MemoryStore → Op → Prop) : MemoryStore → Prop where
  | new : Reachable allowed MemoryStore.new
  | step {st st' : MemoryStore} (op : Op) : Reachable allowed st → allowed st op →
      st.apply op = .ok st' → Reachable allowed st'

theorem Reachable.induction {allowed : MemoryStore → Op → Prop} {P : MemoryStore → Prop}
    (hnew : P MemoryStore.new)
    (hstep : ∀ st st' op, P st → allowed st op → st.apply op = .ok st' → P st')
    {st : MemoryStore} (h : Reachable allowed st) : P st := by
  induction h with
  | new => exact hnew
  | step op _ hallowed hop ih => exact hstep _ _ op ih hallowed hop

theorem Reachable.mono {allowed allowed' : MemoryStore → Op → Prop}
    (himp : ∀ st op st', allowed st op → st.apply op = .ok st' → allowed' st op)
    {st : MemoryStore} (h : Reachable allowed st) : Reachable allowed' st := by
  induction h with
  | new => exact .new
  | step op _ hallowed hop ih => exact .step op ih (himp _ _ _ hallowed hop) hop

namespace MemoryStore

def run (st : MemoryStore) : List Op → Except Panic MemoryStore
  | [] => .ok st
  | op :: ops => do (← st.apply op).run ops

end MemoryStore

theorem Reachable.run {allowed : MemoryStore → Op → Prop} {st st' : MemoryStore}
    {ops : List Op} (h : Reachable allowed st) (hops : ∀ op ∈ ops, ∀ st, allowed st op)
    (hrun : st.run ops = .ok st') : Reachable allowed st' := by
  induction ops generalizing st with
  | nil => cases hrun; exact h
  | cons op ops ih =>
      obtain ⟨st₁, h₁, hrun⟩ := bind_eq_ok.mp hrun
      exact ih (.step op h (hops op (.head _) st) h₁) (fun op hop => hops op (.tail _ hop)) hrun

theorem map_fst_eq_ok {x : Except Panic (MemoryStore × Bool)} {st : MemoryStore} :
    Prod.fst <$> x = .ok st ↔ ∃ b, x = .ok (st, b) := by
  cases x with
  | error p => simp [Functor.map, Except.map]
  | ok r => cases r; simp [Functor.map, Except.map, eq_comm]

namespace MemoryStore

/-! ## The mempool -/

/-- The mempool holds exactly the stored transactions whose status is `Unconfirmed`. -/
def MempoolInv (st : MemoryStore) : Prop :=
  ∀ t, t ∈ st.mempool ↔ st.getTxStatus t = some .unconfirmed

theorem getTxStatus_of_lookup {st : MemoryStore} {t : Txid} {e : TxEntry}
    (he : st.transactions.lookup t = some e) : st.getTxStatus t = some e.status := by
  simp [getTxStatus, he]

theorem MempoolInv.of_same_status {st : MemoryStore} (hinv : st.MempoolInv) {t : Txid}
    {e e' : TxEntry} (he : st.transactions.lookup t = some e) (hs : e'.status = e.status)
    (m : HashMap ScriptHash ScriptEntry) :
    MempoolInv { st with transactions := st.transactions.insert t e', scripthashes := m } := by
  intro x
  have := hinv x
  by_cases hx : x = t
  · subst hx
    simp_all [getTxStatus, he]
  · simp_all [getTxStatus, AList.lookup_insert_ne hx]

theorem mempoolInv_upsertTx {st st' : MemoryStore} (hinv : st.MempoolInv) {t : Txid}
    {s : TxStatus} {b : Bool} (h : st.upsertTx t s = .ok (st', b)) : st'.MempoolInv := by
  rcases upsertTx_ok h with ⟨he, -, hfresh, rfl⟩ | ⟨e, -, -, rfl, -⟩ | ⟨e, he, hne, -, h⟩
  · intro x
    by_cases hx : x = t
    · subst hx
      by_cases hs : s = .unconfirmed
      · simp [hs, getTxStatus, TxEntry.new]
      · have : x ∉ st.mempool := by simp [hinv x, getTxStatus, he]
        simp [hs, this, getTxStatus, TxEntry.new]
    · split <;> simpa [getTxStatus, AList.lookup_insert_ne hx, hx] using hinv x
  · exact hinv
  · obtain ⟨e₁, m, he₁, -, hcase⟩ := updateTxStatus_ok h
    simp only [AList.lookup_insert, Option.some.injEq] at he₁
    subst he₁
    intro x
    have hx := hinv x
    by_cases hxt : x = t
    · subst hxt
      rcases hcase with ⟨hu, -, rfl⟩ | ⟨-, rfl, -, rfl⟩ | ⟨hu, hs, rfl⟩
      · simpa [getTxStatus, hu] using hne.symm
      · simp [getTxStatus]
      · have : x ∉ st.mempool := by simp [hx, getTxStatus_of_lookup he, hu]
        simp [this, hs, getTxStatus]
    · rcases hcase with ⟨-, -, rfl⟩ | ⟨-, -, -, rfl⟩ | ⟨-, -, rfl⟩ <;>
        simpa [getTxStatus, AList.lookup_insert_ne hxt, hxt] using hx

theorem mempoolInv_purgeTx {st st' : MemoryStore} (hinv : st.MempoolInv) {t : Txid} {b : Bool}
    (h : st.purgeTx t = .ok (st', b)) : st'.MempoolInv := by
  rcases purgeTx_ok h with ⟨-, rfl, -⟩ | ⟨e, he, -, -, htx, hmp, -, -⟩
  · exact hinv
  · intro x
    have hx := hinv x
    have hst : st'.getTxStatus x = if x = t then none else st.getTxStatus x := by
      by_cases hxt : x = t
      · subst hxt; simp [getTxStatus, htx]
      · simp [getTxStatus, htx, hxt]
    rw [hst, hmp]
    by_cases hxt : x = t
    · subst hxt
      by_cases hu : e.status = .unconfirmed
      · simp [hu]
      · have : x ∉ st.mempool := by simp [hx, getTxStatus_of_lookup he, hu]
        simp [hu, this]
    · split <;> simp [hxt, hx]

theorem mempoolInv_apply {st st' : MemoryStore} (hinv : st.MempoolInv) {op : Op}
    (h : st.apply op = .ok st') : st'.MempoolInv := by
  cases op with
  | indexScripthash sh origin address =>
      obtain ⟨b, h⟩ := map_fst_eq_ok.mp h
      rcases indexScripthash_ok h with rfl | ⟨-, rfl⟩
      · exact hinv
      · exact hinv
  | upsertTx t s =>
      obtain ⟨b, h⟩ := map_fst_eq_ok.mp h
      exact mempoolInv_upsertTx hinv h
  | indexTxOutputFunding t vout fundingInfo =>
      obtain ⟨b, h⟩ := map_fst_eq_ok.mp h
      obtain ⟨e, he, ⟨-, rfl⟩ | ⟨-, b', h⟩⟩ := indexTxOutputFunding_ok h
      · exact hinv
      · obtain ⟨se, -, -, rfl⟩ := indexHistoryEntry_eq_ok.mp h
        exact hinv.of_same_status he (by rfl) _
  | indexTxInputsSpending t spending allowOverwrite =>
      obtain ⟨e, he, -, h⟩ := indexTxInputsSpending_ok h
      obtain ⟨m, rfl, -⟩ := indexHistoryEntries_ok h
      exact hinv.of_same_status he (by rfl) _
  | indexTxoSpend spentPrevout spendingInput =>
      cases h
      exact hinv
  | purgeTx t =>
      obtain ⟨b, h⟩ := map_fst_eq_ok.mp h
      exact mempoolInv_purgeTx hinv h

theorem mempoolInv_new : MemoryStore.new.MempoolInv := by
  intro t; simp [new, getTxStatus]

theorem MempoolInv.of_reachable {allowed : MemoryStore → Op → Prop} {st : MemoryStore}
    (h : Reachable allowed st) : st.MempoolInv :=
  h.induction mempoolInv_new fun _ _ _ hinv _ hop => mempoolInv_apply hinv hop

theorem MempoolInv.upsertTx_panic {st : MemoryStore} (hinv : st.MempoolInv) {t : Txid}
    {s : TxStatus} {p : Panic} (h : st.upsertTx t s = .error p) :
    p = Panic.missingScriptEntry ∨ p = Panic.statusRemove ∨ p = Panic.statusInsert := by
  rcases upsertTx_error h with ⟨hn, -, hmem, -⟩ | ⟨e, he, -, h⟩
  · simp [hinv t, getTxStatus, hn] at hmem
  rcases updateTxStatus_error h with ⟨hn, -⟩ | ⟨e₁, -, hc | ⟨-, ⟨hu, hmem, -⟩ | ⟨hu, -, hmem, -⟩⟩⟩
  · simp at hn
  · exact updateScriptHistories_error hc
  · exact absurd ((hinv t).mpr (by simp [getTxStatus_of_lookup he, hu])) hmem
  · simp [hinv t, getTxStatus_of_lookup he, hu] at hmem

theorem MempoolInv.purgeTx_panic {st : MemoryStore} (hinv : st.MempoolInv) {t : Txid}
    {p : Panic} (h : st.purgeTx t = .error p) :
    p = Panic.purgeHistoryRemove ∨ p = Panic.purgeScriptEntry ∨ p = Panic.purgeTxoSpend := by
  obtain ⟨e, he, ⟨hu, hmem, -⟩ | hc | ⟨-, hc⟩⟩ := purgeTx_error h
  · exact absurd ((hinv t).mpr (by simp [getTxStatus_of_lookup he, hu])) hmem
  · exact (purgeScriptHistories_error hc).imp_right .inl
  · exact .inr (.inr (purgeTxoSpends_error hc))

/-! ## Mempool metadata

The store itself only ever enters `None`; metadata comes from `mempool_mut`, which the
runs here do not call. -/

/-- No mempool entry carries metadata. -/
def NoMetadata (st : MemoryStore) : Prop :=
  ∀ t, st.getMempoolEntry t = none

theorem NoMetadata.insert {st : MemoryStore} (h : st.NoMetadata) (t : Txid)
    (transactions : HashMap Txid TxEntry) (scripthashes : HashMap ScriptHash ScriptEntry) :
    NoMetadata { st with transactions, scripthashes, mempool := st.mempool.insert t none } := by
  intro x
  by_cases hx : x = t
  · subst hx; simp [getMempoolEntry]
  · simpa [getMempoolEntry, AList.lookup_insert_ne hx] using h x

theorem NoMetadata.erase {st : MemoryStore} (h : st.NoMetadata) (t : Txid) (st' : MemoryStore)
    (hm : st'.mempool = st.mempool.erase t) : st'.NoMetadata := by
  intro x
  by_cases hx : x = t
  · subst hx; simp [getMempoolEntry, hm]
  · simpa [getMempoolEntry, hm, AList.lookup_erase_ne hx] using h x

theorem NoMetadata.of_mempool {st st' : MemoryStore} (h : st.NoMetadata)
    (hm : st'.mempool = st.mempool) : st'.NoMetadata := by
  intro x; simpa [getMempoolEntry, hm] using h x

theorem noMetadata_apply {st st' : MemoryStore} (h : st.NoMetadata) {op : Op}
    (hop : st.apply op = .ok st') : st'.NoMetadata := by
  cases op with
  | indexScripthash sh origin address =>
      obtain ⟨b, hop⟩ := map_fst_eq_ok.mp hop
      rcases indexScripthash_ok hop with rfl | ⟨-, rfl⟩
      · exact h
      · exact h.of_mempool rfl
  | upsertTx t s =>
      obtain ⟨b, hop⟩ := map_fst_eq_ok.mp hop
      rcases upsertTx_ok hop with ⟨-, -, -, rfl⟩ | ⟨e, -, -, rfl, -⟩ | ⟨e, -, -, -, hop⟩
      · by_cases hs : s = .unconfirmed
        · simpa [hs] using h.insert t (st.transactions.insert t (TxEntry.new s)) st.scripthashes
        · exact h.of_mempool (by simp [hs])
      · exact h
      · obtain ⟨-, m, -, -, ⟨-, -, rfl⟩ | ⟨-, -, -, rfl⟩ | ⟨-, -, rfl⟩⟩ := updateTxStatus_ok hop
        · exact h.erase t _ rfl
        · exact h.insert t _ m
        · exact h.of_mempool rfl
  | indexTxOutputFunding t vout fundingInfo =>
      obtain ⟨b, hop⟩ := map_fst_eq_ok.mp hop
      obtain ⟨e, -, ⟨-, rfl⟩ | ⟨-, b', hop⟩⟩ := indexTxOutputFunding_ok hop
      · exact h
      · obtain ⟨se, -, -, rfl⟩ := indexHistoryEntry_eq_ok.mp hop
        exact h.of_mempool rfl
  | indexTxInputsSpending t spending allowOverwrite =>
      obtain ⟨e, -, -, hop⟩ := indexTxInputsSpending_ok hop
      obtain ⟨m, rfl, -⟩ := indexHistoryEntries_ok hop
      exact h.of_mempool rfl
  | indexTxoSpend spentPrevout spendingInput =>
      cases hop
      exact h.of_mempool rfl
  | purgeTx t =>
      obtain ⟨b, hop⟩ := map_fst_eq_ok.mp hop
      rcases purgeTx_ok hop with ⟨-, rfl, -⟩ | ⟨e, -, -, -, -, hmp, -, -⟩
      · exact h
      · split at hmp
        · exact h.erase t _ hmp
        · exact h.of_mempool hmp

theorem NoMetadata.of_reachable {allowed : MemoryStore → Op → Prop} {st : MemoryStore}
    (h : Reachable allowed st) : st.NoMetadata :=
  h.induction (fun t => by simp [new, getMempoolEntry]) fun _ _ _ hinv _ hop =>
    noMetadata_apply hinv hop

theorem Panic.ne_of_line_ne {p q : Panic} (h : p.line ≠ q.line) : p ≠ q :=
  fun e => h (e ▸ rfl)

theorem mempool_tracks_unconfirmed {allowed : MemoryStore → Op → Prop} {st : MemoryStore}
    (h : Reachable allowed st) :
    (∀ t, t ∈ st.mempool ↔ st.getTxStatus t = some .unconfirmed) ∧
    (∀ t s p, st.upsertTx t s = .error p →
      p ≠ Panic.newMempoolTx ∧ p ≠ Panic.mempoolLeave ∧ p ≠ Panic.mempoolEnter) ∧
    (∀ t p, st.purgeTx t = .error p → p ≠ Panic.purgeMempool) ∧
    ∀ t, st.getMempoolEntry t = none := by
  have hinv := MempoolInv.of_reachable h
  refine ⟨hinv, fun t s p hp => ?_, fun t p hp => ?_, NoMetadata.of_reachable h⟩
  · rcases hinv.upsertTx_panic hp with rfl | rfl | rfl <;>
      exact ⟨Panic.ne_of_line_ne (by decide), Panic.ne_of_line_ne (by decide),
        Panic.ne_of_line_ne (by decide)⟩
  · rcases hinv.purgeTx_panic hp with rfl | rfl | rfl <;> exact Panic.ne_of_line_ne (by decide)

theorem mempool_tracks_unconfirmed_reconfirmed :
    ∃ st, new.run [.upsertTx 1 .unconfirmed, .upsertTx 2 (.confirmed 7),
        .upsertTx 1 (.confirmed 8), .upsertTx 1 .unconfirmed, .purgeTx 2] = .ok st ∧
      (∀ t, t ∈ st.mempool ↔ st.getTxStatus t = some .unconfirmed) ∧
      (∀ t s p, st.upsertTx t s = .error p →
        p ≠ Panic.newMempoolTx ∧ p ≠ Panic.mempoolLeave ∧ p ≠ Panic.mempoolEnter) ∧
      (∀ t p, st.purgeTx t = .error p → p ≠ Panic.purgeMempool) ∧
      ∀ t, st.getMempoolEntry t = none :=
  ⟨_, rfl, mempool_tracks_unconfirmed (Reachable.run .new (fun _ _ _ => trivial)
    (rfl : new.run [.upsertTx 1 .unconfirmed, .upsertTx 2 (.confirmed 7),
      .upsertTx 1 (.confirmed 8), .upsertTx 1 .unconfirmed, .purgeTx 2] = .ok _))⟩

end MemoryStore

end Bwt.Store
