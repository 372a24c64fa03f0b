import Bwt.Status
import Bwt.BTreeSet
import Mathlib.Data.List.Destutter
import Mathlib.Data.List.Dedup

/-!
# The memory store

`store.rs`, built with the `track-spends` feature: the history of every watched
script hash, the transactions that touch them with the outputs they fund and the
inputs they spend, the mempool, and the spend edge of every spent output.  Without
the feature `txo_spends`, `index_txo_spend` and the last loop of `purge_tx` are
absent and nothing else changes.

A script hash's history is ordered by status and then by txid.  The status is
`crate::types::TxStatus`, whose order is not in the source; it is modelled from the spec.
The store derives the script hashes of a transaction from its funding and spending maps
(`TxEntry.scripthashes`) and keeps no reverse index.
-/

namespace Bwt.Store

open Batteries

/-- Modelled from the spec: the order of `crate::types::TxStatus`, the status `store.rs`
uses, is not in the source.  The history order of the spec's examples lists confirmed
entries by height and unconfirmed ones after them, as the reverse walk of
`get_history_since` needs; a conflicted status sorts lowest.  (The spec's data model puts
unconfirmed below confirmed, against both.) -/
def statusCmp : TxStatus → TxStatus → Ordering
  | .confirmed height, .confirmed otherHeight => compare height otherHeight
  | .confirmed _, .unconfirmed => .lt
  | .confirmed _, .conflicted => .gt
  | .unconfirmed, .unconfirmed => .eq
  | .unconfirmed, _ => .gt
  | .conflicted, .conflicted => .eq
  | .conflicted, _ => .lt

theorem statusCmp_eq_eq {s s' : TxStatus} : statusCmp s s' = .eq ↔ s = s' := by
  cases s <;> cases s' <;> simp [statusCmp, Nat.compare_eq_eq]

instance : TransCmp statusCmp where
  symm s s' := by
    cases s <;> cases s' <;> simp only [statusCmp] <;>
      first
        | rfl
        | exact @OrientedCmp.symm _ (compare : Nat → Nat → Ordering) _ _ _
  le_trans {s s' s''} := by
    cases s <;> cases s' <;> cases s'' <;> simp only [statusCmp] <;>
      first
        | decide
        | exact @TransCmp.le_trans _ (compare : Nat → Nat → Ordering) _ _ _ _
        | simp

structure HistoryEntry where
  txid : Txid
  status : TxStatus
  deriving DecidableEq, Repr

namespace HistoryEntry

/-- `impl Ord for HistoryEntry`: by status, then by txid. -/
def cmp (a b : HistoryEntry) : Ordering :=
  (statusCmp a.status b.status).then (compare a.txid b.txid)

def partialCmp (a b : HistoryEntry) : Option Ordering := some (a.cmp b)

theorem cmp_eq_eq {a b : HistoryEntry} : a.cmp b = .eq ↔ a = b := by
  cases a; cases b
  simp [cmp, Ordering.then_eq_eq, statusCmp_eq_eq, Nat.compare_eq_eq, and_comm]

instance : TransCmp cmp :=
  inferInstanceAs (TransCmp (compareLex (Ordering.byKey status statusCmp) (compareOn txid)))

end HistoryEntry

abbrev History := BTreeSet HistoryEntry HistoryEntry.cmp

structure FundingInfo where
  scripthash : ScriptHash
  value : Nat
  deriving DecidableEq, Repr

structure OutPoint where
  txid : Txid
  vout : Nat
  deriving DecidableEq, Repr

/-- Modelled from the spec: `crate::types::InPoint` is not in the source; it names one
input of one transaction. -/
structure InPoint where
  txid : Txid
  vin : Nat
  deriving DecidableEq, Repr

structure SpendingInfo where
  scripthash : ScriptHash
  prevout : OutPoint
  value : Nat
  deriving DecidableEq, Repr

structure TxEntry where
  status : TxStatus
  funding : HashMap Nat FundingInfo
  spending : HashMap Nat SpendingInfo
  deriving DecidableEq

namespace TxEntry

def new (status : TxStatus) : TxEntry := ⟨status, ∅, ∅⟩

/-- The script hashes a transaction funds or spends from, each once. -/
def scripthashes (e : TxEntry) : List ScriptHash :=
  (e.funding.entries.map (·.2.scripthash) ++ e.spending.entries.map (·.2.scripthash)).dedup

theorem scripthashes_nodup (e : TxEntry) : e.scripthashes.Nodup := List.nodup_dedup _

end TxEntry

/-- Modelled from the spec: `crate::wallet::KeyOrigin` is not in the source; a script
is either derived from a wallet's key at an index or imported on its own. -/
inductive KeyOrigin where
  | derived (wallet : Nat) (index : Nat)
  | standalone
  deriving DecidableEq, Repr

abbrev Address := String

structure ScriptEntry where
  address : Address
  origin : KeyOrigin
  history : History
  deriving DecidableEq

/-- Modelled from the spec: the node's mempool metadata (`crate::types::MempoolEntry`).
The store only ever stores `None` for it, so its fields are left out. -/
structure MempoolEntry where
  deriving DecidableEq, Repr

structure MemoryStore where
  scripthashes : HashMap ScriptHash ScriptEntry
  transactions : HashMap Txid TxEntry
  mempool : HashMap Txid (Option MempoolEntry)
  txoSpends : HashMap OutPoint InPoint
  deriving DecidableEq

/-! ## Panics -/

namespace Panic

def storedOrigin : Panic := ⟨"store.rs", 95, "unexpected stored origin"⟩
def newMempoolTx : Panic :=
  ⟨"store.rs", 148, "assertion failed: self.mempool.insert(*txid, None).is_none()"⟩
def fundingTxEntry : Panic := ⟨"store.rs", 170, "called `Option::unwrap()` on a `None` value"⟩
def spendingTxEntry : Panic := ⟨"store.rs", 198, "called `Option::unwrap()` on a `None` value"⟩
def spendingOverwrite : Panic :=
  ⟨"store.rs", 199, "assertion failed: allow_overwrite || tx_entry.spending.is_empty()"⟩
def missingScripthashEntry : Panic := ⟨"store.rs", 223, "missing expected scripthash entry"⟩
def missingTxEntry : Panic := ⟨"store.rs", 266, "missing expected tx entry"⟩
def missingScriptEntry : Panic := ⟨"store.rs", 275, "missing expected script entry"⟩
def statusRemove : Panic :=
  ⟨"store.rs", 276, "assertion failed: scriptentry.history.remove(&old_txhist)"⟩
def statusInsert : Panic :=
  ⟨"store.rs", 277, "assertion failed: scriptentry.history.insert(new_txhist.clone())"⟩
def mempoolLeave : Panic :=
  ⟨"store.rs", 281, "assertion failed: self.mempool.remove(txid).is_some()"⟩
def mempoolEnter : Panic :=
  ⟨"store.rs", 282, "assertion failed: self.mempool.insert(*txid, None).is_none()"⟩
def purgeMempool : Panic :=
  ⟨"store.rs", 293, "assertion failed: self.mempool.remove(txid).is_some()"⟩
def purgeHistoryRemove : Panic :=
  ⟨"store.rs", 304, "assertion failed: script_entry.history.remove(&old_txhist)"⟩
def purgeScriptEntry : Panic := ⟨"store.rs", 307, "assertion failed: had_entry"⟩
def purgeTxoSpend : Panic := ⟨"store.rs", 316, "assertion failed: had_entry"⟩
def conflictedHistory : Panic := ⟨"store.rs", 398, "internal error: entered unreachable code"⟩

end Panic

/-! ## Operations -/

namespace MemoryStore

def new : MemoryStore := ⟨∅, ∅, ∅, ∅⟩

def indexScripthash (st : MemoryStore) (scripthash : ScriptHash) (origin : KeyOrigin)
    (address : Address) : Except Panic (MemoryStore × Bool) :=
  match st.scripthashes.lookup scripthash with
  | some currEntry => do
      assert (currEntry.origin = origin) Panic.storedOrigin
      pure (st, false)
  | none =>
      let scriptEntry : ScriptEntry := ⟨address, origin, .empty⟩
      pure ({ st with scripthashes := st.scripthashes.insert scripthash scriptEntry }, true)

/-- The loop of `update_tx_status`: the entry of the old status gives way to the new one. -/
def updateScriptHistories (oldTxhist newTxhist : HistoryEntry) :
    List ScriptHash → HashMap ScriptHash ScriptEntry →
      Except Panic (HashMap ScriptHash ScriptEntry)
  | [], scripthashes => .ok scripthashes
  | scripthash :: rest, scripthashes => do
      let scriptentry ← expect (scripthashes.lookup scripthash) Panic.missingScriptEntry
      let removed := scriptentry.history.remove oldTxhist
      assert removed.1 Panic.statusRemove
      let inserted := removed.2.insert newTxhist
      assert inserted.1 Panic.statusInsert
      updateScriptHistories oldTxhist newTxhist rest
        (scripthashes.insert scripthash { scriptentry with history := inserted.2 })

def updateTxStatus (st : MemoryStore) (txid : Txid) (oldStatus newStatus : TxStatus) :
    Except Panic MemoryStore := do
  let txEntry ← expect (st.transactions.lookup txid) Panic.missingTxEntry
  let scripthashes ← updateScriptHistories ⟨txid, oldStatus⟩ ⟨txid, newStatus⟩
    txEntry.scripthashes st.scripthashes
  match oldStatus, newStatus with
  | .unconfirmed, _ => do
      assert (st.mempool.lookup txid).isSome Panic.mempoolLeave
      pure { st with scripthashes, mempool := st.mempool.erase txid }
  | _, .unconfirmed => do
      assert (st.mempool.lookup txid).isNone Panic.mempoolEnter
      pure { st with scripthashes, mempool := st.mempool.insert txid none }
  | _, _ => pure { st with scripthashes }

def upsertTx (st : MemoryStore) (txid : Txid) (status : TxStatus) :
    Except Panic (MemoryStore × Bool) :=
  match st.transactions.lookup txid with
  | some currEntry =>
      if currEntry.status = status then .ok (st, false)
      else do
        let st' ← updateTxStatus
          { st with transactions := st.transactions.insert txid { currEntry with status } }
          txid currEntry.status status
        pure (st', true)
  | none =>
      let st := { st with transactions := st.transactions.insert txid (TxEntry.new status) }
      match status with
      | .unconfirmed => do
          assert (st.mempool.lookup txid).isNone Panic.newMempoolTx
          pure ({ st with mempool := st.mempool.insert txid none }, true)
      | _ => .ok (st, true)

def indexHistoryEntry (st : MemoryStore) (scripthash : ScriptHash) (txhist : HistoryEntry) :
    Except Panic (MemoryStore × Bool) := do
  let scriptEntry ← expect (st.scripthashes.lookup scripthash) Panic.missingScripthashEntry
  let added := scriptEntry.history.insert txhist
  pure ({ st with scripthashes :=
    st.scripthashes.insert scripthash { scriptEntry with history := added.2 } }, added.1)

/-- The loop of `index_tx_inputs_spending`. -/
def indexHistoryEntries (st : MemoryStore) (txhist : HistoryEntry) :
    List ScriptHash → Except Panic MemoryStore
  | [] => .ok st
  | scripthash :: rest => do
      let (st, _) ← st.indexHistoryEntry scripthash txhist
      st.indexHistoryEntries txhist rest

def indexTxOutputFunding (st : MemoryStore) (txid : Txid) (vout : Nat)
    (fundingInfo : FundingInfo) : Except Panic (MemoryStore × Bool) := do
  let txEntry ← expect (st.transactions.lookup txid) Panic.fundingTxEntry
  match txEntry.funding.lookup vout with
  | some _ => .ok (st, false)
  | none => do
      let txEntry' := { txEntry with funding := txEntry.funding.insert vout fundingInfo }
      let st := { st with transactions := st.transactions.insert txid txEntry' }
      let (st, _) ← st.indexHistoryEntry fundingInfo.scripthash ⟨txid, txEntry.status⟩
      pure (st, true)

def indexTxInputsSpending (st : MemoryStore) (txid : Txid) (spending : HashMap Nat SpendingInfo)
    (allowOverwrite : Bool) : Except Panic MemoryStore := do
  let txEntry ← expect (st.transactions.lookup txid) Panic.spendingTxEntry
  assert (allowOverwrite || txEntry.spending.entries.isEmpty) Panic.spendingOverwrite
  let txEntry := { txEntry with spending }
  let st := { st with transactions := st.transactions.insert txid txEntry }
  st.indexHistoryEntries ⟨txid, txEntry.status⟩ txEntry.scripthashes

def indexTxoSpend (st : MemoryStore) (spentPrevout : OutPoint) (spendingInput : InPoint) :
    MemoryStore × Bool :=
  ({ st with txoSpends := st.txoSpends.insert spentPrevout spendingInput },
    (st.txoSpends.lookup spentPrevout).isNone)

/-- The first loop of `purge_tx`: a script entry whose history empties is removed. -/
def purgeScriptHistories (oldTxhist : HistoryEntry) :
    List ScriptHash → HashMap ScriptHash ScriptEntry →
      Except Panic (HashMap ScriptHash ScriptEntry)
  | [], scripthashes => .ok scripthashes
  | scripthash :: rest, scripthashes => do
      let (hadEntry, scripthashes) ← removeIf scripthashes scripthash fun scriptEntry => do
        let removed := scriptEntry.history.remove oldTxhist
        assert removed.1 Panic.purgeHistoryRemove
        pure (removed.2.isEmpty, { scriptEntry with history := removed.2 })
      assert hadEntry Panic.purgeScriptEntry
      purgeScriptHistories oldTxhist rest scripthashes

/-- The second loop of `purge_tx`: spend edges that still name the purged transaction go. -/
def purgeTxoSpends (txid : Txid) :
    List OutPoint → HashMap OutPoint InPoint → Except Panic (HashMap OutPoint InPoint)
  | [], txoSpends => .ok txoSpends
  | prevout :: rest, txoSpends => do
      let (hadEntry, txoSpends) ← removeIf txoSpends prevout fun spendingInput =>
        pure (spendingInput.txid = txid, spendingInput)
      assert hadEntry Panic.purgeTxoSpend
      purgeTxoSpends txid rest txoSpends

def purgeTx (st : MemoryStore) (txid : Txid) : Except Panic (MemoryStore × Bool) :=
  match st.transactions.lookup txid with
  | none => .ok (st, false)
  | some oldEntry => do
      let mempool ← if oldEntry.status.isUnconfirmed then do
          assert (st.mempool.lookup txid).isSome Panic.purgeMempool
          pure (st.mempool.erase txid)
        else pure st.mempool
      let scripthashes ← purgeScriptHistories ⟨txid, oldEntry.status⟩ oldEntry.scripthashes
        st.scripthashes
      let txoSpends ← purgeTxoSpends txid (oldEntry.spending.entries.map (·.2.prevout))
        st.txoSpends
      pure (⟨scripthashes, st.transactions.erase txid, mempool, txoSpends⟩, true)

/-! ## Reads -/

def getMempoolEntry (st : MemoryStore) (txid : Txid) : Option MempoolEntry :=
  (st.mempool.lookup txid).bind id

def lookupTxoFund (st : MemoryStore) (outpoint : OutPoint) : Option FundingInfo :=
  (st.transactions.lookup outpoint.txid).bind (·.funding.lookup outpoint.vout)

def lookupTxoSpend (st : MemoryStore) (outpoint : OutPoint) : Option InPoint :=
  st.txoSpends.lookup outpoint

def getHistory (st : MemoryStore) (scripthash : ScriptHash) : Option History :=
  (st.scripthashes.lookup scripthash).map (·.history)

def hasHistory (st : MemoryStore) (scripthash : ScriptHash) : Bool :=
  (st.scripthashes.lookup scripthash).isSome

def getTxCount (st : MemoryStore) (scripthash : ScriptHash) : Nat :=
  ((st.scripthashes.lookup scripthash).map (·.history.len)).getD 0

def getTxEntry (st : MemoryStore) (txid : Txid) : Option TxEntry :=
  st.transactions.lookup txid

def getTxStatus (st : MemoryStore) (txid : Txid) : Option TxStatus :=
  (st.transactions.lookup txid).map (·.status)

def getScriptAddress (st : MemoryStore) (scripthash : ScriptHash) : Option Address :=
  (st.scripthashes.lookup scripthash).map (·.address)

/-- The `take_while` of `get_history_since` over one history, newest first. -/
def takeSince (minBlockHeight : Nat) : List HistoryEntry → Except Panic (List HistoryEntry)
  | [] => .ok []
  | txhist :: rest =>
      match txhist.status with
      | .confirmed blockHeight =>
          if blockHeight ≥ minBlockHeight then (txhist :: ·) <$> takeSince minBlockHeight rest
          else .ok []
      | .unconfirmed => (txhist :: ·) <$> takeSince minBlockHeight rest
      | .conflicted => .error Panic.conflictedHistory

/-- `sort_unstable` then `dedup`: the entries in ascending order, repeats dropped. -/
def sortDedup (entries : List HistoryEntry) : List HistoryEntry :=
  (entries.insertionSort fun a b => a.cmp b ≠ .gt).destutter (· ≠ ·)

def getHistorySince (st : MemoryStore) (minBlockHeight : Nat) :
    Except Panic (List HistoryEntry) := do
  let entries ← st.scripthashes.entries.mapM fun e =>
    takeSince minBlockHeight e.2.history.toList.reverse
  pure (sortDedup entries.flatten)

def stats (st : MemoryStore) : Nat × Nat :=
  (st.transactions.entries.length, st.scripthashes.entries.length)

end MemoryStore

end Bwt.Store
