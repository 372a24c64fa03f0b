import Bwt.Status
import Bwt.BTreeSet

/-!
# The index of `addrman.rs`

The older index of the crate: script hashes with their histories, and transactions with
their status and fee, filled from the records of the node's `listtransactions` and
`gettransaction`.  Its `HistoryEntry` order compares the status alone, so a history
keeps one entry per status: a second transaction of an address with the status of one
already there is dropped, and a status change or a purge of one transaction takes the
entry of whichever transaction has the old status.

The entries that remain are sound all the same: each names a stored transaction with
its stored status, so `AddrManager::get_history` never fails with "missing tx".

Hashing an address to its script hash and the category filter of the node's records
live outside the source; they are parameters here.
-/

namespace Bwt.AddrMan

open Batteries

abbrev Address := String

structure HistoryEntry where
  txid : Txid
  status : TxStatus
  deriving DecidableEq, Repr

namespace HistoryEntry

/-- `impl Ord for HistoryEntry` of `addrman.rs`: the status alone. -/
def cmp (a b : HistoryEntry) : Ordering :=
  a.status.cmp b.status

instance : TransCmp cmp := inferInstanceAs (TransCmp (compareOn status))

end HistoryEntry

abbrev History := BTreeSet HistoryEntry HistoryEntry.cmp

structure TxEntry where
  status : TxStatus
  fee : Option Nat
  deriving DecidableEq, Repr

structure ScriptEntry where
  address : Address
  history : History

structure Index where
  scripthashes : HashMap ScriptHash ScriptEntry
  transactions : HashMap Txid TxEntry

/-- Modelled from the spec: the record of the node's `listtransactions`
(`crate::json::ListTransactionsResult`).  Its fee is an `f64` amount of bitcoin, negative
for a send. -/
structure ListTransactionsResult where
  txid : Txid
  address : Address
  category : String
  confirmations : Int
  fee : Option Float
  deriving Repr

/-- Modelled from the spec: one detail of the node's `gettransaction`. -/
structure GetTransactionDetail where
  address : Address
  category : String
  deriving DecidableEq, Repr

/-- Modelled from the spec: the record of the node's `gettransaction`. -/
structure GetTransactionResult where
  txid : Txid
  confirmations : Int
  fee : Option Float
  details : List GetTransactionDetail

/-- Modelled from the spec: a row of the node's `listunspent`
(`bitcoincore_rpc::json::ListUnspentResult`), its amount in satoshis. -/
structure ListUnspentResult where
  txid : Txid
  vout : Nat
  confirmations : Int
  amount : Int
  deriving DecidableEq, Repr

structure Utxo where
  status : TxStatus
  txid : Txid
  vout : Nat
  value : Nat
  deriving DecidableEq, Repr

/-- `parse_fee`: `(fee * -1.0 * 100_000_000.0) as u64` in `f64` arithmetic; Rust's `as`
truncates towards zero and saturates, taking a negative amount or a NaN to zero, as
`Float.toUInt64` does. -/
def parseFee (fee : Option Float) : Option Nat :=
  fee.map fun fee => (fee * -1.0 * 100000000.0).toUInt64.toNat

def Panic.nonViableEntry : Panic :=
  ⟨"addrman.rs", 246, "should not index non-viable tx entries"⟩

namespace Index

def new : Index := ⟨∅, ∅⟩

/-- The loop of `update_tx_status`: every history that gives up an entry of the old
status takes the new entry. -/
def updateHistory (oldTxhist newTxhist : HistoryEntry) (se : ScriptEntry) : ScriptEntry :=
  let removed := se.history.remove oldTxhist
  if removed.1 then { se with history := (removed.2.insert newTxhist).2 }
  else { se with history := removed.2 }

def updateTxStatus (idx : Index) (txid : Txid) (oldStatus newStatus : TxStatus) : Index :=
  if oldStatus = newStatus then idx
  else
    { idx with
      scripthashes := filterMapVal
        (fun se => some (updateHistory ⟨txid, oldStatus⟩ ⟨txid, newStatus⟩ se)) idx.scripthashes }

def indexTxEntry (idx : Index) (txid : Txid) (txentry : TxEntry) : Except Panic Index := do
  assert txentry.status.isViable Panic.nonViableEntry
  match idx.transactions.lookup txid with
  | some currEntry =>
      let fee := if currEntry.fee.isNone && txentry.fee.isSome then txentry.fee else currEntry.fee
      let currEntry' : TxEntry := { currEntry with fee, status := txentry.status }
      let idx' := { idx with transactions := idx.transactions.insert txid currEntry' }
      if currEntry.status ≠ txentry.status then
        pure (idx'.updateTxStatus txid currEntry.status txentry.status)
      else pure idx'
  | none => pure { idx with transactions := idx.transactions.insert txid txentry }

def indexAddressHistory (addressToScripthash : Address → ScriptHash) (idx : Index)
    (address : Address) (txhist : HistoryEntry) : Index :=
  let scripthash := addressToScripthash address
  let scriptEntry := (idx.scripthashes.lookup scripthash).getD ⟨address, .empty⟩
  let scriptEntry' := { scriptEntry with history := (scriptEntry.history.insert txhist).2 }
  { idx with scripthashes := idx.scripthashes.insert scripthash scriptEntry' }

/-- What the retain of `purge_tx` leaves of one script entry. -/
def purgedEntry (oldTxhist : HistoryEntry) (se : ScriptEntry) : Option ScriptEntry :=
  let history := (se.history.remove oldTxhist).2
  if history.len > 0 then some { se with history } else none

def purgeTx (idx : Index) (txid : Txid) : Index :=
  match idx.transactions.lookup txid with
  | none => idx
  | some oldEntry =>
      { scripthashes := filterMapVal (purgedEntry ⟨txid, oldEntry.status⟩) idx.scripthashes
        transactions := idx.transactions.erase txid }

section Process

variable (addressToScripthash : Address → ScriptHash) (shouldProcess : String → Bool)

def processLtx (idx : Index) (ltx : ListTransactionsResult) (tipHeight : Nat) :
    Except Panic Index :=
  if !shouldProcess ltx.category then .ok idx
  else
    let status := TxStatus.new ltx.confirmations tipHeight
    if !status.isViable then .ok (idx.purgeTx ltx.txid)
    else do
      let idx ← idx.indexTxEntry ltx.txid ⟨status, parseFee ltx.fee⟩
      pure (idx.indexAddressHistory addressToScripthash ltx.address ⟨ltx.txid, status⟩)

def processGtx (idx : Index) (gtx : GetTransactionResult) (tipHeight : Nat) :
    Except Panic Index :=
  let status := TxStatus.new gtx.confirmations tipHeight
  if !status.isViable then .ok (idx.purgeTx gtx.txid)
  else do
    let idx ← idx.indexTxEntry gtx.txid ⟨status, parseFee gtx.fee⟩
    pure ((gtx.details.filter (shouldProcess ·.category)).foldl
      (fun idx detail => idx.indexAddressHistory addressToScripthash detail.address
        ⟨gtx.txid, status⟩) idx)

/-- A record of the node handed to the index, with the tip height it was read at. -/
inductive Call where
  | ltx (ltx : ListTransactionsResult) (tipHeight : Nat)
  | gtx (gtx : GetTransactionResult) (tipHeight : Nat)

def apply (idx : Index) : Call → Except Panic Index
  | .ltx ltx tipHeight => idx.processLtx addressToScripthash shouldProcess ltx tipHeight
  | .gtx gtx tipHeight => idx.processGtx addressToScripthash shouldProcess gtx tipHeight

def run (idx : Index) : List Call → Except Panic Index
  | [] => .ok idx
  | call :: calls => do (← idx.apply addressToScripthash shouldProcess call).run calls

end Process

def getHistory (idx : Index) (scripthash : ScriptHash) : Option History :=
  (idx.scripthashes.lookup scripthash).map (·.history)

def getAddress (idx : Index) (scripthash : ScriptHash) : Option Address :=
  (idx.scripthashes.lookup scripthash).map (·.address)

def getTx (idx : Index) (txid : Txid) : Option TxEntry :=
  idx.transactions.lookup txid

end Index

/-- `AddrManager::get_history`: the history's entries with their transactions. -/
def getHistory (idx : Index) (scripthash : ScriptHash) : Except String (List (Txid × TxEntry)) :=
  (((idx.getHistory scripthash).getD .empty).toList).mapM fun hist =>
    match idx.getTx hist.txid with
    | some entry => .ok (hist.txid, entry)
    | none => .error "missing tx"

end Bwt.AddrMan
