import Bwt.AddrMan.Manager

/-!
# The index mirrors the wallet

Whatever the histories do, the transaction table of the index is a record of the calls
kept transaction by transaction: the entry of a transaction depends only on the calls that
name it.  A call that reaches the table stores the transaction with the status its
confirmations give at the call's tip when that status is viable, and purges it otherwise;
so the status is the last such call's, and the fee is the first one recorded since the
transaction was last stored.

`update_transactions` on a node that stands still, with a feed of 25 rows or more, hands
the 25 newest rows to `process_ltx` at the tip it read and returns.  When the rows of one
transaction agree on its confirmations, as the rows of one transaction of a node do, the
index afterwards stores the transactions of those rows that are processed and whose status
is viable, each with that status, drops those whose status is not, and keeps the others as
they were.
-/

namespace Bwt.AddrMan

namespace Index

/-! ## One transaction's view of the calls -/

def Call.txid : Call → Txid
  | .ltx record _ => record.txid
  | .gtx record _ => record.txid

/-- The entry a call hands `index_tx_entry`, its status and fee, or `none` when the call does
not reach the transaction table: a `listtransactions` record of a category not processed. -/
def Call.record (shouldProcess : String → Bool) : Call → Option TxEntry
  | .ltx record tipHeight =>
      if shouldProcess record.category then
        some ⟨TxStatus.new record.confirmations tipHeight, parseFee record.fee⟩
      else none
  | .gtx record tipHeight =>
      some ⟨TxStatus.new record.confirmations tipHeight, parseFee record.fee⟩

/-- What a call leaves of the entry of transaction `t`: a record with a viable status
stores that status and keeps a fee already recorded, one without purges the transaction. -/
def Call.entryAfter (shouldProcess : String → Bool) (t : Txid) (entry : Option TxEntry)
    (call : Call) : Option TxEntry :=
  if call.txid ≠ t then entry
  else
    match call.record shouldProcess with
    | none => entry
    | some r => if r.status.isViable then some ⟨r.status, (entry.bind (·.fee)).or r.fee⟩ else none

section Fold

variable {shouldProcess : String → Bool} {t : Txid}

theorem foldl_entryAfter_of_inactive {calls : List Call}
    (h : ∀ call ∈ calls, call.txid = t → call.record shouldProcess = none) (entry : Option TxEntry) :
    calls.foldl (Call.entryAfter shouldProcess t) entry = entry := by
  induction calls generalizing entry with
  | nil => rfl
  | cons call calls ih =>
      rw [List.foldl_cons, ih fun c hc => h c (.tail _ hc)]
      by_cases ht : call.txid = t
      · simp [Call.entryAfter, ht, h call (.head _) ht]
      · simp [Call.entryAfter, ht]

theorem foldl_entryAfter_status {calls : List Call} (s : TxStatus)
    (hsame : ∀ call ∈ calls, call.txid = t → ∀ r, call.record shouldProcess = some r →
      r.status = s)
    (hsome : ∃ call ∈ calls, call.txid = t ∧ (call.record shouldProcess).isSome)
    (entry : Option TxEntry) :
    (calls.foldl (Call.entryAfter shouldProcess t) entry).map (·.status) =
      if s.isViable then some s else none := by
  induction calls generalizing entry with
  | nil => simp at hsome
  | cons call calls ih =>
      rw [List.foldl_cons]
      have hsame' := fun c hc => hsame c (.tail _ hc)
      by_cases hrest : ∃ c ∈ calls, c.txid = t ∧ (c.record shouldProcess).isSome
      · exact ih hsame' hrest _
      · have hnone : ∀ c ∈ calls, c.txid = t → c.record shouldProcess = none := fun c hc hct =>
          Option.not_isSome_iff_eq_none.mp fun h => hrest ⟨c, hc, hct, h⟩
        rw [foldl_entryAfter_of_inactive hnone]
        obtain ⟨c, hc, hct, hcs⟩ := hsome
        rcases List.mem_cons.mp hc with rfl | hc
        · obtain ⟨r, hr⟩ := Option.isSome_iff_exists.mp hcs
          have hrs := hsame c (.head _) hct r hr
          subst hrs
          by_cases hv : r.status.isViable <;> simp [Call.entryAfter, hct, hr, hv]
        · exact absurd ⟨c, hc, hct, hcs⟩ hrest

end Fold

/-! ## What each operation does to the table -/

section Table

variable {idx : Index}

theorem getTx_purgeTx (t x : Txid) :
    (idx.purgeTx t).getTx x = if x = t then none else idx.getTx x := by
  unfold purgeTx getTx
  by_cases hx : x = t
  · subst hx; cases he : idx.transactions.lookup x <;> simp [he]
  · cases he : idx.transactions.lookup t <;> simp [hx, AList.lookup_erase_ne hx]

@[simp] theorem getTx_updateTxStatus (t : Txid) (oldStatus newStatus : TxStatus) (x : Txid) :
    (idx.updateTxStatus t oldStatus newStatus).getTx x = idx.getTx x := by
  unfold updateTxStatus; split <;> rfl

@[simp] theorem getTx_indexAddressHistory (toSh : Address → ScriptHash) (address : Address)
    (txhist : HistoryEntry) (x : Txid) :
    (idx.indexAddressHistory toSh address txhist).getTx x = idx.getTx x := rfl

theorem getTx_foldl_indexAddressHistory (toSh : Address → ScriptHash) (txhist : HistoryEntry)
    (details : List GetTransactionDetail) (x : Txid) :
    (details.foldl (fun idx detail => idx.indexAddressHistory toSh detail.address txhist)
      idx).getTx x = idx.getTx x := by
  induction details generalizing idx with
  | nil => rfl
  | cons detail rest ih => exact ih.trans (getTx_indexAddressHistory ..)

theorem getTx_indexTxEntry {t : Txid} {txentry : TxEntry} {idx' : Index}
    (h : idx.indexTxEntry t txentry = .ok idx') (x : Txid) :
    idx'.getTx x = if x = t then
      some ⟨txentry.status, ((idx.getTx t).bind (·.fee)).or txentry.fee⟩ else idx.getTx x := by
  simp only [indexTxEntry, bind_eq_ok, assert_eq_ok] at h
  obtain ⟨-, -, h⟩ := h
  have hstored : ∀ e : TxEntry, idx.transactions.lookup t = some e →
      idx'.transactions = idx.transactions.insert t
        ⟨txentry.status, if e.fee.isNone && txentry.fee.isSome then txentry.fee else e.fee⟩ := by
    intro e he
    simp only [he] at h
    split at h <;> simp only [pure_eq_ok, Except.ok.injEq] at h <;> subst h
    · unfold updateTxStatus; split <;> rfl
    · rfl
  by_cases hx : x = t
  · subst hx
    cases he : idx.transactions.lookup x with
    | none => simp only [he, pure_eq_ok, Except.ok.injEq] at h; subst h; simp [getTx, he]
    | some e =>
        cases hf : e.fee <;> cases hg : txentry.fee <;> simp [getTx, hstored e he, he, hf, hg]
  · rw [if_neg hx]
    cases he : idx.transactions.lookup t with
    | none =>
        simp only [he, pure_eq_ok, Except.ok.injEq] at h; subst h
        simp [getTx, AList.lookup_insert_ne hx]
    | some e => simp [getTx, hstored e he, AList.lookup_insert_ne hx]

end Table

section Calls

variable (toSh : Address → ScriptHash) (shouldProcess : String → Bool)

theorem apply_ok (idx : Index) (call : Call) :
    ∃ idx', idx.apply toSh shouldProcess call = .ok idx' := by
  cases call with
  | ltx ltx tipHeight =>
      simp only [Index.apply, processLtx]
      split
      · exact ⟨idx, rfl⟩
      split
      · exact ⟨_, rfl⟩
      rename_i hv
      obtain ⟨idx₁, h₁⟩ : ∃ idx₁, idx.indexTxEntry ltx.txid
          ⟨TxStatus.new ltx.confirmations tipHeight, parseFee ltx.fee⟩ = .ok idx₁ :=
        indexTxEntry_exists (by simpa using hv)
      exact ⟨_, by rw [h₁]; rfl⟩
  | gtx gtx tipHeight =>
      simp only [Index.apply, processGtx]
      split
      · exact ⟨_, rfl⟩
      rename_i hv
      obtain ⟨idx₁, h₁⟩ : ∃ idx₁, idx.indexTxEntry gtx.txid
          ⟨TxStatus.new gtx.confirmations tipHeight, parseFee gtx.fee⟩ = .ok idx₁ :=
        indexTxEntry_exists (by simpa using hv)
      exact ⟨_, by rw [h₁]; rfl⟩

theorem apply_cases {idx idx' : Index} {call : Call}
    (h : idx.apply toSh shouldProcess call = .ok idx') :
    (call.record shouldProcess = none ∧ idx' = idx) ∨
    (∃ r, call.record shouldProcess = some r ∧ r.status.isViable = false ∧
      idx' = idx.purgeTx call.txid) ∨
    (∃ r idx₁, call.record shouldProcess = some r ∧ r.status.isViable = true ∧
      idx.indexTxEntry call.txid r = .ok idx₁ ∧ ∀ x, idx'.getTx x = idx₁.getTx x) := by
  cases call with
  | ltx record tipHeight =>
      simp only [Index.apply, processLtx] at h
      by_cases hp : shouldProcess record.category
      · rw [if_neg (by simp [hp])] at h
        split at h
        next hv =>
          exact .inr (.inl ⟨⟨TxStatus.new record.confirmations tipHeight, parseFee record.fee⟩,
            by simp [Call.record, hp], by simpa using hv, by cases h; rfl⟩)
        next hv =>
          obtain ⟨idx₁, h₁, h⟩ := bind_eq_ok.mp h
          cases h
          exact .inr (.inr ⟨⟨TxStatus.new record.confirmations tipHeight, parseFee record.fee⟩,
            idx₁, by simp [Call.record, hp], by simpa using hv, h₁, fun _ => rfl⟩)
      · rw [if_pos (by simp [hp])] at h
        exact .inl ⟨by simp [Call.record, hp], by cases h; rfl⟩
  | gtx record tipHeight =>
      simp only [Index.apply, processGtx] at h
      split at h
      next hv => exact .inr (.inl ⟨_, rfl, by simpa using hv, by cases h; rfl⟩)
      next hv =>
        obtain ⟨idx₁, h₁, h⟩ := bind_eq_ok.mp h
        cases h
        exact .inr (.inr ⟨_, idx₁, rfl, by simpa using hv, h₁,
          getTx_foldl_indexAddressHistory toSh _ _⟩)

theorem getTx_apply {idx idx' : Index} {call : Call}
    (h : idx.apply toSh shouldProcess call = .ok idx') (x : Txid) :
    idx'.getTx x = call.entryAfter shouldProcess x (idx.getTx x) := by
  rcases apply_cases toSh shouldProcess h with ⟨hr, rfl⟩ | ⟨r, hr, hv, rfl⟩ | ⟨r, idx₁, hr, hv, h₁, h'⟩
  · simp [Call.entryAfter, hr]
  · by_cases hx : call.txid = x
    · subst hx; simp [Call.entryAfter, hr, hv, getTx_purgeTx]
    · simp [Call.entryAfter, getTx_purgeTx, hx, Ne.symm hx]
  · rw [h', getTx_indexTxEntry h₁]
    by_cases hx : call.txid = x
    · subst hx; simp [Call.entryAfter, hr, hv]
    · simp [Call.entryAfter, hx, Ne.symm hx]

theorem getTx_run {idx idx' : Index} {calls : List Call}
    (h : idx.run toSh shouldProcess calls = .ok idx') (x : Txid) :
    idx'.getTx x = calls.foldl (Call.entryAfter shouldProcess x) (idx.getTx x) := by
  induction calls generalizing idx with
  | nil => cases h; rfl
  | cons call calls ih =>
      obtain ⟨idx₁, h₁, h⟩ := bind_eq_ok.mp h
      rw [ih h, getTx_apply toSh shouldProcess h₁, List.foldl_cons]

theorem run_ok (idx : Index) (calls : List Call) :
    ∃ idx', idx.run toSh shouldProcess calls = .ok idx' := by
  induction calls generalizing idx with
  | nil => exact ⟨idx, rfl⟩
  | cons call calls ih =>
      obtain ⟨idx₁, h₁⟩ := apply_ok toSh shouldProcess idx call
      obtain ⟨idx', h'⟩ := ih idx₁
      exact ⟨idx', by simp only [Index.run, h₁, ok_bind, h']⟩

end Calls

theorem run_table_per_transaction (toSh : Address → ScriptHash)
    (shouldProcess : String → Bool) (idx : Index) (calls : List Call) :
    ∃ idx', idx.run toSh shouldProcess calls = .ok idx' ∧
      ∀ t, idx'.getTx t = calls.foldl (Call.entryAfter shouldProcess t) (idx.getTx t) := by
  obtain ⟨idx', h⟩ := run_ok toSh shouldProcess idx calls
  exact ⟨idx', h, getTx_run toSh shouldProcess h⟩

end Index

/-! ## Only viable statuses are stored -/

/-- What the wallet's feed says of transaction `t` at tip height `tipHeight`: nothing when no
processed row names it, else the status of its first such row, kept when viable. -/
def feedStatus (shouldProcess : String → Bool) (feed : List ListTransactionsResult)
    (tipHeight : Nat) (t : Txid) : Option (Option TxStatus) :=
  (feed.find? fun row => row.txid == t && shouldProcess row.category).map fun row =>
    let status := TxStatus.new row.confirmations tipHeight
    if status.isViable then some status else none

theorem txStatus_run_page {toSh : Address → ScriptHash} {shouldProcess : String → Bool}
    {page : List ListTransactionsResult} {tipHeight : Nat}
    (hconf : ∀ row ∈ page, ∀ row' ∈ page, row.txid = row'.txid →
      row.confirmations = row'.confirmations)
    {idx idx' : Index}
    (hrun : idx.run toSh shouldProcess (page.reverse.map (.ltx · tipHeight)) = .ok idx')
    (t : Txid) :
    idx'.txStatus t = (feedStatus shouldProcess page tipHeight t).getD (idx.txStatus t) := by
  rw [show idx'.txStatus t = _ from
    congrArg (Option.map TxEntry.status) (Index.getTx_run toSh shouldProcess hrun t)]
  cases hf : page.find? (fun row => row.txid == t && shouldProcess row.category) with
  | none =>
      rw [Index.foldl_entryAfter_of_inactive fun call hcall hct => ?_]
      · simp [feedStatus, hf, Index.txStatus, Index.getTx]
      obtain ⟨row, hrow, rfl⟩ := List.mem_map.mp hcall
      simp only [Index.Call.txid] at hct
      have hp : ¬ shouldProcess row.category = true := by
        simpa [hct] using List.find?_eq_none.mp hf row (List.mem_reverse.mp hrow)
      simp [Index.Call.record, hp]
  | some row =>
      have hrow := List.mem_of_find?_eq_some hf
      have hrowt := List.find?_some hf
      simp only [Bool.and_eq_true, beq_iff_eq] at hrowt
      rw [Index.foldl_entryAfter_status (TxStatus.new row.confirmations tipHeight)
        (fun call hcall hct rec hrec => ?_)
        ⟨.ltx row tipHeight, List.mem_map_of_mem (Index.Call.ltx · tipHeight)
          (List.mem_reverse.mpr hrow), hrowt.1,
          by simp [Index.Call.record, hrowt.2]⟩]
      · simp [feedStatus, hf]
      obtain ⟨row', hrow', rfl⟩ := List.mem_map.mp hcall
      simp only [Index.Call.txid] at hct
      simp only [Index.Call.record] at hrec
      split at hrec <;> simp only [Option.some.injEq, reduceCtorEq] at hrec
      rw [← hrec, hconf row' (List.mem_reverse.mp hrow') row hrow (hct.trans hrowt.1.symm)]

theorem updateTransactions_mirrors_newest_page (toSh : Address → ScriptHash)
    (shouldProcess : String → Bool) (n : Node) (hn : n.Steady)
    (hlen : 25 ≤ (n.feed 0).length)
    (hconf : ∀ row ∈ (n.feed 0).take 25, ∀ row' ∈ (n.feed 0).take 25, row.txid = row'.txid →
      row.confirmations = row'.confirmations)
    (idx : Index) (fuel : Nat) :
    ∃ idx', updateTransactions toSh shouldProcess n (fuel + 1) idx = some (.ok idx') ∧
      ∀ t, idx'.txStatus t = (feedStatus shouldProcess ((n.feed 0).take 25) (n.blockCount 0)
        t).getD (idx.txStatus t) := by
  have hr : loadTransactionsSince n 25 0 (fuel + 1) =
      some ⟨[[(((n.feed 2).take 25).reverse, n.blockCount 0)]], 3⟩ :=
    loadTransactionsSince_of_full (by decide) (by rw [hn.blockHash, hn.bestBlockHash 3])
      (by rw [hn.feed]; exact hlen) fuel
  rw [hn.feed 2] at hr
  obtain ⟨idx', hrun⟩ := Index.run_ok toSh shouldProcess idx
    (((n.feed 0).take 25).reverse.map (.ltx · (n.blockCount 0)))
  have hcalls : (Result.calls ⟨[[(((n.feed 0).take 25).reverse, n.blockCount 0)]], 3⟩) =
      ((n.feed 0).take 25).reverse.map (.ltx · (n.blockCount 0)) := by
    simp [Result.calls]
  exact ⟨idx', by simp only [updateTransactions, hr, Option.map_some', hcalls, hrun],
    txStatus_run_page hconf hrun⟩

def pageFeed : List ListTransactionsResult :=
  (List.range 25).map fun i => ⟨i, "a", "receive", 0, none⟩

theorem updateTransactions_mirrors_newest_page_still :
    ∃ idx', updateTransactions (fun _ => 9) (fun _ => true) (Node.static pageFeed 100 7) (0 + 1)
        Index.new = some (.ok idx') ∧
      ∀ t, idx'.txStatus t = (feedStatus (fun _ => true)
        (((Node.static pageFeed 100 7).feed 0).take 25) ((Node.static pageFeed 100 7).blockCount 0)
          t).getD (Index.new.txStatus t) :=
  updateTransactions_mirrors_newest_page _ _ _ (Node.static_steady _ _ _) (by decide)
    (fun row h row' h' _ => by
      obtain ⟨i, -, rfl⟩ := List.mem_map.mp (List.mem_of_mem_take h)
      obtain ⟨j, -, rfl⟩ := List.mem_map.mp (List.mem_of_mem_take h')
      rfl) _ 0

end Bwt.AddrMan
