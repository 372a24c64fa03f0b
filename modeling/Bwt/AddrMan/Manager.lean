import Bwt.AddrMan.Soundness
import Bwt.AddrMan.Steady
import Mathlib.Algebra.BigOperators.Group.List
import Mathlib.Algebra.Order.Ring.Nat

/-!
# The address manager

`AddrManager` owns the index and reads the node.  `update_transactions` runs
`load_transactions_since` from height 0 with pages of 25 and hands every row of every
page to `process_ltx`, the rows of passes given up included.  On a wallet whose feed never
holds 25 rows the call never returns.

`list_unspent` reads the tip, the unspent outputs of the script hash's address and the
best block, and starts over when the tip moved: it returns the outputs of the first
attempt whose tip held, the conflicted ones left out.  `get_balance` splits them into
confirmed and unconfirmed value, which add up to their whole value.

The watcher, which `process_ltx` tells of the addresses it sees, and the imports that
`update` runs after the transactions are left out.
-/

namespace Bwt.AddrMan

/-! ## `update_transactions` -/

/-- The calls of `process_ltx` the handler of `update_transactions` makes: every row of
every page, with the page's tip height, pass after pass. -/
def Result.calls (r : Result) : List Index.Call :=
  r.passes.flatten.flatMap fun chunk => chunk.1.map (.ltx · chunk.2)

def updateTransactions (addressToScripthash : Address → ScriptHash)
    (shouldProcess : String → Bool) (n : Node) (fuel : Nat) (idx : Index) :
    Option (Except Panic Index) :=
  (loadTransactionsSince n 25 0 fuel).map fun r =>
    idx.run addressToScripthash shouldProcess r.calls

/-- `Utxo::from_unspent`; `as u64` keeps a negative amount modulo `2 ^ 64`. -/
def Utxo.fromUnspent (unspent : ListUnspentResult) (tipHeight : Nat) : Utxo :=
  ⟨TxStatus.new unspent.confirmations tipHeight, unspent.txid, unspent.vout,
    (unspent.amount % 2 ^ 64).toNat⟩

/-- `AddrManager::list_unspent` from `moment`, with at most `fuel` attempts. -/
def listUnspent (n : Node) (idx : Index) (scripthash : ScriptHash) (minConf : Nat) :
    Nat → Nat → Option (Except String (List Utxo))
  | 0, _ => none
  | fuel + 1, moment =>
      match idx.getAddress scripthash with
      | none => some (.error "unknown scripthash")
      | some address =>
          let tipHeight := n.blockCount moment
          let tipHash := n.blockHash (moment + 1) tipHeight
          let unspents := n.listUnspent (moment + 2) minConf address
          if tipHash ≠ n.bestBlockHash (moment + 3) then
            listUnspent n idx scripthash minConf fuel (moment + 4)
          else
            some (.ok ((unspents.map (Utxo.fromUnspent · tipHeight)).filter (·.status.isViable)))

/-- `AddrManager::get_balance`: the confirmed and the unconfirmed value; the `u64` sums wrap
modulo `2 ^ 64`, as in release builds. -/
def getBalance (n : Node) (idx : Index) (scripthash : ScriptHash) (fuel moment : Nat) :
    Option (Except String (Nat × Nat)) :=
  (listUnspent n idx scripthash 0 fuel moment).map fun r => r.map fun utxos =>
    let utxos := utxos.filter (·.status.isViable)
    (((utxos.filter (·.status.isConfirmed)).map (·.value)).sum % 2 ^ 64,
      ((utxos.filter fun utxo => !utxo.status.isConfirmed).map (·.value)).sum % 2 ^ 64)

def Node.TipHeld (n : Node) (moment : Nat) : Prop :=
  n.blockHash (moment + 1) (n.blockCount moment) = n.bestBlockHash (moment + 3)

instance (n : Node) (moment : Nat) : Decidable (n.TipHeld moment) :=
  inferInstanceAs (Decidable (_ = _))

section ListUnspent

variable {n : Node} {idx : Index} {scripthash : ScriptHash} {minConf : Nat}

theorem listUnspent_first_held {address : Address} (ha : idx.getAddress scripthash = some address)
    {k fuel moment : Nat} (hk : k < fuel) (hfail : ∀ j < k, ¬ n.TipHeld (moment + 4 * j))
    (hheld : n.TipHeld (moment + 4 * k)) :
    listUnspent n idx scripthash minConf fuel moment = some (.ok
      (((n.listUnspent (moment + 4 * k + 2) minConf address).map
        (Utxo.fromUnspent · (n.blockCount (moment + 4 * k)))).filter (·.status.isViable))) := by
  induction k generalizing fuel moment with
  | zero =>
      obtain ⟨fuel, rfl⟩ : ∃ f, fuel = f + 1 := ⟨fuel - 1, by omega⟩
      simp only [Node.TipHeld, Nat.mul_zero, Nat.add_zero] at hheld
      simp [listUnspent, ha, hheld]
  | succ k ih =>
      obtain ⟨fuel, rfl⟩ : ∃ f, fuel = f + 1 := ⟨fuel - 1, by omega⟩
      have h0 : ¬ n.TipHeld moment := by simpa using hfail 0 (by omega)
      rw [show moment + 4 * (k + 1) = moment + 4 + 4 * k by omega] at hheld ⊢
      have hrest := @ih fuel (moment + 4) (by omega) (fun j hj => by
        simpa only [show moment + 4 + 4 * j = moment + 4 * (j + 1) by omega]
          using hfail (j + 1) (by omega)) hheld
      simp only [Node.TipHeld] at h0
      simp [listUnspent, ha, h0, hrest]

def movingTipNode : Node :=
  ⟨fun _ => [], fun t => if t < 3 then 100 else 101, fun _ height => height,
    fun t => if t < 3 then 100 else 101, fun _ _ _ => [⟨1, 0, 1, 5000⟩]⟩

theorem listUnspent_first_held_moved :
    listUnspent movingTipNode ⟨(∅ : HashMap ScriptHash ScriptEntry).insert 9 ⟨"a", .empty⟩, ∅⟩
        9 0 2 0 =
      some (.ok (((movingTipNode.listUnspent (0 + 4 * 1 + 2) 0 "a").map
        (Utxo.fromUnspent · (movingTipNode.blockCount (0 + 4 * 1)))).filter (·.status.isViable))) :=
  listUnspent_first_held (by rfl) (by decide) (by decide) (by decide)

theorem listUnspent_ok {fuel moment : Nat} {utxos : List Utxo}
    (h : listUnspent n idx scripthash minConf fuel moment = some (.ok utxos)) :
    ∃ address k, idx.getAddress scripthash = some address ∧ n.TipHeld (moment + 4 * k) ∧
      utxos = ((n.listUnspent (moment + 4 * k + 2) minConf address).map
        (Utxo.fromUnspent · (n.blockCount (moment + 4 * k)))).filter (·.status.isViable) := by
  induction fuel generalizing moment with
  | zero => cases h
  | succ fuel ih =>
      obtain ⟨address, ha⟩ : ∃ address, idx.getAddress scripthash = some address := by
        cases ha : idx.getAddress scripthash <;> simp_all [listUnspent]
      by_cases hheld : n.TipHeld moment
      · simp only [Node.TipHeld] at hheld
        simp only [listUnspent, ha, hheld, ne_eq, not_true_eq_false, if_false,
          Option.some.injEq, Except.ok.injEq] at h
        exact ⟨address, 0, ha, by simpa using hheld, by simpa using h.symm⟩
      · simp only [Node.TipHeld] at hheld
        simp only [listUnspent, ha, hheld, ne_eq, not_false_eq_true, if_true] at h
        obtain ⟨address', k, ha', hk, hu⟩ := ih h
        refine ⟨address', k + 1, ?_⟩
        rw [show moment + 4 * (k + 1) = moment + 4 + 4 * k by omega]
        exact ⟨ha', hk, hu⟩

theorem getBalance_splits {fuel moment : Nat} {utxos : List Utxo}
    (h : listUnspent n idx scripthash 0 fuel moment = some (.ok utxos)) :
    ∃ confirmed unconfirmed,
      getBalance n idx scripthash fuel moment = some (.ok (confirmed, unconfirmed)) ∧
      confirmed = ((utxos.filter (·.status.isConfirmed)).map (·.value)).sum % 2 ^ 64 ∧
      (confirmed + unconfirmed) % 2 ^ 64 = (utxos.map (·.value)).sum % 2 ^ 64 := by
  obtain ⟨address, k, -, -, hu⟩ := listUnspent_ok h
  have hviable : utxos.filter (·.status.isViable) = utxos :=
    List.filter_eq_self.mpr fun u hu' => by rw [hu] at hu'; exact (List.mem_filter.mp hu').2
  refine ⟨((utxos.filter (·.status.isConfirmed)).map (·.value)).sum % 2 ^ 64,
    ((utxos.filter fun utxo => !utxo.status.isConfirmed).map (·.value)).sum % 2 ^ 64,
    by simp only [getBalance, h, Option.map_some', Except.map, hviable], rfl, ?_⟩
  rw [← Nat.add_mod, ← List.sum_append, ← List.map_append]
  exact congrArg (· % 2 ^ 64) ((List.filter_append_perm _ utxos).map _).sum_eq

theorem getBalance_splits_moved :
    ∃ confirmed unconfirmed, getBalance movingTipNode
        ⟨(∅ : HashMap ScriptHash ScriptEntry).insert 9 ⟨"a", .empty⟩, ∅⟩ 9 2 0 =
        some (.ok (confirmed, unconfirmed)) ∧
      confirmed = ((([⟨.confirmed 101, 1, 0, 5000⟩] : List Utxo).filter
        (·.status.isConfirmed)).map (·.value)).sum % 2 ^ 64 ∧
      (confirmed + unconfirmed) % 2 ^ 64 =
        (([⟨.confirmed 101, 1, 0, 5000⟩] : List Utxo).map (·.value)).sum % 2 ^ 64 :=
  getBalance_splits (rfl : listUnspent movingTipNode
    ⟨(∅ : HashMap ScriptHash ScriptEntry).insert 9 ⟨"a", .empty⟩, ∅⟩ 9 0 2 0 =
      some (.ok [⟨.confirmed 101, 1, 0, 5000⟩]))

end ListUnspent

end Bwt.AddrMan
