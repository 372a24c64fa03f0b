import Bwt.Store.Purge

/-!
# Spend edges under the indexer's protocol

The store's caller indexes the inputs of a transaction with `index_tx_inputs_spending` and
then records the spend edge of each input's prevout with `index_txo_spend`.  When no input
spends a prevout that another input spends, of the same transaction or of another stored
one, every input of a stored transaction keeps the edge of its prevout, naming that
transaction and input, over every run.  The loop of `purge_tx` over the spend edges then
always finds its edge, and `purge_tx` returns for every txid.
-/

namespace Bwt.Store

namespace MemoryStore

/-! ## The indexer's steps -/

/-- A step of the store's caller: a call of the store, or the inputs of a transaction
followed by the spend edge of each. -/
inductive Step where
  | call (op : Op)
  | inputs (txid : Txid) (spending : HashMap Nat SpendingInfo) (allowOverwrite : Bool)

def Step.ops : Step → List Op
  | .call op => [op]
  | .inputs txid spending allowOverwrite =>
      .indexTxInputsSpending txid spending allowOverwrite ::
        spending.entries.map fun si => .indexTxoSpend si.2.prevout ⟨txid, si.1⟩

/-- The indexer's protocol: inputs and spend edges are indexed together only, an overwrite
keeps the transaction's script hashes, and no input spends a prevout that another input
of the transaction, or of another stored transaction, spends. -/
def Protocol (st : MemoryStore) : Step → Prop
  | .call (.indexTxInputsSpending ..) | .call (.indexTxoSpend ..) => False
  | .call _ => True
  | .inputs txid spending allowOverwrite =>
      st.KeepsScripthashes (.indexTxInputsSpending txid spending allowOverwrite) ∧
      (spending.entries.map (·.2.prevout)).Nodup ∧
      ∀ te ∈ st.transactions.entries, te.1 ≠ txid → ∀ si ∈ te.2.spending.entries,
        si.2.prevout ∉ spending.entries.map (·.2.prevout)

/-- The stores the indexer reaches from `MemoryStore::new()` under its protocol. -/
inductive Indexed : MemoryStore → Prop where
  | new : Indexed MemoryStore.new
  | step {st st' : MemoryStore} (s : Step) : Indexed st → st.Protocol s →
      st.run s.ops = .ok st' → Indexed st'

theorem Indexed.reachable {st : MemoryStore} (h : Indexed st) : Reachable KeepsScripthashes st := by
  induction h with
  | new => exact .new
  | step s _ hs hrun ih =>
      cases s with
      | call op =>
          obtain ⟨st₁, h₁, hrest⟩ := bind_eq_ok.mp hrun
          cases hrest
          refine .step op ih ?_ h₁
          cases op <;> first | exact hs.elim | trivial
      | inputs txid spending allowOverwrite =>
          obtain ⟨st₁, h₁, hrest⟩ := bind_eq_ok.mp hrun
          refine Reachable.run (.step _ ih hs.1 h₁) (fun op hop _ => ?_) hrest
          obtain ⟨_, -, rfl⟩ := List.mem_map.mp hop
          trivial

/-! ## The spend edges of the inputs -/

/-- Every input of a stored transaction has the spend edge of its prevout, naming that
transaction and input. -/
def EdgesOwned (st : MemoryStore) : Prop :=
  ∀ t e, st.transactions.lookup t = some e → ∀ vin si, e.spending.lookup vin = some si →
    st.txoSpends.lookup si.prevout = some ⟨t, vin⟩

theorem EdgesOwned.edgesRecorded {st : MemoryStore} (h : st.EdgesOwned) : st.EdgesRecorded :=
  fun te hte si hsi => AList.lookup_isSome.mp (by
    rw [h _ _ (AList.mem_lookup_iff.mpr hte) _ _ (AList.mem_lookup_iff.mpr hsi)]; rfl)

theorem EdgesOwned.distinctPrevouts {st : MemoryStore} (h : st.EdgesOwned) :
    st.DistinctPrevouts := by
  intro te hte
  refine List.Nodup.map_on (fun ⟨vin, si⟩ hsi ⟨vin', si'⟩ hsi' hp => ?_)
    te.2.spending.nodupKeys.nodup
  have he := AList.mem_lookup_iff.mpr hte
  have hl := AList.mem_lookup_iff.mpr hsi
  have hl' := AList.mem_lookup_iff.mpr hsi'
  have hedge : st.txoSpends.lookup si.prevout = some ⟨te.1, vin'⟩ := by
    rw [show si.prevout = si'.prevout from hp]; exact h _ _ he _ _ hl'
  obtain rfl : vin = vin' :=
    (InPoint.mk.inj (Option.some.inj ((h _ _ he _ _ hl).symm.trans hedge))).2
  obtain rfl : si = si' := Option.some.inj (hl.symm.trans hl')
  rfl

theorem EdgesOwned.purge_returns {st : MemoryStore} (h : st.EdgesOwned) (hinv : st.HistoryInv)
    (hmp : st.MempoolInv) (t : Txid) : ∃ r, st.purgeTx t = .ok r := by
  cases he : st.transactions.lookup t with
  | none => exact ⟨(st, false), by simp [purgeTx, he]⟩
  | some e =>
      have hentry : ⟨t, e⟩ ∈ st.transactions.entries := AList.mem_lookup_iff.mp he
      obtain ⟨m, hm⟩ := hinv.purgeScriptHistories_ok he
      obtain ⟨txo, htxo⟩ := purgeTxoSpends_ok (h.distinctPrevouts _ hentry) fun p hp => by
        obtain ⟨si, hsi, rfl⟩ := List.mem_map.mp hp
        exact h.edgesRecorded _ hentry si hsi
      exact ⟨_, purgeTx_eq_ok he (fun hu => (hmp t).mpr (by simp [getTxStatus_of_lookup he, hu]))
        hm htxo⟩

/-! ## Each step keeps the edges -/

/-- The spend edges of `st'` are those of `st`, and so are the inputs of its transactions,
but for transactions stored without inputs. -/
def SpendsKept (st st' : MemoryStore) : Prop :=
  st'.txoSpends = st.txoSpends ∧ ∀ x e', st'.transactions.lookup x = some e' →
    e'.spending = ∅ ∨ ∃ e, st.transactions.lookup x = some e ∧ e'.spending = e.spending

theorem EdgesOwned.of_spendsKept {st st' : MemoryStore} (h : st.EdgesOwned)
    (hkept : SpendsKept st st') : st'.EdgesOwned := by
  intro x e' he' vin si hsi
  rcases hkept.2 x e' he' with hempty | ⟨e, he, hsp⟩
  · simp [hempty] at hsi
  · rw [hkept.1]
    exact h x e he vin si (hsp ▸ hsi)

theorem SpendsKept.refl (st : MemoryStore) : SpendsKept st st :=
  ⟨rfl, fun _ e' he' => .inr ⟨e', he', rfl⟩⟩

theorem SpendsKept.insert {st st' : MemoryStore} {t : Txid} {e'' : TxEntry}
    (htxo : st'.txoSpends = st.txoSpends) (htx : st'.transactions = st.transactions.insert t e'')
    (he'' : e''.spending = ∅ ∨ ∃ e, st.transactions.lookup t = some e ∧ e''.spending = e.spending) :
    SpendsKept st st' := by
  refine ⟨htxo, fun x e' hx => ?_⟩
  rw [htx] at hx
  by_cases hxt : x = t
  · subst hxt
    rw [AList.lookup_insert, Option.some.injEq] at hx
    exact hx ▸ he''
  · rw [AList.lookup_insert_ne hxt] at hx
    exact .inr ⟨e', hx, rfl⟩

theorem updateTxStatus_spendsKept {st st' : MemoryStore} {t : Txid} {old new : TxStatus}
    (h : st.updateTxStatus t old new = .ok st') :
    st'.transactions = st.transactions ∧ st'.txoSpends = st.txoSpends := by
  obtain ⟨_, _, -, -, hst⟩ := updateTxStatus_ok h
  rcases hst with ⟨-, -, rfl⟩ | ⟨-, -, -, rfl⟩ | ⟨-, -, rfl⟩ <;> exact ⟨rfl, rfl⟩

theorem upsertTx_spendsKept {st st' : MemoryStore} {t : Txid} {s : TxStatus} {b : Bool}
    (h : st.upsertTx t s = .ok (st', b)) : SpendsKept st st' := by
  rcases upsertTx_ok h with ⟨-, -, -, rfl⟩ | ⟨-, -, -, rfl, -⟩ | ⟨e, he, -, -, hup⟩
  · exact SpendsKept.insert rfl rfl (.inl rfl)
  · exact SpendsKept.refl _
  · obtain ⟨htx, htxo⟩ := updateTxStatus_spendsKept hup
    exact SpendsKept.insert htxo htx (.inr ⟨e, he, rfl⟩)

theorem indexTxOutputFunding_spendsKept {st st' : MemoryStore} {t : Txid} {vout : Nat}
    {fundingInfo : FundingInfo} {b : Bool}
    (h : st.indexTxOutputFunding t vout fundingInfo = .ok (st', b)) : SpendsKept st st' := by
  obtain ⟨e, he, ⟨-, rfl⟩ | ⟨-, b', hidx⟩⟩ := indexTxOutputFunding_ok h
  · exact SpendsKept.refl _
  · obtain ⟨se, -, -, rfl⟩ := indexHistoryEntry_eq_ok.mp hidx
    exact SpendsKept.insert rfl rfl (.inr ⟨e, he, rfl⟩)

theorem EdgesOwned.of_purgeTx {st st' : MemoryStore} (h : st.EdgesOwned) {t : Txid} {b : Bool}
    (hp : st.purgeTx t = .ok (st', b)) : st'.EdgesOwned := by
  rcases purgeTx_ok hp with ⟨-, rfl, -⟩ | ⟨e, he, -, -, htx, -, -, htxo⟩
  · exact h
  intro x ex hx vin si hsi
  have hxt : x ≠ t := by rintro rfl; simp [htx] at hx
  rw [htx, AList.lookup_erase_ne hxt] at hx
  have hedge := h x ex hx vin si hsi
  rw [purgeTxoSpends_lookup (h.distinctPrevouts _ (AList.mem_lookup_iff.mp he)) htxo, hedge]
  simp [hxt]

theorem run_indexTxoSpends {st st' : MemoryStore} {txid : Txid}
    {inputs : List (Σ _ : Nat, SpendingInfo)} (hnd : (inputs.map (·.2.prevout)).Nodup)
    (h : st.run (inputs.map fun si => .indexTxoSpend si.2.prevout ⟨txid, si.1⟩) = .ok st') :
    st'.transactions = st.transactions ∧
      (∀ si ∈ inputs, st'.txoSpends.lookup si.2.prevout = some ⟨txid, si.1⟩) ∧
      ∀ p ∉ inputs.map (·.2.prevout), st'.txoSpends.lookup p = st.txoSpends.lookup p := by
  induction inputs generalizing st with
  | nil => cases h; exact ⟨rfl, by simp, fun _ _ => rfl⟩
  | cons si rest ih =>
      obtain ⟨hsi, hnd⟩ := List.nodup_cons.mp hnd
      obtain ⟨htx, hmem, hout⟩ := ih hnd h
      refine ⟨htx, fun si' hsi' => ?_, fun p hp => ?_⟩
      · rcases List.mem_cons.mp hsi' with rfl | hsi'
        · rw [hout _ hsi]; simp [indexTxoSpend]
        · exact hmem si' hsi'
      · have hne : p ≠ si.2.prevout := fun h => hp (h ▸ .head _)
        rw [hout p fun h => hp (.tail _ h)]
        simp [indexTxoSpend, AList.lookup_insert_ne hne]

theorem EdgesOwned.step {st st' : MemoryStore} (h : st.EdgesOwned) (hinv : st.HistoryInv)
    (hmp : st.MempoolInv) {s : Step} (hs : st.Protocol s) (hrun : st.run s.ops = .ok st') :
    st'.EdgesOwned := by
  cases s with
  | call op =>
      obtain ⟨st₁, h₁, hrest⟩ := bind_eq_ok.mp hrun
      cases hrest
      cases op with
      | indexScripthash sh origin address =>
          obtain ⟨b, h₁⟩ := map_fst_eq_ok.mp h₁
          rcases indexScripthash_ok h₁ with rfl | ⟨-, rfl⟩ <;> exact h
      | upsertTx t status =>
          obtain ⟨b, h₁⟩ := map_fst_eq_ok.mp h₁
          exact h.of_spendsKept (upsertTx_spendsKept h₁)
      | indexTxOutputFunding t vout fundingInfo =>
          obtain ⟨b, h₁⟩ := map_fst_eq_ok.mp h₁
          exact h.of_spendsKept (indexTxOutputFunding_spendsKept h₁)
      | purgeTx t =>
          obtain ⟨b, h₁⟩ := map_fst_eq_ok.mp h₁
          exact h.of_purgeTx h₁
      | indexTxInputsSpending => exact hs.elim
      | indexTxoSpend => exact hs.elim
  | inputs txid spending allowOverwrite =>
      obtain ⟨st₁, h₁, hrest⟩ := bind_eq_ok.mp hrun
      obtain ⟨-, hnd, hfree⟩ := hs
      obtain ⟨e, he, -, hidx⟩ := indexTxInputsSpending_ok h₁
      obtain ⟨m, rfl, -⟩ := indexHistoryEntries_ok hidx
      obtain ⟨htx, hmem, hout⟩ := run_indexTxoSpends hnd hrest
      intro x ex hx vin si hsi
      rw [htx] at hx
      by_cases hxt : x = txid
      · subst hxt
        simp only [AList.lookup_insert, Option.some.injEq] at hx
        subst hx
        exact hmem ⟨vin, si⟩ (AList.mem_lookup_iff.mp hsi)
      · rw [AList.lookup_insert_ne hxt] at hx
        have hnot := hfree ⟨x, ex⟩ (AList.mem_lookup_iff.mp hx) hxt ⟨vin, si⟩
          (AList.mem_lookup_iff.mp hsi)
        rw [hout _ hnot]
        exact h x ex hx vin si hsi

theorem Indexed.edgesOwned {st : MemoryStore} (h : Indexed st) : st.EdgesOwned := by
  induction h with
  | new => intro t e he; simp [MemoryStore.new] at he
  | step s hst hs hrun ih =>
      exact ih.step (HistoryInv.of_reachable hst.reachable)
        (MempoolInv.of_reachable hst.reachable) hs hrun

theorem indexed_spend_edges_owned {st : MemoryStore} (h : Indexed st) :
    (∀ t e, st.transactions.lookup t = some e → ∀ vin si, e.spending.lookup vin = some si →
      st.lookupTxoSpend si.prevout = some ⟨t, vin⟩) ∧
    ∀ t, ∃ r, st.purgeTx t = .ok r :=
  ⟨h.edgesOwned, h.edgesOwned.purge_returns (HistoryInv.of_reachable h.reachable)
    (MempoolInv.of_reachable h.reachable)⟩

theorem indexed_spend_edges_owned_two_spends :
    ∃ st, Indexed st ∧ st.lookupTxoSpend ⟨4, 0⟩ = none ∧
      (∀ t e, st.transactions.lookup t = some e → ∀ vin si, e.spending.lookup vin = some si →
        st.lookupTxoSpend si.prevout = some ⟨t, vin⟩) ∧
      ∀ t, ∃ r, st.purgeTx t = .ok r := by
  have h₁ := Indexed.step (.call (.indexScripthash 9 .standalone "a")) .new trivial rfl
  have h₂ := Indexed.step (.call (.upsertTx 1 .unconfirmed)) h₁ trivial rfl
  have h₃ := Indexed.step (.inputs 1 ((∅ : HashMap Nat SpendingInfo).insert 0 ⟨9, ⟨3, 0⟩, 5⟩)
    false) h₂ ⟨keepsScripthashes_of_apply rfl (by simp), by decide, by decide⟩ rfl
  have h₄ := Indexed.step (.call (.upsertTx 2 .unconfirmed)) h₃ trivial rfl
  have h₅ := Indexed.step (.inputs 2 ((∅ : HashMap Nat SpendingInfo).insert 0 ⟨9, ⟨4, 0⟩, 5⟩)
    false) h₄ ⟨keepsScripthashes_of_apply rfl (by simp), by decide, by decide⟩ rfl
  have h₆ := Indexed.step (.call (.purgeTx 2)) h₅ trivial rfl
  exact ⟨_, h₆, rfl, indexed_spend_edges_owned h₆⟩

end MemoryStore

end Bwt.Store
