import Bwt.AddrMan.Index

/-!
# What the index of `addrman.rs` keeps

Every entry a history of the index holds names a stored transaction with its stored
status, over every run of `process_ltx` and `process_gtx` calls from `Index::new()`.  A
status change of a transaction takes the entry of the old status from every history
that has one, whichever transaction it belongs to, and a purge takes the entry of the
purged status; the entry of the transaction itself is always among those taken, since
a history holds one entry per status.  So no entry outlives its transaction, and
`AddrManager::get_history` never fails with "missing tx".

It is the other half that fails: the histories do not keep every transaction.
-/

namespace Bwt.AddrMan

open Batteries

namespace Index

def historyOf (idx : Index) (scripthash : ScriptHash) : List HistoryEntry :=
  ((idx.scripthashes.lookup scripthash).map (·.history.toList)).getD []

def txStatus (idx : Index) (txid : Txid) : Option TxStatus :=
  (idx.transactions.lookup txid).map (·.status)

/-- Every history entry names a stored transaction with its stored status. -/
def Sound (idx : Index) : Prop :=
  ∀ x f, f ∈ idx.historyOf x → idx.txStatus f.txid = some f.status

theorem mem_historyOf {idx : Index} {x : ScriptHash} {f : HistoryEntry} :
    f ∈ idx.historyOf x ↔ ∃ se, idx.scripthashes.lookup x = some se ∧ f ∈ se.history.toList := by
  unfold historyOf
  cases idx.scripthashes.lookup x <;> simp

theorem txStatus_insert {idx idx' : Index} {t : Txid} {e : TxEntry}
    (h : idx'.transactions = idx.transactions.insert t e) (x : Txid) :
    idx'.txStatus x = if x = t then some e.status else idx.txStatus x := by
  by_cases hx : x = t
  · subst hx; simp [txStatus, h]
  · simp [txStatus, h, hx, AList.lookup_insert_ne hx]

theorem cmp_eq_eq {a b : HistoryEntry} : a.cmp b = .eq ↔ a.status = b.status :=
  TxStatus.cmp_eq_eq

/-! ## What each call does to one history -/

theorem mem_updateHistory {old new f : HistoryEntry} {se : ScriptEntry}
    (hf : f ∈ (updateHistory old new se).history.toList) :
    f = new ∨ f ∈ se.history.toList ∧ f.status ≠ old.status := by
  simp only [updateHistory] at hf
  split at hf
  · rcases BTreeSet.mem_insert.mp hf with hf | ⟨rfl, -⟩
    · obtain ⟨hf, hne⟩ := BTreeSet.mem_remove.mp hf
      exact .inr ⟨hf, fun h => hne (cmp_eq_eq.mpr h.symm)⟩
    · exact .inl rfl
  · obtain ⟨hf, hne⟩ := BTreeSet.mem_remove.mp hf
    exact .inr ⟨hf, fun h => hne (cmp_eq_eq.mpr h.symm)⟩

theorem mem_purgedEntry {old f : HistoryEntry} {se se' : ScriptEntry}
    (h : purgedEntry old se = some se') (hf : f ∈ se'.history.toList) :
    f ∈ se.history.toList ∧ f.status ≠ old.status := by
  simp only [purgedEntry] at h
  split at h
  · cases h
    obtain ⟨hf, hne⟩ := BTreeSet.mem_remove.mp hf
    exact ⟨hf, fun h => hne (cmp_eq_eq.mpr h.symm)⟩
  · cases h

theorem mem_historyOf_indexAddressHistory {toSh : Address → ScriptHash} {idx : Index}
    {address : Address} {txhist : HistoryEntry} {x : ScriptHash} {f : HistoryEntry}
    (hf : f ∈ (idx.indexAddressHistory toSh address txhist).historyOf x) :
    f = txhist ∨ f ∈ idx.historyOf x := by
  unfold indexAddressHistory at hf
  by_cases hx : x = toSh address
  · subst hx
    simp only [historyOf, AList.lookup_insert, Option.map_some', Option.getD_some] at hf
    rcases BTreeSet.mem_insert.mp hf with hf | ⟨rfl, -⟩
    · cases hse : idx.scripthashes.lookup (toSh address) with
      | none => simp [hse] at hf
      | some se => exact .inr (mem_historyOf.mpr ⟨se, hse, by simpa [hse] using hf⟩)
    · exact .inl rfl
  · exact .inr (by simpa [historyOf, AList.lookup_insert_ne hx] using hf)

/-! ## Each call keeps the entries sound -/

section Preservation

variable {idx : Index} (hs : idx.Sound)
include hs

theorem Sound.step {idx' : Index} (t : Txid)
    (hother : ∀ y, y ≠ t → idx'.txStatus y = idx.txStatus y)
    (hmem : ∀ x f, f ∈ idx'.historyOf x →
      (f.txid = t → idx'.txStatus t = some f.status) ∧ (f.txid ≠ t → f ∈ idx.historyOf x)) :
    idx'.Sound := fun x f hf => by
  by_cases hft : f.txid = t
  · exact hft ▸ (hmem x f hf).1 hft
  · rw [hother _ hft]
    exact hs x f ((hmem x f hf).2 hft)

theorem Sound.insert_same_status {t : Txid} {e : TxEntry}
    (he : idx.transactions.lookup t = some e) {e' : TxEntry} (hs' : e'.status = e.status) :
    Index.Sound { idx with transactions := idx.transactions.insert t e' } := by
  refine hs.step t (fun y hy => by rw [txStatus_insert rfl, if_neg hy]) fun x f hf =>
    ⟨fun hft => ?_, fun _ => hf⟩
  have := hs x f hf
  rw [hft] at this
  simpa [txStatus, he, hs'] using this

theorem Sound.updateTxStatus {t : Txid} {e : TxEntry} (he : idx.transactions.lookup t = some e)
    (e' : TxEntry) :
    ({ idx with transactions := idx.transactions.insert t e' }.updateTxStatus t e.status
      e'.status).Sound := by
  unfold Index.updateTxStatus
  split
  · exact hs.insert_same_status he (Eq.symm ‹_›)
  have hstored : ∀ x f, f ∈ idx.historyOf x → f.txid = t → f.status = e.status :=
    fun x f hf hft => by
      have := hs x f hf
      rw [hft] at this
      simpa [txStatus, he] using this.symm
  refine hs.step t (fun y hy => by rw [txStatus_insert rfl, if_neg hy]) fun x f hf => ?_
  obtain ⟨se', hse', hf⟩ := mem_historyOf.mp hf
  simp only [lookup_filterMapVal, Option.bind_eq_some, Option.some.injEq] at hse'
  obtain ⟨se, hse, rfl⟩ := hse'
  rcases mem_updateHistory hf with rfl | ⟨hf, hne⟩
  · exact ⟨fun _ => by simp [txStatus], fun h => absurd rfl h⟩
  · have hf' : f ∈ idx.historyOf x := mem_historyOf.mpr ⟨se, hse, hf⟩
    exact ⟨fun hft => absurd (hstored x f hf' hft) hne, fun _ => hf'⟩

theorem Sound.indexAddressHistory (toSh : Address → ScriptHash) (address : Address)
    {txhist : HistoryEntry} (ht : idx.txStatus txhist.txid = some txhist.status) :
    (idx.indexAddressHistory toSh address txhist).Sound := fun x f hf => by
  rcases mem_historyOf_indexAddressHistory hf with rfl | hf
  · exact ht
  · exact hs x f hf

theorem Sound.purgeTx (t : Txid) : (idx.purgeTx t).Sound := by
  unfold Index.purgeTx
  split
  · exact hs
  · rename_i e he
    refine hs.step t (fun y hy => by simp [txStatus, AList.lookup_erase_ne hy]) fun x f hf => ?_
    obtain ⟨se', hse', hf⟩ := mem_historyOf.mp hf
    simp only [lookup_filterMapVal, Option.bind_eq_some] at hse'
    obtain ⟨se, hse, hp⟩ := hse'
    obtain ⟨hf, hne⟩ := mem_purgedEntry hp hf
    have hf' : f ∈ idx.historyOf x := mem_historyOf.mpr ⟨se, hse, hf⟩
    refine ⟨fun hft => absurd ?_ hne, fun _ => hf'⟩
    have := hs x f hf'
    rw [hft] at this
    simpa [txStatus, he] using this.symm

theorem Sound.indexTxEntry {t : Txid} {txentry : TxEntry} {idx' : Index}
    (h : idx.indexTxEntry t txentry = .ok idx') :
    idx'.Sound ∧ idx'.txStatus t = some txentry.status := by
  simp only [Index.indexTxEntry, bind_eq_ok, assert_eq_ok] at h
  obtain ⟨-, -, h⟩ := h
  split at h
  · rename_i e he
    split at h <;> simp only [pure_eq_ok, Except.ok.injEq] at h <;> subst h
    · refine ⟨hs.updateTxStatus he _, ?_⟩
      unfold Index.updateTxStatus; split <;> simp [txStatus]
    · rename_i hne
      exact ⟨hs.insert_same_status he (not_not.mp hne).symm, by simp [txStatus]⟩
  · rename_i hn
    simp only [pure_eq_ok, Except.ok.injEq] at h
    subst h
    refine ⟨hs.step t (fun y hy => by rw [txStatus_insert rfl, if_neg hy]) fun x f hf =>
      ⟨fun hft => ?_, fun _ => hf⟩, by simp [txStatus]⟩
    have := hs x f hf
    rw [hft] at this
    simp [txStatus, hn] at this

theorem Sound.foldl_indexAddressHistory (toSh : Address → ScriptHash)
    {txhist : HistoryEntry} (ht : idx.txStatus txhist.txid = some txhist.status)
    (addresses : List GetTransactionDetail) :
    (addresses.foldl (fun idx detail => idx.indexAddressHistory toSh detail.address txhist)
      idx).Sound := by
  induction addresses generalizing idx with
  | nil => exact hs
  | cons detail rest ih => exact ih (hs.indexAddressHistory toSh detail.address ht) ht

end Preservation

theorem indexTxEntry_exists {idx : Index} {t : Txid} {txentry : TxEntry}
    (hv : txentry.status.isViable = true) : ∃ idx', idx.indexTxEntry t txentry = .ok idx' := by
  unfold indexTxEntry
  simp only [hv, assert_true, ok_bind]
  split
  · split <;> exact ⟨_, rfl⟩
  · exact ⟨_, rfl⟩

section Process

variable (toSh : Address → ScriptHash) (shouldProcess : String → Bool)

theorem Sound.apply {idx : Index} (hs : idx.Sound) (call : Call) :
    ∃ idx', idx.apply toSh shouldProcess call = .ok idx' ∧ idx'.Sound := by
  cases call with
  | ltx ltx tipHeight =>
      simp only [Index.apply, processLtx]
      split
      · exact ⟨idx, rfl, hs⟩
      split
      · exact ⟨_, rfl, hs.purgeTx _⟩
      rename_i hv
      obtain ⟨idx₁, h₁⟩ : ∃ idx₁, idx.indexTxEntry ltx.txid
          ⟨TxStatus.new ltx.confirmations tipHeight, parseFee ltx.fee⟩ = .ok idx₁ :=
        indexTxEntry_exists (by simpa using hv)
      obtain ⟨hs₁, ht⟩ := hs.indexTxEntry h₁
      exact ⟨_, by rw [h₁]; rfl, hs₁.indexAddressHistory toSh ltx.address ht⟩
  | gtx gtx tipHeight =>
      simp only [Index.apply, processGtx]
      split
      · exact ⟨_, rfl, hs.purgeTx _⟩
      rename_i hv
      obtain ⟨idx₁, h₁⟩ : ∃ idx₁, idx.indexTxEntry gtx.txid
          ⟨TxStatus.new gtx.confirmations tipHeight, parseFee gtx.fee⟩ = .ok idx₁ :=
        indexTxEntry_exists (by simpa using hv)
      obtain ⟨hs₁, ht⟩ := hs.indexTxEntry h₁
      exact ⟨_, by rw [h₁]; rfl, hs₁.foldl_indexAddressHistory toSh ht _⟩

theorem Sound.run {idx : Index} (hs : idx.Sound) (calls : List Call) :
    ∃ idx', idx.run toSh shouldProcess calls = .ok idx' ∧ idx'.Sound := by
  induction calls generalizing idx with
  | nil => exact ⟨idx, rfl, hs⟩
  | cons call calls ih =>
      obtain ⟨idx₁, h₁, hs₁⟩ := hs.apply toSh shouldProcess call
      obtain ⟨idx', h', hs'⟩ := ih hs₁
      exact ⟨idx', by simp only [Index.run, h₁, ok_bind, h'], hs'⟩

end Process

theorem sound_new : Index.new.Sound := fun x f hf => by simp [new, historyOf] at hf

/-! ## Exactly what a status change and a purge do to a history -/

theorem mem_remove_iff {history : History} {old f : HistoryEntry} :
    f ∈ (history.remove old).2.toList ↔ f ∈ history.toList ∧ f.status ≠ old.status := by
  rw [BTreeSet.mem_remove, ne_eq, cmp_eq_eq, eq_comm]

theorem contains_iff_status {history : History} {x : HistoryEntry} :
    history.contains x = true ↔ ∃ g ∈ history.toList, g.status = x.status := by
  rw [BTreeSet.contains_iff]
  simp only [cmp_eq_eq, @eq_comm _ x.status]

theorem mem_updateHistory_iff {t : Txid} {old new : TxStatus} (hne : old ≠ new) {se : ScriptEntry}
    {f : HistoryEntry} :
    f ∈ (updateHistory ⟨t, old⟩ ⟨t, new⟩ se).history.toList ↔
      (f ∈ se.history.toList ∧ f.status ≠ old) ∨
      (f = ⟨t, new⟩ ∧ (∃ g ∈ se.history.toList, g.status = old) ∧
        ∀ g ∈ se.history.toList, g.status ≠ new) := by
  have hfree : (se.history.remove ⟨t, old⟩).2.contains ⟨t, new⟩ = false ↔
      ∀ g ∈ se.history.toList, g.status ≠ new := by
    rw [Bool.eq_false_iff, ne_eq, contains_iff_status]
    constructor
    · intro h g hg hgs
      exact h ⟨g, mem_remove_iff.mpr ⟨hg, by rw [hgs]; exact Ne.symm hne⟩, hgs⟩
    · rintro h ⟨g, hg, hgs⟩
      exact h g (mem_remove_iff.mp hg).1 hgs
  dsimp only [updateHistory]
  split
  · rename_i hc
    rw [BTreeSet.mem_insert, mem_remove_iff, hfree]
    have hold : ∃ g ∈ se.history.toList, g.status = old := contains_iff_status.mp hc
    simp only [hold, true_and]
  · rename_i hc
    rw [mem_remove_iff]
    have hold : ¬∃ g ∈ se.history.toList, g.status = old := fun h =>
      hc (contains_iff_status.mpr h)
    simp [hold]

theorem mem_purgedEntry_iff {old f : HistoryEntry} {se : ScriptEntry} :
    (∃ se', purgedEntry old se = some se' ∧ f ∈ se'.history.toList) ↔
      f ∈ se.history.toList ∧ f.status ≠ old.status := by
  rw [← mem_remove_iff]
  dsimp only [purgedEntry]
  split
  · simp
  · rename_i hlen
    simp only [BTreeSet.len, not_lt, Nat.le_zero, List.length_eq_zero] at hlen
    simp [hlen]

theorem purgedEntry_eq_none {old : HistoryEntry} {se : ScriptEntry} :
    purgedEntry old se = none ↔ ∀ g ∈ se.history.toList, g.status = old.status := by
  dsimp only [purgedEntry]
  split
  · rename_i hlen
    simp only [reduceCtorEq, false_iff, not_forall]
    obtain ⟨g, hg⟩ := List.exists_mem_of_length_pos hlen
    obtain ⟨hg, hgs⟩ := mem_remove_iff.mp hg
    exact ⟨g, hg, hgs⟩
  · rename_i hlen
    simp only [BTreeSet.len, not_lt, Nat.le_zero, List.length_eq_zero] at hlen
    simp only [true_iff]
    intro g hg
    by_contra hgs
    have : g ∈ (se.history.remove old).2.toList := mem_remove_iff.mpr ⟨hg, hgs⟩
    simp [hlen] at this

theorem Sound.getHistory_ok {idx : Index} (hs : idx.Sound) (scripthash : ScriptHash) :
    ∃ r, AddrMan.getHistory idx scripthash = .ok r := by
  refine mapM_ok fun hist hmem => ?_
  have hf : hist ∈ idx.historyOf scripthash := by
    unfold Index.getHistory at hmem
    cases hse : idx.scripthashes.lookup scripthash <;> simp_all [historyOf]
  obtain ⟨e, he, -⟩ := Option.map_eq_some'.mp (hs scripthash hist hf)
  exact ⟨(hist.txid, e), by simp [getTx, he]⟩

theorem purgedEntry_address {old : HistoryEntry} {se : ScriptEntry} :
    (purgedEntry old se).map (·.address) =
      if ∀ g ∈ se.history.toList, g.status = old.status then none else some se.address := by
  split
  · rename_i h; rw [purgedEntry_eq_none.mpr h]; rfl
  · rename_i h
    cases hp : purgedEntry old se with
    | none => exact absurd (purgedEntry_eq_none.mp hp) h
    | some se' =>
        dsimp only [purgedEntry] at hp
        split at hp <;> cases hp
        rfl

/-- Under the status-only order the set finds an entry by its status, so a status change
or a purge of `t` acts on the entry of that status whichever transaction it names. -/
theorem statusChange_purge_by_status (idx : Index) (t : Txid) :
    (∀ old new, old ≠ new → ∀ x f, f ∈ (idx.updateTxStatus t old new).historyOf x ↔
      (f ∈ idx.historyOf x ∧ f.status ≠ old) ∨
      (f = ⟨t, new⟩ ∧ (∃ g ∈ idx.historyOf x, g.status = old) ∧
        ∀ g ∈ idx.historyOf x, g.status ≠ new)) ∧
    ∀ e, idx.transactions.lookup t = some e → ∀ x,
      (∀ f, f ∈ (idx.purgeTx t).historyOf x ↔ f ∈ idx.historyOf x ∧ f.status ≠ e.status) ∧
      (idx.purgeTx t).getAddress x =
        if ∀ g ∈ idx.historyOf x, g.status = e.status then none else idx.getAddress x := by
  refine ⟨fun old new hne x f => ?_, fun e he x => ?_⟩
  · simp only [updateTxStatus, hne, if_false, historyOf, lookup_filterMapVal]
    cases idx.scripthashes.lookup x with
    | none => simp
    | some se =>
        simpa only [Option.some_bind, Option.map_some', Option.getD_some]
          using mem_updateHistory_iff hne
  · simp only [purgeTx, he, historyOf, getAddress, lookup_filterMapVal]
    cases idx.scripthashes.lookup x with
    | none => simp
    | some se =>
        refine ⟨fun f => ?_, by simpa using purgedEntry_address⟩
        simp only [Option.some_bind, Option.map_some', Option.getD_some]
        rw [← @mem_purgedEntry_iff ⟨t, e.status⟩ f se]
        cases purgedEntry ⟨t, e.status⟩ se <;> simp

theorem statusChange_purge_by_status_other_address :
    ∃ idx, Index.new.run (fun address => if address = "a" then 1 else 2) (fun _ => true)
        [.ltx ⟨1, "a", "receive", 0, none⟩ 100, .ltx ⟨2, "b", "receive", 0, none⟩ 100] =
          .ok idx ∧ idx.getAddress 2 = some "b" ∧ (idx.purgeTx 1).getAddress 2 = none :=
  ⟨_, rfl, rfl, by
    rw [((statusChange_purge_by_status _ 1).2 ⟨.unconfirmed, none⟩ ?_ 2).2]
    · decide
    · rfl⟩

end Index

theorem index_entries_stored (toSh : Address → ScriptHash) (shouldProcess : String → Bool)
    (calls : List Index.Call) :
    ∃ idx, Index.new.run toSh shouldProcess calls = .ok idx ∧
      (∀ x f, f ∈ idx.historyOf x → idx.txStatus f.txid = some f.status) ∧
      ∀ scripthash, ∃ r, getHistory idx scripthash = .ok r := by
  obtain ⟨idx, h, hs⟩ := Index.sound_new.run toSh shouldProcess calls
  exact ⟨idx, h, hs, hs.getHistory_ok⟩

theorem index_drops_same_status_entry :
    ∃ idx, Index.new.run (fun _ => 9) (fun _ => true)
        [.ltx ⟨1, "a", "receive", 0, none⟩ 100, .ltx ⟨2, "a", "receive", 0, none⟩ 100] =
          .ok idx ∧
      idx.txStatus 2 = some .unconfirmed ∧ getHistory idx 9 = .ok [(1, ⟨.unconfirmed, none⟩)] :=
  ⟨_, rfl, rfl, rfl⟩

end Bwt.AddrMan
