import Bwt.AddrMan.Sync

/-!
# Where the driver stops

The loop of `load_transactions_since` goes on while a page is exhausted.  A call from
height 0 whose first page comes back full returns at once with that page, and a call on a
feed that never holds as many rows as its pages never returns: every page comes back short,
so the loop goes on with pages twice as long, and a check that fails starts the call over
with pages as long.  On a node that stands still this is the whole behaviour of the call:
it hands on the newest `init_per_page` rows and returns, or it runs forever.

The overlap check compares the popped row with the newest row of the page before, and the
cut-off for a start height reads that same newest row, so on a feed that stands still a
pass that the cut-off sends to a second page is given up there.
-/

namespace Bwt.AddrMan

structure Node.Steady (n : Node) : Prop where
  feed : ∀ t, n.feed t = n.feed 0
  blockCount : ∀ t, n.blockCount t = n.blockCount 0
  blockHash : ∀ t, n.blockHash t (n.blockCount 0) = n.bestBlockHash 0
  bestBlockHash : ∀ t, n.bestBlockHash t = n.bestBlockHash 0

def Node.static (feed : List ListTransactionsResult) (tipHeight tipHash : Nat) : Node :=
  ⟨fun _ => feed, fun _ => tipHeight, fun _ _ => tipHash, fun _ => tipHash, fun _ _ _ => []⟩

theorem Node.static_steady (feed : List ListTransactionsResult) (tipHeight tipHash : Nat) :
    (Node.static feed tipHeight tipHash).Steady :=
  ⟨fun _ => rfl, fun _ => rfl, fun _ => rfl, fun _ => rfl⟩

/-! ## A feed shorter than the pages -/

theorem loadTransactionsSince_of_full {n : Node} {initPerPage : Nat} (hq : 0 < initPerPage)
    (htip : n.blockHash 1 (n.blockCount 0) = n.bestBlockHash 3)
    (hfull : initPerPage ≤ (n.feed 2).length) (fuel : Nat) :
    loadTransactionsSince n initPerPage 0 (fuel + 1) =
      some ⟨[[(((n.feed 2).take initPerPage).reverse, n.blockCount 0)]], 3⟩ := by
  rcases turn_checked_cases n 0 ⟨begin n 0 initPerPage, [], []⟩ with ⟨hno, -⟩ | ⟨-, h⟩
  · exact absurd ⟨htip, by simp⟩ hno
  have hkept : (begin n 0 initPerPage).kept n = (n.feed 2).take initPerPage := rfl
  have hne : (n.feed 2).take initPerPage ≠ [] := by
    rw [ne_eq, List.take_eq_nil_iff]
    rintro (h | h)
    · omega
    · simp only [h, List.length_nil] at hfull; omega
  simp only [Pager.exhausted_zero, Pager.rows, begin_startIndex, begin_perPage, List.drop_zero,
    List.length_take, show min initPerPage (n.feed (begin n 0 initPerPage).moment).length =
      initPerPage from Nat.min_eq_left hfull, lt_irrefl, decide_False, if_false] at h
  simp only [loadTransactionsSince, evalFrom, h, Config.record, hkept,
    List.isEmpty_eq_false.mpr hne, if_false, List.nil_append]
  rfl

section Steady

variable {n : Node} (hn : n.Steady)
include hn

end Steady

def tripleFeed : List ListTransactionsResult :=
  [⟨1, "a", "receive", 0, none⟩, ⟨2, "b", "receive", 0, none⟩, ⟨3, "c", "receive", 0, none⟩]

theorem not_mem_passes_of_txid_ne {passes : List (List Chunk)} {row : ListTransactionsResult}
    (h : ∀ pass ∈ passes, ∀ chunk ∈ pass, ∀ r ∈ chunk.1, r.txid ≠ row.txid) :
    ∀ pass ∈ passes, ∀ chunk ∈ pass, row ∉ chunk.1 :=
  fun pass hp chunk hc hm => h pass hp chunk hc row hm rfl

theorem loadTransactionsSince_returns_without_oldest_row :
    ∃ r, loadTransactionsSince (Node.static tripleFeed 100 7) 2 0 1 = some r ∧
      (∀ t ≤ r.lastMoment, ⟨3, "c", "receive", 0, none⟩ ∈ (Node.static tripleFeed 100 7).feed t) ∧
      ∀ pass ∈ r.passes, ∀ chunk ∈ pass, ⟨3, "c", "receive", 0, none⟩ ∉ chunk.1 :=
  ⟨_, rfl, fun _ _ => by simp [Node.static, tripleFeed], not_mem_passes_of_txid_ne (by decide)⟩

theorem loadTransactionsSince_hides_row_above_floor :
    ∃ r, loadTransactionsSince (Node.static [⟨1, "a", "receive", 0, none⟩,
        ⟨2, "b", "receive", 0, none⟩, ⟨3, "e", "receive", 50, none⟩] 100 7) 2 10 1 = some r ∧
      TxStatus.new 50 100 = .confirmed 51 ∧
      ∀ pass ∈ r.passes, ∀ chunk ∈ pass, ⟨3, "e", "receive", 50, none⟩ ∉ chunk.1 :=
  ⟨_, rfl, rfl, not_mem_passes_of_txid_ne (by decide)⟩

end Bwt.AddrMan
