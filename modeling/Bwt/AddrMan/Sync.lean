import Bwt.AddrMan.Index

/-!
# The sync driver

`load_transactions_since` pages through the node's `listtransactions` feed, doubling the
page size after each page and stepping the offset by one less than the page size.  After
the first page of a pass it pops the page's last row and compares it, by txid and address,
with the row recorded from the page before; a mismatch, or a tip that moved, starts the
whole call over with the page size reached.  The loop is `while { ..; exhausted } { .. }`:
it goes on while a page comes back short or its last row is confirmed below the start
height, and returns `Ok(())` after the first page that is neither.

The driver is a machine in the style of `step` and `evalFrom`: a configuration is a pass
in progress, `turn` reads one page, and the calls of `chunk_handler` are kept pass by pass.
The node is a function of the moment, the number of calls made to it so far, so that the
feed and the tip may move between any two calls.  Its feed is newest first, and
`Pager.rows` is a page newest first, the reverse of what `listtransactions` hands over.
-/

namespace Bwt.AddrMan

structure Node where
  feed : Nat → List ListTransactionsResult
  blockCount : Nat → Nat
  blockHash : Nat → Nat → Nat
  bestBlockHash : Nat → Nat
  listUnspent : Nat → Nat → Address → List ListUnspentResult

namespace Node

/-- `listtransactions "*" count skip true`: the `count` rows after the `skip` newest,
oldest first. -/
def listTransactions (n : Node) (moment count skip : Nat) : List ListTransactionsResult :=
  (((n.feed moment).drop skip).take count).reverse

end Node

def ListTransactionsResult.key (ltx : ListTransactionsResult) : Txid × Address :=
  (ltx.txid, ltx.address)

structure Pager where
  moment : Nat
  perPage : Nat
  startIndex : Nat
  oldestSeen : Option (Txid × Address)
  tipHeight : Nat
  tipHash : Nat
  deriving DecidableEq, Repr

abbrev Chunk := List ListTransactionsResult × Nat

structure Config where
  pager : Pager
  passes : List (List Chunk)
  current : List Chunk

def begin (n : Node) (moment perPage : Nat) : Pager :=
  let tipHeight := n.blockCount moment
  ⟨moment + 2, perPage, 0, none, tipHeight, n.blockHash (moment + 1) tipHeight⟩

section Pager

variable {n : Node} {m q : Nat} {p : Pager} {o : Option (Txid × Address)}

@[simp] theorem begin_perPage : (begin n m q).perPage = q := rfl
@[simp] theorem begin_startIndex : (begin n m q).startIndex = 0 := rfl
@[simp] theorem begin_oldestSeen : (begin n m q).oldestSeen = none := rfl
@[simp] theorem begin_tipHeight : (begin n m q).tipHeight = n.blockCount m := rfl
@[simp] theorem begin_moment : (begin n m q).moment = m + 2 := rfl

end Pager

def Pager.advance (p : Pager) (oldestSeen : Option (Txid × Address)) : Pager :=
  { p with moment := p.moment + 2, startIndex := p.startIndex + p.perPage - 1,
           perPage := p.perPage * 2, oldestSeen }

section Pager

variable {p : Pager} {o : Option (Txid × Address)}

@[simp] theorem Pager.advance_startIndex :
    (p.advance o).startIndex = p.startIndex + p.perPage - 1 := rfl
@[simp] theorem Pager.advance_oldestSeen : (p.advance o).oldestSeen = o := rfl
@[simp] theorem Pager.advance_tipHeight : (p.advance o).tipHeight = p.tipHeight := rfl
@[simp] theorem Pager.advance_tipHash : (p.advance o).tipHash = p.tipHash := rfl
@[simp] theorem Pager.advance_moment : (p.advance o).moment = p.moment + 2 := rfl

end Pager

/-- `return load_transactions_since(rpc, per_page, ..)`: the pass is given up and a new
call starts with the page size reached, after the page and the tip check were read. -/
def Config.restart (n : Node) (c : Config) : Config :=
  ⟨begin n (c.pager.moment + 2) c.pager.perPage, c.passes ++ [c.current], []⟩

structure Result where
  passes : List (List Chunk)
  lastMoment : Nat

/-- One turn of the loop at `c.pager.moment`; a call that returns ends in `.error`. -/
def turn (n : Node) (startHeight : Nat) (c : Config) : Except Result Config :=
  let p := c.pager
  let chunk := n.listTransactions p.moment p.perPage p.startIndex
  let exhausted := decide (chunk.length < p.perPage)
  if p.tipHash ≠ n.bestBlockHash (p.moment + 1) then .ok (c.restart n)
  else if p.oldestSeen.isSome ∧ chunk.getLast?.map (·.key) ≠ p.oldestSeen then .ok (c.restart n)
  else
    let chunk := if p.oldestSeen.isSome then chunk.dropLast else chunk
    match chunk.getLast? with
    | some last =>
        let exhausted := exhausted || (decide (last.confirmations > 0) &&
          decide (TxStatus.blockHeight last.confirmations p.tipHeight < startHeight))
        let current := c.current ++ [(chunk, p.tipHeight)]
        if exhausted then .ok ⟨p.advance (some last.key), c.passes, current⟩
        else .error ⟨c.passes ++ [current], p.moment + 1⟩
    | none =>
        if exhausted then .ok ⟨p.advance p.oldestSeen, c.passes, c.current⟩
        else .error ⟨c.passes ++ [c.current], p.moment + 1⟩

def evalFrom (n : Node) (startHeight : Nat) : Nat → Config → Option Result
  | 0, _ => none
  | fuel + 1, c =>
      match turn n startHeight c with
      | .error r => some r
      | .ok c' => evalFrom n startHeight fuel c'

/-- `load_transactions_since(rpc, init_per_page, start_height, chunk_handler)`. -/
def loadTransactionsSince (n : Node) (initPerPage startHeight fuel : Nat) : Option Result :=
  evalFrom n startHeight fuel ⟨begin n 0 initPerPage, [], []⟩

theorem evalFrom_induction {n : Node} {startHeight : Nat} (P : Config → Prop)
    (Q : Result → Prop)
    (hstep : ∀ c, P c → (∀ c', turn n startHeight c = .ok c' → P c') ∧
      ∀ r, turn n startHeight c = .error r → Q r)
    {fuel : Nat} {c : Config} (hc : P c) {r : Result} (h : evalFrom n startHeight fuel c = some r) :
    Q r := by
  induction fuel generalizing c with
  | zero => cases h
  | succ fuel ih =>
      simp only [evalFrom] at h
      cases ht : turn n startHeight c with
      | error r' =>
          simp only [ht, Option.some.injEq] at h
          exact h ▸ (hstep c hc).2 r' ht
      | ok c' =>
          simp only [ht] at h
          exact ih ((hstep c hc).1 c' ht) h

/-! ## A page, newest first -/

def Pager.rows (n : Node) (p : Pager) : List ListTransactionsResult :=
  ((n.feed p.moment).drop p.startIndex).take p.perPage

/-- The rows of the page that reach `chunk_handler`: all of them on the first page of a
pass, all but the popped newest row after it. -/
def Pager.kept (n : Node) (p : Pager) : List ListTransactionsResult :=
  if p.oldestSeen.isSome then (p.rows n).tail else p.rows n

/-- `exhausted` after a page that passed both checks: the page came back short, or its
newest kept row is confirmed below the start height. -/
def Pager.exhausted (n : Node) (startHeight : Nat) (p : Pager) : Bool :=
  decide ((p.rows n).length < p.perPage) ||
    (p.kept n).head?.any fun last => decide (last.confirmations > 0) &&
      decide (TxStatus.blockHeight last.confirmations p.tipHeight < startHeight)

def Config.record (n : Node) (c : Config) : List Chunk :=
  if (c.pager.kept n).isEmpty then c.current
  else c.current ++ [((c.pager.kept n).reverse, c.pager.tipHeight)]

def Config.Checked (n : Node) (c : Config) : Prop :=
  c.pager.tipHash = n.bestBlockHash (c.pager.moment + 1) ∧
    ∀ k, c.pager.oldestSeen = some k → (c.pager.rows n).head?.map (·.key) = some k

theorem listTransactions_eq (n : Node) (p : Pager) :
    n.listTransactions p.moment p.perPage p.startIndex = (p.rows n).reverse := rfl

@[simp] theorem Pager.exhausted_zero (n : Node) (p : Pager) :
    p.exhausted n 0 = decide ((p.rows n).length < p.perPage) := by
  unfold Pager.exhausted
  cases (p.kept n).head? <;> simp

theorem turn_checked_cases (n : Node) (startHeight : Nat) (c : Config) :
    (¬ c.Checked n ∧ turn n startHeight c = .ok (c.restart n)) ∨
    (c.Checked n ∧ turn n startHeight c =
      if c.pager.exhausted n startHeight then
        .ok ⟨c.pager.advance (((c.pager.kept n).head?.map (·.key)).or c.pager.oldestSeen),
          c.passes, c.record n⟩
      else .error ⟨c.passes ++ [c.record n], c.pager.moment + 1⟩) := by
  by_cases htip : c.pager.tipHash = n.bestBlockHash (c.pager.moment + 1)
  · by_cases hk : ∀ k, c.pager.oldestSeen = some k → (c.pager.rows n).head?.map (·.key) = some k
    · refine .inr ⟨⟨htip, hk⟩, ?_⟩
      have hpop : ¬ (c.pager.oldestSeen.isSome ∧
          (c.pager.rows n).head?.map (·.key) ≠ c.pager.oldestSeen) := by
        rintro ⟨hs, hne⟩
        obtain ⟨k, hs⟩ := Option.isSome_iff_exists.mp hs
        exact hne (by rw [hk k hs, hs])
      have hchunk : (if c.pager.oldestSeen.isSome then (c.pager.rows n).reverse.dropLast
          else (c.pager.rows n).reverse) = (c.pager.kept n).reverse := by
        unfold Pager.kept; split <;> simp
      simp only [turn, listTransactions_eq, htip, ne_eq, not_true_eq_false, if_false,
        List.getLast?_reverse, hpop, hchunk]
      cases hkept : c.pager.kept n <;> simp [Config.record, Pager.exhausted, hkept]
    · refine .inl ⟨fun h => hk h.2, ?_⟩
      obtain ⟨k, hk⟩ := not_forall.mp hk
      obtain ⟨hs, hne⟩ := Classical.not_imp.mp hk
      simp [turn, listTransactions_eq, htip, hs, hne]
  · exact .inl ⟨fun h => htip h.1, by simp [turn, htip]⟩

/-! ## The tip a returned call saw -/

theorem Pager.mem_feed_of_mem_kept {n : Node} {p : Pager} {row : ListTransactionsResult}
    (h : row ∈ p.kept n) : row ∈ n.feed p.moment := by
  have hrow : row ∈ p.rows n := by
    unfold Pager.kept at h
    split at h
    · exact List.mem_of_mem_tail h
    · exact h
  exact List.mem_of_mem_drop (List.mem_of_mem_take hrow)

theorem Config.mem_record {n : Node} {c : Config} {chunk : Chunk} (h : chunk ∈ c.record n) :
    chunk ∈ c.current ∨ chunk = ((c.pager.kept n).reverse, c.pager.tipHeight) := by
  unfold Config.record at h
  split at h
  · exact .inl h
  · simpa using h

theorem turn_cases (n : Node) (startHeight : Nat) (c : Config) :
    turn n startHeight c = .ok (c.restart n) ∨
    (c.pager.tipHash = n.bestBlockHash (c.pager.moment + 1) ∧
      ∃ added : List Chunk,
        (∀ chunk ∈ added, chunk.2 = c.pager.tipHeight ∧ ∀ row ∈ chunk.1, row ∈ n.feed c.pager.moment) ∧
        (turn n startHeight c = .error ⟨c.passes ++ [c.current ++ added], c.pager.moment + 1⟩ ∨
          ∃ o, turn n startHeight c = .ok ⟨c.pager.advance o, c.passes, c.current ++ added⟩)) := by
  rcases turn_checked_cases n startHeight c with ⟨-, h⟩ | ⟨⟨htip, -⟩, h⟩
  · exact .inl h
  have hadded : ∃ added : List Chunk, c.record n = c.current ++ added ∧
      ∀ chunk ∈ added, chunk.2 = c.pager.tipHeight ∧ ∀ row ∈ chunk.1, row ∈ n.feed c.pager.moment := by
    unfold Config.record
    split
    · exact ⟨[], by simp, by simp⟩
    · exact ⟨_, rfl, by simpa using fun row hrow => Pager.mem_feed_of_mem_kept hrow⟩
  obtain ⟨added, hrec, hadded⟩ := hadded
  refine .inr ⟨htip, added, hadded, ?_⟩
  rw [h, hrec]
  split
  · exact .inr ⟨_, rfl⟩
  · exact .inl rfl

/-- The pass in progress began reading the node at moment `m`: its tip is the block count
read then with the hash of that height read next, every tip check of the pass so far found
that hash, and every call of `chunk_handler` in it carries that height. -/
structure Config.UnderTip (n : Node) (m : Nat) (c : Config) : Prop where
  tipHeight : c.pager.tipHeight = n.blockCount m
  tipHash : c.pager.tipHash = n.blockHash (m + 1) (n.blockCount m)
  moment : ∃ k, c.pager.moment = m + 2 + 2 * k
  held : ∀ j, m + 2 + 2 * j < c.pager.moment →
    n.bestBlockHash (m + 3 + 2 * j) = n.blockHash (m + 1) (n.blockCount m)
  current : ∀ chunk ∈ c.current, chunk.2 = n.blockCount m

section UnderTip

variable {n : Node} {m : Nat}

theorem Config.underTip_begin (perPage : Nat) (passes : List (List Chunk)) :
    (⟨begin n m perPage, passes, []⟩ : Config).UnderTip n m :=
  ⟨rfl, rfl, ⟨0, rfl⟩, fun j hj => by simp only [begin_moment] at hj; omega, by simp⟩

theorem Config.UnderTip.turn {startHeight : Nat} {c : Config} (hc : c.UnderTip n m) :
    (∀ c', AddrMan.turn n startHeight c = .ok c' → ∃ m', c'.UnderTip n m') ∧
    ∀ r, AddrMan.turn n startHeight c = .error r →
      (∃ k, r.lastMoment = m + 3 + 2 * k) ∧
      (∀ j, m + 2 + 2 * j < r.lastMoment →
        n.bestBlockHash (m + 3 + 2 * j) = n.blockHash (m + 1) (n.blockCount m)) ∧
      ∃ final, r.passes.getLast? = some final ∧ ∀ chunk ∈ final, chunk.2 = n.blockCount m := by
  obtain ⟨k, hk⟩ := hc.moment
  have hheld : ∀ held : c.pager.tipHash = n.bestBlockHash (c.pager.moment + 1),
      ∀ j, m + 2 + 2 * j < c.pager.moment + 1 →
        n.bestBlockHash (m + 3 + 2 * j) = n.blockHash (m + 1) (n.blockCount m) := by
    intro held j hj
    rcases Nat.lt_succ_iff_lt_or_eq.mp hj with hj | hj
    · exact hc.held j hj
    · rw [← hc.tipHash, held]; congr 1; omega
  have hchunks : ∀ added : List Chunk, (∀ chunk ∈ added, chunk.2 = c.pager.tipHeight ∧
      ∀ row ∈ chunk.1, row ∈ n.feed c.pager.moment) →
      ∀ chunk ∈ c.current ++ added, chunk.2 = n.blockCount m := by
    intro added hadded chunk hchunk
    rcases List.mem_append.mp hchunk with h | h
    · exact hc.current chunk h
    · rw [(hadded chunk h).1, hc.tipHeight]
  rcases turn_cases n startHeight c with h | ⟨held, added, hadded, h | ⟨o, h⟩⟩ <;> rw [h]
  · refine ⟨fun c' h' => ⟨c.pager.moment + 2, ?_⟩, fun r h' => by cases h'⟩
    cases h'
    exact Config.underTip_begin _ _
  · refine ⟨fun c' h' => (by cases h'), fun r h' => ?_⟩
    cases h'
    exact ⟨⟨k, by dsimp only; omega⟩, hheld held, _, by simp, hchunks added hadded⟩
  · refine ⟨fun c' h' => ⟨m, ?_⟩, fun r h' => by cases h'⟩
    cases h'
    exact ⟨hc.tipHeight, hc.tipHash, ⟨k + 1, by simp only [Pager.advance_moment]; omega⟩,
      fun j hj => hheld held j (by simp only [Pager.advance_moment] at hj; omega),
      hchunks added hadded⟩

theorem Config.UnderTip.evalFrom {startHeight fuel : Nat} {c : Config} (hc : c.UnderTip n m)
    {r : Result} (h : AddrMan.evalFrom n startHeight fuel c = some r) :
    ∃ m, (∃ k, r.lastMoment = m + 3 + 2 * k) ∧
      (∀ j, m + 2 + 2 * j < r.lastMoment →
        n.bestBlockHash (m + 3 + 2 * j) = n.blockHash (m + 1) (n.blockCount m)) ∧
      ∃ final, r.passes.getLast? = some final ∧ ∀ chunk ∈ final, chunk.2 = n.blockCount m :=
  evalFrom_induction (fun c => ∃ m, c.UnderTip n m)
    (fun r => ∃ m, (∃ k, r.lastMoment = m + 3 + 2 * k) ∧
      (∀ j, m + 2 + 2 * j < r.lastMoment →
        n.bestBlockHash (m + 3 + 2 * j) = n.blockHash (m + 1) (n.blockCount m)) ∧
      ∃ final, r.passes.getLast? = some final ∧ ∀ chunk ∈ final, chunk.2 = n.blockCount m)
    (fun _ ⟨m, hc⟩ => ⟨hc.turn.1, fun r hr => ⟨m, hc.turn.2 r hr⟩⟩) ⟨m, hc⟩ h

end UnderTip

theorem loadTransactionsSince_under_one_tip (n : Node) (initPerPage startHeight fuel : Nat)
    {r : Result} (h : loadTransactionsSince n initPerPage startHeight fuel = some r) :
    ∃ m, (∃ k, r.lastMoment = m + 3 + 2 * k) ∧
      (∀ j, m + 2 + 2 * j < r.lastMoment →
        n.bestBlockHash (m + 3 + 2 * j) = n.blockHash (m + 1) (n.blockCount m)) ∧
      ∃ final, r.passes.getLast? = some final ∧ ∀ chunk ∈ final, chunk.2 = n.blockCount m :=
  (Config.underTip_begin initPerPage []).evalFrom h

def movedTipNode : Node :=
  ⟨fun _ => [⟨1, "a", "receive", 0, none⟩, ⟨2, "b", "receive", 0, none⟩],
    fun t => if t < 3 then 100 else 101, fun _ height => height,
    fun t => if t < 3 then 100 else 101, fun _ _ _ => []⟩

theorem loadTransactionsSince_under_one_tip_moved :
    ∃ r, loadTransactionsSince movedTipNode 2 0 2 = some r ∧ r.passes.length = 2 ∧
      ∃ m, (∃ k, r.lastMoment = m + 3 + 2 * k) ∧
        (∀ j, m + 2 + 2 * j < r.lastMoment → movedTipNode.bestBlockHash (m + 3 + 2 * j) =
          movedTipNode.blockHash (m + 1) (movedTipNode.blockCount m)) ∧
        ∃ final, r.passes.getLast? = some final ∧
          ∀ chunk ∈ final, chunk.2 = movedTipNode.blockCount m :=
  ⟨_, rfl, rfl, loadTransactionsSince_under_one_tip movedTipNode 2 0 2 rfl⟩

end Bwt.AddrMan
