import Mathlib.Data.List.AList

/-!
# Identifiers, panics and hash maps

Transaction ids and script hashes are 256-bit hashes.  The code compares them for
equality and, inside a history, by their byte order, which on the big-endian value
is the order of `Nat`.

A Rust panic is kept as the file, line and message it prints, so that two
assertions of one function with the same text can still be told apart.  Fallible
code returns `Except Panic`.

`HashMap κ ν` is an association list with distinct keys.  Its iteration order is
the order of the list; none of the functions modelled here depends on it.
-/

namespace Bwt

abbrev Txid := Nat

abbrev ScriptHash := Nat

structure Panic where
  file : String
  line : Nat
  message : String
  deriving DecidableEq, Repr

/-- `Option::expect` and `Option::unwrap`. -/
def expect (o : Option α) (p : Panic) : Except Panic α :=
  match o with
  | some a => .ok a
  | none => .error p

/-- `assert!`. -/
def assert (b : Bool) (p : Panic) : Except Panic Unit :=
  if b then .ok () else .error p

@[simp] theorem expect_eq_ok {o : Option α} {p : Panic} {a : α} :
    expect o p = .ok a ↔ o = some a := by
  cases o <;> simp [expect]

@[simp] theorem expect_some (a : α) (p : Panic) : expect (some a) p = .ok a := rfl

@[simp] theorem expect_none (p : Panic) : expect (none : Option α) p = .error p := rfl

@[simp] theorem assert_eq_ok {b : Bool} {p : Panic} {u : Unit} :
    assert b p = .ok u ↔ b = true := by
  cases b <;> simp [assert]

@[simp] theorem expect_eq_error {o : Option α} {p q : Panic} :
    expect o p = .error q ↔ o = none ∧ q = p := by
  cases o <;> simp [expect, eq_comm]

@[simp] theorem assert_eq_error {b : Bool} {p q : Panic} :
    assert b p = .error q ↔ b = false ∧ q = p := by
  cases b <;> simp [assert, eq_comm]

@[simp] theorem ok_ne_error (a : α) (p : Panic) : (Except.ok a : Except Panic α) ≠ .error p :=
  nofun

@[simp] theorem assert_true (p : Panic) : assert true p = .ok () := rfl

@[simp] theorem assert_false (p : Panic) : assert false p = .error p := rfl

theorem bind_eq_ok {x : Except Panic α} {f : α → Except Panic β} {b : β} :
    x >>= f = .ok b ↔ ∃ a, x = .ok a ∧ f a = .ok b := by
  cases x <;> simp [bind, Except.bind]

theorem bind_eq_error {x : Except Panic α} {f : α → Except Panic β} {p : Panic} :
    x >>= f = .error p ↔ x = .error p ∨ ∃ a, x = .ok a ∧ f a = .error p := by
  cases x <;> simp [bind, Except.bind]

@[simp] theorem ok_bind (a : α) (f : α → Except Panic β) :
    (Except.ok a : Except Panic α) >>= f = f a := rfl

@[simp] theorem error_bind (p : Panic) (f : α → Except Panic β) :
    (Except.error p : Except Panic α) >>= f = .error p := rfl

@[simp] theorem pure_eq_ok (a : α) : (pure a : Except Panic α) = .ok a := rfl

theorem mapM_ok {f : α → Except ε β} {l : List α} (h : ∀ a ∈ l, ∃ b, f a = .ok b) :
    ∃ bs, l.mapM f = .ok bs := by
  induction l with
  | nil => exact ⟨[], rfl⟩
  | cons a rest ih =>
      obtain ⟨b, hb⟩ := h a (.head _)
      obtain ⟨bs, hbs⟩ := ih fun a ha => h a (.tail _ ha)
      exact ⟨b :: bs, by rw [List.mapM_cons, hb, hbs]; rfl⟩

theorem mapM_eq_ok_map {f : α → Except ε β} {g : α → β} {l : List α}
    (h : ∀ a ∈ l, f a = .ok (g a)) : l.mapM f = .ok (l.map g) := by
  induction l with
  | nil => rfl
  | cons a rest ih => rw [List.mapM_cons, h a (.head _), ih fun a ha => h a (.tail _ ha)]; rfl

theorem mem_of_mapM_eq_ok {f : α → Except ε β} {l : List α} {bs : List β}
    (h : l.mapM f = .ok bs) : ∀ b ∈ bs, ∃ a ∈ l, f a = .ok b := by
  induction l generalizing bs with
  | nil => cases h; simp
  | cons a rest ih =>
      rw [List.mapM_cons] at h
      cases hfa : f a with
      | error e => rw [hfa] at h; cases h
      | ok b =>
          cases hrest : rest.mapM f with
          | error e => rw [hfa, hrest] at h; cases h
          | ok bs' =>
              rw [hfa, hrest] at h
              cases h
              rintro c (_ | ⟨_, hc⟩)
              · exact ⟨a, .head _, hfa⟩
              · obtain ⟨a', ha', hc'⟩ := ih hrest c hc
                exact ⟨a', .tail _ ha', hc'⟩

theorem map_eq_ok {f : α → β} {x : Except ε α} {b : β} :
    f <$> x = .ok b ↔ ∃ a, x = .ok a ∧ f a = b := by
  cases x <;> simp [Functor.map, Except.map]

abbrev HashMap (κ ν : Type) := AList fun _ : κ => ν

/--
Modelled from the spec: `crate::util::remove_if` is not in the source.  The closure
sees the entry under `key` (and may change it); the entry is removed when the closure
says so, and the result is whether the key was present at all.
-/
def removeIf [DecidableEq κ] (m : HashMap κ ν) (key : κ)
    (predicate : ν → Except Panic (Bool × ν)) : Except Panic (Bool × HashMap κ ν) :=
  match m.lookup key with
  | none => .ok (false, m)
  | some v => do
      let (remove, v) ← predicate v
      pure (true, if remove then m.erase key else m.insert key v)

@[simp] theorem removeIf_of_lookup_none [DecidableEq κ] {m : HashMap κ ν} {key : κ}
    (predicate : ν → Except Panic (Bool × ν)) (h : m.lookup key = none) :
    removeIf m key predicate = .ok (false, m) := by
  simp [removeIf, h]

theorem removeIf_of_lookup_some [DecidableEq κ] {m : HashMap κ ν} {key : κ} {v : ν}
    (predicate : ν → Except Panic (Bool × ν)) (h : m.lookup key = some v) :
    removeIf m key predicate = (predicate v).map
      fun r => (true, if r.1 then m.erase key else m.insert key r.2) := by
  simp only [removeIf, h]
  cases predicate v <;> rfl

/-! ## Changing every value -/

private theorem keys_filterMap_sublist (f : ν → Option ν) (l : List (Σ _ : κ, ν)) :
    List.Sublist (l.filterMap fun e => (f e.2).map fun v => (⟨e.1, v⟩ : Σ _ : κ, ν)).keys
      l.keys := by
  induction l with
  | nil => exact .slnil
  | cons e l ih =>
      cases h : f e.2 with
      | none => simpa [List.filterMap_cons, h] using ih.cons e.1
      | some v => simpa [List.filterMap_cons, h] using ih.cons₂ e.1

section FilterMapVal

variable [DecidableEq κ] (f : ν → Option ν)

/-- A mutating walk over the values that may drop entries, as `retain` with a closure
that changes what it keeps; with `f` never `none`, a mutating walk over the values. -/
def filterMapVal (m : HashMap κ ν) : HashMap κ ν :=
  ⟨m.entries.filterMap fun e : Σ _ : κ, ν => (f e.2).map fun v => ⟨e.1, v⟩,
    (keys_filterMap_sublist f m.entries).nodup m.nodupKeys⟩

@[simp] theorem lookup_filterMapVal (m : HashMap κ ν) (k : κ) :
    (filterMapVal f m).lookup k = (m.lookup k).bind f := by
  obtain ⟨l, hl⟩ := m
  simp only [filterMapVal, AList.lookup]
  induction l with
  | nil => rfl
  | cons e l ih =>
      obtain ⟨a, b⟩ := e
      obtain ⟨hk, hl⟩ := List.nodupKeys_cons.mp hl
      by_cases hka : k = a
      · subst hka
        have hnone : (l.filterMap fun e : Σ _ : κ, ν =>
            (f e.2).map fun v => (⟨e.1, v⟩ : Σ _ : κ, ν)).dlookup k = none :=
          List.dlookup_eq_none.mpr fun h => hk ((keys_filterMap_sublist f l).subset h)
        cases h : f b <;> simp [List.filterMap_cons, h, hnone, List.dlookup_cons_eq]
      · cases h : f b <;>
          simp [List.filterMap_cons, h, List.dlookup_cons_ne, hka, ih hl]

end FilterMapVal

end Bwt
