/-
**Finite maps keyed by names.**

A `NameMap` is a list of entries whose keys ascend strictly, in code-point order.  The order is
part of the type, so a map has one representation only: two maps with the same lookups are equal,
and the entries of a map come out sorted by name.

Main definitions:

* `NameMap` — the maps, and `NameMap.get?`, `NameMap.contains`, `NameMap.keys` to look at them;
* `NameMap.insert`, `NameMap.override`, `NameMap.ofList` — writing one entry, or many in turn;
* `NameMap.map`, `NameMap.restrict` — changing every value, keeping some of the keys.
-/

set_option relaxedAutoImplicit false
set_option autoImplicit false

namespace LogicBlock

/-- A finite map from names to values, kept in ascending order of names. -/
structure NameMap (α : Type) where
  entries : List (String × α)
  ascending : entries.Pairwise (·.1 < ·.1)

namespace NameMap

variable {α β : Type}

theorem eq_of_entries {m n : NameMap α} (h : m.entries = n.entries) : m = n := by
  cases m; cases n; cases h; rfl

instance [DecidableEq α] : DecidableEq (NameMap α) := fun m n =>
  if h : m.entries = n.entries then .isTrue (eq_of_entries h)
  else .isFalse fun e => h (congrArg entries e)

/-! ### Looking at a map -/

/-- The map without entries. -/
def empty : NameMap α :=
  ⟨[], .nil⟩

instance : Inhabited (NameMap α) := ⟨empty⟩

/-- The value of the first entry that has the key. -/
def lookup (key : String) : List (String × α) → Option α
  | [] => none
  | e :: rest => if key = e.1 then some e.2 else lookup key rest

/-- The value at a name. -/
def get? (m : NameMap α) (key : String) : Option α :=
  lookup key m.entries

/-- Whether a name has a value. -/
def contains (m : NameMap α) (key : String) : Bool :=
  (m.get? key).isSome

/-- The names that have a value, in ascending order. -/
def keys (m : NameMap α) : List String :=
  m.entries.map (·.1)

/-- The number of entries. -/
def size (m : NameMap α) : Nat :=
  m.entries.length

/-- Whether there are no entries. -/
def isEmpty (m : NameMap α) : Bool :=
  m.entries.isEmpty

/-! ### Writing -/

/-- Writes one entry into an ascending list: in front of the first larger key, or over the entry
that has the key already. -/
def insertEntry (key : String) (value : α) : List (String × α) → List (String × α)
  | [] => [(key, value)]
  | (k, v) :: rest =>
    if key < k then (key, value) :: (k, v) :: rest
    else if key = k then (key, value) :: rest
    else (k, v) :: insertEntry key value rest

theorem fst_of_mem_insertEntry {key : String} {value : α} {e : String × α} :
    ∀ {l : List (String × α)}, e ∈ insertEntry key value l → e.1 = key ∨ e ∈ l
  | [], h => by simp_all [insertEntry]
  | (k, v) :: rest, h => by
    unfold insertEntry at h
    split at h
    · rcases List.mem_cons.1 h with rfl | h
      · exact .inl rfl
      · exact .inr h
    · split at h
      · rcases List.mem_cons.1 h with rfl | h
        · exact .inl rfl
        · exact .inr (List.mem_cons_of_mem _ h)
      · rcases List.mem_cons.1 h with rfl | h
        · exact .inr List.mem_cons_self
        · exact (fst_of_mem_insertEntry h).imp id (List.mem_cons_of_mem _)

theorem lt_of_not_lt_of_ne {a b : String} (hlt : ¬a < b) (hne : a ≠ b) : b < a :=
  Decidable.byContradiction fun h => hne (String.le_antisymm h hlt)

theorem pairwise_insertEntry (key : String) (value : α) :
    ∀ {l : List (String × α)}, l.Pairwise (·.1 < ·.1) →
      (insertEntry key value l).Pairwise (·.1 < ·.1)
  | [], _ => by simp [insertEntry]
  | (k, v) :: rest, h => by
    have hrest := List.pairwise_cons.1 h
    unfold insertEntry
    split
    · rename_i hlt
      refine List.pairwise_cons.2 ⟨fun e he => ?_, h⟩
      rcases List.mem_cons.1 he with rfl | he
      · exact hlt
      · exact String.lt_trans hlt (hrest.1 e he)
    · rename_i hlt
      split
      · rename_i heq
        subst heq
        exact List.pairwise_cons.2 hrest
      · rename_i hne
        refine List.pairwise_cons.2 ⟨fun e he => ?_, pairwise_insertEntry key value hrest.2⟩
        rcases fst_of_mem_insertEntry he with h' | h'
        · rw [h']; exact lt_of_not_lt_of_ne hlt hne
        · exact hrest.1 e h'

/-- Gives a name a value, over any value that it has. -/
def insert (m : NameMap α) (key : String) (value : α) : NameMap α :=
  ⟨insertEntry key value m.entries, pairwise_insertEntry key value m.ascending⟩

/-- Writes entries one after the other, so that of two entries with one key the later one counts. -/
def insertAll (m : NameMap α) (l : List (String × α)) : NameMap α :=
  l.foldl (fun m e => m.insert e.1 e.2) m

/-- The map of the given entries, of which the last one for a key counts. -/
def ofList (l : List (String × α)) : NameMap α :=
  empty.insertAll l

/-- Writes every entry of `n` into `m`. -/
def override (m n : NameMap α) : NameMap α :=
  m.insertAll n.entries

/-! ### Changing every value, keeping some keys -/

/-- Applies `f` to every value. -/
def map (f : α → β) (m : NameMap α) : NameMap β :=
  ⟨m.entries.map fun e => (e.1, f e.2), List.pairwise_map.2 m.ascending⟩

/-- The entries whose key satisfies `p`. -/
def restrict (m : NameMap α) (p : String → Bool) : NameMap α :=
  ⟨m.entries.filter fun e => p e.1, m.ascending.filter _⟩

end NameMap

end LogicBlock
