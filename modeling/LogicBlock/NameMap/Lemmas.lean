/-
**The laws of maps keyed by names.**

Everything about a map can be said through its lookups.  Each operation has one equation that says
what it does to every lookup, and two maps with equal lookups are equal.

Main results:

* `NameMap.ext_get?` — **maps with equal lookups are equal**;
* `NameMap.get?_insert`, `NameMap.get?_override`, `NameMap.get?_map`, `NameMap.get?_restrict` — one
  equation for each operation through `get?`;
* `NameMap.get?_insertAll`, `NameMap.get?_ofList_eq_some_iff` — writing many entries;
* `NameMap.restrict_insert_of_pos`, `NameMap.restrict_insert_of_neg` — writing an entry and keeping
  some keys;
* `NameMap.mem_entries_iff`, `NameMap.mem_keys_iff`, `NameMap.keys_eq_iff` — the entries and the
  keys are what the lookups show.
-/

import LogicBlock.NameMap

set_option relaxedAutoImplicit false
set_option autoImplicit false

namespace LogicBlock

namespace NameMap

variable {α β : Type}

/-! ### The operations through `get?` -/

@[simp] theorem get?_empty (key : String) : (empty : NameMap α).get? key = none :=
  rfl

theorem lookup_eq_none_of_lt {key : String} {l : List (String × α)} (h : ∀ e ∈ l, key < e.1) :
    lookup key l = none := by
  induction l with
  | nil => rfl
  | cons e rest ih =>
    have hk : key ≠ e.1 := fun he => String.lt_irrefl e.1 (he ▸ h e List.mem_cons_self)
    rw [lookup, if_neg hk]
    exact ih fun e he => h e (List.mem_cons_of_mem _ he)

theorem lookup_insertEntry (key : String) (value : α) (other : String) (l : List (String × α)) :
    lookup other (insertEntry key value l) =
      if other = key then some value else lookup other l := by
  induction l with
  | nil => rfl
  | cons e rest ih =>
    simp only [insertEntry]
    split
    · rfl
    · split
      · rename_i heq
        subst heq
        by_cases h : other = e.1 <;> simp [lookup, h]
      · rename_i hne
        by_cases hk : other = e.1
        · subst hk
          simp [lookup, Ne.symm hne]
        · simp [lookup, hk, ih]

/-- **A written entry is read back, and no other name is affected.** -/
@[simp] theorem get?_insert (m : NameMap α) (key : String) (value : α) (other : String) :
    (m.insert key value).get? other = if other = key then some value else m.get? other :=
  lookup_insertEntry key value other m.entries

theorem lookup_map (f : α → β) (key : String) (l : List (String × α)) :
    lookup key (l.map fun e => (e.1, f e.2)) = (lookup key l).map f := by
  induction l with
  | nil => rfl
  | cons e rest ih => by_cases hk : key = e.1 <;> simp [lookup, hk, ih]

@[simp] theorem get?_map (f : α → β) (m : NameMap α) (key : String) :
    (m.map f).get? key = (m.get? key).map f :=
  lookup_map f key m.entries

theorem lookup_filter (p : String → Bool) (key : String) (l : List (String × α)) :
    lookup key (l.filter fun e => p e.1) = if p key then lookup key l else none := by
  induction l with
  | nil => simp [lookup]
  | cons e rest ih =>
    by_cases hk : key = e.1
    · subst hk
      by_cases hp : p e.1 <;> simp [lookup, hp, ih]
    · by_cases hp : p e.1 <;> simp [lookup, hp, hk, ih]

@[simp] theorem get?_restrict (m : NameMap α) (p : String → Bool) (key : String) :
    (m.restrict p).get? key = if p key then m.get? key else none :=
  lookup_filter p key m.entries

theorem mem_iff_lookup (key : String) (value : α) {l : List (String × α)}
    (hl : l.Pairwise (·.1 < ·.1)) : (key, value) ∈ l ↔ lookup key l = some value := by
  induction l with
  | nil => simp [lookup]
  | cons e rest ih =>
    obtain ⟨k, v⟩ := e
    have hrest := List.pairwise_cons.1 hl
    rw [List.mem_cons]
    by_cases hk : key = k
    · subst hk
      have hnot : (key, value) ∉ rest := fun h =>
        String.lt_irrefl key (hrest.1 (key, value) h)
      simp [lookup, hnot, eq_comm]
    · simp [lookup, hk, ih hrest.2]

/-- The entries are the pairs that the lookups show. -/
theorem mem_entries_iff (m : NameMap α) (key : String) (value : α) :
    (key, value) ∈ m.entries ↔ m.get? key = some value :=
  mem_iff_lookup key value m.ascending

/-- A name is a key exactly when it has a value. -/
theorem mem_keys_iff (m : NameMap α) (key : String) : key ∈ m.keys ↔ (m.get? key).isSome := by
  rw [keys, List.mem_map, Option.isSome_iff_exists]
  constructor
  · rintro ⟨⟨k, v⟩, h, rfl⟩
    exact ⟨v, (m.mem_entries_iff k v).1 h⟩
  · rintro ⟨v, h⟩
    exact ⟨(key, v), (m.mem_entries_iff key v).2 h, rfl⟩

/-- The keys ascend. -/
theorem pairwise_keys (m : NameMap α) : m.keys.Pairwise (· < ·) :=
  List.pairwise_map.2 m.ascending

theorem get?_insertAll_of_pairwise (m : NameMap α) {l : List (String × α)}
    (hl : l.Pairwise (·.1 < ·.1)) (key : String) :
    (m.insertAll l).get? key = (lookup key l).or (m.get? key) := by
  induction l generalizing m with
  | nil => rfl
  | cons e rest ih =>
    have hrest := List.pairwise_cons.1 hl
    have hstep : m.insertAll (e :: rest) = (m.insert e.1 e.2).insertAll rest := rfl
    rw [hstep, ih _ hrest.2, lookup, get?_insert]
    by_cases hk : key = e.1
    · subst hk
      simp [lookup_eq_none_of_lt hrest.1]
    · simp [hk]

/-- **After overriding, a name reads as in the overriding map, and else as before.** -/
@[simp] theorem get?_override (m n : NameMap α) (key : String) :
    (m.override n).get? key = (n.get? key).or (m.get? key) :=
  get?_insertAll_of_pairwise m n.ascending key

theorem lookup_append (key : String) (l l' : List (String × α)) :
    lookup key (l ++ l') = (lookup key l).or (lookup key l') := by
  induction l with
  | nil => rfl
  | cons e rest ih => by_cases hk : key = e.1 <;> simp [lookup, hk, ih]

/-- **Of the entries that are written one after the other, the last one for a key counts.** -/
theorem get?_insertAll (m : NameMap α) (l : List (String × α)) (key : String) :
    (m.insertAll l).get? key = (lookup key l.reverse).or (m.get? key) := by
  induction l generalizing m with
  | nil => rfl
  | cons e rest ih =>
    have hstep : m.insertAll (e :: rest) = (m.insert e.1 e.2).insertAll rest := rfl
    rw [hstep, ih, List.reverse_cons, lookup_append, Option.or_assoc]
    by_cases hk : key = e.1 <;> simp [lookup, hk]

theorem get?_ofList (l : List (String × α)) (key : String) :
    (ofList l).get? key = lookup key l.reverse := by
  rw [ofList, get?_insertAll, get?_empty, Option.or_none]

theorem lookup_eq_none_iff (key : String) (l : List (String × α)) :
    lookup key l = none ↔ ∀ e ∈ l, e.1 ≠ key := by
  induction l with
  | nil => simp [lookup]
  | cons e rest ih =>
    by_cases hk : key = e.1
    · simp [lookup, hk]
    · simp [lookup, hk, ih, Ne.symm hk]

/-- The value that a lookup finds stands in the list, under its key. -/
theorem mem_of_lookup_eq_some {key : String} {value : α} {l : List (String × α)}
    (h : lookup key l = some value) : (key, value) ∈ l := by
  induction l with
  | nil => simp [lookup] at h
  | cons e rest ih =>
    by_cases hk : key = e.1
    · subst hk
      simp only [lookup, if_pos, Option.some.injEq] at h
      simp [← h]
    · simp only [lookup, if_neg hk] at h
      exact List.mem_cons_of_mem _ (ih h)

/-- A map of entries has no others. -/
theorem mem_of_mem_entries_ofList {l : List (String × α)} {e : String × α}
    (h : e ∈ (ofList l).entries) : e ∈ l := by
  obtain ⟨key, value⟩ := e
  rw [mem_entries_iff, get?_ofList] at h
  exact List.mem_reverse.1 (mem_of_lookup_eq_some h)

/-- A map of entries among which no key has two values has exactly these entries. -/
theorem get?_ofList_eq_some_iff {l : List (String × α)}
    (hl : ∀ k v w, (k, v) ∈ l → (k, w) ∈ l → v = w) (key : String) (value : α) :
    (ofList l).get? key = some value ↔ (key, value) ∈ l := by
  rw [get?_ofList]
  constructor
  · intro h
    exact List.mem_reverse.1 (mem_of_lookup_eq_some h)
  · intro h
    cases hv : lookup key l.reverse with
    | none => exact absurd rfl ((lookup_eq_none_iff key _).1 hv _ (List.mem_reverse.2 h))
    | some w => rw [hl key w value (List.mem_reverse.1 (mem_of_lookup_eq_some hv)) h]

/-- A map that gives one value to every listed key. -/
theorem get?_ofList_const (keys : List String) (value : α) (key : String) :
    (ofList (keys.map fun k => (k, value))).get? key = if key ∈ keys then some value else none := by
  by_cases hk : key ∈ keys
  · rw [if_pos hk, get?_ofList_eq_some_iff]
    · exact List.mem_map.2 ⟨key, hk, rfl⟩
    · intro k v w hv hw
      simp only [List.mem_map, Prod.mk.injEq] at hv hw
      obtain ⟨_, _, _, rfl⟩ := hv
      obtain ⟨_, _, _, rfl⟩ := hw
      rfl
  · rw [if_neg hk, get?_ofList, lookup_eq_none_iff]
    rintro e he rfl
    simp only [List.mem_reverse, List.mem_map] at he
    obtain ⟨k, hk', rfl⟩ := he
    exact hk hk'

/-! ### Extensionality -/

theorem entries_ext :
    ∀ {l l' : List (String × α)}, l.Pairwise (·.1 < ·.1) → l'.Pairwise (·.1 < ·.1) →
      (∀ e, e ∈ l ↔ e ∈ l') → l = l'
  | [], [], _, _, _ => rfl
  | [], e :: l', _, _, h => absurd ((h e).2 List.mem_cons_self) List.not_mem_nil
  | e :: l, [], _, _, h => absurd ((h e).1 List.mem_cons_self) List.not_mem_nil
  | e :: l, e' :: l', hl, hl', h => by
    have hl := List.pairwise_cons.1 hl
    have hl' := List.pairwise_cons.1 hl'
    have he : e = e' := by
      rcases List.mem_cons.1 ((h e).1 List.mem_cons_self) with he | he
      · exact he
      · rcases List.mem_cons.1 ((h e').2 List.mem_cons_self) with he' | he'
        · exact he'.symm
        · exact absurd (hl.1 _ he') (String.lt_asymm (hl'.1 _ he))
    subst he
    congr 1
    refine entries_ext hl.2 hl'.2 fun x => ⟨fun hx => ?_, fun hx => ?_⟩
    · rcases List.mem_cons.1 ((h x).1 (List.mem_cons_of_mem _ hx)) with rfl | hx'
      · exact absurd (hl.1 _ hx) (String.lt_irrefl _)
      · exact hx'
    · rcases List.mem_cons.1 ((h x).2 (List.mem_cons_of_mem _ hx)) with rfl | hx'
      · exact absurd (hl'.1 _ hx) (String.lt_irrefl _)
      · exact hx'

/-- **Maps with equal lookups are equal.** -/
theorem ext_get? {m n : NameMap α} (h : ∀ key, m.get? key = n.get? key) : m = n := by
  refine eq_of_entries (entries_ext m.ascending n.ascending fun ⟨k, v⟩ => ?_)
  rw [mem_entries_iff, mem_entries_iff, h]

/-- A map is what its entries make, written one after the other. -/
theorem ofList_entries (m : NameMap α) : ofList m.entries = m := by
  refine ext_get? fun key => Option.ext fun value => ?_
  rw [get?_ofList_eq_some_iff, mem_entries_iff]
  intro k v w hv hw
  rw [mem_entries_iff] at hv hw
  exact Option.some.inj (hv.symm.trans hw)

/-- An entry that is written stays if its key does. -/
theorem restrict_insert_of_pos {p : String → Bool} {key : String} (h : p key) (m : NameMap α)
    (value : α) : (m.insert key value).restrict p = (m.restrict p).insert key value := by
  refine ext_get? fun other => ?_
  rw [get?_restrict, get?_insert, get?_insert, get?_restrict]
  by_cases hother : other = key
  · rw [hother, if_pos h, if_pos rfl, if_pos rfl]
  · rw [if_neg hother, if_neg hother]

/-- An entry that is written makes no difference if its key does not stay. -/
theorem restrict_insert_of_neg {p : String → Bool} {key : String} (h : ¬p key) (m : NameMap α)
    (value : α) : (m.insert key value).restrict p = m.restrict p := by
  refine ext_get? fun other => ?_
  rw [get?_restrict, get?_insert, get?_restrict]
  by_cases hother : other = key
  · rw [hother, if_neg h, if_neg h]
  · rw [if_neg hother]

/-- Maps have the same keys exactly when they have values for the same names. -/
theorem keys_eq_iff {m : NameMap α} {n : NameMap β} :
    m.keys = n.keys ↔ ∀ key, m.contains key = n.contains key := by
  constructor
  · intro h key
    rw [Bool.eq_iff_iff, contains, contains, ← mem_keys_iff, ← mem_keys_iff, h]
  · intro h
    -- without their values the two maps are equal
    have hunit : m.map (fun _ => ()) = n.map fun _ => () := by
      refine ext_get? fun key => ?_
      have hkey := h key
      rw [contains, contains] at hkey
      rw [get?_map, get?_map]
      cases hm : m.get? key <;> cases hn : n.get? key <;> simp_all
    have hkeys : ∀ {γ : Type} (p : NameMap γ), (p.map fun _ => ()).keys = p.keys :=
      fun p => by simp [keys, map, Function.comp_def]
    rw [← hkeys m, hunit, hkeys n]

end NameMap

end LogicBlock
