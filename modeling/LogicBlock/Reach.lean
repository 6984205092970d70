/-
**Reachability among names.**

Names are joined by directed edges.  The names that can be reached from a starting set form the
least set that contains the start and is closed under the edges.  It is computed by sweeping over
all edges until nothing is added; every sweep that adds something adds the head of an edge, so there
are at most as many of them as edges.

Main definitions:

* `Reach.Reachable` — what can be reached, as an inductive relation;
* `Reach.closure` — the same as a set.

Main results:

* `Reach.contains_closure_iff` — **the closure holds exactly what can be reached**, for every list
  of edges and every start.
-/

import LogicBlock.NameSet

set_option relaxedAutoImplicit false
set_option autoImplicit false

namespace LogicBlock

namespace Reach

/-- **What can be reached** along edges, from the names in `start`. -/
inductive Reachable (edges : List (String × String)) (start : String → Prop) : String → Prop where
  | start {name : String} (h : start name) : Reachable edges start name
  | step {tail head : String} (h : Reachable edges start tail) (he : (tail, head) ∈ edges) :
      Reachable edges start head

/-- From more names more can be reached. -/
theorem Reachable.mono {edges : List (String × String)} {start start' : String → Prop}
    (hstart : ∀ name, start name → start' name) {name : String}
    (h : Reachable edges start name) : Reachable edges start' name := by
  induction h with
  | start h => exact .start (hstart _ h)
  | step _ he ih => exact .step ih he

/-- Follows one edge. -/
def follow (s : NameSet) (e : String × String) : NameSet :=
  if s.contains e.1 then s.add e.2 else s

/-- Follows every edge once, in order. -/
def sweep (edges : List (String × String)) (s : NameSet) : NameSet :=
  edges.foldl follow s

/-- Sweeps until nothing is added, at most `bound` times. -/
def sweeps (edges : List (String × String)) : Nat → NameSet → NameSet
  | 0, s => s
  | bound + 1, s =>
    let next := sweep edges s
    if next.size = s.size then s else sweeps edges bound next

/-- The names that can be reached from a set. -/
def closure (edges : List (String × String)) (s : NameSet) : NameSet :=
  sweeps edges edges.length s

/-! ### One sweep -/

theorem follow_eq_or_size_lt (s : NameSet) (e : String × String) :
    follow s e = s ∨ s.size < (follow s e).size := by
  unfold follow
  split
  · by_cases h : s.contains e.2
    · exact .inl (NameSet.add_of_contains h)
    · exact .inr (by rw [NameSet.size_add_of_not_contains h]; omega)
  · exact .inl rfl

theorem size_le_sweep (edges : List (String × String)) (s : NameSet) :
    s.size ≤ (sweep edges s).size := by
  induction edges generalizing s with
  | nil => exact Nat.le_refl _
  | cons e rest ih =>
    have hrest := ih (follow s e)
    rcases follow_eq_or_size_lt s e with h | h
    · rw [h] at hrest
      simpa [sweep, h] using hrest
    · exact Nat.le_trans (Nat.le_of_lt h) hrest

/-- **A sweep that does not make the set larger does not change it.** -/
theorem sweep_eq_of_size_eq {edges : List (String × String)} {s : NameSet}
    (h : (sweep edges s).size = s.size) : ∀ e ∈ edges, follow s e = s := by
  induction edges with
  | nil => simp
  | cons e rest ih =>
    have hle := size_le_sweep rest (follow s e)
    have hfirst : follow s e = s := by
      rcases follow_eq_or_size_lt s e with he | he
      · exact he
      · have : (sweep (e :: rest) s).size = (sweep rest (follow s e)).size := rfl
        omega
    have hstep : sweep (e :: rest) s = sweep rest s := by
      change sweep rest (follow s e) = sweep rest s
      rw [hfirst]
    rw [hstep] at h
    intro e' he'
    rcases List.mem_cons.1 he' with rfl | he'
    · exact hfirst
    · exact ih h e' he'

theorem contains_follow_of_contains {s : NameSet} {name : String} (e : String × String)
    (h : s.contains name) : (follow s e).contains name := by
  unfold follow
  split
  · exact (NameSet.contains_add s e.2 name).2 (.inr h)
  · exact h

theorem contains_sweep_of_contains {edges : List (String × String)} {s : NameSet} {name : String}
    (h : s.contains name) : (sweep edges s).contains name := by
  induction edges generalizing s with
  | nil => exact h
  | cons e rest ih => exact ih (contains_follow_of_contains e h)

/-- A sweep adds heads of edges only. -/
theorem contains_or_mem_of_contains_sweep {edges : List (String × String)} {s : NameSet}
    {name : String} (h : (sweep edges s).contains name) :
    s.contains name ∨ name ∈ edges.map Prod.snd := by
  induction edges generalizing s with
  | nil => exact .inl h
  | cons e rest ih =>
    rcases ih (s := follow s e) h with h | h
    · unfold follow at h
      split at h
      · rcases (NameSet.contains_add s e.2 name).1 h with rfl | h
        · exact .inr (by simp)
        · exact .inl h
      · exact .inl h
    · exact .inr (by simp [h])

/-- What a sweep adds can be reached. -/
theorem reachable_of_contains_sweep {all edges : List (String × String)} {start : String → Prop}
    (hsub : ∀ e ∈ edges, e ∈ all) {s : NameSet}
    (hs : ∀ name, s.contains name → Reachable all start name) {name : String}
    (h : (sweep edges s).contains name) : Reachable all start name := by
  induction edges generalizing s with
  | nil => exact hs name h
  | cons e rest ih =>
    refine ih (fun e' he' => hsub e' (List.mem_cons_of_mem _ he')) (s := follow s e) ?_ h
    intro other hother
    unfold follow at hother
    split at hother
    · rename_i htail
      rcases (NameSet.contains_add s e.2 other).1 hother with rfl | hother
      · exact .step (hs e.1 htail) (hsub e List.mem_cons_self)
      · exact hs other hother
    · exact hs other hother

/-! ### All sweeps -/

/-- The number of edges whose head is not in a set. -/
def missing (edges : List (String × String)) (s : NameSet) : Nat :=
  (edges.filter fun e => !s.contains e.2).length

theorem missing_eq_absent (edges : List (String × String)) (s : NameSet) :
    missing edges s = s.absent (edges.map Prod.snd) := by
  rw [missing, NameSet.absent, List.countP_map, List.countP_eq_length_filter]
  rfl

/-- A sweep that makes the set larger leaves fewer heads missing. -/
theorem missing_sweep_lt {edges : List (String × String)} {s : NameSet}
    (h : (sweep edges s).size ≠ s.size) : missing edges (sweep edges s) < missing edges s := by
  obtain ⟨e, he, hnew, hold⟩ : ∃ e ∈ edges, (sweep edges s).contains e.2 ∧ ¬s.contains e.2 := by
    refine Classical.byContradiction fun hnone => h ?_
    have hsame : sweep edges s = s := by
      refine NameMap.ext_get? fun name => ?_
      have hiff : ((sweep edges s).get? name).isSome ↔ (s.get? name).isSome := by
        constructor
        · intro hc
          rcases contains_or_mem_of_contains_sweep hc with hc' | hc'
          · exact hc'
          · obtain ⟨e, he, rfl⟩ := List.mem_map.1 hc'
            exact Classical.byContradiction fun hn => hnone ⟨e, he, hc, hn⟩
        · exact fun hc => contains_sweep_of_contains hc
      cases h₁ : (sweep edges s).get? name <;> cases h₂ : s.get? name <;> simp_all
    rw [hsame]
  rw [missing_eq_absent, missing_eq_absent]
  exact NameSet.absent_lt (fun _ => contains_sweep_of_contains) (List.mem_map_of_mem he) hold hnew

theorem sweeps_closed {edges : List (String × String)} {bound : Nat} {s : NameSet}
    (h : missing edges s ≤ bound) :
    ∀ e ∈ edges, follow (sweeps edges bound s) e = sweeps edges bound s := by
  induction bound generalizing s with
  | zero =>
    intro e he
    have hin : s.contains e.2 := by
      refine Classical.byContradiction fun hn => ?_
      have : e ∈ edges.filter fun e => !s.contains e.2 := by simp [he, hn]
      have := List.length_pos_of_mem this
      unfold missing at h
      omega
    unfold sweeps follow
    split
    · exact NameSet.add_of_contains hin
    · rfl
  | succ bound ih =>
    by_cases hsize : (sweep edges s).size = s.size
    · simpa [sweeps, hsize] using sweep_eq_of_size_eq hsize
    · have hlt := missing_sweep_lt hsize
      simpa [sweeps, hsize] using ih (s := sweep edges s) (by omega)

theorem contains_sweeps_of_contains {edges : List (String × String)} {bound : Nat} {s : NameSet}
    {name : String} (h : s.contains name) : (sweeps edges bound s).contains name := by
  induction bound generalizing s with
  | zero => exact h
  | succ bound ih =>
    simp only [sweeps]
    split
    · exact h
    · exact ih (contains_sweep_of_contains h)

theorem reachable_of_contains_sweeps {edges : List (String × String)} {start : String → Prop}
    {bound : Nat} {s : NameSet} (hs : ∀ name, s.contains name → Reachable edges start name)
    {name : String} (h : (sweeps edges bound s).contains name) : Reachable edges start name := by
  induction bound generalizing s with
  | zero => exact hs name h
  | succ bound ih =>
    simp only [sweeps] at h
    split at h
    · exact hs name h
    · exact ih (fun _ hother => reachable_of_contains_sweep (fun _ he => he) hs hother) h

/-- **The closure of a set holds exactly the names that can be reached from it.** -/
theorem contains_closure_iff (edges : List (String × String)) (s : NameSet) (name : String) :
    (closure edges s).contains name ↔ Reachable edges (fun n => s.contains n) name := by
  constructor
  · exact reachable_of_contains_sweeps fun _ h => .start h
  · intro h
    induction h with
    | start h => exact contains_sweeps_of_contains h
    | step _ he ih =>
      have hbound : missing edges s ≤ edges.length := List.length_filter_le _ _
      have hclosed := sweeps_closed hbound _ he
      unfold follow at hclosed
      rw [closure] at ih
      rw [if_pos ih] at hclosed
      rw [closure, ← hclosed]
      exact (NameSet.contains_add _ _ _).2 (.inl rfl)

end Reach

end LogicBlock
