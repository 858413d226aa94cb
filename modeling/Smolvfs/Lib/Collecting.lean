import Mathlib.Data.List.Basic

/-!
# Walks that collect what is missing

A walk over a graph with a list of nodes to look at: a node that is there is
dropped, one that is not is collected and its kids are put on the list.  It never
looks past a node that was there when it began (`had`), so it meets less than
is reached.

* `Frontier.take`, `Frontier.drop`: the invariant, one step on;
* `Frontier.done_iff`: with nothing left to look at, all that is reached is there
  exactly when nothing missing was hidden behind a node that was there.
-/

namespace Collecting

variable {N : Type} (kids : N → List N) (had : N → Prop) (root : N)

/-- What the edges reach. -/
inductive Reaches : N → Prop
  | root : Reaches root
  | kid {n k : N} (hn : Reaches n) (hk : k ∈ kids n) : Reaches k

/-- What a walk looks at: it goes on from a node that was missing. -/
inductive Meets : N → Prop
  | root : Meets root
  | kid {n k : N} (hn : Meets n) (hno : ¬ had n) (hk : k ∈ kids n) : Meets k

/-- Nothing that was missing is hidden behind what was there. -/
def NothingHidden : Prop := ∀ n, Reaches kids root n → had n ∨ Meets kids had root n

/-- Every node that was there has its kids there. -/
theorem nothingHidden_of_closed (h : ∀ n, had n → ∀ k ∈ kids n, had k) : NothingHidden kids had root := by
  intro n hn
  induction hn with
  | root => exact Or.inr .root
  | @kid n k hn hk ih =>
    by_cases hhad : had n
    · exact Or.inl (h n hhad k hk)
    · rcases ih with ih | ih
      · exact absurd ih hhad
      · exact Or.inr (.kid ih hhad hk)

/-- What is there in the middle of a walk, and what it still has to look at. -/
structure Frontier (got : N → Prop) (queue : List N) : Prop where
  kept : ∀ n, had n → got n
  met : ∀ n, got n → had n ∨ Meets kids had root n
  queued : ∀ n ∈ queue, Meets kids had root n
  root : got root ∨ root ∈ queue
  kids : ∀ n, got n → ¬ had n → ∀ k ∈ kids n, got k ∨ k ∈ queue

variable {kids had root} {got : N → Prop} {queue : List N}

theorem frontier_start : Frontier kids had root had [root] where
  kept := fun _ h => h
  met := fun _ h => Or.inl h
  queued := by
    intro n hn
    rw [List.mem_singleton.mp hn]
    exact .root
  root := Or.inr (List.mem_singleton.mpr rfl)
  kids := fun n h hno => absurd h hno

/-- A node that is there is dropped. -/
theorem Frontier.drop {n : N} (h : Frontier kids had root got (n :: queue)) (hn : got n) :
    Frontier kids had root got queue := by
  have hstays : ∀ m, got m ∨ m ∈ n :: queue → got m ∨ m ∈ queue := by
    rintro m (hm | hm)
    · exact Or.inl hm
    · rcases List.mem_cons.mp hm with rfl | hm
      · exact Or.inl hn
      · exact Or.inr hm
  exact ⟨h.kept, h.met, fun m hm => h.queued m (List.mem_cons_of_mem _ hm), hstays _ h.root,
    fun m hm hno k hk => hstays k (h.kids m hm hno k hk)⟩

/-- A node that is not there is collected, and its kids are to be looked at. -/
theorem Frontier.take {n : N} (h : Frontier kids had root got (n :: queue)) (hn : ¬ got n) (more : List N)
    (hmore : ∀ k, k ∈ more ↔ k ∈ kids n) :
    Frontier kids had root (fun m => got m ∨ m = n) (more ++ queue) := by
  have hno : ¬ had n := fun hh => hn (h.kept n hh)
  have hmeets := h.queued n List.mem_cons_self
  have hstays : ∀ m, got m ∨ m ∈ n :: queue → (got m ∨ m = n) ∨ m ∈ more ++ queue := by
    rintro m (hm | hm)
    · exact Or.inl (Or.inl hm)
    · rcases List.mem_cons.mp hm with rfl | hm
      · exact Or.inl (Or.inr rfl)
      · exact Or.inr (List.mem_append_right _ hm)
  constructor
  · intro m hm
    exact Or.inl (h.kept m hm)
  · rintro m (hm | rfl)
    · exact h.met m hm
    · exact Or.inr hmeets
  · intro m hm
    rcases List.mem_append.mp hm with hm | hm
    · exact .kid hmeets hno ((hmore m).mp hm)
    · exact h.queued m (List.mem_cons_of_mem _ hm)
  · exact hstays _ h.root
  · rintro m (hm | rfl) hmno k hk
    · exact hstays k (h.kids m hm hmno k hk)
    · exact Or.inr (List.mem_append_left _ ((hmore k).mpr hk))

/-- At the end all that the walk meets is there. -/
theorem Frontier.met_got (h : Frontier kids had root got []) (n : N) (hn : Meets kids had root n) : got n := by
  induction hn with
  | root => exact h.root.resolve_right List.not_mem_nil
  | kid _ hno hk ih => exact (h.kids _ ih hno _ hk).resolve_right List.not_mem_nil

/-- **What a finished walk leaves**: `kids'` are the edges as they are seen then, where a node that is not
there has none. -/
theorem Frontier.done_iff (h : Frontier kids had root got []) (kids' : N → List N)
    (hgot : ∀ n, got n → kids' n = kids n) (hnot : ∀ n, ¬ got n → kids' n = []) :
    (∀ n, Reaches kids' root n → got n) ↔ NothingHidden kids had root := by
  constructor
  · intro hall n hn
    have hn' : Reaches kids' root n := by
      induction hn with
      | root => exact .root
      | kid _ hk ih =>
        apply Reaches.kid ih
        rw [hgot _ (hall _ ih)]
        exact hk
    exact h.met n (hall n hn')
  · intro hhid n hn
    have hn' : Reaches kids root n := by
      induction hn with
      | root => exact .root
      | @kid m k _ hk ih =>
        by_cases hm : got m
        · rw [hgot m hm] at hk
          exact .kid ih hk
        · rw [hnot m hm] at hk
          cases hk
    rcases hhid n hn' with hhad | hmeets
    · exact h.kept n hhad
    · exact h.met_got n hmeets

end Collecting
