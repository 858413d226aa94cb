import Mathlib.Data.List.Basic

/-!
# Paths as lists of names

A path over an alphabet with a separator: `parts` are the non-empty pieces between
separators and `join` puts one before every name.  On names, which are non-empty
and free of the separator, the two are inverse (`parts_join`), so a path that was
joined is told from others by its names (`join_inj`), and what begins with it and a
separator is what lies below it (`join_below_iff`).
-/

namespace Names

section
variable {α : Type} (sep : α)

/-- Every name after a separator. -/
def join (names : List (List α)) : List α := names.flatMap fun name => sep :: name

/-- What can stand between two separators. -/
def IsName (name : List α) : Prop := name ≠ [] ∧ sep ∉ name

@[simp] theorem join_nil : join sep [] = [] := rfl

@[simp] theorem join_cons (name : List α) (names : List (List α)) :
    join sep (name :: names) = sep :: (name ++ join sep names) := by
  simp [join]

theorem join_append (a b : List (List α)) : join sep (a ++ b) = join sep a ++ join sep b := by
  simp [join]

/-- The last name of a path, and what is before it. -/
theorem join_concat (names : List (List α)) (name : List α) :
    join sep (names ++ [name]) = join sep names ++ sep :: name := by
  rw [join_append, join_cons, join_nil, List.append_nil]

theorem mem_join (c : α) (names : List (List α)) :
    c ∈ join sep names ↔ (names ≠ [] ∧ c = sep) ∨ ∃ name ∈ names, c ∈ name := by
  induction names with
  | nil => simp
  | cons name names ih =>
    rw [join_cons, List.mem_cons, List.mem_append, ih]
    constructor
    · rintro (rfl | hc | ⟨-, rfl⟩ | ⟨m, hm, hc⟩)
      · exact .inl ⟨by simp, rfl⟩
      · exact .inr ⟨name, by simp, hc⟩
      · exact .inl ⟨by simp, rfl⟩
      · exact .inr ⟨m, List.mem_cons_of_mem _ hm, hc⟩
    · rintro (⟨-, rfl⟩ | ⟨m, hm, hc⟩)
      · exact .inl rfl
      · rcases List.mem_cons.mp hm with rfl | hm
        · exact .inr (.inl hc)
        · exact .inr (.inr (.inr ⟨m, hm, hc⟩))

theorem join_ne_nil (names : List (List α)) (h : names ≠ []) : join sep names ≠ [] := by
  cases names with
  | nil => exact absurd rfl h
  | cons name names => simp

end

section
variable {α : Type} [DecidableEq α] (sep : α)

instance (name : List α) : Decidable (IsName sep name) := inferInstanceAs (Decidable (_ ∧ _))

/-- The pieces between separators that are not empty. -/
def parts (path : List α) : List (List α) := (path.splitOn sep).filter fun name => decide (name ≠ [])

@[simp] theorem parts_nil : parts sep ([] : List α) = [] := by
  simp [parts]

/-- A separator ends the name before it and begins another. -/
theorem parts_append (a b : List α) : parts sep (a ++ sep :: b) = parts sep a ++ parts sep b := by
  unfold parts
  rw [List.splitOn_append_cons_self, List.filter_append]

@[simp] theorem parts_sep (b : List α) : parts sep (sep :: b) = parts sep b := by
  simpa using parts_append sep [] b

theorem parts_free (a : List α) (h : sep ∉ a) : parts sep a = if a = [] then [] else [a] := by
  unfold parts
  rw [List.splitOn_eq_singleton h]
  by_cases ha : a = [] <;> simp [ha]

theorem parts_name (name : List α) (h : IsName sep name) : parts sep name = [name] := by
  rw [parts_free sep name h.2, if_neg h.1]

/-- The parts of a path are names. -/
theorem isName_of_mem_parts (path name : List α) (h : name ∈ parts sep path) : IsName sep name := by
  induction hn : path.length using Nat.strongRecOn generalizing path with
  | ind n ih =>
    subst hn
    by_cases hs : sep ∈ path
    · obtain ⟨a, b, rfl⟩ := List.append_of_mem hs
      rw [parts_append] at h
      rcases List.mem_append.mp h with h | h
      · exact ih a.length (by simp) a h rfl
      · exact ih b.length (by simp; omega) b h rfl
    · rw [parts_free sep path hs] at h
      split at h
      · cases h
      · next hne =>
        obtain rfl := List.mem_singleton.mp h
        exact ⟨hne, hs⟩

/-- What a part is made of is in the path. -/
theorem mem_of_mem_parts (path name : List α) (h : name ∈ parts sep path) {c : α} (hc : c ∈ name) : c ∈ path := by
  induction hn : path.length using Nat.strongRecOn generalizing path with
  | ind n ih =>
    subst hn
    by_cases hs : sep ∈ path
    · obtain ⟨a, b, rfl⟩ := List.append_of_mem hs
      rw [parts_append] at h
      rw [List.mem_append, List.mem_cons]
      rcases List.mem_append.mp h with h | h
      · exact Or.inl (ih a.length (by simp) a h rfl)
      · exact Or.inr (Or.inr (ih b.length (by simp; omega) b h rfl))
    · rw [parts_free sep path hs] at h
      split at h
      · cases h
      · obtain rfl := List.mem_singleton.mp h
        exact hc

theorem parts_append_join (a : List α) (names : List (List α)) :
    parts sep (a ++ join sep names) = parts sep a ++ parts sep (join sep names) := by
  cases names with
  | nil => simp
  | cons name names => rw [join_cons, parts_append, parts_sep]

/-- **Joined names are told apart again.** -/
theorem parts_join (names : List (List α)) (h : ∀ name ∈ names, IsName sep name) :
    parts sep (join sep names) = names := by
  induction names with
  | nil => simp
  | cons name names ih =>
    rw [join_cons, parts_sep, parts_append_join, parts_name sep name (h name (by simp)),
      ih fun n hn => h n (by simp [hn])]
    rfl

/-- What begins with a path and a separator is the path with more names. -/
theorem join_below_iff (a b : List (List α)) (ha : ∀ name ∈ a, IsName sep name) (hb : ∀ name ∈ b, IsName sep name) :
    join sep a ++ [sep] <+: join sep b ↔ ∃ name names, b = a ++ name :: names := by
  constructor
  · rintro ⟨rest, hrest⟩
    rw [List.append_assoc, List.singleton_append] at hrest
    have hparts : b = a ++ parts sep rest := by
      rw [← parts_join sep b hb, ← hrest, parts_append, parts_join sep a ha]
    cases hr : parts sep rest with
    | nil =>
      rw [hr, List.append_nil] at hparts
      rw [hparts] at hrest
      simp at hrest
    | cons name names => exact ⟨name, names, by rw [hparts, hr]⟩
  · rintro ⟨name, names, rfl⟩
    rw [join_append, join_cons]
    exact ⟨name ++ join sep names, by simp⟩

end

end Names
