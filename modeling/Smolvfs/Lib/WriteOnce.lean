import Mathlib.Logic.Function.Basic

/-!
# Write-once maps

A map that is only ever added to: `put` gives a key a value if it has none, and `putAll`
does so for one entry after another.  What the map has it goes on having (`kept_put`,
`kept_putAll`), so of several values put at a key the first one stays.
-/

namespace WriteOnce

variable {κ α : Type} [DecidableEq κ]

def put (m : κ → Option α) (k : κ) (v : α) : κ → Option α :=
  match m k with
  | some _ => m
  | none => Function.update m k (some v)

def putAll (m : κ → Option α) (entries : List (κ × α)) : κ → Option α :=
  entries.foldl (fun m e => put m e.1 e.2) m

/-- The second map has what the first one has. -/
def Kept (m m' : κ → Option α) : Prop := ∀ k v, m k = some v → m' k = some v

section
variable (m : κ → Option α) (k : κ) (v : α)

theorem put_held {w : α} (h : m k = some w) : put m k v = m := by
  unfold put
  rw [h]

theorem put_free (h : m k = none) : put m k v = Function.update m k (some v) := by
  unfold put
  rw [h]

theorem putAll_concat (entries : List (κ × α)) (e : κ × α) :
    putAll m (entries ++ [e]) = put (putAll m entries) e.1 e.2 := by
  unfold putAll
  rw [List.foldl_append]
  rfl

end

/-! ## What is there stays -/

theorem Kept.refl {κ α : Type} (m : κ → Option α) : Kept m m := fun _ _ h => h

theorem Kept.trans {κ α : Type} {m m' m'' : κ → Option α} (h : Kept m m') (h' : Kept m' m'') : Kept m m'' :=
  fun k v hk => h' k v (h k v hk)

theorem kept_put (m : κ → Option α) (k : κ) (v : α) : Kept m (put m k v) := by
  intro other w h
  cases hk : m k with
  | some x => rwa [put_held m k v hk]
  | none =>
    have hne : other ≠ k := by
      rintro rfl
      rw [hk] at h
      cases h
    rwa [put_free m k v hk, Function.update_of_ne hne]

theorem kept_putAll (m : κ → Option α) (entries : List (κ × α)) : Kept m (putAll m entries) := by
  induction entries generalizing m with
  | nil => exact Kept.refl m
  | cons e entries ih => exact (kept_put m e.1 e.2).trans (ih _)

end WriteOnce
