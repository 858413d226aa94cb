import Mathlib.Data.List.Basic

/-!
# Loops that may stop

`runUntil step s xs` feeds the items of `xs` to `step` until one fails; the state
at that point is kept.  `Steps` is the relation between the state before and after
a part that went through.

* `runUntil_spec`: a run is steps over a prefix, which is all of the list or ends
  before an item that fails.
* `Steps.invariant`: what one step preserves, the whole part preserves.
-/

namespace Loop

variable {σ α ε : Type}

def runUntil (step : σ → α → Except ε σ) : σ → List α → σ × Option ε
  | s, [] => (s, none)
  | s, x :: xs =>
    match step s x with
    | .error e => (s, some e)
    | .ok s => runUntil step s xs

/-- Every item of the list goes through, from the first state to the last. -/
inductive Steps (step : σ → α → Except ε σ) : σ → List α → σ → Prop
  | nil (s : σ) : Steps step s [] s
  | cons {s s' out : σ} {x : α} {xs : List α} (h : step s x = .ok s') (hs : Steps step s' xs out) :
    Steps step s (x :: xs) out

section
variable (step : σ → α → Except ε σ)

/-- **A run is steps over a prefix**, up to an item that fails or to the end. -/
theorem runUntil_spec (s : σ) (xs : List α) :
    ∃ pre post, xs = pre ++ post ∧ Steps step s pre (runUntil step s xs).1 ∧
      ((runUntil step s xs).2 = none ∧ post = [] ∨
        ∃ e x rest, (runUntil step s xs).2 = some e ∧ post = x :: rest ∧
          step (runUntil step s xs).1 x = .error e) := by
  induction xs generalizing s with
  | nil => exact ⟨[], [], rfl, .nil s, .inl ⟨rfl, rfl⟩⟩
  | cons x xs ih =>
    unfold runUntil
    cases hx : step s x with
    | error e => exact ⟨[], x :: xs, rfl, .nil s, .inr ⟨e, x, xs, rfl, rfl, hx⟩⟩
    | ok s' =>
      obtain ⟨pre, post, hxs, hsteps, hend⟩ := ih s'
      exact ⟨x :: pre, post, by rw [hxs]; rfl, .cons hx hsteps, hend⟩

/-- **The invariant rule**: it holds at the start, and of the part done it passes on to one item more. -/
theorem Steps.invariant {step : σ → α → Except ε σ} (Inv : List α → σ → Prop) {s out : σ} {xs : List α}
    (h : Steps step s xs out) (done : List α) (h0 : Inv done s)
    (hstep : ∀ pre s x s', Inv pre s → step s x = .ok s' → Inv (pre ++ [x]) s') : Inv (done ++ xs) out := by
  induction h generalizing done with
  | nil s => simpa using h0
  | cons h hs ih =>
    have := ih _ (hstep done _ _ _ h0 h)
    simpa using this

end

end Loop
