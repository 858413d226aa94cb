import Mathlib.Data.List.Basic

/-!
# Computations that leave a trace

`Traced E α` is a value with the events on the way to it: what a function reads,
sends or reports, beside what it returns.  `All P` says that every event meets `P`;
a sequence meets it when its parts do (`all_bind`).  `count p` is how many events
meet `p`, and a sequence has those of its parts (`count_bind`).
-/

namespace Traces

variable {E α β : Type}

structure Traced (E α : Type) where
  val : α
  events : List E

instance : Monad (Traced E) where
  pure a := ⟨a, []⟩
  bind x f := ⟨(f x.val).val, x.events ++ (f x.val).events⟩

def emit (e : E) : Traced E Unit := ⟨(), [e]⟩

@[simp] theorem val_pure (a : α) : (pure a : Traced E α).val = a := rfl

@[simp] theorem events_pure (a : α) : (pure a : Traced E α).events = [] := rfl

@[simp] theorem val_bind (x : Traced E α) (f : α → Traced E β) : (x >>= f).val = (f x.val).val := rfl

@[simp] theorem events_bind (x : Traced E α) (f : α → Traced E β) :
    (x >>= f).events = x.events ++ (f x.val).events := rfl

@[simp] theorem val_emit (e : E) : (emit e).val = () := rfl

@[simp] theorem events_emit (e : E) : (emit e).events = [e] := rfl

/-- Every event meets `P`. -/
def Traced.All (P : E → Prop) (x : Traced E α) : Prop := ∀ e ∈ x.events, P e

@[simp] theorem all_pure (P : E → Prop) (a : α) : (pure a : Traced E α).All P := by
  intro e he
  cases he

@[simp] theorem all_emit (P : E → Prop) (e : E) : (emit e).All P ↔ P e := by
  simp [Traced.All]

@[simp] theorem all_bind (P : E → Prop) (x : Traced E α) (f : α → Traced E β) :
    (x >>= f).All P ↔ x.All P ∧ (f x.val).All P := by
  simp only [Traced.All, events_bind, List.mem_append]
  exact ⟨fun h => ⟨fun e he => h e (.inl he), fun e he => h e (.inr he)⟩,
    fun h e he => he.elim (h.1 e) (h.2 e)⟩

/-- How many events meet `p`. -/
def Traced.count (p : E → Bool) (x : Traced E α) : Nat := x.events.countP p

@[simp] theorem count_pure (p : E → Bool) (a : α) : (pure a : Traced E α).count p = 0 := rfl

@[simp] theorem count_emit (p : E → Bool) (e : E) : (emit e).count p = if p e then 1 else 0 := by
  unfold Traced.count
  rw [events_emit, List.countP_singleton]

@[simp] theorem count_bind (p : E → Bool) (x : Traced E α) (f : α → Traced E β) :
    (x >>= f).count p = x.count p + (f x.val).count p := by
  unfold Traced.count
  rw [events_bind, List.countP_append]

theorem count_eq_zero (p : E → Bool) (x : Traced E α) (h : x.All fun e => p e = false) : x.count p = 0 := by
  apply List.countP_eq_zero.mpr
  intro e he
  rw [h e he]
  exact Bool.false_ne_true

theorem Traced.All.mono {P Q : E → Prop} {x : Traced E α} (h : x.All P) (hpq : ∀ e, P e → Q e) : x.All Q :=
  fun e he => hpq e (h e he)

end Traces
