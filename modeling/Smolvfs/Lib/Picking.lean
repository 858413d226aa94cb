import Mathlib.Data.List.Basic

/-!
# Picking by place

`pick p l` is what is left of a list when each element stays or goes by what it is and
where it stands.  It goes through a map (`pick_map`) and a relation (`forall₂_pick`), is
the list itself exactly when everything stays (`pick_eq_self`), ends as the list does when
the last one stays (`getLast?_pick`), and what goes makes up the difference in length
(`length_pick`).
-/

namespace Picking

variable {α β : Type} (p : Nat → α → Bool) (l : List α)

def pick : List α := (l.zipIdx.filter fun x => p x.2 x.1).map Prod.fst

/-- How many go. -/
def dropped : Nat := l.zipIdx.countP fun x => !p x.2 x.1

theorem pick_map (f : β → α) (l : List β) : pick p (l.map f) = (pick (fun i b => p i (f b)) l).map f := by
  unfold pick
  rw [List.zipIdx_map, List.filter_map, List.map_map, List.map_map]
  rfl

theorem pick_congr (q : Nat → α → Bool) (h : ∀ i (hi : i < l.length), p i l[i] = q i l[i]) : pick p l = pick q l := by
  unfold pick
  congr 1
  apply List.filter_congr
  rintro ⟨a, i⟩ hmem
  obtain ⟨hi, rfl⟩ := List.getElem?_eq_some_iff.mp (List.mk_mem_zipIdx_iff_getElem?.mp hmem)
  exact h i hi

theorem pick_sublist : (pick p l).Sublist l := by
  conv_rhs => rw [← List.zipIdx_map_fst 0 l]
  exact List.filter_sublist.map _

theorem length_pick : (pick p l).length + dropped p l = l.length := by
  have hsplit := List.length_eq_countP_add_countP (fun x : α × Nat => p x.2 x.1) (l := l.zipIdx)
  unfold pick dropped
  rw [List.length_map, ← List.countP_eq_length_filter, ← @List.length_zipIdx _ l 0, hsplit]
  congr 1
  apply List.countP_congr
  intro x _
  simp

theorem dropped_eq_zero : dropped p l = 0 ↔ ∀ i (h : i < l.length), p i l[i] = true := by
  unfold dropped
  rw [List.countP_eq_zero]
  constructor
  · intro hall i h
    have hstay := hall (l[i], i) (List.mk_mem_zipIdx_iff_getElem?.mpr (List.getElem?_eq_getElem h))
    simpa using hstay
  · rintro hall ⟨a, i⟩ hmem
    obtain ⟨h, rfl⟩ := List.getElem?_eq_some_iff.mp (List.mk_mem_zipIdx_iff_getElem?.mp hmem)
    simpa using hall i h

theorem pick_eq_self : pick p l = l ↔ ∀ i (h : i < l.length), p i l[i] = true := by
  rw [← dropped_eq_zero]
  have hlen := length_pick p l
  constructor
  · intro heq
    rw [heq] at hlen
    omega
  · intro hzero
    exact (pick_sublist p l).eq_of_length (by omega)

theorem pick_concat (a : α) : pick p (l ++ [a]) = pick p l ++ if p l.length a then [a] else [] := by
  unfold pick
  rw [List.zipIdx_append, List.filter_append, List.map_append, List.zipIdx_cons, List.zipIdx_nil, Nat.zero_add,
    List.filter_singleton]
  cases p l.length a <;> rfl

/-- The last one stays where it is. -/
theorem getLast?_pick (h : ∀ a, l.getLast? = some a → p (l.length - 1) a = true) : (pick p l).getLast? = l.getLast? := by
  rcases List.eq_nil_or_concat l with rfl | ⟨init, a, rfl⟩
  · rfl
  · rw [List.concat_eq_append] at h ⊢
    have hstays := h a (by simp)
    rw [List.length_append, List.length_singleton, Nat.add_sub_cancel] at hstays
    rw [pick_concat, if_pos hstays]
    simp

variable {p l} in
/-- Lists that are related place by place are so after the same choice. -/
theorem forall₂_pick {R : α → β → Prop} {q : Nat → β → Bool} {m : List β} (h : List.Forall₂ R l m)
    (hpq : ∀ i a b, R a b → p i a = q i b) : List.Forall₂ R (pick p l) (pick q m) := by
  suffices hfrom : ∀ n, List.Forall₂ R (((l.zipIdx n).filter fun x => p x.2 x.1).map Prod.fst)
      (((m.zipIdx n).filter fun x => q x.2 x.1).map Prod.fst) from hfrom 0
  induction h with
  | nil => exact fun _ => .nil
  | @cons a b _ _ hab _ ih =>
    intro n
    rw [List.zipIdx_cons, List.zipIdx_cons, List.filter_cons, List.filter_cons]
    simp only [hpq n a b hab]
    split
    · exact .cons hab (ih (n + 1))
    · exact ih (n + 1)

end Picking
