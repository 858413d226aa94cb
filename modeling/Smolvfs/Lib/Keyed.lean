import Mathlib.Algebra.BigOperators.Finprod
import Mathlib.Data.List.Forall2
import Mathlib.Data.List.Nodup
import Mathlib.Logic.Function.Basic

/-!
# Arrays of keyed records

Records in an array in no order, each found by its key.  When the keys are distinct
a lookup is membership (`lookup_eq_some`), so the order does not show
(`lookup_perm`), and appending, overwriting and removing a record by putting the last
one in its place change the lookup at one key.
-/

namespace Keyed

section
variable {α : Type}

/-- The last element takes the place of element `i`. -/
def swapRemove (l : List α) (i : Nat) : List α :=
  match l.getLast? with
  | none => l
  | some last => (l.set i last).dropLast

theorem swapRemove_concat (l : List α) (last : α) (i : Nat) (h : i < l.length) :
    swapRemove (l ++ [last]) i = l.set i last := by
  unfold swapRemove
  rw [List.getLast?_concat]
  show ((l ++ [last]).set i last).dropLast = _
  rw [List.set_append_left _ _ h, List.dropLast_concat]

theorem swapRemove_last (l : List α) (last : α) : swapRemove (l ++ [last]) l.length = l := by
  unfold swapRemove
  rw [List.getLast?_concat]
  show ((l ++ [last]).set l.length last).dropLast = _
  rw [List.set_append_right _ _ (Nat.le_refl _), Nat.sub_self, List.set_cons_zero, List.dropLast_concat]

/-- What is at or after the removed element's place was after it. -/
theorem swapRemove_from (l : List α) (i j : Nat) (a : α) (hi : i < l.length) (hj : i ≤ j)
    (h : (swapRemove l i)[j]? = some a) : ∃ k, i < k ∧ l[k]? = some a := by
  rcases List.eq_nil_or_concat l with rfl | ⟨init, last, rfl⟩
  · simp at hi
  · rw [List.concat_eq_append] at hi h ⊢
    rw [List.length_append, List.length_singleton] at hi
    rcases Nat.lt_or_ge i init.length with hlt | hge
    · rw [swapRemove_concat _ _ _ hlt] at h
      by_cases heq : i = j
      · subst heq
        rw [List.getElem?_set_self hlt] at h
        exact ⟨init.length, hlt, by rw [List.getElem?_concat_length, ← h]⟩
      · rw [List.getElem?_set_ne heq] at h
        obtain ⟨hjl, -⟩ := List.getElem?_eq_some_iff.mp h
        exact ⟨j, by omega, by rw [List.getElem?_append_left hjl, h]⟩
    · obtain rfl : i = init.length := by omega
      rw [swapRemove_last] at h
      obtain ⟨hjl, -⟩ := List.getElem?_eq_some_iff.mp h
      omega

theorem set_perm (l : List α) (a : α) (i : Nat) (h : i < l.length) : (l.set i a).Perm (a :: l.eraseIdx i) := by
  induction l generalizing i with
  | nil => simp at h
  | cons b l ih =>
    cases i with
    | zero => simp
    | succ i =>
      rw [List.set_cons_succ, List.eraseIdx_cons_succ]
      exact ((ih i (by simpa using h)).cons b).trans (List.Perm.swap a b _)

/-- **Removing by swapping removes**, up to the order. -/
theorem swapRemove_perm (l : List α) (i : Nat) (h : i < l.length) : (swapRemove l i).Perm (l.eraseIdx i) := by
  rcases List.eq_nil_or_concat l with rfl | ⟨init, last, rfl⟩
  · simp at h
  · rw [List.concat_eq_append] at h ⊢
    rw [List.length_append, List.length_singleton] at h
    rcases Nat.lt_or_ge i init.length with hlt | hge
    · rw [swapRemove_concat _ _ _ hlt, List.eraseIdx_append_of_lt_length hlt]
      exact (set_perm init last i hlt).trans (List.perm_append_singleton last _).symm
    · obtain rfl : i = init.length := by omega
      rw [swapRemove_last, List.eraseIdx_append_of_length_le (Nat.le_refl _)]
      simp

theorem perm_cons_eraseIdx (l : List α) (i : Nat) (a : α) (h : l[i]? = some a) : l.Perm (a :: l.eraseIdx i) := by
  obtain ⟨hi, rfl⟩ := List.getElem?_eq_some_iff.mp h
  have := set_perm l l[i] i hi
  rwa [List.set_getElem_self] at this

end

section
variable {α κ : Type} (key : α → κ)

/-- No two records have one key. -/
def Distinct (l : List α) : Prop := (l.map key).Nodup

variable {key}

theorem Distinct.unique {l : List α} (h : Distinct key l) {a b : α} (ha : a ∈ l) (hb : b ∈ l) (hk : key a = key b) :
    a = b := List.inj_on_of_nodup_map h ha hb hk

theorem Distinct.perm {l l' : List α} (h : Distinct key l) (hp : l.Perm l') : Distinct key l' :=
  (hp.map key).nodup_iff.mp h

/-- A record with a new key, put anywhere. -/
theorem distinct_cons {l : List α} {a : α} (h : Distinct key l) (ha : ∀ b ∈ l, key b ≠ key a) :
    Distinct key (a :: l) := by
  refine List.nodup_cons.mpr ⟨?_, h⟩
  intro hm
  obtain ⟨b, hb, hk⟩ := List.mem_map.mp hm
  exact ha b hb hk

theorem Distinct.filter {l : List α} (h : Distinct key l) (p : α → Bool) : Distinct key (l.filter p) :=
  List.Nodup.sublist (List.filter_sublist.map key) h

theorem Distinct.append {l : List α} {a : α} (h : Distinct key l) (ha : ∀ b ∈ l, key b ≠ key a) :
    Distinct key (l ++ [a]) := (distinct_cons h ha).perm (List.perm_append_singleton a l).symm

/-- A record overwritten under its key. -/
theorem Distinct.set {l : List α} (h : Distinct key l) {i : Nat} {a b : α} (hi : l[i]? = some a) (hk : key b = key a) :
    Distinct key (l.set i b) := by
  have hd := h.perm (perm_cons_eraseIdx l i a hi)
  refine Distinct.perm ?_ (set_perm l b i (List.getElem?_eq_some_iff.mp hi).1).symm
  unfold Distinct at hd ⊢
  rw [List.map_cons] at hd ⊢
  rwa [hk]

end

section
variable {α κ : Type} [DecidableEq κ] (key : α → κ)

/-- The record with a key. -/
def lookup (l : List α) (k : κ) : Option α := l.find? fun a => decide (key a = k)

theorem lookup_eq_none (l : List α) (k : κ) : lookup key l k = none ↔ ∀ a ∈ l, key a ≠ k := by
  unfold lookup
  rw [List.find?_eq_none]
  simp

theorem mem_of_lookup {l : List α} {k : κ} {a : α} (h : lookup key l k = some a) : a ∈ l ∧ key a = k :=
  ⟨List.mem_of_find?_eq_some h, by simpa using List.find?_some h⟩

variable {key}

/-- **Among distinct keys a lookup is membership.** -/
theorem lookup_eq_some {l : List α} (h : Distinct key l) (k : κ) (a : α) :
    lookup key l k = some a ↔ a ∈ l ∧ key a = k := by
  constructor
  · exact mem_of_lookup key
  · rintro ⟨ha, rfl⟩
    cases hl : lookup key l (key a) with
    | none => exact absurd rfl ((lookup_eq_none key l _).mp hl a ha)
    | some b =>
      obtain ⟨hb, hk⟩ := mem_of_lookup key hl
      rw [h.unique hb ha hk]

/-- **A sum over the records** is one over all keys. -/
theorem finsum_lookup {l : List α} (h : Distinct key l) (f : α → Nat) :
    finsum (fun k => ((lookup key l k).map f).getD 0) = (l.map f).sum := by
  have hsub : Function.support (fun k => ((lookup key l k).map f).getD 0) ⊆ ((l.map key).toFinset : Set κ) := by
    intro k hk
    cases hl : lookup key l k with
    | none => simp [Function.mem_support, hl] at hk
    | some a =>
      obtain ⟨ha, rfl⟩ := mem_of_lookup key hl
      simpa using ⟨a, ha, rfl⟩
  rw [finsum_eq_sum_of_support_subset _ hsub, List.sum_toFinset _ h, List.map_map]
  congr 1
  refine List.map_congr_left fun a ha => ?_
  show ((lookup key l (key a)).map f).getD 0 = f a
  rw [(lookup_eq_some h (key a) a).mpr ⟨ha, rfl⟩]
  rfl

theorem lookup_perm {l l' : List α} (h : Distinct key l) (hp : l.Perm l') : lookup key l' = lookup key l := by
  ext k a
  rw [lookup_eq_some (h.perm hp), lookup_eq_some h, hp.mem_iff]

theorem lookup_cons {l : List α} {a : α} : lookup key (a :: l) = Function.update (lookup key l) (key a) (some a) := by
  ext k b
  unfold lookup
  by_cases hk : k = key a
  · subst hk
    rw [Function.update_self, List.find?_cons_of_pos (by simp)]
  · rw [Function.update_of_ne hk, List.find?_cons_of_neg (by simpa using Ne.symm hk)]

theorem lookup_append {l : List α} {a : α} (h : Distinct key l) (ha : ∀ b ∈ l, key b ≠ key a) :
    lookup key (l ++ [a]) = Function.update (lookup key l) (key a) (some a) := by
  rw [lookup_perm (distinct_cons h ha) (List.perm_append_singleton a l).symm, lookup_cons]

/-- Records kept by their keys. -/
theorem lookup_filter {l : List α} (h : Distinct key l) (keep : κ → Bool) :
    lookup key (l.filter fun a => keep (key a)) = fun k => if keep k then lookup key l k else none := by
  ext k a
  rw [lookup_eq_some (h.filter _), List.mem_filter]
  by_cases hk : keep k = true
  · rw [if_pos hk, lookup_eq_some h]
    constructor
    · rintro ⟨⟨ha, -⟩, rfl⟩
      exact ⟨ha, rfl⟩
    · rintro ⟨ha, rfl⟩
      exact ⟨⟨ha, hk⟩, rfl⟩
  · rw [if_neg hk]
    constructor
    · rintro ⟨⟨-, h1⟩, rfl⟩
      exact absurd h1 hk
    · rintro ⟨⟩

/-- What is left when one record is taken out. -/
theorem eraseIdx_perm_filter {l : List α} (h : Distinct key l) {i : Nat} {a : α} (hi : l[i]? = some a) :
    (l.eraseIdx i).Perm (l.filter fun b => decide (key b ≠ key a)) := by
  have hperm := perm_cons_eraseIdx l i a hi
  have hd := h.perm hperm
  have hne : ∀ b ∈ l.eraseIdx i, key b ≠ key a := by
    intro b hb heq
    exact (List.nodup_cons.mp hd).1 (List.mem_map.mpr ⟨b, hb, heq⟩)
  have hfilter := hperm.filter fun b => decide (key b ≠ key a)
  have hself : (l.eraseIdx i).filter (fun b => decide (key b ≠ key a)) = l.eraseIdx i :=
    List.filter_eq_self.mpr (by simpa using hne)
  rw [List.filter_cons_of_neg (by simp), hself] at hfilter
  exact hfilter.symm

theorem swapRemove_perm_filter {l : List α} (h : Distinct key l) {i : Nat} {a : α} (hi : l[i]? = some a) :
    (swapRemove l i).Perm (l.filter fun b => decide (key b ≠ key a)) :=
  (swapRemove_perm l i (List.getElem?_eq_some_iff.mp hi).1).trans (eraseIdx_perm_filter h hi)

theorem lookup_set {l : List α} (h : Distinct key l) {i : Nat} {a b : α} (hi : l[i]? = some a) (hk : key b = key a) :
    lookup key (l.set i b) = Function.update (lookup key l) (key a) (some b) := by
  have hperm := perm_cons_eraseIdx l i a hi
  have hset := set_perm l b i (List.getElem?_eq_some_iff.mp hi).1
  have hd : Distinct key (b :: l.eraseIdx i) := (h.set hi hk).perm hset
  rw [lookup_perm hd hset.symm, lookup_cons, hk, lookup_perm (h.perm hperm) hperm.symm, lookup_cons,
    Function.update_idem]

end

/-! ## Taking a record out -/

section
variable {α κ : Type} [DecidableEq κ] (key : α → κ)

/-- The first record with the key, if there is one, gives its place to the last record. -/
def takeOut (l : List α) (k : κ) : Option (List α) := (l.findIdx? fun a => decide (key a = k)).map (swapRemove l)

variable {key}

theorem takeOut_none {l : List α} {k : κ} : takeOut key l k = none ↔ ∀ a ∈ l, key a ≠ k := by
  unfold takeOut
  simp

/-- Under the key there is nothing then, and under any other what there was. -/
theorem takeOut_some {l l' : List α} {k : κ} (h : Distinct key l) (ht : takeOut key l k = some l') :
    Distinct key l' ∧ (∃ a ∈ l, key a = k) ∧ lookup key l' = Function.update (lookup key l) k none := by
  obtain ⟨i, hi, rfl⟩ := Option.map_eq_some_iff.mp ht
  obtain ⟨hlt, hk, -⟩ := List.findIdx?_eq_some_iff_getElem.mp hi
  have hget : l[i]? = some l[i] := List.getElem?_eq_getElem hlt
  have hperm := swapRemove_perm_filter h hget
  obtain rfl : key l[i] = k := by simpa using hk
  refine ⟨(h.filter _).perm hperm.symm, ⟨l[i], List.getElem_mem hlt, rfl⟩, ?_⟩
  rw [lookup_perm (h.filter _) hperm.symm, lookup_filter h fun k => decide (k ≠ key l[i])]
  funext k
  by_cases hne : k = key l[i]
  · rw [hne, Function.update_self, if_neg (by simp)]
  · rw [Function.update_of_ne hne, if_pos (by simpa using hne)]

/-- Nothing comes in by it. -/
theorem mem_of_takeOut {l l' : List α} {k : κ} (ht : takeOut key l k = some l') {a : α} (ha : a ∈ l') : a ∈ l := by
  obtain ⟨i, hi, rfl⟩ := Option.map_eq_some_iff.mp ht
  obtain ⟨hlt, -⟩ := List.findIdx?_eq_some_iff_getElem.mp hi
  exact List.mem_of_mem_eraseIdx ((swapRemove_perm l i hlt).mem_iff.mp ha)

/-- The same where a key that is not there is no failure. -/
theorem takeOut_getD {l : List α} (k : κ) (h : Distinct key l) :
    Distinct key ((takeOut key l k).getD l) ∧
      lookup key ((takeOut key l k).getD l) = Function.update (lookup key l) k none := by
  cases ht : takeOut key l k with
  | some l' => exact ⟨(takeOut_some h ht).1, (takeOut_some h ht).2.2⟩
  | none =>
    refine ⟨h, (Function.update_eq_self_iff.mpr ?_).symm⟩
    exact ((lookup_eq_none key l k).mpr (takeOut_none.mp ht)).symm

end

/-! ## Maps written key by key -/
section
variable {α κ β : Type} [DecidableEq κ] (key : α → κ) (val : α → β)

/-- Each item in turn is written under its key. -/
def writeAll (l : List α) (m : κ → β) : κ → β := l.foldl (fun m a => Function.update m (key a) (val a)) m

/-- Under each item's key stands what the last such item says, and under any other key what stood there. -/
structure WrittenOver (l : List α) (m m' : κ → β) : Prop where
  last : ∀ pre a post, l = pre ++ a :: post → (∀ b ∈ post, key b ≠ key a) → m' (key a) = val a
  others : ∀ k, (∀ a ∈ l, key a ≠ k) → m' k = m k

variable {key val}

theorem writeAll_of_not_mem {l : List α} {k : κ} (h : ∀ a ∈ l, key a ≠ k) (m : κ → β) :
    writeAll key val l m k = m k := by
  unfold writeAll
  induction l generalizing m with
  | nil => rfl
  | cons a l ih =>
    rw [List.foldl_cons, ih (fun b hb => h b (by simp [hb])), Function.update_of_ne (Ne.symm (h a (by simp)))]

theorem writeAll_last {pre post : List α} {a : α} (h : ∀ b ∈ post, key b ≠ key a) (m : κ → β) :
    writeAll key val (pre ++ a :: post) m (key a) = val a := by
  have hpost : ∀ m, writeAll key val post m (key a) = m (key a) := writeAll_of_not_mem h
  unfold writeAll at hpost ⊢
  rw [List.foldl_append, List.foldl_cons, hpost, Function.update_self]

/-- A key that occurs has a last item. -/
theorem exists_last (key : α → κ) {l : List α} {k : κ} (h : ∃ a ∈ l, key a = k) :
    ∃ pre a post, l = pre ++ a :: post ∧ key a = k ∧ ∀ b ∈ post, key b ≠ k := by
  induction l with
  | nil =>
    obtain ⟨a, ha, -⟩ := h
    cases ha
  | cons x l ih =>
    by_cases hl : ∃ a ∈ l, key a = k
    · obtain ⟨pre, a, post, rfl, hk, hpost⟩ := ih hl
      exact ⟨x :: pre, a, post, rfl, hk, hpost⟩
    · have hno : ∀ a ∈ l, key a ≠ k := fun a ha hk => hl ⟨a, ha, hk⟩
      obtain ⟨a, ha, hk⟩ := h
      rcases List.mem_cons.mp ha with rfl | ha
      · exact ⟨[], a, l, rfl, hk, hno⟩
      · exact absurd hk (hno a ha)

/-- **Writing every item** leaves what the last items say, and only that. -/
theorem writtenOver_iff {l : List α} {m m' : κ → β} : WrittenOver key val l m m' ↔ m' = writeAll key val l m := by
  constructor
  · intro h
    funext k
    by_cases hk : ∃ a ∈ l, key a = k
    · obtain ⟨pre, a, post, rfl, rfl, hpost⟩ := exists_last key hk
      rw [h.last pre a post rfl hpost, writeAll_last hpost]
    · have hno : ∀ a ∈ l, key a ≠ k := fun a ha hk' => hk ⟨a, ha, hk'⟩
      rw [h.others k hno, writeAll_of_not_mem hno]
  · rintro rfl
    refine ⟨?_, fun k hk => writeAll_of_not_mem hk m⟩
    rintro pre a post rfl hpost
    exact writeAll_last hpost m

end

/-! ## Lists related item by item -/

section
variable {α : Type} {R : α → α → Prop} {l l' : List α} (h : List.Forall₂ R l l')

include h

theorem forall₂_set (i : Nat) (a b : α)
    (hi : l[i]? = some a) (hb : R a b) : List.Forall₂ R l (l'.set i b) := by
  induction h generalizing i with
  | nil => exact .nil
  | @cons x y l l' hxy hl ih =>
    cases i with
    | zero =>
      obtain rfl : x = a := by simpa using hi
      exact .cons hb hl
    | succ i => exact .cons hxy (ih i (by simpa using hi))

theorem forall₂_mem_right (b : α) (hb : b ∈ l') : ∃ a ∈ l, R a b := by
  induction h with
  | nil => cases hb
  | @cons x y l l' hxy hl ih =>
    rcases List.mem_cons.mp hb with rfl | hb
    · exact ⟨x, by simp, hxy⟩
    · obtain ⟨a, ha, hab⟩ := ih hb
      exact ⟨a, by simp [ha], hab⟩

/-- What related lists keep of a kind is related, as the kind is known of both. -/
theorem forall₂_filter {S : α → α → Prop} (p : α → Bool)
    (hp : ∀ a b, R a b → p b = p a) (hS : ∀ a b, R a b → p a = true → S a b) :
    List.Forall₂ S (l.filter p) (l'.filter p) := by
  induction h with
  | nil => exact .nil
  | @cons a b l l' hab hl ih =>
    rw [List.filter_cons, List.filter_cons, hp a b hab]
    split
    · next hpa => exact .cons (hS a b hab hpa) ih
    · exact ih

end

end Keyed
