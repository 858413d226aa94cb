import Mathlib.Data.List.Sort
import Mathlib.Data.List.Forall2
import Mathlib.Logic.Function.Basic
import Smolvfs.Lib.Search

/-!
# Directories: sorted lists of entries that stand for a total function

`Represents key R dflt l C`: the entries of `l` have strictly increasing keys,
the entry with key `n` is related by `R` to the value `C n`, and where there is
no entry the value is `dflt`.

* `find_spec`: the lower bound of a key is at its entry, or where it would go;
* `Represents.set`, `Represents.insert`: what changing and adding an entry does;
* `Represents.keys_eq`: the keys of the entries that differ from `dflt` are
  determined by the function.
-/

namespace Directory

open Search

variable {α β : Type} (key : α → Nat)

/-! ## Sorted lists -/

def Ordered (l : List α) : Prop := l.Pairwise fun a b => key a < key b

/-- Where an entry of key `n` is, or would go. -/
def find (l : List α) (n : Nat) : Nat :=
  lowerBound (fun i => l[i]?.any fun a => decide (key a < n)) (l.length + 1) 0 l.length

section
variable {key} {l : List α}

theorem Ordered.lt (h : Ordered key l) (i j : Nat) (a b : α) (ha : l[i]? = some a) (hb : l[j]? = some b)
    (hij : i < j) : key a < key b := by
  obtain ⟨hi, rfl⟩ := List.getElem?_eq_some_iff.mp ha
  obtain ⟨hj, rfl⟩ := List.getElem?_eq_some_iff.mp hb
  exact List.pairwise_iff_getElem.mp h i j hi hj hij

theorem Ordered.filter (h : Ordered key l) (p : α → Bool) : Ordered key (l.filter p) :=
  List.Pairwise.filter p h

theorem ordered_keys {l' : List α} (h : Ordered key l) (hk : l'.map key = l.map key) : Ordered key l' := by
  have h1 : (l.map key).Pairwise (· < ·) := List.pairwise_map.mpr h
  rw [← hk] at h1
  exact List.pairwise_map.mp h1

/-- What is left of the place has a smaller key, what is right of it has not. -/
theorem find_spec (h : Ordered key l) (n : Nat) :
    (∀ i a, i < find key l n → l[i]? = some a → key a < n) ∧
      (∀ i a, find key l n ≤ i → l[i]? = some a → n ≤ key a) ∧ find key l n ≤ l.length := by
  have hf : Falling (fun i => l[i]?.any fun a => decide (key a < n)) l.length := by
    intro i j hij hj hb
    obtain ⟨b, hb', hlt⟩ := (Option.any_eq_true _ _).mp hb
    have hi : l[i]? = some l[i] := List.getElem?_eq_getElem (by omega)
    rcases Nat.lt_or_eq_of_le hij with hij | rfl
    · have := h.lt i j _ b hi hb' hij
      simp only [decide_eq_true_eq] at hlt
      simp only [hi, Option.any_some, decide_eq_true_eq]
      omega
    · exact hb
  obtain ⟨h1, h2, h3⟩ := lowerBound_spec _ l.length hf (l.length + 1) 0 l.length (by omega) (by omega) (by omega)
    (fun i hi => by omega) (fun i hi hin => by omega)
  refine ⟨?_, ?_, h3⟩
  · intro i a hi ha
    have := h1 i hi
    rw [ha] at this
    simpa using this
  · intro i a hi ha
    obtain ⟨hil, -⟩ := List.getElem?_eq_some_iff.mp ha
    have := h2 i hi hil
    rw [ha] at this
    simpa using this

/-- The place of a key that is there. -/
theorem find_of_mem (h : Ordered key l) (a : α) (ha : a ∈ l) : l[find key l (key a)]? = some a := by
  obtain ⟨i, hi⟩ := List.mem_iff_getElem?.mp ha
  obtain ⟨h1, h2, -⟩ := find_spec h (key a)
  have hle : find key l (key a) ≤ i := by
    by_contra hc
    have := h1 i a (by omega) hi
    omega
  obtain ⟨hil, -⟩ := List.getElem?_eq_some_iff.mp hi
  have hb : l[find key l (key a)]? = some (l.get ⟨find key l (key a), by omega⟩) :=
    List.getElem?_eq_getElem (by omega)
  have h3 := h2 _ _ (Nat.le_refl _) hb
  rcases Nat.lt_or_eq_of_le hle with hlt | heq
  · have := h.lt _ i _ a hb hi hlt
    omega
  · rw [heq]
    exact hi

/-- The entry at the place has the key, or no entry has. -/
theorem find_cases (h : Ordered key l) (n : Nat) :
    (∃ a, l[find key l n]? = some a ∧ key a = n) ∨
      ((∀ a, l[find key l n]? = some a → key a ≠ n) ∧ ∀ a ∈ l, key a ≠ n) := by
  by_cases hex : ∃ a ∈ l, key a = n
  · obtain ⟨a, ha, rfl⟩ := hex
    exact Or.inl ⟨a, find_of_mem h a ha, rfl⟩
  · have hno : ∀ a ∈ l, key a ≠ n := fun a ha hk => hex ⟨a, ha, hk⟩
    exact Or.inr ⟨fun a ha => hno a (List.mem_of_getElem? ha), hno⟩

theorem mem_insertIdx_find (h : Ordered key l) (a b : α) :
    b ∈ l.insertIdx (find key l (key a)) a ↔ b = a ∨ b ∈ l :=
  List.mem_insertIdx (find_spec h (key a)).2.2

theorem insertIdx_eq (i : Nat) (a : α) (hi : i ≤ l.length) : l.insertIdx i a = l.take i ++ a :: l.drop i := by
  induction i generalizing l with
  | zero => simp
  | succ i ih =>
    cases l with
    | nil => simp at hi
    | cons b l =>
      rw [List.insertIdx_succ_cons, ih (by simpa using hi)]
      rfl

/-- What was put in may be overwritten. -/
theorem set_insertIdx (i : Nat) (a b : α) (h : i ≤ l.length) : (l.insertIdx i a).set i b = l.insertIdx i b := by
  have hi : (l.take i).length = i := by rw [List.length_take, Nat.min_eq_left h]
  rw [insertIdx_eq i a h, insertIdx_eq i b h, List.set_append_right _ _ (by omega), hi, Nat.sub_self]
  rfl

theorem Ordered.insert (h : Ordered key l) (a : α) (hno : ∀ b ∈ l, key b ≠ key a) :
    Ordered key (l.insertIdx (find key l (key a)) a) := by
  obtain ⟨h1, h2, h3⟩ := find_spec h (key a)
  generalize find key l (key a) = pos at h1 h2 h3 ⊢
  rw [insertIdx_eq pos a h3]
  unfold Ordered
  rw [List.pairwise_append, List.pairwise_cons]
  refine ⟨List.Pairwise.sublist (List.take_sublist pos l) h,
    ⟨?_, List.Pairwise.sublist (List.drop_sublist pos l) h⟩, ?_⟩
  · intro b hb
    obtain ⟨i, hi⟩ := List.mem_iff_getElem?.mp hb
    rw [List.getElem?_drop] at hi
    have h4 := h2 _ b (by omega) hi
    have h5 := hno b (List.mem_of_getElem? hi)
    omega
  · intro b hb c hc
    obtain ⟨i, hi⟩ := List.mem_iff_getElem?.mp hb
    rw [List.getElem?_take] at hi
    split at hi
    case isFalse => cases hi
    case isTrue hlt =>
    have h4 := h1 i b hlt hi
    rcases List.mem_cons.mp hc with rfl | hc
    · exact h4
    · obtain ⟨j, hj⟩ := List.mem_iff_getElem?.mp hc
      rw [List.getElem?_drop] at hj
      have h5 := h2 _ c (by omega) hj
      omega

end

/-! ## The function a directory stands for -/

structure Represents (R : α → β → Prop) (dflt : β) (l : List α) (C : Nat → β) : Prop where
  ordered : Ordered key l
  entry : ∀ a ∈ l, R a (C (key a))
  absent : ∀ n, (∀ a ∈ l, key a ≠ n) → C n = dflt

section
variable {key} {R : α → β → Prop} {dflt : β} {l : List α} {C : Nat → β}

theorem represents_nil : Represents key R dflt [] fun _ => dflt where
  ordered := List.Pairwise.nil
  entry := by simp
  absent := fun _ _ => rfl

/-- Changing an entry changes the function at its key. -/
theorem Represents.set (h : Represents key R dflt l C) (i : Nat) (a b : α) (ha : l[i]? = some a)
    (hk : key b = key a) (v : β) (hb : R b v) :
    Represents key R dflt (l.set i b) (Function.update C (key a) v) := by
  obtain ⟨hi, hai⟩ := List.getElem?_eq_some_iff.mp ha
  have hkeys : (l.set i b).map key = l.map key := by
    have hi' : i < (l.map key).length := by simpa using hi
    have hget : (l.map key)[i] = key a := by rw [List.getElem_map, hai]
    rw [List.map_set, hk, ← hget, List.set_getElem_self]
  refine ⟨ordered_keys h.ordered hkeys, ?_, ?_⟩
  · intro c hc
    obtain ⟨j, hj⟩ := List.mem_iff_getElem?.mp hc
    rw [List.getElem?_set] at hj
    split at hj
    · next hij =>
      obtain rfl := Option.some.inj hj
      rw [hk, Function.update_self]
      exact hb
    · next hij =>
      have hne : key c ≠ key a := by
        rcases Nat.lt_or_gt_of_ne hij with hlt | hgt
        · have := h.ordered.lt i j a c ha hj hlt
          omega
        · have := h.ordered.lt j i c a hj ha hgt
          omega
      rw [Function.update_of_ne hne]
      exact h.entry c (List.mem_of_getElem? hj)
  · intro n hn
    have hno : ∀ c ∈ l, key c ≠ n := by
      intro c hc
      have : key c ∈ (l.set i b).map key := hkeys ▸ List.mem_map_of_mem hc
      obtain ⟨d, hd, hdk⟩ := List.mem_map.mp this
      exact hdk ▸ hn d hd
    rw [Function.update_of_ne (hno a (List.mem_of_getElem? ha)).symm]
    exact h.absent n hno

/-- Adding an entry changes the function at its key. -/
theorem Represents.insert (h : Represents key R dflt l C) (a : α) (hno : ∀ b ∈ l, key b ≠ key a) (v : β)
    (ha : R a v) :
    Represents key R dflt (l.insertIdx (find key l (key a)) a) (Function.update C (key a) v) := by
  refine ⟨h.ordered.insert a hno, ?_, ?_⟩
  · intro b hb
    rcases (mem_insertIdx_find h.ordered a b).mp hb with rfl | hb
    · rw [Function.update_self]
      exact ha
    · rw [Function.update_of_ne (hno b hb)]
      exact h.entry b hb
  · intro n hn
    have hna : n ≠ key a := (hn a ((mem_insertIdx_find h.ordered a a).mpr (Or.inl rfl))).symm
    rw [Function.update_of_ne hna]
    exact h.absent n fun b hb => hn b ((mem_insertIdx_find h.ordered a b).mpr (Or.inr hb))

theorem keys_of_forall₂ {P : α → α → Prop} {l l' : List α} (hf : List.Forall₂ (fun a b => key b = key a ∧ P a b) l l') :
    l'.map key = l.map key := by
  induction hf with
  | nil => rfl
  | cons hd _ ih => rw [List.map_cons, List.map_cons, hd.1, ih]

/-- Entries may be replaced one for one. -/
theorem Represents.forall₂ {S : α → β → Prop} {l' : List α} (h : Represents key R dflt l C)
    (hf : List.Forall₂ (fun a b => key b = key a ∧ S b (C (key a))) l l') : Represents key S dflt l' C := by
  have hkeys := keys_of_forall₂ hf
  refine ⟨ordered_keys h.ordered hkeys, ?_, ?_⟩
  · intro b hb
    obtain ⟨i, hi⟩ := List.mem_iff_getElem?.mp hb
    obtain ⟨hil, hib⟩ := List.getElem?_eq_some_iff.mp hi
    have hlen := hf.length_eq
    have hr := hf.get (i := i) (by omega) hil
    simp only [List.get_eq_getElem, hib] at hr
    rw [hr.1]
    exact hr.2
  · intro n hn
    apply h.absent
    intro a ha
    have : key a ∈ l'.map key := hkeys ▸ List.mem_map_of_mem ha
    obtain ⟨b, hb, hbk⟩ := List.mem_map.mp this
    exact hbk ▸ hn b hb

theorem Represents.mono {S : α → β → Prop} (h : Represents key R dflt l C) (hs : ∀ a v, R a v → S a v) :
    Represents key S dflt l C := ⟨h.ordered, fun a ha => hs a _ (h.entry a ha), h.absent⟩

/-- Entries of the default value may be dropped. -/
theorem Represents.filter (h : Represents key R dflt l C) (p : α → Bool)
    (hp : ∀ a ∈ l, p a = false → C (key a) = dflt) : Represents key R dflt (l.filter p) C where
  ordered := h.ordered.filter p
  entry := fun a ha => h.entry a (List.mem_of_mem_filter ha)
  absent := by
    intro n hn
    by_cases hex : ∃ a ∈ l, key a = n
    · obtain ⟨a, ha, rfl⟩ := hex
      apply hp a ha
      by_contra hpa
      exact hn a (List.mem_filter.mpr ⟨ha, by simpa using hpa⟩) rfl
    · exact h.absent n fun a ha hk => hex ⟨a, ha, hk⟩

theorem Represents.mem_keys (h : Represents key R dflt l C) (hl : ∀ a ∈ l, C (key a) ≠ dflt) (n : Nat) :
    n ∈ l.map key ↔ C n ≠ dflt := by
  constructor
  · intro hn
    obtain ⟨a, ha, rfl⟩ := List.mem_map.mp hn
    exact hl a ha
  · intro hn
    by_contra hc
    exact hn (h.absent n fun a ha hk => hc (hk ▸ List.mem_map_of_mem ha))

/-- **The keys of the entries with a value of their own** depend on the function alone. -/
theorem Represents.keys_eq {S : α → β → Prop} {l' : List α} (h : Represents key R dflt l C)
    (h' : Represents key S dflt l' C) (hl : ∀ a ∈ l, C (key a) ≠ dflt) (hl' : ∀ a ∈ l', C (key a) ≠ dflt) :
    l.map key = l'.map key := by
  have hmem : ∀ n, n ∈ l.map key ↔ n ∈ l'.map key := fun n => (h.mem_keys hl n).trans (h'.mem_keys hl' n).symm
  have h1 : (l.map key).Pairwise (· < ·) := List.pairwise_map.mpr h.ordered
  have h2 : (l'.map key).Pairwise (· < ·) := List.pairwise_map.mpr h'.ordered
  exact h1.eq_of_mem_iff h2 hmem

end

end Directory
