import Mathlib.Data.List.Basic

/-!
# Binary search

`bsearch probe fuel lo hi` halves the window `[lo, hi)` under `probe`, which
says on which side of the key an index lies.  The probe is any function: a
table that is not sorted is searched all the same.  `lowerBound before fuel lo hi`
is the same search under a two-way probe, for the place a key would go.

* `bsearch_sound`: an index found is in the window and probes equal;
* `bsearch_complete`: when the probe never goes down, a key in the window is
  found once the fuel covers the window;
* `lowerBound_spec`: when the probe never goes back up, the bound splits the
  table in what is before the key and what is not;
* `FirstHit p lo hi n`: a linear search of a range, made of searches of its parts.
-/

namespace Search

/-- The loop `while (lo < hi)`; `probe i = .lt` when entry `i` is before the key. -/
def bsearch (probe : Nat → Ordering) : Nat → Nat → Nat → Option Nat
  | 0, _, _ => none
  | fuel + 1, lo, hi =>
    if lo < hi then
      let mid := lo + (hi - lo) / 2
      match probe mid with
      | .lt => bsearch probe fuel (mid + 1) hi
      | .gt => bsearch probe fuel lo mid
      | .eq => some mid
    else none

theorem bsearch_sound (probe : Nat → Ordering) (fuel lo hi i : Nat)
    (h : bsearch probe fuel lo hi = some i) : lo ≤ i ∧ i < hi ∧ probe i = .eq := by
  induction fuel generalizing lo hi with
  | zero => simp [bsearch] at h
  | succ fuel ih =>
    unfold bsearch at h
    split at h
    · next hlt =>
      simp only [] at h
      cases hp : probe (lo + (hi - lo) / 2) with
      | lt =>
        rw [hp] at h
        obtain ⟨h1, h2, h3⟩ := ih _ _ h
        exact ⟨by omega, h2, h3⟩
      | gt =>
        rw [hp] at h
        obtain ⟨h1, h2, h3⟩ := ih _ _ h
        exact ⟨h1, by omega, h3⟩
      | eq =>
        rw [hp] at h
        obtain rfl := Option.some.inj h
        exact ⟨by omega, by omega, hp⟩
    · cases h

/-- The probe falls from "before" to "at" to "after" along the table. -/
def Ascending (probe : Nat → Ordering) (n : Nat) : Prop :=
  ∀ i j, i < j → j < n → (probe i = .lt ∨ probe j = .gt)

theorem bsearch_complete (probe : Nat → Ordering) (n : Nat) (ha : Ascending probe n) (k : Nat)
    (hk : probe k = .eq) (fuel lo hi : Nat) (hf : hi - lo < fuel) (hlo : lo ≤ k) (hhi : k < hi)
    (hn : hi ≤ n) : ∃ i, bsearch probe fuel lo hi = some i := by
  induction fuel generalizing lo hi with
  | zero => omega
  | succ fuel ih =>
    unfold bsearch
    rw [if_pos (by omega)]
    simp only []
    cases hp : probe (lo + (hi - lo) / 2) with
    | lt =>
      -- everything up to `mid` is before the key, so `k` is to its right
      have hmid : lo + (hi - lo) / 2 < k := by
        rcases Nat.lt_trichotomy (lo + (hi - lo) / 2) k with hlt | heq | hgt
        · exact hlt
        · rw [heq, hk] at hp; cases hp
        · rcases ha _ _ hgt (by omega) with h1 | h1
          · rw [hk] at h1; cases h1
          · rw [hp] at h1; cases h1
      exact ih _ _ (by omega) (by omega) hhi hn
    | gt =>
      have hmid : k < lo + (hi - lo) / 2 := by
        rcases Nat.lt_trichotomy k (lo + (hi - lo) / 2) with hlt | heq | hgt
        · exact hlt
        · rw [← heq, hk] at hp; cases hp
        · rcases ha _ _ hgt (by omega) with h1 | h1
          · rw [hp] at h1; cases h1
          · rw [hk] at h1; cases h1
      exact ih _ _ (by omega) hlo hmid (by omega)
    | eq => exact ⟨_, rfl⟩

/-! ## Lower bounds -/

/-- The loop `while (lo < hi)` that ends where the key would go; `before i` when entry `i` is before the key. -/
def lowerBound (before : Nat → Bool) : Nat → Nat → Nat → Nat
  | 0, lo, _ => lo
  | fuel + 1, lo, hi =>
    if lo < hi then
      let mid := lo + (hi - lo) / 2
      if before mid then lowerBound before fuel (mid + 1) hi else lowerBound before fuel lo mid
    else lo

/-- What is before the key comes first. -/
def Falling (before : Nat → Bool) (n : Nat) : Prop :=
  ∀ i j, i ≤ j → j < n → before j = true → before i = true

section
variable (before : Nat → Bool) (n : Nat) (hm : Falling before n)
include hm

theorem lowerBound_spec (fuel lo hi : Nat) (hf : hi - lo < fuel) (hle : lo ≤ hi) (hn : hi ≤ n)
    (h1 : ∀ i, i < lo → before i = true) (h2 : ∀ i, hi ≤ i → i < n → before i = false) :
    (∀ i, i < lowerBound before fuel lo hi → before i = true) ∧
      (∀ i, lowerBound before fuel lo hi ≤ i → i < n → before i = false) ∧ lowerBound before fuel lo hi ≤ n := by
  induction fuel generalizing lo hi with
  | zero => omega
  | succ fuel ih =>
    unfold lowerBound
    split
    · next hlt =>
      dsimp only
      split
      · next hmid =>
        apply ih _ _ (by omega) (by omega) hn _ h2
        intro i hi'
        exact hm i (lo + (hi - lo) / 2) (by omega) (by omega) hmid
      · next hmid =>
        apply ih _ _ (by omega) (by omega) (by omega) h1
        intro i hi' hin
        by_contra hb
        exact hmid (hm _ i hi' hin (by simpa using hb))
    · next hge => exact ⟨h1, fun i hi' hin => h2 i (by omega) hin, by omega⟩

end

/-! ## First hits -/

section
variable {p : Nat → Prop} {lo mid hi n : Nat}

/-- No number of the range is a hit. -/
def Misses (p : Nat → Prop) (lo hi : Nat) : Prop := ∀ i, lo ≤ i → i < hi → ¬ p i

/-- The least hit of the range. -/
def FirstHit (p : Nat → Prop) (lo hi n : Nat) : Prop := lo ≤ n ∧ n < hi ∧ p n ∧ Misses p lo n

theorem misses_nil (h : hi ≤ lo) : Misses p lo hi := fun i h1 h2 => by omega

theorem Misses.append (h1 : Misses p lo mid) (h2 : Misses p mid hi) : Misses p lo hi := by
  intro i hlo hhi
  rcases Nat.lt_or_ge i mid with hi' | hi'
  · exact h1 i hlo hi'
  · exact h2 i hi' hhi

theorem Misses.cons (h1 : ¬ p lo) (h2 : Misses p (lo + 1) hi) : Misses p lo hi := by
  have hone : Misses p lo (lo + 1) := by
    intro i hlo hhi
    obtain rfl : i = lo := by omega
    exact h1
  exact hone.append h2

theorem Misses.mono {lo' hi' : Nat} (h : Misses p lo hi) (h1 : lo ≤ lo') (h2 : hi' ≤ hi) : Misses p lo' hi' :=
  fun i hlo hhi => h i (by omega) (by omega)

theorem FirstHit.after (h1 : Misses p lo mid) (hle : lo ≤ mid) (h2 : FirstHit p mid hi n) : FirstHit p lo hi n := by
  obtain ⟨h3, h4, h5, h6⟩ := h2
  exact ⟨by omega, h4, h5, h1.append h6⟩

theorem firstHit_here (h : lo < hi) (hp : p lo) : FirstHit p lo hi lo :=
  ⟨Nat.le_refl _, h, hp, misses_nil (Nat.le_refl _)⟩

theorem FirstHit.not_misses (h : FirstHit p lo hi n) : ¬ Misses p lo hi := fun hm => hm n h.1 h.2.1 h.2.2.1

end

end Search
