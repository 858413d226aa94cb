import Mathlib.Data.List.Basic

/-!
# Open addressing with linear probing

A table is a list of slots, some of them free.  `insert` puts an item into the
first free slot from its start on, cyclically; `probe` runs a loop that asks each
slot in turn for a verdict.

* `Holds t xs`: the items of `xs` are in the table, each with no free slot
  between its start and its place, and nothing else is; `holds_build`: a table
  built of no more items than it has slots holds them.
* `build_spec`: the items are in the slots in use, each once, and there is no free slot
  between the start of one and its place (`Reached`).
* `probe_of_mem`, `probe_of_absent`: a loop over such a table that stops at free
  slots stops at the item that is looked for, or finds nothing.
-/

namespace Probing

/-! ## The loop -/

section
variable {β : Type}

/-- The first verdict among `f i`, …, `f (i + n - 1)`. -/
def probe (f : Nat → Option β) : Nat → Nat → Option β
  | 0, _ => none
  | n + 1, i =>
    match f i with
    | some r => some r
    | none => probe f n (i + 1)

theorem probe_eq_some (f : Nat → Option β) (n i : Nat) (r : β) :
    probe f n i = some r ↔ ∃ j, i ≤ j ∧ j < i + n ∧ f j = some r ∧ ∀ k, i ≤ k → k < j → f k = none := by
  induction n generalizing i with
  | zero =>
    simp only [probe, reduceCtorEq, false_iff, not_exists]
    rintro j ⟨h1, h2, -⟩
    omega
  | succ n ih =>
    unfold probe
    cases hf : f i with
    | some r' =>
      simp only [Option.some.injEq]
      constructor
      · rintro rfl
        exact ⟨i, Nat.le_refl _, by omega, hf, fun k h1 h2 => by omega⟩
      · rintro ⟨j, h1, h2, h3, h4⟩
        have hij : j = i := by
          by_contra hne
          have := h4 i (Nat.le_refl _) (by omega)
          rw [hf] at this
          cases this
        rw [hij, hf] at h3
        exact Option.some.inj h3
    | none =>
      simp only []
      rw [ih]
      constructor
      · rintro ⟨j, h1, h2, h3, h4⟩
        refine ⟨j, by omega, by omega, h3, ?_⟩
        intro k hk1 hk2
        by_cases hki : k = i
        · rw [hki, hf]
        · exact h4 k (by omega) hk2
      · rintro ⟨j, h1, h2, h3, h4⟩
        have hne : j ≠ i := by
          rintro rfl
          rw [hf] at h3
          cases h3
        exact ⟨j, by omega, by omega, h3, fun k hk1 hk2 => h4 k (by omega) hk2⟩

theorem probe_isSome (f : Nat → Option β) (n i j : Nat) (h1 : i ≤ j) (h2 : j < i + n) (r : β)
    (h : f j = some r) : ∃ r', probe f n i = some r' := by
  induction n generalizing i with
  | zero => omega
  | succ n ih =>
    unfold probe
    cases hf : f i with
    | some r' => exact ⟨r', rfl⟩
    | none =>
      have hne : j ≠ i := by
        rintro rfl
        rw [hf] at h
        cases h
      exact ih (i + 1) (by omega) (by omega)

end

/-! ## Building a table -/

section
variable {σ : Type} (free : σ → Bool) (start : σ → Nat)

/-- The slot `j` places after `s`. -/
def slotAt (t : List σ) (s j : Nat) : Option σ := t[(s + j) % t.length]?

/-- The first free slot from `s` on. -/
def freeSlot (t : List σ) (s : Nat) : Option Nat :=
  probe (fun j => (slotAt t s j).bind fun y => if free y then some ((s + j) % t.length) else none)
    t.length 0

def insert (t : List σ) (x : σ) : List σ :=
  match freeSlot free t (start x) with
  | some p => t.set p x
  | none => t

def build (n : Nat) (empty : σ) (xs : List σ) : List σ :=
  xs.foldl (insert free start) (List.replicate n empty)

theorem length_insert (t : List σ) (x : σ) : (insert free start t x).length = t.length := by
  unfold insert
  split
  · rw [List.length_set]
  · rfl

theorem length_foldl_insert (xs t : List σ) : (xs.foldl (insert free start) t).length = t.length := by
  induction xs generalizing t with
  | nil => rfl
  | cons x xs ih => rw [List.foldl_cons, ih, length_insert]

theorem mem_insert (t : List σ) (x y : σ) (h : y ∈ insert free start t x) : y ∈ t ∨ y = x := by
  unfold insert at h
  split at h
  · exact List.mem_or_eq_of_mem_set h
  · exact Or.inl h

theorem mem_build (n : Nat) (empty : σ) (xs : List σ) (y : σ) (h : y ∈ build free start n empty xs) :
    y = empty ∨ y ∈ xs := by
  have hgen : ∀ t : List σ, y ∈ xs.foldl (insert free start) t → y ∈ t ∨ y ∈ xs := by
    clear h
    induction xs with
    | nil => exact fun t h => Or.inl h
    | cons x xs ih =>
      intro t h
      rcases ih _ h with h | h
      · rcases mem_insert free start t x y h with h | rfl
        · exact Or.inl h
        · exact Or.inr (by simp)
      · exact Or.inr (List.mem_cons_of_mem _ h)
  rcases hgen _ h with h | h
  · exact Or.inl (List.eq_of_mem_replicate h)
  · exact Or.inr h

@[simp] theorem length_build (n : Nat) (empty : σ) (xs : List σ) :
    (build free start n empty xs).length = n := by
  rw [build, length_foldl_insert, List.length_replicate]

/-- The items of `xs` are where a probe from their start meets them before any free slot. -/
structure Holds (t xs : List σ) : Prop where
  placed : ∀ x ∈ xs, ∃ d < t.length, slotAt t (start x) d = some x ∧
    ∀ j < d, ∀ y, slotAt t (start x) j = some y → free y = false
  only : ∀ y ∈ t, free y = false → y ∈ xs
  taken : ∀ x ∈ xs, free x = false
  used : t.countP (fun y => !free y) = xs.length

/-- Every slot is some number of places after `s`. -/
theorem exists_step (n s p : Nat) (hp : p < n) : ∃ d < n, (s + d) % n = p := by
  have hs : s % n < n := Nat.mod_lt _ (by omega)
  by_cases h : s % n ≤ p
  · refine ⟨p - s % n, by omega, ?_⟩
    rw [Nat.add_mod, Nat.mod_eq_of_lt (show p - s % n < n by omega), show s % n + (p - s % n) = p by omega,
      Nat.mod_eq_of_lt hp]
  · refine ⟨p + n - s % n, by omega, ?_⟩
    rw [Nat.add_mod, Nat.mod_eq_of_lt (show p + n - s % n < n by omega),
      show s % n + (p + n - s % n) = p + n by omega, Nat.add_mod_right, Nat.mod_eq_of_lt hp]

theorem exists_free (t : List σ) (h : t.countP (fun y => !free y) < t.length) :
    ∃ p, ∃ hp : p < t.length, free t[p] = true := by
  by_contra hno
  have hall : ∀ y ∈ t, (!free y) = true := by
    intro y hy
    obtain ⟨p, hp, rfl⟩ := List.getElem_of_mem hy
    by_contra hfree
    exact hno ⟨p, hp, by simpa using hfree⟩
  rw [List.countP_eq_length.mpr hall] at h
  exact Nat.lt_irrefl _ h

/-- A free slot is found when there is one, and everything passed on the way is in use. -/
theorem freeSlot_spec (t : List σ) (s : Nat) (h : t.countP (fun y => !free y) < t.length) :
    ∃ d < t.length, freeSlot free t s = some ((s + d) % t.length) ∧
      (∃ y, slotAt t s d = some y ∧ free y = true) ∧
      ∀ j < d, ∀ y, slotAt t s j = some y → free y = false := by
  obtain ⟨p, hp, hfree⟩ := exists_free free t h
  obtain ⟨d₀, hd₀, hstep⟩ := exists_step t.length s p hp
  have hslot : slotAt t s d₀ = some t[p] := by
    unfold slotAt
    rw [hstep, List.getElem?_eq_getElem hp]
  obtain ⟨r, hr⟩ := probe_isSome
    (fun j => (slotAt t s j).bind fun y => if free y then some ((s + j) % t.length) else none) t.length 0 d₀
    (Nat.zero_le _) (by omega) ((s + d₀) % t.length) (by simp [hslot, hfree])
  obtain ⟨d, -, hd, hv, hbefore⟩ := (probe_eq_some _ _ _ _).mp hr
  obtain ⟨y, hy, hyf⟩ := Option.bind_eq_some_iff.mp hv
  split at hyf
  · next hyfree =>
    obtain rfl := Option.some.inj hyf
    refine ⟨d, by omega, hr, ⟨y, hy, hyfree⟩, ?_⟩
    intro j hj z hz
    have hn := hbefore j (Nat.zero_le _) hj
    rw [hz] at hn
    simpa using hn
  · cases hyf

theorem slotAt_set (t : List σ) (p : Nat) (x : σ) (s j : Nat) (hp : p < t.length) :
    slotAt (t.set p x) s j = if (s + j) % t.length = p then some x else slotAt t s j := by
  unfold slotAt
  rw [List.length_set, List.getElem?_set]
  by_cases h : p = (s + j) % t.length
  · rw [if_pos h, if_pos h.symm, if_pos (by omega)]
  · rw [if_neg h, if_neg (Ne.symm h)]

/-- An item goes into the first free slot from its start on. -/
theorem insert_spec (t : List σ) (x : σ) (h : t.countP (fun y => !free y) < t.length) :
    ∃ d < t.length, ∃ hp : (start x + d) % t.length < t.length,
      insert free start t x = t.set ((start x + d) % t.length) x ∧ free t[(start x + d) % t.length] = true ∧
      ∀ j < d, ∀ y, slotAt t (start x) j = some y → free y = false := by
  obtain ⟨d, hd, hf, ⟨y, hy, hyfree⟩, hbefore⟩ := freeSlot_spec free t (start x) h
  have hp : (start x + d) % t.length < t.length := Nat.mod_lt _ (by omega)
  refine ⟨d, hd, hp, ?_, ?_, hbefore⟩
  · unfold insert
    rw [hf]
  · unfold slotAt at hy
    rw [List.getElem?_eq_getElem hp] at hy
    rw [Option.some.inj hy]
    exact hyfree

/-- Inserting an item keeps what the table holds and adds the item. -/
theorem holds_insert (t xs : List σ) (x : σ) (h : Holds free start t xs) (hlen : xs.length < t.length)
    (hx : free x = false) : Holds free start (insert free start t x) (xs ++ [x]) := by
  obtain ⟨d, hd, hp, hins, hfree, hbefore⟩ := insert_spec free start t x (by rw [h.used]; exact hlen)
  -- a slot in use stays so, and only the free one changes
  have hkeep : ∀ s j z, slotAt t s j = some z → free z = false →
      slotAt (t.set ((start x + d) % t.length) x) s j = some z := by
    intro s j z hz hzf
    rw [slotAt_set t _ x s j hp, if_neg]
    · exact hz
    · intro heq
      unfold slotAt at hz
      rw [heq, List.getElem?_eq_getElem hp] at hz
      rw [Option.some.inj hz, hzf] at hfree
      cases hfree
  have hused : ∀ s j z, slotAt (t.set ((start x + d) % t.length) x) s j = some z →
      (∀ w, slotAt t s j = some w → free w = false) → free z = false := by
    intro s j z hz hall
    rw [slotAt_set t _ x s j hp] at hz
    split at hz
    · obtain rfl := Option.some.inj hz
      exact hx
    · exact hall z hz
  rw [hins]
  constructor
  · intro z hz
    rw [List.length_set]
    rcases List.mem_append.mp hz with hz | hz
    · obtain ⟨e, he, hslot, hpre⟩ := h.placed z hz
      exact ⟨e, he, hkeep _ _ z hslot (h.taken z hz), fun j hj w hw => hused _ _ w hw (hpre j hj)⟩
    · obtain rfl := List.mem_singleton.mp hz
      refine ⟨d, hd, ?_, fun j hj w hw => hused _ _ w hw (hbefore j hj)⟩
      rw [slotAt_set t _ _ _ _ hp, if_pos rfl]
  · intro z hz hzf
    rcases List.mem_or_eq_of_mem_set hz with hz | rfl
    · exact List.mem_append_left _ (h.only z hz hzf)
    · simp
  · intro z hz
    rcases List.mem_append.mp hz with hz | hz
    · exact h.taken z hz
    · obtain rfl := List.mem_singleton.mp hz
      exact hx
  · rw [List.countP_set hp, hfree, hx, h.used]
    simp

/-- A table with a slot for every item, none of which looks free, holds them. -/
theorem holds_build (n : Nat) (empty : σ) (he : free empty = true) (xs : List σ)
    (hx : ∀ x ∈ xs, free x = false) (hlen : xs.length ≤ n) :
    Holds free start (build free start n empty xs) xs := by
  have hgen : ∀ ys zs t, t.length = n → ys ++ zs = xs → Holds free start t ys →
      Holds free start (zs.foldl (insert free start) t) xs := by
    intro ys zs
    induction zs generalizing ys with
    | nil =>
      intro t _ hcat h
      rw [List.append_nil] at hcat
      rw [← hcat]
      exact h
    | cons z zs ih =>
      intro t hn hcat h
      have hz : z ∈ xs := by
        rw [← hcat]
        simp
      have hlt : ys.length < t.length := by
        have := congrArg List.length hcat
        simp only [List.length_append, List.length_cons] at this
        omega
      rw [List.foldl_cons]
      refine ih (ys ++ [z]) _ (by rw [length_insert, hn]) (by simpa using hcat) ?_
      exact holds_insert free start t ys z h hlt (hx z hz)
  apply hgen [] xs _ (List.length_replicate ..) rfl
  constructor
  · intro x hxm
    cases hxm
  · intro y hy hyf
    rw [List.eq_of_mem_replicate hy, he] at hyf
    cases hyf
  · intro x hxm
    cases hxm
  · rw [List.countP_replicate]
    simp [he]

/-! ## Every slot of a table -/

/-- The slots in use are reached from their items' starts past slots in use. -/
def Reached (t : List σ) : Prop :=
  ∀ p, ∀ hp : p < t.length, free t[p] = false → ∃ d < t.length, (start t[p] + d) % t.length = p ∧
    ∀ j < d, ∀ y, slotAt t (start t[p]) j = some y → free y = false

theorem reached_insert (t : List σ) (x : σ) (h : Reached free start t)
    (hroom : t.countP (fun y => !free y) < t.length) (hx : free x = false) :
    Reached free start (insert free start t x) := by
  obtain ⟨d, hd, hp, hins, hfree, hbefore⟩ := insert_spec free start t x hroom
  have hused : ∀ s j z, slotAt (t.set ((start x + d) % t.length) x) s j = some z →
      (∀ w, slotAt t s j = some w → free w = false) → free z = false := by
    intro s j z hz hall
    rw [slotAt_set t _ x s j hp] at hz
    split at hz
    · obtain rfl := Option.some.inj hz
      exact hx
    · exact hall z hz
  rw [hins]
  intro p hpt hpused
  rw [List.length_set] at hpt ⊢
  rw [List.getElem_set] at hpused ⊢
  by_cases heq : (start x + d) % t.length = p
  · rw [if_pos heq]
    exact ⟨d, hd, heq, fun j hj z hz => hused _ _ z hz (hbefore j hj)⟩
  · rw [if_neg heq] at hpused ⊢
    obtain ⟨e, he, hstep, hpre⟩ := h p hpt hpused
    exact ⟨e, he, hstep, fun j hj z hz => hused _ _ z hz (hpre j hj)⟩

theorem used_insert (t : List σ) (x : σ) (hroom : t.countP (fun y => !free y) < t.length) (hx : free x = false) :
    ((insert free start t x).filter fun y => !free y).Perm (x :: t.filter fun y => !free y) := by
  obtain ⟨d, -, hp, hins, hfree, -⟩ := insert_spec free start t x hroom
  have hsplit : t = t.take ((start x + d) % t.length) ++ t[(start x + d) % t.length] ::
      t.drop ((start x + d) % t.length + 1) := by
    rw [← List.drop_eq_getElem_cons hp, List.take_append_drop]
  have hold : (t.filter fun y => !free y) = (t.take ((start x + d) % t.length)).filter (fun y => !free y) ++
      (t.drop ((start x + d) % t.length + 1)).filter fun y => !free y := by
    conv_lhs => rw [hsplit]
    rw [List.filter_append, List.filter_cons_of_neg (by simp [hfree])]
  rw [hins, List.set_eq_take_append_cons_drop, if_pos hp, List.filter_append, List.filter_cons_of_pos (by simp [hx]),
    hold]
  exact List.perm_middle

/-- **A table that is built** has its items in the slots in use, each once, and every one of them is reached. -/
theorem build_spec (n : Nat) (empty : σ) (he : free empty = true) (xs : List σ) (hx : ∀ x ∈ xs, free x = false)
    (hlen : xs.length ≤ n) :
    Reached free start (build free start n empty xs) ∧
      ((build free start n empty xs).filter fun y => !free y).Perm xs := by
  have hgen : ∀ t : List σ, Reached free start t → t.countP (fun y => !free y) + xs.length ≤ t.length →
      Reached free start (xs.foldl (insert free start) t) ∧
        ((xs.foldl (insert free start) t).filter fun y => !free y).Perm (xs ++ t.filter fun y => !free y) := by
    clear hlen
    induction xs with
    | nil => exact fun t h _ => ⟨h, List.Perm.refl _⟩
    | cons x xs ih =>
      intro t h hroom
      rw [List.length_cons] at hroom
      have hfree := hx x (by simp)
      have hused := used_insert free start t x (by omega) hfree
      have hcount : (insert free start t x).countP (fun y => !free y) = t.countP (fun y => !free y) + 1 := by
        rw [List.countP_eq_length_filter, hused.length_eq, List.length_cons, List.countP_eq_length_filter]
      obtain ⟨hreach, hperm⟩ := ih (fun y hy => hx y (List.mem_cons_of_mem _ hy)) (insert free start t x)
        (reached_insert free start t x h (by omega) hfree) (by rw [hcount, length_insert]; omega)
      refine ⟨hreach, hperm.trans ?_⟩
      exact (hused.append_left xs).trans List.perm_middle
  have hnone : ∀ y ∈ List.replicate n empty, ¬(!free y) = true := by
    intro y hy
    rw [List.eq_of_mem_replicate hy, he]
    simp
  have hempty : (List.replicate n empty).filter (fun y => !free y) = [] := List.filter_eq_nil_iff.mpr hnone
  obtain ⟨hreach, hperm⟩ := hgen (List.replicate n empty)
    (fun p hp hpused => absurd (by rw [hpused]; rfl) (hnone _ (List.getElem_mem hp)))
    (by rw [List.countP_eq_length_filter, hempty, List.length_replicate, List.length_nil]; omega)
  rw [hempty, List.append_nil] at hperm
  exact ⟨hreach, hperm⟩

/-! ## Looking an item up -/

variable {β : Type} (t xs : List σ) (h : Holds free start t xs) (s : Nat) (f : Nat → Option β) (v : σ → Option β)
  (absent : β) (hfree : ∀ j < t.length, ∀ y, slotAt t s j = some y → free y = true → f j = some absent)
  (hv : ∀ j < t.length, ∀ y, slotAt t s j = some y → free y = false → f j = v y)

theorem slotAt_some (j : Nat) (hj : j < t.length) : ∃ y ∈ t, slotAt t s j = some y := by
  have hp : (s + j) % t.length < t.length := Nat.mod_lt _ (by omega)
  exact ⟨_, List.getElem_mem hp, List.getElem?_eq_getElem hp⟩

include h hv

/-- The loop finds an item with a verdict when no item has another one. -/
theorem probe_of_mem (x : σ) (hx : x ∈ xs) (hs : start x = s) (r : β) (hr : v x = some r)
    (hother : ∀ y ∈ xs, v y = none ∨ v y = some r) : probe f t.length 0 = some r := by
  obtain ⟨d, hd, hslot, hpre⟩ := h.placed x hx
  rw [hs] at hslot hpre
  have hfd : f d = some r := by rw [hv d hd x hslot (h.taken x hx), hr]
  obtain ⟨r', hr'⟩ := probe_isSome f t.length 0 d (Nat.zero_le _) (by omega) r hfd
  obtain ⟨j, -, hj, hfj, hbefore⟩ := (probe_eq_some _ _ _ _).mp hr'
  have hjd : j ≤ d := by
    by_contra hlt
    have := hbefore d (Nat.zero_le _) (by omega)
    rw [hfd] at this
    cases this
  rw [hr']
  rcases Nat.lt_or_eq_of_le hjd with hlt | rfl
  · obtain ⟨y, hy, hslot'⟩ := slotAt_some t s j (by omega)
    have hyf := hpre j hlt y hslot'
    rw [hv j (by omega) y hslot' hyf] at hfj
    rcases hother y (h.only y hy hyf) with hn | hn
    · rw [hn] at hfj
      cases hfj
    · rw [hn] at hfj
      exact hfj.symm
  · rw [hfd] at hfj
    exact hfj.symm

include hfree

/-- The loop ends at a free slot or at the end when no item has a verdict. -/
theorem probe_of_absent (hno : ∀ y ∈ xs, v y = none) :
    probe f t.length 0 = none ∨ probe f t.length 0 = some absent := by
  cases hp : probe f t.length 0 with
  | none => exact .inl rfl
  | some r =>
    obtain ⟨j, -, hj, hfj, -⟩ := (probe_eq_some _ _ _ _).mp hp
    obtain ⟨y, hy, hslot⟩ := slotAt_some t s j (by omega)
    cases hyf : free y with
    | true =>
      rw [hfree j (by omega) y hslot hyf] at hfj
      exact .inr (by rw [Option.some.inj hfj])
    | false =>
      rw [hv j (by omega) y hslot hyf, hno y (h.only y hy hyf)] at hfj
      cases hfj

end

end Probing
