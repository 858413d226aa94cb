import Mathlib.Data.List.Induction
import Mathlib.Logic.Function.Basic

/-!
# Trees of paths

A tree gives a value to some paths, which are lists of names; some values are
directories.  It is closed when what it holds has its parent in it, as a
directory, or directly under the root, which itself is never in the tree.

Setting one path, taking a set of paths out and moving everything under one path
to another keep a tree closed (`Closed.set`, `Closed.restrict`, `Closed.move`); what
is missing above a path can be filled in (`fill`).
-/

namespace PathTree

variable {N V : Type}

/-- The value at a path, if there is one. -/
abbrev Tree (N V : Type) := List N → Option V

/-- Strictly below a path. -/
def Below (p q : List N) : Prop := ∃ n names, q = p ++ n :: names

theorem Below.starts {p q : List N} (h : Below p q) : p <+: q := by
  obtain ⟨n, names, rfl⟩ := h
  exact List.prefix_append _ _

theorem below_concat_iff (p q : List N) (n : N) : Below p (q ++ [n]) ↔ p <+: q := by
  constructor
  · rintro ⟨m, names, h⟩
    obtain ⟨init, last, hcons⟩ := List.eq_nil_or_concat (m :: names) |>.resolve_left (by simp)
    rw [hcons, List.concat_eq_append, ← List.append_assoc] at h
    exact ⟨init, (List.append_inj_left' h rfl).symm⟩
  · rintro ⟨rest, rfl⟩
    cases rest with
    | nil => exact ⟨n, [], by simp⟩
    | cons m names => exact ⟨m, names ++ [n], by simp⟩

theorem Below.ne {p q : List N} (h : Below p q) : p ≠ q := by
  obtain ⟨n, names, rfl⟩ := h
  intro heq
  have := congrArg List.length heq
  simp at this

theorem below_iff (p q : List N) : Below p q ↔ p <+: q ∧ p ≠ q := by
  constructor
  · exact fun h => ⟨h.starts, h.ne⟩
  · rintro ⟨⟨rest, rfl⟩, hne⟩
    cases rest with
    | nil => exact absurd (by simp) hne
    | cons n names => exact ⟨n, names, rfl⟩

/-- What comes before a prefix's end and what is below it do not overlap. -/
theorem prefix_concat_iff (p q : List N) (n : N) : p <+: q ++ [n] ↔ p = q ++ [n] ∨ p <+: q := by
  rw [← below_concat_iff p q n, below_iff]
  constructor
  · intro h
    by_cases heq : p = q ++ [n]
    · exact .inl heq
    · exact .inr ⟨h, heq⟩
  · rintro (rfl | ⟨h, -⟩)
    · exact List.prefix_refl _
    · exact h

section
variable (dir : V → Prop)

/-- There is a directory at the path, or it is the root. -/
def DirAt (t : Tree N V) (p : List N) : Prop := p = [] ∨ ∃ d, t p = some d ∧ dir d

/-- What is in the tree has its parent there, and the root is not in it. -/
structure Closed (t : Tree N V) : Prop where
  root : t [] = none
  parent : ∀ p n v, t (p ++ [n]) = some v → DirAt dir t p

variable {dir}

theorem Closed.empty : Closed dir (fun _ : List N => (none : Option V)) := ⟨rfl, by simp⟩

/-- Every path above one in the tree is a directory. -/
theorem Closed.above {t : Tree N V} (h : Closed dir t) {p q : List N} {v : V} (hq : t q = some v)
    (hb : Below p q) : DirAt dir t p := by
  obtain ⟨n, names, rfl⟩ := hb
  induction names using List.reverseRecOn generalizing v with
  | nil => exact h.parent p n v hq
  | append_singleton names m ih =>
    have hq' : t (p ++ n :: names ++ [m]) = some v := by simpa using hq
    rcases h.parent _ m v hq' with hnil | ⟨d, hd, -⟩
    · simp at hnil
    · exact ih hd

/-- Nothing is below what is not a directory. -/
theorem Closed.none_below {t : Tree N V} (h : Closed dir t) {p q : List N} (hp : ¬ DirAt dir t p) (hb : Below p q) :
    t q = none := by
  cases hq : t q with
  | none => rfl
  | some v => exact absurd (h.above hq hb) hp

/-- Nothing is at or below a path that is not in the tree. -/
theorem Closed.none_from {t : Tree N V} (h : Closed dir t) {p q : List N} (hne : p ≠ []) (hp : t p = none)
    (hb : p <+: q) : t q = none := by
  by_cases heq : p = q
  · rw [← heq, hp]
  · refine h.none_below ?_ ((below_iff p q).mpr ⟨hb, heq⟩)
    rintro (hnil | ⟨d, hd, -⟩)
    · exact hne hnil
    · rw [hp] at hd
      cases hd

/-- Values may be made of others, when directories are made of directories. -/
theorem Closed.map {W : Type} {dir' : W → Prop} {t : Tree N V} (h : Closed dir t) (f : V → W)
    (hf : ∀ v, dir v → dir' (f v)) : Closed dir' (fun q => (t q).map f) := by
  constructor
  · show (t []).map f = none
    rw [h.root]
    rfl
  · intro p n w hw
    obtain ⟨v, hv, -⟩ := Option.map_eq_some_iff.mp hw
    rcases h.parent p n v hv with hnil | ⟨d, hd, hdd⟩
    · exact .inl hnil
    · exact .inr ⟨f d, congrArg (Option.map f) hd, hf d hdd⟩

/-! ## Setting one path -/

theorem Closed.set [DecidableEq N] {t : Tree N V} (h : Closed dir t) (p : List N) (n : N) (v : V)
    (hp : DirAt dir t p) (hdir : ∀ d, t (p ++ [n]) = some d → dir d → dir v) :
    Closed dir (Function.update t (p ++ [n]) (some v)) := by
  have hkeep : ∀ q, DirAt dir t q → DirAt dir (Function.update t (p ++ [n]) (some v)) q := by
    rintro q (hnil | ⟨d, hd, hdd⟩)
    · exact .inl hnil
    · by_cases heq : q = p ++ [n]
      · subst heq
        exact .inr ⟨v, Function.update_self .., hdir d hd hdd⟩
      · exact .inr ⟨d, by rw [Function.update_of_ne heq, hd], hdd⟩
  constructor
  · rw [Function.update_of_ne (by simp), h.root]
  · intro q m w hw
    by_cases heq : q ++ [m] = p ++ [n]
    · obtain rfl := List.append_inj_left' heq rfl
      exact hkeep q hp
    · rw [Function.update_of_ne heq] at hw
      exact hkeep q (h.parent q m w hw)

/-! ## Filling in what is above a path -/

section
variable [DecidableEq N]

/-- Every path at or above `p` that has no value gets one. -/
def fill (p : List N) (v : V) (t : Tree N V) : Tree N V := fun q =>
  match t q with
  | some w => some w
  | none => if q ≠ [] ∧ q <+: p then some v else none

theorem fill_root (v : V) (t : Tree N V) : fill [] v t = t := by
  funext q
  unfold fill
  cases t q with
  | some w => rfl
  | none => exact if_neg fun h => h.1 (List.prefix_nil.mp h.2)

/-- A path one longer adds its last one, if that is free. -/
theorem fill_concat (p : List N) (n : N) (v : V) (t : Tree N V) (hfree : t (p ++ [n]) = none) :
    fill (p ++ [n]) v t = Function.update (fill p v t) (p ++ [n]) (some v) := by
  funext q
  by_cases heq : q = p ++ [n]
  · subst heq
    rw [Function.update_self]
    unfold fill
    rw [hfree]
    exact if_pos ⟨by simp, List.prefix_refl _⟩
  · rw [Function.update_of_ne heq]
    unfold fill
    cases t q with
    | some w => rfl
    | none =>
      have hiff : q <+: p ++ [n] ↔ q <+: p := by
        rw [prefix_concat_iff]
        exact or_iff_right heq
      simp only [hiff]

/-- What is above a directory of a closed tree is there. -/
theorem Closed.fill_eq {t : Tree N V} (h : Closed dir t) {p : List N} (hp : DirAt dir t p) (v : V) :
    fill p v t = t := by
  funext q
  unfold fill
  cases hq : t q with
  | some w => rfl
  | none =>
    refine if_neg fun hpre => ?_
    have hat : DirAt dir t q := by
      by_cases heq : q = p
      · exact heq ▸ hp
      · rcases hp with rfl | ⟨d, hd, -⟩
        · exact absurd (List.prefix_nil.mp hpre.2) hpre.1
        · exact h.above hd ((below_iff q p).mpr ⟨hpre.2, heq⟩)
    rcases hat with hnil | ⟨d, hd, -⟩
    · exact hpre.1 hnil
    · rw [hq] at hd
      cases hd

end

/-! ## Taking paths out -/

/-- The paths that are kept. -/
def restrict (keep : List N → Bool) (t : Tree N V) : Tree N V := fun q => if keep q then t q else none

theorem Closed.restrict {t : Tree N V} (h : Closed dir t) (keep : List N → Bool)
    (hkeep : ∀ p n, t (p ++ [n]) ≠ none → keep (p ++ [n]) = true → p ≠ [] → keep p = true) :
    Closed dir (restrict keep t) := by
  constructor
  · unfold PathTree.restrict
    split
    · exact h.root
    · rfl
  · intro p n v hv
    unfold PathTree.restrict at hv
    split at hv
    · next hk =>
      rcases h.parent p n v hv with hnil | ⟨d, hd, hdd⟩
      · exact .inl hnil
      · by_cases hne : p = []
        · exact .inl hne
        · refine .inr ⟨d, ?_, hdd⟩
          unfold PathTree.restrict
          rw [if_pos (hkeep p n (by rw [hv]; simp) hk hne), hd]
    · cases hv

/-! ## Moving -/

variable [DecidableEq N]

/-- What is at and below `old` goes to `new`, each value as `f` makes it at its new path. -/
def move (old new : List N) (f : List N → V → V) (t : Tree N V) : Tree N V := fun q =>
  if new <+: q then (t (old ++ q.drop new.length)).map (f q) else if old <+: q then none else t q

/-- **A move keeps a tree closed** when its new place is under a directory and not under the old one. -/
theorem Closed.move {t : Tree N V} (h : Closed dir t) (old new : List N) (n : N) (f : List N → V → V)
    (hf : ∀ q v, dir v → dir (f q v)) (hold : old ≠ []) (hout : ¬ old <+: new ++ [n]) (hp : DirAt dir t new) :
    Closed dir (move old (new ++ [n]) f t) := by
  constructor
  · unfold PathTree.move
    rw [if_neg (by simp)]
    split
    · rfl
    · exact h.root
  · intro p m v hv
    unfold PathTree.move at hv
    by_cases hin : new ++ [n] <+: p ++ [m]
    · rw [if_pos hin] at hv
      rcases (prefix_concat_iff _ p m).mp hin with heq | hin'
      · -- the moved path itself: its parent is where it was
        obtain rfl := List.append_inj_left' heq rfl
        rcases hp with hnil | ⟨d, hd, hdd⟩
        · exact .inl hnil
        · refine .inr ⟨d, ?_, hdd⟩
          unfold PathTree.move
          rw [if_neg, if_neg, hd]
          · exact fun hpre => hout (hpre.trans (List.prefix_append _ _))
          · intro hpre
            have hlen := hpre.length_le
            rw [List.length_append] at hlen
            exact Nat.not_succ_le_self _ hlen
      · have hle := hin'.length_le
        rw [List.drop_append_of_le_length hle, ← List.append_assoc] at hv
        obtain ⟨w, hw, -⟩ := Option.map_eq_some_iff.mp hv
        rcases h.parent _ m w hw with hnil | ⟨d, hd, hdd⟩
        · simp [hold] at hnil
        · refine .inr ⟨f p d, ?_, hf p d hdd⟩
          unfold PathTree.move
          rw [if_pos hin', hd]
          rfl
    · rw [if_neg hin] at hv
      split at hv
      · cases hv
      · next hold' =>
        rcases h.parent p m v hv with hnil | ⟨d, hd, hdd⟩
        · exact .inl hnil
        · refine .inr ⟨d, ?_, hdd⟩
          unfold PathTree.move
          rw [if_neg fun hpre => hin (hpre.trans (List.prefix_append _ _)),
            if_neg fun hpre => hold' (hpre.trans (List.prefix_append _ _)), hd]

end

end PathTree
