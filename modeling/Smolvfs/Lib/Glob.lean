import Mathlib.Data.List.Infix

/-!
# Backtracking matchers

A pattern is a list of pieces: `many` stands for any string, `one` for one
character that it accepts.  `Matches` is what a pattern means.  `run` is the
matcher that takes piece after piece, and for `many` tries what is left of the
text, longest first.  A piece may also accept the end of the text (`atEnd`), which
it should not; the matcher is then past the end, and can only go on without
looking at the text.

* `run_spec`: the matcher says no exactly when the text does not match and no piece is led to
  accept its end (`Leaks`), and yes to every text that matches, whatever its pieces do there;
* `run_exact_iff`: when it is right.
-/

namespace Glob

inductive Piece (α : Type)
  | many
  | one (accepts : α → Bool) (atEnd : Bool)

variable {α : Type}

namespace Piece

def isMany : Piece α → Bool
  | many => true
  | one _ _ => false

end Piece

open Piece

/-! ## Meaning -/

def Matches : List (Piece α) → List α → Prop
  | [], s => s = []
  | many :: ps, s => ∃ t, t <:+ s ∧ Matches ps t
  | one accepts _ :: ps, s => ∃ c t, s = c :: t ∧ accepts c = true ∧ Matches ps t

section
variable {ps rest : List (Piece α)} {s t : List α} {accepts : α → Bool} {atEnd : Bool}

theorem matches_one_cons {c : α} : Matches (one accepts atEnd :: ps) (c :: t) ↔ accepts c = true ∧ Matches ps t := by
  constructor
  · rintro ⟨d, u, heq, h1, h2⟩
    obtain ⟨rfl, rfl⟩ := List.cons.inj heq
    exact ⟨h1, h2⟩
  · rintro ⟨h1, h2⟩
    exact ⟨c, t, rfl, h1, h2⟩

theorem not_matches_one_nil : ¬ Matches (one accepts atEnd :: ps) [] := by
  rintro ⟨c, t, heq, -⟩
  cases heq

theorem matches_all_many (h : ∀ p ∈ ps, p.isMany = true) : ps = [] ∨ ∀ s, Matches ps s := by
  induction ps with
  | nil => exact Or.inl rfl
  | cons p ps ih =>
    right
    intro s
    cases p with
    | one accepts atEnd => exact absurd (h _ List.mem_cons_self) (by simp [isMany])
    | many =>
      rcases ih fun q hq => h q (List.mem_cons_of_mem _ hq) with rfl | hall
      · exact ⟨[], List.nil_suffix, rfl⟩
      · exact ⟨s, List.suffix_refl s, hall s⟩

/-- One `many` after another adds nothing. -/
theorem matches_many_many : Matches (many :: many :: ps) s ↔ Matches (many :: ps) s := by
  constructor
  · rintro ⟨t, ht, u, hu, hm⟩
    exact ⟨u, hu.trans ht, hm⟩
  · rintro ⟨t, ht, hm⟩
    exact ⟨s, List.suffix_refl s, t, ht, hm⟩

/-- What a pattern matches somewhere it matches wherever its first part fits the whole of a longer text: the
rest of that part's `many` takes up the difference. -/
theorem matches_shift (first : List (Piece α)) (h1 : Matches first s)
    (h2 : Matches (first ++ one accepts atEnd :: rest) t) (hts : t <:+ s) :
    Matches (first ++ one accepts atEnd :: rest) s := by
  induction first generalizing s t with
  | nil =>
    obtain rfl : s = [] := h1
    obtain rfl := List.suffix_nil.mp hts
    exact absurd h2 not_matches_one_nil
  | cons p first ih =>
    cases p with
    | many =>
      obtain ⟨u, hu, hm⟩ := h2
      exact ⟨u, hu.trans hts, hm⟩
    | one accepts' atEnd' =>
      obtain ⟨c, u, rfl, hc, hm⟩ := h1
      obtain ⟨d, v, rfl, -, hm'⟩ := h2
      refine ⟨c, u, rfl, hc, ih hm hm' ?_⟩
      rcases List.suffix_cons_iff.mp hts with heq | hs
      · exact (List.cons.inj heq).2 ▸ List.suffix_refl v
      · exact (List.suffix_cons d v).trans hs

end

/-! ## The matcher -/

/-- `attempt` on what is left of the text, as long as something is, until one says other than no. -/
def tryEach {ε : Type} (attempt : List α → Except ε Bool) : List α → Except ε Bool
  | [] => .ok false
  | c :: t =>
    match attempt (c :: t) with
    | .ok false => tryEach attempt t
    | r => r

/-- The matcher past the end of the text: it looks at the text again unless only `many` is left. -/
def runPast : List (Piece α) → Except Unit Bool
  | [] => .error ()
  | ps => if ps.all isMany then .ok true else .error ()

def run : List (Piece α) → List α → Except Unit Bool
  | [], s => .ok s.isEmpty
  | many :: ps, s =>
    if ps.all isMany then .ok true
    else if ps.head?.any isMany then run ps s
    else tryEach (run ps) s
  | one accepts _ :: ps, c :: t => if accepts c then run ps t else .ok false
  | one _ atEnd :: ps, [] => if atEnd then runPast ps else .ok false

/-- A part of the pattern fits the whole text, and the piece after it accepts its end.  After a `many` the
matcher does not look at the end. -/
def Leaks (ps : List (Piece α)) (s : List α) : Prop :=
  ∃ first accepts rest, ps = first ++ one accepts true :: rest ∧ (∀ p ∈ first.getLast?, p.isMany = false) ∧
    Matches first s

theorem runPast_ne_false (ps : List (Piece α)) : runPast ps ≠ .ok false := by
  cases ps with
  | nil => simp [runPast]
  | cons p ps =>
    show (if (p :: ps).all isMany then _ else _) ≠ _
    split
    · simp
    · simp

/-! ## What leaks -/

section
variable {ps rest : List (Piece α)} {s t : List α} {accepts : α → Bool} {atEnd : Bool}

theorem not_leaks_nil : ¬ Leaks [] s := by
  rintro ⟨first, accepts, rest, heq, -⟩
  cases first <;> cases heq

theorem leaks_one_nil : Leaks (one accepts atEnd :: ps) [] ↔ atEnd = true := by
  constructor
  · rintro ⟨first, accepts', rest, heq, -, hm⟩
    cases first with
    | nil =>
      obtain ⟨h, -⟩ := List.cons.inj heq
      exact (Piece.one.inj h).2
    | cons p first =>
      obtain ⟨rfl, -⟩ := List.cons.inj heq
      exact absurd hm not_matches_one_nil
  · rintro rfl
    exact ⟨[], accepts, ps, rfl, by simp, rfl⟩

theorem leaks_one_cons {c : α} : Leaks (one accepts atEnd :: ps) (c :: t) ↔ accepts c = true ∧ Leaks ps t := by
  constructor
  · rintro ⟨first, accepts', rest, heq, hlast, hm⟩
    cases first with
    | nil => cases hm
    | cons p first =>
      obtain ⟨rfl, rfl⟩ := List.cons.inj heq
      obtain ⟨hc, hm⟩ := matches_one_cons.mp hm
      refine ⟨hc, first, accepts', rest, rfl, fun p hp => hlast p ?_, hm⟩
      cases first with
      | nil => cases hp
      | cons q first => exact hp
  · rintro ⟨hc, first, accepts', rest, rfl, hlast, hm⟩
    refine ⟨one accepts atEnd :: first, accepts', rest, rfl, ?_, matches_one_cons.mpr ⟨hc, hm⟩⟩
    intro p hp
    cases first with
    | nil =>
      obtain rfl : one accepts atEnd = p := Option.some.inj hp
      rfl
    | cons q first => exact hlast p hp

/-- Behind a `many` a leak is one of what follows it, on some part of the text. -/
theorem leaks_many : Leaks (many :: ps) s ↔
    ∃ first accepts rest, ps = first ++ one accepts true :: rest ∧ first ≠ [] ∧
      (∀ p ∈ first.getLast?, p.isMany = false) ∧ ∃ t, t <:+ s ∧ Matches first t := by
  constructor
  · rintro ⟨first, accepts, rest, heq, hlast, hm⟩
    cases first with
    | nil => cases heq
    | cons p first =>
      obtain ⟨rfl, rfl⟩ := List.cons.inj heq
      cases first with
      | nil => exact absurd (hlast many rfl) (by simp [isMany])
      | cons q first => exact ⟨q :: first, accepts, rest, rfl, List.cons_ne_nil _ _, hlast, hm⟩
  · rintro ⟨first, accepts, rest, rfl, hne, hlast, hm⟩
    refine ⟨many :: first, accepts, rest, rfl, ?_, hm⟩
    cases first with
    | nil => exact absurd rfl hne
    | cons q first => exact hlast

theorem leaks_many_many : Leaks (many :: many :: ps) s ↔ Leaks (many :: ps) s := by
  rw [leaks_many]
  constructor
  · rintro ⟨first, accepts, rest, heq, hne, hlast, t, ht, hm⟩
    cases first with
    | nil => exact absurd rfl hne
    | cons p first =>
      obtain ⟨rfl, rfl⟩ := List.cons.inj heq
      obtain ⟨u, hu, hm⟩ := hm
      exact ⟨many :: first, accepts, rest, rfl, hlast, u, hu.trans ht, hm⟩
  · rintro ⟨first, accepts, rest, heq, hlast, hm⟩
    refine ⟨first, accepts, rest, heq, ?_, hlast, s, List.suffix_refl s, hm⟩
    rintro rfl
    cases heq

/-- Behind a `many` with a character to come, the text left over is not empty. -/
theorem leaks_many_one : Leaks (many :: one accepts atEnd :: ps) s ↔
    ∃ t, t <:+ s ∧ t ≠ [] ∧ Leaks (one accepts atEnd :: ps) t := by
  rw [leaks_many]
  constructor
  · rintro ⟨first, accepts', rest, heq, hne, hlast, t, ht, hm⟩
    refine ⟨t, ht, ?_, first, accepts', rest, heq, hlast, hm⟩
    rintro rfl
    cases first with
    | nil => exact absurd rfl hne
    | cons p first =>
      obtain ⟨rfl, -⟩ := List.cons.inj heq
      exact not_matches_one_nil hm
  · rintro ⟨t, ht, htne, first, accepts', rest, heq, hlast, hm⟩
    refine ⟨first, accepts', rest, heq, ?_, hlast, t, ht, hm⟩
    rintro rfl
    exact htne hm

end

/-! ## What the matcher says -/

section
variable {ε : Type} (attempt : List α → Except ε Bool)

theorem tryEach_false (s : List α) :
    tryEach attempt s = .ok false ↔ ∀ t, t <:+ s → t ≠ [] → attempt t = .ok false := by
  induction s with
  | nil =>
    refine iff_of_true rfl ?_
    intro t ht hne
    exact absurd (List.suffix_nil.mp ht) hne
  | cons c s ih =>
    unfold tryEach
    constructor
    · intro h t ht hne
      split at h
      · next hfirst =>
        rcases List.suffix_cons_iff.mp ht with rfl | hs
        · exact hfirst
        · exact ih.mp h t hs hne
      · next hfirst => exact absurd h hfirst
    · intro h
      rw [h _ (List.suffix_refl _) (List.cons_ne_nil _ _)]
      exact ih.mpr fun t ht hne => h t (ht.trans (List.suffix_cons c s)) hne

/-- Otherwise the answer is that of the longest part of the text that does not get a no. -/
theorem tryEach_first (s : List α) (h : tryEach attempt s ≠ .ok false) :
    ∃ t, t <:+ s ∧ t ≠ [] ∧ tryEach attempt s = attempt t ∧ attempt t ≠ .ok false ∧
      ∀ u, u <:+ s → u ≠ [] → attempt u ≠ .ok false → u <:+ t := by
  induction s with
  | nil => exact absurd rfl h
  | cons c s ih =>
    unfold tryEach at h ⊢
    split at h
    · next hfirst =>
      obtain ⟨t, h1, h2, h3, h4, h5⟩ := ih h
      refine ⟨t, h1.trans (List.suffix_cons c s), h2, h3, h4, ?_⟩
      intro u hu hne hno
      rcases List.suffix_cons_iff.mp hu with rfl | hs
      · exact absurd hfirst hno
      · exact h5 u hs hne hno
    · next hfirst =>
      exact ⟨c :: s, List.suffix_refl _, List.cons_ne_nil _ _, rfl, hfirst, fun u hu _ _ => hu⟩

end

/-- **What the matcher says**, by induction on the pattern. -/
theorem run_spec (ps : List (Piece α)) : ∀ s, (run ps s = .ok false ↔ ¬ Matches ps s ∧ ¬ Leaks ps s) ∧
    (Matches ps s → run ps s = .ok true) := by
  induction ps with
  | nil =>
    intro s
    cases s with
    | nil => exact ⟨⟨fun h => by simp [run] at h, fun h => absurd rfl h.1⟩, fun _ => rfl⟩
    | cons c t =>
      refine ⟨iff_of_true rfl ⟨fun h => ?_, not_leaks_nil⟩, fun h => ?_⟩
      · cases h
      · cases h
  | cons p ps ih =>
    intro s
    cases p with
    | one accepts atEnd =>
      cases s with
      | nil =>
        rw [leaks_one_nil]
        refine ⟨?_, fun h => absurd h not_matches_one_nil⟩
        rw [run]
        cases atEnd with
        | false => simp [not_matches_one_nil]
        | true => simp [runPast_ne_false]
      | cons c t =>
        rw [matches_one_cons, leaks_one_cons, run]
        by_cases hc : accepts c = true
        · rw [if_pos hc]
          simpa [hc] using ih t
        · rw [if_neg hc]
          simp [hc]
    | many =>
      rw [run]
      by_cases hall : ps.all isMany = true
      · -- a trailing `many` matches all
        have hps : ∀ p ∈ ps, p.isMany = true := by simpa using hall
        have hm : Matches (many :: ps) s := by
          rcases matches_all_many hps with rfl | h
          · exact ⟨[], List.nil_suffix, rfl⟩
          · exact ⟨s, List.suffix_refl s, h s⟩
        rw [if_pos hall]
        exact ⟨by simp [hm], fun _ => rfl⟩
      · rw [if_neg hall]
        cases ps with
        | nil => exact absurd rfl hall
        | cons q ps =>
          cases q with
          | many =>
            rw [if_pos (by rfl), matches_many_many, leaks_many_many]
            exact ih s
          | one accepts atEnd =>
            rw [if_neg (by simp [isMany]), leaks_many_one]
            have hm : Matches (many :: one accepts atEnd :: ps) s ↔
                ∃ t, t <:+ s ∧ t ≠ [] ∧ Matches (one accepts atEnd :: ps) t := by
              constructor
              · rintro ⟨t, ht, hm⟩
                refine ⟨t, ht, ?_, hm⟩
                rintro rfl
                exact not_matches_one_nil hm
              · rintro ⟨t, ht, -, hm⟩
                exact ⟨t, ht, hm⟩
            have hfalse : tryEach (run (one accepts atEnd :: ps)) s = .ok false ↔
                (¬ ∃ t, t <:+ s ∧ t ≠ [] ∧ Matches (one accepts atEnd :: ps) t) ∧
                  ¬ ∃ t, t <:+ s ∧ t ≠ [] ∧ Leaks (one accepts atEnd :: ps) t := by
              rw [tryEach_false]
              constructor
              · intro h
                refine ⟨?_, ?_⟩
                · rintro ⟨t, ht, hne, hmt⟩
                  exact ((ih t).1.mp (h t ht hne)).1 hmt
                · rintro ⟨t, ht, hne, hlt⟩
                  exact ((ih t).1.mp (h t ht hne)).2 hlt
              · rintro ⟨h1, h2⟩ t ht hne
                exact (ih t).1.mpr ⟨fun hmt => h1 ⟨t, ht, hne, hmt⟩, fun hlt => h2 ⟨t, ht, hne, hlt⟩⟩
            rw [hm]
            refine ⟨hfalse, ?_⟩
            rintro ⟨u, hu, hune, hmu⟩
            have hsome : tryEach (run (one accepts atEnd :: ps)) s ≠ .ok false :=
              fun h => (hfalse.mp h).1 ⟨u, hu, hune, hmu⟩
            obtain ⟨t, ht, hne, heq, hno, hmax⟩ := tryEach_first _ s hsome
            rw [heq]
            apply (ih t).2
            -- what comes first of the attempts that are not refused matches, or leaks and matches all the same
            by_contra hnm
            have hleak : Leaks (one accepts atEnd :: ps) t := by
              by_contra hnl
              exact hno ((ih t).1.mpr ⟨hnm, hnl⟩)
            obtain ⟨first, accepts', rest, hps, -, hfirst⟩ := hleak
            have hut := hmax u hu hune (by rw [(ih u).2 hmu]; simp)
            rw [hps] at hmu hnm
            exact hnm (matches_shift first hfirst hmu hut)

/-- **When the matcher is right**: the text matches, or no piece is led to accept its end. -/
theorem run_exact_iff (ps : List (Piece α)) (s : List α) :
    (∃ b, run ps s = .ok b ∧ (b = true ↔ Matches ps s)) ↔ Matches ps s ∨ ¬ Leaks ps s := by
  obtain ⟨h1, h2⟩ := run_spec ps s
  constructor
  · rintro ⟨b, hb, hiff⟩
    cases b with
    | true => exact Or.inl (hiff.mp rfl)
    | false => exact Or.inr (h1.mp hb).2
  · intro h
    by_cases hm : Matches ps s
    · exact ⟨true, h2 hm, iff_of_true rfl hm⟩
    · exact ⟨false, h1.mpr ⟨hm, h.resolve_left hm⟩, iff_of_false (by simp) hm⟩

end Glob
