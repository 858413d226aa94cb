import Mathlib.Data.List.Nodup

/-!
# Depth-first walks that go into some mentions and not into others

A node mentions others, each to be gone into (`true`) or only named (`false`).
`walk` goes through the mentions depth first and keeps one list of the nodes met:
a node is gone into when its first mention says so, and never afterwards.

`Reach into` are the mentions that come about by going only into nodes that
`into` allows.  `met_walk_iff`: what a walk meets is what is reached without going
into a node whose first mention only named it (`NamedFirst`).
-/

namespace Walk

variable {N : Type}

/-- The nodes of a list of mentions. -/
def met (seen : List (N × Bool)) : List N := seen.map Prod.fst

theorem met_append (a b : List (N × Bool)) : met (a ++ b) = met a ++ met b := List.map_append

theorem mem_met (seen : List (N × Bool)) (n : N) : n ∈ met seen ↔ (n, true) ∈ seen ∨ (n, false) ∈ seen := by
  unfold met
  constructor
  · intro h
    obtain ⟨⟨m, b⟩, hm, rfl⟩ := List.mem_map.mp h
    cases b with
    | false => exact .inr hm
    | true => exact .inl hm
  · rintro (h | h)
    · exact List.mem_map.mpr ⟨_, h, rfl⟩
    · exact List.mem_map.mpr ⟨_, h, rfl⟩

section
variable [DecidableEq N] (kids : N → List (N × Bool))

/-- One mention: nothing when the node has been met; else it is kept, and gone into if it says so. -/
def visit : Nat → List (N × Bool) → N × Bool → List (N × Bool)
  | 0, seen, e => if e.1 ∈ met seen then seen else seen ++ [e]
  | fuel + 1, seen, e =>
    if e.1 ∈ met seen then seen
    else if e.2 then (kids e.1).foldl (visit fuel) (seen ++ [e])
    else seen ++ [e]

/-- The first mention of every node met from the roots. -/
def walk (fuel : Nat) (roots : List N) : List (N × Bool) :=
  (roots.map fun r => (r, true)).foldl (visit kids fuel) []

end

section
variable (kids : N → List (N × Bool))

/-- The mentions reached by going into roots and into mentioned nodes that `into` allows. -/
inductive Reach (into : N → Prop) (roots : List N) : N × Bool → Prop
  | root {r : N} (h : r ∈ roots) : Reach into roots (r, true)
  | kid {n : N} {k : N × Bool} (hn : Reach into roots (n, true)) (hi : into n) (hk : k ∈ kids n) :
    Reach into roots k

/-- The node's first mention in a walk only names it. -/
def NamedFirst (w : List (N × Bool)) (n : N) : Prop := (n, false) ∈ w

theorem Reach.mono {into into' : N → Prop} (h : ∀ n, into n → into' n) {roots : List N} {e : N × Bool}
    (hr : Reach kids into roots e) : Reach kids into' roots e := by
  induction hr with
  | root hr => exact .root hr
  | kid _ hi hk ih => exact .kid ih (h _ hi) hk

end

section
variable [DecidableEq N] (kids : N → List (N × Bool))

/-! ## What a visit keeps -/

/-- **The rule for walks**: what keeping one more node preserves, a visit preserves. -/
theorem visit_rule (Inv : List (N × Bool) → Prop)
    (hadd : ∀ seen e, Inv seen → e.1 ∉ met seen → Inv (seen ++ [e])) (fuel : Nat) (seen : List (N × Bool))
    (e : N × Bool) (h : Inv seen) : Inv (visit kids fuel seen e) := by
  induction fuel generalizing seen e with
  | zero =>
    unfold visit
    split
    · exact h
    · next hn => exact hadd seen e h hn
  | succ fuel ih =>
    unfold visit
    split
    · exact h
    · next hn =>
      split
      · exact List.foldlRecOn _ _ (hadd seen e h hn) fun s hs k _ => ih s k hs
      · exact hadd seen e h hn

theorem visit_extends (fuel : Nat) (seen : List (N × Bool)) (e : N × Bool) : seen ⊆ visit kids fuel seen e := by
  refine visit_rule kids (seen ⊆ ·) ?_ fuel seen e (List.Subset.refl seen)
  intro s k hs _
  exact List.Subset.trans hs (List.subset_append_left s [k])

theorem visits_extend (fuel : Nat) (seen : List (N × Bool)) (es : List (N × Bool)) :
    seen ⊆ es.foldl (visit kids fuel) seen :=
  List.foldlRecOn (motive := (seen ⊆ ·)) es _ (List.Subset.refl seen)
    fun s hs k _ => List.Subset.trans hs (visit_extends kids fuel s k)

theorem visit_nodup (fuel : Nat) (seen : List (N × Bool)) (e : N × Bool) (h : (met seen).Nodup) :
    (met (visit kids fuel seen e)).Nodup := by
  refine visit_rule kids (fun s => (met s).Nodup) ?_ fuel seen e h
  intro s k hs hk
  rw [met_append]
  exact hs.append (List.nodup_singleton _) (by simpa [met] using hk)

theorem visit_length_le (fuel : Nat) (seen : List (N × Bool)) (e : N × Bool) :
    seen.length ≤ (visit kids fuel seen e).length := by
  refine visit_rule kids (fun s => seen.length ≤ s.length) ?_ fuel seen e (Nat.le_refl _)
  intro s k hs _
  rw [List.length_append]
  omega

theorem walk_nodup (fuel : Nat) (roots : List N) : (met (walk kids fuel roots)).Nodup :=
  List.foldlRecOn (motive := fun s => (met s).Nodup) _ _ List.nodup_nil
    fun s hs k _ => visit_nodup kids fuel s k hs

theorem visits_length_le (fuel : Nat) (seen : List (N × Bool)) (es : List (N × Bool)) :
    seen.length ≤ (es.foldl (visit kids fuel) seen).length :=
  List.foldlRecOn (motive := fun s => seen.length ≤ s.length) es _ (Nat.le_refl _)
    fun s hs k _ => Nat.le_trans hs (visit_length_le kids fuel s k)

/-- What was gone into is not named first. -/
theorem walk_true_not_named (fuel : Nat) (roots : List N) (n : N) (h : (n, true) ∈ walk kids fuel roots) :
    ¬ NamedFirst (walk kids fuel roots) n := by
  intro hn
  have := List.inj_on_of_nodup_map (walk_nodup kids fuel roots) h hn rfl
  simp at this

theorem visit_meets (fuel : Nat) (seen : List (N × Bool)) (e : N × Bool) : e.1 ∈ met (visit kids fuel seen e) := by
  have hkept : e.1 ∈ met (seen ++ [e]) := by simp [met]
  cases fuel with
  | zero =>
    unfold visit
    split
    · assumption
    · exact hkept
  | succ fuel =>
    unfold visit
    split
    · assumption
    · split
      · exact List.map_subset _ (visits_extend kids fuel _ _) hkept
      · exact hkept

/-! ## What is met is reached -/

/-- Mentions taken one after another, each of which leaves a part of `w` with the property. -/
theorem visits_sound (w : List (N × Bool)) (P : N × Bool → Prop) (fuel : Nat)
    (hv : ∀ seen e, visit kids fuel seen e ⊆ w → P e → (∀ x ∈ seen, P x) → ∀ x ∈ visit kids fuel seen e, P x)
    (es seen : List (N × Bool)) (hw : es.foldl (visit kids fuel) seen ⊆ w) (he : ∀ e ∈ es, P e)
    (hs : ∀ x ∈ seen, P x) : ∀ x ∈ es.foldl (visit kids fuel) seen, P x := by
  induction es generalizing seen with
  | nil => exact hs
  | cons e es ih =>
    have hfirst : visit kids fuel seen e ⊆ w := List.Subset.trans (visits_extend kids fuel _ es) hw
    exact ih _ hw (fun k hk => he k (by simp [hk])) (hv seen e hfirst (he e (by simp)) hs)

/-- A property of mentions that passes on from a node gone into to all it mentions. -/
theorem visit_sound (w : List (N × Bool)) (P : N × Bool → Prop)
    (hP : ∀ n, (n, true) ∈ w → P (n, true) → ∀ k ∈ kids n, P k) (fuel : Nat) (seen : List (N × Bool))
    (e : N × Bool) (hw : visit kids fuel seen e ⊆ w) (he : P e) (hs : ∀ x ∈ seen, P x) :
    ∀ x ∈ visit kids fuel seen e, P x := by
  have hkept : ∀ (s : List (N × Bool)) (k : N × Bool), (∀ x ∈ s, P x) → P k → ∀ x ∈ s ++ [k], P x := by
    intro s k hs hk x hx
    rcases List.mem_append.mp hx with hx | hx
    · exact hs x hx
    · rw [List.mem_singleton.mp hx]
      exact hk
  induction fuel generalizing seen e with
  | zero =>
    unfold visit
    split
    · exact hs
    · exact hkept seen e hs he
  | succ fuel ih =>
    unfold visit at hw ⊢
    split
    · exact hs
    · next hn =>
      rw [if_neg hn] at hw
      split
      · next hb =>
        rw [if_pos hb] at hw
        obtain ⟨n, b⟩ := e
        obtain rfl : b = true := hb
        have hin : (n, true) ∈ w := hw (visits_extend kids fuel _ _ (by simp))
        exact visits_sound kids w P fuel (fun s k => ih s k) _ _ hw (hP n hin he) (hkept seen _ hs he)
      · exact hkept seen e hs he

/-- A walk whose roots and mentions have the property meets only mentions that have it. -/
theorem walk_sound (P : N × Bool → Prop) (fuel : Nat) (roots : List N)
    (hP : ∀ n, (n, true) ∈ walk kids fuel roots → P (n, true) → ∀ k ∈ kids n, P k)
    (hr : ∀ r ∈ roots, P (r, true)) : ∀ x ∈ walk kids fuel roots, P x := by
  refine visits_sound kids (walk kids fuel roots) P fuel (visit_sound kids _ P hP fuel) _ []
    (List.Subset.refl _) ?_ (by simp)
  intro e he
  obtain ⟨r, hr', rfl⟩ := List.mem_map.mp he
  exact hr r hr'

end

section
variable (kids : N → List (N × Bool))

/-! ## What is reached is met -/

/-- Nodes that only mention one another, at most `bound` of them. -/
structure Bounded (Q : N → Prop) (bound : Nat) : Prop where
  kids : ∀ n, Q n → ∀ k ∈ kids n, Q k.1
  count : ∀ l : List N, l.Nodup → (∀ n ∈ l, Q n) → l.length ≤ bound

/-- What a part of a walk has gone into since `seen`, it has met the mentions of. -/
def GoneInto (seen out : List (N × Bool)) : Prop :=
  ∀ n, (n, true) ∈ out → (n, true) ∈ seen ∨ ∀ k ∈ kids n, k.1 ∈ met out

theorem GoneInto.refl (seen : List (N × Bool)) : GoneInto kids seen seen := fun _ h => .inl h

theorem GoneInto.trans {a b c : List (N × Bool)} (hab : GoneInto kids a b) (hbc : GoneInto kids b c)
    (h : b ⊆ c) : GoneInto kids a c := by
  intro n hn
  rcases hbc n hn with hb | hall
  · rcases hab n hb with ha | hall
    · exact .inl ha
    · exact .inr fun k hk => List.map_subset _ h (hall k hk)
  · exact .inr hall

/-- What is kept while nodes stay within the bound. -/
structure Within (Q : N → Prop) (seen : List (N × Bool)) : Prop where
  nodup : (met seen).Nodup
  nodes : ∀ n ∈ met seen, Q n

theorem Within.add {Q : N → Prop} {seen : List (N × Bool)} (h : Within Q seen) (e : N × Bool) (he : Q e.1)
    (hn : e.1 ∉ met seen) : Within Q (seen ++ [e]) := by
  constructor
  · rw [met_append]
    exact h.nodup.append (List.nodup_singleton _) (by simpa [met] using hn)
  · intro n hm
    rw [met_append, List.mem_append] at hm
    rcases hm with hm | hm
    · exact h.nodes n hm
    · obtain rfl : n = e.1 := by simpa [met] using hm
      exact he

section
variable {Q : N → Prop} {bound : Nat} (hb : Bounded kids Q bound)

include hb in
theorem Within.length_le {seen : List (N × Bool)} (h : Within Q seen) : seen.length ≤ bound := by
  have := hb.count (met seen) h.nodup h.nodes
  simpa [met] using this

variable [DecidableEq N]

/-- Mentions taken one after another, each of which is gone into: all of them are, and all are met. -/
theorem visits_goneInto (fuel least : Nat)
    (hv : ∀ seen e, Within Q seen → Q e.1 → least ≤ seen.length →
      Within Q (visit kids fuel seen e) ∧ GoneInto kids seen (visit kids fuel seen e))
    (es seen : List (N × Bool)) (hw : Within Q seen) (he : ∀ e ∈ es, Q e.1) (hl : least ≤ seen.length) :
    Within Q (es.foldl (visit kids fuel) seen) ∧ GoneInto kids seen (es.foldl (visit kids fuel) seen) ∧
      ∀ e ∈ es, e.1 ∈ met (es.foldl (visit kids fuel) seen) := by
  induction es generalizing seen with
  | nil => exact ⟨hw, GoneInto.refl kids seen, by simp⟩
  | cons e es ih =>
    obtain ⟨h1, h2⟩ := hv seen e hw (he e (by simp)) hl
    have hlen := visit_length_le kids fuel seen e
    obtain ⟨h3, h4, h5⟩ := ih (visit kids fuel seen e) h1 (fun k hk => he k (by simp [hk])) (by omega)
    have hext := visits_extend kids fuel (visit kids fuel seen e) es
    refine ⟨h3, h2.trans kids h4 hext, ?_⟩
    intro k hk
    rcases List.mem_cons.mp hk with rfl | hk
    · exact List.map_subset _ hext (visit_meets kids fuel seen k)
    · exact h5 k hk

include hb

/-- **A visit goes into what it keeps**, when its fuel is what the bound has left. -/
theorem visit_goneInto (fuel : Nat) (seen : List (N × Bool)) (e : N × Bool) (hw : Within Q seen) (he : Q e.1)
    (hf : bound ≤ seen.length + fuel) :
    Within Q (visit kids fuel seen e) ∧ GoneInto kids seen (visit kids fuel seen e) := by
  induction fuel generalizing seen e with
  | zero =>
    unfold visit
    split
    · exact ⟨hw, GoneInto.refl kids seen⟩
    · next hn =>
      -- one more node would be one too many
      have := (hw.add e he hn).length_le kids hb
      simp at this
      omega
  | succ fuel ih =>
    unfold visit
    split
    · exact ⟨hw, GoneInto.refl kids seen⟩
    · next hn =>
      have hadd := hw.add e he hn
      split
      · next hbool =>
        obtain ⟨n, b⟩ := e
        obtain rfl : b = true := hbool
        obtain ⟨h1, h2, h3⟩ := visits_goneInto kids fuel (seen.length + 1)
          (fun s k hs hk hl => ih s k hs hk (by omega)) (kids n) (seen ++ [(n, true)]) hadd (hb.kids n he)
          (by simp)
        refine ⟨h1, ?_⟩
        intro m hm
        rcases h2 m hm with hold | hall
        · rcases List.mem_append.mp hold with hold | hnew
          · exact .inl hold
          · obtain rfl : m = n := by simpa using hnew
            exact .inr h3
        · exact .inr hall
      · next hbool =>
        refine ⟨hadd, ?_⟩
        intro m hm
        rcases List.mem_append.mp hm with hold | hnew
        · exact .inl hold
        · obtain rfl : (m, true) = e := List.mem_singleton.mp hnew
          exact absurd rfl hbool

section
variable (roots : List N) (hr : ∀ r ∈ roots, Q r)
include hr

/-- A walk meets its roots, and all that what it goes into mentions. -/
theorem walk_goneInto : (∀ r ∈ roots, r ∈ met (walk kids bound roots)) ∧
    ∀ n, (n, true) ∈ walk kids bound roots → ∀ k ∈ kids n, k.1 ∈ met (walk kids bound roots) := by
  have hroots : ∀ e ∈ roots.map fun r => (r, true), Q e.1 := by
    intro e he
    obtain ⟨r, hm, rfl⟩ := List.mem_map.mp he
    exact hr r hm
  obtain ⟨-, h2, h3⟩ := visits_goneInto kids bound 0
    (fun s k hs hk _ => visit_goneInto kids hb bound s k hs hk (by omega)) _ []
    ⟨List.nodup_nil, by simp [met]⟩ hroots (Nat.zero_le _)
  constructor
  · intro r hm
    exact h3 (r, true) (List.mem_map.mpr ⟨r, hm, rfl⟩)
  · intro n hn
    rcases h2 n hn with h | h
    · cases h
    · exact h

/-- **What a walk meets** is what is reached without going into a node first mentioned by name only. -/
theorem met_walk_iff (n : N) : n ∈ met (walk kids bound roots) ↔
    ∃ b, Reach kids (fun m => ¬ NamedFirst (walk kids bound roots) m) roots (n, b) := by
  constructor
  · intro h
    have hall := walk_sound kids
      (Reach kids (fun m => ¬ NamedFirst (walk kids bound roots) m) roots) bound roots
      (fun m hm hreach k hk => .kid hreach (walk_true_not_named kids bound roots m hm) hk)
      (fun r hm => .root hm)
    rcases (mem_met _ n).mp h with h | h
    · exact ⟨true, hall _ h⟩
    · exact ⟨false, hall _ h⟩
  · rintro ⟨b, h⟩
    obtain ⟨hroots, hkids⟩ := walk_goneInto kids hb roots hr
    -- a node met and not first named was gone into
    suffices ∀ e, Reach kids (fun m => ¬ NamedFirst (walk kids bound roots) m) roots e →
        e.1 ∈ met (walk kids bound roots) from this _ h
    intro e he
    induction he with
    | root hm => exact hroots _ hm
    | kid _ hi hk ih =>
      rcases (mem_met _ _).mp ih with ht | hf
      · exact hkids _ ht _ hk
      · exact absurd hf hi

end
end
end

end Walk
