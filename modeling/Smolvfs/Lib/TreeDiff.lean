import Smolvfs.Lib.PathTree

/-!
# Comparing two trees of paths

Two trees differ at a path where their values do, and at the top of a difference
where they agree on every path above it.  There the directory above is a directory
of both (`Topmost.both`), and every difference is at or below such a top
(`exists_topmost`).

A comparison goes from the root into the directories that both trees have and tells
the differences it meets.  At some of these directories it may be blind: nothing
below is compared.  `comparison_exact_iff` says when it is exact all the same.
-/

namespace PathTree

variable {N K : Type}

/-- The values of a tree, seen through a function. -/
def image {V : Type} (f : V → K) (t : Tree N V) : Tree N K := fun p => (t p).map f

theorem Closed.image {V : Type} {dir : V → Prop} {dir' : K → Prop} {t : Tree N V} (h : Closed dir t) (f : V → K)
    (hf : ∀ v, dir v → dir' (f v)) : Closed dir' (image f t) where
  root := by
    unfold PathTree.image
    rw [h.root]
    rfl
  parent p n v hv := by
    obtain ⟨w, hw, -⟩ := Option.map_eq_some_iff.mp hv
    rcases h.parent p n w hw with hnil | ⟨d, hd, hdd⟩
    · exact Or.inl hnil
    · exact Or.inr ⟨f d, Option.map_eq_some_iff.mpr ⟨d, hd, rfl⟩, hf d hdd⟩

/-- The trees differ at the path and at none above it. -/
def Topmost (a b : Tree N K) (p : List N) : Prop := a p ≠ b p ∧ ∀ q, Below q p → a q = b q

/-- A directory of both trees, or the root. -/
def Both (dir : K → Prop) (a b : Tree N K) (d : List N) : Prop := d = [] ∨ ∃ v, a d = some v ∧ b d = some v ∧ dir v

/-- A difference that a comparison meets which is blind at some directories. -/
def Seen (a b : Tree N K) (blind : List N → Prop) (p : List N) : Prop :=
  Topmost a b p ∧ ∀ q, Below q p → ¬ blind q

theorem Below.length_lt {p q : List N} (h : Below p q) : p.length < q.length := by
  obtain ⟨n, names, rfl⟩ := h
  simp

/-- **Every difference has a top.** -/
theorem exists_topmost (a b : Tree N K) (p : List N) (h : a p ≠ b p) : ∃ q, q <+: p ∧ Topmost a b q := by
  induction hn : p.length using Nat.strongRecOn generalizing p with
  | ind n ih =>
    by_cases htop : ∀ q, Below q p → a q = b q
    · exact ⟨p, List.prefix_refl _, h, htop⟩
    · push Not at htop
      obtain ⟨q, hq, hne⟩ := htop
      have hlt : q.length < n := hn ▸ hq.length_lt
      obtain ⟨t, ht, htop⟩ := ih q.length hlt q hne rfl
      exact ⟨t, ht.trans hq.starts, htop⟩

section
variable {dir : K → Prop} {a b : Tree N K} (ha : Closed dir a) (hb : Closed dir b)

include ha hb

/-- What is above the top of a difference is a directory of both. -/
theorem Topmost.both {p q : List N} (h : Topmost a b p) (hq : Below q p) : Both dir a b q := by
  have hsame := h.2 q hq
  -- one of the two has the path, and so all above it
  cases hap : a p with
  | some v =>
    rcases ha.above hap hq with hnil | ⟨w, hw, hdw⟩
    · exact Or.inl hnil
    · exact Or.inr ⟨w, hw, hsame ▸ hw, hdw⟩
  | none =>
    cases hbp : b p with
    | none => exact absurd (hap.trans hbp.symm) h.1
    | some v =>
      rcases hb.above hbp hq with hnil | ⟨w, hw, hdw⟩
      · exact Or.inl hnil
      · exact Or.inr ⟨w, hsame.trans hw, hw, hdw⟩

/-- On the way to a directory of both the trees agree, where directories are all one value. -/
theorem Both.agree (hdir : ∀ v w, dir v → dir w → v = w) {d q : List N} (h : Both dir a b d) (hq : q <+: d) :
    a q = b q := by
  have hroot : a [] = b [] := ha.root.trans hb.root.symm
  rcases h with rfl | ⟨v, hav, hbv, -⟩
  · rw [List.prefix_nil.mp hq]
    exact hroot
  · by_cases heq : q = d
    · rw [heq, hav, hbv]
    · have hbelow := (below_iff q d).mpr ⟨hq, heq⟩
      rcases ha.above hav hbelow with hnil | ⟨w, hw, hdw⟩
      · rw [hnil]
        exact hroot
      · rcases hb.above hbv hbelow with hnil | ⟨x, hx, hdx⟩
        · rw [hnil]
          exact hroot
        · rw [hw, hx, hdir w x hdw hdx]

/-- **A comparison is exact** (it tells nothing if and only if the trees are complete and do not differ, and it tells
the top of every difference) exactly when nothing differs below a directory of both at which it is blind, and
trees that do not differ are complete. -/
theorem comparison_exact_iff (hdir : ∀ v w, dir v → dir w → v = w) (blind : List N → Prop) (complete : Prop) :
    (((∀ p, ¬ Seen a b blind p) ↔ complete ∧ a = b) ∧ ∀ p, Topmost a b p → Seen a b blind p) ↔
      (∀ q p, Both dir a b q → blind q → Below q p → a p = b p) ∧ (a = b → complete) := by
  constructor
  · rintro ⟨hok, hall⟩
    constructor
    · intro q p hq hblind hbelow
      by_contra hne
      obtain ⟨t, ht, htop⟩ := exists_topmost a b p hne
      -- the top is below the blind directory, where the two agree
      have hqt : Below q t := by
        rcases List.prefix_or_prefix_of_prefix ht hbelow.starts with htq | hqt
        · exact absurd (hq.agree ha hb hdir htq) htop.1
        · refine (below_iff q t).mpr ⟨hqt, ?_⟩
          rintro rfl
          exact htop.1 (hq.agree ha hb hdir (List.prefix_refl _))
      exact (hall t htop).2 q hqt hblind
    · intro heq
      exact (hok.mp fun p hp => hp.1.1 (congrFun heq p)).1
  · rintro ⟨hsame, hcomplete⟩
    have hall : ∀ p, Topmost a b p → Seen a b blind p := by
      intro p hp
      refine ⟨hp, fun q hq hblind => ?_⟩
      exact hp.1 (hsame q p (hp.both ha hb hq) hblind hq)
    refine ⟨⟨fun hno => ?_, ?_⟩, hall⟩
    · have heq : a = b := by
        funext p
        by_contra hne
        obtain ⟨t, -, htop⟩ := exists_topmost a b p hne
        exact hno t (hall t htop)
      exact ⟨hcomplete heq, heq⟩
    · rintro ⟨-, heq⟩ p hp
      exact hp.1.1 (congrFun heq p)

end

/-! ## Going down -/

section
variable {dir : K → Prop} {a b : Tree N K} {blind : List N → Prop}

/-- The differences below a directory that a comparison sees from there. -/
def SeenBelow (a b : Tree N K) (blind : List N → Prop) (d p : List N) : Prop :=
  Below d p ∧ Topmost a b p ∧ ∀ q, d <+: q → Below q p → ¬ blind q

theorem seenBelow_root (ha : a [] = b []) (p : List N) : SeenBelow a b blind [] p ↔ Seen a b blind p := by
  constructor
  · rintro ⟨-, htop, hb⟩
    exact ⟨htop, fun q => hb q List.nil_prefix⟩
  · rintro ⟨htop, hb⟩
    refine ⟨?_, htop, fun q _ => hb q⟩
    cases p with
    | nil => exact absurd ha htop.1
    | cons n names => exact ⟨n, names, rfl⟩

/-- A difference at the path, or what is told from the path on where it is a directory of both. -/
def AtOrBelow (dir : K → Prop) (a b : Tree N K) (q : List N) (told : List N → Prop) (p : List N) : Prop :=
  (p = q ∧ a p ≠ b p) ∨ (Both dir a b q ∧ told p)

theorem atOrBelow_differ (ha : Closed dir a) (hb : Closed dir b) (hdir : ∀ v w, dir v → dir w → v = w) {q : List N}
    (hne : a q ≠ b q) (told : List N → Prop) (p : List N) : AtOrBelow dir a b q told p ↔ p = q := by
  constructor
  · rintro (⟨rfl, -⟩ | ⟨hboth, -⟩)
    · rfl
    · exact absurd (hboth.agree ha hb hdir (List.prefix_refl _)) hne
  · rintro rfl
    exact Or.inl ⟨rfl, hne⟩

theorem atOrBelow_both (ha : Closed dir a) (hb : Closed dir b) (hdir : ∀ v w, dir v → dir w → v = w) {q : List N}
    (hboth : Both dir a b q) (told : List N → Prop) (p : List N) : AtOrBelow dir a b q told p ↔ told p := by
  constructor
  · rintro (⟨rfl, hne⟩ | ⟨-, hp⟩)
    · exact absurd (hboth.agree ha hb hdir (List.prefix_refl _)) hne
    · exact hp
  · exact fun hp => Or.inr ⟨hboth, hp⟩

theorem not_atOrBelow {q : List N} (heq : a q = b q) (hno : ¬ Both dir a b q) (told : List N → Prop) (p : List N) :
    ¬ AtOrBelow dir a b q told p := by
  rintro (⟨rfl, hne⟩ | ⟨hboth, -⟩)
  · exact hne heq
  · exact hno hboth

/-- A blind directory sees nothing. -/
theorem not_seenBelow {d : List N} (h : blind d) (p : List N) : ¬ SeenBelow a b blind d p := by
  rintro ⟨hbelow, -, hb⟩
  exact hb d (List.prefix_refl _) hbelow h

/-- **One level of a comparison**: what differs right in the directory, and what is seen from its
directories that both have. -/
theorem seenBelow_iff (ha : Closed dir a) (hb : Closed dir b) (hdir : ∀ v w, dir v → dir w → v = w) {d : List N}
    (hd : Both dir a b d) (hblind : ¬ blind d) (p : List N) :
    SeenBelow a b blind d p ↔ ∃ n, AtOrBelow dir a b (d ++ [n]) (SeenBelow a b blind (d ++ [n])) p := by
  constructor
  · rintro ⟨⟨n, names, rfl⟩, htop, hno⟩
    cases names with
    | nil => exact ⟨n, Or.inl ⟨rfl, htop.1⟩⟩
    | cons m names =>
      have hbelow : Below (d ++ [n]) (d ++ n :: m :: names) := ⟨m, names, by simp⟩
      refine ⟨n, Or.inr ⟨htop.both ha hb hbelow, hbelow, htop, fun q hq => hno q ?_⟩⟩
      exact (List.prefix_append d [n]).trans hq
  · rintro ⟨n, ⟨rfl, hne⟩ | ⟨-, hbelow, htop, hno⟩⟩
    · refine ⟨⟨n, [], rfl⟩, ⟨hne, ?_⟩, ?_⟩
      · intro q hq
        exact hd.agree ha hb hdir ((below_concat_iff q d n).mp hq)
      · intro q hdq hq
        have hqd : q <+: d := (below_concat_iff q d n).mp hq
        rw [hqd.eq_of_length_le hdq.length_le]
        exact hblind
    · have hstart : Below d p := by
        obtain ⟨m, names, rfl⟩ := hbelow
        exact ⟨n, m :: names, by simp⟩
      refine ⟨hstart, htop, fun q hdq hq => ?_⟩
      by_cases hnq : d ++ [n] <+: q
      · exact hno q hnq hq
      · -- then it is the directory itself
        have hpre : q <+: d ++ [n] := (List.prefix_or_prefix_of_prefix hq.starts hbelow.starts).resolve_right hnq
        have hne : q ≠ d ++ [n] := fun heq => hnq (heq ▸ List.prefix_refl _)
        have hqd : q <+: d := (below_concat_iff q d n).mp ((below_iff q _).mpr ⟨hpre, hne⟩)
        rw [hqd.eq_of_length_le hdq.length_le]
        exact hblind

end

end PathTree
