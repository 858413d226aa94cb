import Smolvfs.Basic
import Smolvfs.Lib.Glob

/-!
# Matching names

`vfs_fnmatch` on the memory of its two strings, NUL included: a pointer is what is
left of that memory, and a read where nothing is left is one past the NUL.

* `fnmatch_run`: the function is the backtracking matcher on the pieces of the pattern
  (`globPieces`), where a negated class also accepts the NUL of a name;
* `fnmatch_exact_iff`: it stays in its strings and is right exactly when the name matches
  or no negated class is reached at the end of the name;
  `fnmatch_negated_at_end` asks whether `[!a]` matches the empty name.
-/

namespace Smolvfs

open Octets Glob

/-! ## The function -/

/-- A read past the NUL of a string; the loop running on, which does not happen. -/
inductive FnmatchError
  | overrun | fuel
  deriving DecidableEq

/-- `tolower` -/
def toLower (c : UInt8) : UInt8 := if 65 ≤ c.toNat ∧ c.toNat ≤ 90 then c + 32 else c

/-- An octet as the `char` it is compared as. -/
def charVal (c : UInt8) : Int := if c.toNat < 128 then c.toNat else (c.toNat : Int) - 256

def liftOverrun {α : Type} : Except Unit α → Except FnmatchError α
  | .ok a => .ok a
  | .error _ => .error .overrun

/-- `for (const char *t = name; *t; t++)` -/
def starLoop (attempt : Bytes → Except FnmatchError Bool) : Bytes → Except FnmatchError Bool
  | [] => .error .overrun
  | n :: rest =>
    if n = 0 then .ok false
    else
      match attempt (n :: rest) with
      | .ok false => starLoop attempt rest
      | r => r

/-- `while (*pat && *pat != ']')` for the octet `c`: where it ends, and `matched`. -/
def classLoop (c : UInt8) : Bytes → Bool → Except FnmatchError (Bytes × Bool)
  | [], _ => .error .overrun
  | [p], matched => if p = 0 ∨ p = 93 then .ok ([p], matched) else .error .overrun
  | [p, d], matched =>
    if p = 0 ∨ p = 93 then .ok ([p, d], matched)
    else if d = 45 then .error .overrun
    else classLoop c [d] (matched || c == toLower p)
  | p :: d :: h :: rest, matched =>
    if p = 0 ∨ p = 93 then .ok (p :: d :: h :: rest, matched)
    else if d = 45 ∧ h ≠ 0 ∧ h ≠ 93 then
      classLoop c rest
        (matched || (decide (charVal (toLower p) ≤ charVal c) && decide (charVal c ≤ charVal (toLower h))))
    else classLoop c (d :: h :: rest) (matched || c == toLower p)

/-- The class behind a `[`: where the pattern goes on, and whether the octet is in the class. -/
def classMatch (c : UInt8) (pat : Bytes) : Except FnmatchError (Bytes × Bool) :=
  match pat with
  | [] => .error .overrun
  | q :: rest =>
    let negate := decide (q = 33 ∨ q = 94)
    match classLoop c (if negate then rest else q :: rest) false with
    | .error e => .error e
    | .ok (pat, matched) => .ok (if pat.head? = some 93 then pat.tail else pat, matched != negate)

/-- The loop of `vfs_fnmatch`, and the calls it makes of itself. -/
def fnmatch : Nat → Bytes → Bytes → Except FnmatchError Bool
  | 0, _, _ => .error .fuel
  | _ + 1, [], _ => .error .overrun
  | fuel + 1, p :: rest, name =>
    if p = 0 then
      match name with
      | [] => .error .overrun
      | n :: _ => .ok (n == 0)
    else if p = 42 then
      match rest.dropWhile (· == 42) with
      | [] => .error .overrun
      | q :: pat => if q = 0 then .ok true else starLoop (fnmatch fuel (q :: pat)) name
    else
      match name with
      | [] => .error .overrun
      | n :: name =>
        if p = 63 then
          if n = 0 ∨ n = 47 then .ok false else fnmatch fuel rest name
        else if p = 91 then
          match classMatch (toLower n) rest with
          | .error e => .error e
          | .ok (pat, matched) => if matched then fnmatch fuel pat name else .ok false
        else if toLower p ≠ toLower n then .ok false
        else fnmatch fuel rest name

/-- `vfs_fnmatch` -/
def vfsFnmatch (pat name : CStr) : Except FnmatchError Bool :=
  fnmatch (pat.bytes.length + 1) (pat.bytes ++ [0]) (name.bytes ++ [0])

/-! ## What a pattern says -/

/-- A member of a class: a character, or the characters from one to another. -/
inductive ClassMember
  | char (c : UInt8)
  | range (lo hi : UInt8)

/-- The member has the character, in either case. -/
def ClassMember.holds (n : UInt8) : ClassMember → Bool
  | .char c => toLower c == toLower n
  | .range lo hi => decide ((toLower lo).toNat ≤ (toLower n).toNat) && decide ((toLower n).toNat ≤ (toLower hi).toNat)

inductive GlobPiece
  /-- `*` -/
  | any
  /-- `?` -/
  | single
  /-- `[...]` -/
  | cls (negated : Bool) (members : List ClassMember)
  | lit (c : UInt8)

/-- The character is one the piece stands for. -/
def GlobPiece.accepts : GlobPiece → UInt8 → Bool
  | .any, _ => true
  | .single, n => n != 47
  | .cls negated members, n => (members.any fun m => m.holds n) != negated
  | .lit c, n => toLower c == toLower n

/-- The members of a class, from what is between its brackets. -/
def classMembers : Bytes → List ClassMember
  | [] => []
  | [c] => [.char c]
  | [c, d] => [.char c, .char d]
  | c :: d :: h :: rest =>
    if d = 45 then .range c h :: classMembers rest else .char c :: classMembers (d :: h :: rest)

/-- A class is negated by its first character. -/
def classNegated (body : Bytes) : Bool := body.head? == some 33 || body.head? == some 94

def classBody (body : Bytes) : Bytes := if classNegated body then body.tail else body

/-- The pieces of a pattern; a class ends with the first `]` or with the pattern. -/
def globPieces : Bytes → List GlobPiece
  | [] => []
  | p :: rest =>
    if p = 42 then .any :: globPieces rest
    else if p = 63 then .single :: globPieces rest
    else if p = 91 then
      .cls (classNegated rest) (classMembers ((classBody rest).takeWhile (· != 93))) ::
        globPieces ((classBody rest).dropWhile (· != 93)).tail
    else .lit p :: globPieces rest
termination_by pat => pat.length
decreasing_by
  · simp
  · simp
  · have h1 : ((classBody rest).dropWhile (· != 93)).length ≤ (classBody rest).length :=
      (List.dropWhile_sublist _).length_le
    have h2 : (classBody rest).length ≤ rest.length := by
      unfold classBody
      split
      · rw [List.length_tail]
        omega
      · exact Nat.le_refl _
    rw [List.length_tail, List.length_cons]
    omega
  · simp

/-- A piece as the matcher takes it: a negated class accepts the NUL. -/
def GlobPiece.piece : GlobPiece → Piece UInt8
  | .any => .many
  | .cls negated members => .one (GlobPiece.cls negated members).accepts negated
  | g => .one g.accepts false

/-- **The whole name matches the pattern.** -/
def GlobMatches (pat name : Bytes) : Prop := Matches ((globPieces pat).map GlobPiece.piece) name

/-! ## Characters -/

/-- Octets of an ASCII string, without its NUL. -/
def Plain (s : Bytes) : Prop := ∀ c ∈ s, 0 < c.toNat ∧ c.toNat < 128

theorem toNat_toLower (c : UInt8) :
    (toLower c).toNat = if 65 ≤ c.toNat ∧ c.toNat ≤ 90 then c.toNat + 32 else c.toNat := by
  have h32 : (32 : UInt8).toNat = 32 := rfl
  unfold toLower
  split
  · rw [UInt8.toNat_add]
    omega
  · rfl

theorem plain_toLower {c : UInt8} (h : 0 < c.toNat ∧ c.toNat < 128) :
    0 < (toLower c).toNat ∧ (toLower c).toNat < 128 := by
  rw [toNat_toLower]
  split
  · omega
  · exact h

theorem charVal_plain {c : UInt8} (h : c.toNat < 128) : charVal c = c.toNat := if_pos h

theorem plain_ne_zero {c : UInt8} (h : 0 < c.toNat ∧ c.toNat < 128) : c ≠ 0 := by
  rintro rfl
  exact absurd h.1 (by decide)

/-! ## Classes -/

/-- The member as the loop tests it, for an octet in lower case. -/
def ClassMember.hit (c : UInt8) : ClassMember → Bool
  | .char d => c == toLower d
  | .range lo hi => decide (charVal (toLower lo) ≤ charVal c) && decide (charVal c ≤ charVal (toLower hi))

/-- The member is of ASCII characters. -/
def ClassMember.Plain : ClassMember → Prop
  | .char c => 0 < c.toNat ∧ c.toNat < 128
  | .range lo hi => (0 < lo.toNat ∧ lo.toNat < 128) ∧ 0 < hi.toNat ∧ hi.toNat < 128

theorem hit_eq_holds (m : ClassMember) (hm : m.Plain) (n : UInt8) (hn : 0 < n.toNat ∧ n.toNat < 128) :
    m.hit (toLower n) = m.holds n := by
  have hn' := plain_toLower hn
  cases m with
  | char c => exact Bool.beq_comm
  | range lo hi =>
    have hlo := plain_toLower hm.1
    have hhi := plain_toLower hm.2
    unfold ClassMember.hit ClassMember.holds
    simp only [charVal_plain hn'.2, charVal_plain hlo.2, charVal_plain hhi.2, Nat.cast_le]

/-- No member has the NUL. -/
theorem hit_zero (m : ClassMember) (hm : m.Plain) : m.hit 0 = false := by
  cases m with
  | char c =>
    have hc := plain_ne_zero (plain_toLower hm)
    simpa [ClassMember.hit] using hc.symm
  | range lo hi =>
    have hlo := plain_toLower hm.1
    have h0 : charVal 0 = 0 := rfl
    simp only [ClassMember.hit, Bool.and_eq_false_iff, decide_eq_false_iff_not, charVal_plain hlo.2, h0]
    left
    omega

theorem classMembers_plain (l : Bytes) (h : Plain l) : ∀ m ∈ classMembers l, m.Plain := by
  fun_induction classMembers l with
  | case1 => simp
  | case2 c => simpa [ClassMember.Plain] using h c (by simp)
  | case3 c d =>
    intro m hm
    rcases List.mem_cons.mp hm with rfl | hm
    · exact h c (by simp)
    · obtain rfl := List.mem_singleton.mp hm
      exact h d (by simp)
  | case4 c h' rest ih =>
    intro m hm
    rcases List.mem_cons.mp hm with rfl | hm
    · exact ⟨h c (by simp), h h' (by simp)⟩
    · exact ih (fun x hx => h x (by simp [hx])) m hm
  | case5 c d h' rest _ ih =>
    intro m hm
    rcases List.mem_cons.mp hm with rfl | hm
    · exact h c (by simp)
    · exact ih (fun x hx => h x (List.mem_cons_of_mem _ hx)) m hm

/-- A character that begins no range is a member. -/
theorem classMembers_char (c : UInt8) (l : Bytes) (h : l.head? = some 45 → l.length ≤ 1) :
    classMembers (c :: l) = .char c :: classMembers l := by
  match l with
  | [] => rfl
  | [d] => rfl
  | d :: e :: rest =>
    rw [classMembers, if_neg]
    rintro rfl
    have := h rfl
    simp at this

/-- **The loop over a class** ends at its `]` or at the NUL, and has tried the members. -/
theorem classLoop_spec (c : UInt8) (body : Bytes) (h0 : 0 ∉ body) (matched : Bool) :
    classLoop c (body ++ [0]) matched = .ok (body.dropWhile (· != 93) ++ [0],
      matched || (classMembers (body.takeWhile (· != 93))).any (ClassMember.hit c)) := by
  induction hn : body.length using Nat.strong_induction_on generalizing body matched with
  | _ n ih =>
    subst hn
    have hstop : ∀ l : Bytes, (93 :: l).dropWhile (· != 93) = 93 :: l ∧ (93 :: l).takeWhile (· != 93) = [] :=
      fun l => ⟨rfl, rfl⟩
    have hgo : ∀ (d : UInt8) (l : Bytes), d ≠ 93 → (d :: l).dropWhile (· != 93) = l.dropWhile (· != 93) ∧
        (d :: l).takeWhile (· != 93) = d :: l.takeWhile (· != 93) := by
      intro d l hd
      exact ⟨List.dropWhile_cons_of_pos (by simpa using hd), List.takeWhile_cons_of_pos (by simpa using hd)⟩
    match body with
    | [] => simp [classLoop, classMembers]
    | p :: rest =>
      have hp0 : p ≠ 0 := fun h => h0 (by simp [h])
      have hrest : 0 ∉ rest := fun h => h0 (List.mem_cons_of_mem _ h)
      by_cases hp : p = 93
      · subst hp
        rw [(hstop rest).1, (hstop rest).2]
        match rest with
        | [] => simp [classLoop, classMembers]
        | [d] => simp [classLoop, classMembers]
        | d :: h :: rest => simp [classLoop, classMembers]
      · rw [(hgo p rest hp).1, (hgo p rest hp).2]
        match rest with
        | [] => simp [classLoop, classMembers, hp0, hp, ClassMember.hit]
        | [d] =>
          have hih := ih 1 (by simp) [d] hrest (matched || c == toLower p) rfl
          have hmem : classMembers (p :: [d].takeWhile (· != 93)) =
              .char p :: classMembers ([d].takeWhile (· != 93)) :=
            classMembers_char p _ fun _ => (List.takeWhile_sublist _).length_le
          show classLoop c [p, d, 0] matched = _
          rw [classLoop, if_neg (by simp [hp0, hp]), if_neg (by simp), hmem, List.any_cons, ← Bool.or_assoc]
          exact hih
        | d :: h :: rest =>
          have hh0 : h ≠ 0 := fun he => hrest (by simp [he])
          show classLoop c (p :: d :: h :: (rest ++ [0])) matched = _
          rw [classLoop, if_neg (by simp [hp0, hp])]
          by_cases hrange : d = 45 ∧ h ≠ 93
          · obtain ⟨rfl, hh⟩ := hrange
            have hih := ih rest.length (by simp only [List.length_cons]; omega) rest (fun hm => hrest (by simp [hm]))
              (matched || ClassMember.hit c (.range p h)) rfl
            rw [if_pos ⟨rfl, hh0, hh⟩, (hgo 45 _ (by decide)).1, (hgo 45 _ (by decide)).2, (hgo h _ hh).1,
              (hgo h _ hh).2, classMembers, if_pos rfl, List.any_cons, ← Bool.or_assoc]
            exact hih
          · have hih := ih (rest.length + 2) (by simp) (d :: h :: rest) hrest (matched || c == toLower p) rfl
            have hmem : classMembers (p :: (d :: h :: rest).takeWhile (· != 93)) =
                .char p :: classMembers ((d :: h :: rest).takeWhile (· != 93)) := by
              apply classMembers_char
              by_cases hd : d = 93
              · subst hd
                intro hhead
                cases hhead
              · rw [(hgo d _ hd).2]
                intro hhead
                obtain rfl := Option.some.inj hhead
                obtain rfl : h = 93 := by
                  by_contra hne
                  exact hrange ⟨rfl, hne⟩
                rw [(hstop rest).2]
                exact Nat.le_refl _
            rw [if_neg (fun h' => hrange ⟨h'.1, h'.2.2⟩), hmem, List.any_cons, ← Bool.or_assoc]
            exact hih

/-- **A class** of the pattern: what follows it, and whether the octet is let through. -/
theorem classMatch_spec (c : UInt8) (rest : Bytes) (h0 : 0 ∉ rest) :
    classMatch c (rest ++ [0]) = .ok (((classBody rest).dropWhile (· != 93)).tail ++ [0],
      (classMembers ((classBody rest).takeWhile (· != 93))).any (ClassMember.hit c) != classNegated rest) := by
  have hbody : 0 ∉ classBody rest := by
    unfold classBody
    split
    · exact fun h => h0 (List.mem_of_mem_tail h)
    · exact h0
  have hloop := classLoop_spec c (classBody rest) hbody false
  have hend : ∀ l : Bytes, (if (l.dropWhile (· != 93) ++ [0]).head? = some 93 then (l.dropWhile (· != 93) ++ [0]).tail
      else l.dropWhile (· != 93) ++ [0]) = (l.dropWhile (· != 93)).tail ++ [0] := by
    intro l
    cases hl : l.dropWhile (· != 93) with
    | nil => rfl
    | cons d l' =>
      have hd : (d != 93) = false := by
        have hne : l.dropWhile (· != 93) ≠ [] := by
          rw [hl]
          exact List.cons_ne_nil _ _
        have := List.head_dropWhile_not (· != 93) hne
        simpa only [hl, List.head_cons] using this
      rw [if_pos (by simpa using hd)]
      rfl
  match rest with
  | [] => rfl
  | q :: rest =>
    have hneg : classNegated (q :: rest) = decide (q = 33 ∨ q = 94) := by
      unfold classNegated
      rw [Bool.eq_iff_iff]
      simp
    have hpat : (if decide (q = 33 ∨ q = 94) = true then rest ++ [0] else q :: (rest ++ [0])) =
        classBody (q :: rest) ++ [0] := by
      unfold classBody
      rw [hneg]
      split
      · rfl
      · rfl
    show classMatch c (q :: (rest ++ [0])) = _
    unfold classMatch
    dsimp only
    rw [hpat, hloop]
    dsimp only
    rw [hend, Bool.false_or, hneg]

/-! ## Pieces -/

theorem dropWhile_stars (rest : Bytes) (h0 : 0 ∉ rest) :
    (rest ++ [0]).dropWhile (· == 42) = rest.dropWhile (· == 42) ++ [0] := by
  induction rest with
  | nil => rfl
  | cons p rest ih =>
    by_cases hp : p = 42
    · subst hp
      rw [List.cons_append, List.dropWhile_cons_of_pos (by rfl), List.dropWhile_cons_of_pos (by rfl)]
      exact ih fun h => h0 (List.mem_cons_of_mem _ h)
    · rw [List.cons_append, List.dropWhile_cons_of_neg (by simpa using hp),
        List.dropWhile_cons_of_neg (by simpa using hp)]
      rfl

/-- The pieces of a pattern, as the matcher takes them. -/
def pieces (pat : Bytes) : List (Piece UInt8) := (globPieces pat).map GlobPiece.piece

theorem pieces_star (rest : Bytes) : pieces (42 :: rest) = .many :: pieces rest := by
  unfold pieces
  rw [globPieces, if_pos rfl]
  rfl

theorem pieces_single (rest : Bytes) : pieces (63 :: rest) = .one (fun n => n != 47) false :: pieces rest := by
  unfold pieces
  rw [globPieces, if_neg (by decide), if_pos rfl]
  rfl

theorem pieces_class (rest : Bytes) :
    pieces (91 :: rest) = .one (fun n => ((classMembers ((classBody rest).takeWhile (· != 93))).any fun m => m.holds n)
      != classNegated rest) (classNegated rest) :: pieces ((classBody rest).dropWhile (· != 93)).tail := by
  unfold pieces
  rw [globPieces, if_neg (by decide), if_neg (by decide), if_pos rfl]
  rfl

theorem pieces_lit (p : UInt8) (rest : Bytes) (h1 : p ≠ 42) (h2 : p ≠ 63) (h3 : p ≠ 91) :
    pieces (p :: rest) = .one (fun n => toLower p == toLower n) false :: pieces rest := by
  unfold pieces
  rw [globPieces, if_neg h1, if_neg h2, if_neg h3]
  rfl

/-- A pattern that does not start with a star starts with a character. -/
theorem pieces_head (p : UInt8) (rest : Bytes) (h : p ≠ 42) :
    ∃ accepts atEnd ps, pieces (p :: rest) = .one accepts atEnd :: ps := by
  by_cases h2 : p = 63
  · subst h2
    exact ⟨_, _, _, pieces_single rest⟩
  · by_cases h3 : p = 91
    · subst h3
      exact ⟨_, _, _, pieces_class rest⟩
    · exact ⟨_, _, _, pieces_lit p rest h h2 h3⟩

/-- Stars and nothing else. -/
theorem stars_all (rest : Bytes) (h : rest.dropWhile (· == 42) = []) : (pieces rest).all Piece.isMany = true := by
  induction rest with
  | nil =>
    unfold pieces
    rw [globPieces]
    rfl
  | cons p rest ih =>
    by_cases hp : p = 42
    · subst hp
      rw [pieces_star, List.all_cons]
      exact ih h
    · rw [List.dropWhile_cons_of_neg (by simpa using hp)] at h
      cases h

/-- Stars and then something else: the matcher goes on with that. -/
theorem stars_run (rest : Bytes) (q : UInt8) (r : Bytes) (h : rest.dropWhile (· == 42) = q :: r) :
    (pieces rest).all Piece.isMany = false ∧ ∀ s, run (.many :: pieces rest) s = tryEach (run (pieces (q :: r))) s := by
  induction rest with
  | nil => cases h
  | cons p rest ih =>
    by_cases hp : p = 42
    · subst hp
      obtain ⟨h1, h2⟩ := ih h
      rw [pieces_star]
      refine ⟨by rw [List.all_cons, h1, Bool.and_false], fun s => ?_⟩
      rw [run, if_neg (by rw [List.all_cons, h1]; simp), if_pos (by rfl)]
      exact h2 s
    · rw [List.dropWhile_cons_of_neg (by simpa using hp)] at h
      obtain ⟨rfl, rfl⟩ := List.cons.inj h
      obtain ⟨accepts, atEnd, ps, hps⟩ := pieces_head p rest hp
      rw [hps]
      have hall : (Piece.one accepts atEnd :: ps).all Piece.isMany = false := rfl
      refine ⟨hall, fun s => ?_⟩
      rw [run, if_neg (by rw [hall]; simp), if_neg (by simp [Piece.isMany])]

/-! ## The function is the matcher -/

theorem starLoop_tryEach (attempt : Bytes → Except FnmatchError Bool) (attempt' : Bytes → Except Unit Bool)
    (name : Bytes) (hn : Plain name) (h : ∀ t, Plain t → attempt (t ++ [0]) = liftOverrun (attempt' t)) :
    starLoop attempt (name ++ [0]) = liftOverrun (tryEach attempt' name) := by
  induction name with
  | nil => rfl
  | cons n name ih =>
    have hn0 := plain_ne_zero (hn n (by simp))
    have hrest : Plain name := fun c hc => hn c (List.mem_cons_of_mem _ hc)
    have hfirst : attempt (n :: (name ++ [0])) = _ := h (n :: name) hn
    rw [List.cons_append, starLoop, if_neg hn0, hfirst]
    unfold tryEach
    rcases attempt' (n :: name) with _ | _ | _
    · rfl
    · exact ih hrest
    · rfl

theorem fnmatch_star (fuel : Nat) (rest name : Bytes) : fnmatch (fuel + 1) (42 :: rest) name =
    match rest.dropWhile (· == 42) with
    | [] => .error .overrun
    | q :: pat => if q = 0 then .ok true else starLoop (fnmatch fuel (q :: pat)) name := by
  cases name with
  | nil => rfl
  | cons n name => rfl

/-- **The function is the matcher** on the pieces of the pattern, in the name and past its NUL. -/
theorem fnmatch_run (fuel : Nat) (pat : Bytes) (hp : Plain pat) (hf : pat.length < fuel) :
    (∀ name, Plain name → fnmatch fuel (pat ++ [0]) (name ++ [0]) = liftOverrun (run (pieces pat) name)) ∧
      fnmatch fuel (pat ++ [0]) [] = liftOverrun (runPast (pieces pat)) := by
  induction fuel generalizing pat with
  | zero => omega
  | succ fuel ih =>
    match pat with
    | [] =>
      have hnil : pieces [] = [] := by
        unfold pieces
        rw [globPieces]
        rfl
      rw [hnil]
      refine ⟨fun name hn => ?_, rfl⟩
      cases name with
      | nil => rfl
      | cons n name =>
        have hn0 := plain_ne_zero (hn n (by simp))
        show Except.ok (n == 0) = Except.ok false
        rw [show (n == 0) = false by simpa using hn0]
    | p :: rest =>
      have hp0 := plain_ne_zero (hp p (by simp))
      have hrest : Plain rest := fun c hc => hp c (List.mem_cons_of_mem _ hc)
      have hrest0 : 0 ∉ rest := fun h => plain_ne_zero (hrest 0 h) rfl
      have hlen : rest.length < fuel := by
        rw [List.length_cons] at hf
        omega
      -- what follows the piece in the pattern
      have hgo := ih rest hrest hlen
      rw [show p :: rest ++ [0] = p :: (rest ++ [0]) from rfl]
      by_cases h1 : p = 42
      · subst h1
        rw [pieces_star]
        cases hd : rest.dropWhile (· == 42) with
        | nil =>
          have hall := stars_all rest hd
          have hrun : ∀ s, run (.many :: pieces rest) s = .ok true := by
            intro s
            rw [run, if_pos hall]
          have hpast : runPast (.many :: pieces rest) = .ok true := by
            show (if (Piece.many :: pieces rest).all Piece.isMany then _ else _) = _
            rw [if_pos (by rw [List.all_cons, hall]; rfl)]
          have hcode : ∀ s, fnmatch (fuel + 1) (42 :: (rest ++ [0])) s = .ok true := by
            intro s
            rw [fnmatch_star, dropWhile_stars rest hrest0, hd]
            rfl
          refine ⟨fun name _ => ?_, ?_⟩
          · rw [hcode, hrun]
            rfl
          · rw [hcode, hpast]
            rfl
        | cons q r =>
          obtain ⟨hall, hrun⟩ := stars_run rest q r hd
          have hsub : ∀ c ∈ q :: r, c ∈ rest := fun c hc => (List.dropWhile_sublist (· == 42)).subset (hd ▸ hc)
          have hplain : Plain (q :: r) := fun c hc => hrest c (hsub c hc)
          have hlenr : (q :: r).length < fuel := by
            have := (List.dropWhile_sublist (l := rest) (· == 42)).length_le
            rw [hd] at this
            omega
          have hcode : ∀ s, fnmatch (fuel + 1) (42 :: (rest ++ [0])) s = starLoop (fnmatch fuel (q :: r ++ [0])) s := by
            intro s
            rw [fnmatch_star, dropWhile_stars rest hrest0, hd]
            show (if q = 0 then _ else _) = _
            rw [if_neg (plain_ne_zero (hplain q (by simp)))]
            rfl
          refine ⟨fun name hn => ?_, ?_⟩
          · rw [hcode, hrun]
            exact starLoop_tryEach _ _ name hn (ih (q :: r) hplain hlenr).1
          · rw [hcode]
            show _ = liftOverrun (if (Piece.many :: pieces rest).all Piece.isMany then _ else _)
            rw [if_neg (by rw [List.all_cons, hall]; simp)]
            rfl
      · -- any other piece reads the name
        obtain ⟨accepts, atEnd, ps, hps⟩ := pieces_head p rest h1
        have hpast : fnmatch (fuel + 1) (p :: (rest ++ [0])) [] = liftOverrun (runPast (pieces (p :: rest))) := by
          rw [fnmatch, if_neg hp0, if_neg h1, hps]
          rfl
        refine ⟨fun name hn => ?_, hpast⟩
        by_cases h2 : p = 63
        · subst h2
          rw [pieces_single]
          cases name with
          | nil => rfl
          | cons n name =>
            have hn0 := plain_ne_zero (hn n (by simp))
            have hname : Plain name := fun c hc => hn c (List.mem_cons_of_mem _ hc)
            show (if n = 0 ∨ n = 47 then _ else _) = liftOverrun (if (n != 47) = true then _ else _)
            by_cases h47 : n = 47
            · rw [if_pos (Or.inr h47), if_neg (by simp [h47])]
              rfl
            · rw [if_neg (by simp [hn0, h47]), if_pos (by simpa using h47)]
              exact hgo.1 name hname
        · by_cases h3 : p = 91
          · subst h3
            rw [pieces_class]
            have htail : ∀ c ∈ ((classBody rest).dropWhile (· != 93)).tail, c ∈ rest := by
              intro c hc
              have hc := (List.dropWhile_sublist (· != 93)).subset (List.mem_of_mem_tail hc)
              unfold classBody at hc
              split at hc
              · exact List.mem_of_mem_tail hc
              · exact hc
            have hplain : Plain ((classBody rest).dropWhile (· != 93)).tail := fun c hc => hrest c (htail c hc)
            have hmembers : ∀ m ∈ classMembers ((classBody rest).takeWhile (· != 93)), m.Plain := by
              apply classMembers_plain
              intro c hc
              have hc := (List.takeWhile_sublist (· != 93)).subset hc
              unfold classBody at hc
              split at hc
              · exact hrest c (List.mem_of_mem_tail hc)
              · exact hrest c hc
            have hlent : ((classBody rest).dropWhile (· != 93)).tail.length < fuel := by
              have h4 := (List.dropWhile_sublist (l := classBody rest) (· != 93)).length_le
              have h5 : (classBody rest).length ≤ rest.length := by
                unfold classBody
                split
                · rw [List.length_tail]
                  omega
                · exact Nat.le_refl _
              rw [List.length_tail]
              omega
            have hnext := ih _ hplain hlent
            cases name with
            | nil =>
              have hnone : (classMembers ((classBody rest).takeWhile (· != 93))).any (ClassMember.hit (toLower 0)) =
                  false := by
                rw [List.any_eq_false]
                intro m hm
                rw [show toLower 0 = 0 from rfl, hit_zero m (hmembers m hm)]
                simp
              rw [List.nil_append, fnmatch, if_neg (by decide), if_neg (by decide)]
              rw [if_neg (by decide), if_pos rfl, classMatch_spec _ rest hrest0, hnone]
              rw [run]
              dsimp only
              rw [Bool.false_bne]
              by_cases hneg : classNegated rest = true
              · rw [if_pos hneg, if_pos hneg]
                exact hnext.2
              · rw [if_neg hneg, if_neg hneg]
                rfl
            | cons n name =>
              have hname : Plain name := fun c hc => hn c (List.mem_cons_of_mem _ hc)
              have hany : (classMembers ((classBody rest).takeWhile (· != 93))).any (ClassMember.hit (toLower n)) =
                  (classMembers ((classBody rest).takeWhile (· != 93))).any fun m => m.holds n := by
                rw [Bool.eq_iff_iff, List.any_eq_true, List.any_eq_true]
                constructor
                · rintro ⟨m, hm, hh⟩
                  exact ⟨m, hm, by rw [← hit_eq_holds m (hmembers m hm) n (hn n (by simp))]; exact hh⟩
                · rintro ⟨m, hm, hh⟩
                  exact ⟨m, hm, by rw [hit_eq_holds m (hmembers m hm) n (hn n (by simp))]; exact hh⟩
              rw [List.cons_append, fnmatch, if_neg (by decide), if_neg (by decide)]
              rw [if_neg (by decide), if_pos rfl, classMatch_spec _ rest hrest0, hany, run]
              dsimp only
              split
              · exact hnext.1 name hname
              · rfl
          · rw [pieces_lit p rest h1 h2 h3]
            cases name with
            | nil =>
              have hne : toLower p ≠ toLower 0 := plain_ne_zero (plain_toLower (hp p (by simp)))
              rw [List.nil_append, fnmatch, if_neg hp0, if_neg h1]
              rw [if_neg h2, if_neg h3, if_pos hne]
              rfl
            | cons n name =>
              have hname : Plain name := fun c hc => hn c (List.mem_cons_of_mem _ hc)
              rw [List.cons_append, fnmatch, if_neg hp0, if_neg h1]
              rw [if_neg h2, if_neg h3, run]
              by_cases heq : toLower p = toLower n
              · rw [if_neg (by simpa using heq), if_pos (by simpa using heq)]
                exact hgo.1 name hname
              · rw [if_pos heq, if_neg (by simpa using heq)]
                rfl

/-! ## When it is right -/

/-- A negated class is reached at the end of the name: what is before it in the pattern does not end in a
star and matches all of the name. -/
def NegatedAtEnd (pat name : Bytes) : Prop :=
  ∃ first members rest, globPieces pat = first ++ .cls true members :: rest ∧ first.getLast? ≠ some .any ∧
    Matches (first.map GlobPiece.piece) name

theorem leaks_pieces (pat name : Bytes) : Leaks (pieces pat) name ↔ NegatedAtEnd pat name := by
  have hlast : ∀ first : List GlobPiece, (∀ p ∈ (first.map GlobPiece.piece).getLast?, p.isMany = false) ↔
      first.getLast? ≠ some .any := by
    intro first
    rw [List.getLast?_map]
    cases first.getLast? with
    | none => simp
    | some g => cases g <;> simp [GlobPiece.piece, Piece.isMany]
  unfold Leaks NegatedAtEnd pieces
  constructor
  · rintro ⟨first', accepts, rest', heq, hl, hm⟩
    obtain ⟨first, tail, hsplit, rfl, htail⟩ := List.map_eq_append_iff.mp heq
    obtain ⟨g, rest, rfl, hg, -⟩ := List.map_eq_cons_iff.mp htail
    cases g with
    | cls negated members =>
      obtain rfl : negated = true := (Piece.one.inj hg).2
      exact ⟨first, members, rest, hsplit, (hlast first).mp hl, hm⟩
    | any => cases hg
    | single => cases hg
    | lit c => cases hg
  · rintro ⟨first, members, rest, heq, hl, hm⟩
    refine ⟨first.map GlobPiece.piece, (GlobPiece.cls true members).accepts, rest.map GlobPiece.piece, ?_, (hlast first).mpr hl, hm⟩
    rw [heq, List.map_append, List.map_cons]
    rfl

theorem liftOverrun_eq_ok {α : Type} (r : Except Unit α) (a : α) : liftOverrun r = .ok a ↔ r = .ok a := by
  cases r <;> simp [liftOverrun]

/-- **When the match is exact.**  For ASCII strings the function ends; it reads nothing past a NUL and
says whether the whole name matches, exactly when the name matches or no negated class is reached at its end. -/
theorem fnmatch_exact_iff (pat name : CStr) (hp : ∀ c ∈ pat.bytes, c.toNat < 128) (hn : ∀ c ∈ name.bytes, c.toNat < 128) :
    ((∃ b, vfsFnmatch pat name = .ok b ∧ (b = true ↔ GlobMatches pat.bytes name.bytes)) ↔
        GlobMatches pat.bytes name.bytes ∨ ¬ NegatedAtEnd pat.bytes name.bytes) ∧
      vfsFnmatch pat name ≠ .error .fuel := by
  have hplain : ∀ s : CStr, (∀ c ∈ s.bytes, c.toNat < 128) → Plain s.bytes := by
    intro s hs c hc
    refine ⟨Nat.pos_of_ne_zero fun h0 => s.noNul ?_, hs c hc⟩
    rw [← show c = 0 from UInt8.toNat_inj.mp h0]
    exact hc
  have hrun : vfsFnmatch pat name = liftOverrun (run (pieces pat.bytes) name.bytes) :=
    (fnmatch_run _ pat.bytes (hplain pat hp) (Nat.lt_succ_self _)).1 name.bytes (hplain name hn)
  rw [hrun]
  refine ⟨?_, ?_⟩
  · have h := run_exact_iff (pieces pat.bytes) name.bytes
    rw [leaks_pieces] at h
    simp only [liftOverrun_eq_ok]
    exact h
  · cases run (pieces pat.bytes) name.bytes <;> simp [liftOverrun]

theorem ascii_of_all {s : Bytes} (h : (s.all fun c => decide (c.toNat < 128)) = true) : ∀ c ∈ s, c.toNat < 128 := by
  simpa using h

/-- `*.c` and `a.c`. -/
theorem fnmatch_exact_star : ∃ b, vfsFnmatch (lit ['*', '.', 'c']) (lit ['a', '.', 'c']) = .ok b ∧
    (b = true ↔ GlobMatches (lit ['*', '.', 'c']).bytes (lit ['a', '.', 'c']).bytes) := by
  refine ((fnmatch_exact_iff (lit ['*', '.', 'c']) (lit ['a', '.', 'c']) (ascii_of_all (by decide))
    (ascii_of_all (by decide))).1).mpr (Or.inl ?_)
  show Matches (pieces [42, 46, 99]) [97, 46, 99]
  rw [pieces_star, pieces_lit _ _ (by decide) (by decide) (by decide),
    pieces_lit _ _ (by decide) (by decide) (by decide)]
  refine ⟨[46, 99], List.suffix_cons _ _, matches_one_cons.mpr ⟨by decide, matches_one_cons.mpr ⟨by decide, ?_⟩⟩⟩
  unfold pieces
  rw [globPieces]
  rfl

/-- `[!a]` and the empty name: the class takes the NUL, and the end of the name is looked for behind it. -/
theorem fnmatch_negated_at_end : vfsFnmatch (lit ['[', '!', 'a', ']']) (lit []) = .error .overrun ∧
    ¬ GlobMatches (lit ['[', '!', 'a', ']']).bytes (lit []).bytes ∧
    ¬ ∃ b, vfsFnmatch (lit ['[', '!', 'a', ']']) (lit []) = .ok b ∧
      (b = true ↔ GlobMatches (lit ['[', '!', 'a', ']']).bytes (lit []).bytes) := by
  have hcode : vfsFnmatch (lit ['[', '!', 'a', ']']) (lit []) = .error .overrun := by decide
  refine ⟨hcode, ?_, ?_⟩
  · show ¬ Matches (pieces [91, 33, 97, 93]) []
    rw [pieces_class]
    exact not_matches_one_nil
  · rintro ⟨b, hb, -⟩
    rw [hcode] at hb
    cases hb

end Smolvfs
