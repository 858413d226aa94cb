import Smolvfs.VfsPath

/-!
# Normalizing against a reference

`vfs_normalize` with its tokenizer and its array of components, and `vfs_resolve`.  The
array is long enough for every path, and the buffer it cuts up still holds every
component the array points at (`normalizeLoop_eq`), so the function is what
`vfsNormalize` says (`vfsNormalizeInPlace_eq`).

`normalize_meets_reference`: it gives the path's components between slashes, without
the empty ones and the dots and with each `..` taking one away, and a path may be
normalized before another is put behind it.
-/

namespace Smolvfs

open Octets Names

/-! ## The tokenizer -/

/-- The string at a place of a buffer. -/
def strAt (buf : Bytes) (pos : Nat) : Bytes := (buf.drop pos).takeWhile (· != 0)

/-- `while (*tok == '/') tok++` -/
def skipSlashes (tmp : Bytes) (tok : Nat) : Nat := tok + ((tmp.drop tok).takeWhile (· == 47)).length

/-- `strchr(tok, '/')` -/
def slashAt (tmp : Bytes) (tok : Nat) : Option Nat :=
  let len := ((strAt tmp tok).takeWhile (· != 47)).length
  if len < (strAt tmp tok).length then some (tok + len) else none

/-- `parts[depth++] = tok`; none is a write past the end of the array. -/
def partsPush (marks : List Nat) (tok : Nat) : Option (List Nat) :=
  if marks.length < VFS_PATH_MAX / 2 then some (marks ++ [tok]) else none

/-- One component, which ends at the NUL after it. -/
def takeComponent (tmp : Bytes) (marks : List Nat) (tok : Nat) : Option (List Nat) :=
  if strAt tmp tok = [46] then some marks
  else if strAt tmp tok = [46, 46] then some marks.dropLast
  else partsPush marks tok

/-- The `while (*tok)` loop, on the buffer whose slashes it overwrites and the places in `parts`; each turn takes
some of the `fuel` octets of the path. -/
def normalizeLoop : Nat → Bytes → List Nat → Nat → Option (Bytes × List Nat)
  | 0, tmp, marks, _ => some (tmp, marks)
  | fuel + 1, tmp, marks, tok =>
    let tok := skipSlashes tmp tok
    if strAt tmp tok = [] then some (tmp, marks)
    else
      match slashAt tmp tok with
      | none => (takeComponent tmp marks tok).map fun marks => (tmp, marks)
      | some last =>
        match takeComponent (tmp.set last 0) marks tok with
        | none => none
        | some marks => normalizeLoop fuel (tmp.set last 0) marks (last + 1)

/-- `vfs_normalize` as it is written; none is a write past the end of its array. -/
def vfsNormalizeInPlace (bufsz : Nat) (path : CStr) : Option (Except VfsStatus Bytes) :=
  if path.bytes.head? ≠ some 47 then some (.error .ebadpath)
  else if path.bytes.length ≥ VFS_PATH_MAX then some (.error .ebadpath)
  else
    (normalizeLoop path.bytes.length (path.bytes ++ [0]) [] 1).map fun (tmp, marks) =>
      if marks = [] then (if bufsz < 2 then .error .ebadpath else .ok [47])
      else rebuildPath bufsz 0 (marks.map (strAt tmp))

/-- `vfs_resolve` -/
def vfsResolve (bufsz : Nat) (path : Bytes) (cwd : Option Bytes) : Except VfsStatus Bytes :=
  if path = [] then .error .ebadpath
  else if path.head? = some 47 then vfsNormalize bufsz path
  else if (cwd.map List.length).getD 1 + 1 + path.length + 1 > VFS_PATH_MAX then .error .ebadpath
  else
    match cwd.filter fun c => c.head? == some 47 with
    | some cwd => vfsNormalize bufsz (cwd ++ 47 :: path)
    | none => vfsNormalize bufsz ([47] ++ 47 :: path)

/-! ## What the loop takes -/

theorem parts_dropSlashes (s : Bytes) : parts 47 (s.dropWhile (· == 47)) = parts 47 s := by
  induction s with
  | nil => rfl
  | cons c s ih =>
    by_cases hc : c = 47
    · subst hc
      rw [List.dropWhile_cons_of_pos (by simp), ih, parts_sep]
    · rw [List.dropWhile_cons_of_neg (by simpa using hc)]

/-- What the loop finds at a component: the last of the path, or one with a slash after it. -/
theorem first_component (t : Bytes) (hne : t ≠ []) (hhead : t.head? ≠ some 47) :
    IsName 47 t ∨ ∃ tok rest, t = tok ++ 47 :: rest ∧ IsName 47 tok := by
  by_cases hs : (47 : UInt8) ∈ t
  · obtain ⟨tok, rest, rfl, hfree⟩ := List.eq_append_cons_of_mem hs
    refine Or.inr ⟨tok, rest, rfl, ?_, hfree⟩
    rintro rfl
    exact hhead rfl
  · exact Or.inl ⟨hne, hs⟩

theorem head_dropSlashes (s : Bytes) : (s.dropWhile (· == 47)).head? ≠ some 47 := by
  intro h
  have := List.head?_dropWhile_not (fun x : UInt8 => x == 47) s
  rw [h] at this
  simp at this

theorem length_resolveStep (comps : List Bytes) (tok : Bytes) : (resolveStep comps tok).length ≤ comps.length + 1 := by
  unfold resolveStep
  split
  · omega
  · split
    · rw [List.length_dropLast]
      omega
    · simp

theorem strAt_drop (a b : Bytes) (n : Nat) : strAt (a ++ b) (a.length + n) = strAt b n := by
  unfold strAt
  rw [← List.drop_drop, List.drop_left]

/-- A string ends at its NUL, whatever comes after it. -/
theorem strAt_nul (a s more : Bytes) (h : (0 : UInt8) ∉ s) : strAt (a ++ (s ++ 0 :: more)) a.length = s := by
  have hat := strAt_drop a (s ++ 0 :: more) 0
  rw [Nat.add_zero] at hat
  rw [hat]
  unfold strAt
  rw [List.drop_zero, List.takeWhile_append_of_pos, List.takeWhile_cons_of_neg (by simp), List.append_nil]
  intro c hc
  rw [bne_iff_ne]
  rintro rfl
  exact h hc

/-- The marks stand at components that are closed before the end of `done`. -/
def Marked (done : Bytes) (marks : List Nat) (comps : List Bytes) : Prop :=
  ∀ more, marks.map (strAt (done ++ more)) = comps

theorem Marked.length {done : Bytes} {marks : List Nat} {comps : List Bytes} (h : Marked done marks comps) :
    marks.length = comps.length := by
  rw [← h [], List.length_map]

theorem Marked.append {done : Bytes} {marks : List Nat} {comps : List Bytes} (h : Marked done marks comps)
    (more : Bytes) : Marked (done ++ more) marks comps := by
  intro rest
  rw [List.append_assoc]
  exact h (more ++ rest)

/-- Where the array has room, a component is taken as the fold takes it. -/
theorem takeComponent_marked (done tok : Bytes) (marks : List Nat) (comps : List Bytes) (h : Marked done marks comps)
    (hz : (0 : UInt8) ∉ tok) (hroom : comps.length < VFS_PATH_MAX / 2) (more : Bytes) :
    ∃ marks', takeComponent (done ++ (tok ++ 0 :: more)) marks done.length = some marks' ∧
      Marked (done ++ (tok ++ [0])) marks' (resolveStep comps tok) := by
  have hat : ∀ rest, strAt (done ++ (tok ++ 0 :: rest)) done.length = tok := fun rest => strAt_nul done tok rest hz
  unfold takeComponent partsPush resolveStep
  rw [hat more, h.length, if_pos hroom]
  by_cases hdot : tok = [46]
  · rw [if_pos hdot, if_pos hdot]
    exact ⟨marks, rfl, h.append _⟩
  · rw [if_neg hdot, if_neg hdot]
    by_cases hdots : tok = [46, 46]
    · rw [if_pos hdots, if_pos hdots]
      refine ⟨marks.dropLast, rfl, fun rest => ?_⟩
      rw [List.map_dropLast, h.append _ rest]
    · rw [if_neg hdots, if_neg hdots]
      refine ⟨marks ++ [done.length], rfl, fun rest => ?_⟩
      have hassoc : done ++ (tok ++ [0]) ++ rest = done ++ (tok ++ 0 :: rest) := by simp
      rw [List.map_append, h.append _ rest, hassoc, List.map_singleton, hat rest]

/-- Where the slashes before a component end, in a buffer whose rest is `rest` and a NUL. -/
theorem skipSlashes_rest (done rest : Bytes) :
    skipSlashes (done ++ (rest ++ [0])) done.length = (done ++ rest.takeWhile (· == 47)).length := by
  unfold skipSlashes
  rw [List.drop_left, List.length_append, List.takeWhile_append]
  split
  · next hall =>
    have heq : rest.takeWhile (· == 47) = rest :=
      (List.takeWhile_prefix (l := rest) fun x : UInt8 => x == 47).eq_of_length hall
    rw [heq]
    simp
  · rfl

theorem slashAt_none (a tok : Bytes) (hz : (0 : UInt8) ∉ tok) (hs : (47 : UInt8) ∉ tok) :
    slashAt (a ++ (tok ++ [0])) a.length = none := by
  unfold slashAt
  dsimp only
  rw [strAt_nul a tok [] hz]
  have hall : tok.takeWhile (· != 47) = tok := by
    rw [List.takeWhile_eq_self_iff]
    intro c hc
    rw [bne_iff_ne]
    rintro rfl
    exact hs hc
  rw [hall, if_neg (by omega)]

theorem slashAt_some (a tok rest : Bytes) (hz : (0 : UInt8) ∉ tok ++ 47 :: rest) (hs : (47 : UInt8) ∉ tok) :
    slashAt (a ++ (tok ++ 47 :: rest ++ [0])) a.length = some (a.length + tok.length) := by
  unfold slashAt
  dsimp only
  rw [strAt_nul a _ [] hz]
  have hall : (tok ++ 47 :: rest).takeWhile (· != 47) = tok := by
    rw [List.takeWhile_append_of_pos, List.takeWhile_cons_of_neg (by simp), List.append_nil]
    intro c hc
    rw [bne_iff_ne]
    rintro rfl
    exact hs hc
  rw [hall, if_pos (by simp)]

/-- **The loop is the fold, and stays in its array**: what is behind `tok` leaves two octets for each component. -/
theorem normalizeLoop_eq (fuel : Nat) (done rest : Bytes) (marks : List Nat) (comps : List Bytes)
    (hmarks : Marked done marks comps) (hz : (0 : UInt8) ∉ rest) (hf : rest.length ≤ fuel)
    (hroom : 2 * comps.length + rest.length < VFS_PATH_MAX) :
    ∃ tmp marks', normalizeLoop fuel (done ++ (rest ++ [0])) marks done.length = some (tmp, marks') ∧
      marks'.map (strAt tmp) = (parts 47 rest).foldl resolveStep comps := by
  induction fuel generalizing done rest marks comps with
  | zero =>
    obtain rfl : rest = [] := List.eq_nil_of_length_eq_zero (by omega)
    refine ⟨_, marks, rfl, ?_⟩
    rw [hmarks, parts_nil]
    rfl
  | succ fuel ih =>
    have hhalf : VFS_PATH_MAX / 2 + VFS_PATH_MAX / 2 = VFS_PATH_MAX := rfl
    have hhead := head_dropSlashes rest
    have hsplit := List.takeWhile_append_dropWhile (p := fun x : UInt8 => x == 47) (l := rest)
    unfold normalizeLoop
    dsimp only
    rw [skipSlashes_rest, ← parts_dropSlashes rest]
    generalize hskip : done ++ rest.takeWhile (· == 47) = skip
    have hbuf : done ++ (rest ++ [0]) = skip ++ (rest.dropWhile (· == 47) ++ [0]) := by
      rw [← hskip, List.append_assoc, ← List.append_assoc (rest.takeWhile _), hsplit]
    have hmarked : Marked skip marks comps := hskip ▸ hmarks.append _
    have hle : (rest.dropWhile (· == 47)).length ≤ rest.length := List.length_dropWhile_le _ _
    have hzt : (0 : UInt8) ∉ rest.dropWhile (· == 47) := fun hm => hz (List.dropWhile_subset _ hm)
    rw [hbuf]
    generalize rest.dropWhile (· == 47) = t at hle hhead hzt
    rw [strAt_nul skip t [] hzt]
    by_cases hne : t = []
    · subst hne
      refine ⟨_, marks, if_pos rfl, ?_⟩
      rw [hmarked, parts_nil]
      rfl
    · have hpos : 0 < t.length := List.length_pos_of_ne_nil hne
      have hlen := length_resolveStep comps (t.takeWhile (· != 47))
      rw [if_neg hne]
      rcases first_component t hne hhead with hname | ⟨tok, behind, rfl, hname⟩
      · -- the last component ends with the path
        have hlen := length_resolveStep comps t
        obtain ⟨marks', htake, hmarked'⟩ := takeComponent_marked skip t marks comps hmarked hzt (by omega) []
        rw [slashAt_none skip t hzt hname.2, htake]
        refine ⟨_, marks', rfl, ?_⟩
        have hall := hmarked' []
        rw [List.append_nil] at hall
        rw [hall, parts_name 47 t hname]
        rfl
      · -- the slash after the component becomes its NUL, and the next turn starts behind it
        have hlen := length_resolveStep comps tok
        have htok : 0 < tok.length := List.length_pos_of_ne_nil hname.1
        rw [List.length_append, List.length_cons] at hle
        obtain ⟨hz1, hz2⟩ : (0 : UInt8) ∉ tok ∧ (0 : UInt8) ∉ behind := by
          constructor <;> intro hm <;> exact hzt (by simp [hm])
        obtain ⟨marks', htake, hmarked'⟩ :=
          takeComponent_marked skip tok marks comps hmarked hz1 (by omega) (behind ++ [0])
        have hset : (skip ++ (tok ++ 47 :: behind ++ [0])).set (skip.length + tok.length) 0 =
            skip ++ (tok ++ 0 :: (behind ++ [0])) := by
          rw [List.set_append_right _ _ (by omega), List.append_assoc, List.set_append_right _ _ (by omega)]
          simp
        rw [slashAt_some skip tok behind hzt hname.2]
        dsimp only
        rw [hset, htake]
        have hnext : skip ++ (tok ++ 0 :: (behind ++ [0])) = (skip ++ (tok ++ [0])) ++ (behind ++ [0]) := by simp
        have hplace : skip.length + tok.length + 1 = (skip ++ (tok ++ [0])).length := by simp; omega
        dsimp only
        rw [hnext, hplace]
        obtain ⟨tmp, last, hrun, hall⟩ := ih _ behind marks' _ hmarked' hz2 (by omega) (by omega)
        refine ⟨tmp, last, hrun, ?_⟩
        rw [hall, parts_append, parts_name 47 tok hname]
        rfl

/-- **`vfs_normalize` stays in its array**, and is the function the rest rests on. -/
theorem vfsNormalizeInPlace_eq (bufsz : Nat) (path : CStr) :
    vfsNormalizeInPlace bufsz path = some (vfsNormalize bufsz path.bytes) := by
  obtain ⟨path, hz⟩ := path
  unfold vfsNormalizeInPlace vfsNormalize
  dsimp only
  by_cases hhead : path.head? = some 47
  · rw [if_neg (not_not.mpr hhead), if_neg (not_not.mpr hhead)]
    by_cases hlen : path.length ≥ VFS_PATH_MAX
    · rw [if_pos hlen, if_pos hlen]
    · obtain ⟨rest, rfl⟩ : ∃ rest, path = 47 :: rest := List.head?_eq_some_iff.mp hhead
      have hrest : rest.length + 1 < VFS_PATH_MAX := by
        rw [List.length_cons] at hlen
        omega
      have hcomps : pathComponents (47 :: rest) = (parts 47 rest).foldl resolveStep [] := by
        unfold pathComponents
        rw [parts_sep]
      obtain ⟨tmp, marks, hloop, hall⟩ := normalizeLoop_eq (rest.length + 1) [47] rest [] [] (fun _ => rfl)
        (fun hm => hz (List.mem_cons_of_mem _ hm)) (by omega) (by simp only [List.length_nil]; omega)
      have hnil : marks = [] ↔ pathComponents (47 :: rest) = [] := by
        rw [hcomps, ← hall, List.map_eq_nil_iff]
      have hrun : normalizeLoop (47 :: rest : Bytes).length (47 :: rest ++ [0]) [] 1 = some (tmp, marks) := hloop
      rw [if_neg hlen, if_neg hlen, hrun, Option.map_some, hall, ← hcomps]
      simp only [hnil]
  · rw [if_pos hhead, if_pos hhead]

/-! ## The reference -/

/-- A piece between slashes: empty ones and dots are dropped, and `..` takes the piece before it away. -/
def referenceStep (comps : List Bytes) (piece : Bytes) : List Bytes :=
  if piece = [] ∨ piece = [46] then comps
  else if piece = [46, 46] then comps.dropLast
  else comps ++ [piece]

/-- The components of a path. -/
def referenceComponents (path : Bytes) : List Bytes := (path.splitOn 47).foldl referenceStep []

/-- A slash, and the components with slashes between them. -/
def referencePath (path : Bytes) : Bytes := 47 :: [47].intercalate (referenceComponents path)

theorem referenceComponents_eq (path : Bytes) : referenceComponents path = pathComponents path := by
  unfold referenceComponents pathComponents parts
  rw [List.foldl_filter]
  congr 1
  funext comps piece
  unfold referenceStep resolveStep
  by_cases hnil : piece = []
  · simp [hnil]
  · simp [hnil]

theorem pathOf_eq_intercalate (comps : List Bytes) : pathOf comps = 47 :: [47].intercalate comps := by
  induction comps with
  | nil => rfl
  | cons c comps ih =>
    rw [pathOf_ne_nil _ (by simp), join_cons]
    cases comps with
    | nil => simp
    | cons d comps =>
      rw [pathOf_ne_nil _ (by simp)] at ih
      rw [ih]
      simp

theorem referencePath_eq (path : Bytes) : referencePath path = pathOf (pathComponents path) := by
  unfold referencePath
  rw [referenceComponents_eq, pathOf_eq_intercalate]

/-! ## Lengths -/

theorem length_join_dropLast (comps : List Bytes) : (join 47 comps.dropLast).length ≤ (join 47 comps).length := by
  rcases List.eq_nil_or_concat comps with rfl | ⟨init, last, rfl⟩
  · simp
  · rw [List.concat_eq_append, List.dropLast_concat, join_concat, List.length_append]
    omega

/-- Resolving never makes a path longer. -/
theorem length_join_resolve (comps toks : List Bytes) :
    (join 47 (toks.foldl resolveStep comps)).length ≤ (join 47 comps).length + (join 47 toks).length := by
  induction toks generalizing comps with
  | nil => simp
  | cons tok toks ih =>
    have hstep : (join 47 (resolveStep comps tok)).length ≤ (join 47 comps).length + (1 + tok.length) := by
      unfold resolveStep
      split
      · omega
      · split
        · have := length_join_dropLast comps
          omega
        · rw [join_concat, List.length_append, List.length_cons]
          omega
    have hrest := ih (resolveStep comps tok)
    rw [List.foldl_cons, join_cons, List.length_cons, List.length_append]
    omega

theorem length_join_parts (s : Bytes) : (join 47 (parts 47 s)).length ≤ s.length + 1 := by
  induction hn : s.length using Nat.strongRecOn generalizing s with
  | ind n ih =>
    subst hn
    by_cases hs : (47 : UInt8) ∈ s
    · obtain ⟨a, b, rfl, ha⟩ := List.eq_append_cons_of_mem hs
      have hb := ih b.length (by simp; omega) b rfl
      rw [parts_append, join_append, parts_free 47 a ha, List.length_append, List.length_append, List.length_cons]
      by_cases hnil : a = []
      · rw [if_pos hnil, join_nil, List.length_nil]
        omega
      · rw [if_neg hnil, join_cons, join_nil, List.append_nil, List.length_cons]
        omega
    · rw [parts_free 47 s hs]
      by_cases hnil : s = []
      · rw [if_pos hnil, join_nil, List.length_nil]
        omega
      · rw [if_neg hnil, join_cons, join_nil, List.append_nil, List.length_cons]

/-- A path in normal form is not longer than the path it is of. -/
theorem length_pathOf_components (path : Bytes) (hhead : path.head? = some 47) :
    (pathOf (pathComponents path)).length ≤ path.length := by
  obtain ⟨rest, rfl⟩ : ∃ rest, path = 47 :: rest := List.head?_eq_some_iff.mp hhead
  by_cases hnil : pathComponents (47 :: rest) = []
  · rw [hnil, pathOf_nil, List.length_cons, List.length_cons, List.length_nil]
    omega
  · have hjoin := length_join_resolve [] (parts 47 (47 :: rest))
    have hparts := length_join_parts rest
    rw [pathOf_ne_nil _ hnil, List.length_cons]
    unfold pathComponents
    rw [parts_sep] at hjoin ⊢
    rw [join_nil, List.length_nil] at hjoin
    omega

/-- **`vfs_normalize` in closed form.** -/
theorem vfsNormalize_eq (bufsz : Nat) (path : Bytes) :
    vfsNormalize bufsz path =
      if path.head? = some 47 ∧ path.length < VFS_PATH_MAX ∧ (referencePath path).length + 1 ≤ bufsz
      then .ok (referencePath path) else .error .ebadpath := by
  unfold vfsNormalize
  rw [referencePath_eq]
  by_cases hhead : path.head? = some 47
  · rw [if_neg (not_not.mpr hhead)]
    by_cases hlen : path.length < VFS_PATH_MAX
    · rw [if_neg (by omega)]
      by_cases hnil : pathComponents path = []
      · have hroot : (pathOf (pathComponents path)).length = 1 := by
          rw [hnil]
          rfl
        rw [if_pos hnil, hroot]
        by_cases hfits : bufsz < 2
        · rw [if_pos hfits, if_neg (by omega)]
        · rw [if_neg hfits, if_pos ⟨hhead, hlen, by omega⟩, hnil]
          rfl
      · rw [if_neg hnil, rebuildPath_eq _ _ _ hnil, pathOf_ne_nil _ hnil]
        by_cases hfits : (join 47 (pathComponents path)).length + 1 ≤ bufsz
        · rw [if_neg (by omega), if_pos ⟨hhead, hlen, hfits⟩]
        · rw [if_pos (by omega), if_neg fun h => hfits h.2.2]
    · rw [if_pos (by omega), if_neg fun h => hlen h.2.1]
  · rw [if_pos hhead, if_neg fun h => hhead h.1]

/-- What stands behind a path and a slash goes on from its components. -/
theorem pathComponents_behind (p q : Bytes) :
    pathComponents (p ++ 47 :: q) = (parts 47 q).foldl resolveStep (pathComponents p) := by
  unfold pathComponents
  rw [parts_append, List.foldl_append]

/-- A reference path has its own components. -/
theorem pathComponents_reference (path : Bytes) : pathComponents (referencePath path) = pathComponents path := by
  rw [referencePath_eq, pathComponents_pathOf _ (pathComponents_ok path)]

/-- Between its slashes stand components. -/
theorem reference_pieces (path : Bytes) (hroot : referencePath path ≠ [47]) :
    ∀ piece ∈ ((referencePath path).drop 1).splitOn 47, Component piece := by
  intro piece hmem
  have hok := pathComponents_ok path
  unfold referencePath at hroot hmem
  rw [referenceComponents_eq] at hroot hmem
  rw [List.drop_succ_cons, List.drop_zero] at hmem
  have hne : pathComponents path ≠ [] := by
    intro hnil
    rw [hnil] at hroot
    exact hroot rfl
  rw [List.splitOn_intercalate 47 (fun l hl => (hok.names l hl).2) hne] at hmem
  exact hok.all piece hmem

/-- The components that are left are some of the path's. -/
theorem resolve_subset (comps toks : List Bytes) :
    ∀ comp ∈ toks.foldl resolveStep comps, comp ∈ comps ∨ comp ∈ toks := by
  induction toks generalizing comps with
  | nil => exact fun comp h => Or.inl h
  | cons tok toks ih =>
    intro comp h
    rcases ih _ comp h with h | h
    · unfold resolveStep at h
      split at h
      · exact Or.inl h
      · split at h
        · exact Or.inl (List.dropLast_subset _ h)
        · rcases List.mem_append.mp h with h | h
          · exact Or.inl h
          · exact Or.inr (by rw [List.mem_singleton.mp h]; simp)
    · exact Or.inr (List.mem_cons_of_mem _ h)

/-- Nor does a NUL come in. -/
theorem referencePath_noNul (path : CStr) : (0 : UInt8) ∉ referencePath path.bytes := by
  rw [referencePath_eq]
  unfold pathOf
  split
  · simp
  · intro h
    unfold join at h
    obtain ⟨comp, hcomp, hmem⟩ := List.mem_flatMap.mp h
    rcases List.mem_cons.mp hmem with h0 | hmem
    · cases h0
    · rcases resolve_subset [] _ comp hcomp with hnil | hpart
      · cases hnil
      · exact path.noNul (mem_of_mem_parts 47 path.bytes comp hpart hmem)

/-- `p + '/' + q` -/
def CStr.slash (p q : CStr) : CStr where
  bytes := p.bytes ++ 47 :: q.bytes
  noNul := by
    rw [List.mem_append, List.mem_cons]
    rintro (h | h | h)
    · exact p.noNul h
    · cases h
    · exact q.noNul h

@[simp] theorem CStr.slash_bytes (p q : CStr) : (p.slash q).bytes = p.bytes ++ 47 :: q.bytes := rfl

/-- What is said of normalizing a path. -/
structure NormalizeMeets (bufsz : Nat) (path : CStr) : Prop where
  /-- It succeeds exactly where the path and its reference fit. -/
  ok_iff : (∃ norm : CStr, vfsNormalizeInPlace bufsz path = some (.ok norm.bytes)) ↔
    path.bytes.head? = some 47 ∧ path.bytes.length < VFS_PATH_MAX ∧ (referencePath path.bytes).length + 1 ≤ bufsz
  /-- Otherwise it fails, and writes nowhere it should not. -/
  error : (∃ norm : CStr, vfsNormalizeInPlace bufsz path = some (.ok norm.bytes)) ∨
    vfsNormalizeInPlace bufsz path = some (.error .ebadpath)
  /-- Its result is the reference. -/
  reference : ∀ norm : CStr, vfsNormalizeInPlace bufsz path = some (.ok norm.bytes) →
    norm.bytes = referencePath path.bytes
  /-- It is never longer than the path. -/
  short : ∀ norm : CStr, vfsNormalizeInPlace bufsz path = some (.ok norm.bytes) →
    norm.bytes.length ≤ path.bytes.length
  /-- Other than the root, it has no empty component and no dots. -/
  pieces : ∀ norm : CStr, vfsNormalizeInPlace bufsz path = some (.ok norm.bytes) → norm.bytes ≠ [47] →
    ∀ piece ∈ (norm.bytes.drop 1).splitOn 47, piece ≠ [] ∧ piece ≠ [46] ∧ piece ≠ [46, 46]
  /-- It is its own normal form. -/
  fixed : ∀ norm : CStr, vfsNormalizeInPlace bufsz path = some (.ok norm.bytes) →
    vfsNormalizeInPlace bufsz norm = some (.ok norm.bytes)
  /-- It may stand for the path before a slash and more, in every buffer. -/
  behind : ∀ norm q : CStr, ∀ size, vfsNormalizeInPlace bufsz path = some (.ok norm.bytes) →
    (path.slash q).bytes.length < VFS_PATH_MAX → (norm.slash q).bytes.length < VFS_PATH_MAX →
    vfsNormalizeInPlace size (path.slash q) = vfsNormalizeInPlace size (norm.slash q)

/-- **Path normalization meets its reference.** -/
theorem normalize_meets_reference (bufsz : Nat) (path : CStr) : NormalizeMeets bufsz path := by
  have heq : ∀ size (p : CStr), vfsNormalizeInPlace size p =
      some (if p.bytes.head? = some 47 ∧ p.bytes.length < VFS_PATH_MAX ∧ (referencePath p.bytes).length + 1 ≤ size
        then .ok (referencePath p.bytes) else .error .ebadpath) := by
    intro size p
    rw [vfsNormalizeInPlace_eq, vfsNormalize_eq]
  have hgoes : ∀ norm : CStr, vfsNormalizeInPlace bufsz path = some (.ok norm.bytes) →
      (path.bytes.head? = some 47 ∧ path.bytes.length < VFS_PATH_MAX ∧
        (referencePath path.bytes).length + 1 ≤ bufsz) ∧ norm.bytes = referencePath path.bytes := by
    intro norm h
    rw [heq] at h
    split at h
    · next hfits => exact ⟨hfits, (Except.ok.inj (Option.some.inj h)).symm⟩
    · cases h
  have hshort := fun hhead => referencePath_eq path.bytes ▸ length_pathOf_components path.bytes hhead
  constructor
  case ok_iff =>
    constructor
    · rintro ⟨norm, h⟩
      exact (hgoes norm h).1
    · intro hfits
      exact ⟨⟨referencePath path.bytes, referencePath_noNul path⟩, by rw [heq, if_pos hfits]⟩
  case error =>
    by_cases hfits : path.bytes.head? = some 47 ∧ path.bytes.length < VFS_PATH_MAX ∧
        (referencePath path.bytes).length + 1 ≤ bufsz
    · exact Or.inl ⟨⟨referencePath path.bytes, referencePath_noNul path⟩, by rw [heq, if_pos hfits]⟩
    · exact Or.inr (by rw [heq, if_neg hfits])
  case reference => exact fun norm h => (hgoes norm h).2
  case short =>
    intro norm h
    obtain ⟨hfits, hnorm⟩ := hgoes norm h
    rw [hnorm]
    exact hshort hfits.1
  case pieces =>
    intro norm h hroot piece hmem
    rw [(hgoes norm h).2] at hroot hmem
    obtain ⟨hname, hdot, hdots⟩ := reference_pieces path.bytes hroot piece hmem
    exact ⟨hname.1, hdot, hdots⟩
  case fixed =>
    intro norm h
    obtain ⟨⟨hhead, hlen, hfits⟩, hnorm⟩ := hgoes norm h
    have hself : referencePath norm.bytes = norm.bytes := by
      rw [hnorm, referencePath_eq (referencePath path.bytes), pathComponents_reference, ← referencePath_eq]
    have hle : norm.bytes.length ≤ path.bytes.length := hnorm ▸ hshort hhead
    rw [heq, hself, if_pos ⟨by rw [hnorm]; rfl, by omega, hnorm ▸ hfits⟩]
  case behind =>
    intro norm q size h hp hn
    obtain ⟨⟨hhead, -, -⟩, hnorm⟩ := hgoes norm h
    have hsame : referencePath (path.slash q).bytes = referencePath (norm.slash q).bytes := by
      rw [referencePath_eq, referencePath_eq, CStr.slash_bytes, CStr.slash_bytes, pathComponents_behind,
        pathComponents_behind, hnorm, pathComponents_reference]
    have hheadp : (path.slash q).bytes.head? = some 47 := by
      rw [CStr.slash_bytes, List.head?_append, hhead]
      rfl
    have hheadn : (norm.slash q).bytes.head? = some 47 := by
      rw [CStr.slash_bytes, hnorm]
      rfl
    rw [heq, heq, hsame, hheadp, hheadn]
    simp only [hp, hn]

/-- So a working directory may be normalized before paths are resolved from it. -/
theorem vfsResolve_normalized (bufsz size : Nat) (path cwd : Bytes) (norm : Bytes)
    (hnorm : vfsNormalize size cwd = .ok norm) (hfits : cwd.length + 1 + path.length + 1 ≤ VFS_PATH_MAX) :
    vfsResolve bufsz path (some cwd) = vfsResolve bufsz path (some norm) := by
  rw [vfsNormalize_eq] at hnorm
  split at hnorm
  · next h =>
    obtain rfl := Except.ok.inj hnorm
    have hle : (referencePath cwd).length ≤ cwd.length := by
      rw [referencePath_eq]
      exact length_pathOf_components cwd h.1
    have hhead : (referencePath cwd).head? = some 47 := rfl
    have hsame : referencePath (cwd ++ 47 :: path) = referencePath (referencePath cwd ++ 47 :: path) := by
      rw [referencePath_eq (cwd ++ _), referencePath_eq (referencePath cwd ++ _), pathComponents_behind,
        pathComponents_behind, pathComponents_reference]
    unfold vfsResolve
    simp only [Option.map_some, Option.getD_some, Option.filter_some, h.1, hhead, beq_self_eq_true, if_true]
    rw [if_neg (show ¬cwd.length + 1 + path.length + 1 > VFS_PATH_MAX by omega),
      if_neg (show ¬(referencePath cwd).length + 1 + path.length + 1 > VFS_PATH_MAX by omega),
      vfsNormalize_eq _ (cwd ++ _), vfsNormalize_eq _ (referencePath cwd ++ _), ← hsame]
    have hl1 : (cwd ++ 47 :: path).length < VFS_PATH_MAX := by
      rw [List.length_append, List.length_cons]
      omega
    have hl2 : (referencePath cwd ++ 47 :: path).length < VFS_PATH_MAX := by
      rw [List.length_append, List.length_cons]
      omega
    simp only [hl1, hl2, List.head?_append, h.1, hhead, Option.some_or]
  · cases hnorm

end Smolvfs
