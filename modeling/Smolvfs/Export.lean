import Smolvfs.Lib.Traced
import Smolvfs.SnapTree
import Smolvfs.VfsRestore

/-!
# Exporting a tree

`export_tree_r` of `castool.c`: the entries of a directory are made at the path of the
directory, a slash and the entry's name, composed in a buffer of 4096 octets, and
directories are gone into at that path.  Its value is whether the export went through;
its events are the calls of `mkdir`, `fopen` and `chmod`, each with the names of the
entry it is for.

`export_inside_iff`: every path stays inside the destination when no entry of the tree
is named `.` or `..` and the path of each fits the buffer, and for a tree that can be
read only then.  `cas_tree_check_object` lets both names through (`export_leaves`).
-/

namespace Smolvfs

open Octets Names Traces

/-! ## The export -/

inductive ExportOp
  | mkdir
  | fopen (data : Bytes)
  | chmod (mode : BitVec 32)
  deriving DecidableEq

/-- A call, the path it is given, and the names of the entry from the root on. -/
structure ExportCall where
  names : List Bytes
  op : ExportOp
  path : Bytes
  deriving DecidableEq

abbrev Exporting (α : Type) := Traced ExportCall α

/-- What fails at a path; `mkdir` for another reason than that there is something. -/
structure ExportFaults where
  mkdir : Bytes → Bool
  fopen : Bytes → Bool

/-- `sizeof(path)` in `export_tree_r` -/
def EXPORT_PATH_MAX : Nat := 4096

/-- `snprintf(path, sizeof(path), "%s/%s", destdir, e->name)` -/
def exportPath (destdir : Bytes) (name : CStr) : Bytes := (destdir ++ 47 :: name.bytes).take (EXPORT_PATH_MAX - 1)

section
variable (cs : Codecs) (flt : Faults) (st : Store) (xflt : ExportFaults)

/-- One entry of a directory; `child` is the export of a directory. -/
def exportEntry (child : List Bytes → Bytes → Bytes → Exporting (Option Bool)) (names : List Bytes) (destdir : Bytes)
    (e : Entry) : Exporting (Option Bool) :=
  let names := names ++ [e.name.bytes]
  let path := exportPath destdir e.name
  if e.isDir then do
    emit ⟨names, .mkdir, path⟩
    if xflt.mkdir path then pure (some false) else child names e.hash path
  else
    match casOpen cs flt st e.hash with
    | .error _ => pure (some false)
    | .ok data => do
      emit ⟨names, .fopen data, path⟩
      if xflt.fopen path then pure (some false)
      else do
        emit ⟨names, .chmod (e.mode &&& 0o777#32), path⟩
        pure (some true)

/-- The entries one after another, up to an error. -/
def exportEntries (child : List Bytes → Bytes → Bytes → Exporting (Option Bool)) (names : List Bytes)
    (destdir : Bytes) :
    Dir → Exporting (Option Bool)
  | [] => pure (some true)
  | e :: es => do
    match ← exportEntry cs flt st xflt child names destdir e with
    | some true => exportEntries child names destdir es
    | r => pure r

/-- `export_tree_r`; `fuel` bounds the depth. -/
def exportTreeR : Nat → List Bytes → Bytes → Bytes → Exporting (Option Bool)
  | 0, _, _, _ => pure none
  | fuel + 1, names, hash, destdir =>
    match casTreeLoad cs flt st hash with
    | .error _ => pure (some false)
    | .ok dir => exportEntries cs flt st xflt (exportTreeR fuel) names destdir dir

/-- The export of a whole tree. -/
def exportTree (fuel : Nat) (root destdir : Bytes) : Exporting (Option Bool) :=
  exportTreeR cs flt st xflt fuel [] root destdir

end

/-! ## Inside the destination -/

/-- Neither `.` nor `..`. -/
def NoDots (names : List Bytes) : Prop := ∀ name ∈ names, name ≠ [46] ∧ name ≠ [46, 46]

/-- The path is the destination and the names of the entry, each after a slash and none of them `.` or
`..`. -/
structure Inside (destdir : Bytes) (c : ExportCall) : Prop where
  whole : c.path = destdir ++ join 47 c.names
  below : c.names ≠ []
  plain : ∀ name ∈ c.names, IsName 47 name
  noDots : NoDots c.names

/-- The components of a path inside are the destination's and then the names. -/
theorem Inside.parts {destdir : Bytes} {c : ExportCall} (h : Inside destdir c) :
    Names.parts 47 c.path = Names.parts 47 destdir ++ c.names := by
  rw [h.whole, parts_append_join, parts_join 47 c.names h.plain]

section
variable (cs : Codecs) (flt : Faults) (st : Store)

/-- No entry of the tree has a name that leads elsewhere or a path that does not fit. -/
def PathsInside (root destdir : Bytes) : Prop :=
  ∀ p e, entryAt cs flt st root p = some e → NoDots p ∧ (destdir ++ join 47 p).length < EXPORT_PATH_MAX

/-- An object that is there and passes `cas_tree_check_object`. -/
def ObjectChecked (hash : Bytes) : Prop :=
  ∃ type data, casOpenObject cs flt st hash = .ok (type, data) ∧ casTreeCheckObject false type data hash = .ok

/-- A tree that can be read to the bottom, all of whose objects pass the check. -/
structure TreeChecked (root : Bytes) (depth : Nat) : Prop where
  dirs : ∀ d hash, dirHash cs flt st root d = some hash →
    d.length < depth ∧ ObjectChecked cs flt st hash ∧ ∃ dir, casTreeLoad cs flt st hash = .ok dir
  files : ∀ p e, entryAt cs flt st root p = some e → e.isDir = false →
    ObjectChecked cs flt st e.hash ∧ ∃ data, casOpen cs flt st e.hash = .ok data

end

section
variable {cs : Codecs} {flt : Faults} {st : Store} {xflt : ExportFaults}

theorem exportPath_eq (destdir : Bytes) (names : List Bytes) (name : CStr)
    (h : (destdir ++ join 47 (names ++ [name.bytes])).length < EXPORT_PATH_MAX) :
    exportPath (destdir ++ join 47 names) name = destdir ++ join 47 (names ++ [name.bytes]) := by
  unfold exportPath
  rw [join_concat, ← List.append_assoc] at h ⊢
  apply List.take_of_length_le
  omega

/-- One entry keeps inside when what is below it does. -/
theorem exportEntry_inside {child : List Bytes → Bytes → Bytes → Exporting (Option Bool)} {destdir : Bytes}
    {names : List Bytes} {e : Entry} (hplain : ∀ name ∈ names ++ [e.name.bytes], IsName 47 name)
    (hnoDots : NoDots (names ++ [e.name.bytes]))
    (hfits : (destdir ++ join 47 (names ++ [e.name.bytes])).length < EXPORT_PATH_MAX)
    (hchild : e.isDir = true →
      (child (names ++ [e.name.bytes]) e.hash (destdir ++ join 47 (names ++ [e.name.bytes]))).All (Inside destdir)) :
    (exportEntry cs flt st xflt child names (destdir ++ join 47 names) e).All (Inside destdir) := by
  have hin : ∀ op, Inside destdir ⟨names ++ [e.name.bytes], op, destdir ++ join 47 (names ++ [e.name.bytes])⟩ :=
    fun op => ⟨rfl, by simp, hplain, hnoDots⟩
  unfold exportEntry
  simp only []
  rw [exportPath_eq destdir names e.name hfits]
  split
  · next hdir =>
    rw [all_bind, all_emit]
    refine ⟨hin _, ?_⟩
    split
    · exact all_pure _ _
    · exact hchild hdir
  · split
    · exact all_pure _ _
    · rw [all_bind, all_emit]
      refine ⟨hin _, ?_⟩
      split
      · exact all_pure _ _
      · rw [all_bind, all_emit]
        exact ⟨hin _, all_pure _ _⟩

theorem exportEntries_all {P : ExportCall → Prop} {child : List Bytes → Bytes → Bytes → Exporting (Option Bool)}
    {names : List Bytes} {destdir : Bytes} (es : Dir)
    (h : ∀ e ∈ es, (exportEntry cs flt st xflt child names destdir e).All P) :
    (exportEntries cs flt st xflt child names destdir es).All P := by
  induction es with
  | nil => exact all_pure _ _
  | cons e es ih =>
    unfold exportEntries
    rw [all_bind]
    refine ⟨h e (List.mem_cons_self ..), ?_⟩
    split
    · exact ih fun x hx => h x (List.mem_cons_of_mem _ hx)
    · exact all_pure _ _

/-- **Clean paths keep inside**, whatever fails and however far the export goes. -/
theorem exportTreeR_inside {root destdir : Bytes} (hin : PathsInside cs flt st root destdir) (fuel : Nat)
    (d : List Bytes) (hash : Bytes) (hd : dirHash cs flt st root d = some hash) :
    (exportTreeR cs flt st xflt fuel d hash (destdir ++ join 47 d)).All (Inside destdir) := by
  induction fuel generalizing d hash with
  | zero => exact all_pure _ _
  | succ fuel ih =>
    unfold exportTreeR
    split
    · exact all_pure _ _
    · next dir hload =>
      apply exportEntries_all
      intro e he
      have hat := entryAt_of_mem hd hload he
      obtain ⟨hnoDots, hfits⟩ := hin _ e hat
      apply exportEntry_inside (entryAt_names hat) hnoDots hfits
      intro hdir
      exact ih _ _ (dirHash_concat hd hload he hdir)

/-! ## What an export comes by -/

/-- An entry is exported for, at a path that is in the buffer. -/
def Visits (x : Exporting (Option Bool)) (names : List Bytes) : Prop :=
  ∃ c ∈ x.events, c.names = names ∧ c.path.length < EXPORT_PATH_MAX

theorem exportPath_length (destdir : Bytes) (name : CStr) : (exportPath destdir name).length < EXPORT_PATH_MAX := by
  unfold exportPath EXPORT_PATH_MAX
  rw [List.length_take]
  omega

theorem exportEntries_visits {child : List Bytes → Bytes → Bytes → Exporting (Option Bool)} {names : List Bytes}
    {destdir : Bytes} (es : Dir)
    (h : ∀ e ∈ es, (exportEntry cs flt st xflt child names destdir e).val = some true) :
    (exportEntries cs flt st xflt child names destdir es).val = some true ∧
      ∀ e ∈ es, ∀ c ∈ (exportEntry cs flt st xflt child names destdir e).events,
        c ∈ (exportEntries cs flt st xflt child names destdir es).events := by
  induction es with
  | nil => exact ⟨rfl, by simp⟩
  | cons e es ih =>
    obtain ⟨hval, hevents⟩ := ih fun x hx => h x (List.mem_cons_of_mem _ hx)
    have hfirst := h e (List.mem_cons_self ..)
    unfold exportEntries
    rw [val_bind, events_bind, hfirst]
    refine ⟨hval, ?_⟩
    intro x hx c hc
    rcases List.mem_cons.mp hx with rfl | hx
    · exact List.mem_append_left _ hc
    · exact List.mem_append_right _ (hevents x hx c hc)

/-- An export that nothing fails in. -/
def noExportFaults : ExportFaults := ⟨fun _ => false, fun _ => false⟩

/-- **An export of a tree that can be read** comes by every entry. -/
theorem exportTreeR_visits {root : Bytes} {depth : Nat} (hchecked : TreeChecked cs flt st root depth) (fuel : Nat)
    (d : List Bytes) (hash destdir : Bytes) (hd : dirHash cs flt st root d = some hash)
    (hfuel : depth ≤ d.length + fuel) :
    (exportTreeR cs flt st noExportFaults fuel d hash destdir).val = some true ∧
      ∀ q e, entryAt cs flt st hash q = some e →
        Visits (exportTreeR cs flt st noExportFaults fuel d hash destdir) (d ++ q) := by
  obtain ⟨hdepth, -, dir, hload⟩ := hchecked.dirs d hash hd
  induction fuel generalizing d hash destdir dir with
  | zero => omega
  | succ fuel ih =>
    -- each entry goes through, and what is below it is come by
    have hentry : ∀ e ∈ dir,
        (exportEntry cs flt st noExportFaults (exportTreeR cs flt st noExportFaults fuel) d destdir e).val =
            some true ∧
          Visits (exportEntry cs flt st noExportFaults (exportTreeR cs flt st noExportFaults fuel) d destdir e)
            (d ++ [e.name.bytes]) ∧
          ∀ q x, e.isDir = true → entryAt cs flt st e.hash q = some x →
            Visits (exportEntry cs flt st noExportFaults (exportTreeR cs flt st noExportFaults fuel) d destdir e)
              (d ++ [e.name.bytes] ++ q) := by
      intro e he
      unfold exportEntry
      simp only []
      by_cases hdir : e.isDir = true
      · rw [if_pos hdir]
        have hd' := dirHash_concat hd hload he hdir
        obtain ⟨hdepth', -, dir', hload'⟩ := hchecked.dirs _ _ hd'
        obtain ⟨hval, hvisits⟩ := ih (d ++ [e.name.bytes]) e.hash (exportPath destdir e.name) hd'
          (by rw [List.length_append, List.length_singleton]; omega) hdepth' dir' hload'
        have hok : noExportFaults.mkdir (exportPath destdir e.name) = false := rfl
        rw [val_bind, hok]
        refine ⟨hval, ⟨_, List.mem_cons_self .., rfl, exportPath_length destdir e.name⟩, ?_⟩
        intro q x _ hx
        obtain ⟨c, hc, hnames, hlen⟩ := hvisits q x hx
        exact ⟨c, List.mem_cons_of_mem _ hc, hnames, hlen⟩
      · rw [if_neg hdir]
        obtain ⟨-, data, hopen⟩ := hchecked.files _ e (entryAt_of_mem hd hload he) (Bool.eq_false_of_not_eq_true hdir)
        rw [hopen]
        refine ⟨rfl, ⟨_, List.mem_cons_self .., rfl, exportPath_length destdir e.name⟩, ?_⟩
        intro q x hyes
        exact absurd hyes hdir
    unfold exportTreeR
    rw [hload]
    obtain ⟨hval, hevents⟩ := exportEntries_visits dir fun e he => (hentry e he).1
    refine ⟨hval, ?_⟩
    intro q x hx
    cases q with
    | nil => cases hx
    | cons name q =>
      by_cases hq : q = []
      · subst hq
        obtain ⟨dir', hload', hmem, rfl⟩ := entryIn_some hx
        obtain rfl := Except.ok.inj (hload.symm.trans hload')
        obtain ⟨c, hc, hvisit⟩ := (hentry x hmem).2.1
        exact ⟨c, hevents x hmem c hc, hvisit⟩
      · rw [entryAt_cons _ _ _ hq] at hx
        obtain ⟨e, he, hbelow⟩ := Option.bind_eq_some_iff.mp hx
        obtain ⟨dir', hload', hmem, rfl⟩ := entryIn_some he
        obtain rfl := Except.ok.inj (hload.symm.trans hload')
        by_cases hdir : e.isDir = true
        · rw [if_pos hdir] at hbelow
          obtain ⟨c, hc, hnames, hlen⟩ := (hentry e hmem).2.2 q x hdir hbelow
          exact ⟨c, hevents e hmem c hc, by rw [hnames]; simp, hlen⟩
        · rw [if_neg hdir] at hbelow
          cases hbelow

end

/-- **When an export stays inside.**  Where no name leads elsewhere and every path fits the buffer, whatever
fails and whatever cannot be read; and of a tree that can be read and passes the check, only there. -/
theorem export_inside_iff (cs : Codecs) (flt : Faults) (st : Store) (root destdir : Bytes) :
    (PathsInside cs flt st root destdir →
      ∀ xflt fuel, (exportTree cs flt st xflt fuel root destdir).All (Inside destdir)) ∧
    ∀ depth, TreeChecked cs flt st root depth →
      ((∀ xflt fuel, (exportTree cs flt st xflt fuel root destdir).All (Inside destdir)) ↔
        PathsInside cs flt st root destdir) := by
  have hkeep : PathsInside cs flt st root destdir →
      ∀ xflt fuel, (exportTree cs flt st xflt fuel root destdir).All (Inside destdir) := by
    intro hin xflt fuel
    have hkeeps : (exportTreeR cs flt st xflt fuel [] root (destdir ++ join 47 [])).All (Inside destdir) :=
      exportTreeR_inside hin fuel [] root rfl
    have hroot : destdir ++ join 47 [] = destdir := List.append_nil _
    rw [hroot] at hkeeps
    exact hkeeps
  refine ⟨hkeep, fun depth hchecked => ⟨?_, hkeep⟩⟩
  intro hall p e he
  obtain ⟨-, hvisits⟩ := exportTreeR_visits hchecked depth [] root destdir rfl (by simp)
  obtain ⟨c, hc, hnames, hlen⟩ := hvisits p e he
  have hin := hall noExportFaults depth c hc
  rw [List.nil_append] at hnames
  refine ⟨hnames ▸ hin.noDots, ?_⟩
  rw [hin.whole, hnames] at hlen
  exact hlen

/-! ## A way out -/

/-- The address of the file of one octet. -/
def octetHash : Bytes :=
  toHex (storeLe 32 61882612966255216027670906901656267819725139363167805452996748739993637798582)

/-- A directory with the file as `x`. -/
def xDir : Dir := [childEntry 0o100644#32 'x' octetHash]

def xDirHash : Bytes :=
  toHex (storeLe 32 83311773479373332102630450526839347627304108924717220309027087844753609855058)

/-- A directory with that one as `..`. -/
def dotdotDir : Dir := [⟨0o040755#32, 0, 0, 0, 0, xDirHash, lit ['.', '.']⟩]

def dotdotHash : Bytes :=
  toHex (storeLe 32 37921428959132908718288939853784592051588850497692012052926815830947479566756)

def dotdotTree : Store :=
  ⟨((AList.singleton octetHash ⟨rawFile (tBlob, [1]), 0⟩).insert xDirHash
      ⟨rawFile (tTree, treeSerialize xDir), 0⟩).insert dotdotHash ⟨rawFile (tTree, treeSerialize dotdotDir), 0⟩,
    fun _ => none, none⟩

theorem octetHash_checked : ObjectChecked [] noFaults dotdotTree octetHash :=
  ⟨tBlob, [1], by decide +kernel, by decide +kernel⟩

theorem xDirHash_checked : ObjectChecked [] noFaults dotdotTree xDirHash :=
  ⟨tTree, treeSerialize xDir, by decide +kernel, by decide +kernel⟩

theorem dotdotHash_checked : ObjectChecked [] noFaults dotdotTree dotdotHash :=
  ⟨tTree, treeSerialize dotdotDir, by decide +kernel, by decide +kernel⟩

theorem xDir_loads : casTreeLoad [] noFaults dotdotTree xDirHash = .ok xDir :=
  casTreeLoad_oneEntry [] dotdotTree (by decide) rfl rfl
    (Entry.Printable.mk (lowerHash_toHex _ (length_storeLe ..)) (by decide)).written (by decide)

theorem dotdotDir_loads : casTreeLoad [] noFaults dotdotTree dotdotHash = .ok dotdotDir :=
  casTreeLoad_oneEntry [] dotdotTree (by decide) rfl rfl
    (Entry.Printable.mk (lowerHash_toHex _ (length_storeLe ..)) (by decide)).written (by decide)

theorem entryIn_dotdot {name : Bytes} {e : Entry} (h : entryIn [] noFaults dotdotTree dotdotHash name = some e) :
    e.isDir = true ∧ e.hash = xDirHash := by
  obtain ⟨dir, hload, hmem, -⟩ := entryIn_some h
  obtain rfl := Except.ok.inj (dotdotDir_loads.symm.trans hload)
  obtain rfl := List.mem_singleton.mp hmem
  exact ⟨by decide, rfl⟩

theorem entryIn_x {name : Bytes} {e : Entry} (h : entryIn [] noFaults dotdotTree xDirHash name = some e) :
    e.isDir = false ∧ e.hash = octetHash := by
  obtain ⟨dir, hload, hmem, -⟩ := entryIn_some h
  obtain rfl := Except.ok.inj (xDir_loads.symm.trans hload)
  obtain rfl := List.mem_singleton.mp hmem
  exact ⟨by decide, rfl⟩

/-- The tree is as any other for `cas_tree_check_object`. -/
theorem dotdotTree_checked : TreeChecked [] noFaults dotdotTree dotdotHash 2 := by
  constructor
  · intro d hash hd
    cases d with
    | nil =>
      obtain rfl := Option.some.inj hd
      exact ⟨by decide, dotdotHash_checked, _, dotdotDir_loads⟩
    | cons name d =>
      obtain ⟨e, he, hbelow⟩ := Option.bind_eq_some_iff.mp hd
      obtain ⟨hdir, hhash⟩ := entryIn_dotdot he
      rw [if_pos hdir, hhash] at hbelow
      cases d with
      | nil =>
        obtain rfl := Option.some.inj hbelow
        exact ⟨by simp, xDirHash_checked, _, xDir_loads⟩
      | cons name' d =>
        obtain ⟨x, hx, hdeeper⟩ := Option.bind_eq_some_iff.mp hbelow
        rw [(entryIn_x hx).1] at hdeeper
        cases hdeeper
  · intro p e he hfile
    cases p with
    | nil => cases he
    | cons name p =>
      by_cases hp : p = []
      · subst hp
        rw [entryAt_single] at he
        rw [(entryIn_dotdot he).1] at hfile
        cases hfile
      · rw [entryAt_cons _ _ _ hp] at he
        obtain ⟨x, hx, hbelow⟩ := Option.bind_eq_some_iff.mp he
        obtain ⟨hdir, hhash⟩ := entryIn_dotdot hx
        rw [if_pos hdir, hhash] at hbelow
        cases p with
        | nil => exact absurd rfl hp
        | cons name' p =>
          by_cases hp' : p = []
          · subst hp'
            rw [entryAt_single] at hbelow
            rw [(entryIn_x hbelow).2]
            exact ⟨octetHash_checked, [1], by decide +kernel⟩
          · rw [entryAt_cons _ _ _ hp'] at hbelow
            obtain ⟨y, hy, hdeeper⟩ := Option.bind_eq_some_iff.mp hbelow
            rw [(entryIn_x hy).1] at hdeeper
            cases hdeeper

theorem export_inside_dotdot :
    (∀ xflt fuel, (exportTree [] noFaults dotdotTree xflt fuel dotdotHash [100]).All (Inside [100])) ↔
      PathsInside [] noFaults dotdotTree dotdotHash [100] :=
  (export_inside_iff [] noFaults dotdotTree dotdotHash [100]).2 2 dotdotTree_checked

/-- **A file goes beside the destination**: the export into `d` opens `d/../x` for writing. -/
theorem export_leaves : ¬ ∀ (cs : Codecs) (flt : Faults) (st : Store) (root destdir : Bytes) (depth : Nat),
    TreeChecked cs flt st root depth → ∀ xflt fuel, (exportTree cs flt st xflt fuel root destdir).All
      (Inside destdir) := by
  intro hall
  have hopened : (⟨[[46, 46], [120]], .fopen [1], (lit ['d', '/', '.', '.', '/', 'x']).bytes⟩ : ExportCall) ∈
      (exportTree [] noFaults dotdotTree noExportFaults 2 dotdotHash [100]).events := by decide +kernel
  have hin := hall [] noFaults dotdotTree dotdotHash [100] 2 dotdotTree_checked noExportFaults 2 _ hopened
  exact (hin.noDots [46, 46] (List.mem_cons_self ..)).2 rfl

end Smolvfs
