import Smolvfs.Castool
import Smolvfs.Import
import Smolvfs.Puts
import Smolvfs.SnapTree
import Smolvfs.TreeText

/-!
# What the edits come to

`castool_edits_iff`: a run of `cmd_import` or `cmd_rm` that does not commit leaves every root
file as it was.  One that commits has made the map from names to entries that it was asked
for, over the tree that the ref named or over nothing when there was no ref, exactly when
the root file, if there is one, could be read, the names of the files fit an entry, and
the depot has room for the tree at its address.  A root file that cannot be read is taken
for no ref, and the tree that it named is lost to the ref (`import_over_empty_root`).
-/

namespace Smolvfs

open Octets Keyed

/-- The entry of a name. -/
abbrev byName (dir : Dir) : CStr → Option Entry := lookup Entry.name dir

/-! ## What the put of a file adds -/

section
variable {cs : Codecs}

/-- A file of the depot is read, if at all, as of the type in its header. -/
theorem looseRead_type (framed : Bool) {region hdr : Bytes} {type : CStr} {len : Nat} {obj : Object}
    (hh : formatHeader type len = some hdr)
    (h : looseRead cs (region ++ mkTrailer (framedMagic framed) hdr) = .ok obj) : obj.1 = type := by
  unfold looseRead at h
  split at h
  · cases h
  · rw [looseDecode_written cs false framed region hdr type len hh] at h
    split at h
    · cases h
    · split at h
      · cases h
      · next n _ =>
        cases hdec : casCodecRegionDecode cs false region framed n with
        | error rc =>
          rw [hdec] at h
          cases h
        | ok data =>
          rw [hdec] at h
          obtain rfl := Except.ok.inj h
          rfl

/-- Nothing where there is something, and otherwise one file, which is not read as of another type. -/
def AddsAt (cs : Codecs) (type : CStr) (st st' : Store) (hash : Bytes) : Prop :=
  (¬ Fresh st hash ∧ st' = st) ∨
    (Fresh st hash ∧ ∃ f, st' = st.setLoose hash f ∧ ∀ obj, looseRead cs f.data = .ok obj → obj.1 = type)

/-- A put under any codec, whatever the codec does. -/
theorem casPutObjectZ_addsAt {cfg : CompressConfig} {flt : Faults} {st st' : Store} {type : CStr} {codec : Int}
    {data hash : Bytes} {now : Int} (h : casPutObjectZ cs cfg flt st type codec data now = .ok (st', hash)) :
    hash = toHex (objBin (type, data)) ∧ AddsAt cs type st st' hash := by
  unfold casPutObjectZ at h
  split at h
  · cases h
  · next addr hh =>
    have haddr := casHashObject_ok hh
    have hv : validHash addr = true := haddr ▸ validHash_digest2 _ _
    split at h
    · next hex =>
      obtain ⟨rfl, rfl⟩ := Prod.mk.inj (Except.ok.inj h)
      refine ⟨haddr, .inl ⟨fun hf => ?_, rfl⟩⟩
      rw [(fresh_iff st addr hv).mp hf] at hex
      cases hex
    · next hex =>
      have hf : Fresh st addr := (fresh_iff st addr hv).mpr (by simpa using hex)
      split at h
      · next payload _ =>
        cases hput : casPutPrecompressed flt st type codec payload data.length addr now with
        | error rc =>
          rw [hput] at h
          cases h
        | ok st1 =>
          rw [hput] at h
          obtain ⟨rfl, rfl⟩ := Prod.mk.inj (Except.ok.inj h)
          obtain ⟨hdr, hform, rfl⟩ :=
            casPutPrecompressed_fresh flt st st1 type codec payload addr data.length now hput hf
          exact ⟨haddr, .inr ⟨hf, _, rfl, fun obj hread => looseRead_type true hform hread⟩⟩
      · cases hput : casPutObjectAt flt st type data addr now with
        | error rc =>
          rw [hput] at h
          cases h
        | ok st1 =>
          rw [hput] at h
          obtain ⟨rfl, rfl⟩ := Prod.mk.inj (Except.ok.inj h)
          obtain ⟨-, hdr, hform, rfl⟩ := casPutObjectAt_fresh flt st st1 type data addr now hput hf
          exact ⟨haddr, .inr ⟨hf, _, rfl, fun obj hread => looseRead_type false hform hread⟩⟩

/-- A depot to which objects of one type have been added at addresses. -/
structure ObjectsAdded (cs : Codecs) (type : CStr) (st0 : Store) (addrs : List Bytes) (st : Store) : Prop where
  fresh : ∀ hash, Fresh st hash ↔ Fresh st0 hash ∧ hash ∉ addrs
  kept : ∀ hash, ¬ Fresh st0 hash → casOpenObject cs noFaults st hash = casOpenObject cs noFaults st0 hash
  new : ∀ hash ∈ addrs, Fresh st0 hash → ∀ obj, casOpenObject cs noFaults st hash = .ok obj → obj.1 = type

theorem ObjectsAdded.none (type : CStr) (st : Store) : ObjectsAdded cs type st [] st where
  fresh hash := by simp
  kept _ _ := rfl
  new hash hm := by cases hm

theorem fresh_setLoose (st : Store) (hash other : Bytes) (f : LooseFile) :
    Fresh (st.setLoose hash f) other ↔ Fresh st other ∧ other ≠ hash := by
  unfold Fresh Store.hasLoose
  by_cases hne : other = hash
  · subst hne
    simp
  · rw [setLoose_lookup_ne st hash other f hne, setLoose_packed]
    simp [hne]

/-- **One object more.** -/
theorem ObjectsAdded.step {type : CStr} {st0 st st' : Store} {addrs : List Bytes} {hash : Bytes}
    (h : ObjectsAdded cs type st0 addrs st) (hv : validHash hash = true) (hadd : AddsAt cs type st st' hash) :
    ObjectsAdded cs type st0 (addrs ++ [hash]) st' := by
  rcases hadd with ⟨hno, rfl⟩ | ⟨hf, f, rfl, htype⟩
  · refine ⟨fun other => ?_, h.kept, fun other hm hf => ?_⟩
    · rw [h.fresh, List.mem_append, List.mem_singleton, not_or]
      constructor
      · rintro ⟨hf, hm⟩
        refine ⟨hf, hm, ?_⟩
        rintro rfl
        exact hno ((h.fresh other).mpr ⟨hf, hm⟩)
      · rintro ⟨hf, hm, -⟩
        exact ⟨hf, hm⟩
    · refine h.new other ?_ hf
      rcases List.mem_append.mp hm with hm | hm
      · exact hm
      · by_contra hm'
        rw [List.mem_singleton.mp hm] at hf hm'
        exact hno ((h.fresh hash).mpr ⟨hf, hm'⟩)
  · have hf0 := (h.fresh hash).mp hf
    refine ⟨fun other => ?_, fun other hno => ?_, fun other hm hfo obj hopen => ?_⟩
    · rw [fresh_setLoose, h.fresh, List.mem_append, List.mem_singleton, not_or, and_assoc]
    · have hne : other ≠ hash := by
        rintro rfl
        exact hno hf0.1
      rw [casOpenObject_setLoose_ne cs noFaults st hash other f hne, h.kept other hno]
    · by_cases hne : other = hash
      · subst hne
        rw [casOpenObject_of_loose cs (st.setLoose other f) other f hv hf.2 (setLoose_lookup_self st other f)] at hopen
        exact htype obj hopen
      · rw [casOpenObject_setLoose_ne cs noFaults st hash other f hne] at hopen
        exact h.new other (by simpa [hne] using hm) hfo obj hopen

end

/-! ## What is asked for -/

/-- The two commands. -/
inductive EditCmd
  | importing | removing

section
variable (host : Host)

/-- The address of a file's contents as an object. -/
def blobAddress (data : Bytes) : Bytes := toHex (objBin (tBlob, data))

/-- The entry of a file under its whole base name. -/
def fileEntry (path : CStr) (data : Bytes) : Entry := entryOf host path (blobAddress data) (baseName path)

/-- Each base name has the entry of the last file of that name, and all others are as they were. -/
structure Imported (al : List CStr) (old goal : Dir) : Prop where
  files : ∀ pre path post, al = pre ++ path :: post → (∀ q ∈ post, baseName q ≠ baseName path) →
    ∃ data, host.file path.bytes = some data ∧ byName goal (baseName path) = some (fileEntry host path data)
  others : ∀ name, (∀ path ∈ al, baseName path ≠ name) → byName goal name = byName old name

/-- The names are gone, and all others are as they were. -/
structure Removed (al : List CStr) (old goal : Dir) : Prop where
  gone : ∀ name ∈ al, byName goal name = none
  others : ∀ name, name ∉ al → byName goal name = byName old name

def EditCmd.Edits (cmd : EditCmd) (al : List CStr) (old goal : Dir) : Prop :=
  match cmd with
  | .importing => Imported host al old goal
  | .removing => Removed al old goal

/-- The ref of a command line and its arguments. -/
def EditCmd.target (cmd : EditCmd) (argv : List CStr) : Option (Bytes × List CStr) :=
  match cmd with
  | .importing => refAndArgs host (importPolicy argv).2
  | .removing => refAndArgs host argv

/-- The files a command reads. -/
def EditCmd.files (cmd : EditCmd) (al : List CStr) : List CStr :=
  match cmd with
  | .importing => al
  | .removing => []

/-- The addresses of their contents. -/
def EditCmd.addresses (cmd : EditCmd) (al : List CStr) : List Bytes :=
  (cmd.files al).filterMap fun path => (host.file path.bytes).map blobAddress

variable (cs : Codecs) (cfg : CompressConfig) (flt : Faults)

def EditCmd.run (cmd : EditCmd) (ct : CasTree) (argv : List CStr) : Nat × CasTree :=
  match cmd with
  | .importing => cmdImport host cs cfg flt ct argv
  | .removing => cmdRm host cs flt ct argv

variable (ct : CasTree) (refname : Bytes)

/-- The tree a ref names, as far as it can be read, or nothing where there is no ref. -/
def PreviousTree (old : Dir) : Prop :=
  (∃ hash, casTreeRefRead flt ct.refs refname = .ok hash ∧ casTreeLoad cs flt ct.store hash = .ok old) ∨
    (refFile ct.refs (refname ++ dotRoot) = none ∧ old = [])

variable (cmd : EditCmd) (al : List CStr)

/-- The ref's new root is that of the previous tree with the command's edits, and the blobs are there. -/
def EditsExactly (ct' : CasTree) : Prop :=
  ∃ old root goal, PreviousTree cs flt ct refname old ∧ casTreeRefRead noFaults ct'.refs refname = .ok root ∧
    casTreeLoad cs noFaults ct'.store root = .ok goal ∧ cmd.Edits host al old goal ∧
    ∀ hash ∈ cmd.addresses host al, casExists ct'.store hash = true

/-- The address of a directory's text. -/
def dirAddress (dir : Dir) : Bytes := toHex (objBin (tTree, treeSerialize dir))

/-- The depot can be given the directory: at its address there is nothing, nor does one of the addresses collide with
it, and the text is within the reader's limits, every line of it; or else the directory is what is there. -/
def HasRoom (st : Store) (addrs : List Bytes) (dir : Dir) : Prop :=
  (Fresh st (dirAddress dir) ∧ dirAddress dir ∉ addrs ∧ RawFits tTree (treeSerialize dir) ∧ ∀ e ∈ dir, e.Written) ∨
    (¬ Fresh st (dirAddress dir) ∧ casTreeLoad cs noFaults st (dirAddress dir) = .ok dir)

/-- A root file that is there is read, the names of the files fit an entry, and there is room for the tree. -/
structure EditSafe : Prop where
  readable : (refFile ct.refs (refname ++ dotRoot)).isSome = true →
    ∃ hash, casTreeRefRead flt ct.refs refname = .ok hash
  names : ∀ path ∈ cmd.files al, (baseName path).bytes.length ≤ CAS_TREE_NAME_MAX
  room : ∀ old goal, PreviousTree cs flt ct refname old → NamesAscending goal → cmd.Edits host al old goal →
    HasRoom cs ct.store (cmd.addresses host al) goal

/-! ## The edits as a map -/

/-- The name an argument is about. -/
def EditCmd.key (cmd : EditCmd) (arg : CStr) : CStr :=
  match cmd with
  | .importing => baseName arg
  | .removing => arg

/-- What the name is to have. -/
def EditCmd.value (cmd : EditCmd) (arg : CStr) : Option Entry :=
  match cmd with
  | .importing => (host.file arg.bytes).map (fileEntry host arg)
  | .removing => none

variable {host cs flt cmd al} {old goal : Dir}

/-- What is asked for is that the arguments are written one after another. -/
theorem EditCmd.Edits.writeAll (h : cmd.Edits host al old goal) :
    byName goal = writeAll cmd.key (cmd.value host) al (byName old) := by
  refine writtenOver_iff.mp ?_
  cases cmd with
  | importing =>
    refine ⟨fun pre path post hal hpost => ?_, h.others⟩
    obtain ⟨data, hdata, hentry⟩ := h.files pre path post hal hpost
    show byName goal (baseName path) = (host.file path.bytes).map (fileEntry host path)
    rw [hentry, hdata]
    rfl
  | removing =>
    refine ⟨fun pre name post hal _ => h.gone name (by simp [hal]), fun name hno => h.others name ?_⟩
    exact fun hm => hno name hm rfl

theorem EditCmd.edits_of_writeAll (hread : ∀ path ∈ cmd.files al, (host.file path.bytes).isSome = true)
    (h : byName goal = Keyed.writeAll cmd.key (cmd.value host) al (byName old)) : cmd.Edits host al old goal := by
  obtain ⟨hlast, hothers⟩ := writtenOver_iff.mpr h
  cases cmd with
  | importing =>
    refine ⟨fun pre path post hal hpost => ?_, hothers⟩
    obtain ⟨data, hdata⟩ := Option.isSome_iff_exists.mp (hread path (by simp [EditCmd.files, hal]))
    refine ⟨data, hdata, (hlast pre path post hal hpost).trans ?_⟩
    show (host.file path.bytes).map (fileEntry host path) = _
    rw [hdata]
    rfl
  | removing =>
    refine ⟨fun name hm => ?_, fun name hno => hothers name fun arg harg heq => hno (heq ▸ harg)⟩
    obtain ⟨pre, arg, post, hal, hk, hpost⟩ := exists_last EditCmd.removing.key ⟨name, hm, rfl⟩
    have hval := hlast pre arg post hal (by rw [hk]; exact hpost)
    rw [hk] at hval
    exact hval

/-- An ascending directory is known by its entries' names. -/
theorem eq_of_byName {a b : Dir} (ha : NamesAscending a) (hb : NamesAscending b) (h : byName a = byName b) : a = b := by
  have hda : Distinct Entry.name a := ha.nodup
  have hdb : Distinct Entry.name b := hb.nodup
  refine namesAscending_ext a b ha hb fun e => ?_
  have hla := lookup_eq_some hda e.name e
  have hlb := lookup_eq_some hdb e.name e
  rw [show lookup Entry.name a = lookup Entry.name b from h, hlb] at hla
  simpa using hla.symm

end

/-! ## The loops -/

section
variable {host : Host} {cs : Codecs} {cfg : CompressConfig} {flt : Faults}

/-- A file that is imported: its blob is put, and its name gets its entry. -/
theorem importFile_some {policy : Policy} {i : Nat} {path : CStr} {st st' : Store} {dir dir' : Dir}
    (h : importFile host cs cfg flt policy i path st dir = (st', some dir')) (hd : Distinct Entry.name dir)
    (hlen : (baseName path).bytes.length ≤ CAS_TREE_NAME_MAX) :
    ∃ data, host.file path.bytes = some data ∧ AddsAt cs tBlob st st' (blobAddress data) ∧
      Distinct Entry.name dir' ∧
      byName dir' = Function.update (byName dir) (baseName path) (some (fileEntry host path data)) := by
  have hname : CStr.ofBuf ((baseName path).bytes.take CAS_TREE_NAME_MAX) = baseName path := by
    rw [List.take_of_length_le hlen, CStr.ofBuf_bytes]
  unfold importFile at h
  split at h
  · cases h
  · next data hdata =>
    split at h
    · cases h
    · next st1 bhash hput =>
      obtain ⟨rfl, hadd⟩ := casPutObjectZ_addsAt hput
      simp only [hname] at h
      split at h
      · cases h
      · next out hout =>
        obtain ⟨rfl, hsome⟩ := Prod.mk.inj h
        obtain rfl := Option.some.inj hsome
        obtain ⟨-, rfl⟩ := casTreeDirAdd_spec _ _ out _ hout
        obtain ⟨hd1, hby⟩ := takeOut_getD (baseName path) hd
        have he : (fileEntry host path data).name = baseName path := by
          unfold fileEntry entryOf
          split <;> rfl
        -- no entry of the name is left, so the new one is the only one
        have hno : ∀ e ∈ (dropEntry dir (baseName path)).getD dir, e.name ≠ (fileEntry host path data).name := by
          rw [he]
          refine (lookup_eq_none Entry.name _ _).mp ?_
          show lookup Entry.name ((takeOut Entry.name dir (baseName path)).getD dir) _ = none
          rw [hby, Function.update_self]
        refine ⟨data, hdata, hadd, hd1.append hno, ?_⟩
        have happ := lookup_append hd1 hno
        rw [he, hby, Function.update_idem] at happ
        exact happ

/-- **The loop of an import** writes the entries one after another, and adds the blobs. -/
theorem importFiles_some {policy : Policy} {st0 : Store} (al : List CStr) (i : Nat) (st st' : Store) (dir dir' : Dir)
    (pre : List Bytes) (hpre : ObjectsAdded cs tBlob st0 pre st) (hd : Distinct Entry.name dir)
    (hlen : ∀ path ∈ al, (baseName path).bytes.length ≤ CAS_TREE_NAME_MAX)
    (h : importFiles host cs cfg flt policy i al st dir = (st', some dir')) :
    ObjectsAdded cs tBlob st0 (pre ++ EditCmd.importing.addresses host al) st' ∧ Distinct Entry.name dir' ∧
      (∀ path ∈ al, (host.file path.bytes).isSome = true) ∧
      byName dir' = writeAll EditCmd.importing.key (EditCmd.importing.value host) al (byName dir) := by
  induction al generalizing i st dir pre with
  | nil =>
    obtain ⟨rfl, hsome⟩ := Prod.mk.inj h
    obtain rfl := Option.some.inj hsome
    refine ⟨?_, hd, by simp, rfl⟩
    show ObjectsAdded cs tBlob st0 (pre ++ []) st
    rwa [List.append_nil]
  | cons path al ih =>
    unfold importFiles at h
    split at h
    · cases h
    · next st1 dir1 hfile =>
      obtain ⟨data, hdata, hadd, hd1, hby⟩ := importFile_some hfile hd (hlen path (by simp))
      have hstep := hpre.step (validHash_digest2 _ _ : validHash (blobAddress data) = true) hadd
      obtain ⟨hall, hd', hread, hby'⟩ := ih (i + 1) st1 dir1 (pre ++ [blobAddress data]) hstep hd1
        (fun q hq => hlen q (by simp [hq])) h
      have haddrs : EditCmd.importing.addresses host (path :: al) =
          blobAddress data :: EditCmd.importing.addresses host al := by
        unfold EditCmd.addresses EditCmd.files
        rw [List.filterMap_cons, hdata]
        rfl
      refine ⟨?_, hd', ?_, ?_⟩
      · rw [haddrs, List.append_cons]
        exact hall
      · rintro q hq
        rcases List.mem_cons.mp hq with rfl | hq
        · rw [hdata]
          rfl
        · exact hread q hq
      · have hval : EditCmd.importing.value host path = some (fileEntry host path data) := by
          show (host.file path.bytes).map (fileEntry host path) = _
          rw [hdata]
          rfl
        rw [hby', hby, ← hval]
        rfl

/-- **The loop of a removal** takes the names out one after another. -/
theorem rmNames_spec (host : Host) (al : List CStr) (dir : Dir) (removed : Nat) (hd : Distinct Entry.name dir) :
    Distinct Entry.name (rmNames al dir removed).1 ∧
      byName (rmNames al dir removed).1 =
        writeAll EditCmd.removing.key (EditCmd.removing.value host) al (byName dir) := by
  induction al generalizing dir removed with
  | nil => exact ⟨hd, rfl⟩
  | cons name al ih =>
    obtain ⟨hd1, hby⟩ := takeOut_getD name hd
    unfold rmNames dropEntry
    cases ht : takeOut Entry.name dir name with
    | none =>
      obtain ⟨hd', hby'⟩ := ih dir removed hd
      refine ⟨hd', hby'.trans ?_⟩
      rw [ht] at hby
      show writeAll _ _ al (byName dir) = writeAll _ _ al (Function.update (byName dir) name none)
      rw [← hby]
      rfl
    | some dir1 =>
      rw [ht] at hd1 hby
      obtain ⟨hd', hby'⟩ := ih dir1 (removed + 1) hd1
      refine ⟨hd', hby'.trans ?_⟩
      show writeAll _ _ al (byName dir1) = writeAll _ _ al (Function.update (byName dir) name none)
      rw [← hby]
      rfl

/-! ## Storing the tree -/

/-- A text reads back as its directory exactly when every line of it does. -/
theorem treeTextLoad_serialize_iff {dir : Dir} (hs : NamesAscending dir) :
    treeTextLoad false (treeSerialize dir) = .ok dir ↔ ∀ e ∈ dir, e.Written := by
  refine ⟨fun hload => ?_, fun hw => treeTextLoad_written dir hw hs⟩
  have hver : treeTextVerify false (treeSerialize dir) = .ok := by
    unfold treeTextVerify
    rw [hload]
    simp
  obtain ⟨out, hs', hw, htext⟩ := (treeTextVerify_iff _).mp hver
  rw [htext, treeTextLoad_written out hw hs'] at hload
  obtain rfl := Except.ok.inj hload
  exact hw

theorem casTreeStore_put {st st' : Store} {dir : Dir} {now : Int} {root : Bytes}
    (h : casTreeStore flt st false dir now = .ok (st', root)) :
    casPutObject flt st tTree (treeSerialize (sortEntries dir)) now = .ok (st', root) := by
  unfold casTreeStore at h
  dsimp only at h
  split at h
  · cases h
  · split at h
    · cases h
    · exact h

/-- What a stored directory comes to. -/
theorem casTreeStore_text (cs : Codecs) {st st' : Store} {dir : Dir} {now : Int} {root : Bytes}
    (h : casTreeStore flt st false dir now = .ok (st', root)) :
    root = dirAddress (sortEntries dir) ∧ NamesAscending (sortEntries dir) ∧ validHash root = true ∧
      ((¬ Fresh st root ∧ st' = st) ∨ (Fresh st root ∧ ∃ f, st' = st.setLoose root f ∧
        ReadsIff cs f.data (tTree, treeSerialize (sortEntries dir)) (RawFits tTree (treeSerialize (sortEntries dir))))) := by
  obtain ⟨haddr, hs, hput⟩ := casTreeStore_putAt cs h
  refine ⟨haddr, hs, hput.valid, ?_⟩
  by_cases hf : Fresh st root
  · obtain ⟨hdr, hform, -, rfl⟩ := casPutObject_fresh flt st st' tTree _ root now (casTreeStore_put h) hf
    exact .inr ⟨hf, _, rfl, readsIff_raw cs tTree _ hdr hform⟩
  · rcases hput.cases with h' | ⟨hf', -⟩
    · exact .inl h'
    · exact absurd hf' hf

/-- **The directory loads from its address** exactly when the depot had room for it. -/
theorem casTreeLoad_stored_iff {st0 st st' : Store} {addrs : List Bytes} {dir : Dir} {now : Int} {root : Bytes}
    (hadd : ObjectsAdded cs tBlob st0 addrs st) (h : casTreeStore flt st false dir now = .ok (st', root)) :
    casTreeLoad cs noFaults st' root = .ok (sortEntries dir) ↔ HasRoom cs st0 addrs (sortEntries dir) := by
  obtain ⟨hroot, hs, hv, hcases⟩ := casTreeStore_text cs h
  unfold HasRoom
  rw [← hroot]
  by_cases hf0 : Fresh st0 (root)
  · simp only [hf0, true_and, not_true_eq_false, false_and, or_false]
    by_cases hm : root ∈ addrs
    · -- a blob with the address of the tree: what is there is no tree
      have hno : ¬ Fresh st (root) := fun hf => ((hadd.fresh _).mp hf).2 hm
      obtain ⟨-, rfl⟩ := hcases.resolve_right fun hr => hno hr.1
      simp only [hm, not_true_eq_false, false_and, iff_false]
      intro hload
      unfold casTreeLoad at hload
      split at hload
      · cases hload
      · next type data hopen =>
        have htype : type = tBlob := hadd.new _ hm hf0 _ hopen
        rw [htype, if_neg (by decide), if_neg (by decide)] at hload
        cases hload
    · have hf : Fresh st (root) := (hadd.fresh _).mpr ⟨hf0, hm⟩
      obtain ⟨-, f, rfl, hreads⟩ := hcases.resolve_left fun hl => hl.1 hf
      have hopen := casOpenObject_of_loose cs (st.setLoose _ f) _ f hv hf.2 (setLoose_lookup_self st _ f)
      simp only [hm, not_false_eq_true, true_and]
      unfold casTreeLoad
      by_cases hfits : RawFits tTree (treeSerialize (sortEntries dir))
      · rw [hopen, hreads.1 hfits]
        simp only [if_true, hfits, true_and]
        exact treeTextLoad_serialize_iff hs
      · rw [hopen, hreads.2 hfits]
        simp [hfits]
  · have hno : ¬ Fresh st (root) := fun hf => hf0 ((hadd.fresh _).mp hf).1
    obtain ⟨-, rfl⟩ := hcases.resolve_right fun hr => hno hr.1
    simp only [hf0, false_and, not_false_eq_true, true_and, false_or]
    unfold casTreeLoad
    rw [hadd.kept _ hf0]

/-! ## A run -/

/-- What the end of a command comes to, by its exit status. -/
theorem storeAndCommit_cases (host : Host) (flt : Faults) (ct : CasTree) (refname : Bytes) (dir : Dir) (i : Nat) (comment : Bytes) :
    let r := storeAndCommit host flt ct refname dir i comment
    (r.1 ≠ 0 ∧ RootsKept ct.refs r.2.refs) ∨
      (r.1 = 0 ∧ ∃ root, (∃ now, casTreeStore flt ct.store false dir now = .ok (r.2.store, root)) ∧
        validRefName refname = true ∧ validHash root = true ∧
        refFile r.2.refs (refname ++ dotRoot) = some (root ++ [10])) := by
  unfold storeAndCommit
  split
  · exact .inl ⟨by simp, RootsKept.refl _⟩
  · next st root hstore =>
    have hcommit := refCommit_cases host.fails host.kept ct.refs refname root comment host.timeS host.timeNs
    simp only [] at hcommit ⊢
    split
    · next refs hrefs =>
      rw [hrefs] at hcommit
      obtain ⟨-, hn, hv, hfile⟩ := hcommit.resolve_right fun h => h.1 rfl
      exact .inr ⟨rfl, root, ⟨_, hstore⟩, hn, hv, hfile⟩
    · next rc refs hne hrefs =>
      rw [hrefs] at hcommit
      rcases hcommit with ⟨hok, -⟩ | ⟨-, hkept⟩
      · exact absurd hok hne
      · exact .inl ⟨by simp, hkept⟩

/-- What a run that commits went through, from the directory it began with to the root it made. -/
structure Ran (host : Host) (cs : Codecs) (cfg : CompressConfig) (flt : Faults) (cmd : EditCmd) (ct ct' : CasTree)
    (refname : Bytes) (al : List CStr) (dir dir' : Dir) (st : Store) (newRoot : Bytes) : Prop where
  begun : (∃ hash, casTreeRefRead flt ct.refs refname = .ok hash ∧ casTreeLoad cs flt ct.store hash = .ok dir) ∨
    ((∃ rc, casTreeRefRead flt ct.refs refname = .error rc) ∧ dir = [])
  edited : match cmd with
    | .importing => ∃ policy, importFiles host cs cfg flt policy 0 al ct.store dir = (st, some dir')
    | .removing => dir' = (rmNames al dir 0).1 ∧ st = ct.store
  stored : ∃ now, casTreeStore flt st false dir' now = .ok (ct'.store, newRoot)
  name : validRefName refname = true
  root : validHash newRoot = true
  committed : refFile ct'.refs (refname ++ dotRoot) = some (newRoot ++ [10])

/-- **A run** leaves every root file as it was, or commits. -/
theorem EditCmd.run_cases (host : Host) (cs : Codecs) (cfg : CompressConfig) (flt : Faults) (cmd : EditCmd) (ct : CasTree) (argv : List CStr) :
    let r := cmd.run host cs cfg flt ct argv
    (r.1 ≠ 0 ∧ RootsKept ct.refs r.2.refs) ∨
      (r.1 = 0 ∧ ∃ refname al dir dir' st newRoot, cmd.target host argv = some (refname, al) ∧
        Ran host cs cfg flt cmd ct r.2 refname al dir dir' st newRoot) := by
  have hstop : ∀ st : Store, (1, (⟨st, ct.refs⟩ : CasTree)).1 ≠ 0 ∧ RootsKept ct.refs (⟨st, ct.refs⟩ : CasTree).refs :=
    fun _ => ⟨by simp, RootsKept.refl _⟩
  cases cmd with
  | importing =>
    simp only [EditCmd.run, EditCmd.target]
    unfold cmdImport
    split
    · exact .inl (hstop ct.store)
    · next refname al htarget =>
      split
      · exact .inl (hstop ct.store)
      · simp only []
        split
        · exact .inl (hstop ct.store)
        · next dir hloaded =>
          split
          · next st hloop => exact .inl (hstop st)
          · next st dir' hloop =>
            rcases storeAndCommit_cases host flt ⟨st, ct.refs⟩ refname dir' al.length
              (lit ['i', 'm', 'p', 'o', 'r', 't']).bytes with h | ⟨h0, root, hstore, hn, hv, hfile⟩
            · exact .inl h
            · refine .inr ⟨h0, refname, al, dir, dir', st, root, htarget, ?_, ⟨_, hloop⟩, hstore, hn, hv, hfile⟩
              split at hloaded
              · next hash hread => exact .inl ⟨hash, hread, hloaded⟩
              · next rc hread => exact .inr ⟨⟨rc, hread⟩, (Except.ok.inj hloaded).symm⟩
  | removing =>
    simp only [EditCmd.run, EditCmd.target]
    unfold cmdRm
    split
    · exact .inl (hstop ct.store)
    · next refname al htarget =>
      split
      · exact .inl (hstop ct.store)
      · next hash hread =>
        split
        · exact .inl (hstop ct.store)
        · next dir hload =>
          simp only []
          split
          · exact .inl (hstop ct.store)
          · rcases storeAndCommit_cases host flt ct refname (rmNames al dir 0).1 0
              (lit ['r', 'm']).bytes with h | ⟨h0, root, hstore, hn, hv, hfile⟩
            · exact .inl h
            · exact .inr ⟨h0, refname, al, dir, _, ct.store, root, htarget, .inl ⟨hash, hread, hload⟩, ⟨rfl, rfl⟩,
                hstore, hn, hv, hfile⟩

section
variable {cmd : EditCmd} {ct ct' : CasTree} {refname newRoot : Bytes} {al : List CStr} {dir dir' : Dir} {st : Store}

/-- The names in a previous tree are distinct. -/
theorem PreviousTree.distinct {old : Dir} (h : PreviousTree cs flt ct refname old) : Distinct Entry.name old := by
  rcases h with ⟨hash, -, hload⟩ | ⟨-, rfl⟩
  · exact (casTreeLoad_names hload).1.nodup
  · exact List.nodup_nil

variable (h : Ran host cs cfg flt cmd ct ct' refname al dir dir' st newRoot)

include h

theorem Ran.distinct : Distinct Entry.name dir := by
  rcases h.begun with ⟨hash, -, hload⟩ | ⟨-, rfl⟩
  · exact (casTreeLoad_names hload).1.nodup
  · exact List.nodup_nil

/-- The previous tree is what the run began with. -/
theorem Ran.previous {old : Dir} (hp : PreviousTree cs flt ct refname old) : old = dir := by
  rcases hp with ⟨hash, hread, hload⟩ | ⟨hnone, rfl⟩
  · rcases h.begun with ⟨hash', hread', hload'⟩ | ⟨⟨rc, hread'⟩, -⟩
    · rw [hread] at hread'
      obtain rfl := Except.ok.inj hread'
      rw [hload] at hload'
      exact Except.ok.inj hload'
    · rw [hread] at hread'
      cases hread'
  · rcases h.begun with ⟨hash, hread, -⟩ | ⟨-, rfl⟩
    · unfold casTreeRefRead at hread
      rw [hnone] at hread
      split at hread <;> cases hread
    · rfl

/-- **The edits of a run** are those it was asked for, when the names of the files fit an entry. -/
theorem Ran.edits (hlen : ∀ path ∈ cmd.files al, (baseName path).bytes.length ≤ CAS_TREE_NAME_MAX) :
    ObjectsAdded cs tBlob ct.store (cmd.addresses host al) st ∧ cmd.Edits host al dir (sortEntries dir') := by
  have hsorted : ∀ out : Dir, Distinct Entry.name out → byName (sortEntries out) = byName out := fun out hd =>
    lookup_perm hd (sortEntries_perm out).symm
  have hedited := h.edited
  cases cmd with
  | importing =>
    obtain ⟨policy, hloop⟩ := hedited
    obtain ⟨hadd, hd', hread, hby⟩ :=
      importFiles_some al 0 ct.store st dir dir' [] (ObjectsAdded.none tBlob ct.store) h.distinct hlen hloop
    exact ⟨hadd, EditCmd.edits_of_writeAll hread ((hsorted dir' hd').trans hby)⟩
  | removing =>
    obtain ⟨rfl, rfl⟩ := hedited
    obtain ⟨hd', hby⟩ := rmNames_spec host al dir 0 h.distinct
    refine ⟨ObjectsAdded.none tBlob ct.store, EditCmd.edits_of_writeAll ?_ ((hsorted _ hd').trans hby)⟩
    intro path hm
    cases hm

/-- The new root is read as such. -/
theorem Ran.reads : casTreeRefRead noFaults ct'.refs refname = .ok newRoot :=
  casTreeRefRead_written ct'.refs newRoot h.name h.root h.committed

theorem Ran.ascending : NamesAscending (sortEntries dir') := by
  obtain ⟨now, hstore⟩ := h.stored
  exact (casTreeStore_putAt cs hstore).2.1

/-- The blobs are in the depot afterwards. -/
theorem Ran.blobs (hadd : ObjectsAdded cs tBlob ct.store (cmd.addresses host al) st) (hash : Bytes)
    (hm : hash ∈ cmd.addresses host al) : casExists ct'.store hash = true := by
  obtain ⟨now, hstore⟩ := h.stored
  obtain ⟨path, -, hpath⟩ := List.mem_filterMap.mp hm
  obtain ⟨data, -, rfl⟩ := Option.map_eq_some_iff.mp hpath
  refine casExists_of_not_fresh ct'.store _ (validHash_digest2 _ _) fun hf => ?_
  have hfst : Fresh st (blobAddress data) := by
    rcases (casTreeStore_text cs hstore).2.2.2 with ⟨-, heq⟩ | ⟨-, f, heq, -⟩
    · rwa [heq] at hf
    · rw [heq] at hf
      exact ((fresh_setLoose _ _ _ f).mp hf).1
  exact ((hadd.fresh _).mp hfst).2 hm

/-- **A commit is exact when it is safe**, and only then. -/
theorem Ran.exact_iff : EditsExactly host cs flt ct refname cmd al ct' ↔ EditSafe host cs flt ct refname cmd al := by
  obtain ⟨now, hstore⟩ := h.stored
  constructor
  · rintro ⟨old, root, goal, hprev, hread, hload, hedits, -⟩
    obtain rfl := h.previous hprev
    obtain rfl : newRoot = root := by
      rw [h.reads] at hread
      exact Except.ok.inj hread
    obtain ⟨hs, hvalid⟩ := casTreeLoad_names hload
    have hnames : ∀ path ∈ cmd.files al, (baseName path).bytes.length ≤ CAS_TREE_NAME_MAX := by
      cases cmd with
      | removing =>
        intro path hm
        cases hm
      | importing =>
        intro path hm
        obtain ⟨pre, q, post, hal, hk, hpost⟩ := exists_last baseName ⟨path, hm, rfl⟩
        obtain ⟨data, -, hentry⟩ := hedits.files pre q post hal (by rw [hk]; exact hpost)
        obtain ⟨he, hname⟩ := mem_of_lookup Entry.name hentry
        rw [← hk, ← hname]
        exact (validName_spec _ (hvalid _ he)).2.1
    obtain ⟨hadd, hed⟩ := h.edits hnames
    -- the directory asked for is determined by its names
    have hgoal : ∀ goal, NamesAscending goal → cmd.Edits host al old goal → goal = sortEntries dir' :=
      fun goal hs hg => eq_of_byName hs h.ascending (hg.writeAll.trans hed.writeAll.symm)
    refine ⟨fun hsome => ?_, hnames, fun old' goal' hprev' hs' hedits' => ?_⟩
    · rcases hprev with ⟨hash, hread, -⟩ | ⟨hnone, -⟩
      · exact ⟨hash, hread⟩
      · rw [hnone] at hsome
        cases hsome
    · obtain rfl := h.previous hprev'
      obtain rfl := hgoal goal' hs' hedits'
      rw [hgoal goal hs hedits] at hload
      exact (casTreeLoad_stored_iff hadd hstore).mp hload
  · rintro ⟨hreadable, hnames, hroom⟩
    obtain ⟨hadd, hed⟩ := h.edits hnames
    have hprev : PreviousTree cs flt ct refname dir := by
      rcases h.begun with hok | ⟨⟨rc, herr⟩, hnil⟩
      · exact .inl hok
      · refine .inr ⟨?_, hnil⟩
        by_contra hsome
        obtain ⟨hash, hread⟩ := hreadable (Option.isSome_iff_ne_none.mpr hsome)
        rw [herr] at hread
        cases hread
    refine ⟨dir, newRoot, sortEntries dir', hprev, h.reads, ?_, hed, h.blobs hadd⟩
    exact (casTreeLoad_stored_iff hadd hstore).mpr (hroom dir _ hprev h.ascending hed)

end

/-- **Import and rm edit exactly the named entries** when the root file, if there is one, can be read, the names of
the files fit an entry, and the depot has room for the tree; and a run that does not commit leaves every ref at
its root. -/
theorem castool_edits_iff (host : Host) (cs : Codecs) (cfg : CompressConfig) (flt : Faults) (cmd : EditCmd) (ct : CasTree) (argv : List CStr) :
    let r := cmd.run host cs cfg flt ct argv
    (r.1 ≠ 0 → RootsKept ct.refs r.2.refs) ∧
      (r.1 = 0 → ∃ refname al, cmd.target host argv = some (refname, al) ∧
        (EditsExactly host cs flt ct refname cmd al r.2 ↔ EditSafe host cs flt ct refname cmd al)) := by
  intro r
  rcases cmd.run_cases host cs cfg flt ct argv with
    ⟨hne, hkept⟩ | ⟨h0, refname, al, dir, dir', st, newRoot, htarget, hran⟩
  · exact ⟨fun _ => hkept, fun h0 => absurd h0 hne⟩
  · exact ⟨fun hne => absurd h0 hne, fun _ => ⟨refname, al, htarget, hran.exact_iff⟩⟩

end

/-! ## Where nothing fails -/

/-- A readable file of any name that fits is imported. -/
theorem importFile_ok (host : Host) (cs : Codecs) (cfg : CompressConfig) (policy : Policy) (i : Nat) (path : CStr) (data : Bytes)
    (st : Store) (dir : Dir) (hdata : host.file path.bytes = some data) (hmem : host.noEntry i = false)
    (hlen : data.length < 2 ^ 64) (hname : validName (CStr.ofBuf ((baseName path).bytes.take CAS_TREE_NAME_MAX)) = true) :
    ∃ st', importFile host cs cfg noFaults policy i path st dir =
      (st', some ((dropEntry dir (baseName path)).getD dir ++
        [entryOf host path (blobAddress data) (CStr.ofBuf ((baseName path).bytes.take CAS_TREE_NAME_MAX))])) := by
  have hform := formatHeader_some tBlob data.length 20 (by decide) (by decide) (by decide) (by decide) (by omega)
  have haddr : casHashObject tBlob data = .ok (blobAddress data) := by
    unfold casHashObject
    rw [hform]
    rfl
  obtain ⟨f, hput⟩ := casPutObjectZ_runs noFaults st tBlob data _ _ (host.clock i) cs cfg
    (casCodecPolicy policy CAS_CODEC_DEFLATE data) (validHash_digest2 _ _) hform haddr
  have hok : ∃ st', casPutObjectZ cs cfg noFaults st tBlob (casCodecPolicy policy CAS_CODEC_DEFLATE data) data
      (host.clock i) = .ok (st', blobAddress data) := by
    rw [hput]
    split
    · exact ⟨_, rfl⟩
    · exact ⟨_, rfl⟩
  obtain ⟨st', hok⟩ := hok
  refine ⟨st', ?_⟩
  have hentry : validName (entryOf host path (blobAddress data)
      (CStr.ofBuf ((baseName path).bytes.take CAS_TREE_NAME_MAX))).name = true := by
    unfold entryOf
    split <;> exact hname
  unfold importFile
  rw [hdata]
  simp only [hok, hmem, casTreeDirAdd_ok _ _ hentry]

/-- A directory of distinct names is stored and committed. -/
theorem storeAndCommit_ok (host : Host) (ct : CasTree) (refname : Bytes) (dir : Dir) (i : Nat) (comment : Bytes)
    (hfails : ∀ call, host.fails call = false) (hn : validRefName refname = true) (hd : Distinct Entry.name dir)
    (hlen : (treeSerialize (sortEntries dir)).length < 2 ^ 64) :
    (storeAndCommit host noFaults ct refname dir i comment).1 = 0 := by
  have hform := formatHeader_some tTree _ 20 (by decide) (by decide) (by decide) (by decide)
    (show (treeSerialize (sortEntries dir)).length < 10 ^ 20 by omega)
  have hstore : ∃ st root, casTreeStore noFaults ct.store false dir (host.clock i) = .ok (st, root) := by
    have hrep : repeatsName (sortEntries dir) = false := (repeatsName_sortEntries dir).mpr hd
    have hle := (formatHeader_spec _ _ _ hform).2.2.2
    unfold casTreeStore casPutObject
    simp only [hrep, hform, noFaults, Bool.false_eq_true, if_false]
    rw [if_neg (by unfold CAS_PACK_HEADER_LEN; omega)]
    split
    · exact ⟨_, _, rfl⟩
    · exact ⟨_, _, rfl⟩
  obtain ⟨st, root, hstore⟩ := hstore
  obtain ⟨refs, hcommit⟩ := casTreeRefCommit_valid ct.refs refname root comment host.timeS host.timeNs hn
    (casTreeStore_putAt [] hstore).2.2.valid
  have hok := (refCommit_nothing_fails refname host.kept ct.refs refs root comment host.timeS host.timeNs hcommit).1
  rw [show (fun _ => false) = host.fails from funext fun call => (hfails call).symm] at hok
  unfold storeAndCommit
  rw [hstore]
  simp only []
  split
  · rfl
  · next rc refs' hne hrefs =>
    rw [hrefs] at hok
    exact absurd hok hne

/-- **A file is imported** to a ref whose root cannot be read, for whatever reason it cannot. -/
theorem cmdImport_ok (host : Host) (cs : Codecs) (cfg : CompressConfig) (ct : CasTree) (argv : List CStr)
    (refname : Bytes) (path : CStr) (data : Bytes)
    (htarget : refAndArgs host (importPolicy argv).2 = some (refname, [path]))
    (hread : ∀ hash, casTreeRefRead noFaults ct.refs refname ≠ .ok hash) (hn : validRefName refname = true)
    (hdata : host.file path.bytes = some data) (hmem : host.noEntry 0 = false) (hfails : ∀ call, host.fails call = false)
    (hlen : data.length < 2 ^ 64) (hname : validName (baseName path) = true)
    (htext : (treeSerialize [fileEntry host path data]).length < 2 ^ 64) :
    (cmdImport host cs cfg noFaults ct argv).1 = 0 := by
  have hcut : CStr.ofBuf ((baseName path).bytes.take CAS_TREE_NAME_MAX) = baseName path := by
    have hle : (baseName path).bytes.length ≤ CAS_TREE_NAME_MAX := (validName_spec _ hname).2.1
    rw [List.take_of_length_le hle, CStr.ofBuf_bytes]
  obtain ⟨st, hfile⟩ := importFile_ok host cs cfg (importPolicy argv).1 0 path data ct.store [] hdata hmem hlen
    (by rw [hcut]; exact hname)
  have hloop : importFiles host cs cfg noFaults (importPolicy argv).1 0 [path] ct.store [] =
      (st, some [fileEntry host path data]) := by
    unfold importFiles
    rw [hfile, hcut]
    rfl
  have hend := storeAndCommit_ok host ⟨st, ct.refs⟩ refname [fileEntry host path data] 1
    (lit ['i', 'm', 'p', 'o', 'r', 't']).bytes hfails hn (List.nodup_singleton _) htext
  unfold cmdImport
  rw [htarget]
  simp only [List.cons_ne_nil, if_false]
  cases hr : casTreeRefRead noFaults ct.refs refname with
  | ok hash => exact absurd hr (hread hash)
  | error rc =>
    simp only [hloop]
    exact hend

/-! ## Two imports -/

/-- A host with the one file `a`, where nothing fails. -/
def oneFileHost : Host where
  file path := if path = [97] then some [1] else none
  stat _ := none
  list _ := none
  stdin := []
  noArg _ := false
  noEntry _ := false
  clock _ := 0
  timeS := 0
  timeNs := 0
  fails _ := false
  kept := 0

/-- The configuration of a new store. -/
def newConfig : CompressConfig := ⟨false, 64, 5, by omega⟩

/-- `castool import m a` -/
def importA : List CStr := [lit ['m'], lit ['a']]

/-- The directory of the file. -/
def onlyA : Dir := [fileEntry oneFileHost (lit ['a']) [1]]

theorem target_importA : EditCmd.importing.target oneFileHost importA = some ([109], [lit ['a']]) := by decide

theorem edits_onlyA (goal : Dir) (hs : NamesAscending goal)
    (h : EditCmd.importing.Edits oneFileHost [lit ['a']] [] goal) : goal = onlyA := by
  refine eq_of_byName hs (List.pairwise_singleton _ _) (h.writeAll.trans ?_)
  exact (lookup_cons : lookup Entry.name onlyA = _).symm

/-- A depot that has the directory already, and no ref. -/
def depotA : CasTree := ⟨Store.empty.setLoose (dirAddress onlyA) ⟨rawFile (tTree, treeSerialize onlyA), 0⟩, none⟩

theorem written_onlyA : ∀ e ∈ onlyA, e.Written := by
  intro e he
  obtain rfl := List.mem_singleton.mp he
  exact (Entry.Printable.mk (lowerHash_toHex _ (length_digest2 _ _)) (by decide)).written

theorem length_onlyA : (treeSerialize onlyA).length < 200 := by
  have hline := length_entryLine _ (written_onlyA (fileEntry oneFileHost (lit ['a']) [1]) (by simp [onlyA]))
  have hnum : (lineNumbers (fileEntry oneFileHost (lit ['a']) [1])).length < 100 := by decide +kernel
  have hname : (fileEntry oneFileHost (lit ['a']) [1]).name.bytes.length = 1 := by decide
  simp only [treeSerialize, onlyA, List.length_cons, List.flatMap_cons, List.flatMap_nil, List.append_nil]
  omega

/-- A depot has room for a directory that it has. -/
theorem hasRoom_stored (st : Store) (addrs : List Bytes) (dir : Dir) (now : Int) (hf : st.packed (dirAddress dir) = false)
    (hw : ∀ e ∈ dir, e.Written) (hs : NamesAscending dir) (hlen : (treeSerialize dir).length < 2 ^ 29) :
    HasRoom [] (st.setLoose (dirAddress dir) ⟨rawFile (tTree, treeSerialize dir), now⟩) addrs dir := by
  refine .inr ⟨fun h => ((fresh_setLoose _ _ _ _).mp h).2 rfl, ?_⟩
  exact casTreeLoad_rawText [] _ (validHash_digest2 _ _) hf (setLoose_lookup_self st _ _) hw hs (by omega)

theorem importA_commits (ct : CasTree) (hread : ∀ hash, casTreeRefRead noFaults ct.refs [109] ≠ .ok hash) :
    (EditCmd.importing.run oneFileHost [] newConfig noFaults ct importA).1 = 0 := by
  have hlen := length_onlyA
  exact cmdImport_ok oneFileHost [] newConfig ct importA [109] (lit ['a']) [1] target_importA hread (by decide) rfl rfl
    (fun _ => rfl) (by decide) (by decide) (Nat.lt_trans hlen (by decide))

/-- An import of a file to a new ref. -/
theorem castool_edits_new : EditsExactly oneFileHost [] noFaults depotA [109] .importing [lit ['a']]
    (EditCmd.importing.run oneFileHost [] newConfig noFaults depotA importA).2 := by
  have hcommits := importA_commits depotA (fun hash h => by cases h)
  obtain ⟨refname, al, htarget, hiff⟩ :=
    (castool_edits_iff oneFileHost [] newConfig noFaults .importing depotA importA).2 hcommits
  rw [target_importA] at htarget
  obtain ⟨rfl, rfl⟩ := Prod.mk.inj (Option.some.inj htarget)
  refine hiff.mpr ⟨fun h => (by cases h), by decide, fun old goal hprev hs hedits => ?_⟩
  rcases hprev with ⟨hash, hread, -⟩ | ⟨-, rfl⟩
  · cases hread
  · rw [edits_onlyA goal hs hedits]
    have hlen := length_onlyA
    exact hasRoom_stored Store.empty _ onlyA 0 rfl written_onlyA (List.pairwise_singleton _ _) (by omega)

/-- An import over a root file that is empty commits, though what the ref named is not known. -/
theorem import_over_empty_root :
    (EditCmd.importing.run oneFileHost [] newConfig noFaults (oneRef Store.empty []) importA).1 = 0 ∧
      EditCmd.importing.target oneFileHost importA = some ([109], [lit ['a']]) ∧
      ¬ EditsExactly oneFileHost [] noFaults (oneRef Store.empty []) [109] .importing [lit ['a']]
        (EditCmd.importing.run oneFileHost [] newConfig noFaults (oneRef Store.empty []) importA).2 := by
  refine ⟨importA_commits _ fun hash h => (by cases h), target_importA, ?_⟩
  rintro ⟨old, -, -, hprev, -⟩
  rcases hprev with ⟨hash, hread, -⟩ | ⟨hnone, -⟩
  · cases hread
  · cases hnone

end Smolvfs
