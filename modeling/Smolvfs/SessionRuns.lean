import Smolvfs.Lib.Runs
import Smolvfs.Sessions

/-!
# Sessions of commands

Runs of `castool` on one depot, one after another, in any order.  `castool_sessions`: after
every session the log of a ref lists what was committed under it and not pruned, every
version of it is whole and loads as it was committed, the check is clean and a collection
ends well.
-/

namespace Smolvfs

open Octets Runs

/-- The versions of each ref. -/
abbrev Versions := Bytes → List Committed

section
variable (host : ToolHost) (cs : Codecs) (cfg : CompressConfig) (ct : CasTree)

/-! ## What a command is to do -/

/-- The directory at an address. -/
def loadedDir (st : Store) (root : Bytes) : Dir := (casTreeLoad cs noFaults st root).toOption.getD []

/-- What a command that ends well makes of the versions. -/
def Command.records (c : Command) (argv : List CStr) (hist : Versions) : Versions :=
  match c with
  | .edit cmd =>
    match (cmd.edited host.toHost cs cfg noFaults ct argv).2 with
    | none => hist
    | some e => Function.update hist e.refname (hist e.refname ++ [e.version host.toHost cmd.comment])
  | .prune =>
    match argv with
    | ref :: count :: _ => Function.update hist ref.bytes (prunedBy Committed.time (atoi count) 0 (hist ref.bytes))
    | _ => hist
  | .importPack =>
    match importPackArgs (importPolicy argv).2 with
    | some (_, some (ref, root)) =>
      Function.update hist ref.bytes (hist ref.bytes ++ [⟨⟨root.bytes, importComment, host.timeS, host.timeNs⟩,
        loadedDir cs (c.run host cs cfg noFaults ct argv).2.store root.bytes⟩])
    | _ => hist
  | _ => hist

/-- The versions after a command. -/
def Command.after (c : Command) (argv : List CStr) (hist : Versions) : Versions :=
  if (c.run host cs cfg noFaults ct argv).1 = 0 then c.records host cs cfg ct argv hist else hist

/-- What is stored is of the session's objects, and a bundle's root that is committed is whole in the depot then. -/
def Command.Fits (U : Object → Prop) (c : Command) (argv : List CStr) : Prop :=
  match c with
  | .edit cmd =>
    (∀ refname al, cmd.target host.toHost argv = some (refname, al) → ∀ path ∈ cmd.files al, ∀ data,
      host.file path.bytes = some data → U (tBlob, data)) ∧
    ∀ e, (cmd.edited host.toHost cs cfg noFaults ct argv).2 = some e → U (tTree, treeSerialize (sortEntries e.dir))
  | .importPack => ∀ packfile commit bundle, importPackArgs (importPolicy argv).2 = some (packfile, commit) →
    casPackOpen false (host.bundle packfile.bytes) = some bundle →
      (∀ e ∈ bundleObjects cs bundle (casPackHashes bundle), Admitted e.2 e.1 → U e.2) ∧
        ∀ ref root, commit = some (ref, root) → (c.run host cs cfg noFaults ct argv).1 = 0 →
          WholeTree cs (c.run host cs cfg noFaults ct argv).2.store root.bytes
  | _ => True

end

/-! ## One command -/

section
variable {cs : Codecs} {cfg : CompressConfig} {U : Object → Prop} (hU : ObjectsFit cs cfg U) (hr : cs.RoundTrips)
  {host : ToolHost} (hwell : HostWell host) {ct : CasTree} {m : Holdings} {hist : Versions}
  (h : SoundDepot cs U m ct hist)

include hU hr hwell h

theorem edit_step (cmd : EditCmd) (argv : List CStr) (hfit : (Command.edit cmd).Fits host cs cfg ct U argv) :
    ∃ m', SoundDepot cs U m' ((Command.edit cmd).run host cs cfg noFaults ct argv).2
      ((Command.edit cmd).after host cs cfg ct argv hist) := by
  obtain ⟨hdata, htree⟩ := hfit
  obtain ⟨m', hk, hst, hdir⟩ := edited_stocked hU hr h.stocked cmd argv (fun ref hash hread => (h.refs ref).read hread)
    hdata
  have hrun : (Command.edit cmd).run host cs cfg noFaults ct argv = _ :=
    cmd.run_edited host.toHost cs cfg noFaults ct argv
  unfold Command.after Command.records
  rw [hrun]
  simp only []
  generalize cmd.edited host.toHost cs cfg noFaults ct argv = r at htree hst hdir ⊢
  obtain ⟨st, out⟩ := r
  have hsound : SoundDepot cs U m' ⟨st, ct.refs⟩ hist := ⟨hst, fun ref => (h.refs ref).mono hk⟩
  cases out with
  | none =>
    refine ⟨m', ?_⟩
    simp only [ite_self]
    exact hsound
  | some e =>
    obtain ⟨m'', hend⟩ := storeAndCommit_kept hU hr hwell hsound cmd (hdir e rfl) (htree e rfl)
    refine ⟨m'', ?_⟩
    split
    · next hok => exact (hend.resolve_right fun hfailed => hfailed.1 hok).2
    · next hno => exact (hend.resolve_left fun hdone => hno hdone.1).2

omit hU hr in
theorem prune_step (argv : List CStr) :
    SoundDepot cs U m (Command.prune.run host cs cfg noFaults ct argv).2
      (Command.prune.after host cs cfg ct argv hist) := by
  unfold Command.after Command.records Command.run
  cases argv with
  | nil => exact h
  | cons ref args =>
    cases args with
    | nil => exact h
    | cons count _ =>
      simp only [cmdPrune]
      by_cases hkeep : atoi count < 1
      · rw [if_pos hkeep]
        exact h
      · rw [if_neg hkeep]
        have hprune := prune_kept h.refs hwell.readLine host.basedir ref.bytes (atoi count) 0
        simp only [] at hprune
        generalize casTreeLogTruncate host.prune host.basedir ct.refs ref.bytes (atoi count) 0 = r at hprune ⊢
        obtain ⟨hok, hno⟩ := hprune
        cases hs : r.status with
        | ok => exact ⟨h.stocked, hok hs⟩
        | _ => exact ⟨h.stocked, hno (by rw [hs]; simp)⟩

omit hwell in
theorem gc_step (hsync : casReloadPack noFaults ct.store = ct.store) (argv : List CStr) :
    ∃ m', SoundDepot cs U m' (Command.gc.run host cs cfg noFaults ct argv).2
      (Command.gc.after host cs cfg ct argv hist) := by
  have hcall := fun call grace => gcCall_kept hU hr h hsync call grace host.now fun _ _ => false
  unfold Command.after Command.records
  simp only [ite_self]
  unfold Command.run
  simp only [cmdGc]
  cases gcFlags ⟨3600, false, false⟩ argv with
  | none => exact ⟨m, h⟩
  | some f =>
    obtain ⟨grace, pack, compress⟩ := f
    simp only []
    split
    · exact ⟨m, h⟩
    · cases pack with
      | true =>
        have hpack := hcall (.gcPack
          (if (compress && casCodecCanEncode cs CAS_CODEC_DEFLATE) = true then .guess else .never)
          (if (compress && casCodecCanEncode cs CAS_CODEC_DEFLATE) = true then CAS_CODEC_DEFLATE
            else CAS_CODEC_NONE)) grace
        simp only [GcCall.run, if_true] at hpack ⊢
        generalize casTreeGcPack cs noFaults ct grace host.now _ _ _ = r at hpack ⊢
        obtain ⟨rc, st, removed, reclaimed⟩ := r
        cases rc <;> exact hpack
      | false =>
        have hgc := hcall .gc grace
        simp only [GcCall.run, Bool.false_eq_true, if_false] at hgc ⊢
        generalize casTreeGc cs noFaults ct grace host.now _ = r at hgc ⊢
        obtain ⟨rc, st, removed⟩ := r
        cases rc <;> exact hgc

omit hwell in
theorem pack_step (argv : List CStr) :
    SoundDepot cs U m (Command.pack.run host cs cfg noFaults ct argv).2
      (Command.pack.after host cs cfg ct argv hist) := by
  unfold Command.after Command.records
  simp only [ite_self]
  unfold Command.run
  simp only [cmdPack]
  cases packFlags argv with
  | none => exact h
  | some f =>
    obtain ⟨compress, prune⟩ := f
    simp only []
    have hcreated : ∀ rc st,
        (if compress = true then casPackCreateZ cs noFaults ct.store packDat .guess CAS_CODEC_DEFLATE
        else casPackCreate cs noFaults ct.store packDat) = (rc, st) → SoundDepot cs U m ⟨st, ct.refs⟩ hist := by
      intro rc st hrun
      cases compress with
      | true => exact packed_kept hU hr h hrun
      | false =>
        have hplain : casPackCreateZ cs noFaults ct.store packDat .never CAS_CODEC_NONE = (rc, st) := hrun
        exact packed_kept hU hr h hplain
    generalize (if compress = true then casPackCreateZ cs noFaults ct.store packDat .guess CAS_CODEC_DEFLATE
      else casPackCreate cs noFaults ct.store packDat) = created at hcreated ⊢
    obtain ⟨rc, st⟩ := created
    have hst := hcreated rc st rfl
    cases rc with
    | ok =>
      cases prune with
      | true => exact reclaimed_kept hst
      | false => exact hst
    | _ => exact hst

omit hU hr hwell h in
theorem commitBundle_store (ref root : CStr) (counted : Bytes) :
    (commitBundle host ct ref root counted).2.store = ct.store := by
  unfold commitBundle
  split
  · rfl
  · split <;> rfl

omit hU hr h in
theorem commitBundle_refused {ref root : CStr} {counted : Bytes}
    (hno : (commitBundle host ct ref root counted).1.status ≠ 0) : (commitBundle host ct ref root counted).2 = ct := by
  have hrefused : _ → (refCommit host.fails host.kept ct.refs ref.bytes root.bytes importComment.bytes host.timeS
      host.timeNs).2 = ct.refs := refCommit_refused hwell.fails host.kept _ _ _ _ _
  unfold commitBundle at hno ⊢
  split
  · rfl
  · next hthere =>
    rw [if_neg hthere] at hno
    generalize refCommit host.fails host.kept ct.refs ref.bytes root.bytes importComment.bytes host.timeS
      host.timeNs = r at hno hrefused ⊢
    obtain ⟨rc, refs⟩ := r
    cases rc with
    | ok => exact absurd rfl hno
    | _ => exact congrArg (CasTree.mk ct.store) (hrefused (by simp))

omit hU hr in
/-- The end of `cmd_import_pack`, of a root that is whole. -/
theorem commitBundle_kept {ref root : CStr} {counted : Bytes} (hwhole : WholeTree cs ct.store root.bytes)
    (hok : (commitBundle host ct ref root counted).1.status = 0) :
    SoundDepot cs U m (commitBundle host ct ref root counted).2 (Function.update hist ref.bytes (hist ref.bytes ++
      [⟨⟨root.bytes, importComment, host.timeS, host.timeNs⟩, loadedDir cs ct.store root.bytes⟩])) := by
  have htree := hwhole.held h.stocked.holds.handle
  obtain ⟨dir, hdir⟩ := htree.dir
  have hloaded : loadedDir cs ct.store root.bytes = dir := by
    unfold loadedDir
    rw [hdir.loads h.stocked.holds.handle]
    rfl
  have hc : ShortCommit ⟨root.bytes, importComment, host.timeS, host.timeNs⟩ := by
    have hlow : LowerHash root.bytes := by
      obtain ⟨_, _, hlow, -, -, -⟩ := hwhole
      exact hlow
    exact shortCommit_comment hlow.valid (by decide) (by decide) hwell.timeS hwell.timeNs
  have hcommit := commit_kept h.refs hwell.fails host.kept ref.bytes (v := ⟨_, dir⟩) hc hdir htree
  rw [hloaded]
  unfold commitBundle at hok ⊢
  split
  · next hgone =>
    rw [if_pos hgone] at hok
    cases hok
  · next hthere =>
    rw [if_neg hthere] at hok
    simp only [] at hcommit
    generalize refCommit host.fails host.kept ct.refs ref.bytes root.bytes importComment.bytes host.timeS
      host.timeNs = r at hcommit hok ⊢
    obtain ⟨rc, refs⟩ := r
    cases rc with
    | ok => exact ⟨h.stocked, hcommit rfl⟩
    | _ => cases hok

theorem importPack_step (argv : List CStr) (hfit : Command.importPack.Fits host cs cfg ct U argv) :
    ∃ m', SoundDepot cs U m' (Command.importPack.run host cs cfg noFaults ct argv).2
      (Command.importPack.after host cs cfg ct argv hist) := by
  have hrun : Command.importPack.run host cs cfg noFaults ct argv =
      (cmdImportPack host cs cfg noFaults ct argv).map CmdOutcome.status id := rfl
  unfold Command.Fits at hfit
  unfold Command.after Command.records
  simp only [] at hfit ⊢
  generalize Command.importPack.run host cs cfg noFaults ct argv = r at hfit hrun ⊢
  simp only [cmdImportPack] at hrun
  cases hargs : importPackArgs (importPolicy argv).2 with
  | none =>
    rw [hargs] at hrun
    subst hrun
    exact ⟨m, h⟩
  | some args =>
    obtain ⟨packfile, commit⟩ := args
    rw [hargs] at hrun
    simp only [] at hrun
    cases hbundle : casPackOpen false (host.bundle packfile.bytes) with
    | none =>
      rw [hbundle] at hrun
      subst hrun
      exact ⟨m, h⟩
    | some bundle =>
      rw [hbundle] at hrun
      simp only [] at hrun
      obtain ⟨hobjs, hwhole⟩ := hfit packfile commit bundle hargs hbundle
      have hkept : ∃ m', SoundDepot cs U m' ⟨(casPackImport cs cfg noFaults (importPolicy argv).1 CAS_CODEC_DEFLATE
          (some (treeVerifier noFaults)) host.putTime bundle ct.store).1, ct.refs⟩ hist := imported_kept hU hr h hobjs
      obtain ⟨m', himported⟩ := hkept
      refine ⟨m', ?_⟩
      generalize casPackImport cs cfg noFaults (importPolicy argv).1 CAS_CODEC_DEFLATE (some (treeVerifier noFaults))
        host.putTime bundle ct.store = out at himported hrun
      obtain ⟨st, rc⟩ := out
      cases rc with
      | error rc =>
        subst hrun
        exact himported
      | ok counts =>
        obtain ⟨total, stored⟩ := counts
        cases commit with
        | none =>
          subst hrun
          exact himported
        | some target =>
          obtain ⟨ref, root⟩ := target
          simp only [] at hrun
          subst hrun
          have hroot := hwhole ref root rfl
          simp only [Prod.map_snd, Prod.map_fst, id_eq, commitBundle_store] at hroot ⊢
          split
          · next hs => exact commitBundle_kept hwell himported (hroot hs) hs
          · next hs =>
            rw [commitBundle_refused hwell hs]
            exact himported

/-- **One command** keeps a depot sound. -/
theorem command_step (hsync : casReloadPack noFaults ct.store = ct.store) (c : Command) (argv : List CStr)
    (hfit : c.Fits host cs cfg ct U argv) :
    ∃ m', SoundDepot cs U m' (c.run host cs cfg noFaults ct argv).2 (c.after host cs cfg ct argv hist) := by
  cases c with
  | edit cmd => exact edit_step hU hr hwell h cmd argv hfit
  | gc => exact gc_step hU hr h hsync argv
  | prune => exact ⟨m, prune_step hwell h argv⟩
  | pack => exact ⟨m, pack_step hU hr h argv⟩
  | importPack => exact importPack_step hU hr hwell h argv hfit

end

/-! ## Sessions -/

section
variable (cs : Codecs) (cfg : CompressConfig) (U : Object → Prop)

/-- A run of the program: what it finds outside of the depot, and its arguments. -/
structure Invocation where
  host : ToolHost
  argv : List CStr

/-- What a run of the program makes of the versions. -/
def Invocation.after (i : Invocation) (ct : CasTree) (hist : Versions) : Versions :=
  match i.argv with
  | [] => hist
  | name :: args =>
    match commands.lookup name with
    | none => hist
    | some c => c.after i.host cs cfg (openDepot noFaults ct) args hist

/-- The command is one of those here, and fits. -/
def Invocation.Fits (i : Invocation) (ct : CasTree) : Prop :=
  match i.argv with
  | [] => True
  | name :: args =>
    match commands.lookup name with
    | none => False
    | some c => c.Fits i.host cs cfg (openDepot noFaults ct) U args

/-- One run of the program, on the depot and on the versions. -/
def CastoolStep (s : CasTree × Versions) (i : Invocation) (s' : CasTree × Versions) : Prop :=
  s'.1 = (castool i.host cs cfg noFaults s.1 i.argv).2 ∧ s'.2 = i.after cs cfg s.1 s.2

theorem castoolStep_run (s : CasTree × Versions) (i : Invocation) :
    CastoolStep cs cfg s i ((castool i.host cs cfg noFaults s.1 i.argv).2, i.after cs cfg s.1 s.2) := ⟨rfl, rfl⟩

/-- The runs that are allowed: on a host where no call fails, and of what is of the session's objects. -/
def CastoolAllowed (s : CasTree × Versions) (i : Invocation) : Prop := HostWell i.host ∧ i.Fits cs cfg U s.1

/-- Runs of the program from an empty depot on. -/
def Session : CasTree → Versions → Prop := fun ct hist =>
  Run (CastoolStep cs cfg) (CastoolAllowed cs cfg U) (⟨Store.empty, none⟩, fun _ => []) (ct, hist)

end

section
variable {cs : Codecs} {cfg : CompressConfig} {U : Object → Prop} (hU : ObjectsFit cs cfg U) (hr : cs.RoundTrips)

theorem soundDepot_new : SoundDepot cs U (fun _ => none) ⟨Store.empty, none⟩ fun _ => [] :=
  ⟨⟨holds_empty cs, ⟨fun _ _ h => (by cases h), fun _ _ h => by cases h⟩⟩, fun ref => refKept_new _ ref⟩

/-- A depot is opened. -/
theorem SoundDepot.opened {m : Holdings} {ct : CasTree} {hist : Versions} (h : SoundDepot cs U m ct hist) :
    SoundDepot cs U m (openDepot noFaults ct) hist := ⟨⟨h.stocked.holds.reload, h.stocked.known⟩, h.refs⟩

include hU hr

/-- **What one run of the program preserves.** -/
theorem castool_step {s s' : CasTree × Versions} {i : Invocation} (h : ∃ m, SoundDepot cs U m s.1 s.2)
    (hstep : CastoolStep cs cfg s i s') (hallowed : CastoolAllowed cs cfg U s i) :
    ∃ m, SoundDepot cs U m s'.1 s'.2 := by
  obtain ⟨m, h⟩ := h
  obtain ⟨hct, hhist⟩ := hstep
  obtain ⟨hwell, hfits⟩ := hallowed
  obtain ⟨host, argv⟩ := i
  rw [hct, hhist]
  unfold Invocation.Fits at hfits
  unfold castool Invocation.after
  cases argv with
  | nil => exact ⟨m, h⟩
  | cons name args =>
    simp only [] at hfits ⊢
    cases hc : commands.lookup name with
    | none =>
      rw [hc] at hfits
      exact hfits.elim
    | some c =>
      rw [hc] at hfits
      exact command_step hU hr hwell h.opened (synced_reload s.1.store) c args hfits

theorem session_sound {ct : CasTree} {hist : Versions} (hrun : Session cs cfg U ct hist) :
    ∃ m, SoundDepot cs U m ct hist :=
  hrun.invariant (fun s => ∃ m, SoundDepot cs U m s.1 s.2) ⟨_, soundDepot_new⟩
    fun _ _ _ hk hstep hallowed => castool_step hU hr hk hstep hallowed

end

/-- **After any session the depot is sound and has all that was committed.**  As runs of the program import, remove,
prune, pack, collect and take in bundles in any order, the log of a ref lists what was committed under it and not
pruned, and each version loads as it was committed, with all that is below it; the check prints that the depot is
clean, and a collection ends well. -/
theorem castool_sessions (cs : Codecs) (cfg : CompressConfig) (U : Object → Prop) (hU : ObjectsFit cs cfg U)
    (hr : cs.RoundTrips) (ct : CasTree) (hist : Versions) (hrun : Session cs cfg U ct hist) :
    (∀ ref, hist ref ≠ [] → ∃ entries, casTreeLogRead noFaults ct.refs ref = (entries, .ok) ∧
      List.Forall₂ (fun e v => e = v.commit.reported ∧
        casTreeLoad cs noFaults (openDepot noFaults ct).store e.hash = .ok v.dir ∧
          DirComplete cs (openDepot noFaults ct).store e.hash) entries (hist ref)) ∧
    (∃ n, ∀ fuel, n ≤ fuel →
      cmdFsck cs noFaults (openDepot noFaults ct) fuel = some (succeeds (text "fsck: clean" ++ [10]))) ∧
    ∀ host : ToolHost, (castool host cs cfg noFaults ct [lit ['g', 'c']]).1 = 0 := by
  obtain ⟨m, hsound⟩ := session_sound hU hr hrun
  have hopen := hsound.opened
  have hin := hopen.stocked.holds.handle
  refine ⟨fun ref hne => ?_, ?_, fun host => ?_⟩
  · obtain ⟨entries, hread, hall⟩ := (hopen.refs ref).reads hne
    exact ⟨entries, hread, hall.imp fun e v hv => ⟨hv.reported, hv.dir.loads hin, hv.whole.complete hin⟩⟩
  · have hroots : ∀ name hash, casTreeRefRead noFaults (openDepot noFaults ct).refs name = .ok hash →
        Sound cs noFaults (openDepot noFaults ct).store hash := fun name hash hread =>
      ((hopen.refs name).read hread).sound hin hopen.stocked.known.admitted
    obtain ⟨n, hn⟩ := casTreeFsck_clean (fun _ => false) hroots
    refine ⟨n, fun fuel hfuel => ?_⟩
    unfold cmdFsck
    rw [hn fuel hfuel]
    rfl
  · have hcomplete : ∀ r ∈ logRoots noFaults (openDepot noFaults ct), DirComplete cs (openDepot noFaults ct).store r :=
      fun r hr' => (logRoots_held hopen.refs _ r hr').complete hin
    have hok := complete_gc_ok hcomplete 3600 host.now fun _ _ => false
    have hgc : (castool host cs cfg noFaults ct [lit ['g', 'c']]).1 =
        (cmdGc host cs noFaults (openDepot noFaults ct) []).1.status := rfl
    rw [hgc]
    simp only [cmdGc, gcFlags, Bool.and_false, Bool.false_eq_true, if_false]
    generalize casTreeGc cs noFaults (openDepot noFaults ct) 3600 host.now _ = r at hok ⊢
    obtain ⟨rc, st, removed⟩ := r
    obtain rfl : rc = .ok := hok
    rfl

/-! ## An import and a collection -/

/-- A host with the one file `a`, where nothing fails. -/
def toolHostA : ToolHost where
  toHost := oneFileHost
  bundle _ := none
  now := 0
  putTime _ := 0
  basedir := []
  prune := onlyReads fun _ => false

/-- The objects that the import of `a` stores. -/
def ObjectOfA (obj : Object) : Prop := obj = (tBlob, [1]) ∨ obj = (tTree, treeSerialize onlyA)

theorem canEncode_nil {codec : Int} (h : codec ≠ CAS_CODEC_NONE) : casCodecCanEncode [] codec = false := by
  unfold casCodecCanEncode codecFind
  rw [if_neg h, List.find?_cons]
  split <;> rfl

theorem objectsFit_A : ObjectsFit [] newConfig ObjectOfA where
  apart := by
    have hne : toHex (objBin (tBlob, [1])) ≠ toHex (objBin (tTree, treeSerialize onlyA)) := by decide +kernel
    have hplain : ∀ obj, ObjectOfA obj → canonical obj = obj := by
      rintro obj (rfl | rfl) <;> exact canonical_plain (by decide)
    intro a b ha hb hc
    rw [hplain a ha, hplain b hb] at hc
    obtain ⟨hab, hash, hha, hhb⟩ := hc
    have heq := (casHashObject_ok hha).symm.trans (casHashObject_ok hhb)
    rcases ha with rfl | rfl <;> rcases hb with rfl | rfl
    · exact hab rfl
    · exact hne heq
    · exact hne heq.symm
    · exact hab rfl
  raw := by
    have hlen := length_onlyA
    rintro obj (rfl | rfl)
    · decide
    · refine ⟨by decide, ?_⟩
      have hblock : CAS_PACK_BLOCK ≤ 1024 := by decide
      simp only []
      omega
  encoded := by
    intro obj _ codec payload hwins
    unfold compressWins at hwins
    rw [if_neg fun hc => absurd hc.2.2.2.1 (by rw [canEncode_nil hc.2.1]; simp)] at hwins
    cases hwins
  packed := by
    intro obj _ use payload henc
    unfold packEncode at henc
    rw [if_neg fun hc => absurd hc.2.1 (by rw [canEncode_nil hc.1]; simp)] at henc
    cases henc

/-- The version of `castool import m a`. -/
def versionA : Committed := ⟨⟨dirAddress onlyA, EditCmd.importing.comment, 0, 0⟩, onlyA⟩

theorem edited_importA (ct : CasTree) (hread : ∀ hash, casTreeRefRead noFaults ct.refs [109] ≠ .ok hash) :
    ∃ st, EditCmd.importing.edited oneFileHost [] newConfig noFaults ct importA = (st, some ⟨[109], onlyA, 1⟩) := by
  obtain ⟨st, hfile⟩ := importFile_ok oneFileHost [] newConfig (importPolicy importA).1 0 (lit ['a']) [1] ct.store []
    rfl rfl (by decide) (by decide)
  have hloop : importFiles oneFileHost [] newConfig noFaults (importPolicy importA).1 0 [lit ['a']] ct.store [] =
      (st, some onlyA) := by
    unfold importFiles
    rw [hfile]
    rfl
  refine ⟨st, ?_⟩
  have htarget : refAndArgs oneFileHost (importPolicy importA).2 = some ([109], [lit ['a']]) := target_importA
  unfold EditCmd.edited importBegins
  simp only [htarget, List.cons_ne_nil, if_false]
  cases hr : casTreeRefRead noFaults ct.refs [109] with
  | ok hash => exact absurd hr (hread hash)
  | error rc =>
    simp only [hloop]
    rfl

theorem sortEntries_onlyA : sortEntries onlyA = onlyA := sortEntries_of_ascending onlyA (List.pairwise_singleton _ _)

/-- `castool import m a` -/
def runImportA : Invocation := ⟨toolHostA, lit ['i', 'm', 'p', 'o', 'r', 't'] :: importA⟩

/-- `castool gc --now` -/
def runGcNow : Invocation := ⟨toolHostA, [lit ['g', 'c'], lit ['-', '-', 'n', 'o', 'w']]⟩

theorem hostWell_A : HostWell toolHostA := ⟨fun _ => rfl, by decide, by decide, fun _ => rfl⟩

/-- The file is imported to a new depot, and what nothing names is collected. -/
theorem session_importA : ∃ ct hist, Session [] newConfig ObjectOfA ct hist ∧ hist [109] = [versionA] := by
  have hread : ∀ hash, casTreeRefRead noFaults (openDepot noFaults ⟨Store.empty, none⟩).refs [109] ≠ .ok hash :=
    fun hash h => by cases h
  have hok : ((Command.edit .importing).run toolHostA [] newConfig noFaults (openDepot noFaults ⟨Store.empty, none⟩)
      importA).1 = 0 := by
    unfold Command.run
    exact importA_commits _ hread
  obtain ⟨st, hedited⟩ := edited_importA _ hread
  have hedited' : EditCmd.importing.edited toolHostA.toHost [] newConfig noFaults
      (openDepot noFaults ⟨Store.empty, none⟩) importA = (st, some ⟨[109], onlyA, 1⟩) := hedited
  have himport : CastoolAllowed [] newConfig ObjectOfA (⟨Store.empty, none⟩, fun _ => []) runImportA := by
    refine ⟨hostWell_A, ?_⟩
    show (Command.edit .importing).Fits toolHostA [] newConfig (openDepot noFaults ⟨Store.empty, none⟩) ObjectOfA
      importA
    refine ⟨fun refname al htarget path hpath data hdata => ?_, fun e he => ?_⟩
    · have htarget' : EditCmd.importing.target toolHostA.toHost importA = some ([109], [lit ['a']]) := target_importA
      rw [htarget'] at htarget
      obtain ⟨rfl, rfl⟩ := Prod.mk.inj (Option.some.inj htarget)
      obtain rfl := List.mem_singleton.mp hpath
      obtain rfl := Option.some.inj hdata
      exact .inl rfl
    · rw [hedited'] at he
      obtain rfl := Option.some.inj he
      rw [sortEntries_onlyA]
      exact .inr rfl
  have himported : runImportA.after [] newConfig ⟨Store.empty, none⟩ (fun _ => []) [109] = [versionA] := by
    show (Command.edit .importing).after toolHostA [] newConfig (openDepot noFaults ⟨Store.empty, none⟩) importA
      (fun _ => []) [109] = _
    unfold Command.after Command.records
    rw [if_pos hok]
    simp only [hedited', Function.update_self, Edited.version, sortEntries_onlyA]
    rfl
  have hcollected : ∀ ct hist, runGcNow.after [] newConfig ct hist = hist := by
    intro ct hist
    show Command.gc.after toolHostA [] newConfig (openDepot noFaults ct) [lit ['-', '-', 'n', 'o', 'w']] hist = hist
    unfold Command.after Command.records
    simp only [ite_self]
  have hgc : ∀ s, CastoolAllowed [] newConfig ObjectOfA s runGcNow := by
    intro s
    refine ⟨hostWell_A, ?_⟩
    show Command.gc.Fits toolHostA [] newConfig (openDepot noFaults s.1) ObjectOfA [lit ['-', '-', 'n', 'o', 'w']]
    trivial
  have hrun := (Run.refl _).tail (castoolStep_run [] newConfig _ runImportA) himport
  refine ⟨_, _, hrun.tail (castoolStep_run [] newConfig _ runGcNow) (hgc _), ?_⟩
  rw [hcollected]
  dsimp only
  rw [himported]

theorem castool_sessions_importA : ∃ (ct : CasTree) (hist : Versions), hist [109] = [versionA] ∧
    (∀ ref, hist ref ≠ [] → ∃ entries, casTreeLogRead noFaults ct.refs ref = (entries, .ok) ∧
      List.Forall₂ (fun e v => e = v.commit.reported ∧
        casTreeLoad [] noFaults (openDepot noFaults ct).store e.hash = .ok v.dir ∧
          DirComplete [] (openDepot noFaults ct).store e.hash) entries (hist ref)) ∧
    (∃ n, ∀ fuel, n ≤ fuel →
      cmdFsck [] noFaults (openDepot noFaults ct) fuel = some (succeeds (text "fsck: clean" ++ [10]))) ∧
    ∀ host : ToolHost, (castool host [] newConfig noFaults ct [lit ['g', 'c']]).1 = 0 := by
  obtain ⟨ct, hist, hrun, hone⟩ := session_importA
  exact ⟨ct, hist, hone, castool_sessions [] newConfig ObjectOfA objectsFit_A roundTrips_nil ct hist hrun⟩

end Smolvfs
