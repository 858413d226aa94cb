import Smolvfs.Topic

/-!
# Walking a chain of records

`cas_vchain_walk` of `cas-sign.c`: from a head down the addresses that records name as
their predecessors, as long as each is of the same topic and one number lower.  A
store may hold anything under these addresses, a record that names itself among it;
what ends the walk is that the numbers fall.

`vchain_walk_bounded`: a walk that is not stopped ends after at most as many records as
the head is above the last number asked for, all of them verified and each the
predecessor of the one before it.
-/

namespace Smolvfs

open Octets

/-- The codes a walk returns: those of a record and of the rules, and `CAS_SIGN_EINCOMPLETE`. -/
inductive WalkStatus
  | sign (rc : SignStatus)
  | eincomplete
  deriving DecidableEq, Repr

/-- A record and its address, as a callback gets them. -/
abbrev Visit := Vrec × Bytes

section
variable (check : SigCheck) (cs : Codecs) (flt : Faults) (st : Store)

/-- `vchain_load` -/
def vchainLoad (addr : Bytes) : Except SignStatus Vrec :=
  match casOpenObject cs flt st addr with
  | .error rc => .error (.cas rc)
  | .ok (type, data) => if type ≠ tVrec then .error (.cas .etype) else casVrecDecode check data

/-- The loop of `cas_vchain_walk` at the record `v`.  The callback answers from all it was given so far; none is
out of fuel. -/
def vchainLoop (fn : List Visit → Bool) (stopSeq : BitVec 64) :
    Nat → Vrec → Bytes → List Visit → Option (WalkStatus × List Visit)
  | 0, _, _, _ => none
  | fuel + 1, v, addr, seen =>
    let seen := seen ++ [(v, addr)]
    if fn seen then some (.sign (.cas .ok), seen)
    else if v.seq ≤ stopSeq ∨ v.prev = [] then some (.sign (.cas .ok), seen)
    else
      match vchainLoad check cs flt st v.prev with
      | .error (.cas .enotfound) => some (.eincomplete, seen)
      | .error rc => some (.sign rc, seen)
      | .ok prev =>
        if prev.topicId ≠ v.topicId then some (.sign .etopic, seen)
        else if prev.seq + 1 ≠ v.seq then some (.sign .echain, seen)
        else vchainLoop fn stopSeq fuel prev v.prev seen

/-- `cas_vchain_walk`: its code, and what the callback was given. -/
def casVchainWalk (fn : List Visit → Bool) (fuel : Nat) (headAddr : Bytes) (stopSeq : BitVec 64) :
    Option (WalkStatus × List Visit) :=
  match vchainLoad check cs flt st headAddr with
  | .error rc => some (.sign rc, [])
  | .ok v => vchainLoop check cs flt st fn stopSeq fuel v headAddr []

end

/-- A callback that never stops the walk. -/
def keepsWalking : List Visit → Bool := fun _ => false

/-! ## What a walk is -/

/-- The record is stored at the address, and verifies. -/
def VrecAt (check : SigCheck) (cs : Codecs) (st : Store) (addr : Bytes) (v : Vrec) : Prop :=
  ∃ data, casOpenObject cs noFaults st addr = .ok (tVrec, data) ∧ casVrecDecode check data = .ok v

/-- The record the second visit is of is the predecessor the first one names. -/
structure Linked (v prev : Visit) : Prop where
  addr : prev.2 = v.1.prev
  topic : prev.1.topicId = v.1.topicId
  seq : prev.1.seq.toNat + 1 = v.1.seq.toNat

/-- What is said of a walk from an address. -/
structure WalkMeets (check : SigCheck) (cs : Codecs) (st : Store) (headAddr : Bytes) (stopSeq : BitVec 64)
    (rc : WalkStatus) (visited : List Visit) : Prop where
  /-- The records visited are stored where the walk found them, and verify. -/
  stored : ∀ r ∈ visited, VrecAt check cs st r.2 r.1
  /-- They are of one topic. -/
  topic : ∀ r ∈ visited, ∀ r' ∈ visited, r.1.topicId = r'.1.topicId
  /-- Each is the predecessor of the one before it, one number lower. -/
  linked : visited.IsChain Linked
  /-- The first is the head, and bounds how many there are. -/
  bounded : ∀ r, visited.head? = some r →
    r.2 = headAddr ∧ visited.length ≤ max 1 (r.1.seq.toNat + 1 - stopSeq.toNat)
  /-- A walk that succeeds came to the number asked for, or to a first record. -/
  ok : rc = .sign (.cas .ok) →
    ∃ last, visited.getLast? = some last ∧ (last.1.seq ≤ stopSeq ∨ last.1.prev = [])
  /-- One that is incomplete came to a record whose predecessor is not in the store. -/
  incomplete : rc = .eincomplete →
    ∃ last, visited.getLast? = some last ∧ validHash last.1.prev = true ∧ casExists st last.1.prev = false

/-! ## The loop -/

section
variable (check : SigCheck) (cs : Codecs) (st : Store)

theorem vchainLoad_ok (addr : Bytes) (v : Vrec) :
    vchainLoad check cs noFaults st addr = .ok v ↔ VrecAt check cs st addr v := by
  unfold vchainLoad VrecAt
  cases ho : casOpenObject cs noFaults st addr with
  | error rc => simp
  | ok obj =>
    obtain ⟨type, data⟩ := obj
    by_cases htype : type = tVrec
    · subst htype
      simp
    · simp [htype]

/-- `vchain_load` and `load_record` do the same. -/
theorem vchainLoad_eq (addr : Bytes) :
    vchainLoad check cs noFaults st addr = loadRecord check cs noFaults st addr := rfl

/-- A walk of one record. -/
theorem walkMeets_one (v : Vrec) (addr : Bytes) (stopSeq : BitVec 64) (rc : WalkStatus)
    (hv : VrecAt check cs st addr v) (hok : rc = .sign (.cas .ok) → v.seq ≤ stopSeq ∨ v.prev = [])
    (hincomplete : rc = .eincomplete → validHash v.prev = true ∧ casExists st v.prev = false) :
    WalkMeets check cs st addr stopSeq rc [(v, addr)] := by
  constructor
  case stored =>
    intro r hr
    obtain rfl := List.mem_singleton.mp hr
    exact hv
  case topic =>
    intro r hr r' hr'
    rw [List.mem_singleton.mp hr, List.mem_singleton.mp hr']
  case linked => exact List.isChain_singleton _
  case bounded =>
    intro r hr
    obtain rfl := Option.some.inj hr
    exact ⟨rfl, le_max_left _ _⟩
  case ok => exact fun h => ⟨_, rfl, hok h⟩
  case incomplete => exact fun h => ⟨_, rfl, hincomplete h⟩

/-- A walk from a predecessor, from the record that names it. -/
theorem WalkMeets.cons {v prev : Vrec} {addr : Bytes} {stopSeq : BitVec 64} {rc : WalkStatus} {visited : List Visit}
    (h : WalkMeets check cs st v.prev stopSeq rc ((prev, v.prev) :: visited)) (hv : VrecAt check cs st addr v)
    (habove : ¬v.seq ≤ stopSeq) (hlink : Linked (v, addr) (prev, v.prev)) :
    WalkMeets check cs st addr stopSeq rc ((v, addr) :: (prev, v.prev) :: visited) := by
  have hlast : ((v, addr) :: (prev, v.prev) :: visited).getLast? = ((prev, v.prev) :: visited).getLast? :=
    List.getLast?_cons_cons
  have htopic : ∀ r ∈ (prev, v.prev) :: visited, r.1.topicId = v.topicId := by
    intro r hr
    rw [h.topic r hr (prev, v.prev) (by simp)]
    exact hlink.topic
  constructor
  case stored =>
    intro r hr
    rcases List.mem_cons.mp hr with rfl | hr
    · exact hv
    · exact h.stored r hr
  case topic =>
    have hall : ∀ r ∈ (v, addr) :: (prev, v.prev) :: visited, r.1.topicId = v.topicId := by
      intro r hr
      rcases List.mem_cons.mp hr with rfl | hr
      · rfl
      · exact htopic r hr
    intro r hr r' hr'
    rw [hall r hr, hall r' hr']
  case linked => exact List.IsChain.cons_cons hlink h.linked
  case bounded =>
    intro r hr
    obtain rfl := Option.some.inj hr
    refine ⟨rfl, ?_⟩
    have hrest := (h.bounded _ rfl).2
    have hseq : prev.seq.toNat + 1 = v.seq.toNat := hlink.seq
    rw [BitVec.le_def] at habove
    rw [List.length_cons]
    show _ ≤ max 1 (v.seq.toNat + 1 - stopSeq.toNat)
    have hrest' : ((prev, v.prev) :: visited).length ≤ max 1 (prev.seq.toNat + 1 - stopSeq.toNat) := hrest
    omega
  case ok => exact fun hrc => hlast ▸ h.ok hrc
  case incomplete => exact fun hrc => hlast ▸ h.incomplete hrc

/-- The number of a predecessor does not wrap, above the number asked for. -/
theorem seq_falls (v prev stopSeq : BitVec 64) (habove : ¬v ≤ stopSeq) (h : prev + 1 = v) :
    prev.toNat + 1 = v.toNat := by
  have hlt := prev.isLt
  have hsum : v.toNat = (prev.toNat + 1) % 2 ^ 64 := by
    rw [← h]
    simp [BitVec.toNat_add]
  rw [BitVec.le_def] at habove
  omega

/-- A record the walk does not go on from. -/
theorem vchainLoop_last (v : Vrec) (addr : Bytes) (stopSeq : BitVec 64) (h : v.seq ≤ stopSeq ∨ v.prev = [])
    (fuel : Nat) (seen : List Visit) :
    vchainLoop check cs noFaults st keepsWalking stopSeq (fuel + 1) v addr seen =
      some (.sign (.cas .ok), seen ++ [(v, addr)]) := by
  unfold vchainLoop
  dsimp only
  rw [if_neg (by simp [keepsWalking]), if_pos h]

/-- **A turn** above the number, with a predecessor named: the walk fails, or goes on from the predecessor. -/
theorem vchainLoop_turn (v : Vrec) (addr : Bytes) (stopSeq : BitVec 64) (habove : ¬v.seq ≤ stopSeq)
    (hprev : v.prev ≠ []) :
    (∃ rc, rc ≠ .sign (.cas .ok) ∧
      (rc = .eincomplete → validHash v.prev = true ∧ casExists st v.prev = false) ∧
      ∀ fuel seen, vchainLoop check cs noFaults st keepsWalking stopSeq (fuel + 1) v addr seen =
        some (rc, seen ++ [(v, addr)])) ∨
    ∃ prev, VrecAt check cs st v.prev prev ∧ Linked (v, addr) (prev, v.prev) ∧
      ∀ fuel seen, vchainLoop check cs noFaults st keepsWalking stopSeq (fuel + 1) v addr seen =
        vchainLoop check cs noFaults st keepsWalking stopSeq fuel prev v.prev (seen ++ [(v, addr)]) := by
  have hgoes : ¬(v.seq ≤ stopSeq ∨ v.prev = []) := by
    rintro (h | h)
    · exact habove h
    · exact hprev h
  cases hload : vchainLoad check cs noFaults st v.prev with
  | error rc =>
    by_cases hrc : rc = .cas .enotfound
    · subst hrc
      have habsent := (loadRecord_enotfound_iff check cs st v.prev).mp hload
      refine Or.inl ⟨.eincomplete, by simp, fun _ => habsent, fun fuel seen => ?_⟩
      conv_lhs => unfold vchainLoop
      dsimp only
      rw [if_neg (by simp [keepsWalking]), if_neg hgoes, hload]
    · have hne : rc ≠ .cas .ok := by
        rintro rfl
        exact loadRecord_ne_ok check cs noFaults st v.prev hload
      refine Or.inl ⟨.sign rc, by simpa using hne, (fun h => by cases h), fun fuel seen => ?_⟩
      conv_lhs => unfold vchainLoop
      dsimp only
      rw [if_neg (by simp [keepsWalking]), if_neg hgoes, hload]
      split
      · next h => exact absurd (Except.error.inj h) hrc
      · next h => rw [Except.error.inj h]
      · next h => cases h
  | ok prev =>
    by_cases htopic : prev.topicId = v.topicId
    · by_cases hseq : prev.seq + 1 = v.seq
      · have hlink : Linked (v, addr) (prev, v.prev) := ⟨rfl, htopic, seq_falls v.seq prev.seq stopSeq habove hseq⟩
        refine Or.inr ⟨prev, (vchainLoad_ok check cs st _ _).mp hload, hlink, fun fuel seen => ?_⟩
        conv_lhs => unfold vchainLoop
        dsimp only
        rw [if_neg (by simp [keepsWalking]), if_neg hgoes, hload]
        dsimp only
        rw [if_neg (not_not.mpr htopic), if_neg (not_not.mpr hseq)]
      · refine Or.inl ⟨.sign .echain, by simp, (fun h => by cases h), fun fuel seen => ?_⟩
        conv_lhs => unfold vchainLoop
        dsimp only
        rw [if_neg (by simp [keepsWalking]), if_neg hgoes, hload]
        dsimp only
        rw [if_neg (not_not.mpr htopic), if_pos hseq]
    · refine Or.inl ⟨.sign .etopic, by simp, (fun h => by cases h), fun fuel seen => ?_⟩
      conv_lhs => unfold vchainLoop
      dsimp only
      rw [if_neg (by simp [keepsWalking]), if_neg hgoes, hload]
      dsimp only
      rw [if_pos htopic]

/-- **The loop ends, and what it visits is a chain**: the induction is on how far the record is above the number. -/
theorem vchainLoop_meets (stopSeq : BitVec 64) (n : Nat) (v : Vrec) (addr : Bytes)
    (hn : v.seq.toNat - stopSeq.toNat = n) (hv : VrecAt check cs st addr v) :
    ∃ rc more, WalkMeets check cs st addr stopSeq rc ((v, addr) :: more) ∧ ∀ fuel seen, n < fuel →
      vchainLoop check cs noFaults st keepsWalking stopSeq fuel v addr seen = some (rc, seen ++ (v, addr) :: more) := by
  induction n generalizing v addr with
  | zero =>
    have hle : v.seq ≤ stopSeq := by
      rw [BitVec.le_def]
      omega
    refine ⟨.sign (.cas .ok), [], ?_, ?_⟩
    · exact walkMeets_one check cs st v addr stopSeq _ hv (fun _ => Or.inl hle) (fun h => by cases h)
    · intro fuel seen hfuel
      obtain ⟨fuel, rfl⟩ : ∃ m, fuel = m + 1 := ⟨fuel - 1, by omega⟩
      exact vchainLoop_last check cs st v addr stopSeq (Or.inl hle) fuel seen
  | succ n ih =>
    have habove : ¬v.seq ≤ stopSeq := by
      rw [BitVec.le_def]
      omega
    by_cases hfirst : v.prev = []
    · refine ⟨.sign (.cas .ok), [], ?_, ?_⟩
      · exact walkMeets_one check cs st v addr stopSeq _ hv (fun _ => Or.inr hfirst) (fun h => by cases h)
      · intro fuel seen hfuel
        obtain ⟨fuel, rfl⟩ : ∃ m, fuel = m + 1 := ⟨fuel - 1, by omega⟩
        exact vchainLoop_last check cs st v addr stopSeq (Or.inr hfirst) fuel seen
    · rcases vchainLoop_turn check cs st v addr stopSeq habove hfirst with
        ⟨rc, hok, hincomplete, hrun⟩ | ⟨prev, hprev, hlink, hrun⟩
      · refine ⟨rc, [], ?_, ?_⟩
        · exact walkMeets_one check cs st v addr stopSeq rc hv (fun h => absurd h hok) hincomplete
        · intro fuel seen hfuel
          obtain ⟨fuel, rfl⟩ : ∃ m, fuel = m + 1 := ⟨fuel - 1, by omega⟩
          exact hrun fuel seen
      · have hfalls : prev.seq.toNat + 1 = v.seq.toNat := hlink.seq
        obtain ⟨rc, more, hmeets, hrest⟩ := ih prev v.prev (by omega) hprev
        refine ⟨rc, (prev, v.prev) :: more, hmeets.cons check cs st hv habove hlink, ?_⟩
        intro fuel seen hfuel
        obtain ⟨fuel, rfl⟩ : ∃ m, fuel = m + 1 := ⟨fuel - 1, by omega⟩
        rw [hrun fuel seen, hrest fuel _ (by omega)]
        simp

/-- **A walk that is not stopped ends**, within the numbers from the head down, over a gapless chain. -/
theorem vchain_walk_bounded (headAddr : Bytes) (stopSeq : BitVec 64) :
    ∃ rc visited, WalkMeets check cs st headAddr stopSeq rc visited ∧ ∀ fuel, 2 ^ 64 ≤ fuel →
      casVchainWalk check cs noFaults st keepsWalking fuel headAddr stopSeq = some (rc, visited) := by
  cases hload : vchainLoad check cs noFaults st headAddr with
  | error rc =>
    have hne : rc ≠ .cas .ok := by
      rintro rfl
      exact loadRecord_ne_ok check cs noFaults st headAddr hload
    refine ⟨.sign rc, [], ?_, ?_⟩
    · constructor
      case stored => exact fun r hr => by cases hr
      case topic => exact fun r hr => by cases hr
      case linked => exact List.IsChain.nil
      case bounded => exact fun r hr => by cases hr
      case ok => exact fun h => absurd (WalkStatus.sign.inj h) hne
      case incomplete => exact fun h => by cases h
    · intro fuel _
      unfold casVchainWalk
      rw [hload]
  | ok v =>
    obtain ⟨rc, more, hmeets, hrun⟩ := vchainLoop_meets check cs st stopSeq _ v headAddr rfl
      ((vchainLoad_ok check cs st _ _).mp hload)
    refine ⟨rc, _, hmeets, ?_⟩
    intro fuel hfuel
    have hlt := v.seq.isLt
    unfold casVchainWalk
    rw [hload]
    exact hrun fuel [] (by omega)

end

end Smolvfs
