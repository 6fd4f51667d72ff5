import KeyTransparency.Proofs.Partition.Growth
import KeyTransparency.Proofs.Partition.Order

/-!
# The two kinds of partition agree

A window partition is an aggregated one that keeps no history (`withoutHistory`): whatever goes through
at the one goes through at the other, with the same positions and the same states but for the history.

    p.run operations = (p', events)
      → p.withoutHistory.run (what went through) = (p'.withoutHistory, events)    (run_withoutHistory)

The snapshot under the newest root of a history is the audited one, so the last base proof is the base
proof of a window partition.  The proofs from older snapshots make no difference to a client: with the
key in one of them it is in the audited one, which is newer.

    claim.validate digest proof = ok ↔ the claim is about the key, and the newest proof has its entry,
      and it is signed                                                            (validate_honest_iff)
-/

namespace KeyTransparency

open Trie Forest

namespace Partition

/-! ## Leaving out the history -/

/-- The partition as one of the other kind, which keeps no history. -/
def withoutHistory (p : Partition) : Partition := { p with history := none }

section

variable {p next : Partition}

theorem append_withoutHistory {identifier value signature : Bytes} {position : UInt64}
    (h : p.append identifier value signature = .ok (next, position)) :
    p.withoutHistory.append identifier value signature = .ok (next.withoutHistory, position) := by
  simp only [append] at h
  split at h
  · cases h
  · next base hrun =>
    cases h
    simp only [append, withoutHistory, hrun]

theorem sealUpdates_withoutHistory (h : p.sealUpdates = .ok next) :
    p.withoutHistory.sealUpdates = .ok next.withoutHistory := by
  obtain ⟨trie, htrie, h⟩ := bind_eq_ok_iff.1 h
  cases h
  exact bind_eq_ok_iff.2 ⟨trie, htrie, rfl⟩

theorem advance_withoutHistory (h : p.advance = .ok next) :
    p.withoutHistory.advance = .ok next.withoutHistory := by
  rw [advance_eq] at h ⊢
  obtain ⟨roots, hroots, h⟩ := bind_eq_ok_iff.1 h
  obtain ⟨history, -, h⟩ := bind_eq_ok_iff.1 h
  cases h
  exact bind_eq_ok_iff.2 ⟨roots, hroots, rfl⟩

/-- What goes through where a history is kept goes through without it. -/
theorem perform_withoutHistory {operation : Operation} {event : Event}
    (h : p.perform operation = .ok (next, event)) :
    event.operation = operation ∧
      p.withoutHistory.perform operation = .ok (next.withoutHistory, event) := by
  cases operation with
  | append identifier value signature =>
    obtain ⟨⟨after, position⟩, hrun, h⟩ := bind_eq_ok_iff.1 h
    cases h
    exact ⟨rfl, bind_eq_ok_iff.2 ⟨_, append_withoutHistory hrun, rfl⟩⟩
  | sealUpdates =>
    obtain ⟨after, hrun, h⟩ := bind_eq_ok_iff.1 h
    cases h
    exact ⟨rfl, bind_eq_ok_iff.2 ⟨_, sealUpdates_withoutHistory hrun, rfl⟩⟩
  | advance =>
    obtain ⟨after, hrun, h⟩ := bind_eq_ok_iff.1 h
    cases h
    exact ⟨rfl, bind_eq_ok_iff.2 ⟨_, advance_withoutHistory hrun, rfl⟩⟩

/-- **Runs.**  A partition without a history does the same with what went through at one with. -/
theorem run_withoutHistory (p : Partition) (operations : List Operation) :
    p.withoutHistory.run ((p.run operations).2.map Event.operation) =
      ((p.run operations).1.withoutHistory, (p.run operations).2) := by
  induction operations generalizing p with
  | nil => rfl
  | cons operation operations ih =>
    rw [run]
    cases hrun : p.perform operation with
    | error e => exact ih p
    | ok result =>
      obtain ⟨next, event⟩ := result
      obtain ⟨rfl, hrun'⟩ := perform_withoutHistory hrun
      dsimp only
      rw [List.map_cons, run, hrun']
      dsimp only
      rw [ih next]

theorem create_withoutHistory {depth : Nat} (h : create true depth = .ok p) :
    create false depth = .ok p.withoutHistory := by
  obtain ⟨first, hfirst, h⟩ := bind_eq_ok_iff.1 h
  have hfirst' : (initial none).advance = .ok first.withoutHistory := advance_withoutHistory hfirst
  exact bind_eq_ok_iff.2 ⟨_, hfirst', advance_withoutHistory h⟩

/-- A window partition ends a run as the aggregated one does, but for the history. -/
theorem operate_withoutHistory {depth : Nat} {operations : List Operation} {events : List Event}
    (h : operate true depth operations = .ok (p, events)) :
    operate false depth (events.map Event.operation) = .ok (p.withoutHistory, events) := by
  obtain ⟨start, hstart, h⟩ := bind_eq_ok_iff.1 h
  have hrun : start.run operations = (p, events) := Except.ok.inj h
  have hsame := run_withoutHistory start operations
  rw [hrun] at hsame
  refine bind_eq_ok_iff.2 ⟨_, create_withoutHistory hstart, ?_⟩
  rw [hsame]
  rfl

end

end Partition

namespace Reflects

variable {p : Partition} {ledger : Ledger} {aggregated : Bool} {depth : Nat}

/-- One ledger accounts for both. -/
theorem withoutHistory (h : Reflects p ledger aggregated depth) :
    Reflects p.withoutHistory ledger false depth :=
  { h with
    history := rfl
    room := fun hkept => nomatch hkept }

/-! ## A history with room -/

/-- Where the history has room for all the periods that are to end, nothing is refused. -/
theorem operations_run_of_room (h : Reflects p ledger aggregated depth)
    (operations : List Partition.Operation)
    (hroom : aggregated = true →
      ledger.period + operations.count .advance ≤ HistoryForest.capacityOf depth + 1) :
    (p.run operations).2.map Partition.Event.operation = operations := by
  induction operations generalizing p ledger with
  | nil => rfl
  | cons operation operations ih =>
    rw [Partition.run]
    rcases h.perform operation with ⟨e, hrun, rfl, rfl⟩ | ⟨next, event, hrun, rfl, hnext⟩
    · -- it was not the history that refused
      have hroom := hroom rfl
      rw [List.count_cons_self] at hroom
      obtain ⟨next, hadvance, -⟩ := h.advance fun _ => by omega
      rw [Partition.perform, hadvance] at hrun
      cases hrun
    · rw [hrun]
      dsimp only
      rw [List.map_cons, ih hnext]
      intro hkept
      have hroom := hroom hkept
      cases event with
      | published => exact hroom
      | sealed => exact hroom
      | advanced =>
        rw [Partition.Event.operation, List.count_cons_self] at hroom
        rw [Ledger.period_record_advanced]
        omega

end Reflects

namespace Partition

/-- An aggregated partition with room in its history performs all operations. -/
theorem operate_of_room (depth : Nat) (operations : List Operation)
    (hroom : operations.count .advance < HistoryForest.capacityOf depth) :
    ∃ p events, operate true depth operations = .ok (p, events) ∧
      events.map Event.operation = operations ∧ Reflects p (Ledger.ofEvents events) true depth := by
  obtain ⟨start, hstart, h⟩ := create_reflects true depth
  have hperiod : (Ledger.ofEvents []).period = 2 := rfl
  refine ⟨_, _, bind_eq_ok_iff.2 ⟨start, hstart, rfl⟩, ?_, h.run operations⟩
  apply h.operations_run_of_room
  intro _
  rw [hperiod]
  omega

end Partition

/-! ## Base proofs -/

/-- The audited epoch is the last of the settled epochs that the history's roots name. -/
theorem Ledger.exists_settledEpochs_eq {ledger : Ledger} (hperiod : 2 ≤ ledger.period) :
    ∃ older, ledger.settledEpochs true = older ++ ledger.settledEpochs false := by
  have hmem : ledger.period - 2 ∈ ledger.settledEpochs true :=
    ledger.audited_mem_settledEpochs hperiod
  obtain ⟨older, last, hsplit⟩ :=
    (List.eq_nil_or_concat (ledger.settledEpochs true)).resolve_left (List.ne_nil_of_mem hmem)
  rw [List.concat_eq_append] at hsplit
  have hordered := ledger.pairwise_settledEpochs true
  have hlast : last ∈ ledger.settledEpochs true := hsplit ▸ List.mem_append_right _ List.mem_cons_self
  have hlt := Ledger.lt_of_mem_settledEpochs hperiod hlast
  rw [hsplit] at hmem hordered ⊢
  obtain ⟨-, -, hbefore⟩ := List.pairwise_append.1 hordered
  rcases List.mem_append.1 hmem with holder | hsame
  · have hless := hbefore _ holder last List.mem_cons_self
    omega
  · exact ⟨older, by rw [← List.mem_singleton.1 hsame]; rfl⟩

namespace Partition

theorem existenceProof_eq_ok_iff {p : Partition} {identifier : Bytes} {proof : ExistenceProof} :
    p.existenceProof identifier = .ok proof ↔
      ∃ epochs, p.provenEpochs = .ok epochs ∧
        epochs.mapM (p.base.prove (Bits.ofIdentifier identifier)) = .ok proof.base ∧
        p.window.query.tries.mapM (·.prove (Bits.ofIdentifier identifier)) = .ok proof.updates := by
  constructor
  · intro h
    obtain ⟨epochs, hepochs, h⟩ := bind_eq_ok_iff.1 h
    obtain ⟨base, hbase, h⟩ := bind_eq_ok_iff.1 h
    obtain ⟨updates, hupdates, h⟩ := bind_eq_ok_iff.1 h
    cases h
    exact ⟨epochs, hepochs, hbase, hupdates⟩
  · rintro ⟨epochs, hepochs, hbase, hupdates⟩
    exact bind_eq_ok_iff.2 ⟨epochs, hepochs, bind_eq_ok_iff.2 ⟨_, hbase,
      bind_eq_ok_iff.2 ⟨_, hupdates, rfl⟩⟩⟩

end Partition

/-- Both kinds' proofs about an identifier: a window partition has the last base proof and the same
update proofs. -/
theorem Reflects.exists_existenceProofs {p : Partition} {ledger : Ledger} {depth : Nat}
    (h : Reflects p ledger true depth) (hperiod : 2 ≤ ledger.period)
    (hwords : ledger.period - 1 ≤ UInt64.size) (identifier : Bytes) :
    ∃ older only updates,
      p.withoutHistory.existenceProof identifier = .ok ⟨[only], updates⟩ ∧
      p.existenceProof identifier = .ok ⟨older ++ [only], updates⟩ ∧
      List.Forall₂ (LookupProof.AnswersFor (Bits.ofIdentifier identifier)) [only]
        (ledger.namedBase false) ∧
      List.Forall₂ (LookupProof.AnswersFor (Bits.ofIdentifier identifier)) (older ++ [only])
        (ledger.namedBase true) ∧
      List.Forall₂ (LookupProof.AnswersFor (Bits.ofIdentifier identifier)) updates
        ledger.namedUpdates := by
  obtain ⟨⟨base, updates⟩, hproof, hanswers, -⟩ := h.exists_existenceProof hperiod hwords identifier
  obtain ⟨⟨base', updates'⟩, hproof', hanswers', hupdates'⟩ :=
    h.withoutHistory.exists_existenceProof hperiod hwords identifier
  obtain ⟨only, rfl⟩ := List.length_eq_one_iff.1 hanswers'.length_eq
  obtain ⟨epochs, hepochs, hbase, hupdates⟩ := Partition.existenceProof_eq_ok_iff.1 hproof
  obtain ⟨epochs', hepochs', hbase', hsame⟩ := Partition.existenceProof_eq_ok_iff.1 hproof'
  rw [h.provenEpochs_eq hperiod hwords] at hepochs
  rw [h.withoutHistory.provenEpochs_eq hperiod hwords] at hepochs'
  obtain rfl := Except.ok.inj hepochs
  obtain rfl := Except.ok.inj hepochs'
  obtain rfl : updates' = updates := Except.ok.inj (hsame.symm.trans hupdates)
  obtain ⟨earlier, hearlier⟩ := Ledger.exists_settledEpochs_eq hperiod
  rw [hearlier, List.mapM_append] at hbase
  obtain ⟨older, -, hbase⟩ := bind_eq_ok_iff.1 hbase
  obtain ⟨last, hlast, hbase⟩ := bind_eq_ok_iff.1 hbase
  obtain rfl : last = [only] := Except.ok.inj (hlast.symm.trans hbase')
  obtain rfl : older ++ [only] = base := Except.ok.inj hbase
  exact ⟨older, only, updates', hproof', hproof, hanswers', hanswers, hupdates'⟩

/-! ## Validation -/

/-- A proof of membership verifies for one key only, whatever the roots. -/
theorem LookupProof.key_unique {proof : LookupProof} (hmember : proof.isMember = true) {key key' : Bits}
    {root root' : Hash} (h : proof.verify key root = .ok ()) (h' : proof.verify key' root' = .ok ()) :
    key = key' := by
  cases proof with
  | member proof values =>
    obtain ⟨-, -, hkey, -⟩ := MembershipProof.verify_eq_ok_iff.1 h
    obtain ⟨-, -, hkey', -⟩ := MembershipProof.verify_eq_ok_iff.1 h'
    exact hkey.symm.trans hkey'
  | nonMember => cases hmember

/-- Proofs from older snapshots do not change which proof of membership is the newest. -/
theorem Validation.Stays.newest_append {older rest : List LookupProof} {only : LookupProof}
    (h : Validation.Stays (older ++ [only])) :
    LookupProof.newest (older ++ [only] ++ rest) = LookupProof.newest ([only] ++ rest) := by
  rw [List.append_assoc, LookupProof.newest, List.reverse_append, List.find?_append, ← LookupProof.newest]
  cases hnewest : LookupProof.newest ([only] ++ rest) with
  | some found => rfl
  | none =>
    -- then the key is not in the audited snapshot, and so in no older one
    obtain ⟨-, -, hbefore⟩ := List.pairwise_append.1 h
    have honly := List.find?_eq_none.1 hnewest only (by simp)
    rw [Option.none_or, List.find?_eq_none]
    intro proof hproof hmember
    exact honly (hbefore proof (List.mem_reverse.1 hproof) only List.mem_cons_self hmember)

/-- **What honest proofs get accepted.**  With the proofs that a partition makes about an identifier a
claim is accepted if it is about that identifier's key, the newest proof of membership has its entry and
its owner has signed it, and not otherwise. -/
theorem Reflects.validate_honest_iff {p : Partition} {ledger : Ledger} {aggregated : Bool} {depth : Nat}
    (h : Reflects p ledger aggregated depth) (hperiod : 2 ≤ ledger.period) {key : Bits}
    (proof : ExistenceProof)
    (hbase : List.Forall₂ (LookupProof.AnswersFor key) proof.base (ledger.namedBase aggregated))
    (hupdates : List.Forall₂ (LookupProof.AnswersFor key) proof.updates ledger.namedUpdates)
    (scheme : SignatureScheme) (claim : Claim) :
    claim.validate scheme (ledger.digest aggregated depth) proof = .ok () ↔
      claim.key = key ∧
        (∃ found, LookupProof.newest proof.all = some found ∧ claim.leafEntry ∈ found.values) ∧
        claim.verifySignature scheme = .ok () := by
  constructor
  · intro hvalid
    have haccepted := Claim.accepted_of_validate hvalid
    obtain ⟨found, hnewest, hentry⟩ := haccepted.newest
    refine ⟨?_, ⟨found, hnewest, hentry⟩, haccepted.signature⟩
    have hfound : found ∈ proof.all := List.mem_reverse.1 (List.mem_of_find?_eq_some hnewest)
    obtain ⟨i, hi⟩ := List.mem_iff_getElem?.1 hfound
    obtain ⟨root, -, hverify⟩ := getElem?_of_forall₂ haccepted.verified.flip hi
    obtain ⟨insertions, -, hanswers⟩ := getElem?_of_forall₂ (List.rel_append hbase hupdates).flip hi
    exact LookupProof.key_unique (LookupProof.isMember_of_mem_values hentry) hverify hanswers.verify
  · rintro ⟨rfl, hnewest, hsigned⟩
    obtain ⟨hverified, hverifiedUpdates⟩ := h.verify_of_answers hperiod hbase hupdates
    exact Claim.validate_of_verified hverified hverifiedUpdates (stays_of_answers hbase) hnewest hsigned

namespace Partition

/-- **Both kinds agree.**  After the same operations on a partition of either kind, no more of which end
a verification period than the history has room for: the same events have taken place, with the same
positions; the digests are the same but for the history; about every identifier the update proofs are
the same, and the base proof of the window partition is the last one of the aggregated partition; and
with the digest and the proofs of the one a claim is accepted exactly if it is with those of the
other.  Periods are numbered by words. -/
theorem kinds_agree (depth : Nat) (operations : List Operation)
    (hroom : operations.count .advance < HistoryForest.capacityOf depth)
    (hwords : operations.count .advance < UInt64.size) :
    ∃ window aggregated events digest digest',
      operate false depth operations = .ok (window, events) ∧
      operate true depth operations = .ok (aggregated, events) ∧
      events.map Event.operation = operations ∧
      window.digest = .ok digest ∧ aggregated.digest = .ok digest' ∧
      digest = { digest' with history := none } ∧
      ∀ identifier, ∃ older only updates,
        window.existenceProof identifier = .ok ⟨[only], updates⟩ ∧
        aggregated.existenceProof identifier = .ok ⟨older ++ [only], updates⟩ ∧
        ∀ (scheme : SignatureScheme) (claim : Claim),
          claim.validate scheme digest ⟨[only], updates⟩ = .ok () ↔
            claim.validate scheme digest' ⟨older ++ [only], updates⟩ = .ok () := by
  obtain ⟨p, events, hrun, hevents, h⟩ := operate_of_room depth operations hroom
  have hrun' := operate_withoutHistory hrun
  rw [hevents] at hrun'
  have hperiod := Ledger.two_le_period events
  have hcount : (Ledger.ofEvents events).period = 2 + operations.count .advance := by
    rw [← hevents]
    exact Ledger.period_foldl _ events
  refine ⟨_, p, events, _, _, hrun', hrun, hevents, h.withoutHistory.digest_eq hperiod,
    h.digest_eq hperiod, rfl, ?_⟩
  intro identifier
  obtain ⟨older, only, updates, hproof, hproof', hbase, hbase', hupdates⟩ :=
    h.exists_existenceProofs hperiod (by omega) identifier
  refine ⟨older, only, updates, hproof, hproof', ?_⟩
  intro scheme claim
  have hstays : Validation.Stays (ExistenceProof.mk (older ++ [only]) updates).base :=
    stays_of_answers hbase'
  have hnewest : LookupProof.newest (ExistenceProof.all ⟨older ++ [only], updates⟩) =
      LookupProof.newest (ExistenceProof.all ⟨[only], updates⟩) := hstays.newest_append
  rw [h.withoutHistory.validate_honest_iff hperiod ⟨[only], updates⟩ hbase hupdates,
    h.validate_honest_iff hperiod ⟨older ++ [only], updates⟩ hbase' hupdates, hnewest]

/-- A history with two roots: the first is older than the value, and the second has it. -/
theorem kinds_agree_two_roots :
    let operations : List Operation :=
      [.append [1] [2] [3], .sealUpdates, .advance, .advance, .append [1] [4] [5], .sealUpdates]
    operations.count .advance < HistoryForest.capacityOf 2 ∧ operations.count .advance < UInt64.size ∧
      ∃ window aggregated events digest digest' older only updates,
        operate false 2 operations = .ok (window, events) ∧
        operate true 2 operations = .ok (aggregated, events) ∧
        window.digest = .ok digest ∧ aggregated.digest = .ok digest' ∧
        window.existenceProof [1] = .ok ⟨[only], updates⟩ ∧
        aggregated.existenceProof [1] = .ok ⟨older ++ [only], updates⟩ ∧
        (older ++ [only]).map LookupProof.isMember = [false, true] ∧
        ∀ (scheme : SignatureScheme) (claim : Claim),
          claim.validate scheme digest ⟨[only], updates⟩ = .ok () ↔
            claim.validate scheme digest' ⟨older ++ [only], updates⟩ = .ok () := by
  intro operations
  have hroom : operations.count .advance < HistoryForest.capacityOf 2 := by decide
  have hwords : operations.count .advance < UInt64.size := by decide
  obtain ⟨window, aggregated, events, digest, digest', hrun, hrun', -, hdigest, hdigest', -, hproofs⟩ :=
    kinds_agree 2 operations hroom hwords
  obtain ⟨older, only, updates, hproof, hproof', hvalid⟩ := hproofs [1]
  have hlook : ((operate true 2 operations).bind fun last => last.1.existenceProof [1]).map
      (fun proof => proof.base.map LookupProof.isMember) = .ok [false, true] := by
    decide +kernel
  rw [hrun'] at hlook
  rw [Except.bind, hproof'] at hlook
  exact ⟨hroom, hwords, window, aggregated, events, digest, digest', older, only, updates, hrun, hrun',
    hdigest, hdigest', hproof, hproof', Except.ok.inj hlook, hvalid⟩

end Partition

end KeyTransparency
