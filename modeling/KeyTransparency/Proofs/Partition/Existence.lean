import KeyTransparency.Proofs.Partition.Digest
import KeyTransparency.Proofs.Partition.Named

/-!
# Proofs of existence

A partition proves about every identifier what each of the tries that its digest names holds under it.
The proofs are as many as the named roots and in their order, each verifies against its root, and every
value whose update epoch has ended is in one of them:

    p.existenceProof identifier = ok ⟨base, updates⟩, with a proof from each named trie
                                                                     (Reflects.exists_existenceProof)
-/

namespace KeyTransparency

open Trie Forest

/-! ## Proofs from several tries -/

/-- A function with results of a kind on all elements of a list has a list of such results. -/
theorem exists_mapM_eq_ok {α β ε : Type} {f : α → Except ε β} {R : β → α → Prop} (as : List α)
    (h : ∀ a ∈ as, ∃ b, f a = .ok b ∧ R b a) :
    ∃ bs, as.mapM f = .ok bs ∧ List.Forall₂ R bs as := by
  induction as with
  | nil => exact ⟨[], rfl, .nil⟩
  | cons a as ih =>
    obtain ⟨b, hb, hR⟩ := h a List.mem_cons_self
    obtain ⟨bs, hbs, hRs⟩ := ih fun a ha => h a (List.mem_cons_of_mem _ ha)
    refine ⟨b :: bs, ?_, .cons hR hRs⟩
    rw [List.mapM_cons, hb, hbs]
    rfl

namespace Reflects

variable {p : Partition} {ledger : Ledger} {aggregated : Bool} {depth : Nat}

/-- The base proofs come from the snapshots of the settled epochs, as long as eight bytes can number
these. -/
theorem provenEpochs_eq (h : Reflects p ledger aggregated depth) (hperiod : 2 ≤ ledger.period)
    (hwords : ledger.period - 1 ≤ UInt64.size) :
    p.provenEpochs = .ok (ledger.settledEpochs aggregated) := by
  have hhistory := h.history
  cases aggregated with
  | false =>
    rw [Partition.provenEpochs, hhistory]
    show (do pure [← p.auditedEpoch]) = _
    rw [h.auditedEpoch_eq hperiod]
    rfl
  | true =>
    have hnewest := congrArg (List.map fun leaf => leaf.2.toNat)
      (Ledger.map_newest_history hperiod (h.room rfl))
    rw [List.map_map, List.map_map] at hnewest
    rw [Partition.provenEpochs, hhistory]
    refine congrArg Except.ok (hnewest.trans ?_)
    refine (List.map_congr_left fun epoch hepoch => ?_).trans (List.map_id _)
    have hlt := Ledger.lt_of_mem_settledEpochs hperiod hepoch
    exact UInt64.toNat_ofNat_of_lt' (by omega)

theorem exists_prove_base (h : Reflects p ledger aggregated depth) {key : Bits} (hkey : key.IsKey)
    {epoch : Nat} (he : epoch ≤ ledger.period) :
    ∃ proof, p.base.prove key epoch = .ok proof ∧ proof.AnswersFor key (ledger.snapshot epoch) := by
  have hkeys : ∀ insertion ∈ ledger.snapshot epoch, insertion.1.IsKey := fun _ =>
    Ledger.isKey_of_mem_snapshot
  obtain ⟨proof, hproof, -, hanswers⟩ := exists_prove_trieOver hkeys hkey
  refine ⟨proof, ?_, hanswers⟩
  rw [h.base.prove_eq (h.epoch ▸ he) hkey.length_eq hkey.ne_nil, Ledger.plainAt_dated]
  exact hproof

theorem exists_prove_update {key : Bits} (hkey : key.IsKey) (sealing : Sealing) :
    ∃ proof, (ledger.updateTrie sealing.updateEpoch).toSealed.prove key = .ok proof ∧
      proof.AnswersFor key (ledger.batch sealing.updateEpoch) := by
  have hkeys : ∀ insertion ∈ ledger.batch sealing.updateEpoch, insertion.1.IsKey := fun _ =>
    Ledger.isKey_of_mem_batch
  obtain ⟨proof, -, hproof, hanswers⟩ := exists_prove_trieOver hkeys hkey
  exact ⟨proof, hproof, hanswers⟩

/-- **A partition has its proofs.** -/
theorem exists_existenceProof (h : Reflects p ledger aggregated depth) (hperiod : 2 ≤ ledger.period)
    (hwords : ledger.period - 1 ≤ UInt64.size) (identifier : Bytes) :
    ∃ proof, p.existenceProof identifier = .ok proof ∧
      List.Forall₂ (LookupProof.AnswersFor (Bits.ofIdentifier identifier)) proof.base
        (ledger.namedBase aggregated) ∧
      List.Forall₂ (LookupProof.AnswersFor (Bits.ofIdentifier identifier)) proof.updates
        ledger.namedUpdates := by
  have hkey := Bits.isKey_ofIdentifier identifier
  have hsettled : ∀ epoch ∈ ledger.settledEpochs aggregated, epoch ≤ ledger.period := by
    intro epoch hepoch
    have hlt := Ledger.lt_of_mem_settledEpochs hperiod hepoch
    omega
  obtain ⟨base, hbase, hanswers⟩ := exists_mapM_eq_ok (ledger.settledEpochs aggregated)
    fun epoch hepoch => h.exists_prove_base hkey (hsettled epoch hepoch)
  obtain ⟨updates, hupdates, hanswers'⟩ := exists_mapM_eq_ok
    (ledger.sealingsSince (ledger.period - 1)) fun sealing _ => exists_prove_update hkey sealing
  refine ⟨⟨base, updates⟩, ?_, List.forall₂_map_right_iff.2 hanswers,
    List.forall₂_map_right_iff.2 hanswers'⟩
  have htries : p.window.query.tries = (ledger.sealingsSince (ledger.period - 1)).map fun sealing =>
      (ledger.updateTrie sealing.updateEpoch).toSealed := by
    rw [h.window]
    rfl
  simp only [Partition.existenceProof, h.provenEpochs_eq hperiod hwords, htries, List.mapM_map, bind,
    Except.bind, hbase]
  rw [Function.comp_def, hupdates]
  rfl

/-- The proofs verify against the roots of the digest. -/
theorem verify_of_answers (h : Reflects p ledger aggregated depth) (hperiod : 2 ≤ ledger.period)
    {key : Bits} {proof : ExistenceProof}
    (hbase : List.Forall₂ (LookupProof.AnswersFor key) proof.base (ledger.namedBase aggregated))
    (hupdates : List.Forall₂ (LookupProof.AnswersFor key) proof.updates ledger.namedUpdates) :
    List.Forall₂ (fun found root => found.verify key root = .ok ()) proof.base
        (ledger.digest aggregated depth).baseRoots ∧
      List.Forall₂ (fun found root => found.verify key root = .ok ()) proof.updates
        (ledger.digest aggregated depth).updateRoots := by
  rw [Ledger.baseRoots_digest hperiod h.room, Ledger.updateRoots_digest]
  constructor
  · exact List.forall₂_map_right_iff.2 (hbase.imp fun _ _ hfound => hfound.verify)
  · exact List.forall₂_map_right_iff.2 (hupdates.imp fun _ _ hfound => hfound.verify)

/-- The positions below the sealed one are those of the update epochs that have ended. -/
theorem sealed_of_position_lt (h : Reflects p ledger aggregated depth)
    (hwords : ledger.publications.length < UInt64.size) {made : Publication}
    (hmade : made ∈ ledger.publications) (hposition : made.position < p.sealedPosition) :
    made.updateEpoch ≤ ledger.updateEpoch := by
  obtain ⟨i, hi, hget⟩ := List.mem_iff_getElem.1 hmade
  obtain ⟨hmadePosition, hsealed⟩ := h.consistent.position i made (List.getElem?_eq_some_iff.2 ⟨hi, hget⟩)
  have hcount : ledger.sealedCount ≤ ledger.publications.length := List.countP_le_length
  rw [hmadePosition, h.sealedPosition, UInt64.lt_iff_toNat_lt, UInt64.toNat_ofNat_of_lt' (by omega),
    UInt64.toNat_ofNat_of_lt' (by omega)] at hposition
  exact hsealed.2 hposition

end Reflects

namespace Partition

/-- **Nothing sealed ever drops out of what a digest proves.**  After every run with no more operations
than eight bytes can count, the proofs about an identifier are as many as the roots that the validator
checks them against, all of them verify, and every value that was given a position below the sealed one
is in one of them. -/
theorem existence_of_run (aggregated : Bool) (depth : Nat) (operations : List Operation)
    (hcount : operations.length < UInt64.size) (identifier : Bytes) :
    ∃ p events digest proof, operate aggregated depth operations = .ok (p, events) ∧
      p.digest = .ok digest ∧ p.existenceProof identifier = .ok proof ∧
      List.Forall₂ (fun found root => found.verify (Bits.ofIdentifier identifier) root = .ok ())
        proof.base digest.baseRoots ∧
      List.Forall₂ (fun found root => found.verify (Bits.ofIdentifier identifier) root = .ok ())
        proof.updates digest.updateRoots ∧
      ∀ made ∈ (Ledger.ofEvents events).publications, made.identifier = identifier →
        made.position < p.sealedPosition →
          ∃ found ∈ proof.base ++ proof.updates, found.isMember = true ∧ made.entry ∈ found.values := by
  obtain ⟨p, events, hrun, hsub, -, h⟩ := operate_reflects aggregated depth operations
  have hsize := Ledger.size_ofEvents_le hsub
  have hperiod := Ledger.two_le_period events
  obtain ⟨proof, hproof, hbase, hupdates⟩ := h.exists_existenceProof hperiod (by omega) identifier
  obtain ⟨hbaseVerified, hupdatesVerified⟩ := h.verify_of_answers hperiod hbase hupdates
  refine ⟨p, events, _, proof, hrun, h.digest_eq hperiod, hproof, hbaseVerified, hupdatesVerified, ?_⟩
  rintro made hmade rfl hposition
  obtain ⟨insertions, hnamed, hmem⟩ := h.consistent.covered hperiod hmade
    (h.sealed_of_position_lt (by omega) hmade hposition)
  obtain ⟨i, hi⟩ := List.mem_iff_getElem?.1 hnamed
  obtain ⟨found, hfound, hanswers⟩ := getElem?_of_forall₂ (List.rel_append hbase hupdates) hi
  have hvalue := hanswers.mem_values_iff.2 hmem
  exact ⟨found, List.mem_of_getElem? hfound, LookupProof.isMember_of_mem_values hvalue, hvalue⟩

/-- A value that has been sealed, and one published behind it under another identifier. -/
theorem existence_of_run_sealed_value :
    let operations : List Operation := [.append [1] [2] [3], .sealUpdates, .append [4] [5] [6]]
    let made : Publication := ⟨[1], [2], [3], 0, 2, 1⟩
    operations.length < UInt64.size ∧
      ∃ p events digest proof, operate false 0 operations = .ok (p, events) ∧
        p.digest = .ok digest ∧ p.existenceProof [1] = .ok proof ∧
        made ∈ (Ledger.ofEvents events).publications ∧ made.position < p.sealedPosition ∧
        ∃ found ∈ proof.base ++ proof.updates, found.isMember = true ∧ made.entry ∈ found.values := by
  intro operations made
  have hcount : operations.length < UInt64.size := by decide
  obtain ⟨p, events, digest, proof, hrun, hdigest, hproof, -, -, hvalues⟩ :=
    existence_of_run false 0 operations hcount [1]
  have hlook : (operate false 0 operations).map (fun last => (last.1.sealedPosition, last.2)) =
      .ok (1, [.published [1] [2] [3] 0, .sealed, .published [4] [5] [6] 1]) := by
    decide +kernel
  rw [hrun] at hlook
  obtain ⟨hsealed, rfl⟩ := Prod.mk.inj (Except.ok.inj hlook)
  have hmade : made ∈ (Ledger.ofEvents [.published [1] [2] [3] 0, .sealed,
      .published [4] [5] [6] 1]).publications := by decide
  have hposition : made.position < p.sealedPosition := by
    rw [hsealed]
    decide
  exact ⟨hcount, p, _, digest, proof, hrun, hdigest, hproof, hmade, hposition,
    hvalues made hmade rfl hposition⟩

end Partition

end KeyTransparency
