import KeyTransparency.Proofs.Partition.Freshness
import KeyTransparency.Proofs.Partition.Kinds

/-!
# When monitoring finds a value

An owner who watches a key checks the settled snapshots alone.  The newest of these is the audited one,
two verification periods back, whatever the history and however many roots it has; so the newest base
proof has an entry exactly if the audited snapshot has it:

    newest base proof has entry ↔ (key, entry) ∈ snapshot (period - 2)             (newest_base_iff)

What is published goes into the snapshot of its own period and of all later ones, and into no earlier
one.  So a value is found from two periods after its own on, and not before:

    validateMonitoring = ok ↔ the signature verifies, and the period it was published in + 2 ≤ the
      current period                                                            (monitoring_settles)
-/

namespace KeyTransparency

open Trie

/-- Lists related element by element, of which the second ends in `b`. -/
theorem forall₂_concat {α β : Type} {R : α → β → Prop} {as : List α} {bs : List β} {b : β}
    (h : List.Forall₂ R as (bs ++ [b])) :
    ∃ before last, as = before ++ [last] ∧ List.Forall₂ R before bs ∧ R last b := by
  have hbefore := List.forall₂_take_append as bs [b] h
  have hlast := List.forall₂_drop_append as bs [b] h
  obtain ⟨last, hsingle⟩ := List.length_eq_one_iff.1 hlast.length_eq
  rw [hsingle] at hlast
  refine ⟨as.take bs.length, last, ?_, hbefore, (List.forall₂_cons.1 hlast).1⟩
  rw [← hsingle, List.take_append_drop]

namespace Ledger

variable {ledger : Ledger} {aggregated : Bool}

/-- The audited epoch is the last one whose snapshot clients check against. -/
theorem exists_settledEpochs_concat (hperiod : 2 ≤ ledger.period) (aggregated : Bool) :
    ∃ older, ledger.settledEpochs aggregated = older ++ [ledger.period - 2] := by
  cases aggregated with
  | false => exact ⟨[], rfl⟩
  | true => exact exists_settledEpochs_eq hperiod

/-- The newest base proof shows what the audited snapshot has. -/
theorem newest_base_iff (hperiod : 2 ≤ ledger.period) {key : Bits} {proofs : List LookupProof}
    (h : List.Forall₂ (LookupProof.AnswersFor key) proofs (ledger.namedBase aggregated))
    (hstays : Validation.Stays proofs) {entry : ValueEntry} :
    (∃ found, LookupProof.newest proofs = some found ∧ entry ∈ found.values) ↔
      (key, entry) ∈ ledger.snapshot (ledger.period - 2) := by
  obtain ⟨older, holder⟩ := ledger.exists_settledEpochs_concat hperiod aggregated
  rw [namedBase, holder, List.map_append] at h
  obtain ⟨before, last, rfl, -, hanswers⟩ := forall₂_concat h
  rw [← hanswers.mem_values_iff, LookupProof.newest_concat]
  constructor
  · rintro ⟨found, hfound, hentry⟩
    split at hfound
    · cases hfound
      exact hentry
    · next hmember =>
      -- a key that an older snapshot has is in the audited one
      obtain ⟨-, -, hbefore⟩ := List.pairwise_append.1 hstays
      have hmem : found ∈ before := List.mem_reverse.1 (List.mem_of_find?_eq_some hfound)
      exact absurd (hbefore found hmem last List.mem_cons_self
        (LookupProof.isMember_of_mem_values hentry)) hmember
  · intro hentry
    exact ⟨last, if_pos (LookupProof.isMember_of_mem_values hentry), hentry⟩

end Ledger

namespace Reflects

variable {p : Partition} {ledger : Ledger} {aggregated : Bool} {depth : Nat}

/-- What monitoring finds of a publication. -/
theorem exists_validateMonitoring (h : Reflects p ledger aggregated depth) (hperiod : 2 ≤ ledger.period)
    (hwords : ledger.period - 1 ≤ UInt64.size) (hcount : ledger.publications.length < UInt64.size)
    {made : Publication} (hmade : made ∈ ledger.publications) (scheme : SignatureScheme) {claim : Claim}
    (hclaim : made.insertion = (claim.key, claim.leafEntry)) :
    ∃ digest proof, p.digest = .ok digest ∧ p.existenceProof claim.identifier = .ok proof ∧
      (claim.validateMonitoring scheme digest proof = .ok () ↔
        claim.verifySignature scheme = .ok () ∧ made.period + 2 ≤ p.verificationEpoch) := by
  obtain ⟨proof, hproof, hbase, hupdates⟩ := h.exists_existenceProof hperiod hwords claim.identifier
  have hverified := (h.verify_of_answers hperiod hbase hupdates).1
  have hstays := stays_of_answers hbase
  refine ⟨_, proof, h.digest_eq hperiod, hproof, ?_⟩
  have hsettled : (∃ found, LookupProof.newest proof.base = some found ∧
      claim.leafEntry ∈ found.values) ↔ made.period + 2 ≤ p.verificationEpoch := by
    have hmem : made.insertion ∈ ledger.snapshot (ledger.period - 2) ↔ made.period ≤ ledger.period - 2 :=
      h.consistent.mem_snapshot_iff hcount hmade
    rw [hclaim] at hmem
    have hepoch : p.verificationEpoch = ledger.period := h.epoch
    refine (Ledger.newest_base_iff hperiod hbase hstays).trans (hmem.trans ?_)
    omega
  rw [Claim.validateMonitoring_eq_ok_iff, hsettled]
  constructor
  · rintro ⟨-, -, hdone, hsigned⟩
    exact ⟨hsigned, hdone⟩
  · rintro ⟨hsigned, hdone⟩
    exact ⟨hverified, hstays, hdone, hsigned⟩

/-- The clock of the verification epoch does not go back. -/
theorem verificationEpoch_le_run (h : Reflects p ledger aggregated depth)
    (operations : List Partition.Operation) :
    p.verificationEpoch ≤ (p.run operations).1.verificationEpoch := by
  have hgrows := ((Ledger.Grows.refl ledger).foldl (p.run operations).2).period_le
  have hlast := (h.run operations).epoch
  have hepoch := h.epoch
  rw [Partition.verificationEpoch, Partition.verificationEpoch]
  omega

/-- A publication stays in the ledger, with the period that it was made in. -/
theorem exists_run_append {events : List Partition.Event}
    (h : Reflects p (Ledger.ofEvents events) aggregated depth) (identifier value signature : Bytes)
    (after : List Partition.Operation) :
    ∃ next events', p.append identifier value signature = .ok (next, p.nextPosition) ∧
      ((events'.map Partition.Event.operation).Sublist
        (events.map Partition.Event.operation ++ .append identifier value signature :: after)) ∧
      Reflects (next.run after).1 (Ledger.ofEvents events') aggregated depth ∧
      ⟨identifier, value, signature, p.nextPosition, p.verificationEpoch,
        (Ledger.ofEvents events).updateEpoch + 1⟩ ∈ (Ledger.ofEvents events').publications := by
  obtain ⟨next, happend, hnext⟩ := h.append identifier value signature
  obtain ⟨hsub, -⟩ := hnext.operations_run after
  let published : Partition.Event := .published identifier value signature p.nextPosition
  have hfold : Ledger.ofEvents (events ++ published :: (next.run after).2) =
      (next.run after).2.foldl Ledger.record ((Ledger.ofEvents events).record published) :=
    Ledger.ofEvents_append _ _
  refine ⟨next, _, happend, ?_, hfold ▸ hnext.run after, ?_⟩
  · rw [List.map_append, List.map_cons]
    exact (List.Sublist.refl _).append (hsub.cons_cons _)
  · obtain ⟨later, hlater, -⟩ :=
      ((Ledger.Grows.refl ((Ledger.ofEvents events).record published)).foldl (next.run after).2).publications
    have hepoch : p.verificationEpoch = (Ledger.ofEvents events).period := h.epoch
    rw [hfold, hlater, hepoch]
    exact List.mem_append_left _ (List.mem_append_right _ List.mem_cons_self)

end Reflects

namespace Partition

/-- **A value is found from two periods after its own on.**  A partition of either kind takes whatever
is published.  In every later state, with whatever has happened since, there are a digest and the proofs
about the identifier, and monitoring accepts the claim to the value exactly if its signature verifies
and the state is two verification periods further than the publication; as periods only go up, it is
accepted ever after.  Positions and periods are numbered by words. -/
theorem monitoring_settles (aggregated : Bool) (depth : Nat) (before after : List Operation)
    (hcount : before.length + 1 + after.length < UInt64.size) (identifier value signature : Bytes) :
    ∃ p events next, operate aggregated depth before = .ok (p, events) ∧
      p.append identifier value signature = .ok (next, p.nextPosition) ∧
      ∀ (scheme : SignatureScheme) (verifyingKey : Bytes) (kind : ClaimKind),
        let claim : Claim := ⟨identifier, value, signature, p.nextPosition, verifyingKey, kind⟩
        let last := (next.run after).1
        ∃ digest proof, last.digest = .ok digest ∧ last.existenceProof identifier = .ok proof ∧
          (claim.validateMonitoring scheme digest proof = .ok () ↔
            claim.verifySignature scheme = .ok () ∧
              p.verificationEpoch + 2 ≤ last.verificationEpoch) ∧
          ∀ more, last.verificationEpoch ≤ (last.run more).1.verificationEpoch := by
  obtain ⟨p, events, hrun, hsub, -, h⟩ := operate_reflects aggregated depth before
  obtain ⟨next, events', happend, hsub', hlast, hmade⟩ :=
    h.exists_run_append identifier value signature after
  refine ⟨p, events, next, hrun, happend, ?_⟩
  intro scheme verifyingKey kind claim last
  have hsize := Ledger.size_ofEvents_le (hsub'.trans (hsub.append_right _))
  rw [List.length_append, List.length_cons] at hsize
  have hperiod := Ledger.two_le_period events'
  obtain ⟨digest, proof, hdigest, hproof, hiff⟩ := hlast.exists_validateMonitoring hperiod (by omega)
    (by omega) hmade scheme (show _ = (claim.key, claim.leafEntry) from rfl)
  exact ⟨digest, proof, hdigest, hproof, hiff, hlast.verificationEpoch_le_run⟩

/-- A signed value with a history: found two periods later, another value having been published in
between. -/
theorem monitoring_settles_signed_value :
    let after : List Operation :=
      [.sealUpdates, .advance, .append [1] [3] Owner.secondSignature, .advance]
    let scheme := Ed25519.scheme.toSignatureScheme
    ([] : List Operation).length + 1 + after.length < UInt64.size ∧
      ∃ p events next digest proof, operate true 2 [] = .ok (p, events) ∧
        p.append [1] [2] Owner.firstSignature = .ok (next, 0) ∧
        (next.run after).1.digest = .ok digest ∧ (next.run after).1.existenceProof [1] = .ok proof ∧
        Outdated.claim.validateMonitoring scheme digest proof = .ok () := by
  intro after scheme
  have hcount : ([] : List Operation).length + 1 + after.length < UInt64.size := by decide
  obtain ⟨p, events, next, hrun, happend, hmonitoring⟩ :=
    monitoring_settles true 2 [] after hcount [1] [2] Owner.firstSignature
  have hlook : (do
      let start ← operate true 2 []
      let made ← start.1.append [1] [2] Owner.firstSignature
      pure (start.1.nextPosition,
        decide (start.1.verificationEpoch + 2 ≤ (made.1.run after).1.verificationEpoch))) =
          .ok (0, true) := by
    decide +kernel
  have hsigned : Outdated.claim.verifySignature scheme = .ok () := by decide +kernel
  obtain ⟨start, hstart, hlook⟩ := bind_eq_ok_iff.1 hlook
  cases hrun.symm.trans hstart
  obtain ⟨made, hmade, hlook⟩ := bind_eq_ok_iff.1 hlook
  cases happend.symm.trans hmade
  obtain ⟨hposition, hsettled⟩ := Prod.mk.inj (Except.ok.inj hlook)
  obtain ⟨digest, proof, hdigest, hproof, hiff, -⟩ := hmonitoring scheme Owner.key .publicKey
  rw [hposition] at happend hiff
  exact ⟨hcount, p, events, next, digest, proof, hrun, happend, hdigest, hproof,
    hiff.2 ⟨hsigned, of_decide_eq_true hsettled⟩⟩

end Partition

end KeyTransparency
