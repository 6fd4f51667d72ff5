import KeyTransparency.Claim
import Mathlib.Data.List.Forall2

/-!
# What an accepted claim has passed

The validator carries along the newest membership proof that it has seen.  A claim that it accepts
therefore comes with one verified proof for each root of the digest, in which no snapshot lacks the key
that an earlier one has; it has its entry in the last proof of membership among them, and carries a
signature that verifies.  What comes with all that is accepted:

    claim.validate scheme digest proof = ok → claim.Accepted scheme digest proof  (accepted_of_validate)
    the proofs verify, no snapshot lacks the key, the newest has the entry, the signature verifies
      → claim.validate scheme digest proof = ok                                  (validate_of_verified)

An owner who watches a key checks the snapshots alone (`validateMonitoring_eq_ok_iff`).
-/

namespace KeyTransparency

/-- The last proof of membership. -/
def LookupProof.newest (proofs : List LookupProof) : Option LookupProof :=
  proofs.reverse.find? LookupProof.isMember

/-- The proofs in the order in which they are checked. -/
def ExistenceProof.all (proof : ExistenceProof) : List LookupProof := proof.base ++ proof.updates

namespace LookupProof

variable {proofs : List LookupProof} {proof : LookupProof}

theorem newest_concat (proofs : List LookupProof) (proof : LookupProof) :
    newest (proofs ++ [proof]) = if proof.isMember then some proof else newest proofs := by
  rw [newest, List.reverse_append, List.reverse_singleton, List.singleton_append, List.find?_cons,
    ← newest]
  cases proof.isMember <;> rfl

/-- Behind the newest proof of membership none is one. -/
theorem newest_eq_some (h : newest proofs = some proof) :
    ∃ i : Nat, proofs[i]? = some proof ∧
      ∀ (j : Nat) (later : LookupProof), i < j → proofs[j]? = some later → later.isMember = false := by
  obtain ⟨-, before, after, hreverse, hlater⟩ := List.find?_eq_some_iff_append.1 h
  have hproofs : proofs = after.reverse ++ proof :: before.reverse := by
    rw [← List.reverse_reverse proofs, hreverse]
    simp
  refine ⟨after.reverse.length, ?_, ?_⟩
  · rw [hproofs, List.getElem?_append_right (Nat.le_refl _), Nat.sub_self]
    rfl
  · intro j later hj hget
    obtain ⟨k, rfl⟩ := Nat.exists_eq_add_of_lt hj
    have hindex : after.reverse.length + k + 1 - after.reverse.length = k + 1 := by omega
    rw [hproofs, List.getElem?_append_right (by omega), hindex, List.getElem?_cons_succ] at hget
    simpa using hlater later (List.mem_reverse.1 (List.mem_of_getElem? hget))

end LookupProof

namespace Validation

open LookupProof

/-! ## The two loops -/

/-- The validator's record is the newest proof of membership seen. -/
def Tracks (latest : Latest) (seen : List LookupProof) : Prop := latest.map Prod.snd = newest seen

variable {key : Bits} {i : Nat} {pairs : List (LookupProof × Hash)} {latest final : Latest}
  {seen : List LookupProof}

theorem Tracks.member (part : ProofSource) {proof : LookupProof} (hproof : proof.isMember = true) :
    Tracks (some (part, proof)) (seen ++ [proof]) := by
  rw [Tracks, newest_concat, if_pos hproof]
  rfl

theorem Tracks.skip (h : Tracks latest seen) {proof : LookupProof} (hproof : ¬ proof.isMember = true) :
    Tracks latest (seen ++ [proof]) := by
  rw [Tracks, newest_concat, if_neg hproof]
  exact h

/-- A key that a snapshot shows is shown by all later ones. -/
def Stays (proofs : List LookupProof) : Prop :=
  proofs.Pairwise fun earlier later => earlier.isMember = true → later.isMember = true

theorem checkSnapshots_spec (h : checkSnapshots key i pairs latest = .ok final)
    (hseen : Tracks latest seen) :
    (∀ pair ∈ pairs, pair.1.verify key pair.2 = .ok ()) ∧ Tracks final (seen ++ pairs.map Prod.fst) ∧
      Stays (pairs.map Prod.fst) ∧
      (latest.isSome = true → ∀ proof ∈ pairs.map Prod.fst, proof.isMember = true) := by
  induction pairs generalizing i latest seen with
  | nil =>
    cases h
    refine ⟨by simp, ?_, .nil, by simp⟩
    rwa [List.map_nil, List.append_nil]
  | cons pair rest ih =>
    obtain ⟨proof, root⟩ := pair
    rw [checkSnapshots] at h
    split at h
    · cases h
    · next hverify =>
      rw [List.map_cons, List.append_cons]
      split at h
      · next hmember =>
        obtain ⟨hverified, hfinal, hstays, hmembers⟩ := ih h (.member (.baseTrie i) hmember)
        have hrest := hmembers rfl
        refine ⟨List.forall_mem_cons.2 ⟨hverify, hverified⟩, hfinal, ?_, ?_⟩
        · apply List.Pairwise.cons _ hstays
          intro later hlater _
          exact hrest later hlater
        · intro _
          exact List.forall_mem_cons.2 ⟨hmember, hrest⟩
      · next hmember =>
        split at h
        · cases h
        · next hnone =>
          obtain ⟨hverified, hfinal, hstays, -⟩ := ih h (hseen.skip hmember)
          refine ⟨List.forall_mem_cons.2 ⟨hverify, hverified⟩, hfinal, ?_, ?_⟩
          · -- a snapshot that lacks the key asks nothing of the later ones
            apply List.Pairwise.cons _ hstays
            intro later hlater hshown
            exact absurd hshown hmember
          · intro hsome
            exact absurd hsome hnone

theorem checkUpdateTries_spec (h : checkUpdateTries key i pairs latest = .ok final)
    (hseen : Tracks latest seen) :
    (∀ pair ∈ pairs, pair.1.verify key pair.2 = .ok ()) ∧ Tracks final (seen ++ pairs.map Prod.fst) := by
  induction pairs generalizing i latest seen with
  | nil =>
    cases h
    refine ⟨by simp, ?_⟩
    rwa [List.map_nil, List.append_nil]
  | cons pair rest ih =>
    obtain ⟨proof, root⟩ := pair
    rw [checkUpdateTries] at h
    split at h
    · cases h
    · next hverify =>
      rw [List.map_cons, List.append_cons]
      have hnext : Tracks (if proof.isMember then some (.updateTrie i, proof) else latest)
          (seen ++ [proof]) := by
        split
        · next hmember => exact .member _ hmember
        · next hmember => exact hseen.skip hmember
      obtain ⟨hverified, hfinal⟩ := ih h hnext
      exact ⟨List.forall_mem_cons.2 ⟨hverify, hverified⟩, hfinal⟩

/-! ## The checks -/

variable {roots : List Hash} {proofs : List LookupProof}

theorem forall₂_of_zip (hlength : proofs.length = roots.length)
    (h : ∀ pair ∈ proofs.zip roots, pair.1.verify key pair.2 = .ok ()) :
    List.Forall₂ (fun proof root => proof.verify key root = .ok ()) proofs roots :=
  List.forall₂_iff_zip.2 ⟨hlength, fun hmem => h _ hmem⟩

theorem checkBase_spec (h : checkBase roots proofs key = .ok final) :
    List.Forall₂ (fun proof root => proof.verify key root = .ok ()) proofs roots ∧
      Tracks final proofs ∧ Stays proofs := by
  unfold checkBase at h
  split at h
  · cases h
  · next hlength =>
    have hlength := of_not_not hlength
    have hstart : Tracks none [] := rfl
    obtain ⟨hverified, hfinal, hstays, -⟩ := checkSnapshots_spec h hstart
    rw [List.map_fst_zip (Nat.le_of_eq hlength)] at hfinal hstays
    exact ⟨forall₂_of_zip hlength hverified, hfinal, hstays⟩

theorem checkUpdates_spec (h : checkUpdates roots proofs key latest = .ok final)
    (hseen : Tracks latest seen) :
    List.Forall₂ (fun proof root => proof.verify key root = .ok ()) proofs roots ∧
      Tracks final (seen ++ proofs) := by
  unfold checkUpdates at h
  split at h
  · cases h
  · next hlength =>
    have hlength := of_not_not hlength
    obtain ⟨hverified, hfinal⟩ := checkUpdateTries_spec h hseen
    rw [List.map_fst_zip (Nat.le_of_eq hlength)] at hfinal
    exact ⟨forall₂_of_zip hlength hverified, hfinal⟩

/-- The last check asks the newest proof of membership for the entry, and the owner's signature. -/
theorem checkClaim_eq_ok_iff {scheme : SignatureScheme} {claim : Claim} (h : Tracks latest seen) :
    checkClaim scheme claim latest = .ok () ↔
      (∃ found, newest seen = some found ∧ claim.leafEntry ∈ found.values) ∧
        claim.verifySignature scheme = .ok () := by
  constructor
  · intro hclaim
    cases latest with
    | none => cases hclaim
    | some last =>
      rw [checkClaim] at hclaim
      split at hclaim
      · next hentry => exact ⟨⟨last.2, h.symm, hentry⟩, hclaim⟩
      · cases hclaim
  · rintro ⟨⟨found, hfound, hentry⟩, hsignature⟩
    obtain ⟨⟨part, last⟩, rfl, rfl⟩ := Option.map_eq_some_iff.1 (h.trans hfound)
    rw [checkClaim, if_pos hentry]
    exact hsignature

/-! ## What passes -/

/-- Snapshots that verify and that the key never vanishes from pass. -/
theorem exists_checkSnapshots (hverified : ∀ pair ∈ pairs, pair.1.verify key pair.2 = .ok ())
    (hstays : Stays (pairs.map Prod.fst))
    (hmembers : latest.isSome = true → ∀ proof ∈ pairs.map Prod.fst, proof.isMember = true) :
    ∃ final, checkSnapshots key i pairs latest = .ok final := by
  induction pairs generalizing i latest with
  | nil => exact ⟨latest, rfl⟩
  | cons pair rest ih =>
    obtain ⟨proof, root⟩ := pair
    obtain ⟨hverify, hverified⟩ := List.forall_mem_cons.1 hverified
    rw [List.map_cons] at hstays hmembers
    obtain ⟨hfirst, hstays⟩ := List.pairwise_cons.1 hstays
    rw [checkSnapshots, hverify]
    dsimp only
    by_cases hmember : proof.isMember = true
    · rw [if_pos hmember]
      exact ih hverified hstays fun _ later hlater => hfirst later hlater hmember
    · have hnone : ¬ latest.isSome = true := fun hsome =>
        hmember (hmembers hsome proof List.mem_cons_self)
      rw [if_neg hmember, if_neg hnone]
      exact ih hverified hstays fun hsome => absurd hsome hnone

theorem exists_checkUpdateTries (hverified : ∀ pair ∈ pairs, pair.1.verify key pair.2 = .ok ()) :
    ∃ final, checkUpdateTries key i pairs latest = .ok final := by
  induction pairs generalizing i latest with
  | nil => exact ⟨latest, rfl⟩
  | cons pair rest ih =>
    obtain ⟨proof, root⟩ := pair
    obtain ⟨hverify, hverified⟩ := List.forall_mem_cons.1 hverified
    rw [checkUpdateTries, hverify]
    exact ih hverified

theorem exists_checkBase
    (hverified : List.Forall₂ (fun proof root => proof.verify key root = .ok ()) proofs roots)
    (hstays : Stays proofs) : ∃ final, checkBase roots proofs key = .ok final := by
  obtain ⟨hlength, hpairs⟩ := List.forall₂_iff_zip.1 hverified
  rw [checkBase, if_neg (not_not_intro hlength)]
  apply exists_checkSnapshots fun pair hpair => hpairs hpair
  · rwa [List.map_fst_zip (Nat.le_of_eq hlength)]
  · intro hsome
    cases hsome

theorem exists_checkUpdates
    (hverified : List.Forall₂ (fun proof root => proof.verify key root = .ok ()) proofs roots) :
    ∃ final, checkUpdates roots proofs key latest = .ok final := by
  obtain ⟨hlength, hpairs⟩ := List.forall₂_iff_zip.1 hverified
  rw [checkUpdates, if_neg (not_not_intro hlength)]
  exact exists_checkUpdateTries fun pair hpair => hpairs hpair

end Validation

namespace Claim

open Validation

/-- What the validator has found of an accepted claim. -/
structure Accepted (scheme : SignatureScheme) (digest : Digest) (proof : ExistenceProof)
    (claim : Claim) : Prop where
  verified : List.Forall₂ (fun found root => found.verify claim.key root = .ok ()) proof.all
    (digest.baseRoots ++ digest.updateRoots)
  stays : Stays proof.base
  newest : ∃ found, LookupProof.newest proof.all = some found ∧ claim.leafEntry ∈ found.values
  signature : claim.verifySignature scheme = .ok ()

variable {scheme : SignatureScheme} {digest : Digest} {proof : ExistenceProof} {claim : Claim}

theorem validate_eq (scheme : SignatureScheme) (digest : Digest) (proof : ExistenceProof)
    (claim : Claim) :
    claim.validate scheme digest proof = claim.validateAgainst scheme digest.baseRoots digest proof := by
  rw [validate, validateHistory, validateWindow, Digest.baseRoots]
  cases digest.history <;> rfl

/-- **An accepted claim has passed every check.** -/
theorem accepted_of_validate (h : claim.validate scheme digest proof = .ok ()) :
    claim.Accepted scheme digest proof := by
  rw [validate_eq, validateAgainst, bind_eq_ok_iff] at h
  obtain ⟨base, hbase, h⟩ := h
  obtain ⟨final, hupdates, hclaim⟩ := bind_eq_ok_iff.1 h
  obtain ⟨hverifiedBase, hbase, hstays⟩ := checkBase_spec hbase
  obtain ⟨hverifiedUpdates, hfinal⟩ := checkUpdates_spec hupdates hbase
  obtain ⟨hnewest, hsignature⟩ := (checkClaim_eq_ok_iff hfinal).1 hclaim
  exact ⟨List.rel_append hverifiedBase hverifiedUpdates, hstays, hnewest, hsignature⟩

/-- **What passes every check is accepted.** -/
theorem validate_of_verified
    (hbase : List.Forall₂ (fun found root => found.verify claim.key root = .ok ()) proof.base
      digest.baseRoots)
    (hupdates : List.Forall₂ (fun found root => found.verify claim.key root = .ok ()) proof.updates
      digest.updateRoots)
    (hstays : Stays proof.base)
    (hnewest : ∃ found, LookupProof.newest proof.all = some found ∧ claim.leafEntry ∈ found.values)
    (hsignature : claim.verifySignature scheme = .ok ()) : claim.validate scheme digest proof = .ok () := by
  obtain ⟨base, hrun⟩ := exists_checkBase hbase hstays
  obtain ⟨-, htracks, -⟩ := checkBase_spec hrun
  obtain ⟨final, hrun'⟩ : ∃ final, checkUpdates digest.updateRoots proof.updates claim.key base =
      .ok final := exists_checkUpdates hupdates
  obtain ⟨-, hfinal⟩ := checkUpdates_spec hrun' htracks
  rw [validate_eq, validateAgainst]
  refine bind_eq_ok_iff.2 ⟨base, hrun, bind_eq_ok_iff.2 ⟨final, hrun', ?_⟩⟩
  exact (checkClaim_eq_ok_iff hfinal).2 ⟨hnewest, hsignature⟩

/-- **What monitoring accepts.**  An owner who watches the settled snapshots accepts what passes the
checks on these. -/
theorem validateMonitoring_eq_ok_iff :
    claim.validateMonitoring scheme digest proof = .ok () ↔
      List.Forall₂ (fun found root => found.verify claim.key root = .ok ()) proof.base digest.baseRoots ∧
        Stays proof.base ∧
        (∃ found, LookupProof.newest proof.base = some found ∧ claim.leafEntry ∈ found.values) ∧
        claim.verifySignature scheme = .ok () := by
  rw [validateMonitoring, bind_eq_ok_iff]
  constructor
  · rintro ⟨final, hbase, hclaim⟩
    obtain ⟨hverified, htracks, hstays⟩ := checkBase_spec hbase
    exact ⟨hverified, hstays, (checkClaim_eq_ok_iff htracks).1 hclaim⟩
  · rintro ⟨hverified, hstays, hpassed⟩
    obtain ⟨final, hbase⟩ := exists_checkBase hverified hstays
    obtain ⟨-, htracks, -⟩ := checkBase_spec hbase
    exact ⟨final, hbase, (checkClaim_eq_ok_iff htracks).2 hpassed⟩

/-- The newest proof of membership holds the entry, and it is the last base proof or an update
proof. -/
theorem Accepted.exists_newest (h : claim.Accepted scheme digest proof) :
    ∃ i found, proof.all[i]? = some found ∧ claim.leafEntry ∈ found.values ∧
      proof.base.length ≤ i + 1 ∧
      ∀ (j : Nat) (later : LookupProof), i < j → proof.all[j]? = some later → later.isMember = false := by
  obtain ⟨found, hnewest, hentry⟩ := h.newest
  obtain ⟨i, hget, hlater⟩ := LookupProof.newest_eq_some hnewest
  refine ⟨i, found, hget, hentry, ?_, hlater⟩
  -- in a further snapshot the key would have to be present as well
  by_contra hmore
  have hi : i < proof.base.length := by omega
  have hnext : i + 1 < proof.base.length := by omega
  rw [ExistenceProof.all, List.getElem?_append_left hi, List.getElem?_eq_getElem hi] at hget
  have hmember := List.pairwise_iff_getElem.1 h.stays _ _ hi hnext (Nat.lt_succ_self _)
    (Option.some.inj hget ▸ LookupProof.isMember_of_mem_values hentry)
  have hgetNext : proof.all[i + 1]? = some proof.base[i + 1] := by
    rw [ExistenceProof.all, List.getElem?_append_left hnext, List.getElem?_eq_getElem hnext]
  exact Bool.false_ne_true ((hlater _ _ (Nat.lt_succ_self _) hgetNext).symm.trans hmember)

end Claim

/-! ## An owner

Accepted claims need a signature that verifies; those of the examples in other modules are this owner's.
-/

namespace Owner

def key : Bytes :=
  [234, 74, 108, 99, 226, 156, 82, 10, 190, 245, 80, 123, 19, 46, 197, 249, 149, 71, 118, 174, 190,
  190, 123, 146, 66, 30, 234, 105, 20, 70, 210, 44]

/-- The owner's signature of the key itself. -/
def keySignature : Bytes :=
  [170, 127, 231, 229, 78, 64, 209, 232, 209, 222, 49, 130, 151, 66, 108, 30, 54, 4, 236, 56, 197,
  79, 202, 130, 34, 38, 86, 98, 241, 9, 141, 225, 221, 222, 41, 66, 187, 215, 226, 195, 64, 205, 49,
  211, 106, 35, 152, 97, 37, 174, 227, 166, 0, 93, 250, 251, 93, 164, 253, 112, 154, 96, 63, 6]

/-- The owner's signature of the value 2 for position 0. -/
def firstSignature : Bytes :=
  [232, 252, 182, 141, 48, 168, 185, 250, 69, 190, 49, 139, 83, 90, 80, 123, 75, 215, 26, 133, 143,
  12, 93, 120, 190, 235, 81, 222, 41, 121, 253, 224, 247, 52, 76, 88, 230, 227, 217, 126, 246, 116,
  195, 59, 89, 129, 255, 26, 216, 131, 148, 224, 179, 213, 91, 135, 80, 73, 186, 152, 146, 134, 112,
  13]

/-- The owner's signature of the value 3 for position 1. -/
def secondSignature : Bytes :=
  [45, 149, 87, 236, 186, 174, 247, 167, 59, 253, 213, 190, 231, 130, 74, 101, 203, 21, 30, 57, 26,
  155, 170, 145, 46, 119, 28, 149, 85, 193, 146, 126, 175, 183, 51, 25, 177, 89, 184, 239, 77, 228,
  0, 158, 12, 128, 176, 59, 62, 115, 61, 84, 134, 130, 233, 58, 135, 106, 217, 51, 94, 132, 247, 4]

end Owner

end KeyTransparency
