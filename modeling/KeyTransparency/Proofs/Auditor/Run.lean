import KeyTransparency.Proofs.Auditor.Verdict
import Mathlib.Data.List.Basic

/-!
# Runs of an auditor

An auditor is shown digests of partitions one after the other.  A run lists those that it accepts, each
with the digest of its partition that was retained until then.  For one partition they make a chain, in
which each continues the one before it and the last is the one retained in the end:

    Linked (auditor.last? i) (what the run accepts of partition i)                    (linked_run)
    the auditor after the run retains the last digest of that chain                   (last?_run)
-/

namespace KeyTransparency

namespace Auditor

/-- A digest of a partition, shown with a proof. -/
structure Observation where
  partition : Nat
  digest : Digest
  proof : CheckpointProof
deriving DecidableEq

/-- An observation that was accepted. -/
structure Acceptance extends Observation where
  /-- The digest of the partition that was retained until then. -/
  previous : Option Digest
  verdict : Verdict
deriving DecidableEq

/-- Observes one digest after the other and lists those accepted. -/
def run (auditor : Auditor) : List Observation → Auditor × List Acceptance
  | [] => (auditor, [])
  | seen :: rest =>
    match auditor.observe seen.partition seen.digest seen.proof with
    | (next, .error _) => next.run rest
    | (next, .ok verdict) =>
      let (last, accepted) := next.run rest
      (last, ⟨seen, auditor.last? seen.partition, verdict⟩ :: accepted)

/-! ## Retained digests -/

section

variable {auditor : Auditor} {i j : Nat} {digest : Digest} {proof : CheckpointProof}

theorem last?_retain_self : (auditor.retain i digest).last? i = some digest := List.lookup_cons_self

theorem lookup_filter_ne {retained : List (Nat × Digest)} (h : j ≠ i) :
    (retained.filter (·.1 ≠ i)).lookup j = retained.lookup j := by
  induction retained with
  | nil => rfl
  | cons first rest ih =>
    obtain ⟨k, digest⟩ := first
    by_cases hfirst : k = i
    · -- the entry that is dropped is not the one looked for
      have hother : (j == k) = false := beq_false_of_ne (hfirst ▸ h)
      rw [List.filter_cons_of_neg (by simpa using hfirst), ih, List.lookup_cons, hother]
    · rw [List.filter_cons_of_pos (by simpa using hfirst), List.lookup_cons, List.lookup_cons, ih]

theorem last?_retain_of_ne (h : j ≠ i) : (auditor.retain i digest).last? j = auditor.last? j := by
  have hother : (j == i) = false := beq_false_of_ne h
  unfold retain last?
  rw [List.lookup_cons, hother]
  exact lookup_filter_ne h

/-! ## One observation -/

/-- The verdict is right for the digest that was retained. -/
def Acceptance.Sound (accepted : Acceptance) : Prop :=
  match accepted.previous with
  | none => accepted.verdict = .first
  | some previous =>
    previous.updateEpoch ≤ accepted.digest.updateEpoch ∧
      Continues previous accepted.digest accepted.proof accepted.verdict

theorem observe_of_none (h : auditor.last? i = none) :
    auditor.observe i digest proof = (auditor.retain i digest, .ok .first) := by
  unfold observe
  rw [h]

theorem observe_of_check_eq_ok {previous : Digest} {verdict : Verdict}
    (h : auditor.last? i = some previous) (hcheck : check previous digest proof = .ok verdict) :
    auditor.observe i digest proof = (auditor.retain i digest, .ok verdict) := by
  unfold observe
  rw [h]
  simp only [hcheck]

theorem observe_of_check_eq_error {previous : Digest} {e : Error}
    (h : auditor.last? i = some previous) (hcheck : check previous digest proof = .error e) :
    auditor.observe i digest proof = (auditor, .error e) := by
  unfold observe
  rw [h]
  simp only [hcheck]

/-- A digest is refused and changes nothing, or is accepted and retained. -/
theorem observe_cases (auditor : Auditor) (seen : Observation) :
    (∃ e, auditor.observe seen.partition seen.digest seen.proof = (auditor, .error e)) ∨
      ∃ verdict, auditor.observe seen.partition seen.digest seen.proof =
          (auditor.retain seen.partition seen.digest, .ok verdict) ∧
        Acceptance.Sound ⟨seen, auditor.last? seen.partition, verdict⟩ := by
  cases hlast : auditor.last? seen.partition with
  | none => exact .inr ⟨.first, observe_of_none hlast, rfl⟩
  | some previous =>
    cases hcheck : check previous seen.digest seen.proof with
    | error e => exact .inl ⟨e, observe_of_check_eq_error hlast hcheck⟩
    | ok verdict =>
      exact .inr ⟨verdict, observe_of_check_eq_ok hlast hcheck, check_eq_ok_iff_continues.1 hcheck⟩

theorem run_cons_refused {seen : Observation} {next : Auditor} {e : Error}
    (h : auditor.observe seen.partition seen.digest seen.proof = (next, .error e))
    (rest : List Observation) : auditor.run (seen :: rest) = next.run rest := by
  rw [run, h]

theorem run_cons_accepted {seen : Observation} {next : Auditor} {verdict : Verdict}
    (h : auditor.observe seen.partition seen.digest seen.proof = (next, .ok verdict))
    (rest : List Observation) :
    auditor.run (seen :: rest) =
      ((next.run rest).1, ⟨seen, auditor.last? seen.partition, verdict⟩ :: (next.run rest).2) := by
  rw [run, h]

end

/-! ## One partition -/

/-- Each of the acceptances continues the one before it, and the first continues `retained`. -/
inductive Linked : (retained : Option Digest) → List Acceptance → Prop
  | nil (retained : Option Digest) : Linked retained []
  | cons {retained : Option Digest} {accepted : Acceptance} {rest : List Acceptance}
      (previous : accepted.previous = retained) (sound : accepted.Sound)
      (linked : Linked (some accepted.digest) rest) : Linked retained (accepted :: rest)

/-- The digest that is retained after some acceptances. -/
def retainedAfter : (retained : Option Digest) → List Acceptance → Option Digest
  | retained, [] => retained
  | _, accepted :: rest => retainedAfter (some accepted.digest) rest

def ofPartition (i : Nat) (accepted : List Acceptance) : List Acceptance :=
  accepted.filter (·.partition = i)

section

variable {i : Nat} {accepted : Acceptance} {rest : List Acceptance}

theorem ofPartition_cons_self {seen : Observation} {previous : Option Digest} {verdict : Verdict}
    (h : seen.partition = i) :
    ofPartition i (⟨seen, previous, verdict⟩ :: rest) =
      ⟨seen, previous, verdict⟩ :: ofPartition i rest :=
  List.filter_cons_of_pos (decide_eq_true h)

theorem ofPartition_cons_of_ne {seen : Observation} {previous : Option Digest} {verdict : Verdict}
    (h : seen.partition ≠ i) :
    ofPartition i (⟨seen, previous, verdict⟩ :: rest) = ofPartition i rest :=
  List.filter_cons_of_neg (by simpa using h)

theorem Linked.sound_of_mem {retained : Option Digest} {all : List Acceptance}
    (h : Linked retained all) (hmem : accepted ∈ all) : accepted.Sound := by
  induction h with
  | nil => cases hmem
  | cons previous sound linked ih =>
    rcases List.mem_cons.1 hmem with rfl | hmem
    · exact sound
    · exact ih hmem

/-- **The acceptances of a partition are a chain**, and the last of them is retained. -/
theorem run_spec (auditor : Auditor) (seen : List Observation) (i : Nat) :
    Linked (auditor.last? i) (ofPartition i (auditor.run seen).2) ∧
      (auditor.run seen).1.last? i =
        retainedAfter (auditor.last? i) (ofPartition i (auditor.run seen).2) := by
  induction seen generalizing auditor with
  | nil => exact ⟨.nil _, rfl⟩
  | cons seen rest ih =>
    rcases observe_cases auditor seen with ⟨e, hrefused⟩ | ⟨verdict, haccepted, hsound⟩
    · rw [run_cons_refused hrefused]
      exact ih auditor
    · rw [run_cons_accepted haccepted]
      dsimp only
      obtain ⟨hlinked, hlast⟩ := ih (auditor.retain seen.partition seen.digest)
      by_cases hi : seen.partition = i
      · subst hi
        rw [last?_retain_self] at hlinked hlast
        rw [ofPartition_cons_self rfl]
        exact ⟨.cons rfl hsound hlinked, hlast⟩
      · rw [last?_retain_of_ne (Ne.symm hi)] at hlinked hlast
        rw [ofPartition_cons_of_ne hi]
        exact ⟨hlinked, hlast⟩

theorem linked_run (auditor : Auditor) (seen : List Observation) (i : Nat) :
    Linked (auditor.last? i) (ofPartition i (auditor.run seen).2) := (run_spec auditor seen i).1

theorem last?_run (auditor : Auditor) (seen : List Observation) (i : Nat) :
    (auditor.run seen).1.last? i =
      retainedAfter (auditor.last? i) (ofPartition i (auditor.run seen).2) := (run_spec auditor seen i).2

/-- Whatever is accepted in a run is accepted rightly. -/
theorem sound_of_mem_run {auditor : Auditor} {seen : List Observation}
    (h : accepted ∈ (auditor.run seen).2) : accepted.Sound := by
  have hmem : accepted ∈ ofPartition accepted.partition (auditor.run seen).2 :=
    List.mem_filter.2 ⟨h, decide_eq_true rfl⟩
  exact (linked_run auditor seen accepted.partition).sound_of_mem hmem

end

end Auditor

end KeyTransparency
