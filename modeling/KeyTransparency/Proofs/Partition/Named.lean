import KeyTransparency.Proofs.Partition.Ledger

/-!
# The tries that a digest names

A digest names the snapshots that clients check against, of the audited epoch or of the newest epoch
under each root of the history, and the tries of the update epochs that serve proofs.  `namedBase` and
`namedUpdates` list what each of them took:

    baseRoots (digest …) = the root hashes of namedBase                          (baseRoots_digest)
    made sealed → made was taken by one of namedBase ++ namedUpdates             (Consistent.covered)

The second holds because the audited epoch lies two periods back: what the update tries that were
dropped had taken was published before it ended.
-/

namespace KeyTransparency

open Trie Forest Tower

/-- Of two lists related element by element the first has a partner for each element of the second. -/
theorem getElem?_of_forall₂ {α β : Type} {R : α → β → Prop} {as : List α} {bs : List β}
    (h : List.Forall₂ R as bs) {i : Nat} {b : β} (hb : bs[i]? = some b) :
    ∃ a, as[i]? = some a ∧ R a b := by
  induction h generalizing i with
  | nil => cases hb
  | cons hR _ ih =>
    cases i with
    | zero =>
      cases hb
      exact ⟨_, rfl, hR⟩
    | succ i => exact ih hb

namespace Ledger

/-- The verification epochs whose snapshots clients check against. -/
def settledEpochs (ledger : Ledger) (aggregated : Bool) : List Nat :=
  if aggregated then (rootPositions (ledger.period - 1)).map lastLeaf else [ledger.period - 2]

/-- What the named snapshots took. -/
def namedBase (ledger : Ledger) (aggregated : Bool) : List (List Insertion) :=
  (ledger.settledEpochs aggregated).map ledger.snapshot

/-- What the named update tries took. -/
def namedUpdates (ledger : Ledger) : List (List Insertion) :=
  (ledger.sealingsSince (ledger.period - 1)).map fun sealing => ledger.batch sealing.updateEpoch

/-- What the named tries took, in the order in which they are checked. -/
def named (ledger : Ledger) (aggregated : Bool) : List (List Insertion) :=
  ledger.namedBase aggregated ++ ledger.namedUpdates

section

variable {ledger : Ledger} {aggregated : Bool}

/-- The settled epochs are those before the newest two. -/
theorem lt_of_mem_settledEpochs (hperiod : 2 ≤ ledger.period) {epoch : Nat}
    (h : epoch ∈ ledger.settledEpochs aggregated) : epoch < ledger.period - 1 := by
  cases aggregated with
  | false =>
    rw [List.mem_singleton.1 h]
    omega
  | true =>
    obtain ⟨p, hp, rfl⟩ := List.mem_map.1 h
    obtain ⟨-, -, hend⟩ := (tiles_rootPositions _).block hp
    have := blockSize_pos p.level
    rw [lastLeaf]
    omega

/-- The audited epoch is always among them. -/
theorem audited_mem_settledEpochs (hperiod : 2 ≤ ledger.period) :
    ledger.period - 2 ∈ ledger.settledEpochs aggregated := by
  cases aggregated with
  | false => exact List.mem_singleton_self _
  | true =>
    obtain ⟨p, hp, hlast⟩ := (tiles_rootPositions (ledger.period - 1)).exists_last (by omega)
    refine List.mem_map.2 ⟨p, hp, ?_⟩
    rw [lastLeaf, hlast]
    omega

theorem isKey_of_mem_named {insertions : List Insertion} (h : insertions ∈ ledger.named aggregated)
    {insertion : Insertion} (hmem : insertion ∈ insertions) : insertion.1.IsKey := by
  rcases List.mem_append.1 h with h | h
  · obtain ⟨epoch, -, rfl⟩ := List.mem_map.1 h
    exact isKey_of_mem_snapshot hmem
  · obtain ⟨sealing, -, rfl⟩ := List.mem_map.1 h
    exact isKey_of_mem_batch hmem

/-! ## Roots -/

/-- The roots of the history name the snapshots of the settled epochs. -/
theorem map_newest_history {depth : Nat} (hperiod : 2 ≤ ledger.period)
    (hroom : ledger.period - 1 ≤ HistoryForest.capacityOf depth) :
    (ledger.history depth).digest.roots.map (fun root => (root.newestLeaf, root.period)) =
      (ledger.settledEpochs true).map ledger.leaf := by
  obtain ⟨hholds, -⟩ := holds_history hroom
  have hlength : ((List.range (ledger.period - 1)).map ledger.leaf).length = ledger.period - 1 := by
    rw [List.length_map, List.length_range]
  have hnewest := hholds.map_newest (Nat.le_refl _)
  rw [hlength] at hnewest
  rw [hholds.digest_eq, hlength]
  refine List.map_injective_iff.2 (Option.some_injective _) ?_
  rw [List.map_map, List.map_map]
  refine hnewest.trans ?_
  rw [settledEpochs, if_pos rfl, List.map_map]
  refine List.map_congr_left fun p hp => ?_
  have hsettled : lastLeaf p ∈ ledger.settledEpochs true := List.mem_map_of_mem hp
  have hlast := lt_of_mem_settledEpochs hperiod hsettled
  rw [List.getElem?_map, List.getElem?_range hlast]
  rfl

theorem baseRoots_digest {depth : Nat} (hperiod : 2 ≤ ledger.period)
    (hroom : aggregated = true → ledger.period - 1 ≤ HistoryForest.capacityOf depth) :
    (ledger.digest aggregated depth).baseRoots =
      (ledger.namedBase aggregated).map fun insertions => (trieOver insertions).rootHash := by
  cases aggregated with
  | false => rfl
  | true =>
    have h := congrArg (List.map Prod.fst) (map_newest_history hperiod (hroom rfl))
    rw [List.map_map, List.map_map] at h
    rw [namedBase, List.map_map]
    exact h

theorem updateRoots_digest (depth : Nat) :
    (ledger.digest aggregated depth).updateRoots =
      ledger.namedUpdates.map fun insertions => (trieOver insertions).rootHash := by
  rw [namedUpdates, List.map_map]
  rfl

/-- The roots that a digest names are those of the named tries, in their order. -/
theorem roots_digest {depth : Nat} (hperiod : 2 ≤ ledger.period)
    (hroom : aggregated = true → ledger.period - 1 ≤ HistoryForest.capacityOf depth) :
    (ledger.digest aggregated depth).baseRoots ++ (ledger.digest aggregated depth).updateRoots =
      (ledger.named aggregated).map fun insertions => (trieOver insertions).rootHash := by
  rw [baseRoots_digest hperiod hroom, updateRoots_digest, named, List.map_append]

/-! ## Publications -/

theorem length_le_of_mem_named {insertions : List Insertion} (h : insertions ∈ ledger.named aggregated) :
    insertions.length ≤ ledger.publications.length := by
  rcases List.mem_append.1 h with h | h
  · obtain ⟨epoch, -, rfl⟩ := List.mem_map.1 h
    rw [snapshot, List.length_map]
    exact List.length_filter_le _ _
  · obtain ⟨sealing, -, rfl⟩ := List.mem_map.1 h
    rw [batch, List.length_map]
    exact List.length_filter_le _ _

/-- What a named trie took was published, and has either settled or been sealed in an update epoch that
serves proofs. -/
theorem exists_publication (hperiod : 2 ≤ ledger.period) {insertions : List Insertion}
    (h : insertions ∈ ledger.named aggregated) {insertion : Insertion} (hmem : insertion ∈ insertions) :
    ∃ made ∈ ledger.publications, made.insertion = insertion ∧
      (made.period ≤ ledger.period - 2 ∨
        ∃ sealing ∈ ledger.sealingsSince (ledger.period - 1),
          sealing.updateEpoch = made.updateEpoch) := by
  rcases List.mem_append.1 h with h | h
  · obtain ⟨epoch, hepoch, rfl⟩ := List.mem_map.1 h
    obtain ⟨made, hmade, rfl⟩ := List.mem_map.1 hmem
    obtain ⟨hmade, hsettled⟩ := List.mem_filter.1 hmade
    have hlt := lt_of_mem_settledEpochs hperiod hepoch
    have hle := of_decide_eq_true hsettled
    exact ⟨made, hmade, rfl, .inl (by omega)⟩
  · obtain ⟨sealing, hsealing, rfl⟩ := List.mem_map.1 h
    obtain ⟨made, hmade, rfl⟩ := List.mem_map.1 hmem
    obtain ⟨hmade, hsame⟩ := List.mem_filter.1 hmade
    exact ⟨made, hmade, rfl, .inr ⟨sealing, hsealing, (of_decide_eq_true hsame).symm⟩⟩

/-! ## Coverage -/

theorem mem_snapshot {made : Publication} (h : made ∈ ledger.publications) {epoch : Nat}
    (hperiod : made.period ≤ epoch) : made.insertion ∈ ledger.snapshot epoch :=
  List.mem_map_of_mem (List.mem_filter.2 ⟨h, decide_eq_true hperiod⟩)

theorem mem_batch {made : Publication} (h : made ∈ ledger.publications) :
    made.insertion ∈ ledger.batch made.updateEpoch :=
  List.mem_map_of_mem (List.mem_filter.2 ⟨h, decide_eq_true rfl⟩)

/-- **Nothing sealed drops out.**  Once its update epoch has ended, a publication is in a trie that the
digest names. -/
theorem Consistent.covered (h : ledger.Consistent) (hperiod : 2 ≤ ledger.period) {made : Publication}
    (hmade : made ∈ ledger.publications) (hsealed : made.updateEpoch ≤ ledger.updateEpoch) :
    ∃ insertions ∈ ledger.named aggregated, made.insertion ∈ insertions := by
  obtain ⟨sealing, hsealing, hsame, hle⟩ := h.sealed made hmade hsealed
  by_cases hserved : ledger.period - 1 ≤ sealing.period
  · refine ⟨ledger.batch sealing.updateEpoch, ?_, ?_⟩
    · apply List.mem_append_right
      exact List.mem_map.2 ⟨sealing, List.mem_filter.2 ⟨hsealing, decide_eq_true hserved⟩, rfl⟩
    · rw [hsame]
      exact mem_batch hmade
  · -- its update trie has been dropped, so the audited snapshot is no older than it
    refine ⟨ledger.snapshot (ledger.period - 2), ?_, ?_⟩
    · apply List.mem_append_left
      exact List.mem_map_of_mem (audited_mem_settledEpochs hperiod)
    · apply mem_snapshot hmade
      omega

end

end Ledger

end KeyTransparency
