import KeyTransparency.Proofs.Forest.Blocks
import KeyTransparency.Proofs.Partition.Digest

/-!
# What later events leave as it is

A ledger grows at its ends: what is published later is of the current period or a later one, and of an
update epoch that has not ended yet (`Grows`).  So everything a digest says of the past is said by
every later one as well:

    ledger.Grows ledger' → epoch < ledger.period → ledger'.snapshot epoch = ledger.snapshot epoch
    ledger.Grows ledger' → the logs since any one period go on with the same update epochs
    ledger.Grows ledger' → the chain of ledger' begins with the links of ledger
    ledger.Grows ledger' → the leaves of its history are a prefix of those of ledger'
-/

namespace KeyTransparency

open Trie Forest

namespace Ledger

/-- `ledger'` is what `ledger` may have become. -/
structure Grows (ledger ledger' : Ledger) : Prop where
  publications : ∃ later, ledger'.publications = ledger.publications ++ later ∧
    ∀ made ∈ later, ledger.period ≤ made.period ∧ ledger.updateEpoch < made.updateEpoch
  sealings : ∃ later, ledger'.sealings = ledger.sealings ++ later ∧
    ∀ sealing ∈ later, ledger.period ≤ sealing.period
  advances : ledger.advances <+: ledger'.advances

namespace Grows

theorem refl (ledger : Ledger) : ledger.Grows ledger where
  publications := ⟨[], (List.append_nil _).symm, fun _ h => nomatch h⟩
  sealings := ⟨[], (List.append_nil _).symm, fun _ h => nomatch h⟩
  advances := List.prefix_refl _

section

variable {ledger ledger' : Ledger}

theorem period_le (h : ledger.Grows ledger') : ledger.period ≤ ledger'.period := h.advances.length_le

theorem updateEpoch_le (h : ledger.Grows ledger') : ledger.updateEpoch ≤ ledger'.updateEpoch := by
  obtain ⟨later, hlater, -⟩ := h.sealings
  unfold updateEpoch
  rw [hlater, List.length_append]
  omega

theorem record (h : ledger.Grows ledger') (event : Partition.Event) :
    ledger.Grows (ledger'.record event) := by
  have hperiod := h.period_le
  have hupdates := h.updateEpoch_le
  obtain ⟨published, hpublished, hdates⟩ := h.publications
  obtain ⟨ended, hended, hends⟩ := h.sealings
  cases event with
  | published identifier value signature position =>
    refine ⟨⟨published ++ [⟨identifier, value, signature, position, ledger'.period,
      ledger'.updateEpoch + 1⟩], ?_, ?_⟩, h.sealings, h.advances⟩
    · rw [← List.append_assoc, ← hpublished]
      rfl
    · intro made hmade
      rcases List.mem_append.1 hmade with hmade | hmade
      · exact hdates made hmade
      · obtain rfl := List.mem_singleton.1 hmade
        exact ⟨hperiod, Nat.lt_succ_of_le hupdates⟩
  | sealed =>
    refine ⟨h.publications, ⟨ended ++ [⟨ledger'.updateEpoch + 1, ledger'.period⟩], ?_, ?_⟩, h.advances⟩
    · rw [← List.append_assoc, ← hended]
      rfl
    · intro sealing hsealing
      rcases List.mem_append.1 hsealing with hsealing | hsealing
      · exact hends sealing hsealing
      · obtain rfl := List.mem_singleton.1 hsealing
        exact hperiod
  | advanced => exact ⟨h.publications, h.sealings, h.advances.trans (List.prefix_append _ _)⟩

/-- **Events let a ledger grow.** -/
theorem foldl (h : ledger.Grows ledger') (events : List Partition.Event) :
    ledger.Grows (events.foldl Ledger.record ledger') := by
  induction events generalizing ledger' with
  | nil => exact h
  | cons event events ih => exact ih (h.record event)

/-! ## Positions -/

/-- What has been sealed stays sealed. -/
theorem sealedCount_le (h : ledger.Grows ledger') : ledger.sealedCount ≤ ledger'.sealedCount := by
  have hupdates := h.updateEpoch_le
  obtain ⟨later, hlater, -⟩ := h.publications
  have hfirst : ledger.sealedCount ≤
      ledger.publications.countP (·.updateEpoch ≤ ledger'.updateEpoch) := by
    apply List.countP_mono_left
    intro made _ hsealed
    exact decide_eq_true (Nat.le_trans (of_decide_eq_true hsealed) hupdates)
  rw [sealedCount, sealedCount, hlater, List.countP_append]
  exact Nat.le_trans hfirst (Nat.le_add_right _ _)

/-- What is published later takes a later position. -/
theorem exists_publications_eq (h : ledger.Grows ledger') (hconsistent : ledger'.Consistent) :
    ∃ later, ledger'.publications = ledger.publications ++ later ∧
      ∀ made ∈ later, ∃ i, ledger.publications.length ≤ i ∧ i < ledger'.publications.length ∧
        made.position = UInt64.ofNat i := by
  obtain ⟨later, hlater, -⟩ := h.publications
  refine ⟨later, hlater, ?_⟩
  intro made hmade
  obtain ⟨j, hj, rfl⟩ := List.mem_iff_getElem.1 hmade
  have hget : ledger'.publications[ledger.publications.length + j]? = some later[j] := by
    rw [hlater, List.getElem?_append_right (Nat.le_add_right _ _), Nat.add_sub_cancel_left,
      List.getElem?_eq_getElem hj]
  obtain ⟨hlt, -⟩ := List.getElem?_eq_some_iff.1 hget
  exact ⟨_, Nat.le_add_right _ _, hlt, (hconsistent.position _ _ hget).1⟩

/-! ## Tries -/

theorem snapshot_eq (h : ledger.Grows ledger') {epoch : Nat} (he : epoch < ledger.period) :
    ledger'.snapshot epoch = ledger.snapshot epoch := by
  obtain ⟨later, hlater, hdates⟩ := h.publications
  have hnone : later.filter (·.period ≤ epoch) = [] := by
    rw [List.filter_eq_nil_iff]
    intro made hmade
    have hle := (hdates made hmade).1
    simp only [decide_eq_true_eq]
    omega
  rw [snapshot, hlater, List.filter_append, hnone, List.append_nil, snapshot]

theorem snapshotTrie_eq (h : ledger.Grows ledger') {epoch : Nat} (he : epoch < ledger.period) :
    ledger'.snapshotTrie epoch = ledger.snapshotTrie epoch := congrArg trieOver (h.snapshot_eq he)

theorem batch_eq (h : ledger.Grows ledger') {updateEpoch : Nat} (hu : updateEpoch ≤ ledger.updateEpoch) :
    ledger'.batch updateEpoch = ledger.batch updateEpoch := by
  obtain ⟨later, hlater, hdates⟩ := h.publications
  have hnone : later.filter (·.updateEpoch = updateEpoch) = [] := by
    rw [List.filter_eq_nil_iff]
    intro made hmade
    have hlt := (hdates made hmade).2
    simp only [decide_eq_true_eq]
    omega
  rw [batch, hlater, List.filter_append, hnone, List.append_nil, batch]

/-! ## Logs -/

/-- The update epochs that ended since go to the end of every log. -/
theorem sealingsSince_eq (h : ledger.Grows ledger') :
    ∃ later, ∀ advance ≤ ledger.period,
      ledger'.sealingsSince advance = ledger.sealingsSince advance ++ later := by
  obtain ⟨later, hlater, hends⟩ := h.sealings
  refine ⟨later, fun advance hadvance => ?_⟩
  have hall : later.filter (advance ≤ ·.period) = later := by
    rw [List.filter_eq_self]
    intro sealing hsealing
    exact decide_eq_true (Nat.le_trans hadvance (hends sealing hsealing))
  rw [sealingsSince, hlater, List.filter_append, hall, sealingsSince]

end

end Grows

/-- What the log says of the end of an update epoch. -/
def logEntry (ledger : Ledger) (sealing : Sealing) : LogEntry :=
  ⟨UInt64.ofNat sealing.updateEpoch, (ledger.updateTrie sealing.updateEpoch).rootHash⟩

/-- The entries of the log since a verification period. -/
def entriesSince (ledger : Ledger) (advance : Nat) : List LogEntry :=
  (ledger.sealingsSince advance).map ledger.logEntry

theorem log_sealingsSince (ledger : Ledger) (advance : Nat) :
    ledger.log (ledger.sealingsSince advance) = .ofEntries (ledger.entriesSince advance) := rfl

namespace Grows

section

variable {ledger ledger' : Ledger}

/-- The logs since all periods go on with the same entries. -/
theorem entriesSince_eq (h : ledger.Grows ledger') (hconsistent : ledger.Consistent) :
    ∃ later, ∀ advance ≤ ledger.period,
      ledger'.entriesSince advance = ledger.entriesSince advance ++ later := by
  obtain ⟨later, hlater⟩ := h.sealingsSince_eq
  refine ⟨later.map ledger'.logEntry, fun advance hadvance => ?_⟩
  rw [entriesSince, hlater advance hadvance, List.map_append, List.append_left_inj, entriesSince]
  apply List.map_congr_left
  intro sealing hsealing
  obtain ⟨hended, -⟩ := hconsistent.sealing_le sealing (List.mem_of_mem_filter hsealing)
  rw [logEntry, updateTrie, h.batch_eq hended, logEntry, updateTrie]

/-! ## The chain -/

/-- The first links of the chain are those that it had. -/
theorem foldl_link_eq (h : ledger.Grows ledger') :
    (List.range (ledger.period - 1)).foldl ledger'.link Hash.zero = ledger.chain := by
  refine List.foldl_ext _ _ _ fun chain k hk => ?_
  have hk : k < ledger.period - 1 := List.mem_range.1 hk
  obtain ⟨later, hlater⟩ := h.advances
  have hadvance : ledger'.advances.getD (k + 1) 0 = ledger.advances.getD (k + 1) 0 := by
    rw [← hlater]
    exact List.getD_append _ _ _ _ (show k + 1 < ledger.period by omega)
  rw [link, h.snapshotTrie_eq (by omega), h.snapshotTrie_eq (by omega), hadvance, link]

theorem chain_eq (h : ledger.Grows ledger') (hsame : ledger'.period = ledger.period) :
    ledger'.chain = ledger.chain := by
  rw [chain, hsame, h.foldl_link_eq]

/-- After one period the chain has one link more. -/
theorem chain_eq_link (h : ledger.Grows ledger') (hpos : 0 < ledger.period)
    (hnext : ledger'.period = ledger.period + 1) :
    ledger'.chain =
      chainLink (ledger'.snapshotTrie (ledger.period - 1)).rootHash
        (ledger'.snapshotTrie ledger.period).rootHash
        (UInt64.ofNat (ledger'.advances.getLastD 0)) ledger.chain := by
  have hlinks : ledger'.period - 1 = (ledger.period - 1) + 1 := by omega
  have hlast : ledger'.advances.getD (ledger.period - 1 + 1) 0 = ledger'.advances.getLastD 0 := by
    have hlength : ledger'.advances.length - 1 = ledger.period - 1 + 1 := hlinks
    rw [List.getLastD_eq_getLast?, List.getLast?_eq_getElem?, hlength, List.getD_eq_getElem?_getD]
  rw [chain, hlinks, List.range_succ, List.foldl_append, h.foldl_link_eq, List.foldl_cons,
    List.foldl_nil, link, hlast, Nat.sub_add_cancel hpos]

/-! ## The history -/

theorem leaves_isPrefix (h : ledger.Grows ledger') :
    (List.range (ledger.period - 1)).map ledger.leaf <+:
      (List.range (ledger'.period - 1)).map ledger'.leaf := by
  obtain ⟨more, hmore⟩ := Nat.exists_eq_add_of_le (Nat.sub_le_sub_right h.period_le 1)
  have hsame : (List.range (ledger.period - 1)).map ledger'.leaf =
      (List.range (ledger.period - 1)).map ledger.leaf := by
    apply List.map_congr_left
    intro epoch hepoch
    have hepoch : epoch < ledger.period - 1 := List.mem_range.1 hepoch
    rw [leaf, h.snapshotTrie_eq (by omega), leaf]
  rw [hmore, List.range_add, List.map_append, hsame]
  exact List.prefix_append _ _

end

end Grows

/-- Events let the ledger of a partition grow. -/
theorem grows_ofEvents (events later : List Partition.Event) :
    (ofEvents events).Grows (ofEvents (events ++ later)) := by
  rw [ofEvents_append]
  exact (Grows.refl _).foldl later

/-! ## Clocks -/

theorem period_foldl (ledger : Ledger) (events : List Partition.Event) :
    (events.foldl record ledger).period =
      ledger.period + (events.map Partition.Event.operation).count .advance := by
  induction events generalizing ledger with
  | nil => rfl
  | cons event events ih =>
    rw [List.foldl_cons, ih, List.map_cons, List.count_cons]
    cases event with
    | published => rfl
    | sealed => rfl
    | advanced =>
      rw [period_record_advanced]
      show _ = _ + (_ + 1)
      omega

theorem updateEpoch_foldl (ledger : Ledger) (events : List Partition.Event) :
    (events.foldl record ledger).updateEpoch =
      ledger.updateEpoch + (events.map Partition.Event.operation).count .sealUpdates := by
  induction events generalizing ledger with
  | nil => rfl
  | cons event events ih =>
    rw [List.foldl_cons, ih, List.map_cons, List.count_cons]
    cases event with
    | published => rfl
    | sealed =>
      rw [updateEpoch_record_sealed]
      show _ = _ + (_ + 1)
      omega
    | advanced => rfl

end Ledger

end KeyTransparency
