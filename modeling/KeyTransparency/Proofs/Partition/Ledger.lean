import KeyTransparency.Proofs.Forest.Blocks
import KeyTransparency.Proofs.Log.Tree
import KeyTransparency.Proofs.Partition.Filled
import Mathlib.Data.List.GetD

/-!
# The ledger of a partition, and the digest it calls for

A ledger lists what has happened to a partition and nothing of how the partition keeps it: the values
published, each with its position and with what the two clocks showed, the update epochs that have
ended, and the verification periods that have.  `Ledger.digest` says what such a partition has to
publish, every trie being one that was filled in one go:

    snapshotTrie e   the trie over what was published up to the end of verification epoch e
    updateTrie u     the trie over what was published in update epoch u
    sealingsSince k  the update epochs that ended after verification period number k did

`Consistent` is what the order of events alone makes true of a ledger.
-/

namespace KeyTransparency

open Trie Forest

/-! ## Events -/

namespace Partition

/-- What went through at a partition, a publication with the position it was given. -/
inductive Event
  | published (identifier value signature : Bytes) (position : UInt64)
  | sealed
  | advanced
deriving DecidableEq

end Partition

structure Publication where
  identifier : Bytes
  value : Bytes
  signature : Bytes
  position : UInt64
  /-- The verification epoch it was made in. -/
  period : Nat
  /-- The update epoch it was made in, the first one being number 1. -/
  updateEpoch : Nat
deriving DecidableEq

namespace Publication

def entry (made : Publication) : ValueEntry :=
  ⟨contentHash made.identifier made.value made.signature made.position, made.position⟩

def insertion (made : Publication) : Insertion := (Bits.ofIdentifier made.identifier, made.entry)

end Publication

/-- The end of an update epoch. -/
structure Sealing where
  updateEpoch : Nat
  /-- The verification epoch it fell in. -/
  period : Nat
deriving DecidableEq

structure Ledger where
  /-- The values published, oldest first. -/
  publications : List Publication
  sealings : List Sealing
  /-- For every verification period that has ended, how many update epochs had ended before. -/
  advances : List Nat
deriving DecidableEq

namespace Ledger

def empty : Ledger := ⟨[], [], []⟩

/-- The current verification epoch. -/
def period (ledger : Ledger) : Nat := ledger.advances.length

/-- The number of update epochs that have ended. -/
def updateEpoch (ledger : Ledger) : Nat := ledger.sealings.length

def record (ledger : Ledger) : Partition.Event → Ledger
  | .published identifier value signature position =>
    let made : Publication :=
      ⟨identifier, value, signature, position, ledger.period, ledger.updateEpoch + 1⟩
    { ledger with publications := ledger.publications ++ [made] }
  | .sealed =>
    { ledger with sealings := ledger.sealings ++ [⟨ledger.updateEpoch + 1, ledger.period⟩] }
  | .advanced => { ledger with advances := ledger.advances ++ [ledger.updateEpoch] }

/-- The ledger of a partition that has been made, with two verification periods behind it, and has
then seen these events. -/
def ofEvents (events : List Partition.Event) : Ledger :=
  (.advanced :: .advanced :: events).foldl record empty

/-! ## What is to be published -/

/-- What was published up to the end of a verification epoch. -/
def snapshot (ledger : Ledger) (epoch : Nat) : List Insertion :=
  (ledger.publications.filter (·.period ≤ epoch)).map Publication.insertion

/-- What was published in an update epoch. -/
def batch (ledger : Ledger) (updateEpoch : Nat) : List Insertion :=
  (ledger.publications.filter (·.updateEpoch = updateEpoch)).map Publication.insertion

def snapshotTrie (ledger : Ledger) (epoch : Nat) : PrefixTrie := trieOver (ledger.snapshot epoch)

def updateTrie (ledger : Ledger) (updateEpoch : Nat) : PrefixTrie :=
  trieOver (ledger.batch updateEpoch)

/-- The update epochs that ended after verification period number `advance` did. -/
def sealingsSince (ledger : Ledger) (advance : Nat) : List Sealing :=
  ledger.sealings.filter (advance ≤ ·.period)

/-- The log of the tries that some update epochs ended with. -/
def log (ledger : Ledger) (sealings : List Sealing) : CommitmentLog :=
  .ofEntries <| sealings.map fun sealing =>
    ⟨UInt64.ofNat sealing.updateEpoch, (ledger.updateTrie sealing.updateEpoch).rootHash⟩

/-- The link at the end of epoch `k + 1`, which names the snapshots of epochs `k` and `k + 1`. -/
def link (ledger : Ledger) (chain : Hash) (k : Nat) : Hash :=
  chainLink (ledger.snapshotTrie k).rootHash (ledger.snapshotTrie (k + 1)).rootHash
    (UInt64.ofNat (ledger.advances.getD (k + 1) 0)) chain

/-- The chain, with a link for every verification period that has ended but the first. -/
def chain (ledger : Ledger) : Hash := (List.range (ledger.period - 1)).foldl ledger.link Hash.zero

/-- The leaf for a settled verification epoch. -/
def leaf (ledger : Ledger) (epoch : Nat) : ForestLeaf :=
  ((ledger.snapshotTrie epoch).rootHash, UInt64.ofNat epoch)

/-- The history over all verification epochs but the newest two. -/
def history (ledger : Ledger) (depth : Nat) : HistoryForest :=
  (HistoryForest.empty depth).appendAll ((List.range (ledger.period - 1)).map ledger.leaf)

/-- What a partition with this ledger has to publish. -/
def digest (ledger : Ledger) (aggregated : Bool) (depth : Nat) : Digest where
  settledRoot := (ledger.snapshotTrie (ledger.period - 2)).rootHash
  recentRoot := (ledger.snapshotTrie (ledger.period - 1)).rootHash
  baseSize := ((ledger.snapshot (ledger.period - 2)).map Prod.fst).toFinset.card
  updateLog := (ledger.log (ledger.sealingsSince (ledger.period - 1))).digest
  pendingLog := (ledger.log (ledger.sealingsSince ledger.period)).digest
  updateRoots := (ledger.sealingsSince (ledger.period - 1)).map fun sealing =>
    (ledger.updateTrie sealing.updateEpoch).rootHash
  updateEpoch := UInt64.ofNat ledger.updateEpoch
  verificationEpoch := UInt64.ofNat ledger.period
  settledUpdateEpoch := UInt64.ofNat (ledger.advances.getLastD 0)
  chain := ledger.chain
  history := if aggregated then some (ledger.history depth).digest else none

/-! ## Order -/

/-- The number of publications in update epochs that have ended. -/
def sealedCount (ledger : Ledger) : Nat :=
  ledger.publications.countP (·.updateEpoch ≤ ledger.updateEpoch)

structure Consistent (ledger : Ledger) : Prop where
  period_le : ∀ made ∈ ledger.publications, made.period ≤ ledger.period
  updateEpoch_le : ∀ made ∈ ledger.publications, made.updateEpoch ≤ ledger.updateEpoch + 1
  sealing_le : ∀ sealing ∈ ledger.sealings,
    sealing.updateEpoch ≤ ledger.updateEpoch ∧ sealing.period ≤ ledger.period
  /-- An update epoch ends no earlier than what was published in it. -/
  sealed : ∀ made ∈ ledger.publications, made.updateEpoch ≤ ledger.updateEpoch →
    ∃ sealing ∈ ledger.sealings, sealing.updateEpoch = made.updateEpoch ∧ made.period ≤ sealing.period
  position : ∀ i made, ledger.publications[i]? = some made →
    made.position = UInt64.ofNat i ∧ (made.updateEpoch ≤ ledger.updateEpoch ↔ i < ledger.sealedCount)

section

variable {ledger : Ledger}

/-- A history with room for all settled epochs holds them all. -/
theorem holds_history {depth : Nat} (hroom : ledger.period - 1 ≤ HistoryForest.capacityOf depth) :
    (ledger.history depth).Holds ((List.range (ledger.period - 1)).map ledger.leaf) ∧
      (ledger.history depth).depth = depth := by
  have h := HistoryForest.holds_appendAll depth ((List.range (ledger.period - 1)).map ledger.leaf)
  rwa [List.take_of_length_le (by rwa [List.length_map, List.length_range])] at h

theorem isKey_of_mem_map {publications : List Publication} {insertion : Insertion}
    (h : insertion ∈ publications.map Publication.insertion) : insertion.1.IsKey := by
  obtain ⟨made, -, rfl⟩ := List.mem_map.1 h
  exact Bits.isKey_ofIdentifier made.identifier

theorem isKey_of_mem_snapshot {epoch : Nat} {insertion : Insertion}
    (h : insertion ∈ ledger.snapshot epoch) : insertion.1.IsKey := isKey_of_mem_map h

theorem isKey_of_mem_batch {updateEpoch : Nat} {insertion : Insertion}
    (h : insertion ∈ ledger.batch updateEpoch) : insertion.1.IsKey := isKey_of_mem_map h

/-! ### What an event changes -/

section

variable {identifier value signature : Bytes} {position : UInt64}

/-- A snapshot of the past stays what it is. -/
theorem snapshot_record_published {epoch : Nat} (h : epoch < ledger.period) :
    (ledger.record (.published identifier value signature position)).snapshot epoch =
      ledger.snapshot epoch := by
  simp [snapshot, record, Nat.not_le.2 h]

/-- Nothing is added to what an update epoch that has ended brought. -/
theorem batch_record_published_of_le {updateEpoch : Nat} (h : updateEpoch ≤ ledger.updateEpoch) :
    (ledger.record (.published identifier value signature position)).batch updateEpoch =
      ledger.batch updateEpoch := by
  have hne : ledger.updateEpoch + 1 ≠ updateEpoch := by omega
  simp [batch, record, hne]

theorem batch_record_published :
    (ledger.record (.published identifier value signature position)).batch
        (ledger.updateEpoch + 1) =
      ledger.batch (ledger.updateEpoch + 1) ++
        [(Bits.ofIdentifier identifier, ⟨contentHash identifier value signature position, position⟩)] := by
  simp [batch, record, Publication.insertion, Publication.entry]

theorem snapshotTrie_record_published {epoch : Nat} (h : epoch < ledger.period) :
    (ledger.record (.published identifier value signature position)).snapshotTrie epoch =
      ledger.snapshotTrie epoch := congrArg trieOver (snapshot_record_published h)

/-- The chain links snapshots of the past only. -/
theorem chain_record_published :
    (ledger.record (.published identifier value signature position)).chain = ledger.chain := by
  refine List.foldl_ext _ _ _ fun chain k hk => ?_
  have hk : k < ledger.period - 1 := List.mem_range.1 hk
  rw [link, snapshotTrie_record_published (by omega), snapshotTrie_record_published (by omega)]
  rfl

/-- The history is over snapshots of the past only. -/
theorem history_record_published (depth : Nat) :
    (ledger.record (.published identifier value signature position)).history depth =
      ledger.history depth := by
  refine congrArg (HistoryForest.empty depth).appendAll (List.map_congr_left fun epoch hepoch => ?_)
  have hepoch : epoch < ledger.period - 1 := List.mem_range.1 hepoch
  rw [leaf, snapshotTrie_record_published (by omega), leaf]

theorem sealedCount_record_published :
    (ledger.record (.published identifier value signature position)).sealedCount =
      ledger.sealedCount := by
  show List.countP (·.updateEpoch ≤ ledger.updateEpoch) (ledger.publications ++ [_]) = _
  rw [List.countP_append, List.countP_singleton, if_neg (by simp), Nat.add_zero]
  rfl

end

theorem updateEpoch_record_sealed : (ledger.record .sealed).updateEpoch = ledger.updateEpoch + 1 := by
  simp [record, updateEpoch]

theorem period_record_advanced : (ledger.record .advanced).period = ledger.period + 1 := by
  simp [record, period]

/-- With the end of the first verification period there is nothing to link, and nothing settles. -/
theorem chain_record_first (h : ledger.period = 0) : (ledger.record .advanced).chain = ledger.chain := by
  have hnext : (ledger.record .advanced).period - 1 = 0 := by
    rw [period_record_advanced, h]
  rw [chain, hnext, chain, h, List.range_zero, List.foldl_nil, List.foldl_nil]

theorem history_record_first (h : ledger.period = 0) (depth : Nat) :
    (ledger.record .advanced).history depth = ledger.history depth := by
  have hnext : (ledger.record .advanced).period - 1 = 0 := by
    rw [period_record_advanced, h]
  rw [history, hnext, history, h, List.range_zero, List.map_nil, List.map_nil]

/-- The end of a verification period adds a link to the chain, unless it is the first. -/
theorem chain_record_advanced (h : 0 < ledger.period) :
    (ledger.record .advanced).chain =
      chainLink (ledger.snapshotTrie (ledger.period - 1)).rootHash
        (ledger.snapshotTrie ledger.period).rootHash (UInt64.ofNat ledger.updateEpoch) ledger.chain := by
  obtain ⟨before, hbefore⟩ := Nat.exists_eq_add_one.2 h
  have hlength : ledger.advances.length = before + 1 := hbefore
  have hkept : (List.range before).foldl (ledger.record .advanced).link Hash.zero = ledger.chain := by
    rw [chain, hbefore]
    refine List.foldl_ext _ _ _ fun chain k hk => ?_
    have hk := List.mem_range.1 hk
    have hadvance : (ledger.advances ++ [ledger.updateEpoch]).getD (k + 1) 0 =
        ledger.advances.getD (k + 1) 0 := List.getD_append _ _ _ _ (by omega)
    rw [link, link, ← hadvance]
    rfl
  have hadvance : (ledger.advances ++ [ledger.updateEpoch]).getD (before + 1) 0 =
      ledger.updateEpoch := by
    rw [List.getD_append_right _ _ _ _ (by omega), hlength, Nat.sub_self]
    rfl
  rw [chain, period_record_advanced, hbefore, Nat.add_sub_cancel, List.range_succ, List.foldl_append,
    hkept, Nat.add_sub_cancel, ← hadvance]
  rfl

theorem history_record_advanced (h : 0 < ledger.period) (depth : Nat) :
    (ledger.record .advanced).history depth =
      (ledger.history depth).offer (ledger.leaf (ledger.period - 1)) := by
  obtain ⟨before, hbefore⟩ := Nat.exists_eq_add_one.2 h
  rw [history, period_record_advanced, history, hbefore, Nat.add_sub_cancel, List.range_succ,
    List.map_append, HistoryForest.appendAll, List.foldl_append]
  rfl

theorem sealingsSince_record_sealed {advance : Nat} (h : advance ≤ ledger.period) :
    (ledger.record .sealed).sealingsSince advance =
      ledger.sealingsSince advance ++ [⟨ledger.updateEpoch + 1, ledger.period⟩] := by
  simp [sealingsSince, record, h]

end

/-! ### Order -/

theorem consistent_empty : empty.Consistent where
  period_le _ h := nomatch h
  updateEpoch_le _ h := nomatch h
  sealing_le _ h := nomatch h
  sealed _ h := nomatch h
  position _ _ h := by simp [empty] at h

namespace Consistent

variable {ledger : Ledger}

/-- Positions count the publications. -/
theorem map_position (h : ledger.Consistent) :
    ledger.publications.map Publication.position =
      (List.range ledger.publications.length).map UInt64.ofNat := by
  refine List.ext_getElem (by simp) fun i hi hi' => ?_
  rw [List.length_map] at hi
  rw [List.getElem_map, List.getElem_map, List.getElem_range]
  exact (h.position i _ (List.getElem?_eq_getElem hi)).1

theorem record_published (h : ledger.Consistent) (identifier value signature : Bytes)
    {position : UInt64} (hposition : position = UInt64.ofNat ledger.publications.length) :
    (ledger.record (.published identifier value signature position)).Consistent where
  period_le made hmade := by
    rcases List.mem_append.1 hmade with hmade | hmade
    · exact h.period_le made hmade
    · obtain rfl := List.mem_singleton.1 hmade
      exact Nat.le_refl _
  updateEpoch_le made hmade := by
    rcases List.mem_append.1 hmade with hmade | hmade
    · exact h.updateEpoch_le made hmade
    · obtain rfl := List.mem_singleton.1 hmade
      exact Nat.le_refl _
  sealing_le := h.sealing_le
  sealed made hmade hended := by
    rcases List.mem_append.1 hmade with hmade | hmade
    · exact h.sealed made hmade hended
    · obtain rfl := List.mem_singleton.1 hmade
      exact absurd hended (Nat.not_succ_le_self _)
  position i made hmade := by
    rw [sealedCount_record_published]
    simp only [record] at hmade
    rcases Nat.lt_or_ge i ledger.publications.length with hi | hi
    · rw [List.getElem?_append_left hi] at hmade
      exact h.position i made hmade
    · -- the newest one, whose update epoch has not ended
      rw [List.getElem?_append_right hi, List.getElem?_singleton] at hmade
      obtain ⟨hlast, hnew⟩ := Option.ite_none_right_eq_some.1 hmade
      obtain rfl := Option.some.inj hnew
      obtain rfl : i = ledger.publications.length := by omega
      refine ⟨hposition, ?_⟩
      constructor
      · intro hended
        exact absurd hended (Nat.not_succ_le_self _)
      · intro hlt
        exact absurd (Nat.lt_of_lt_of_le hlt List.countP_le_length) (Nat.lt_irrefl _)

/-- With its update epoch the partition seals everything it has. -/
theorem sealedCount_record_sealed (h : ledger.Consistent) :
    (ledger.record .sealed).sealedCount = ledger.publications.length := by
  apply List.countP_eq_length.2
  intro made hmade
  rw [updateEpoch_record_sealed]
  exact decide_eq_true (h.updateEpoch_le made hmade)

/-- Nothing is published in an update epoch that is only beginning. -/
theorem batch_eq_nil (h : ledger.Consistent) : ledger.batch (ledger.updateEpoch + 2) = [] := by
  rw [batch, List.filter_eq_nil_iff.2, List.map_nil]
  intro made hmade
  have hle := h.updateEpoch_le made hmade
  simp only [decide_eq_true_eq]
  omega

/-- No update epoch ends after a verification period that is only beginning. -/
theorem sealingsSince_eq_nil (h : ledger.Consistent) :
    ledger.sealingsSince (ledger.period + 1) = [] := by
  rw [sealingsSince, List.filter_eq_nil_iff]
  intro sealing hsealing
  have hle := (h.sealing_le sealing hsealing).2
  simp only [decide_eq_true_eq]
  omega

theorem record_sealed (h : ledger.Consistent) : (ledger.record .sealed).Consistent := by
  have hepoch : (ledger.record .sealed).updateEpoch = ledger.updateEpoch + 1 :=
    updateEpoch_record_sealed
  have hended : ∀ made ∈ ledger.publications,
      made.updateEpoch ≤ (ledger.record .sealed).updateEpoch := by
    intro made hmade
    rw [hepoch]
    exact h.updateEpoch_le made hmade
  refine ⟨h.period_le, ?_, ?_, ?_, ?_⟩
  · intro made hmade
    exact Nat.le_succ_of_le (hended made hmade)
  · intro sealing hsealing
    rw [hepoch]
    rcases List.mem_append.1 hsealing with hsealing | hsealing
    · obtain ⟨hle, hperiod⟩ := h.sealing_le sealing hsealing
      exact ⟨Nat.le_succ_of_le hle, hperiod⟩
    · obtain rfl := List.mem_singleton.1 hsealing
      exact ⟨Nat.le_refl _, Nat.le_refl _⟩
  · intro made hmade _
    rcases Nat.lt_or_eq_of_le (h.updateEpoch_le made hmade) with hlt | heq
    · obtain ⟨sealing, hsealing, hsame, hperiod⟩ := h.sealed made hmade (Nat.le_of_lt_succ hlt)
      exact ⟨sealing, List.mem_append_left _ hsealing, hsame, hperiod⟩
    · exact ⟨_, List.mem_append_right _ List.mem_cons_self, heq.symm, h.period_le made hmade⟩
  · intro i made hmade
    rw [h.sealedCount_record_sealed]
    have hi := (List.getElem?_eq_some_iff.1 hmade).1
    exact ⟨(h.position i made hmade).1, fun _ => hi, fun _ => hended made (List.mem_of_getElem? hmade)⟩

theorem record_advanced (h : ledger.Consistent) : (ledger.record .advanced).Consistent := by
  have hle : ledger.period ≤ (ledger.record .advanced).period := by
    rw [period_record_advanced]
    omega
  refine ⟨?_, h.updateEpoch_le, ?_, h.sealed, h.position⟩
  · intro made hmade
    exact Nat.le_trans (h.period_le made hmade) hle
  · intro sealing hsealing
    obtain ⟨hupdate, hperiod⟩ := h.sealing_le sealing hsealing
    exact ⟨hupdate, Nat.le_trans hperiod hle⟩

end Consistent

end Ledger

end KeyTransparency
