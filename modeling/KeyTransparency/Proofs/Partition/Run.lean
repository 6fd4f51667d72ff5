import KeyTransparency.Proofs.Partition.Ledger
import KeyTransparency.Proofs.Trie.Epochs

/-!
# Runs of a partition

A run performs operations one after the other and lists the events that went through; an operation
that is refused leaves the partition as it is.  `Reflects p ledger` is the invariant of a run: every
part of the partition is what the ledger of its events says it is.  Each of the three operations
keeps it, and only the end of a verification period can be refused, by a history that is full:

    Reflects p ledger → p.append … = ok (p', position),  Reflects p' (ledger.record published)
    Reflects p ledger → p.sealUpdates = ok p',           Reflects p' (ledger.record sealed)
    Reflects p ledger → there is room → p.advance = ok p',  Reflects p' (ledger.record advanced)
    operate … = ok (p, events),  Reflects p (ofEvents events)                       (operate_reflects)
-/

namespace KeyTransparency

open Trie Forest

namespace Partition

/-! ## Runs -/

inductive Operation
  | append (identifier value signature : Bytes)
  | sealUpdates
  | advance
deriving DecidableEq

/-- What was asked for when an event took place. -/
def Event.operation : Event → Operation
  | .published identifier value signature _ => .append identifier value signature
  | .sealed => .sealUpdates
  | .advanced => .advance

def perform (p : Partition) : Operation → Except Error (Partition × Event)
  | .append identifier value signature => do
    let (p, position) ← p.append identifier value signature
    pure (p, .published identifier value signature position)
  | .sealUpdates => do pure (← p.sealUpdates, .sealed)
  | .advance => do pure (← p.advance, .advanced)

/-- Performs operations and lists what went through. -/
def run (p : Partition) : (operations : List Operation) → Partition × List Event
  | [] => (p, [])
  | operation :: operations =>
    match p.perform operation with
    | .error _ => p.run operations
    | .ok (next, event) =>
      let (last, events) := next.run operations
      (last, event :: events)

/-- The parts of the end of a verification period. -/
theorem advance_eq (p : Partition) :
    p.advance = (do
      let roots ← linkedRoots p.base.nextEpoch
      let history ← p.history.mapM (settle p.base.nextEpoch)
      pure { p with
        base := p.base.nextEpoch
        chain := roots.elim p.chain fun roots => chainLink roots.1 roots.2 p.updateEpoch p.chain
        history := history
        window := p.window.rotate
        settledUpdateEpoch := p.updateEpoch }) := by
  unfold advance
  dsimp only
  cases linkedRoots p.base.nextEpoch with
  | error => rfl
  | ok roots => cases roots <;> cases p.history <;> rfl

/-- Makes a partition and performs operations on it. -/
def operate (aggregated : Bool) (depth : Nat) (operations : List Operation) :
    Except Error (Partition × List Event) := do
  pure ((← create aggregated depth).run operations)

end Partition

/-! ## What a partition keeps -/

namespace Ledger

/-- Everything published, with the verification epoch it was published in. -/
def dated (ledger : Ledger) : List (Nat × Insertion) :=
  ledger.publications.map fun made => (made.period, made.insertion)

/-- The sealed tries of some update epochs, with their log. -/
def sealedSet (ledger : Ledger) (sealings : List Sealing) : SealedSet :=
  ⟨ledger.log sealings, sealings.map fun sealing => (ledger.updateTrie sealing.updateEpoch).toSealed⟩

section

variable {ledger : Ledger}

/-- The snapshots of the base trie are those of the ledger. -/
theorem plainAt_dated (epoch : Nat) :
    PersistentTrie.plainAt keyBits ledger.dated epoch = ledger.snapshotTrie epoch := by
  have hsnapshot : (ledger.dated.filter fun made => made.1 ≤ epoch).map Prod.snd =
      ledger.snapshot epoch := by
    rw [dated, List.filter_map, List.map_map]
    rfl
  rw [PersistentTrie.plainAt, hsnapshot]
  rfl

/-- One more update epoch is one more trie and one more entry of the log. -/
theorem sealedSet_concat (sealings : List Sealing) (sealing : Sealing) :
    ledger.sealedSet (sealings ++ [sealing]) =
      (ledger.sealedSet sealings).add (UInt64.ofNat sealing.updateEpoch)
        (ledger.updateTrie sealing.updateEpoch).toSealed := by
  rw [sealedSet, log, List.map_append, CommitmentLog.ofEntries, List.foldl_append, List.map_append]
  rfl

/-- What is kept of update epochs depends on what they brought and on nothing else. -/
theorem sealedSet_congr {ledger' : Ledger} {sealings : List Sealing}
    (h : ∀ sealing ∈ sealings, ledger'.batch sealing.updateEpoch = ledger.batch sealing.updateEpoch) :
    ledger'.sealedSet sealings = ledger.sealedSet sealings := by
  have htrie : ∀ sealing ∈ sealings,
      ledger'.updateTrie sealing.updateEpoch = ledger.updateTrie sealing.updateEpoch := by
    intro sealing hsealing
    exact congrArg trieOver (h sealing hsealing)
  have hlog : ledger'.log sealings = ledger.log sealings := by
    refine congrArg CommitmentLog.ofEntries (List.map_congr_left ?_)
    intro sealing hsealing
    rw [htrie sealing hsealing]
  have htries : (sealings.map fun sealing => (ledger'.updateTrie sealing.updateEpoch).toSealed) =
      sealings.map fun sealing => (ledger.updateTrie sealing.updateEpoch).toSealed := by
    apply List.map_congr_left
    intro sealing hsealing
    rw [htrie sealing hsealing]
  rw [sealedSet, hlog, htries, sealedSet]

end

end Ledger

/-! ## The invariant -/

/-- Every part of the partition is what the ledger says. -/
structure Reflects (p : Partition) (ledger : Ledger) (aggregated : Bool) (depth : Nat) : Prop where
  consistent : ledger.Consistent
  base : PersistentTrie.Mirrors p.base keyBits ledger.dated
  epoch : p.base.epoch = ledger.period
  window : p.window = ⟨ledger.sealedSet (ledger.sealingsSince (ledger.period - 1)),
    ledger.sealedSet (ledger.sealingsSince ledger.period)⟩
  pending : p.pending = ledger.batch (ledger.updateEpoch + 1)
  updateEpoch : p.updateEpoch = UInt64.ofNat ledger.updateEpoch
  settledUpdateEpoch : p.settledUpdateEpoch = UInt64.ofNat (ledger.advances.getLastD 0)
  nextPosition : p.nextPosition = UInt64.ofNat ledger.publications.length
  sealedPosition : p.sealedPosition = UInt64.ofNat ledger.sealedCount
  chain : p.chain = ledger.chain
  history : p.history = if aggregated then some (ledger.history depth) else none
  room : aggregated = true → ledger.period - 1 ≤ HistoryForest.capacityOf depth

theorem ofNat_succ (n : Nat) : UInt64.ofNat (n + 1) = UInt64.ofNat n + 1 := UInt64.ofNat_add n 1

theorem reflects_initial (aggregated : Bool) (depth : Nat) :
    Reflects (.initial (if aggregated then some (.empty depth) else none)) .empty aggregated depth where
  consistent := Ledger.consistent_empty
  base := PersistentTrie.mirrors_empty keyBits
  epoch := rfl
  window := rfl
  pending := rfl
  updateEpoch := rfl
  settledUpdateEpoch := rfl
  nextPosition := rfl
  sealedPosition := rfl
  chain := rfl
  history := rfl
  room _ := Nat.zero_le _

namespace Reflects

variable {p : Partition} {ledger : Ledger} {aggregated : Bool} {depth : Nat}

theorem rootHash_eq (h : Reflects p ledger aggregated depth) {epoch : Nat} (he : epoch ≤ ledger.period) :
    p.base.rootHash epoch = .ok (ledger.snapshotTrie epoch).rootHash := by
  rw [h.base.rootHash_eq (h.epoch ▸ he), Ledger.plainAt_dated]

/-- The base trie holds what was published. -/
theorem lookup_eq (h : Reflects p ledger aggregated depth) {key : Bits} (hkey : key.IsKey) {epoch : Nat}
    (he : epoch ≤ ledger.period) : p.base.lookup key epoch = .ok (held? key (ledger.snapshot epoch)) := by
  have hkeys : ∀ insertion ∈ ledger.snapshot epoch, insertion.1.IsKey := fun _ =>
    Ledger.isKey_of_mem_snapshot
  rw [h.base.lookup_eq (h.epoch ▸ he) hkey.length_eq hkey.ne_nil, Ledger.plainAt_dated]
  exact (reached_trieOver hkeys).get?_eq (admits_trieOver hkey) hkey.wellFormed

/-! ### Publishing -/

/-- Whatever is published is taken, at the next position. -/
theorem append (h : Reflects p ledger aggregated depth) (identifier value signature : Bytes) :
    ∃ next, p.append identifier value signature = .ok (next, p.nextPosition) ∧
      Reflects next (ledger.record (.published identifier value signature p.nextPosition))
        aggregated depth := by
  have hkey := Bits.isKey_ofIdentifier identifier
  obtain ⟨base, hrun, hepoch, hbase⟩ := h.base.insert_key hkey.wellFormed hkey.length_eq hkey.ne_nil
    ⟨contentHash identifier value signature p.nextPosition, p.nextPosition⟩
  rw [Partition.append, hrun]
  refine ⟨_, rfl, ?_⟩
  -- what has been sealed stays as it is
  have hsealed : ∀ advance, (ledger.record (.published identifier value signature
      p.nextPosition)).sealedSet (ledger.sealingsSince advance) =
        ledger.sealedSet (ledger.sealingsSince advance) := by
    intro advance
    apply Ledger.sealedSet_congr
    intro sealing hsealing
    obtain ⟨hended, -⟩ := h.consistent.sealing_le sealing (List.mem_of_mem_filter hsealing)
    exact Ledger.batch_record_published_of_le hended
  exact {
    consistent := h.consistent.record_published identifier value signature h.nextPosition
    base := by
      rw [h.epoch] at hbase
      rw [Ledger.dated, Ledger.record, List.map_append]
      exact hbase
    epoch := hepoch.trans h.epoch
    window := h.window.trans (congrArg₂ EpochWindow.mk (hsealed _) (hsealed _)).symm
    pending := (congrArg (· ++ _) h.pending).trans Ledger.batch_record_published.symm
    updateEpoch := h.updateEpoch
    settledUpdateEpoch := h.settledUpdateEpoch
    nextPosition := by
      rw [Ledger.record, List.length_append, List.length_singleton, ofNat_succ, ← h.nextPosition]
    sealedPosition := by rw [Ledger.sealedCount_record_published, ← h.sealedPosition]
    chain := by rw [Ledger.chain_record_published, ← h.chain]
    history := by rw [Ledger.history_record_published, ← h.history]
    room := h.room }

/-! ### Ending an update epoch -/

/-- An update epoch can always end. -/
theorem sealUpdates (h : Reflects p ledger aggregated depth) :
    ∃ next, p.sealUpdates = .ok next ∧ Reflects next (ledger.record .sealed) aggregated depth := by
  have htrie : Partition.sealedTrie p.pending =
      .ok (ledger.updateTrie (ledger.updateEpoch + 1)).toSealed := by
    rw [h.pending]
    exact sealedTrie_eq fun _ => Ledger.isKey_of_mem_batch
  have hepoch : p.updateEpoch + 1 = UInt64.ofNat (ledger.updateEpoch + 1) := by
    rw [h.updateEpoch, ofNat_succ]
  have hadd : ∀ advance, advance ≤ ledger.period →
      (ledger.record .sealed).sealedSet ((ledger.record .sealed).sealingsSince advance) =
        (ledger.sealedSet (ledger.sealingsSince advance)).add (p.updateEpoch + 1)
          (ledger.updateTrie (ledger.updateEpoch + 1)).toSealed := by
    intro advance hadvance
    rw [Ledger.sealingsSince_record_sealed hadvance, Ledger.sealedSet_concat, hepoch]
    rfl
  rw [Partition.sealUpdates, htrie]
  refine ⟨_, rfl, ?_⟩
  exact {
    consistent := h.consistent.record_sealed
    base := h.base
    epoch := h.epoch
    window := by
      rw [h.window]
      show EpochWindow.add _ _ _ =
        ⟨(ledger.record .sealed).sealedSet ((ledger.record .sealed).sealingsSince (ledger.period - 1)),
          (ledger.record .sealed).sealedSet ((ledger.record .sealed).sealingsSince ledger.period)⟩
      rw [hadd _ (Nat.sub_le _ _), hadd _ (Nat.le_refl _)]
      rfl
    pending := by
      rw [Ledger.updateEpoch_record_sealed]
      exact h.consistent.batch_eq_nil.symm
    updateEpoch := by rw [Ledger.updateEpoch_record_sealed, ← hepoch]
    settledUpdateEpoch := h.settledUpdateEpoch
    nextPosition := h.nextPosition
    sealedPosition := by rw [h.consistent.sealedCount_record_sealed, ← h.nextPosition]
    chain := h.chain
    history := h.history
    room := h.room }

/-! ### Ending a verification period -/

theorem nextEpoch_epoch (h : Reflects p ledger aggregated depth) :
    p.base.nextEpoch.epoch = ledger.period + 1 := congrArg (· + 1) h.epoch

theorem nextEpoch_rootHash_eq (h : Reflects p ledger aggregated depth) {epoch : Nat}
    (he : epoch ≤ ledger.period) :
    p.base.nextEpoch.rootHash epoch = .ok (ledger.snapshotTrie epoch).rootHash := by
  have hle : epoch ≤ p.base.nextEpoch.epoch := by
    rw [h.nextEpoch_epoch]
    omega
  rw [h.base.nextEpoch.rootHash_eq hle, Ledger.plainAt_dated]

/-- The snapshots linked at the end of the current period. -/
theorem linkedRoots_eq (h : Reflects p ledger aggregated depth) :
    Partition.linkedRoots p.base.nextEpoch =
      .ok (if ledger.period = 0 then none
        else some ((ledger.snapshotTrie (ledger.period - 1)).rootHash,
          (ledger.snapshotTrie ledger.period).rootHash)) := by
  rw [Partition.linkedRoots, h.nextEpoch_epoch, auditLag]
  by_cases hzero : ledger.period = 0
  · rw [if_pos hzero, if_pos (by omega)]
  · have hback : ledger.period + 1 - 2 = ledger.period - 1 := by omega
    rw [if_neg hzero, if_neg (by omega), hback, h.nextEpoch_rootHash_eq (Nat.sub_le _ _),
      Nat.sub_add_cancel (by omega), h.nextEpoch_rootHash_eq (Nat.le_refl _)]
    rfl

/-- What the history takes at the end of the current period. -/
theorem settle_eq (h : Reflects p ledger aggregated depth) (forest : HistoryForest) :
    Partition.settle p.base.nextEpoch forest =
      if ledger.period = 0 then .ok forest
      else forest.append (ledger.leaf (ledger.period - 1)).1 (ledger.leaf (ledger.period - 1)).2 := by
  rw [Partition.settle, h.nextEpoch_epoch, auditLag]
  by_cases hzero : ledger.period = 0
  · rw [if_pos hzero, if_pos (by omega)]
  · have hback : ledger.period + 1 - 2 = ledger.period - 1 := by omega
    rw [if_neg hzero, if_neg (by omega), hback]
    dsimp only
    rw [h.nextEpoch_rootHash_eq (Nat.sub_le _ _)]
    rfl

/-- The chain goes on with the snapshots that the ledger's chain goes on with. -/
theorem chain_advance (h : Reflects p ledger aggregated depth) :
    ∃ roots, Partition.linkedRoots p.base.nextEpoch = .ok roots ∧
      (roots.elim p.chain fun roots => chainLink roots.1 roots.2 p.updateEpoch p.chain) =
        (ledger.record .advanced).chain := by
  refine ⟨_, h.linkedRoots_eq, ?_⟩
  by_cases hzero : ledger.period = 0
  · rw [if_pos hzero, Option.elim_none, h.chain, Ledger.chain_record_first hzero]
  · rw [if_neg hzero, Option.elim_some, Ledger.chain_record_advanced (Nat.pos_of_ne_zero hzero),
      h.chain, h.updateEpoch]

/-- A history with room takes the snapshot that settles. -/
theorem settle_history (h : Reflects p ledger true depth)
    (hroom : ledger.period ≤ HistoryForest.capacityOf depth) :
    Partition.settle p.base.nextEpoch (ledger.history depth) =
      .ok ((ledger.record .advanced).history depth) := by
  rw [h.settle_eq]
  by_cases hzero : ledger.period = 0
  · rw [if_pos hzero, Ledger.history_record_first hzero]
  · obtain ⟨hholds, hdepth⟩ := Ledger.holds_history (h.room rfl)
    obtain ⟨next, hnext, -⟩ := hholds.append (by
      rw [List.length_map, List.length_range, HistoryForest.capacity, hdepth]
      omega) (ledger.leaf (ledger.period - 1))
    rw [if_neg hzero, Ledger.history_record_advanced (Nat.pos_of_ne_zero hzero), HistoryForest.offer, hnext]

/-- A verification period can end unless the history is full. -/
theorem advance (h : Reflects p ledger aggregated depth)
    (hroom : aggregated = true → ledger.period ≤ HistoryForest.capacityOf depth) :
    ∃ next, p.advance = .ok next ∧ Reflects next (ledger.record .advanced) aggregated depth := by
  obtain ⟨roots, hroots, hchain⟩ := h.chain_advance
  have hhistory : p.history.mapM (Partition.settle p.base.nextEpoch) =
      .ok (if aggregated then some ((ledger.record .advanced).history depth) else none) := by
    rw [h.history]
    cases aggregated with
    | false => rfl
    | true => exact congrArg (some <$> ·) (h.settle_history (hroom rfl))
  rw [Partition.advance_eq, hroots, hhistory]
  refine ⟨_, rfl, ?_⟩
  exact {
    consistent := h.consistent.record_advanced
    base := h.base.nextEpoch
    epoch := h.nextEpoch_epoch.trans Ledger.period_record_advanced.symm
    window := by
      -- what was collected serves proofs now, and nothing has been collected yet
      have hempty : (ledger.record .advanced).sealingsSince (ledger.period + 1) = [] :=
        h.consistent.sealingsSince_eq_nil
      rw [Ledger.period_record_advanced, hempty, Nat.add_sub_cancel, h.window]
      rfl
    pending := h.pending
    updateEpoch := h.updateEpoch
    settledUpdateEpoch := by
      rw [Ledger.record, List.getLastD_concat]
      exact h.updateEpoch
    nextPosition := h.nextPosition
    sealedPosition := h.sealedPosition
    chain := hchain
    history := rfl
    room := fun hkept => by
      rw [Ledger.period_record_advanced]
      exact hroom hkept }

/-- A full history refuses the end of a verification period. -/
theorem advance_full (h : Reflects p ledger true depth)
    (hfull : HistoryForest.capacityOf depth < ledger.period) :
    p.advance = .error (.historyFull (HistoryForest.capacityOf depth)) := by
  obtain ⟨roots, hroots, -⟩ := h.chain_advance
  obtain ⟨hholds, hdepth⟩ := Ledger.holds_history (h.room rfl)
  have hpos := HistoryForest.capacityOf_pos depth
  have hsettle : Partition.settle p.base.nextEpoch (ledger.history depth) =
      .error (.historyFull (HistoryForest.capacityOf depth)) := by
    rw [h.settle_eq, if_neg (by omega), hholds.append_full (by
      rw [List.length_map, List.length_range, HistoryForest.capacity, hdepth]
      omega), HistoryForest.capacity, hdepth]
  have hhistory : p.history.mapM (Partition.settle p.base.nextEpoch) =
      .error (.historyFull (HistoryForest.capacityOf depth)) := by
    rw [h.history]
    exact congrArg (some <$> ·) hsettle
  rw [Partition.advance_eq, hroots, hhistory]
  rfl

/-! ### Runs -/

/-- An operation's event accounts for all that it changes; only the end of a verification period is
ever refused, and only by a history. -/
theorem perform (h : Reflects p ledger aggregated depth) (operation : Partition.Operation) :
    (∃ e, p.perform operation = .error e ∧ operation = .advance ∧ aggregated = true) ∨
      ∃ next event, p.perform operation = .ok (next, event) ∧ event.operation = operation ∧
        Reflects next (ledger.record event) aggregated depth := by
  cases operation with
  | append identifier value signature =>
    obtain ⟨next, hrun, hnext⟩ := h.append identifier value signature
    exact .inr ⟨next, _, by rw [Partition.perform, hrun]; rfl, rfl, hnext⟩
  | sealUpdates =>
    obtain ⟨next, hrun, hnext⟩ := h.sealUpdates
    exact .inr ⟨next, _, by rw [Partition.perform, hrun]; rfl, rfl, hnext⟩
  | advance =>
    by_cases hroom : aggregated = true → ledger.period ≤ HistoryForest.capacityOf depth
    · obtain ⟨next, hrun, hnext⟩ := h.advance hroom
      exact .inr ⟨next, _, by rw [Partition.perform, hrun]; rfl, rfl, hnext⟩
    · obtain ⟨rfl, hfull⟩ := Classical.not_imp.1 hroom
      exact .inl ⟨_, by rw [Partition.perform, h.advance_full (Nat.not_le.1 hfull)]; rfl, rfl, rfl⟩

theorem run (h : Reflects p ledger aggregated depth) (operations : List Partition.Operation) :
    Reflects (p.run operations).1 ((p.run operations).2.foldl Ledger.record ledger) aggregated depth := by
  induction operations generalizing p ledger with
  | nil => exact h
  | cons operation operations ih =>
    rw [Partition.run]
    rcases h.perform operation with ⟨e, hrun, -⟩ | ⟨next, event, hrun, -, hnext⟩
    · rw [hrun]
      exact ih h
    · rw [hrun]
      exact ih hnext

/-- The events of a run come from its operations, in their order, and none is missing but ends of
verification periods that a history refused. -/
theorem operations_run (h : Reflects p ledger aggregated depth)
    (operations : List Partition.Operation) :
    ((p.run operations).2.map Partition.Event.operation).Sublist operations ∧
      ((p.run operations).2.map Partition.Event.operation).filter
          (fun operation => ¬ (operation = .advance ∧ aggregated = true)) =
        operations.filter fun operation => ¬ (operation = .advance ∧ aggregated = true) := by
  induction operations generalizing p ledger with
  | nil => exact ⟨.slnil, rfl⟩
  | cons operation operations ih =>
    rw [Partition.run]
    rcases h.perform operation with ⟨e, hrun, hrefused⟩ | ⟨next, event, hrun, rfl, hnext⟩
    · obtain ⟨hsub, hrest⟩ := ih h
      rw [hrun, List.filter_cons_of_neg (by simpa using hrefused)]
      exact ⟨hsub.cons _, hrest⟩
    · obtain ⟨hsub, hrest⟩ := ih hnext
      rw [hrun, List.map_cons, List.filter_cons, List.filter_cons]
      exact ⟨hsub.cons_cons _, by rw [hrest]⟩

end Reflects

namespace Partition

/-- A new partition has two verification periods behind it. -/
theorem create_reflects (aggregated : Bool) (depth : Nat) :
    ∃ p, create aggregated depth = .ok p ∧ Reflects p (Ledger.ofEvents []) aggregated depth := by
  obtain ⟨first, hfirst, h⟩ := (reflects_initial aggregated depth).advance fun _ => Nat.zero_le _
  obtain ⟨second, hsecond, h⟩ := h.advance fun _ => HistoryForest.capacityOf_pos depth
  refine ⟨second, ?_, h⟩
  rw [create, new, hfirst]
  exact hsecond

/-- **A run ends in the partition that its events call for.** -/
theorem operate_reflects (aggregated : Bool) (depth : Nat) (operations : List Operation) :
    ∃ p events, operate aggregated depth operations = .ok (p, events) ∧
      (events.map Event.operation).Sublist operations ∧
      (events.map Event.operation).filter
          (fun operation => ¬ (operation = .advance ∧ aggregated = true)) =
        operations.filter (fun operation => ¬ (operation = .advance ∧ aggregated = true)) ∧
      Reflects p (Ledger.ofEvents events) aggregated depth := by
  obtain ⟨p, hp, h⟩ := create_reflects aggregated depth
  obtain ⟨hsub, hrest⟩ := h.operations_run operations
  refine ⟨_, _, ?_, hsub, hrest, h.run operations⟩
  rw [operate, hp]
  rfl

/-- Whatever a run ends in is the partition that its events call for. -/
theorem reflects_of_operate {aggregated : Bool} {depth : Nat} {operations : List Operation}
    {p : Partition} {events : List Event}
    (hrun : operate aggregated depth operations = .ok (p, events)) :
    (events.map Event.operation).Sublist operations ∧
      Reflects p (Ledger.ofEvents events) aggregated depth := by
  obtain ⟨last, all, hlast, hsub, -, h⟩ := operate_reflects aggregated depth operations
  obtain ⟨rfl, rfl⟩ := Prod.mk.inj (Except.ok.inj (hrun.symm.trans hlast))
  exact ⟨hsub, h⟩

end Partition

end KeyTransparency
