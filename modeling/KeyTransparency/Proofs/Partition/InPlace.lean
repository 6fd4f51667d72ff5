import KeyTransparency.Cadence
import KeyTransparency.Proofs.Partition.Run

/-!
# The ends of epochs, one write after the other

`sealUpdates` and `advance` answer a new partition or none.  In place they are sequences of writes, and
an error leaves what was written before it.  Here they are in that form; on a partition that a run can
reach the two forms agree, so that an error leaves everything as it was.  For a verification period this
rests on the check of the history that comes before the first write: it refuses exactly where the last
write would.

    p.advance = ok q → p.advanceInPlace = (q, ok)                              (advanceInPlace_of_ok)
    Reflects p ledger → the history is full → p.advanceInPlace = (p, historyFull)  (advanceInPlace_full)
-/

namespace KeyTransparency

namespace Partition

/-! ## Writes -/

/-- Ends the update epoch.  The queue is emptied into the trie, also where the trie refuses an entry. -/
def sealInPlace (p : Partition) : Partition × Except Error Unit :=
  match sealedTrie p.pending with
  | .error e => ({ p with pending := [] }, .error e)
  | .ok trie =>
    let updateEpoch := p.updateEpoch + 1
    ({ p with
        pending := []
        updateEpoch
        sealedPosition := p.nextPosition
        window := p.window.add updateEpoch trie },
      .ok ())

/-- Closes the epoch of the base trie and rotates the window. -/
def turnOver (p : Partition) : Partition :=
  { p with
    base := p.base.nextEpoch
    window := p.window.rotate
    settledUpdateEpoch := p.updateEpoch }

/-- Commits the snapshot that has settled, where a history is kept. -/
def settleInPlace (p : Partition) : Partition × Except Error Unit :=
  match p.history with
  | none => (p, .ok ())
  | some forest =>
    match settle p.base forest with
    | .error e => (p, .error e)
    | .ok forest => ({ p with history := some forest }, .ok ())

/-- Extends the chain and then the history. -/
def linkInPlace (p : Partition) : Partition × Except Error Unit :=
  match linkedRoots p.base with
  | .error e => (p, .error e)
  | .ok none => p.settleInPlace
  | .ok (some (older, newer)) =>
    settleInPlace { p with chain := chainLink older newer p.updateEpoch p.chain }

/-- The history has no room for the snapshot that the end of the period settles. -/
def noRoom (p : Partition) (forest : HistoryForest) : Bool :=
  auditLag ≤ p.verificationEpoch + 1 && forest.isFull

/-- Ends the verification period.  A history without room refuses before anything is written. -/
def advanceInPlace (p : Partition) : Partition × Except Error Unit :=
  match p.history with
  | none => p.turnOver.linkInPlace
  | some forest =>
    if p.noRoom forest then (p, .error (.historyFull forest.capacity)) else p.turnOver.linkInPlace

/-- The transition that is due, and in the form of writes. -/
def step : Transition → Partition → Except Error Partition
  | .update => sealUpdates
  | .verification => advance

def stepInPlace : Transition → Partition → Partition × Except Error Unit
  | .update => sealInPlace
  | .verification => advanceInPlace

/-! ## Both forms agree -/

section

variable {p q : Partition}

theorem sealInPlace_of_ok (h : p.sealUpdates = .ok q) : p.sealInPlace = (q, .ok ()) := by
  obtain ⟨trie, htrie, h⟩ := bind_eq_ok_iff.1 h
  cases h
  rw [sealInPlace, htrie]

/-- A history that takes the snapshot had room for it. -/
theorem noRoom_of_settle {forest next : HistoryForest}
    (h : settle p.base.nextEpoch forest = .ok next) : p.noRoom forest = false := by
  unfold settle at h
  split at h
  · next hearly =>
    have hlate : ¬ auditLag ≤ p.verificationEpoch + 1 := Nat.not_le.2 hearly
    rw [noRoom, decide_eq_false hlate, Bool.false_and]
  · obtain ⟨root, -, h⟩ := bind_eq_ok_iff.1 h
    unfold HistoryForest.append at h
    split at h
    · cases h
    · next hroom => rw [noRoom, Bool.eq_false_iff.2 hroom, Bool.and_false]

theorem advanceInPlace_of_ok (h : p.advance = .ok q) : p.advanceInPlace = (q, .ok ()) := by
  rw [advance_eq] at h
  obtain ⟨roots, hroots, h⟩ := bind_eq_ok_iff.1 h
  obtain ⟨history, hhistory, h⟩ := bind_eq_ok_iff.1 h
  cases h
  have hwrites : p.turnOver.linkInPlace = ({ p with
      base := p.base.nextEpoch
      chain := roots.elim p.chain fun roots => chainLink roots.1 roots.2 p.updateEpoch p.chain
      history := history
      window := p.window.rotate
      settledUpdateEpoch := p.updateEpoch }, .ok ()) := by
    have hlinked : linkedRoots p.turnOver.base = .ok roots := hroots
    rw [linkInPlace, hlinked]
    cases hp : p.history with
    | none =>
      rw [hp] at hhistory
      cases hhistory
      cases roots <;> simp only [settleInPlace, turnOver, hp] <;> rfl
    | some forest =>
      rw [hp] at hhistory
      obtain ⟨next, hnext, hhistory⟩ := bind_eq_ok_iff.1 hhistory
      cases hhistory
      cases roots <;> simp only [settleInPlace, turnOver, hp, hnext] <;> rfl
  unfold advanceInPlace
  cases hp : p.history with
  | none => exact hwrites
  | some forest =>
    rw [hp] at hhistory
    obtain ⟨next, hnext, -⟩ := bind_eq_ok_iff.1 hhistory
    dsimp only
    rw [noRoom_of_settle hnext, if_neg Bool.false_ne_true]
    exact hwrites

/-- A transition moves its own clock by one. -/
theorem clocks_of_step {transition : Transition} (h : p.step transition = .ok q) :
    q.verificationEpoch = p.verificationEpoch + (if transition = .verification then 1 else 0) ∧
      q.updateEpoch = p.updateEpoch + (if transition = .update then 1 else 0) := by
  cases transition with
  | update =>
    obtain ⟨trie, -, h⟩ := bind_eq_ok_iff.1 h
    cases h
    exact ⟨rfl, rfl⟩
  | verification =>
    rw [step, advance_eq] at h
    obtain ⟨roots, -, h⟩ := bind_eq_ok_iff.1 h
    obtain ⟨history, -, h⟩ := bind_eq_ok_iff.1 h
    cases h
    exact ⟨rfl, (UInt64.add_zero _).symm⟩

end

end Partition

/-! ## Transitions of a partition that a run reaches -/

namespace Ledger

/-- The ledger after a transition. -/
def passed (ledger : Ledger) : Transition → Ledger
  | .update => ledger.record .sealed
  | .verification => ledger.record .advanced

/-- What the clock of a transition shows. -/
def clock (ledger : Ledger) : Transition → Nat
  | .update => ledger.updateEpoch
  | .verification => ledger.period

theorem clock_passed (ledger : Ledger) (made shown : Transition) :
    (ledger.passed made).clock shown = ledger.clock shown + if made = shown then 1 else 0 := by
  cases made <;> cases shown <;> simp [passed, clock, record, updateEpoch, period]

end Ledger

namespace Reflects

variable {p : Partition} {ledger : Ledger} {aggregated : Bool} {depth : Nat}

/-- The history that refuses a snapshot has a leaf for each of the periods it was made for. -/
theorem history_of_full (h : Reflects p ledger true depth)
    (hfull : HistoryForest.capacityOf depth < ledger.period) :
    ∃ forest, p.history = some forest ∧ forest.size = HistoryForest.capacityOf depth ∧
      forest.isFull = true ∧ forest.capacity = HistoryForest.capacityOf depth := by
  obtain ⟨hholds, hdepth⟩ := Ledger.holds_history (h.room rfl)
  have hcapacity : (ledger.history depth).capacity = HistoryForest.capacityOf depth := by
    rw [HistoryForest.capacity, hdepth]
  have hsize : (ledger.history depth).size = HistoryForest.capacityOf depth := by
    have hroom := h.room rfl
    rw [hholds.size_eq, List.length_map, List.length_range]
    omega
  refine ⟨ledger.history depth, h.history, hsize, ?_, hcapacity⟩
  rw [HistoryForest.isFull, hcapacity, hsize, decide_eq_true (Nat.le_refl _)]

/-- A history without room refuses, and nothing has been written. -/
theorem advanceInPlace_full (h : Reflects p ledger true depth)
    (hfull : HistoryForest.capacityOf depth < ledger.period) :
    p.advanceInPlace = (p, .error (.historyFull (HistoryForest.capacityOf depth))) := by
  obtain ⟨forest, hforest, -, hisFull, hcapacity⟩ := h.history_of_full hfull
  have hpos := HistoryForest.capacityOf_pos depth
  have hlate : auditLag ≤ p.verificationEpoch + 1 := by
    rw [Partition.verificationEpoch, h.epoch, auditLag]
    omega
  unfold Partition.advanceInPlace
  rw [hforest]
  dsimp only
  rw [Partition.noRoom, decide_eq_true hlate, hisFull, hcapacity]
  rfl

/-- Room for one more period, where a history is kept. -/
def Room (ledger : Ledger) (aggregated : Bool) (depth : Nat) : Transition → Prop
  | .update => True
  | .verification => aggregated = true → ledger.period ≤ HistoryForest.capacityOf depth

/-- With room a transition goes through, in both forms. -/
theorem step (h : Reflects p ledger aggregated depth) {transition : Transition}
    (hroom : Room ledger aggregated depth transition) :
    ∃ next, p.step transition = .ok next ∧ p.stepInPlace transition = (next, .ok ()) ∧
      Reflects next (ledger.passed transition) aggregated depth := by
  cases transition with
  | update =>
    obtain ⟨next, hnext, hreflects⟩ := h.sealUpdates
    exact ⟨next, hnext, Partition.sealInPlace_of_ok hnext, hreflects⟩
  | verification =>
    obtain ⟨next, hnext, hreflects⟩ := h.advance hroom
    exact ⟨next, hnext, Partition.advanceInPlace_of_ok hnext, hreflects⟩

/-- Without it a transition is refused in both forms, and nothing has been written. -/
theorem step_refused (h : Reflects p ledger aggregated depth) {transition : Transition}
    (hroom : ¬ Room ledger aggregated depth transition) :
    transition = .verification ∧ aggregated = true ∧
      p.step transition = .error (.historyFull (HistoryForest.capacityOf depth)) ∧
      p.stepInPlace transition = (p, .error (.historyFull (HistoryForest.capacityOf depth))) ∧
      ∃ forest, p.history = some forest ∧ forest.size = HistoryForest.capacityOf depth := by
  cases transition with
  | update => exact absurd trivial hroom
  | verification =>
    obtain ⟨rfl, hfull⟩ := Classical.not_imp.1 hroom
    replace hfull := Nat.not_le.1 hfull
    obtain ⟨forest, hforest, hsize, -⟩ := h.history_of_full hfull
    exact ⟨rfl, rfl, h.advance_full hfull, h.advanceInPlace_full hfull, forest, hforest, hsize⟩

end Reflects

end KeyTransparency
