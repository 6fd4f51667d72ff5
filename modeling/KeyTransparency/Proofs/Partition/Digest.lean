import KeyTransparency.Proofs.Partition.Run

/-!
# What a partition publishes

After any run the digest is the one that the ledger of the run calls for: its roots are those of tries
that took exactly the publications up to the audited epochs, or exactly those of one update epoch.
Nothing but the end of a verification period is ever refused, so nothing published is missing.

    Reflects p ledger → 2 ≤ ledger.period → p.digest = ok (ledger.digest …)         (Reflects.digest_eq)
-/

namespace KeyTransparency

open Trie Forest

namespace Ledger

theorem period_le_foldl (ledger : Ledger) (events : List Partition.Event) :
    ledger.period ≤ (events.foldl record ledger).period := by
  induction events generalizing ledger with
  | nil => exact Nat.le_refl _
  | cons event events ih =>
    refine Nat.le_trans ?_ (ih (ledger.record event))
    cases event with
    | advanced => exact period_record_advanced ▸ Nat.le_succ _
    | published => exact Nat.le_refl _
    | sealed => exact Nat.le_refl _

theorem two_le_period (events : List Partition.Event) : 2 ≤ (ofEvents events).period :=
  period_le_foldl ((empty.record .advanced).record .advanced) events

/-- Every event publishes one value at most or ends one period at most. -/
theorem size_foldl_le (ledger : Ledger) (events : List Partition.Event) :
    (events.foldl record ledger).period + (events.foldl record ledger).publications.length ≤
      ledger.period + ledger.publications.length + events.length := by
  induction events generalizing ledger with
  | nil => exact Nat.le_refl _
  | cons event events ih =>
    have hstep : (ledger.record event).period + (ledger.record event).publications.length ≤
        ledger.period + ledger.publications.length + 1 := by
      cases event <;> simp [record, period] <;> omega
    refine Nat.le_trans (ih (ledger.record event)) ?_
    rw [List.length_cons]
    omega

theorem size_ofEvents_le {events : List Partition.Event} {operations : List Partition.Operation}
    (hsub : (events.map Partition.Event.operation).Sublist operations) :
    (ofEvents events).period + (ofEvents events).publications.length ≤ operations.length + 2 := by
  have hsize := size_foldl_le ((empty.record .advanced).record .advanced) events
  have hlength := hsub.length_le
  rw [List.length_map] at hlength
  refine Nat.le_trans hsize ?_
  rw [Nat.add_comm operations.length]
  exact Nat.add_le_add_left hlength 2

/-- A publication was an event. -/
theorem mem_events_of_mem_foldl {made : Publication} {events : List Partition.Event} {ledger : Ledger}
    (h : made ∈ (events.foldl record ledger).publications) :
    made ∈ ledger.publications ∨
      .published made.identifier made.value made.signature made.position ∈ events := by
  induction events generalizing ledger with
  | nil => exact .inl h
  | cons event events ih =>
    rcases ih h with hmade | hevent
    · cases event with
      | published =>
        rcases List.mem_append.1 hmade with hmade | hmade
        · exact .inl hmade
        · obtain rfl := List.mem_singleton.1 hmade
          exact .inr List.mem_cons_self
      | sealed => exact .inl hmade
      | advanced => exact .inl hmade
    · exact .inr (List.mem_cons_of_mem _ hevent)

theorem mem_events_of_mem_publications {made : Publication} {events : List Partition.Event}
    (h : made ∈ (ofEvents events).publications) :
    .published made.identifier made.value made.signature made.position ∈ events := by
  have hmem : made ∈ (events.foldl record ((empty.record .advanced).record .advanced)).publications := h
  exact (mem_events_of_mem_foldl hmem).resolve_left List.not_mem_nil

/-- Later events are entered behind the earlier ones. -/
theorem ofEvents_append (events later : List Partition.Event) :
    ofEvents (events ++ later) = later.foldl record (ofEvents events) := by
  rw [ofEvents, ← List.cons_append, ← List.cons_append, List.foldl_append]
  rfl

/-- One more event is one more entry. -/
theorem ofEvents_concat (events : List Partition.Event) (event : Partition.Event) :
    ofEvents (events ++ [event]) = (ofEvents events).record event := ofEvents_append events [event]

/-- What was published is in the ledger. -/
theorem exists_publication_of_mem_events {events : List Partition.Event}
    {identifier value signature : Bytes} {position : UInt64}
    (h : .published identifier value signature position ∈ events) :
    ∃ made ∈ (ofEvents events).publications, made.identifier = identifier ∧ made.value = value ∧
      made.signature = signature ∧ made.position = position := by
  induction events using List.reverseRecOn with
  | nil => cases h
  | append_singleton events event ih =>
    rw [ofEvents_concat]
    rcases List.mem_append.1 h with h | h
    · obtain ⟨made, hmade, hsame⟩ := ih h
      cases event with
      | published => exact ⟨made, List.mem_append_left _ hmade, hsame⟩
      | sealed => exact ⟨made, hmade, hsame⟩
      | advanced => exact ⟨made, hmade, hsame⟩
    · obtain rfl := List.mem_singleton.1 h
      exact ⟨_, List.mem_append_right _ List.mem_cons_self, rfl, rfl, rfl, rfl⟩

/-- There are no more publications than events. -/
theorem length_publications_le (events : List Partition.Event) :
    (ofEvents events).publications.length ≤ events.length := by
  have hsize := size_foldl_le ((empty.record .advanced).record .advanced) events
  have hperiod := two_le_period events
  have hstart : ((empty.record .advanced).record .advanced).period +
      ((empty.record .advanced).record .advanced).publications.length = 2 := rfl
  have hsame : events.foldl record ((empty.record .advanced).record .advanced) = ofEvents events := rfl
  rw [hsame, hstart] at hsize
  omega

end Ledger

namespace Reflects

variable {p : Partition} {ledger : Ledger} {aggregated : Bool} {depth : Nat}

/-! ## The digest -/

theorem auditedEpoch_eq (h : Reflects p ledger aggregated depth) (hperiod : 2 ≤ ledger.period) :
    p.auditedEpoch = .ok (ledger.period - 2) := by
  rw [Partition.auditedEpoch, Partition.verificationEpoch, h.epoch, auditLag,
    if_neg (Nat.not_lt.2 hperiod)]

theorem sizeAt_eq (h : Reflects p ledger aggregated depth) {epoch : Nat} (he : epoch ≤ ledger.period) :
    p.base.sizeAt epoch = .ok ((ledger.snapshot epoch).map Prod.fst).toFinset.card := by
  obtain ⟨-, -, -, hsize, -⟩ := h.base.rootAt (h.epoch ▸ he)
  rw [hsize, Ledger.plainAt_dated, Ledger.snapshotTrie,
    (reached_trieOver fun _ => Ledger.isKey_of_mem_snapshot).size]

theorem digest_eq (h : Reflects p ledger aggregated depth) (hperiod : 2 ≤ ledger.period) :
    p.digest = .ok (ledger.digest aggregated depth) := by
  have hnext : ledger.period - 2 + 1 = ledger.period - 1 := by omega
  have hroots : p.window.query.roots = (ledger.digest aggregated depth).updateRoots := by
    rw [h.window]
    exact List.map_map
  have hhistory : p.history.map HistoryForest.digest = (ledger.digest aggregated depth).history := by
    rw [h.history]
    cases aggregated <;> rfl
  rw [Partition.digest, h.auditedEpoch_eq hperiod]
  simp only [bind, Except.bind, pure, Except.pure]
  rw [h.rootHash_eq (Nat.sub_le _ _), hnext, h.rootHash_eq (Nat.sub_le _ _), h.sizeAt_eq (Nat.sub_le _ _),
    hroots, hhistory, h.window, Partition.verificationEpoch, h.epoch, h.updateEpoch, h.settledUpdateEpoch,
    h.chain]
  rfl

end Reflects

namespace Partition

/-- **A digest says what has happened.**  Every run goes through but for the ends of verification
periods that a full history refuses, and gives the published values the positions from 0 on; it leaves
a partition whose digest is the one its events call for, over tries that hold under every key exactly
what was published up to an epoch or in an update epoch. -/
theorem digest_of_run (aggregated : Bool) (depth : Nat) (operations : List Operation) :
    ∃ p events, operate aggregated depth operations = .ok (p, events) ∧
      (events.map Event.operation).Sublist operations ∧
      (events.map Event.operation).filter
          (fun operation => ¬ (operation = .advance ∧ aggregated = true)) =
        operations.filter (fun operation => ¬ (operation = .advance ∧ aggregated = true)) ∧
      let ledger := Ledger.ofEvents events
      p.digest = .ok (ledger.digest aggregated depth) ∧
      ledger.publications.map Publication.position =
        (List.range ledger.publications.length).map UInt64.ofNat ∧
      (∀ epoch, (ledger.snapshotTrie epoch).Reached (ledger.snapshot epoch)) ∧
      ∀ updateEpoch, (ledger.updateTrie updateEpoch).Reached (ledger.batch updateEpoch) := by
  obtain ⟨p, events, hrun, hsub, hrest, h⟩ := operate_reflects aggregated depth operations
  exact ⟨p, events, hrun, hsub, hrest, h.digest_eq (Ledger.two_le_period events),
    h.consistent.map_position, fun _ => reached_trieOver fun _ => Ledger.isKey_of_mem_snapshot,
    fun _ => reached_trieOver fun _ => Ledger.isKey_of_mem_batch⟩

/-- Two update epochs end, one on either side of the end of a verification period.  Both serve proofs
afterwards, and the second is pending. -/
example :
    let ledger := Ledger.ofEvents [.published [1] [2] [3] 0, .sealed, .advanced, .sealed]
    ledger.period = 3 ∧ (ledger.publications.map fun made => (made.period, made.updateEpoch)) = [(2, 1)] ∧
      ledger.sealingsSince 2 = [⟨1, 2⟩, ⟨2, 3⟩] ∧ ledger.sealingsSince 3 = [⟨2, 3⟩] := by
  decide

end Partition

end KeyTransparency
