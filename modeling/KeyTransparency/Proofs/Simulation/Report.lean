import KeyTransparency.Simulation

/-!
# What a simulation reports

`SimulationReport.Tallies` says what the tallies and digests of a report come to for a plan, and `Tells`
what a reader of its JSON finds under the names of the members:

    report.Tallies config plan → Tells config plan report.toJson                          (Tallies.tells)
-/

namespace KeyTransparency

/-- What every partition publishes at the end of a simulation. -/
structure Digest.Final (config : Config) (plan : SimulationPlan) (digest : Digest) : Prop where
  verificationEpoch : digest.verificationEpoch.toNat = 2 + plan.rounds
  updateEpoch : digest.updateEpoch.toNat = 1 + plan.rounds * plan.appends
  history : digest.history.map ForestDigest.size =
    if config.aggregatedHistory then some (1 + plan.rounds) else none

namespace SimulationReport

/-- What the report of a simulation has to say. -/
structure Tallies (config : Config) (plan : SimulationPlan) (report : SimulationReport) : Prop where
  planned : report.plan = plan
  partitions : report.partitions = config.partitions
  aggregated : report.aggregated = config.aggregatedHistory
  appends : report.appends = plan.users * (1 + plan.appends * plan.rounds)
  lookups : report.lookups = plan.users * plan.rounds * if 0 < plan.appends then 2 else 1
  checkpoints : report.checkpoints = config.partitions * (1 + plan.rounds * (plan.appends + 1))
  /-- There is a digest for every partition. -/
  digests : report.digests.length = config.partitions
  final : ∀ digest ∈ report.digests, digest.Final config plan

/-! ## Members -/

/-- What the JSON of the report says of one partition. -/
structure TellsOf (config : Config) (plan : SimulationPlan) (index : Nat) (item : Json) : Prop where
  partition : item.member? "partition" = some (.ofNat index)
  verificationEpoch : item.member? "verification_epoch" = some (.ofNat (2 + plan.rounds))
  updateEpoch : item.member? "update_epoch" = some (.ofNat (1 + plan.rounds * plan.appends))
  historySize : item.member? "history_size" =
    some (if config.aggregatedHistory then .ofNat (1 + plan.rounds) else .null)

/-- What the JSON of the report says. -/
structure Tells (config : Config) (plan : SimulationPlan) (report : Json) : Prop where
  users : report.member? "users" = some (.ofNat plan.users)
  rounds : report.member? "rounds" = some (.ofNat plan.rounds)
  partitions : report.member? "partitions" = some (.ofNat config.partitions)
  aggregated : report.member? "aggregated" = some (.bool config.aggregatedHistory)
  appends : report.member? "appends" = some (.ofNat (plan.users * (1 + plan.appends * plan.rounds)))
  lookups : report.member? "lookups_validated" =
    some (.ofNat (plan.users * plan.rounds * if 0 < plan.appends then 2 else 1))
  checkpoints : report.member? "checkpoints_audited" =
    some (.ofNat (config.partitions * (1 + plan.rounds * (plan.appends + 1))))
  /-- There is an item for every partition, in their order. -/
  digests : ∃ items, report.member? "digests" = some (.array items) ∧
    items.length = config.partitions ∧
      ∀ index item, items[index]? = some item → TellsOf config plan index item

section

variable {config : Config} {plan : SimulationPlan} {report : SimulationReport} {digest : Digest}

theorem tellsOf_digestJson (h : digest.Final config plan) (index : Nat) :
    TellsOf config plan index (digestJson index digest) where
  partition := rfl
  verificationEpoch := congrArg (fun n => some (Json.ofNat n)) h.verificationEpoch
  updateEpoch := congrArg (fun n => some (Json.ofNat n)) h.updateEpoch
  historySize := by
    have hsize : digest.history.map (fun forest => Json.ofNat forest.size) =
        (digest.history.map ForestDigest.size).map Json.ofNat := by
      rw [Option.map_map]
      rfl
    show some ((digest.history.map fun forest => Json.ofNat forest.size).getD .null) = _
    rw [hsize, h.history]
    split <;> rfl

/-- **The JSON of a report tells its tallies.** -/
theorem Tallies.tells (h : report.Tallies config plan) : Tells config plan report.toJson where
  users := congrArg (fun made : SimulationPlan => some (Json.ofNat made.users)) h.planned
  rounds := congrArg (fun made : SimulationPlan => some (Json.ofNat made.rounds)) h.planned
  partitions := congrArg (fun n => some (Json.ofNat n)) h.partitions
  aggregated := congrArg (fun b => some (Json.bool b)) h.aggregated
  appends := congrArg (fun n => some (Json.ofNat n)) h.appends
  lookups := congrArg (fun n => some (Json.ofNat n)) h.lookups
  checkpoints := congrArg (fun n => some (Json.ofNat n)) h.checkpoints
  digests := by
    refine ⟨_, rfl, ?_, ?_⟩
    · rw [List.length_map, List.length_zipIdx, h.digests]
    · intro index item hitem
      rw [List.getElem?_map, List.getElem?_zipIdx, Option.map_map, Nat.zero_add] at hitem
      obtain ⟨digest, hdigest, rfl⟩ := Option.map_eq_some_iff.1 hitem
      exact tellsOf_digestJson (h.final digest (List.mem_of_getElem? hdigest)) index

end

end SimulationReport

end KeyTransparency
