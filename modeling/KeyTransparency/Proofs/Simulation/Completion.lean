import KeyTransparency.Crypto.Ed25519
import KeyTransparency.Proofs.Simulation.Progress
import KeyTransparency.Proofs.Simulation.Report

/-!
# A simulation passes

Nothing that a simulation does is refused as long as it is where the plan has it (`Under`): the accounts
of the directory and store are right, what the auditor has retained of a partition is what the partition
once published (`Watches`), and the tallies are those of the progress.  A round takes the progress from
its own beginning to that of the next round.  The one thing that stops it is the end of a verification
period for which a history has no room:

    Under … (inRound … i 0) s → 2 + i ≤ 2 ^ depth → round plan succeeds, Under … (inRound … (i + 1) 0)
    simulate … fails ↔ a history is kept and 2 ^ depth ≤ rounds; else the report has the plan's tallies,
      and its JSON tells them                                               (simulation_passes)
-/

namespace KeyTransparency

open Directory

namespace Simulation

section

variable {σ : Type} [Storage σ] {contents : Storage.Contents σ} {store : σ} {config : Config}
  {scheme : SigningScheme} {keys : KeySource} {plan : SimulationPlan} {progress : Progress}
  {now next : Service σ} {s : Simulation σ} {auditor : Auditor}

/-! ## What the auditor has retained -/

/-- What is retained of a partition is what the partition once published. -/
def Watches (config : Config) (now : Service σ) (auditor : Auditor) : Prop :=
  ∀ index previous, auditor.last? index = some previous → ∃ ledger : Ledger,
    previous = ledger.digest config.aggregatedHistory config.historyDepth ∧
      ledger.Grows (now.ledgerAt index) ∧ ledger.Consistent ∧ 2 ≤ ledger.period

namespace Watches

omit [Storage σ] in
theorem continues (h : Watches config now auditor) (hnext : now.Continues next) :
    Watches config next auditor := by
  intro index previous hlast
  obtain ⟨ledger, hprevious, hgrows, hconsistent, htwo⟩ := h index previous hlast
  rcases hnext index with hsame | ⟨event, hevent⟩
  · exact ⟨ledger, hprevious, hsame ▸ hgrows, hconsistent, htwo⟩
  · exact ⟨ledger, hprevious, hevent ▸ hgrows.record event, hconsistent, htwo⟩

omit [Storage σ] in
theorem retain (h : Watches config now auditor) {index : Nat}
    (hconsistent : (now.ledgerAt index).Consistent) :
    Watches config now (auditor.retain index
      ((now.ledgerAt index).digest config.aggregatedHistory config.historyDepth)) := by
  intro other previous hlast
  by_cases hother : other = index
  · subst hother
    rw [Auditor.last?_retain_self] at hlast
    cases hlast
    exact ⟨_, rfl, Ledger.Grows.refl _, hconsistent, Ledger.two_le_period _⟩
  · rw [Auditor.last?_retain_of_ne hother] at hlast
    exact h other previous hlast

/-- The auditor accepts what a partition publishes now. -/
theorem auditPartition (h : Watches config now s.auditor) (hagrees : Agrees contents store config now)
    (hdirectory : now.directory = s.directory) {index : Nat} (hindex : index < config.partitions)
    (hwords : ∀ shown, (now.ledgerAt index).clock shown < UInt64.size) :
    Succeeds (auditPartition index) s fun _ t => ∃ auditor,
      t = { s with auditor, checkpoints := s.checkpoints + 1 } ∧ Watches config now auditor := by
  obtain ⟨p, hp, hreflects⟩ := hagrees.exists_reflects hindex
  have hdigest := hreflects.digest_eq (Ledger.two_le_period _)
  have hretained := h.retain hreflects.consistent
  rw [hdirectory] at hp
  unfold Simulation.auditPartition
  refine .bind ⟨s, s, rfl, ?_⟩
  dsimp only
  cases hlast : s.auditor.last? index with
  | none =>
    have hcheckpoint : s.directory.checkpoint index = .ok _ :=
      bind_eq_ok_iff.2 ⟨_, partitionAt_eq_ok_iff.2 hp, hdigest⟩
    refine .bind (.ask hcheckpoint (.bind (.pure ?_)))
    dsimp only
    rw [Auditor.observe_of_none hlast]
    exact .bind ⟨_, s, rfl, (), _, rfl, _, rfl, hretained⟩
  | some previous =>
    obtain ⟨ledger, rfl, hgrows, hconsistent, htwo⟩ := h index previous hlast
    obtain ⟨proof, hproof, hcheck⟩ := Auditor.exists_accepted hreflects hgrows hconsistent htwo
      (hwords .verification) (hwords .update)
    have hcheckpoint : s.directory.checkpointSince index _ = .ok (_, proof) :=
      bind_eq_ok_iff.2 ⟨_, partitionAt_eq_ok_iff.2 hp, bind_eq_ok_iff.2 ⟨_, hdigest,
        bind_eq_ok_iff.2 ⟨_, hproof, rfl⟩⟩⟩
    refine .bind (.ask hcheckpoint ?_)
    dsimp only
    rw [Auditor.observe_of_check_eq_ok hlast hcheck]
    exact .bind ⟨_, s, rfl, (), _, rfl, _, rfl, hretained⟩

end Watches

/-! ## Steps -/

/-- A simulation that has come so far. -/
structure Under (contents : Storage.Contents σ) (store : σ) (config : Config) (scheme : SigningScheme)
    (keys : KeySource) (plan : SimulationPlan) (progress : Progress) (s : Simulation σ) : Prop where
  holds : ∃ now : Service σ, now.directory = s.directory ∧
    Accounts contents store config scheme keys plan progress now ∧ Watches config now s.auditor
  appends : s.appends = progress.publications plan
  devices : s.devices = progress.devices plan
  lookups : s.lookups = progress.lookups
  checkpoints : s.checkpoints = progress.checkpoints

/-- The claim made from a record under an identifier, if it is about this record and its owner has signed
it. -/
def Claims (scheme : SigningScheme) (identifier : Bytes) (claim : ValueRecord → Except Error Claim)
    (record : ValueRecord) : Prop :=
  ∃ made, claim record = .ok made ∧ made.identifier = identifier ∧
    made.leafEntry = record.entry identifier ∧ made.verifySignature scheme.toSignatureScheme = .ok ()

namespace Accounts

variable (h : Accounts contents store config scheme keys plan progress now)
  (hset : Setting contents store config scheme keys plan) (hwithin : progress.Within plan)
  (hsealed : progress.pending = false) (hdirectory : now.directory = s.directory)
include h hset hwithin hsealed hdirectory

/-- What has been published and sealed is looked up and validates. -/
theorem checkLookup {identifier : Bytes} (hplan : identifier ∈ plan.identifiers)
    (hpublished : now.recordsOf identifier ≠ []) {claim : ValueRecord → Except Error Claim}
    (hclaims : ∀ record ∈ now.recordsOf identifier, Claims scheme identifier claim record) :
    Succeeds (Simulation.checkLookup scheme identifier claim) s fun _ t =>
      t = { s with lookups := s.lookups + 1 } := by
  have hfits := hwithin.fits hset
  have hroom : now.happened.length < UInt64.size := by
    rw [h.happened]
    omega
  have hindex : now.directory.partitionFor identifier < config.partitions :=
    h.agrees.size ▸ partitionFor_lt (h.agrees.size.symm ▸ hset.positive)
  obtain ⟨found, hfound, hrecord, hvalid⟩ := h.agrees.exists_lookup hset.neverFails hset.positive hroom
    (hset.empty identifier) (h.unmatched hset hplan) (h.sealed hsealed _ hindex) hpublished
  obtain ⟨made, hmade, hidentifier, hentry, hsigned⟩ := hclaims found.record hrecord
  rw [hdirectory] at hfound
  unfold Simulation.checkLookup
  refine .bind (.ask hfound ?_)
  rw [hmade]
  refine .bind ⟨made, s, rfl, ?_⟩
  dsimp only
  rw [hvalid made hidentifier hentry hsigned]
  exact .bind ⟨(), s, rfl, (), _, rfl, rfl⟩

variable {user : Nat} (hregistered : user < progress.registered)
include hregistered

theorem checkMasterKey :
    Succeeds (Simulation.checkLookup scheme (masterKeyIdentifier (username user)) fun r =>
        Claim.masterKey scheme.toSignatureScheme (username user) r.value r.signature r.position) s
      fun _ t => t = { s with lookups := s.lookups + 1 } := by
  have huser : user < plan.users := Nat.lt_of_lt_of_le hregistered hwithin.registered
  obtain ⟨position, hrecords⟩ := h.registered user hregistered
  refine h.checkLookup hset hwithin hsealed hdirectory (plan.masterKeyIdentifier_mem huser) ?_ ?_
  · rw [hrecords]
    exact List.cons_ne_nil _ _
  · intro record hrecord
    rw [hrecords] at hrecord
    obtain rfl := List.mem_singleton.1 hrecord
    exact ⟨_, then_eq_ok_iff.2 ⟨hset.signs.key user huser, rfl⟩, rfl, rfl,
      hset.signs.selfSigned user huser⟩

theorem checkPublicKey (hbatches : 0 < progress.batches) :
    Succeeds (Simulation.checkLookup scheme (publicKeyIdentifier (username user)) fun r =>
        Claim.publicKey scheme.toSignatureScheme (publicKeyIdentifier (username user)) r.value r.signature
          r.position (scheme.publicKey (keys.owner user))) s
      fun _ t => t = { s with lookups := s.lookups + 1 } := by
  have huser : user < plan.users := Nat.lt_of_lt_of_le hregistered hwithin.registered
  have hdevices : 0 < plan.devices := by
    have hcount : 0 < progress.batches * plan.users := Nat.mul_pos hbatches (Nat.zero_lt_of_lt huser)
    have hle := hwithin.devices
    rw [Progress.devices] at hle
    omega
  refine h.checkLookup hset hwithin hsealed hdirectory (plan.publicKeyIdentifier_mem huser hdevices) ?_ ?_
  · apply List.length_pos_iff.1
    rw [h.published user huser]
    omega
  · intro record hrecord
    exact ⟨_, then_eq_ok_iff.2 ⟨hset.signs.key user huser, rfl⟩, rfl, rfl, h.signed user record hrecord⟩

end Accounts

namespace Under

variable (h : Under contents store config scheme keys plan progress s)
  (hset : Setting contents store config scheme keys plan)
include h

theorem size_eq : s.directory.partitions.size = config.partitions := by
  obtain ⟨now, hdirectory, haccounts, -⟩ := h.holds
  exact hdirectory ▸ haccounts.agrees.size

theorem batch (hturn : progress.turn = plan.users) :
    Under contents store config scheme keys plan
      { progress with batches := progress.batches + 1, turn := 0 } s := by
  obtain ⟨now, hdirectory, haccounts, hwatches⟩ := h.holds
  have hdevices : Progress.devices { progress with batches := progress.batches + 1, turn := 0 } plan =
      progress.devices plan := progress.devices_batch hturn
  refine ⟨⟨now, hdirectory, haccounts.batch hturn, hwatches⟩, ?_, ?_, h.lookups, h.checkpoints⟩
  · exact h.appends.trans (congrArg (progress.registered + ·) hdevices).symm
  · exact h.devices.trans hdevices.symm

include hset

theorem registerUser (hwithin : progress.Within plan) (hlt : progress.registered < plan.users) :
    Succeeds (registerUser scheme keys progress.registered) s fun _ =>
      Under contents store config scheme keys plan
        { progress with registered := progress.registered + 1, pending := true } := by
  obtain ⟨now, hdirectory, haccounts, hwatches⟩ := h.holds
  obtain ⟨next, position, hgranted, hcontinues, hnext⟩ := haccounts.exists_register hset hwithin hlt
  rw [hdirectory] at hgranted
  unfold Simulation.registerUser
  refine .bind (.request hgranted ⟨(), _, rfl, ⟨next, rfl, hnext, hwatches.continues hcontinues⟩, ?_,
    h.devices, h.lookups, h.checkpoints⟩)
  show s.appends + 1 = progress.registered + 1 + progress.devices plan
  rw [h.appends, Progress.publications, Nat.add_right_comm]

theorem publishKey (hwithin : progress.Within plan) (hregistered : progress.turn < progress.registered)
    (hdevices : progress.devices plan < plan.devices) :
    Succeeds (publishKey scheme keys progress.turn) s fun _ =>
      Under contents store config scheme keys plan
        { progress with turn := progress.turn + 1, pending := true } := by
  obtain ⟨now, hdirectory, haccounts, hwatches⟩ := h.holds
  obtain ⟨next, position, hgranted, hcontinues, hnext⟩ :=
    haccounts.exists_append hset hwithin hregistered hdevices
  rw [hdirectory, ← h.devices] at hgranted
  unfold Simulation.publishKey
  refine .bind ⟨s, s, rfl, .bind ⟨(), _, rfl, .bind (.request hgranted ⟨(), _, rfl,
    ⟨next, rfl, hnext, hwatches.continues hcontinues⟩, ?_, ?_, h.lookups, h.checkpoints⟩)⟩⟩
  · exact congrArg (· + 1) h.appends
  · exact congrArg (· + 1) h.devices

omit hset in
/-- An epoch ends, if the histories have room. -/
theorem pass (due : Transition)
    (hroom : due = .verification → config.aggregatedHistory = true →
      2 + progress.periods ≤ HistoryForest.capacityOf config.historyDepth) :
    Succeeds (request fun dir => dir.transition due) s fun _ =>
      Under contents store config scheme keys plan (progress.passed due) := by
  obtain ⟨now, hdirectory, haccounts, hwatches⟩ := h.holds
  have hrooms : ∀ index < config.partitions,
      Reflects.Room (now.ledgerAt index) config.aggregatedHistory config.historyDepth due := by
    intro index hindex
    cases due with
    | update => exact trivial
    | verification =>
      intro haggregated
      have hclock : (now.ledgerAt index).period = 2 + progress.periods :=
        haccounts.clock index hindex .verification
      rw [hclock]
      exact hroom rfl haggregated
  obtain ⟨next, hgranted, hswept⟩ := haccounts.agrees.exists_transition hrooms
  rw [hdirectory] at hgranted
  refine .request hgranted ⟨⟨next, rfl, haccounts.sweep hswept, hwatches.continues hswept.continues⟩,
    ?_, ?_, ?_, ?_⟩
  · exact h.appends.trans (progress.publications_passed due plan).symm
  · exact h.devices.trans (progress.devices_passed due plan).symm
  · cases due <;> exact h.lookups
  · cases due <;> exact h.checkpoints

omit hset in
/-- What has been published is sealed. -/
theorem sealUpdates :
    Succeeds Simulation.sealUpdates s fun _ => Under contents store config scheme keys plan
      (progress.passed .update) :=
  h.pass .update fun hdue => absurd hdue (by decide)

/-- Without room the end of a verification period is refused. -/
theorem advance_refused (haggregated : config.aggregatedHistory = true)
    (hfull : 2 ^ config.historyDepth < 2 + progress.periods) :
    Fails (request Directory.advance) s (.historyFull (2 ^ config.historyDepth)) := by
  obtain ⟨now, hdirectory, haccounts, -⟩ := h.holds
  have hclock : (now.ledgerAt 0).period = 2 + progress.periods :=
    haccounts.clock 0 hset.positive .verification
  have hcapacity := Config.capacityOf_historyDepth hset.valid
  have hrefused := haccounts.agrees.transition_refused hset.positive haggregated
    (hclock.symm ▸ hcapacity.symm ▸ hfull)
  rw [hdirectory, hcapacity] at hrefused
  exact .request hrefused

theorem audit (hwithin : progress.Within plan) :
    Succeeds audit s fun _ => Under contents store config scheme keys plan
      { progress with checkpoints := progress.checkpoints + config.partitions } := by
  unfold Simulation.audit
  refine .bind ⟨s, s, rfl, ?_⟩
  dsimp only
  rw [h.size_eq]
  refine .andThen (.forRange (fun index => Under contents store config scheme keys plan
    { progress with checkpoints := progress.checkpoints + index }) h ?_) fun _ t ht => .pure ht
  intro index hindex t ht
  obtain ⟨now, hdirectory, haccounts, hwatches⟩ := ht.holds
  have hwords : ∀ shown, (now.ledgerAt index).clock shown < UInt64.size := by
    intro shown
    rw [haccounts.clock index hindex]
    exact hwithin.clock_lt hset shown
  refine .bind ((hwatches.auditPartition haccounts.agrees hdirectory hindex hwords).mono ?_)
  rintro - u ⟨auditor, rfl, hnext⟩
  exact .pure ⟨rfl, ⟨now, hdirectory, haccounts.counted _ _, hnext⟩, ht.appends, ht.devices, ht.lookups,
    congrArg (· + 1) ht.checkpoints⟩

/-- The keys of a user are looked up and accepted. -/
theorem checkUser (hwithin : progress.Within plan) (hsealed : progress.pending = false) {user : Nat}
    (hregistered : user < progress.registered) {hasPublicKeys : Bool}
    (hpublic : hasPublicKeys = true → 0 < progress.batches) :
    Succeeds (checkUser scheme keys hasPublicKeys user) s fun _ =>
      Under contents store config scheme keys plan
        { progress with lookups := progress.lookups + if hasPublicKeys then 2 else 1 } := by
  obtain ⟨now, hdirectory, haccounts, hwatches⟩ := h.holds
  unfold Simulation.checkUser
  refine .bind ((haccounts.checkMasterKey hset hwithin hsealed hdirectory hregistered).mono ?_)
  rintro - t rfl
  cases hasPublicKeys with
  | false =>
    exact .pure ⟨⟨now, hdirectory, haccounts.counted _ _, hwatches⟩, h.appends, h.devices,
      congrArg (· + 1) h.lookups, h.checkpoints⟩
  | true =>
    have hlookup := haccounts.checkPublicKey (s := { s with lookups := s.lookups + 1 }) hset hwithin
      hsealed hdirectory hregistered (hpublic rfl)
    refine hlookup.mono ?_
    rintro - u rfl
    exact ⟨⟨now, hdirectory, haccounts.counted _ _, hwatches⟩, h.appends, h.devices,
      congrArg (· + 2) h.lookups, h.checkpoints⟩

end Under

/-! ## Rounds -/

namespace Under

variable (hset : Setting contents store config scheme keys plan) {rounds batches : Nat}
include hset

/-- Everybody publishes one more key. -/
theorem publishKeys (h : Under contents store config scheme keys plan progress s)
    (hwithin : progress.Within plan) (hregistered : progress.registered = plan.users)
    (hturn : progress.turn = 0) (hroom : (progress.batches + 1) * plan.users ≤ plan.devices) :
    Succeeds (forIn (List.range plan.users) PUnit.unit fun user _ => do
        Simulation.publishKey scheme keys user
        Pure.pure (ForInStep.yield PUnit.unit)) s
      fun _ t => ∃ pending, Under contents store config scheme keys plan
        { progress with batches := progress.batches + 1, turn := 0, pending } t := by
  rw [Nat.add_one_mul] at hroom
  have hstart : Under contents store config scheme keys plan
      { progress with turn := 0, pending := progress.pending } s := by
    rw [← hturn]
    exact h
  refine (Succeeds.forRange (fun user t => ∃ pending, Under contents store config scheme keys plan
    { progress with turn := user, pending } t) ⟨_, hstart⟩ ?_).mono ?_
  · rintro user huser t ⟨pending, ht⟩
    have hdevices : progress.batches * plan.users + user < plan.devices := by omega
    have hwithin' : Progress.Within { progress with turn := user, pending } plan :=
      ⟨hwithin.registered, Nat.le_of_lt hdevices, hwithin.updates, hwithin.periods⟩
    refine .andThen (ht.publishKey hset hwithin' (hregistered.symm ▸ huser) hdevices) ?_
    intro _ u hu
    exact .pure ⟨rfl, true, hu⟩
  · rintro - t ⟨pending, ht⟩
    exact ⟨pending, ht.batch rfl⟩

/-- The batches of a round are published, each sealed and audited. -/
theorem publishBatches (h : Under contents store config scheme keys plan
      (Progress.inRound config plan rounds 0) s) (hrounds : rounds < plan.rounds) :
    Succeeds (forIn (List.range plan.appends) PUnit.unit fun _ _ => do
        forIn (List.range plan.users) PUnit.unit fun user _ => do
          Simulation.publishKey scheme keys user
          Pure.pure (ForInStep.yield PUnit.unit)
        Simulation.sealUpdates
        Simulation.audit
        Pure.pure (ForInStep.yield PUnit.unit)) s
      fun _ => Under contents store config scheme keys plan
        (Progress.inRound config plan rounds plan.appends) := by
  refine .forRange (fun batches => Under contents store config scheme keys plan
    (Progress.inRound config plan rounds batches)) h ?_
  intro batches hbatches t ht
  have hwithin : (Progress.inRound config plan rounds batches).Within plan :=
    Progress.within_round hrounds (Nat.le_of_lt hbatches)
  have hlater : (Progress.inRound config plan rounds (batches + 1)).Within plan :=
    Progress.within_round hrounds hbatches
  refine .andThen (ht.publishKeys hset hwithin rfl rfl hlater.devices) ?_
  rintro - u ⟨pending, hu⟩
  have hseal : Succeeds Simulation.sealUpdates u fun _ => Under contents store config scheme keys plan
      { Progress.inRound config plan rounds (batches + 1) with
        checkpoints := (Progress.inRound config plan rounds batches).checkpoints } :=
    hu.sealUpdates
  refine .andThen hseal ?_
  intro _ v hv
  refine .andThen (hv.audit hset (hlater.counted _ _)) ?_
  intro _ w hw
  exact .pure ⟨rfl, hw⟩

/-- The keys of all users are looked up. -/
theorem checkUsers (h : Under contents store config scheme keys plan
      (Progress.inRound config plan rounds plan.appends) s) (hrounds : rounds < plan.rounds) :
    Succeeds (forIn (List.range plan.users) PUnit.unit fun user _ => do
        Simulation.checkUser scheme keys (0 < plan.appends) user
        Pure.pure (ForInStep.yield PUnit.unit)) s
      fun _ => Under contents store config scheme keys plan
        { Progress.inRound config plan rounds plan.appends with
          lookups := plan.users * rounds * plan.lookups + plan.users * plan.lookups } := by
  have hwithin : (Progress.inRound config plan rounds plan.appends).Within plan :=
    Progress.within_round hrounds (Nat.le_refl _)
  have hstart : Under contents store config scheme keys plan
      { Progress.inRound config plan rounds plan.appends with
        lookups := plan.users * rounds * plan.lookups + 0 * plan.lookups } s := by
    rw [Nat.zero_mul]
    exact h
  refine .forRange (fun user => Under contents store config scheme keys plan
    { Progress.inRound config plan rounds plan.appends with
      lookups := plan.users * rounds * plan.lookups + user * plan.lookups }) hstart ?_
  intro user huser t ht
  have hpublic : decide (0 < plan.appends) = true → 0 < rounds * plan.appends + plan.appends :=
    fun hsome => Nat.add_pos_right _ (of_decide_eq_true hsome)
  refine .andThen (ht.checkUser hset (hwithin.counted _ _) rfl huser hpublic) ?_
  intro _ u hu
  refine .pure ⟨rfl, ?_⟩
  have hmore : (user + 1) * plan.lookups =
      user * plan.lookups + if decide (0 < plan.appends) = true then 2 else 1 := by
    rw [Nat.add_one_mul, SimulationPlan.lookups]
    simp only [decide_eq_true_eq]
  rw [hmore, ← Nat.add_assoc]
  exact hu

theorem round (h : Under contents store config scheme keys plan
      (Progress.inRound config plan rounds 0) s) (hrounds : rounds < plan.rounds)
    (hroom : config.aggregatedHistory = true → 2 + rounds ≤ 2 ^ config.historyDepth) :
    Succeeds (Simulation.round scheme keys plan) s fun _ =>
      Under contents store config scheme keys plan (Progress.inRound config plan (rounds + 1) 0) := by
  unfold Simulation.round
  refine .andThen (h.publishBatches hset hrounds) ?_
  intro _ t ht
  refine .andThen (ht.checkUsers hset hrounds) ?_
  intro _ u hu
  refine .andThen (hu.pass .verification fun _ haggregated => ?_) ?_
  · rw [Config.capacityOf_historyDepth hset.valid]
    exact hroom haggregated
  intro _ v hv
  have hwithin : (Progress.inRound config plan rounds plan.appends).Within plan :=
    Progress.within_round hrounds (Nat.le_refl _)
  rw [Progress.inRound_next]
  exact hv.audit hset ⟨hwithin.registered, hwithin.devices, hwithin.updates, hrounds⟩

/-- A round for which the history has no room ends the simulation. -/
theorem round_refused (h : Under contents store config scheme keys plan
      (Progress.inRound config plan rounds 0) s) (hrounds : rounds < plan.rounds)
    (haggregated : config.aggregatedHistory = true)
    (hfull : 2 ^ config.historyDepth < 2 + rounds) :
    Fails (Simulation.round scheme keys plan) s (.historyFull (2 ^ config.historyDepth)) := by
  unfold Simulation.round
  refine .later ((h.publishBatches hset hrounds).mono ?_)
  intro _ t ht
  refine .later ((ht.checkUsers hset hrounds).mono ?_)
  intro _ u hu
  exact (hu.advance_refused hset haggregated hfull).bind _

end Under

/-! ## The whole simulation -/

/-- A simulation that has not begun. -/
theorem under_start {dir : Directory σ} (hnew : Directory.new config store = .ok dir) :
    Under contents store config scheme keys plan ⟨0, 0, 0, false, 0, 0, 0, 0⟩
      ⟨dir, .empty, 0, 0, 0, 0⟩ := by
  obtain ⟨-, hagrees⟩ := agrees_start contents hnew
  have hnone : ∀ identifier, (Service.start dir).recordsOf identifier = [] := fun _ => rfl
  have hdevices : Progress.devices ⟨0, 0, 0, false, 0, 0, 0, 0⟩ plan = 0 := Nat.zero_mul _
  have hpublications : Progress.publications ⟨0, 0, 0, false, 0, 0, 0, 0⟩ plan = 0 := by
    rw [Progress.publications, hdevices]
  refine ⟨⟨Service.start dir, rfl, ?_, nofun⟩, hpublications.symm, hdevices.symm, rfl, rfl⟩
  refine ⟨hagrees, nofun, fun _ _ => hnone _, fun _ _ => by rw [hnone]; rfl, fun _ => ?_, nofun,
    hpublications.symm, ?_, fun _ _ _ => nofun, ?_⟩
  · rw [hnone]
    exact List.forall_mem_nil _
  · intro index _ shown
    cases shown <;> rfl
  · rw [hpublications]
    rfl

/-- All users register, and the first checkpoints are audited. -/
theorem exists_opening (hset : Setting contents store config scheme keys plan)
    (h : Under contents store config scheme keys plan ⟨0, 0, 0, false, 0, 0, 0, 0⟩ s) :
    ∃ t, Under contents store config scheme keys plan (Progress.inRound config plan 0 0) t ∧
      ∀ {α : Type} (rest : Step σ α), (do
        for user in List.range plan.users do registerUser scheme keys user
        sealUpdates
        audit
        rest : Step σ α).run.run s = rest.run.run t := by
  have hregister : Succeeds (forIn (List.range plan.users) PUnit.unit fun user _ => do
      registerUser scheme keys user
      pure (ForInStep.yield PUnit.unit)) s fun _ t => ∃ pending,
        Under contents store config scheme keys plan ⟨plan.users, 0, 0, pending, 0, 0, 0, 0⟩ t := by
    refine .forRange (fun user t => ∃ pending,
      Under contents store config scheme keys plan ⟨user, 0, 0, pending, 0, 0, 0, 0⟩ t) ⟨_, h⟩ ?_
    rintro user huser t ⟨pending, ht⟩
    refine .andThen (ht.registerUser hset
      (Progress.within_start (Nat.le_of_lt huser) (Nat.zero_le _)) huser) ?_
    intro _ u hu
    exact .pure ⟨rfl, true, hu⟩
  obtain ⟨_, t, hrunRegister, pending, ht⟩ := hregister
  obtain ⟨_, u, hrunSeal, hu⟩ := ht.sealUpdates
  obtain ⟨_, v, hrunAudit, hv⟩ :=
    hu.audit hset (Progress.within_start (Nat.le_refl _) (Nat.le_refl _))
  refine ⟨v, ?_, fun rest => ?_⟩
  · rw [Progress.inRound_zero, ← Nat.zero_add config.partitions]
    exact hv
  · rw [run_bind_ok hrunRegister]
    exact (run_bind_ok hrunSeal).trans (run_bind_ok hrunAudit)

/-- The rounds that have room. -/
theorem Under.rounds (h : Under contents store config scheme keys plan (Progress.inRound config plan 0 0) s)
    (hset : Setting contents store config scheme keys plan)
    (hroom : config.aggregatedHistory = true → plan.rounds < 2 ^ config.historyDepth) :
    Succeeds (forIn (List.range plan.rounds) PUnit.unit fun _ _ => do
        Simulation.round scheme keys plan
        Pure.pure (ForInStep.yield PUnit.unit)) s
      fun _ => Under contents store config scheme keys plan
        (Progress.inRound config plan plan.rounds 0) := by
  refine .forRange (fun rounds => Under contents store config scheme keys plan
    (Progress.inRound config plan rounds 0)) h ?_
  intro rounds hrounds t ht
  refine .andThen (ht.round hset hrounds fun haggregated => ?_) fun _ u hu => .pure ⟨rfl, hu⟩
  have hlt := hroom haggregated
  omega

end

end Simulation

namespace Simulation

section

variable {σ : Type} [Storage σ] {contents : Storage.Contents σ} {store : σ} {config : Config}
  {scheme : SigningScheme} {keys : KeySource} {plan : SimulationPlan} {s : Simulation σ}

/-- What is published when all rounds are over. -/
theorem Under.checkpoint
    (h : Under contents store config scheme keys plan (Progress.inRound config plan plan.rounds 0) s)
    (hset : Setting contents store config scheme keys plan) {index : Nat}
    (hindex : index < config.partitions) :
    ∃ digest, s.directory.checkpoint index = .ok digest ∧ digest.Final config plan := by
  obtain ⟨now, hdirectory, haccounts, -⟩ := h.holds
  have hwithin : (Progress.inRound config plan plan.rounds 0).Within plan :=
    Progress.within_inRound (Nat.le_refl _) (Nat.le_refl _)
  obtain ⟨p, hp, hreflects⟩ := haccounts.agrees.exists_reflects hindex
  have hclock := haccounts.clock index hindex
  have hperiod : (now.ledgerAt index).period = 2 + plan.rounds := hclock .verification
  have hupdates : (now.ledgerAt index).updateEpoch = 1 + plan.rounds * plan.appends := hclock .update
  have hwords := hwithin.clock_lt hset
  rw [hdirectory] at hp
  refine ⟨_, bind_eq_ok_iff.2 ⟨p, partitionAt_eq_ok_iff.2 hp,
    hreflects.digest_eq (Ledger.two_le_period _)⟩, ⟨?_, ?_, ?_⟩⟩
  · show (UInt64.ofNat (now.ledgerAt index).period).toNat = _
    rw [hperiod]
    exact UInt64.toNat_ofNat_of_lt' (hwords .verification)
  · show (UInt64.ofNat (now.ledgerAt index).updateEpoch).toNat = _
    rw [hupdates]
    exact UInt64.toNat_ofNat_of_lt' (hwords .update)
  · rw [Ledger.digest]
    split
    · next haggregated =>
      obtain ⟨hholds, -⟩ := Ledger.holds_history (hreflects.room haggregated)
      show some ((now.ledgerAt index).history config.historyDepth).size = _
      rw [hholds.size_eq, List.length_map, List.length_range, hperiod]
      congr 1
      omega
    · rfl

/-- When all rounds are over the simulation has counted what it reports. -/
theorem Under.report
    (h : Under contents store config scheme keys plan (Progress.inRound config plan plan.rounds 0) s)
    {digests : List Digest} (hlength : digests.length = config.partitions)
    (hfinal : ∀ digest ∈ digests, digest.Final config plan) :
    SimulationReport.Tallies config plan
      { plan, aggregated := config.aggregatedHistory, digests, partitions := config.partitions
        appends := s.appends, lookups := s.lookups, checkpoints := s.checkpoints } where
  planned := rfl
  partitions := rfl
  aggregated := rfl
  appends := by
    have happends : s.appends =
        plan.users + ((plan.rounds * plan.appends + 0) * plan.users + 0) := h.appends
    rw [happends]
    ring
  lookups := h.lookups
  checkpoints := h.checkpoints
  digests := hlength
  final := hfinal

/-- With room for all rounds the simulation comes to its end. -/
theorem run_succeeds (hset : Setting contents store config scheme keys plan) {dir : Directory σ}
    (hnew : Directory.new config store = .ok dir)
    (hroom : config.aggregatedHistory = true → plan.rounds < 2 ^ config.historyDepth) :
    Succeeds (run scheme keys plan config.aggregatedHistory) ⟨dir, .empty, 0, 0, 0, 0⟩
      fun report _ => report.Tallies config plan := by
  obtain ⟨t, ht, hopening⟩ := exists_opening hset (under_start hnew)
  suffices hrest : Succeeds (do
      for _ in List.range plan.rounds do round scheme keys plan
      let s ← get
      let digests ← (List.range s.directory.partitions.size).mapM fun index =>
        ask fun dir => dir.checkpoint index
      pure
        { plan, aggregated := config.aggregatedHistory, digests
          partitions := s.directory.partitions.size
          appends := s.appends, lookups := s.lookups, checkpoints := s.checkpoints } :
      Step σ SimulationReport) t fun report _ => report.Tallies config plan by
    obtain ⟨report, u, hrun, htallies⟩ := hrest
    exact ⟨report, u, (hopening _).trans hrun, htallies⟩
  refine .andThen (ht.rounds hset hroom) ?_
  intro _ u hu
  refine .bind ⟨u, u, rfl, ?_⟩
  have hdigests : Succeeds ((List.range config.partitions).mapM fun index =>
        ask fun dir => dir.checkpoint index) u fun digests v =>
      v = u ∧ digests.length = (List.range config.partitions).length ∧
        ∀ digest ∈ digests, digest.Final config plan := by
    refine .mapM fun index hindex => ?_
    obtain ⟨digest, hdigest, hfinal⟩ := hu.checkpoint hset (List.mem_range.1 hindex)
    exact .ask hdigest ⟨rfl, hfinal⟩
  dsimp only
  rw [hu.size_eq]
  refine .bind (hdigests.mono ?_)
  rintro digests _ ⟨rfl, hlength, hfinal⟩
  rw [List.length_range] at hlength
  exact .pure (hu.report hlength hfinal)

/-- Without room for one of them the round in which the history is full ends the simulation. -/
theorem run_refused
    (hset : Setting contents store config scheme keys
      { plan with rounds := 2 ^ config.historyDepth }) {dir : Directory σ}
    (hnew : Directory.new config store = .ok dir) (haggregated : config.aggregatedHistory = true)
    (hrounds : 2 ^ config.historyDepth ≤ plan.rounds) :
    Fails (run scheme keys plan config.aggregatedHistory) ⟨dir, .empty, 0, 0, 0, 0⟩
      (.historyFull (2 ^ config.historyDepth)) := by
  obtain ⟨t, ht, hopening⟩ := exists_opening hset (under_start hnew)
  have hpos : 0 < 2 ^ config.historyDepth := Nat.two_pow_pos _
  have hloop : Fails (forIn (List.range plan.rounds) PUnit.unit fun _ _ => do
      round scheme keys plan
      pure (ForInStep.yield PUnit.unit)) t (.historyFull (2 ^ config.historyDepth)) := by
    have hlast : 2 ^ config.historyDepth - 1 < plan.rounds := by omega
    refine .forRange hlast (fun rounds =>
      Under contents store config scheme keys { plan with rounds := 2 ^ config.historyDepth }
        (Progress.inRound config { plan with rounds := 2 ^ config.historyDepth } rounds 0)) ht ?_ ?_
    · intro rounds hlast u hu
      have hlt : rounds < 2 ^ config.historyDepth := by omega
      exact .andThen (hu.round hset hlt fun _ => by omega) fun _ v hv => .pure ⟨rfl, hv⟩
    · intro u hu
      have hlt : 2 ^ config.historyDepth - 1 < 2 ^ config.historyDepth := by omega
      exact (hu.round_refused hset hlt haggregated (by omega)).bind _
  obtain ⟨u, hrun⟩ := hloop.bind _
  exact ⟨u, (hopening _).trans hrun⟩

end

end Simulation

/-- The plan up to the end of the first verification period for which a kept history has no room. -/
def SimulationPlan.reached (plan : SimulationPlan) (config : Config) : SimulationPlan :=
  if config.aggregatedHistory then { plan with rounds := min plan.rounds (2 ^ config.historyDepth) }
  else plan

namespace Simulation

section

variable {σ : Type} [Storage σ] {contents : Storage.Contents σ} {store : σ} {config : Config}
  {scheme : SigningScheme} {keys : KeySource} {plan : SimulationPlan}

/-- **A simulation passes in every setting, unless its history becomes full.**  It fails if a history is
kept that has no room for all rounds, and else reports what the plan comes to, which is also what the
JSON of its report says. -/
theorem simulation_passes (hset : Setting contents store config scheme keys (plan.reached config)) :
    (config.aggregatedHistory = true ∧ 2 ^ config.historyDepth ≤ plan.rounds →
      (simulate scheme keys config plan store).2 = .error (.historyFull (2 ^ config.historyDepth))) ∧
    (¬(config.aggregatedHistory = true ∧ 2 ^ config.historyDepth ≤ plan.rounds) →
      ∃ report, (simulate scheme keys config plan store).2 = .ok report ∧
        report.Tallies config plan ∧ SimulationReport.Tells config plan report.toJson) := by
  obtain ⟨dir, hnew⟩ := exists_new config hset.valid store
  rw [simulate, hnew]
  constructor
  · rintro ⟨haggregated, hrounds⟩
    rw [SimulationPlan.reached, if_pos haggregated, Nat.min_eq_right hrounds] at hset
    obtain ⟨final, hrun⟩ := run_refused hset hnew haggregated hrounds
    dsimp only
    rw [hrun]
  · intro hfits
    have hroom : config.aggregatedHistory = true → plan.rounds < 2 ^ config.historyDepth :=
      fun haggregated => Nat.lt_of_not_le fun hfull => hfits ⟨haggregated, hfull⟩
    have hreached : plan.reached config = plan := by
      rw [SimulationPlan.reached]
      split
      · next haggregated => rw [Nat.min_eq_left (Nat.le_of_lt (hroom haggregated))]
      · rfl
    rw [hreached] at hset
    obtain ⟨report, final, hrun, htallies⟩ := run_succeeds hset hnew hroom
    dsimp only
    rw [hrun]
    exact ⟨report, rfl, htallies, htallies.tells⟩

end

namespace Shown

/-- Two partitions whose histories have room for one more period. -/
def config : Config := ⟨10, 1, 2, true, 1⟩

/-- Keys from the seed 7. -/
def keys : KeySource := .ofSeed Ed25519.scheme [7]

/-- One user publishes a key for one round. -/
def oneKey : SimulationPlan := ⟨1, 1, 1⟩

/-- One user publishes no key for as many rounds as there can be. -/
def noKeys : SimulationPlan := ⟨1, 0, 2 ^ 64 - 1⟩

theorem key_owner : ∀ user < 1,
    Ed25519.scheme.toSignatureScheme.checkKey (Ed25519.scheme.publicKey (keys.owner user)) = .ok () := by
  decide +kernel

theorem selfSigned_owner : ∀ user < 1,
    Ed25519.scheme.toSignatureScheme.verify (Ed25519.scheme.publicKey (keys.owner user))
      (Ed25519.scheme.publicKey (keys.owner user))
      (Ed25519.scheme.sign (keys.owner user) (Ed25519.scheme.publicKey (keys.owner user))) = .ok () := by
  decide +kernel

theorem signs_oneKey : keys.Signs Ed25519.scheme oneKey where
  key := key_owner
  selfSigned := selfSigned_owner
  signed := by
    have hsigned : ∀ user < oneKey.users, ∀ count < oneKey.devices, ∀ position < oneKey.publications,
        Ed25519.scheme.toSignatureScheme.verify (Ed25519.scheme.publicKey (keys.owner user))
          (signedPayload (keys.device count) (UInt64.ofNat position))
          (Ed25519.scheme.sign (keys.owner user)
            (signedPayload (keys.device count) (UInt64.ofNat position))) = .ok () := by
      decide +kernel
    intro user huser count hcount position hposition
    have hat := hsigned user huser count hcount _ hposition
    rwa [UInt64.ofNat_toNat] at hat
  fits := by decide +kernel

theorem signs_noKeys : keys.Signs Ed25519.scheme (noKeys.reached config) where
  key := key_owner
  selfSigned := selfSigned_owner
  signed _ _ _ := nofun
  fits _ := nofun

theorem setting_oneKey :
    Setting MemoryStore.contents MemoryStore.empty config Ed25519.scheme keys (oneKey.reached config) where
  valid := rfl
  neverFails := MemoryStore.neverFails
  empty _ := rfl
  signs := signs_oneKey
  apart := by decide +kernel
  fits := by decide

theorem setting_noKeys :
    Setting MemoryStore.contents MemoryStore.empty config Ed25519.scheme keys (noKeys.reached config) where
  valid := rfl
  neverFails := MemoryStore.neverFails
  empty _ := rfl
  signs := signs_noKeys
  apart := by decide +kernel
  fits := by decide

end Shown

open Shown

/-- A user with one key, and one who has looked up a master key when the history is full. -/
theorem simulation_passes_one_user :
    Setting MemoryStore.contents MemoryStore.empty config Ed25519.scheme keys (oneKey.reached config) ∧
      Setting MemoryStore.contents MemoryStore.empty config Ed25519.scheme keys
        (noKeys.reached config) ∧
      (∃ report, (simulate Ed25519.scheme keys config oneKey MemoryStore.empty).2 = .ok report ∧
        report.appends = 2 ∧ report.lookups = 2 ∧ report.checkpoints = 6 ∧
        report.digests.length = 2 ∧
        (∀ digest ∈ report.digests, digest.history.map ForestDigest.size = some 2) ∧
        report.toJson.member? "appends" = some (.ofNat 2) ∧
        report.toJson.member? "lookups_validated" = some (.ofNat 2) ∧
        report.toJson.member? "checkpoints_audited" = some (.ofNat 6)) ∧
      (simulate Ed25519.scheme keys config noKeys MemoryStore.empty).2 = .error (.historyFull 2) := by
  obtain ⟨-, hpasses⟩ := simulation_passes setting_oneKey
  obtain ⟨hfails, -⟩ := simulation_passes setting_noKeys
  obtain ⟨report, hreport, htallies, htells⟩ := hpasses (by decide)
  exact ⟨setting_oneKey, setting_noKeys, ⟨report, hreport, htallies.appends, htallies.lookups,
    htallies.checkpoints, htallies.digests, fun digest hdigest => (htallies.final digest hdigest).history,
    htells.appends, htells.lookups, htells.checkpoints⟩, hfails (by decide)⟩

end Simulation

end KeyTransparency
