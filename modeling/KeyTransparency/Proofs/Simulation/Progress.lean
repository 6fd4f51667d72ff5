import KeyTransparency.Proofs.Auditor.Honest
import KeyTransparency.Proofs.Directory.Availability
import KeyTransparency.Proofs.Simulation.Outcome

/-!
# How far a simulation is

At every point of a simulation its directory and store are where the plan has them (`Accounts`): users
have registered or not, each has as many public keys as batches have been published, and both clocks show
the ends of epochs so far at every partition.  What a step asks of the directory is therefore granted, and
moves the progress on by what the step does:

    Accounts … progress now → there is a user left → register … granted, Accounts … { progress with registered + 1 }
    Accounts … progress now → there is a key left → append … granted, Accounts … { progress with turn + 1 }
    Accounts … progress now → an epoch ends → Accounts … (progress.passed due)
-/

namespace KeyTransparency

open Directory

/-! ## What a plan needs -/

namespace SimulationPlan

/-- The keys that are published, master keys included. -/
def publications (plan : SimulationPlan) : Nat := plan.users * (1 + plan.appends * plan.rounds)

/-- The public keys among them. -/
def devices (plan : SimulationPlan) : Nat := plan.users * (plan.appends * plan.rounds)

/-- The checkpoints of every partition that the auditor is shown. -/
def checkpoints (plan : SimulationPlan) : Nat := 1 + plan.rounds * (plan.appends + 1)

/-- The look-ups of every user in a round. -/
def lookups (plan : SimulationPlan) : Nat := if 0 < plan.appends then 2 else 1

open Simulation in
/-- The identifiers that keys are published under. -/
def identifiers (plan : SimulationPlan) : List Bytes :=
  (List.range plan.users).flatMap fun user =>
    masterKeyIdentifier (username user) ::
      if 0 < plan.appends * plan.rounds then [publicKeyIdentifier (username user)] else []

section

variable (plan : SimulationPlan)

theorem publications_eq : plan.publications = plan.users + plan.devices := by
  rw [publications, Nat.mul_add, Nat.mul_one, devices]

open Simulation

theorem masterKeyIdentifier_mem {user : Nat} (h : user < plan.users) :
    masterKeyIdentifier (username user) ∈ plan.identifiers :=
  List.mem_flatMap.2 ⟨user, List.mem_range.2 h, List.mem_cons_self⟩

theorem publicKeyIdentifier_mem {user : Nat} (h : user < plan.users) (hdevices : 0 < plan.devices) :
    publicKeyIdentifier (username user) ∈ plan.identifiers := by
  refine List.mem_flatMap.2 ⟨user, List.mem_range.2 h, List.mem_cons_of_mem _ ?_⟩
  rw [if_pos (Nat.pos_of_mul_pos_left hdevices)]
  exact List.mem_cons_self

end

end SimulationPlan

/-- Every user has a key that signs itself and, for every position that can come up, every public key that
the plan publishes. -/
structure KeySource.Signs (keys : KeySource) (scheme : SigningScheme) (plan : SimulationPlan) : Prop where
  key : ∀ user < plan.users,
    scheme.toSignatureScheme.checkKey (scheme.publicKey (keys.owner user)) = .ok ()
  selfSigned : ∀ user < plan.users,
    scheme.toSignatureScheme.verify (scheme.publicKey (keys.owner user))
      (scheme.publicKey (keys.owner user))
      (scheme.sign (keys.owner user) (scheme.publicKey (keys.owner user))) = .ok ()
  signed : ∀ user < plan.users, ∀ count < plan.devices, ∀ position : UInt64,
    position.toNat < plan.publications →
      scheme.toSignatureScheme.verify (scheme.publicKey (keys.owner user))
        (signedPayload (keys.device count) position)
        (scheme.sign (keys.owner user) (signedPayload (keys.device count) position)) = .ok ()
  fits : ∀ count < plan.devices, (keys.device count).length < UInt64.size

/-! ## User names -/

namespace Bytes

theorem toList_loop_eq (bytes : ByteArray) (i : Nat) (front : List UInt8) :
    ByteArray.toList.loop bytes i front = front.reverse ++ bytes.data.toList.drop i := by
  have hsize : bytes.data.toList.length = bytes.size := rfl
  induction h : bytes.size - i generalizing i front with
  | zero =>
    rw [ByteArray.toList.loop, if_neg (by omega), List.drop_eq_nil_of_le (by omega), List.append_nil]
  | succ left ih =>
    have hi : i < bytes.data.toList.length := by omega
    have hget : bytes.get! i = bytes.data.toList[i] := getElem!_pos bytes.data i hi
    rw [ByteArray.toList.loop, if_pos (by omega), ih (i + 1) _ (by omega), List.reverse_cons, hget,
      List.append_assoc, List.singleton_append, List.getElem_cons_drop]

theorem ofString_inj {a b : String} : ofString a = ofString b ↔ a = b := by
  refine ⟨fun h => ?_, congrArg _⟩
  rw [ofString, ofString, ByteArray.toList, ByteArray.toList, toList_loop_eq, toList_loop_eq] at h
  exact String.toByteArray_inj.1 (ByteArray.ext (Array.toList_inj.1 h))

end Bytes

namespace Simulation

/-- Different users have different names. -/
theorem username_inj {user other : Nat} : username user = username other ↔ user = other := by
  refine ⟨fun h => ?_, congrArg username⟩
  have hname : toString "user" ++ toString user = toString "user" ++ toString other :=
    Bytes.ofString_inj.1 h
  have hdigits := congrArg String.toList ((String.append_right_inj _).1 hname)
  rw [Nat.toString_eq_repr, Nat.toString_eq_repr, Nat.toList_repr, Nat.toList_repr] at hdigits
  rw [← Nat.ofDigitChars_ten_toDigits (n := user), hdigits, Nat.ofDigitChars_ten_toDigits]

theorem masterKeyIdentifier_username_inj {user other : Nat} :
    masterKeyIdentifier (username user) = masterKeyIdentifier (username other) ↔ user = other :=
  masterKeyIdentifier_inj.trans username_inj

theorem publicKeyIdentifier_username_inj {user other : Nat} :
    publicKeyIdentifier (username user) = publicKeyIdentifier (username other) ↔ user = other :=
  publicKeyIdentifier_inj.trans username_inj

/-! ## The setting -/

section

variable {σ : Type} [Storage σ] {contents : Storage.Contents σ} {store : σ} {config : Config}
  {scheme : SigningScheme} {keys : KeySource} {plan : SimulationPlan}

/-- Everything that a simulation relies on. -/
structure Setting (contents : Storage.Contents σ) (store : σ) (config : Config) (scheme : SigningScheme)
    (keys : KeySource) (plan : SimulationPlan) : Prop where
  valid : config.validate = .ok ()
  neverFails : Storage.NeverFails σ
  /-- The store is new. -/
  empty : ∀ identifier, contents.records? store identifier = some []
  signs : keys.Signs scheme plan
  /-- No two identifiers that are used have the same hash. -/
  apart : ∀ a ∈ plan.identifiers, ∀ b ∈ plan.identifiers,
    Hash.ofParts .identifier [a] = Hash.ofParts .identifier [b] → a = b
  /-- Eight bytes hold the number of everything that happens at the partitions. -/
  fits : plan.publications + config.partitions * plan.checkpoints + 2 < UInt64.size

theorem Setting.positive (h : Setting contents store config scheme keys plan) : 0 < config.partitions := by
  obtain ⟨dir, hdir⟩ := exists_new config h.valid store
  exact (agrees_start contents hdir).1

/-! ## Progress -/

structure Progress where
  /-- The users that have registered. -/
  registered : Nat
  /-- How many public keys every user has published. -/
  batches : Nat
  /-- How many users have published one more. -/
  turn : Nat
  /-- Something has been published since the last update epoch ended. -/
  pending : Bool
  updates : Nat
  periods : Nat
  lookups : Nat
  checkpoints : Nat

namespace Progress

variable {progress : Progress}

def devices (progress : Progress) (plan : SimulationPlan) : Nat :=
  progress.batches * plan.users + progress.turn

def publications (progress : Progress) (plan : SimulationPlan) : Nat :=
  progress.registered + progress.devices plan

/-- What the clocks of the partitions show. -/
def clock (progress : Progress) : Transition → Nat
  | .update => progress.updates
  | .verification => 2 + progress.periods

def passed (progress : Progress) : Transition → Progress
  | .update => { progress with updates := progress.updates + 1, pending := false }
  | .verification => { progress with periods := progress.periods + 1 }

section

variable (progress : Progress) (due : Transition)

@[simp] theorem registered_passed : (progress.passed due).registered = progress.registered := by
  cases due <;> rfl

@[simp] theorem batches_passed : (progress.passed due).batches = progress.batches := by
  cases due <;> rfl

@[simp] theorem turn_passed : (progress.passed due).turn = progress.turn := by
  cases due <;> rfl

@[simp] theorem devices_passed (plan : SimulationPlan) :
    (progress.passed due).devices plan = progress.devices plan := by
  cases due <;> rfl

@[simp] theorem publications_passed (plan : SimulationPlan) :
    (progress.passed due).publications plan = progress.publications plan := by
  cases due <;> rfl

end

/-- When everybody has had a turn, the keys published are those of one more batch. -/
theorem devices_batch (progress : Progress) (hturn : progress.turn = plan.users) :
    devices { progress with batches := progress.batches + 1, turn := 0 } plan =
      progress.devices plan := by
  rw [devices, devices, hturn, Nat.add_one_mul]
  rfl

/-- The progress is on the way to what is planned. -/
structure Within (progress : Progress) (plan : SimulationPlan) : Prop where
  registered : progress.registered ≤ plan.users
  devices : progress.devices plan ≤ plan.devices
  updates : progress.updates ≤ 1 + plan.rounds * plan.appends
  periods : progress.periods ≤ plan.rounds

theorem Within.publications_le (h : progress.Within plan) :
    progress.publications plan ≤ plan.publications := by
  rw [plan.publications_eq]
  exact Nat.add_le_add h.registered h.devices

theorem Within.epochs_le (h : progress.Within plan) :
    progress.updates + progress.periods ≤ plan.checkpoints := by
  have hplan : plan.checkpoints = 1 + plan.rounds * plan.appends + plan.rounds := by
    rw [SimulationPlan.checkpoints, Nat.mul_add_one, Nat.add_assoc]
  rw [hplan]
  exact Nat.add_le_add h.updates h.periods

theorem Within.counted (h : progress.Within plan) (lookups checkpoints : Nat) :
    Within { progress with lookups, checkpoints } plan :=
  ⟨h.registered, h.devices, h.updates, h.periods⟩

/-- Everything that has happened so far can be counted. -/
theorem Within.fits (h : progress.Within plan)
    (hset : Setting contents store config scheme keys plan) :
    progress.publications plan + config.partitions * (progress.updates + progress.periods) + 2 <
      UInt64.size := by
  have hpublications := h.publications_le
  have hepochs := Nat.mul_le_mul_left config.partitions h.epochs_le
  have hfits := hset.fits
  omega

theorem Within.clock_lt (h : progress.Within plan)
    (hset : Setting contents store config scheme keys plan) (shown : Transition) :
    progress.clock shown < UInt64.size := by
  have hfits := h.fits hset
  have hepochs := Nat.le_mul_of_pos_left (progress.updates + progress.periods) hset.positive
  cases shown with
  | update =>
    rw [clock]
    omega
  | verification =>
    rw [clock]
    omega

/-- Users register before anything else. -/
theorem within_start {registered updates : Nat} {pending : Bool} (hregistered : registered ≤ plan.users)
    (hupdates : updates ≤ 1) : Within ⟨registered, 0, 0, pending, updates, 0, 0, 0⟩ plan where
  registered := hregistered
  devices := by
    rw [devices, Nat.zero_mul]
    exact Nat.zero_le _
  updates := Nat.le_add_right_of_le hupdates
  periods := Nat.zero_le _

/-- After some rounds, and some batches of the next one. -/
def inRound (config : Config) (plan : SimulationPlan) (rounds batches : Nat) : Progress where
  registered := plan.users
  batches := rounds * plan.appends + batches
  turn := 0
  pending := false
  updates := 1 + (rounds * plan.appends + batches)
  periods := rounds
  lookups := plan.users * rounds * plan.lookups
  checkpoints := config.partitions * (1 + rounds * (plan.appends + 1) + batches)

/-- The first round begins when all users have registered. -/
theorem inRound_zero (config : Config) (plan : SimulationPlan) :
    inRound config plan 0 0 = ⟨plan.users, 0, 0, false, 1, 0, 0, config.partitions⟩ := by
  simp [inRound]

/-- A round is complete when its batches are, everybody has looked up the keys and the period has ended. -/
theorem inRound_next (config : Config) (plan : SimulationPlan) (rounds : Nat) :
    inRound config plan (rounds + 1) 0 =
      { inRound config plan rounds plan.appends with
        periods := rounds + 1
        lookups := plan.users * rounds * plan.lookups + plan.users * plan.lookups
        checkpoints := config.partitions * (1 + rounds * (plan.appends + 1) + plan.appends) +
          config.partitions } := by
  simp only [inRound, mk.injEq, true_and]
  refine ⟨?_, ?_, ?_, ?_⟩ <;> ring

theorem within_inRound {rounds batches : Nat} (hrounds : rounds ≤ plan.rounds)
    (hbatches : rounds * plan.appends + batches ≤ plan.rounds * plan.appends) :
    (inRound config plan rounds batches).Within plan where
  registered := Nat.le_refl _
  devices := by
    rw [SimulationPlan.devices, Nat.mul_comm plan.appends, Nat.mul_comm]
    exact Nat.mul_le_mul_right plan.users hbatches
  updates := Nat.add_le_add_left hbatches 1
  periods := hrounds

/-- No round has more batches than planned. -/
theorem within_round {rounds batches : Nat} (hrounds : rounds < plan.rounds)
    (hbatches : batches ≤ plan.appends) : (inRound config plan rounds batches).Within plan :=
  within_inRound (Nat.le_of_lt hrounds) <|
    calc rounds * plan.appends + batches
        ≤ (rounds + 1) * plan.appends := by
          rw [Nat.add_one_mul]
          exact Nat.add_le_add_left hbatches _
      _ ≤ plan.rounds * plan.appends := Nat.mul_le_mul_right _ hrounds

end Progress

/-! ## What the partitions and the store hold -/

/-- What a user registers. -/
def masterRecord (scheme : SigningScheme) (keys : KeySource) (user : Nat) (position : UInt64) :
    ValueRecord :=
  ⟨position, scheme.publicKey (keys.owner user),
    scheme.sign (keys.owner user) (scheme.publicKey (keys.owner user))⟩

/-- A record that a user has signed as a public key. -/
def SignedBy (scheme : SigningScheme) (keys : KeySource) (user : Nat) (record : ValueRecord) : Prop :=
  scheme.toSignatureScheme.verify (scheme.publicKey (keys.owner user))
    (signedPayload record.value record.position) record.signature = .ok ()

structure Accounts (contents : Storage.Contents σ) (store : σ) (config : Config) (scheme : SigningScheme)
    (keys : KeySource) (plan : SimulationPlan) (progress : Progress) (now : Service σ) : Prop where
  agrees : Agrees contents store config now
  registered : ∀ user < progress.registered, ∃ position,
    now.recordsOf (masterKeyIdentifier (username user)) = [masterRecord scheme keys user position]
  free : ∀ user, progress.registered ≤ user → now.recordsOf (masterKeyIdentifier (username user)) = []
  published : ∀ user < plan.users, (now.recordsOf (publicKeyIdentifier (username user))).length =
    progress.batches + if user < progress.turn then 1 else 0
  signed : ∀ user, ∀ record ∈ now.recordsOf (publicKeyIdentifier (username user)),
    SignedBy scheme keys user record
  inUse : ∀ identifier ∈ now.inUse, identifier ∈ plan.identifiers
  publications : now.inUse.length = progress.publications plan
  clock : ∀ index < config.partitions, ∀ shown, (now.ledgerAt index).clock shown = progress.clock shown
  sealed : progress.pending = false → ∀ index < config.partitions,
    ∀ made ∈ (now.ledgerAt index).publications, made.updateEpoch ≤ (now.ledgerAt index).updateEpoch
  happened : now.happened.length =
    progress.publications plan + config.partitions * (progress.updates + progress.periods)

namespace Accounts

variable {progress : Progress} {now next : Service σ} {user : Nat}

/-- No other identifier in use has the hash of one of the plan's. -/
theorem unmatched (h : Accounts contents store config scheme keys plan progress now)
    (hset : Setting contents store config scheme keys plan) {identifier : Bytes}
    (hplan : identifier ∈ plan.identifiers) : now.Unmatched identifier :=
  fun other hother => hset.apart other (h.inUse other hother) identifier hplan

theorem records_eq_ok (h : Accounts contents store config scheme keys plan progress now)
    (hset : Setting contents store config scheme keys plan) (hwithin : progress.Within plan)
    (identifier : Bytes) :
    Storage.records now.directory.store identifier = .ok (now.recordsOf identifier) := by
  have hfits := hwithin.fits hset
  have hroom : ([] : List ValueRecord).length + now.happened.length < UInt64.size := by
    rw [h.happened, List.length_nil]
    omega
  have hstored := h.agrees.stored identifier [] (hset.empty identifier) hroom
  rw [List.append_nil] at hstored
  exact Storage.Contents.records_eq_ok hset.neverFails hstored

theorem position_le (h : Accounts contents store config scheme keys plan progress now)
    (hset : Setting contents store config scheme keys plan) (hwithin : progress.Within plan) {index : Nat}
    {p : Partition} (hp : now.directory.partitions[index]? = some p) :
    p.nextPosition.toNat ≤ progress.publications plan := by
  have hfits := hwithin.fits hset
  have hle := now.length_publications_le_inUse index
  rw [h.publications] at hle
  rw [(h.agrees.reflects index p hp).nextPosition, UInt64.toNat_ofNat_of_lt' (by omega)]
  exact hle

/-! ### Publishing -/

/-- What a publication leaves as it is, whatever it does to the records of its identifier. -/
theorem publish (h : Accounts contents store config scheme keys plan progress now)
    {identifier value signature : Bytes} {position : UInt64}
    (hpublished : Published contents store config now next identifier value signature position)
    (hplan : identifier ∈ plan.identifiers) {later : Progress}
    (hlater : later.publications plan = progress.publications plan + 1 ∧
      later.updates = progress.updates ∧ later.periods = progress.periods ∧ later.pending = true)
    (hregistered : ∀ user < later.registered, ∃ position,
      next.recordsOf (masterKeyIdentifier (username user)) = [masterRecord scheme keys user position])
    (hfree : ∀ user, later.registered ≤ user →
      next.recordsOf (masterKeyIdentifier (username user)) = [])
    (hcount : ∀ user < plan.users, (next.recordsOf (publicKeyIdentifier (username user))).length =
      later.batches + if user < later.turn then 1 else 0)
    (hsigned : ∀ user, ∀ record ∈ next.recordsOf (publicKeyIdentifier (username user)),
      SignedBy scheme keys user record) :
    Accounts contents store config scheme keys plan later next := by
  obtain ⟨hpublications, hupdates, hperiods, hpending⟩ := hlater
  refine ⟨hpublished.agrees, hregistered, hfree, hcount, hsigned, ?_, ?_, ?_, ?_, ?_⟩
  · intro other hother
    rw [hpublished.inUse_eq] at hother
    rcases List.mem_append.1 hother with hother | hother
    · exact h.inUse other hother
    · obtain rfl := List.mem_singleton.1 hother
      exact hplan
  · rw [hpublished.inUse_eq, List.length_append, List.length_singleton, h.publications, hpublications]
  · intro index hindex shown
    rw [hpublished.clock_eq, h.clock index hindex]
    cases shown with
    | update => exact hupdates.symm
    | verification => exact congrArg (2 + ·) hperiods.symm
  · intro hsealed
    rw [hpending] at hsealed
    cases hsealed
  · rw [hpublished.length_happened, h.happened, hpublications, hupdates, hperiods]
    omega

theorem exists_register (h : Accounts contents store config scheme keys plan progress now)
    (hset : Setting contents store config scheme keys plan) (hwithin : progress.Within plan)
    (hlt : progress.registered < plan.users) :
    ∃ next position, now.directory.register scheme.toSignatureScheme (username progress.registered)
        (scheme.publicKey (keys.owner progress.registered))
        (scheme.sign (keys.owner progress.registered)
          (scheme.publicKey (keys.owner progress.registered))) = (next.directory, .ok position) ∧
      now.Continues next ∧
      Accounts contents store config scheme keys plan
        { progress with registered := progress.registered + 1, pending := true } next := by
  have hnew := h.records_eq_ok hset hwithin (masterKeyIdentifier (username progress.registered))
  rw [h.free _ (Nat.le_refl _)] at hnew
  obtain ⟨next, position, hgranted, hpublished⟩ := h.agrees.exists_register hset.neverFails hset.positive
    hnew (hset.signs.key _ hlt) (hset.signs.selfSigned _ hlt)
  have hothers : ∀ user, user ≠ progress.registered →
      next.recordsOf (masterKeyIdentifier (username user)) =
        now.recordsOf (masterKeyIdentifier (username user)) := fun user huser =>
    hpublished.recordsOf_of_ne (mt masterKeyIdentifier_username_inj.1 huser)
  have hpublic : ∀ user, next.recordsOf (publicKeyIdentifier (username user)) =
      now.recordsOf (publicKeyIdentifier (username user)) := fun user =>
    hpublished.recordsOf_of_ne (masterKeyIdentifier_ne_publicKeyIdentifier _ _).symm
  refine ⟨next, position, hgranted, hpublished.continues,
    h.publish hpublished (plan.masterKeyIdentifier_mem hlt) ⟨?_, rfl, rfl, rfl⟩ ?_ ?_ ?_ ?_⟩
  · exact Nat.add_right_comm _ _ _
  · intro user huser
    rcases Nat.lt_or_eq_of_le (Nat.le_of_lt_succ huser) with hbefore | rfl
    · rw [hothers user (Nat.ne_of_lt hbefore)]
      exact h.registered user hbefore
    · rw [hpublished.recordsOf_self, h.free _ (Nat.le_refl _)]
      exact ⟨position, rfl⟩
  · intro user huser
    rw [hothers user (Nat.ne_of_gt huser)]
    exact h.free user (Nat.le_of_succ_le huser)
  · intro user huser
    rw [hpublic]
    exact h.published user huser
  · intro user
    rw [hpublic]
    exact h.signed user

/-- The user whose turn it is is let publish the next public key. -/
theorem exists_granted (h : Accounts contents store config scheme keys plan progress now)
    (hset : Setting contents store config scheme keys plan) (hwithin : progress.Within plan)
    (hregistered : progress.turn < progress.registered)
    (hdevices : progress.devices plan < plan.devices) :
    let key := keys.device (progress.devices plan)
    let sign position := scheme.sign (keys.owner progress.turn) (signedPayload key position)
    ∃ next position, now.directory.append scheme.toSignatureScheme (username progress.turn) key sign =
          (next.directory, .ok position) ∧
      SignedBy scheme keys progress.turn ⟨position, key, sign position⟩ ∧
      Published contents store config now next (publicKeyIdentifier (username progress.turn)) key
        (sign position) position := by
  intro key sign
  have huser : progress.turn < plan.users := Nat.lt_of_lt_of_le hregistered hwithin.registered
  obtain ⟨first, hfirst⟩ := h.registered _ hregistered
  have hmaster := h.records_eq_ok hset hwithin (masterKeyIdentifier (username progress.turn))
  rw [hfirst] at hmaster
  have hroom : progress.publications plan < plan.publications := by
    rw [plan.publications_eq]
    exact Nat.add_lt_add_of_le_of_lt hwithin.registered hdevices
  have hsigned : ∀ p, now.directory.partitions[now.directory.partitionFor
      (publicKeyIdentifier (username progress.turn))]? = some p →
        scheme.toSignatureScheme.verify (scheme.publicKey (keys.owner progress.turn))
          (signedPayload key p.nextPosition) (sign p.nextPosition) = .ok () := by
    intro p hp
    exact hset.signs.signed _ huser _ hdevices _ (Nat.lt_of_le_of_lt (h.position_le hset hwithin hp) hroom)
  exact h.agrees.exists_append hset.neverFails hset.positive sign hmaster (hset.signs.key _ huser)
    (hset.signs.fits _ hdevices)
    (h.records_eq_ok hset hwithin (publicKeyIdentifier (username progress.turn))) hsigned

/-- The public keys are then one more. -/
theorem exists_append (h : Accounts contents store config scheme keys plan progress now)
    (hset : Setting contents store config scheme keys plan) (hwithin : progress.Within plan)
    (hregistered : progress.turn < progress.registered)
    (hdevices : progress.devices plan < plan.devices) :
    let key := keys.device (progress.devices plan)
    ∃ next position, now.directory.append scheme.toSignatureScheme (username progress.turn) key
        (fun position => scheme.sign (keys.owner progress.turn) (signedPayload key position)) =
          (next.directory, .ok position) ∧
      now.Continues next ∧
      Accounts contents store config scheme keys plan
        { progress with turn := progress.turn + 1, pending := true } next := by
  intro key
  have huser : progress.turn < plan.users := Nat.lt_of_lt_of_le hregistered hwithin.registered
  obtain ⟨next, position, hgranted, hverified, hpublished⟩ :=
    h.exists_granted hset hwithin hregistered hdevices
  have hmasters : ∀ user, next.recordsOf (masterKeyIdentifier (username user)) =
      now.recordsOf (masterKeyIdentifier (username user)) := fun user =>
    hpublished.recordsOf_of_ne (masterKeyIdentifier_ne_publicKeyIdentifier _ _)
  have hothers : ∀ user, user ≠ progress.turn →
      next.recordsOf (publicKeyIdentifier (username user)) =
        now.recordsOf (publicKeyIdentifier (username user)) := fun user hne =>
    hpublished.recordsOf_of_ne (mt publicKeyIdentifier_username_inj.1 hne)
  refine ⟨next, position, hgranted, hpublished.continues,
    h.publish hpublished (plan.publicKeyIdentifier_mem huser (Nat.zero_lt_of_lt hdevices))
      ⟨rfl, rfl, rfl, rfl⟩ ?_ ?_ ?_ ?_⟩
  · intro user hlt
    rw [hmasters]
    exact h.registered user hlt
  · intro user hle
    rw [hmasters]
    exact h.free user hle
  · intro user hlt
    dsimp only
    by_cases hturn : user = progress.turn
    · subst hturn
      rw [hpublished.recordsOf_self, List.length_cons, h.published _ hlt,
        if_neg (Nat.lt_irrefl _), if_pos (Nat.lt_succ_self _)]
    · have hside : user < progress.turn + 1 ↔ user < progress.turn := by omega
      rw [hothers user hturn, h.published user hlt]
      simp only [hside]
  · intro user record hrecord
    by_cases hturn : user = progress.turn
    · subst hturn
      rw [hpublished.recordsOf_self] at hrecord
      rcases List.mem_cons.1 hrecord with rfl | hrecord
      · exact hverified
      · exact h.signed _ record hrecord
    · rw [hothers user hturn] at hrecord
      exact h.signed user record hrecord

/-- When everybody has had a turn, a batch is complete. -/
theorem batch (h : Accounts contents store config scheme keys plan progress now)
    (hturn : progress.turn = plan.users) :
    Accounts contents store config scheme keys plan
      { progress with batches := progress.batches + 1, turn := 0 } now := by
  have hpublications :
      Progress.publications { progress with batches := progress.batches + 1, turn := 0 } plan =
        progress.publications plan :=
    congrArg (progress.registered + ·) (progress.devices_batch hturn)
  refine ⟨h.agrees, h.registered, h.free, ?_, h.signed, h.inUse, h.publications.trans hpublications.symm,
    ?_, h.sealed, ?_⟩
  · intro user huser
    rw [h.published user huser, hturn, if_pos huser]
    rfl
  · intro index hindex shown
    rw [h.clock index hindex]
    cases shown <;> rfl
  · rw [h.happened, hpublications]

/-- Look-ups and checkpoints leave the accounts as they are. -/
theorem counted (h : Accounts contents store config scheme keys plan progress now)
    (lookups checkpoints : Nat) :
    Accounts contents store config scheme keys plan { progress with lookups, checkpoints } now :=
  ⟨h.agrees, h.registered, h.free, h.published, h.signed, h.inUse, h.publications, h.clock, h.sealed,
    h.happened⟩

/-! ### The ends of epochs -/

theorem sweep (h : Accounts contents store config scheme keys plan progress now) {due : Transition}
    (hswept : Swept contents store config now next due config.partitions) :
    Accounts contents store config scheme keys plan (progress.passed due) next where
  agrees := hswept.agrees
  registered user huser := by
    rw [hswept.recordsOf_eq]
    rw [Progress.registered_passed] at huser
    exact h.registered user huser
  free user huser := by
    rw [hswept.recordsOf_eq]
    rw [Progress.registered_passed] at huser
    exact h.free user huser
  published user huser := by
    rw [hswept.recordsOf_eq, Progress.batches_passed, Progress.turn_passed]
    exact h.published user huser
  signed user := by
    rw [hswept.recordsOf_eq]
    exact h.signed user
  inUse := by
    rw [hswept.inUse_eq]
    exact h.inUse
  publications := by
    rw [hswept.inUse_eq, Progress.publications_passed]
    exact h.publications
  clock index hindex shown := by
    rw [hswept.ledgerAt_eq, if_pos hindex, Ledger.clock_passed, h.clock index hindex]
    cases due <;> cases shown <;> rfl
  sealed hsealed index hindex := by
    rw [hswept.ledgerAt_eq, if_pos hindex]
    cases due with
    | update =>
      intro made hmade
      obtain ⟨p, -, hreflects⟩ := h.agrees.exists_reflects hindex
      rw [Ledger.passed, Ledger.updateEpoch_record_sealed]
      exact hreflects.consistent.updateEpoch_le made hmade
    | verification => exact h.sealed hsealed index hindex
  happened := by
    rw [hswept.length_happened, h.happened, Progress.publications_passed, Nat.add_assoc]
    congr 1
    cases due with
    | update => rw [Progress.passed, Nat.add_right_comm, Nat.mul_add_one]
    | verification => rw [Progress.passed, ← Nat.add_assoc, Nat.mul_add_one]

end Accounts

end

end Simulation

end KeyTransparency
