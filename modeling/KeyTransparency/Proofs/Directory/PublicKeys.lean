import KeyTransparency.Proofs.Directory.Lookup
import KeyTransparency.Proofs.Partition.Growth

/-!
# Public keys of the past

A look-up of a public key reads the sealed position at the partition and then the records in the store,
and other requests may run in between.  Whatever they publish takes a position that is not below the
sealed one (`Answers.recordsOf_eq`), and the records are in order, the newest first; so the first record
below the sealed position and at or before a limit is the newest one that was published there, at both
moments and at every later one:

    lookupPublicKey username limit = the newest record published below sealedPosition, up to limit
    later.publicKeyBelow username sealedPosition limit = now.lookupPublicKey username limit
    limit < sealedPosition → later.lookupPublicKey username limit = now.lookupPublicKey username limit
                                                                          (public_keys_remembered)
-/

namespace KeyTransparency

/-- Below a sealed position, and no later than a limit. -/
def ValueRecord.within (sealedPosition limit : UInt64) (record : ValueRecord) : Bool :=
  record.position < sealedPosition ∧ record.position ≤ limit

theorem ValueRecord.within_iff {sealedPosition limit : UInt64} {record : ValueRecord} :
    record.within sealedPosition limit = true ↔
      record.position < sealedPosition ∧ record.position ≤ limit := decide_eq_true_iff

namespace Directory

namespace Service

variable {σ : Type}

/-! ## What was published -/

/-- A value has gone through under an identifier. -/
def Published (now : Service σ) (identifier : Bytes) (record : ValueRecord) : Prop :=
  ∃ index, (index, .published identifier record.value record.signature record.position) ∈ now.happened

/-- The newest record published below a sealed position and no later than a limit. -/
structure NewestPublished (now : Service σ) (identifier : Bytes) (sealedPosition limit : UInt64)
    (record : ValueRecord) : Prop where
  published : now.Published identifier record
  within : record.within sealedPosition limit = true
  newest : ∀ other, now.Published identifier other → other.within sealedPosition limit = true →
    other.position ≤ record.position

/-- Everything went through at the partition that its identifier belongs to. -/
def Placed (now : Service σ) : Prop :=
  ∀ index identifier value signature position,
    (index, .published identifier value signature position) ∈ now.happened →
      index = now.directory.partitionFor identifier

/-- `later` is what `now` may have become. -/
structure Follows (now later : Service σ) : Prop where
  size : later.directory.partitions.size = now.directory.partitions.size
  happened : now.happened <+: later.happened

theorem Follows.refl (now : Service σ) : now.Follows now := ⟨rfl, List.prefix_refl _⟩

theorem Follows.trans {first now later : Service σ} (h : first.Follows now) (h' : now.Follows later) :
    first.Follows later := ⟨h'.size.trans h.size, h.happened.trans h'.happened⟩

section

variable [Storage σ] {scheme : SignatureScheme} {now next : Service σ}

theorem follows_of_leads (h : Leads scheme now next) : now.Follows next := by
  cases h with
  | idle => exact ⟨rfl, List.prefix_refl _⟩
  | read => exact ⟨rfl, List.prefix_refl _⟩
  | published => exact ⟨size_setPartition, List.prefix_append _ _⟩
  | unstored => exact ⟨size_setPartition, List.prefix_refl _⟩
  | moved => exact ⟨size_setPartition, List.prefix_append _ _⟩

theorem Placed.leads (h : now.Placed) (hleads : Leads scheme now next) : next.Placed := by
  have hfollows := follows_of_leads hleads
  intro index identifier value signature position hmem
  rw [partitionFor_congr hfollows.size]
  cases hleads with
  | idle => exact h _ _ _ _ _ hmem
  | read => exact h _ _ _ _ _ hmem
  | unstored => exact h _ _ _ _ _ hmem
  | published =>
    rcases List.mem_append.1 hmem with hmem | hmem
    · exact h _ _ _ _ _ hmem
    · obtain ⟨hindex, hevent⟩ := Prod.mk.inj (List.mem_singleton.1 hmem)
      rw [hindex, (Partition.Event.published.inj hevent).1]
  | moved hends =>
    rcases List.mem_append.1 hmem with hmem | hmem
    · exact h _ _ _ _ _ hmem
    · obtain ⟨-, rfl⟩ := Prod.mk.inj (List.mem_singleton.1 hmem)
      rcases hends with hends | hends <;> cases hends

theorem follows_run {steps : List Step} (hfits : Fits steps)
    (hroom : now.happened.length + steps.length < UInt64.size) : now.Follows (now.run scheme steps) :=
  (run_induction hfits hroom (Follows.refl now) fun _ _ h _ hleads =>
    h.trans (follows_of_leads hleads)).1

theorem placed_run {dir : Directory σ} {steps : List Step} (hfits : Fits steps) :
    ((start dir).run scheme steps).Placed := by
  have hnone : (start dir).Placed := fun _ _ _ _ _ hmem => absurd hmem List.not_mem_nil
  have hroom : (start dir).happened.length + steps.length < UInt64.size := by
    rw [start, List.length_nil, Nat.zero_add]
    exact hfits.length
  exact (run_induction hfits hroom hnone fun _ _ h _ hleads => h.leads hleads).1

end

/-- The records of an identifier are what was published under it. -/
theorem published_iff {now : Service σ} (hplaced : now.Placed) {identifier : Bytes}
    {record : ValueRecord} : now.Published identifier record ↔ record ∈ now.recordsOf identifier := by
  rw [mem_recordsOf_iff]
  constructor
  · rintro ⟨index, hmem⟩
    rw [hplaced _ _ _ _ _ hmem] at hmem
    have hevent : .published identifier record.value record.signature record.position ∈
        now.eventsAt (now.directory.partitionFor identifier) :=
      List.mem_map.2 ⟨_, List.mem_filter.2 ⟨hmem, decide_eq_true rfl⟩, rfl⟩
    obtain ⟨made, hmade, hidentifier, hvalue, hsignature, hposition⟩ :=
      Ledger.exists_publication_of_mem_events hevent
    refine ⟨made, hmade, hidentifier, ?_⟩
    rw [Publication.record, hvalue, hsignature, hposition]
  · rintro ⟨made, hmade, rfl, rfl⟩
    obtain ⟨pair, hpair, hsame⟩ := List.mem_map.1 (Ledger.mem_events_of_mem_publications hmade)
    refine ⟨pair.1, ?_⟩
    have hhappened := List.mem_of_mem_filter hpair
    rwa [← Prod.eta pair, hsame] at hhappened

/-- What has happened at a partition goes on behind what had. -/
theorem Follows.grows {now later : Service σ} (h : now.Follows later) (index : Nat) :
    (now.ledgerAt index).Grows (later.ledgerAt index) := by
  obtain ⟨more, hmore⟩ := h.happened
  rw [ledgerAt, ledgerAt, eventsAt, eventsAt, ← hmore, List.filter_append, List.map_append]
  exact Ledger.grows_ofEvents _ _

end Service

section

variable {σ : Type} {config : Config} {now later : Service σ} {identifier username : Bytes}
  {p q : Partition} {proof proof' : ExistenceProof} {sealedPosition limit : UInt64}

/-- **What is published later is not below the sealed position**, which does not go back. -/
theorem Answers.recordsOf_eq (h : Answers config now identifier p proof)
    (h' : Answers config later identifier q proof') (hfollows : now.Follows later) :
    p.sealedPosition ≤ q.sealedPosition ∧
      ∃ newer, later.recordsOf identifier = newer ++ now.recordsOf identifier ∧
        ∀ record ∈ newer, p.sealedPosition ≤ record.position := by
  have hgrows : (now.ledgerOf identifier).Grows (later.ledgerOf identifier) := by
    rw [Service.ledgerOf, Service.ledgerOf, partitionFor_congr hfollows.size]
    exact hfollows.grows _
  have hcount : (now.ledgerOf identifier).sealedCount ≤ (now.ledgerOf identifier).publications.length :=
    List.countP_le_length
  have hcount' : (later.ledgerOf identifier).sealedCount ≤
      (later.ledgerOf identifier).publications.length := List.countP_le_length
  have hroom := h.room
  have hroom' := h'.room
  rw [h.reflects.sealedPosition, h'.reflects.sealedPosition]
  constructor
  · have hsealed := hgrows.sealedCount_le
    rw [UInt64.le_iff_toNat_le, UInt64.toNat_ofNat_of_lt' (by omega), UInt64.toNat_ofNat_of_lt' (by omega)]
    exact hsealed
  · obtain ⟨rest, hrest, hpositions⟩ := hgrows.exists_publications_eq h'.reflects.consistent
    refine ⟨(rest.filter (·.identifier = identifier)).reverse.map Publication.record, ?_, ?_⟩
    · rw [Service.recordsOf, Ledger.under, hrest, List.filter_append, List.reverse_append,
        List.map_append]
      rfl
    · intro record hrecord
      obtain ⟨made, hmade, rfl⟩ := List.mem_map.1 hrecord
      obtain ⟨i, hlow, hhigh, hposition⟩ :=
        hpositions made (List.mem_of_mem_filter (List.mem_reverse.1 hmade))
      show _ ≤ made.position
      rw [hposition, UInt64.le_iff_toNat_le, UInt64.toNat_ofNat_of_lt' (by omega),
        UInt64.toNat_ofNat_of_lt' (by omega)]
      omega

/-- Records that a condition excludes do not matter for the first that satisfies it. -/
theorem find?_append_of_excluded {q : ValueRecord → Bool} {newer rest : List ValueRecord}
    (h : ∀ record ∈ newer, ¬ q record = true) : (newer ++ rest).find? q = rest.find? q := by
  rw [List.find?_append, List.find?_eq_none.2 h, Option.none_or]

/-! ## Look-ups -/

/-- The answer to a look-up that has found this. -/
def publicKeyAnswer (username : Bytes) (found : Option ValueRecord) : Except Error ValueRecord :=
  found.elim (.error (.keyNotFound (Utf8.decodeLossy (publicKeyIdentifier username)))) .ok

theorem publicKeyAnswer_eq_ok_iff {found : Option ValueRecord} {record : ValueRecord} :
    publicKeyAnswer username found = .ok record ↔ found = some record := by
  cases found <;> simp [publicKeyAnswer]

theorem publicKeyBelow_eq [Storage σ] {dir : Directory σ} {stored : List ValueRecord}
    (hrecords : Storage.records dir.store (publicKeyIdentifier username) = .ok stored)
    (sealedPosition limit : UInt64) :
    dir.publicKeyBelow username sealedPosition limit =
      publicKeyAnswer username (stored.find? (ValueRecord.within sealedPosition limit)) := by
  unfold publicKeyBelow
  simp only [bind, Except.bind, hrecords]
  show _ = publicKeyAnswer username
    (stored.find? fun r => r.position < sealedPosition ∧ r.position ≤ limit)
  cases stored.find? fun r => r.position < sealedPosition ∧ r.position ≤ limit <;> rfl

theorem lookupPublicKey_eq [Storage σ] {dir : Directory σ} {stored : List ValueRecord}
    (hpartition : dir.partitionOf (publicKeyIdentifier username) = .ok p)
    (hrecords : Storage.records dir.store (publicKeyIdentifier username) = .ok stored)
    (limit : UInt64) :
    dir.lookupPublicKey username limit =
      publicKeyAnswer username (stored.find? (ValueRecord.within p.sealedPosition limit)) := by
  rw [← publicKeyBelow_eq hrecords]
  unfold lookupPublicKey sealedPositionOf
  rw [hpartition]
  rfl

/-- The first record in the limits is the newest one published there. -/
theorem Answers.newestPublished_iff (h : Answers config now identifier p proof) (hplaced : now.Placed)
    {record : ValueRecord} : now.NewestPublished identifier sealedPosition limit record ↔
      (now.recordsOf identifier).find? (ValueRecord.within sealedPosition limit) = some record := by
  rw [find?_eq_some_iff_newest h.pairwise_recordsOf]
  constructor
  · rintro ⟨hpublished, hwithin, hnewest⟩
    refine ⟨(Service.published_iff hplaced).1 hpublished, hwithin, ?_⟩
    intro other hother
    exact hnewest other ((Service.published_iff hplaced).2 hother)
  · rintro ⟨hmem, hwithin, hnewest⟩
    refine ⟨(Service.published_iff hplaced).2 hmem, hwithin, ?_⟩
    intro other hother
    exact hnewest other ((Service.published_iff hplaced).1 hother)

end

section

variable {σ : Type} [Storage σ] {contents : Storage.Contents σ} {first : σ} {config : Config}
  {now later : Service σ} {username : Bytes} {before : List ValueRecord} {p q : Partition}
  {proof proof' : ExistenceProof} {limit : UInt64}

/-- What is in the limits was published there, or has been in the store from the beginning. -/
theorem Answers.lookupPublicKey_cases
    (h : Answers config now (publicKeyIdentifier username) p proof) (hplaced : now.Placed)
    (hrecords : Storage.records now.directory.store (publicKeyIdentifier username) =
      .ok (now.recordsOf (publicKeyIdentifier username) ++ before)) (limit : UInt64) :
    (∃ record, now.NewestPublished (publicKeyIdentifier username) p.sealedPosition limit record ∧
        now.directory.lookupPublicKey username limit = .ok record) ∨
      (∀ record, now.Published (publicKeyIdentifier username) record →
          ¬ record.within p.sealedPosition limit = true) ∧
        now.directory.lookupPublicKey username limit =
          publicKeyAnswer username (before.find? (ValueRecord.within p.sealedPosition limit)) := by
  rw [lookupPublicKey_eq h.partition hrecords]
  cases hfind : (now.recordsOf (publicKeyIdentifier username)).find?
      (ValueRecord.within p.sealedPosition limit) with
  | some record =>
    refine .inl ⟨record, (h.newestPublished_iff hplaced).2 hfind, ?_⟩
    rw [List.find?_append, hfind]
    rfl
  | none =>
    have hnone := List.find?_eq_none.1 hfind
    refine .inr ⟨?_, by rw [find?_append_of_excluded hnone]⟩
    intro record hpublished
    exact hnone record ((Service.published_iff hplaced).1 hpublished)

/-- A store that is read later has the same record in the limits. -/
theorem Answers.publicKeyBelow_later
    (h : Answers config now (publicKeyIdentifier username) p proof)
    (h' : Answers config later (publicKeyIdentifier username) q proof') (hfollows : now.Follows later)
    (hrecords : Storage.records now.directory.store (publicKeyIdentifier username) =
      .ok (now.recordsOf (publicKeyIdentifier username) ++ before))
    (hrecords' : Storage.records later.directory.store (publicKeyIdentifier username) =
      .ok (later.recordsOf (publicKeyIdentifier username) ++ before)) (limit : UInt64) :
    later.directory.publicKeyBelow username p.sealedPosition limit =
      now.directory.lookupPublicKey username limit := by
  obtain ⟨-, newer, hnewer, hpositions⟩ := h.recordsOf_eq h' hfollows
  rw [publicKeyBelow_eq hrecords', lookupPublicKey_eq h.partition hrecords, hnewer, List.append_assoc,
    find?_append_of_excluded]
  intro record hrecord hwithin
  exact UInt64.not_le.2 (ValueRecord.within_iff.1 hwithin).1 (hpositions record hrecord)

/-- Up to a limit that has been sealed the sealed position makes no difference. -/
theorem Answers.lookupPublicKey_later
    (h : Answers config now (publicKeyIdentifier username) p proof)
    (h' : Answers config later (publicKeyIdentifier username) q proof') (hfollows : now.Follows later)
    (hrecords' : Storage.records later.directory.store (publicKeyIdentifier username) =
      .ok (later.recordsOf (publicKeyIdentifier username) ++ before))
    (hlimit : limit < p.sealedPosition) :
    later.directory.lookupPublicKey username limit =
      later.directory.publicKeyBelow username p.sealedPosition limit := by
  obtain ⟨hsealed, -⟩ := h.recordsOf_eq h' hfollows
  rw [lookupPublicKey_eq h'.partition hrecords', publicKeyBelow_eq hrecords']
  have hsame : ValueRecord.within q.sealedPosition limit = ValueRecord.within p.sealedPosition limit := by
    funext record
    rw [Bool.eq_iff_iff, ValueRecord.within_iff, ValueRecord.within_iff]
    constructor
    · rintro ⟨-, hle⟩
      exact ⟨UInt64.lt_of_le_of_lt hle hlimit, hle⟩
    · rintro ⟨hlt, hle⟩
      exact ⟨UInt64.lt_of_lt_of_le hlt hsealed, hle⟩
  rw [hsame]

/-- **Public keys are remembered.**  On a store that never fails, after every run of requests whose turns
come in whatever order, a look-up of the public key of a user answers the newest key that was published
below the sealed position and no later than the limit.  If there is none, the answer is what the records
of the user in the store at the beginning call for, which is that no key is found if there were none.
The answer is the same if other requests take their turns between the read of the sealed position and
that of the store; and if the limit is below the sealed position, it is the same ever after. -/
theorem public_keys_remembered (scheme : SignatureScheme) (contents : Storage.Contents σ)
    (hstore : Storage.NeverFails σ) {config : Config} {store : σ} {dir : Directory σ}
    (hnew : Directory.new config store = .ok dir) {steps more : List Step} (hfits : Fits (steps ++ more))
    {username : Bytes} {before : List ValueRecord}
    (hbefore : contents.records? store (publicKeyIdentifier username) = some before)
    (hroom : before.length + (steps ++ more).length < UInt64.size) :
    let now := (Service.start dir).run scheme steps
    let later := now.run scheme more
    ∃ p, now.directory.partitionOf (publicKeyIdentifier username) = .ok p ∧ ∀ limit,
      ((∃ record, now.NewestPublished (publicKeyIdentifier username) p.sealedPosition limit record ∧
          now.directory.lookupPublicKey username limit = .ok record) ∨
        (∀ record, now.Published (publicKeyIdentifier username) record →
            ¬ record.within p.sealedPosition limit = true) ∧
          now.directory.lookupPublicKey username limit =
            publicKeyAnswer username (before.find? (ValueRecord.within p.sealedPosition limit))) ∧
      later.directory.publicKeyBelow username p.sealedPosition limit =
        now.directory.lookupPublicKey username limit ∧
      (limit < p.sealedPosition →
        later.directory.lookupPublicKey username limit = now.directory.lookupPublicKey username limit) := by
  intro now later
  obtain ⟨hpositive, -⟩ := agrees_start contents hnew
  have hlater : later = (Service.start dir).run scheme (steps ++ more) := List.foldl_append.symm
  obtain ⟨hagrees, hlength⟩ : Agrees contents store config now ∧ now.happened.length ≤ steps.length :=
    agrees_run scheme contents hstore hnew hfits.of_append.1
  obtain ⟨hagrees', hlength'⟩ := agrees_run scheme contents hstore hnew hfits
  rw [← hlater] at hagrees' hlength'
  have hall := hfits.length
  have hsteps : (steps ++ more).length = steps.length + more.length := List.length_append
  have hrecords := Storage.Contents.records_eq_ok hstore
    (hagrees.stored _ before hbefore (by omega))
  have hrecords' := Storage.Contents.records_eq_ok hstore
    (hagrees'.stored _ before hbefore (by omega))
  obtain ⟨p, proof, h⟩ := hagrees.exists_answers hpositive (by omega) (publicKeyIdentifier username)
  obtain ⟨q, proof', h'⟩ := hagrees'.exists_answers hpositive (by omega) (publicKeyIdentifier username)
  have hfollows : now.Follows later := Service.follows_run hfits.of_append.2 (by omega)
  refine ⟨p, h.partition, fun limit => ?_⟩
  have hbetween := h.publicKeyBelow_later h' hfollows hrecords hrecords' limit
  refine ⟨h.lookupPublicKey_cases (Service.placed_run hfits.of_append.1) hrecords limit, hbetween, ?_⟩
  intro hlimit
  exact (h.lookupPublicKey_later h' hfollows hrecords' hlimit).trans hbetween

end

open Owner Shown

/-- The key published at position 1, asked for at once and after another user has registered. -/
theorem public_keys_remembered_two_users :
    let more : List Step := [.register [2] key keySignature, .sealUpdates 0]
    let later := last.run scheme more
    Storage.NeverFails MemoryStore ∧ Directory.new .default MemoryStore.empty = .ok dir ∧
      Fits (steps ++ more) ∧
      MemoryStore.contents.records? MemoryStore.empty (publicKeyIdentifier [1]) = some [] ∧
      ∃ p, last.directory.partitionOf (publicKeyIdentifier [1]) = .ok p ∧ 1 < p.sealedPosition ∧
        last.NewestPublished (publicKeyIdentifier [1]) p.sealedPosition 1 ⟨1, [3], secondSignature⟩ ∧
        last.directory.lookupPublicKey [1] 1 = .ok ⟨1, [3], secondSignature⟩ ∧
        last.directory.lookupPublicKey [1] 0 = publicKeyAnswer [1] none ∧
        later.directory.publicKeyBelow [1] p.sealedPosition 1 = .ok ⟨1, [3], secondSignature⟩ ∧
        later.directory.lookupPublicKey [1] 1 = .ok ⟨1, [3], secondSignature⟩ := by
  intro more later
  have hfits : Fits (steps ++ more) := by
    refine ⟨by decide, ?_⟩
    intro username value sign hmem
    rcases List.mem_append.1 hmem with hmem | hmem
    · exact fits_steps.value username value sign hmem
    · simp [more] at hmem
  have hkeys : MemoryStore.contents.records? MemoryStore.empty (publicKeyIdentifier [1]) = some [] := rfl
  have hroom : ([] : List ValueRecord).length + (steps ++ more).length < UInt64.size := by decide
  obtain ⟨p, hp, hanswers⟩ := public_keys_remembered scheme MemoryStore.contents
    MemoryStore.neverFails new_eq_dir hfits hkeys hroom
  rw [← last] at hp hanswers
  obtain ⟨hcases, hbetween, hever⟩ := hanswers 1
  have hlook : ((last.directory.partitionOf (publicKeyIdentifier [1])).map Partition.sealedPosition,
      last.directory.lookupPublicKey [1] 1, last.directory.lookupPublicKey [1] 0) =
        (.ok 2, .ok ⟨1, [3], secondSignature⟩, publicKeyAnswer [1] none) := by
    decide +kernel
  obtain ⟨hsealed, hlook⟩ := Prod.mk.inj hlook
  obtain ⟨hlook, hnone⟩ := Prod.mk.inj hlook
  rw [hp] at hsealed
  have hlimit : 1 < p.sealedPosition := by
    rw [Except.ok.inj hsealed]
    decide
  have hnewest : last.NewestPublished (publicKeyIdentifier [1]) p.sealedPosition 1
      ⟨1, [3], secondSignature⟩ := by
    rcases hcases with ⟨record, hnewest, hfound⟩ | ⟨-, hfound⟩
    · obtain rfl := Except.ok.inj (hlook.symm.trans hfound)
      exact hnewest
    · have hfailed := publicKeyAnswer_eq_ok_iff.1 (hfound.symm.trans hlook)
      cases hfailed
  refine ⟨MemoryStore.neverFails, new_eq_dir, hfits, hkeys, p, hp, hlimit, hnewest, hlook, hnone, ?_, ?_⟩
  · show (last.run scheme more).directory.publicKeyBelow [1] p.sealedPosition 1 = _
    rw [hbetween, hlook]
  · show (last.run scheme more).directory.lookupPublicKey [1] 1 = _
    rw [hever hlimit, hlook]

end Directory

end KeyTransparency
