import KeyTransparency.Proofs.Directory.Lookup
import KeyTransparency.Proofs.Directory.Transitions

/-!
# What a directory does not refuse

On a store that never fails every request goes through that keeps the rules: a self-signed key under a
new name, a value that the registered key has signed for the position it takes, the end of an epoch as
long as histories have room, and a look-up of an identifier under which all that was published has been
sealed.  Each theorem says what the request answers and that the accounts are the same after it:

    Agrees … now → now.directory.register … = (next.directory, ok position) ∧ Agrees … next
    Agrees … now → there is room → now.directory.transition due = (next.directory, ok) ∧ Agrees … next
-/

namespace KeyTransparency

namespace Directory

section

variable {σ : Type} [Storage σ] {contents : Storage.Contents σ} {first : σ} {config : Config}
  {scheme : SignatureScheme} {now next : Service σ} {identifier value signature : Bytes}

theorem Agrees.exists_reflects (h : Agrees contents first config now) {index : Nat}
    (hindex : index < config.partitions) :
    ∃ p, now.directory.partitions[index]? = some p ∧
      Reflects p (now.ledgerAt index) config.aggregatedHistory config.historyDepth := by
  have hp := Array.getElem?_eq_getElem (h.size.symm ▸ hindex)
  exact ⟨_, hp, h.reflects index _ hp⟩

/-! ## Publishing -/

/-- From one moment to the next a value has been published, and nothing else has happened. -/
structure Published (contents : Storage.Contents σ) (first : σ) (config : Config) (now next : Service σ)
    (identifier value signature : Bytes) (position : UInt64) : Prop where
  agrees : Agrees contents first config next
  size : next.directory.partitions.size = now.directory.partitions.size
  happened : next.happened = now.happened ++
    [(now.directory.partitionFor identifier, .published identifier value signature position)]

omit [Storage σ] in
/-- There are no more publications at a partition than at all of them. -/
theorem Service.length_publications_le_inUse (now : Service σ) (index : Nat) :
    (now.ledgerAt index).publications.length ≤ now.inUse.length := by
  have hpositions := congrArg List.length (Ledger.map_position_ofEvents (now.eventsAt index))
  rw [List.length_map, ← ledgerAt] at hpositions
  -- an event has a position and an identifier, or neither
  have hsame : ∀ made : Nat × Partition.Event, made.2.position?.isSome = made.2.identifier?.isSome := by
    rintro ⟨i, event⟩
    cases event <;> rfl
  have hinUse : now.inUse.length =
      (now.happened.filterMap (Partition.Event.position? ∘ Prod.snd)).length := by
    rw [inUse, List.length_filterMap_eq_countP, List.length_filterMap_eq_countP]
    exact List.countP_congr fun made _ => by rw [Function.comp_apply, hsame]
  rw [hpositions, eventsAt, List.filterMap_map, hinUse]
  exact (List.filter_sublist.filterMap _).length_le

/-- One thing has happened at some partitions, and nothing at the others. -/
def Service.Continues (now next : Service σ) : Prop :=
  ∀ index, next.ledgerAt index = now.ledgerAt index ∨
    ∃ event, next.ledgerAt index = (now.ledgerAt index).record event

namespace Published

variable {position : UInt64} (h : Published contents first config now next identifier value signature position)
include h

theorem ledgerAt_eq (index : Nat) :
    next.ledgerAt index = if now.directory.partitionFor identifier = index
      then (now.ledgerAt index).record (.published identifier value signature position)
      else now.ledgerAt index :=
  Service.ledgerAt_of_happened h.happened index

theorem continues : now.Continues next := by
  intro index
  rw [h.ledgerAt_eq]
  split
  · exact .inr ⟨_, rfl⟩
  · exact .inl rfl

theorem recordsOf_self :
    next.recordsOf identifier = ⟨position, value, signature⟩ :: now.recordsOf identifier :=
  Service.recordsOf_published h.size h.happened

theorem recordsOf_of_ne {other : Bytes} (hother : other ≠ identifier) :
    next.recordsOf other = now.recordsOf other :=
  Service.recordsOf_published_of_ne h.size h.happened hother

theorem inUse_eq : next.inUse = now.inUse ++ [identifier] := by
  rw [Service.inUse, h.happened, List.filterMap_append, ← Service.inUse]
  rfl

theorem length_happened : next.happened.length = now.happened.length + 1 := by
  rw [h.happened, List.length_append, List.length_singleton]

/-- No clock has moved. -/
theorem clock_eq (index : Nat) (shown : Transition) :
    (next.ledgerAt index).clock shown = (now.ledgerAt index).clock shown := by
  rw [h.ledgerAt_eq]
  split
  · cases shown <;> rfl
  · rfl

end Published

/-- What may be published is taken and stored. -/
theorem Agrees.exists_commit (hstore : Storage.NeverFails σ) (h : Agrees contents first config now)
    {waiting : List Request} (hsub : waiting.Sublist now.waiting) {p : Partition}
    (hp : now.directory.partitions[now.directory.partitionFor identifier]? = some p)
    {records : List ValueRecord}
    (hrecords : Storage.records now.directory.store identifier = .ok records)
    (hlicence : Licence scheme now.waiting identifier records value signature p.nextPosition) :
    ∃ directory, now.directory.commit identifier records value signature =
        (directory, .ok p.nextPosition) ∧
      Published contents first config now
        ⟨directory, waiting, now.happened ++
          [(now.directory.partitionFor identifier,
            .published identifier value signature p.nextPosition)]⟩
        identifier value signature p.nextPosition := by
  obtain ⟨next, happend, -⟩ := (h.reflects _ p hp).append identifier value signature
  obtain ⟨store, hput⟩ := hstore.put now.directory.store identifier (entryOf records value signature p)
  have hmade : Publishes now.directory identifier records value signature p next := ⟨hp, happend, hrecords⟩
  refine ⟨now.directory.afterwards identifier next store, ?_, ?_⟩
  · have hdata : ValueRecord.encodeList (⟨p.nextPosition, value, signature⟩ :: records) =
        entryOf records value signature p := rfl
    rw [commit, partitionOf_eq_ok_iff.2 hp]
    dsimp only
    rw [happend]
    dsimp only
    rw [setPartition, hdata, hput]
    rfl
  · exact ⟨h.published hsub hlicence hmade hput, size_setPartition, rfl⟩

omit [Storage σ] in
theorem nextPosition_eq_ok {dir : Directory σ} {p : Partition}
    (hp : dir.partitions[dir.partitionFor identifier]? = some p) :
    dir.nextPosition identifier = .ok p.nextPosition := by
  rw [nextPosition, partitionOf_eq_ok_iff.2 hp]
  rfl

/-- A key that signs itself is registered under a name that has none. -/
theorem Agrees.exists_register (hstore : Storage.NeverFails σ) (hpositive : 0 < config.partitions)
    (h : Agrees contents first config now) {username masterKey : Bytes}
    (hnew : Storage.records now.directory.store (masterKeyIdentifier username) = .ok [])
    (hkey : scheme.checkKey masterKey = .ok ())
    (hsigned : scheme.verify masterKey masterKey signature = .ok ()) :
    ∃ next position, now.directory.register scheme username masterKey signature =
        (next.directory, .ok position) ∧
      Published contents first config now next (masterKeyIdentifier username) masterKey signature
        position := by
  obtain ⟨p, hp⟩ := h.exists_partition hpositive (masterKeyIdentifier username)
  obtain ⟨directory, hcommit, hpublished⟩ := h.exists_commit hstore (List.Sublist.refl _) hp hnew
    (.master username p.nextPosition hkey hsigned)
  refine ⟨_, p.nextPosition, ?_, hpublished⟩
  have hclaim : (do
      let claim ← Claim.masterKey scheme username masterKey signature p.nextPosition
      claim.verifySignature scheme) = .ok () :=
    bind_eq_ok_iff.2 ⟨_, then_eq_ok_iff.2 ⟨hkey, rfl⟩, hsigned⟩
  have hadmission : (do
      if (← Storage.records now.directory.store (masterKeyIdentifier username)) ≠ [] then
        throw (.alreadyRegistered (Utf8.decodeLossy username))
      let position ← now.directory.nextPosition (masterKeyIdentifier username)
      (← Claim.masterKey scheme username masterKey signature position).verifySignature scheme :
      Except Error Unit) = .ok () := by
    refine bind_eq_ok_iff.2 ⟨_, hnew, check_eq_ok_iff.2 ⟨not_not.2 rfl, ?_⟩⟩
    exact bind_eq_ok_iff.2 ⟨_, nextPosition_eq_ok hp, hclaim⟩
  unfold register
  dsimp only
  rw [hadmission]
  exact hcommit

/-- A value that the key signs for the position it gets is published. -/
theorem Agrees.exists_publish (hstore : Storage.NeverFails σ) (hpositive : 0 < config.partitions)
    (h : Agrees contents first config now) {username key : Bytes} (sign : UInt64 → Bytes)
    {records : List ValueRecord} (hfits : value.length < UInt64.size)
    (hrecords : Storage.records now.directory.store (publicKeyIdentifier username) = .ok records)
    (hsigned : ∀ p,
      now.directory.partitions[now.directory.partitionFor (publicKeyIdentifier username)]? = some p →
        scheme.verify key (signedPayload value p.nextPosition) (sign p.nextPosition) = .ok ()) :
    ∃ next position, now.directory.publish scheme key username value sign =
        (next.directory, .ok position) ∧
      scheme.verify key (signedPayload value position) (sign position) = .ok () ∧
      Published contents first config now next (publicKeyIdentifier username) value (sign position)
        position := by
  obtain ⟨p, hp⟩ := h.exists_partition hpositive (publicKeyIdentifier username)
  have hverified := hsigned p hp
  let request : Request := ⟨username, value, sign, key⟩
  have hread : Agrees contents first config { now with waiting := now.waiting ++ [request] } := by
    refine h.rest fun other hother => ?_
    rcases List.mem_append.1 hother with hother | hother
    · exact h.waits other hother
    · obtain rfl := List.mem_singleton.1 hother
      exact hfits
  have hwaits : request ∈ now.waiting ++ [request] := List.mem_append_right _ List.mem_cons_self
  have hlicence : Licence scheme (now.waiting ++ [request]) (publicKeyIdentifier username) records value
      (sign p.nextPosition) p.nextPosition :=
    .owner records hwaits hverified
  obtain ⟨directory, hcommit, hpublished⟩ := hread.exists_commit hstore
    (List.sublist_append_left now.waiting [request]) hp hrecords hlicence
  refine ⟨_, p.nextPosition, ?_, hverified,
    ⟨hpublished.agrees, hpublished.size, hpublished.happened⟩⟩
  have hadmission : (do
      let position ← now.directory.nextPosition (publicKeyIdentifier username)
      let signature := sign position
      let claim : Claim :=
        ⟨publicKeyIdentifier username, value, signature, position, key, .publicKey⟩
      claim.verifySignature scheme
      pure (← Storage.records now.directory.store (publicKeyIdentifier username), signature) :
      Except Error (List ValueRecord × Bytes)) = .ok (records, sign p.nextPosition) := by
    refine bind_eq_ok_iff.2 ⟨_, nextPosition_eq_ok hp, then_eq_ok_iff.2 ⟨hverified, ?_⟩⟩
    exact bind_eq_ok_iff.2 ⟨_, hrecords, rfl⟩
  rw [publish]
  dsimp only at hadmission ⊢
  rw [hadmission]
  exact hcommit

/-- The key to sign with is the one registered last. -/
theorem Agrees.exists_append (hstore : Storage.NeverFails σ) (hpositive : 0 < config.partitions)
    (h : Agrees contents first config now) {username : Bytes} (sign : UInt64 → Bytes)
    {master : ValueRecord} {more records : List ValueRecord}
    (hmaster : Storage.records now.directory.store (masterKeyIdentifier username) =
      .ok (master :: more))
    (hkey : scheme.checkKey master.value = .ok ()) (hfits : value.length < UInt64.size)
    (hrecords : Storage.records now.directory.store (publicKeyIdentifier username) = .ok records)
    (hsigned : ∀ p,
      now.directory.partitions[now.directory.partitionFor (publicKeyIdentifier username)]? = some p →
        scheme.verify master.value (signedPayload value p.nextPosition) (sign p.nextPosition) = .ok ()) :
    ∃ next position, now.directory.append scheme username value sign = (next.directory, .ok position) ∧
      scheme.verify master.value (signedPayload value position) (sign position) = .ok () ∧
      Published contents first config now next (publicKeyIdentifier username) value (sign position)
        position := by
  have hverifying : now.directory.verifyingKeyOf scheme username = .ok master.value :=
    bind_eq_ok_iff.2 ⟨_, hmaster, then_eq_ok_iff.2 ⟨hkey, rfl⟩⟩
  rw [append, hverifying]
  exact h.exists_publish hstore hpositive sign hfits hrecords hsigned

/-! ## Ending epochs -/

/-- From one moment to the next an epoch has ended at the first `count` partitions, and nothing else has
happened. -/
structure Swept (contents : Storage.Contents σ) (first : σ) (config : Config) (now next : Service σ)
    (due : Transition) (count : Nat) : Prop where
  agrees : Agrees contents first config next
  size : next.directory.partitions.size = now.directory.partitions.size
  happened : next.happened = now.happened ++ (List.range count).map fun index => (index, eventOf due)

namespace Swept

variable {due : Transition} {count : Nat}

/-- What happened is entered at each of these partitions. -/
theorem ledgerAt_eq (h : Swept contents first config now next due count) (index : Nat) :
    next.ledgerAt index =
      if index < count then (now.ledgerAt index).passed due else now.ledgerAt index := by
  have hfilter : (List.range count).filter (· = index) =
      List.replicate (if index < count then 1 else 0) index := by
    rw [← List.count_range]
    exact List.filter_beq index
  have hone : (((List.range count).map fun index => (index, eventOf due)).filter (·.1 = index)).map
      Prod.snd = List.replicate (if index < count then 1 else 0) (eventOf due) := by
    rw [List.filter_map, List.map_map]
    show ((List.range count).filter (· = index)).map _ = _
    rw [hfilter, List.map_replicate]
    rfl
  rw [Service.ledgerAt, Service.eventsAt, h.happened, List.filter_append, List.map_append, hone,
    ← Service.eventsAt]
  by_cases hindex : index < count
  · rw [if_pos hindex, if_pos hindex, List.replicate_one, Ledger.ofEvents_concat]
    cases due <;> rfl
  · rw [if_neg hindex, if_neg hindex, List.replicate_zero, List.append_nil]
    rfl

theorem continues (h : Swept contents first config now next due count) : now.Continues next := by
  intro index
  rw [h.ledgerAt_eq]
  split
  · cases due with
    | update => exact .inr ⟨.sealed, rfl⟩
    | verification => exact .inr ⟨.advanced, rfl⟩
  · exact .inl rfl

/-- The ends of epochs publish nothing. -/
theorem recordsOf_eq (h : Swept contents first config now next due count) (identifier : Bytes) :
    next.recordsOf identifier = now.recordsOf identifier := by
  rw [Service.recordsOf, Service.ledgerOf, partitionFor_congr h.size, h.ledgerAt_eq]
  split
  · cases due <;> rfl
  · rfl

theorem inUse_eq (h : Swept contents first config now next due count) : next.inUse = now.inUse := by
  have hnone : ((List.range count).map fun index => (index, eventOf due)).filterMap
      (fun made => made.2.identifier?) = [] := by
    apply List.filterMap_eq_nil_iff.2
    intro made hmade
    obtain ⟨index, -, rfl⟩ := List.mem_map.1 hmade
    cases due <;> rfl
  rw [Service.inUse, h.happened, List.filterMap_append, hnone, List.append_nil, Service.inUse]

theorem length_happened (h : Swept contents first config now next due count) :
    next.happened.length = now.happened.length + count := by
  rw [h.happened, List.length_append, List.length_map, List.length_range]

/-- The next partition follows. -/
theorem passes {before : Service σ} (h : Swept contents first config now before due count)
    {p q : Partition} (hp : before.directory.partitions[count]? = some p) (hstep : p.step due = .ok q) :
    Swept contents first config now
      ⟨before.directory.setPartition count q, before.waiting,
        before.happened ++ [(count, eventOf due)]⟩ due (count + 1) where
  agrees := by
    have hperform : p.perform (eventOf due).operation = .ok (q, eventOf due) := by
      cases due <;> exact bind_eq_ok_iff.2 ⟨q, hstep, rfl⟩
    have hends : eventOf due = .sealed ∨ eventOf due = .advanced := by cases due <;> simp [eventOf]
    exact h.agrees.moved hends hp hperform
  size := size_setPartition.trans h.size
  happened := by
    rw [h.happened, List.range_succ, List.map_append, List.append_assoc]
    rfl

/-- So do all that have room. -/
theorem exists_rest {before : Service σ} (h : Swept contents first config now before due count)
    (hroom : ∀ index < config.partitions,
      Reflects.Room (now.ledgerAt index) config.aggregatedHistory config.historyDepth due)
    {left : Nat} (hleft : count + left = config.partitions) :
    ∃ next, stepAll (stepPartition (Partition.step due)) before.directory (List.range' count left) =
        (next.directory, .ok ()) ∧
      Swept contents first config now next due config.partitions := by
  induction left generalizing before count with
  | zero =>
    obtain rfl : count = config.partitions := hleft
    exact ⟨before, rfl, h⟩
  | succ left ih =>
    have hcount : count < config.partitions := by omega
    obtain ⟨p, hp, hreflects⟩ := h.agrees.exists_reflects hcount
    rw [h.ledgerAt_eq, if_neg (Nat.lt_irrefl _)] at hreflects
    obtain ⟨q, hstep, -⟩ := hreflects.step (hroom count hcount)
    rw [List.range'_succ, stepAll, stepPartition_eq_ok_iff.2 ⟨p, q, hp, hstep, rfl⟩]
    exact ih (h.passes hp hstep) (by omega)

end Swept

/-- An epoch ends at all partitions, if their histories have room. -/
theorem Agrees.exists_transition (h : Agrees contents first config now) {due : Transition}
    (hroom : ∀ index < config.partitions,
      Reflects.Room (now.ledgerAt index) config.aggregatedHistory config.historyDepth due) :
    ∃ next, now.directory.transition due = (next.directory, .ok ()) ∧
      Swept contents first config now next due config.partitions := by
  have hnone : Swept contents first config now now due 0 := ⟨h, rfl, (List.append_nil _).symm⟩
  rw [transition_eq, h.size, List.range_eq_range']
  exact hnone.exists_rest hroom (Nat.zero_add _)

/-- Otherwise the history of the first refuses. -/
theorem Agrees.transition_refused (h : Agrees contents first config now)
    (hpositive : 0 < config.partitions) (haggregated : config.aggregatedHistory = true)
    (hfull : HistoryForest.capacityOf config.historyDepth < (now.ledgerAt 0).period) :
    now.directory.transition .verification =
      (now.directory, .error (.historyFull (HistoryForest.capacityOf config.historyDepth))) := by
  obtain ⟨p, hp, hreflects⟩ := h.exists_reflects hpositive
  rw [haggregated] at hreflects
  have hrefused : stepPartition (Partition.step .verification) now.directory 0 =
      .error (.historyFull (HistoryForest.capacityOf config.historyDepth)) :=
    stepPartition_eq_error hp (hreflects.advance_full hfull)
  obtain ⟨rest, hrest⟩ := Nat.exists_eq_add_one.2 hpositive
  rw [transition_eq, h.size, hrest, List.range_eq_range', List.range'_succ, stepAll, hrefused]

/-! ## Looking up -/

/-- Of every identifier under which something has been published, and all of it sealed, the newest record
is looked up, and a claim made from it validates. -/
theorem Agrees.exists_lookup (hstore : Storage.NeverFails σ) (hpositive : 0 < config.partitions)
    (h : Agrees contents first config now) (hroom : now.happened.length < UInt64.size)
    (hnew : contents.records? first identifier = some []) (hunmatched : now.Unmatched identifier)
    (hsealed : ∀ made ∈ (now.ledgerOf identifier).publications,
      made.updateEpoch ≤ (now.ledgerOf identifier).updateEpoch)
    (hpublished : now.recordsOf identifier ≠ []) :
    ∃ found, now.directory.lookupWithProof identifier = .ok found ∧
      found.record ∈ now.recordsOf identifier ∧
      ∀ claim : Claim, claim.identifier = identifier →
        claim.leafEntry = found.record.entry identifier → claim.verifySignature scheme = .ok () →
          claim.validate scheme found.digest found.proof = .ok () := by
  obtain ⟨p, proof, hanswers⟩ := h.exists_answers hpositive hroom identifier
  have hrecords := Storage.Contents.records_eq_ok hstore
    (h.stored identifier [] hnew ((Nat.zero_add _).symm ▸ hroom))
  obtain ⟨record, hrecord⟩ := List.exists_mem_of_ne_nil _ hpublished
  have hshown : proof.Shows (record.entry identifier) := by
    obtain ⟨made, hmade, rfl, rfl⟩ := Service.mem_recordsOf_iff.1 hrecord
    exact (shows_iff hanswers.all).2 (hanswers.reflects.consistent.covered (Ledger.two_le_period _) hmade
      (hsealed made hmade))
  obtain ⟨newest, hnewest⟩ := hanswers.exists_newestShown hrecord hshown
  refine ⟨_, (hanswers.lookup_iff hrecords (.inl hunmatched) _).2 ⟨newest, hnewest, rfl⟩,
    hnewest.mem, ?_⟩
  intro claim hidentifier hentry hsigned
  apply hanswers.validate hidentifier _ hsigned
  rw [hentry]
  exact hanswers.mem_newestValues hunmatched hnewest

end

end Directory

end KeyTransparency
