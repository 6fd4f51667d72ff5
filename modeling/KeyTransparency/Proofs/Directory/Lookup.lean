import KeyTransparency.Proofs.Directory.Ownership
import KeyTransparency.Proofs.Partition.Order

/-!
# What a directory answers validates

A look-up answers the newest record that is in the newest proof of membership.  That is the newest
record that any of the proofs shows, since tries go on from each other (`find?_newestValues`); so it
answers whenever a record is shown, in particular when one has been sealed.  The validator makes the same
choice among the proofs, and the records of a user are the owner's:

    lookupWithProof identifier = ok found ↔ found has the newest record shown, with digest and proof
    lookupWithProof identifier = ok found → the claim made of found validates        (lookups_validate)
-/

namespace KeyTransparency

open Trie

/-- The values of the newest proof of membership. -/
def ExistenceProof.newestValues (proof : ExistenceProof) : List ValueEntry :=
  ((LookupProof.newest proof.all).map LookupProof.values).getD []

theorem ExistenceProof.mem_newestValues_iff {proof : ExistenceProof} {entry : ValueEntry} :
    entry ∈ proof.newestValues ↔
      ∃ found, LookupProof.newest proof.all = some found ∧ entry ∈ found.values := by
  unfold newestValues
  cases LookupProof.newest proof.all <;> simp

theorem ExistenceProof.shows_of_mem_newestValues {proof : ExistenceProof} {entry : ValueEntry}
    (h : entry ∈ proof.newestValues) : proof.Shows entry := by
  obtain ⟨found, hfound, hentry⟩ := mem_newestValues_iff.1 h
  exact ⟨found, List.mem_reverse.1 (List.mem_of_find?_eq_some hfound), List.find?_some hfound, hentry⟩

/-- The first that satisfies `p` is the first that satisfies `q`, if nothing else does and it does. -/
theorem find?_eq_some_of_imp {α : Type} {p q : α → Bool} {l : List α} {a : α}
    (h : l.find? p = some a) (hq : q a = true) (himp : ∀ b ∈ l, q b = true → p b = true) :
    l.find? q = some a := by
  obtain ⟨-, before, after, rfl, hbefore⟩ := List.find?_eq_some_iff_append.1 h
  refine List.find?_eq_some_iff_append.2 ⟨hq, before, after, rfl, ?_⟩
  intro b hb
  have hnot := hbefore b hb
  cases hqb : q b with
  | false => rfl
  | true =>
    rw [himp b (List.mem_append_left _ hb) hqb] at hnot
    cases hnot

namespace Directory

section

variable {σ : Type} [Storage σ] {contents : Storage.Contents σ} {first : σ} {config : Config}
  {scheme : SignatureScheme} {now : Service σ} {identifier : Bytes} {p : Partition}
  {proof : ExistenceProof}

/-- A look-up puts together what its partition and the store answer. -/
theorem lookupWithProof_eq_ok_iff {dir : Directory σ} {digest : Digest} {stored : List ValueRecord}
    (hpartition : dir.partitionOf identifier = .ok p) (hdigest : p.digest = .ok digest)
    (hproof : p.existenceProof identifier = .ok proof)
    (hrecords : Storage.records dir.store identifier = .ok stored) {found : Lookup} :
    dir.lookupWithProof identifier = .ok found ↔
      ∃ record, stored.find? (fun r => r.entry identifier ∈ proof.newestValues) = some record ∧
        found = ⟨record, dir.partitionFor identifier, digest, proof⟩ := by
  have hnewest : (((proof.base ++ proof.updates).filter LookupProof.isMember).getLast?.map
      LookupProof.values).getD [] = proof.newestValues := by
    rw [List.getLast?_filter]
    rfl
  unfold lookupWithProof
  rw [hpartition]
  simp only [bind, Except.bind, hdigest, hproof, hrecords, hnewest]
  cases stored.find? fun r => r.entry identifier ∈ proof.newestValues with
  | none =>
    constructor
    · intro h
      cases h
    · rintro ⟨record, hnone, -⟩
      cases hnone
  | some record =>
    constructor
    · intro h
      cases h
      exact ⟨record, rfl, rfl⟩
    · rintro ⟨record, hsome, rfl⟩
      cases hsome
      rfl

end

namespace Service

variable {σ : Type} {now : Service σ} {identifier : Bytes}

/-- What is under the key of an identifier that none matches was published under it. -/
theorem Unmatched.identifier_eq (h : now.Unmatched identifier) {index : Nat} {made : Publication}
    (hmade : made ∈ (now.ledgerAt index).publications)
    (hkey : Bits.ofIdentifier made.identifier = Bits.ofIdentifier identifier) :
    made.identifier = identifier :=
  h _ (mem_inUse_of_mem_publications hmade) (Bits.hash_eq_of_ofIdentifier_eq hkey)

theorem mem_recordsOf_iff {record : ValueRecord} : record ∈ now.recordsOf identifier ↔
    ∃ made ∈ (now.ledgerOf identifier).publications, made.identifier = identifier ∧
      made.record = record := by
  rw [recordsOf, List.mem_map]
  constructor
  · rintro ⟨made, hmade, rfl⟩
    obtain ⟨hmade, hidentifier⟩ := List.mem_filter.1 (List.mem_reverse.1 hmade)
    exact ⟨made, hmade, of_decide_eq_true hidentifier, rfl⟩
  · rintro ⟨made, hmade, hidentifier, rfl⟩
    exact ⟨made, List.mem_reverse.2 (List.mem_filter.2 ⟨hmade, decide_eq_true hidentifier⟩), rfl⟩

/-- No more periods have ended than things have happened, but for the first two. -/
theorem period_ledgerAt_le (now : Service σ) (index : Nat) :
    (now.ledgerAt index).period ≤ now.happened.length + 2 := by
  have hsize := Ledger.size_ofEvents_le
    (List.Sublist.refl ((now.eventsAt index).map Partition.Event.operation))
  have hevents := now.length_eventsAt_le index
  rw [List.length_map, ← ledgerAt] at hsize
  omega

/-- The digest that the partition of an identifier publishes. -/
def digestOf (now : Service σ) (config : Config) (identifier : Bytes) : Digest :=
  (now.ledgerOf identifier).digest config.aggregatedHistory config.historyDepth

end Service

/-! ## The newest record shown -/

/-- The newest of the records that the proofs show. -/
structure NewestShown (proof : ExistenceProof) (identifier : Bytes) (records : List ValueRecord)
    (record : ValueRecord) : Prop where
  mem : record ∈ records
  shown : proof.Shows (record.entry identifier)
  newest : ∀ other ∈ records, proof.Shows (other.entry identifier) → other.position ≤ record.position

/-- In a list whose newest records come first, the first that satisfies `q` is the newest that does. -/
theorem find?_eq_some_iff_newest {q : ValueRecord → Bool} {records : List ValueRecord}
    (hordered : records.Pairwise fun newer older => older.position < newer.position)
    {record : ValueRecord} : records.find? q = some record ↔
      record ∈ records ∧ q record = true ∧
        ∀ other ∈ records, q other = true → other.position ≤ record.position := by
  constructor
  · intro hfind
    obtain ⟨hrecord, newer, older, rfl, hnewer⟩ := List.find?_eq_some_iff_append.1 hfind
    obtain ⟨-, hrest, -⟩ := List.pairwise_append.1 hordered
    refine ⟨List.mem_append_right _ List.mem_cons_self, hrecord, ?_⟩
    intro other hother hq
    rcases List.mem_append.1 hother with hother | hother
    · have hnot := hnewer other hother
      rw [hq] at hnot
      cases hnot
    · rcases List.mem_cons.1 hother with rfl | hother
      · exact UInt64.le_refl _
      · exact UInt64.le_of_lt ((List.pairwise_cons.1 hrest).1 other hother)
  · rintro ⟨hmem, hrecord, hnewest⟩
    obtain ⟨newer, older, rfl⟩ := List.append_of_mem hmem
    obtain ⟨-, -, hapart⟩ := List.pairwise_append.1 hordered
    refine List.find?_eq_some_iff_append.2 ⟨hrecord, newer, older, rfl, ?_⟩
    intro other hother
    have hlt := hapart other hother record List.mem_cons_self
    have hnot : ¬ q other = true := fun hq =>
      UInt64.not_le.2 hlt (hnewest other (List.mem_append_left _ hother) hq)
    rw [Bool.eq_false_iff.2 hnot]
    rfl

/-- The newest record shown is the first one shown. -/
theorem newestShown_iff {proof : ExistenceProof} {identifier : Bytes} {records : List ValueRecord}
    (hordered : records.Pairwise fun newer older => older.position < newer.position)
    {record : ValueRecord} : NewestShown proof identifier records record ↔
      records.find? (fun r => proof.Shows (r.entry identifier)) = some record := by
  rw [find?_eq_some_iff_newest hordered]
  simp only [decide_eq_true_eq]
  constructor
  · rintro ⟨hmem, hshown, hnewest⟩
    exact ⟨hmem, hshown, hnewest⟩
  · rintro ⟨hmem, hshown, hnewest⟩
    exact ⟨hmem, hshown, hnewest⟩

/-! ## The partition of an identifier -/

/-- The partition that an identifier belongs to, and its proofs about the identifier. -/
structure Answers {σ : Type} (config : Config) (now : Service σ) (identifier : Bytes) (p : Partition)
    (proof : ExistenceProof) : Prop where
  partition : now.directory.partitionOf identifier = .ok p
  reflects : Reflects p (now.ledgerOf identifier) config.aggregatedHistory config.historyDepth
  room : (now.ledgerOf identifier).publications.length < UInt64.size
  existence : p.existenceProof identifier = .ok proof
  base : List.Forall₂ (LookupProof.AnswersFor (Bits.ofIdentifier identifier)) proof.base
    ((now.ledgerOf identifier).namedBase config.aggregatedHistory)
  updates : List.Forall₂ (LookupProof.AnswersFor (Bits.ofIdentifier identifier)) proof.updates
    (now.ledgerOf identifier).namedUpdates

section

variable {σ : Type} {config : Config} {now : Service σ} {identifier : Bytes} {p : Partition}
  {proof : ExistenceProof}

theorem Agrees.exists_answers [Storage σ] {contents : Storage.Contents σ} {first : σ}
    (h : Agrees contents first config now) (hpositive : 0 < config.partitions)
    (hroom : now.happened.length < UInt64.size) (identifier : Bytes) :
    ∃ p proof, Answers config now identifier p proof := by
  obtain ⟨p, hp⟩ := h.exists_partition hpositive identifier
  have hreflects := h.reflects _ p hp
  have hwords : (now.ledgerOf identifier).period - 1 ≤ UInt64.size := by
    have hperiod := now.period_ledgerAt_le (now.directory.partitionFor identifier)
    rw [Service.ledgerOf]
    omega
  have hpublications := now.length_publications_le (now.directory.partitionFor identifier)
  obtain ⟨proof, hproof, hbase, hupdates⟩ :=
    hreflects.exists_existenceProof (Ledger.two_le_period _) hwords identifier
  exact ⟨p, proof, partitionOf_eq_ok_iff.2 hp, hreflects, Nat.lt_of_le_of_lt hpublications hroom, hproof,
    hbase, hupdates⟩

namespace Answers

variable (h : Answers config now identifier p proof)
include h

theorem digest_eq : p.digest = .ok (now.digestOf config identifier) :=
  h.reflects.digest_eq (Ledger.two_le_period _)

theorem all : List.Forall₂ (LookupProof.AnswersFor (Bits.ofIdentifier identifier)) proof.all
    ((now.ledgerOf identifier).named config.aggregatedHistory) := List.rel_append h.base h.updates

/-- The records of an identifier are in order, the newest first. -/
theorem pairwise_recordsOf :
    (now.recordsOf identifier).Pairwise fun newer older => older.position < newer.position := by
  have hordered := (h.reflects.consistent.pairwise_position h.room).filter (·.identifier = identifier)
  rw [Service.recordsOf, List.pairwise_map, List.pairwise_reverse]
  exact hordered

/-- Whatever is shown is a record. -/
theorem exists_record_of_shows (hunmatched : now.Unmatched identifier) {entry : ValueEntry}
    (hshown : proof.Shows entry) : ∃ record ∈ now.recordsOf identifier, record.entry identifier = entry := by
  obtain ⟨insertions, hnamed, hmem⟩ := (shows_iff h.all).1 hshown
  obtain ⟨made, hmade, hsame, -⟩ := Ledger.exists_publication (Ledger.two_le_period _) hnamed hmem
  obtain ⟨hkey, hentry⟩ := Prod.mk.inj hsame
  obtain rfl := hunmatched.identifier_eq hmade hkey
  exact ⟨made.record, Service.mem_recordsOf_iff.2 ⟨made, hmade, rfl, rfl⟩, hentry⟩

/-- If any record is shown, one is the newest. -/
theorem exists_newestShown {record : ValueRecord} (hrecord : record ∈ now.recordsOf identifier)
    (hshown : proof.Shows (record.entry identifier)) :
    ∃ newest, NewestShown proof identifier (now.recordsOf identifier) newest := by
  have hisSome : ((now.recordsOf identifier).find? fun r => proof.Shows (r.entry identifier)).isSome =
      true := List.find?_isSome.2 ⟨record, hrecord, decide_eq_true hshown⟩
  obtain ⟨newest, hnewest⟩ := Option.isSome_iff_exists.1 hisSome
  exact ⟨newest, (newestShown_iff h.pairwise_recordsOf).2 hnewest⟩

/-- The newest record shown is in the newest proof. -/
theorem mem_newestValues (hunmatched : now.Unmatched identifier) {record : ValueRecord}
    (hnewest : NewestShown proof identifier (now.recordsOf identifier) record) :
    record.entry identifier ∈ proof.newestValues := by
  obtain ⟨hrecord, hshown, hnewest⟩ := hnewest
  obtain ⟨made, hmade, rfl, rfl⟩ := Service.mem_recordsOf_iff.1 hrecord
  apply ExistenceProof.mem_newestValues_iff.2
  refine exists_newest_shows (Ledger.ordered_ofEvents _) h.reflects.consistent h.room
    (Ledger.two_le_period _) h.all hmade rfl hshown ?_
  intro other hother hkey hotherShown
  have hidentifier := hunmatched.identifier_eq hother hkey
  have hmem : other.record ∈ now.recordsOf made.identifier :=
    Service.mem_recordsOf_iff.2 ⟨other, hother, hidentifier, rfl⟩
  apply hnewest other.record hmem
  rw [← hidentifier]
  exact hotherShown

/-- **The newest record in the newest proof is the newest record shown.** -/
theorem find?_newestValues {before : List ValueRecord}
    (hunmatched : now.Unmatched identifier ∨ now.recordsOf identifier ++ before = []) :
    (now.recordsOf identifier ++ before).find? (fun r => r.entry identifier ∈ proof.newestValues) =
      (now.recordsOf identifier).find? fun r => proof.Shows (r.entry identifier) := by
  rcases hunmatched with hunmatched | hempty
  · cases hfind : (now.recordsOf identifier).find? fun r => proof.Shows (r.entry identifier) with
    | none =>
      apply List.find?_eq_none.2
      intro record _ hvalue
      have hshown := ExistenceProof.shows_of_mem_newestValues (of_decide_eq_true hvalue)
      obtain ⟨other, hother, hsame⟩ := h.exists_record_of_shows hunmatched hshown
      rw [← hsame] at hshown
      exact List.find?_eq_none.1 hfind other hother (decide_eq_true hshown)
    | some record =>
      have hvalue := h.mem_newestValues hunmatched ((newestShown_iff h.pairwise_recordsOf).2 hfind)
      rw [List.find?_append, find?_eq_some_of_imp hfind (decide_eq_true hvalue), Option.some_or]
      intro other _ hotherValue
      exact decide_eq_true (ExistenceProof.shows_of_mem_newestValues (of_decide_eq_true hotherValue))
  · rw [hempty, (List.append_eq_nil_iff.1 hempty).1]
    rfl

/-- What is below the sealed position is shown. -/
theorem shows_of_position_lt {record : ValueRecord} (hrecord : record ∈ now.recordsOf identifier)
    (hposition : record.position < p.sealedPosition) : proof.Shows (record.entry identifier) := by
  obtain ⟨made, hmade, rfl, rfl⟩ := Service.mem_recordsOf_iff.1 hrecord
  apply (shows_iff h.all).2
  exact h.reflects.consistent.covered (Ledger.two_le_period _) hmade
    (h.reflects.sealed_of_position_lt h.room hmade hposition)

/-- **What the newest proof holds is accepted**, if its owner has signed it. -/
theorem validate {scheme : SignatureScheme} {claim : Claim} (hidentifier : claim.identifier = identifier)
    (hentry : claim.leafEntry ∈ proof.newestValues) (hsigned : claim.verifySignature scheme = .ok ()) :
    claim.validate scheme (now.digestOf config identifier) proof = .ok () := by
  subst hidentifier
  obtain ⟨hbase, hupdates⟩ := h.reflects.verify_of_answers (Ledger.two_le_period _) h.base h.updates
  exact Claim.validate_of_verified hbase hupdates (stays_of_answers h.base)
    (ExistenceProof.mem_newestValues_iff.1 hentry) hsigned

end Answers

end

end Directory

/-! ## Look-ups -/

/-- What is looked up as the master key of a user is accepted as that. -/
def Lookup.MasterKeyAccepted (scheme : SignatureScheme) (username : Bytes) (found : Lookup) : Prop :=
  ∃ claim, Claim.masterKey scheme username found.record.value found.record.signature
      found.record.position = .ok claim ∧
    claim.validate scheme found.digest found.proof = .ok ()

/-- What is looked up as the public key of a user is accepted as that, under a master key. -/
def Lookup.PublicKeyAccepted (scheme : SignatureScheme) (username masterKey : Bytes) (found : Lookup) :
    Prop :=
  ∃ claim, Claim.publicKey scheme (publicKeyIdentifier username) found.record.value
      found.record.signature found.record.position masterKey = .ok claim ∧
    claim.validate scheme found.digest found.proof = .ok ()

namespace Directory

section

variable {σ : Type} [Storage σ] {contents : Storage.Contents σ} {scheme : SignatureScheme}
  {config : Config} {now : Service σ} {username identifier : Bytes} {masters keys : List ValueRecord}
  {p : Partition} {proof : ExistenceProof} {record : ValueRecord}

/-- **A look-up answers the newest record shown.** -/
theorem Answers.lookup_iff (h : Answers config now identifier p proof) {before : List ValueRecord}
    (hrecords : Storage.records now.directory.store identifier = .ok (now.recordsOf identifier ++ before))
    (hunmatched : now.Unmatched identifier ∨ now.recordsOf identifier ++ before = []) (found : Lookup) :
    now.directory.lookupWithProof identifier = .ok found ↔
      ∃ record, NewestShown proof identifier (now.recordsOf identifier) record ∧
        found = ⟨record, now.directory.partitionFor identifier, now.digestOf config identifier, proof⟩ := by
  rw [lookupWithProof_eq_ok_iff h.partition h.digest_eq h.existence hrecords,
    h.find?_newestValues hunmatched]
  exact exists_congr fun record => and_congr_left' (newestShown_iff h.pairwise_recordsOf).symm

omit [Storage σ] in
theorem Answers.masterKeyAccepted (h : Answers config now (masterKeyIdentifier username) p proof)
    (howned : Owned scheme masters keys) (hrecord : record ∈ masters)
    (hentry : record.entry (masterKeyIdentifier username) ∈ proof.newestValues) (partition : Nat) :
    Lookup.MasterKeyAccepted scheme username
      ⟨record, partition, now.digestOf config (masterKeyIdentifier username), proof⟩ := by
  refine ⟨_, then_eq_ok_iff.2 ⟨howned.key record hrecord, rfl⟩, ?_⟩
  exact h.validate rfl hentry (howned.selfSigned record hrecord)

/-- A public key is accepted under the master key of its user, which can be looked up. -/
theorem Answers.publicKeyAccepted (h : Answers config now (publicKeyIdentifier username) p proof)
    (hstore : Storage.NeverFails σ) (hguards : Guards contents scheme username masters keys now)
    (hrecord : record ∈ keys)
    (hentry : record.entry (publicKeyIdentifier username) ∈ proof.newestValues) (partition : Nat) :
    ∃ master, now.directory.lookupMasterKey username = .ok master ∧
      Lookup.PublicKeyAccepted scheme username master.value
        ⟨record, partition, now.digestOf config (publicKeyIdentifier username), proof⟩ := by
  obtain ⟨master, hmaster, hsigned⟩ := hguards.owned.signed record hrecord
  have hrecords := Storage.Contents.records_eq_ok hstore hguards.registered
  rw [hguards.owned.eq_singleton hmaster] at hrecords
  refine ⟨master, bind_eq_ok_iff.2 ⟨_, hrecords, rfl⟩, ?_⟩
  refine ⟨_, then_eq_ok_iff.2 ⟨hguards.owned.key master hmaster, rfl⟩, ?_⟩
  exact h.validate rfl hentry hsigned

/-- **What a directory answers validates.**  On a store that never fails, after every run of requests
whose turns come in whatever order, and for every identifier that no other one in use has the hash of, or
under which nothing is stored: a look-up goes through if a published record is in a proof of membership
that the partition has, and not otherwise; it answers the newest such record, with the digest and the
proofs; and it goes through if a record is below the sealed position.  If the records of a user were the
owner's at first (there may have been none), what is looked up is accepted as the user's master key, and
as a public key under it. -/
theorem lookups_validate (scheme : SignatureScheme) (contents : Storage.Contents σ)
    (hstore : Storage.NeverFails σ) {config : Config} {store : σ} {dir : Directory σ}
    (hnew : Directory.new config store = .ok dir) {steps : List Step} (hfits : Fits steps)
    {identifier : Bytes} {before : List ValueRecord}
    (hbefore : contents.records? store identifier = some before)
    (hroom : before.length + steps.length < UInt64.size)
    (hunmatched : ((Service.start dir).run scheme steps).Unmatched identifier ∨
      Storage.records ((Service.start dir).run scheme steps).directory.store identifier = .ok []) :
    let now := (Service.start dir).run scheme steps
    ∃ p digest proof records, now.directory.partitionOf identifier = .ok p ∧ p.digest = .ok digest ∧
      p.existenceProof identifier = .ok proof ∧
      Storage.records now.directory.store identifier = .ok (records ++ before) ∧
      (records.Pairwise fun newer older => older.position < newer.position) ∧
      (∀ found, now.directory.lookupWithProof identifier = .ok found ↔
        ∃ record, NewestShown proof identifier records record ∧
          found = ⟨record, now.directory.partitionFor identifier, digest, proof⟩) ∧
      ((∃ found, now.directory.lookupWithProof identifier = .ok found) ↔
        ∃ record ∈ records, proof.Shows (record.entry identifier)) ∧
      ((∃ record ∈ records, record.position < p.sealedPosition) →
        ∃ found, now.directory.lookupWithProof identifier = .ok found) ∧
      ∀ username masters keys,
        contents.records? store (masterKeyIdentifier username) = some masters →
        contents.records? store (publicKeyIdentifier username) = some keys →
        Owned scheme masters keys → keys.length + steps.length < UInt64.size →
        ∀ found, now.directory.lookupWithProof identifier = .ok found →
          (identifier = masterKeyIdentifier username → found.MasterKeyAccepted scheme username) ∧
          (identifier = publicKeyIdentifier username →
            ∃ master, now.directory.lookupMasterKey username = .ok master ∧
              found.PublicKeyAccepted scheme username master.value) := by
  intro now
  obtain ⟨hpositive, -⟩ := agrees_start contents hnew
  obtain ⟨hagrees, hlength⟩ := agrees_run scheme contents hstore hnew hfits
  have hcount : now.happened.length < UInt64.size := Nat.lt_of_le_of_lt hlength hfits.length
  obtain ⟨p, proof, h⟩ := hagrees.exists_answers hpositive hcount identifier
  have hheld := hagrees.stored identifier before hbefore
    (Nat.lt_of_le_of_lt (Nat.add_le_add_left hlength _) hroom)
  have hrecords := Storage.Contents.records_eq_ok hstore hheld
  have hunmatched : now.Unmatched identifier ∨ now.recordsOf identifier ++ before = [] :=
    hunmatched.imp_right fun hempty => Except.ok.inj (hrecords.symm.trans hempty)
  have hlookup := h.lookup_iff hrecords hunmatched
  have hsome : ∀ record ∈ now.recordsOf identifier, proof.Shows (record.entry identifier) →
      ∃ found, now.directory.lookupWithProof identifier = .ok found := by
    intro record hrecord hshown
    obtain ⟨newest, hnewest⟩ := h.exists_newestShown hrecord hshown
    exact ⟨_, (hlookup _).2 ⟨newest, hnewest, rfl⟩⟩
  refine ⟨p, now.digestOf config identifier, proof, now.recordsOf identifier, h.partition, h.digest_eq,
    h.existence, hrecords, h.pairwise_recordsOf, hlookup, ⟨?_, ?_⟩, ?_, ?_⟩
  · rintro ⟨found, hfound⟩
    obtain ⟨record, hnewest, -⟩ := (hlookup found).1 hfound
    exact ⟨record, hnewest.mem, hnewest.shown⟩
  · rintro ⟨record, hrecord, hshown⟩
    exact hsome record hrecord hshown
  · rintro ⟨record, hrecord, hposition⟩
    exact hsome record hrecord (h.shows_of_position_lt hrecord hposition)
  · intro username masters keys hmasters hkeys howned hmore found hfound
    obtain ⟨record, hnewest, rfl⟩ := (hlookup found).1 hfound
    have hfind := (h.find?_newestValues hunmatched).trans
      ((newestShown_iff h.pairwise_recordsOf).1 hnewest)
    have hdecided := List.find?_some hfind
    have hentry := of_decide_eq_true hdecided
    have hmem := List.mem_append_left before hnewest.mem
    rw [← store_of_new hnew] at hmasters hkeys
    have hnone : (Service.start dir).happened.length + steps.length < UInt64.size := by
      rw [Service.start, List.length_nil, Nat.zero_add]
      exact hfits.length
    obtain ⟨⟨masters', keys', hguards, -⟩, -⟩ :=
      (Guards.start hmasters hkeys howned).run hfits hmore hnone
    constructor
    · rintro rfl
      obtain rfl := Option.some.inj (hheld.symm.trans hguards.registered)
      exact h.masterKeyAccepted hguards.owned hmem hentry _
    · rintro rfl
      obtain rfl := Option.some.inj (hheld.symm.trans hguards.published)
      exact h.publicKeyAccepted hstore hguards hmem hentry _

end

open Owner Shown

/-- The value that was published last is found and accepted under the registered key. -/
theorem lookups_validate_two_values :
    Storage.NeverFails MemoryStore ∧ Directory.new .default MemoryStore.empty = .ok dir ∧ Fits steps ∧
      MemoryStore.contents.records? MemoryStore.empty (masterKeyIdentifier [1]) = some [] ∧
      MemoryStore.contents.records? MemoryStore.empty (publicKeyIdentifier [1]) = some [] ∧
      Owned scheme [] [] ∧ last.Unmatched (publicKeyIdentifier [1]) ∧
      ∃ p found, last.directory.partitionOf (publicKeyIdentifier [1]) = .ok p ∧
        p.sealedPosition = 2 ∧ found.record = ⟨1, [3], secondSignature⟩ ∧
        last.directory.lookupWithProof (publicKeyIdentifier [1]) = .ok found ∧
        ∃ master, last.directory.lookupMasterKey [1] = .ok master ∧
          found.PublicKeyAccepted scheme [1] master.value := by
  have hmasters : MemoryStore.contents.records? MemoryStore.empty (masterKeyIdentifier [1]) = some [] :=
    rfl
  have hkeys : MemoryStore.contents.records? MemoryStore.empty (publicKeyIdentifier [1]) = some [] := rfl
  obtain ⟨p, digest, proof, records, hp, -, -, hrecords, -, hlookup, -, hsome, haccepted⟩ :=
    lookups_validate scheme MemoryStore.contents MemoryStore.neverFails new_eq_dir fits_steps hkeys
      (by decide) (.inl unmatched_last)
  rw [← last] at hp hrecords hlookup hsome haccepted
  have hsealed : (last.directory.partitionOf (publicKeyIdentifier [1])).map Partition.sealedPosition =
      .ok 2 := by
    decide +kernel
  rw [hp] at hsealed
  have hstored : Storage.records last.directory.store (publicKeyIdentifier [1]) =
      .ok [⟨1, [3], secondSignature⟩] := by
    decide +kernel
  rw [hstored, List.append_nil] at hrecords
  obtain rfl := Except.ok.inj hrecords
  have hposition : (1 : UInt64) < p.sealedPosition := by
    rw [Except.ok.inj hsealed]
    decide
  obtain ⟨found, hfound⟩ := hsome ⟨_, List.mem_singleton_self _, hposition⟩
  obtain ⟨record, hnewest, rfl⟩ := (hlookup found).1 hfound
  obtain ⟨-, hpublic⟩ := haccepted [1] [] [] hmasters hkeys (Owned.nil scheme) (by decide) _ hfound
  exact ⟨MemoryStore.neverFails, new_eq_dir, fits_steps, hmasters, hkeys, Owned.nil scheme,
    unmatched_last, p, _, hp, Except.ok.inj hsealed, List.mem_singleton.1 hnewest.mem, hfound, hpublic rfl⟩

end Directory

end KeyTransparency
