import KeyTransparency.Crypto.Ed25519
import KeyTransparency.Proofs.Directory.Run
import KeyTransparency.Proofs.Partition.Digest
import KeyTransparency.Proofs.Validation

/-!
# The store agrees with the tries

On a store that never fails, whatever order requests take their turns in, three accounts of what was
published stay the same (`Agrees`): the ledgers of the partitions, the positions that requests were
answered, and the lists of records in the store.  So the positions at a partition count from zero, and
under every identifier

    the records stored, oldest first, have the entries that the partition's base trie holds
                                                                          (stored_as_committed_to)

A request that fails leaves all three as they were.
-/

namespace KeyTransparency

open Trie

/-- With a valid configuration the shift stays within the word. -/
theorem Config.capacityOf_historyDepth {config : Config} (hvalid : config.validate = .ok ()) :
    HistoryForest.capacityOf config.historyDepth = 2 ^ config.historyDepth := by
  have hdepth : ¬ maxHistoryDepth < config.historyDepth := by
    intro hdeep
    unfold validate at hvalid
    split_ifs at hvalid
  apply HistoryForest.capacityOf_of_lt
  rw [maxHistoryDepth] at hdepth
  omega

/-! ## Publications and events -/

/-- The record of a publication, as the store keeps it. -/
def Publication.record (made : Publication) : ValueRecord := ⟨made.position, made.value, made.signature⟩

theorem Publication.entry_record (made : Publication) :
    made.record.entry made.identifier = made.entry := rfl

namespace Partition.Event

/-- The position that a request was answered. -/
def position? : Event → Option UInt64
  | .published _ _ _ position => some position
  | .sealed => none
  | .advanced => none

def identifier? : Event → Option Bytes
  | .published identifier _ _ _ => some identifier
  | .sealed => none
  | .advanced => none

end Partition.Event

namespace Ledger

/-- The positions of a ledger are those that were answered. -/
theorem map_position_ofEvents (events : List Partition.Event) :
    (ofEvents events).publications.map Publication.position =
      events.filterMap Partition.Event.position? := by
  induction events using List.reverseRecOn with
  | nil => rfl
  | append_singleton events event ih =>
    rw [ofEvents_concat, List.filterMap_append, ← ih]
    cases event with
    | published => exact List.map_append
    | sealed => exact (List.append_nil _).symm
    | advanced => exact (List.append_nil _).symm

/-- The publications under an identifier, oldest first. -/
def under (ledger : Ledger) (identifier : Bytes) : List Publication :=
  ledger.publications.filter (·.identifier = identifier)

section

variable {ledger : Ledger} {identifier value signature : Bytes} {position : UInt64}

theorem under_record_published :
    (ledger.record (.published identifier value signature position)).under identifier =
      ledger.under identifier ++ [⟨identifier, value, signature, position, ledger.period,
        ledger.updateEpoch + 1⟩] := by
  simp [under, record]

theorem under_record_published_of_ne {other : Bytes} (h : other ≠ identifier) :
    (ledger.record (.published identifier value signature position)).under other =
      ledger.under other := by
  simp [under, record, Ne.symm h]

theorem under_record_of_ends {event : Partition.Event} (h : event = .sealed ∨ event = .advanced)
    (other : Bytes) : (ledger.record event).under other = ledger.under other := by
  rcases h with rfl | rfl <;> rfl

/-- What was inserted under the key of an identifier, if no other identifier published has its hash. -/
theorem entriesUnder_key {identifier : Bytes} (hfree : ∀ made ∈ ledger.publications,
      Hash.ofParts .identifier [made.identifier] = Hash.ofParts .identifier [identifier] →
        made.identifier = identifier) :
    entriesUnder (Bits.ofIdentifier identifier) (ledger.publications.map Publication.insertion) =
      (ledger.under identifier).map Publication.entry := by
  have hkey : ∀ made ∈ ledger.publications,
      (made.insertion.1 = Bits.ofIdentifier identifier ↔ made.identifier = identifier) := by
    intro made hmade
    constructor
    · intro h
      exact hfree made hmade (Bits.hash_eq_of_ofIdentifier_eq h)
    · intro h
      exact congrArg Bits.ofIdentifier h
  rw [entriesUnder, List.filter_map, List.map_map, under]
  have hfilter : ledger.publications.filter
        ((fun insertion => decide (insertion.1 = Bits.ofIdentifier identifier)) ∘
          Publication.insertion) =
      ledger.publications.filter (·.identifier = identifier) := by
    apply List.filter_congr
    intro made hmade
    exact decide_eq_decide.2 (hkey made hmade)
  rw [hfilter]
  rfl

end

end Ledger

namespace Directory

namespace Service

variable {σ : Type}

/-! ## What happened at a partition -/

def eventsAt (now : Service σ) (index : Nat) : List Partition.Event :=
  (now.happened.filter (·.1 = index)).map Prod.snd

def ledgerAt (now : Service σ) (index : Nat) : Ledger := .ofEvents (now.eventsAt index)

/-- The positions answered by the requests at a partition, in the order of their turns. -/
def positionsAt (now : Service σ) (index : Nat) : List UInt64 :=
  (now.eventsAt index).filterMap Partition.Event.position?

/-- The ledger of the partition that an identifier belongs to. -/
def ledgerOf (now : Service σ) (identifier : Bytes) : Ledger :=
  now.ledgerAt (now.directory.partitionFor identifier)

/-- The records that were published under an identifier, newest first. -/
def recordsOf (now : Service σ) (identifier : Bytes) : List ValueRecord :=
  ((now.ledgerOf identifier).under identifier).reverse.map Publication.record

/-- The identifiers published under. -/
def inUse (now : Service σ) : List Bytes := now.happened.filterMap fun made => made.2.identifier?

/-- No identifier published under has the hash of this one. -/
def Unmatched (now : Service σ) (identifier : Bytes) : Prop :=
  ∀ other ∈ now.inUse, Hash.ofParts .identifier [other] = Hash.ofParts .identifier [identifier] →
    other = identifier

section

variable {now next : Service σ} {index : Nat} {event : Partition.Event}

theorem eventsAt_of_happened (h : next.happened = now.happened ++ [(index, event)]) (i : Nat) :
    next.eventsAt i = if index = i then now.eventsAt i ++ [event] else now.eventsAt i := by
  rw [eventsAt, h, List.filter_append, List.map_append, ← eventsAt]
  by_cases hi : index = i
  · rw [if_pos hi, List.filter_cons_of_pos (by simpa using hi)]
    rfl
  · rw [if_neg hi, List.filter_cons_of_neg (by simpa using hi)]
    exact List.append_nil _

theorem ledgerAt_of_happened (h : next.happened = now.happened ++ [(index, event)]) (i : Nat) :
    next.ledgerAt i = if index = i then (now.ledgerAt i).record event else now.ledgerAt i := by
  rw [ledgerAt, eventsAt_of_happened h]
  split
  · exact Ledger.ofEvents_concat _ _
  · rfl

theorem length_eventsAt_le (now : Service σ) (index : Nat) :
    (now.eventsAt index).length ≤ now.happened.length := by
  rw [eventsAt, List.length_map]
  exact List.length_filter_le _ _

theorem length_publications_le (now : Service σ) (index : Nat) :
    (now.ledgerAt index).publications.length ≤ now.happened.length :=
  Nat.le_trans (Ledger.length_publications_le _) (now.length_eventsAt_le index)

theorem length_recordsOf_le (now : Service σ) (identifier : Bytes) :
    (now.recordsOf identifier).length ≤ now.happened.length := by
  rw [recordsOf, List.length_map, List.length_reverse]
  exact Nat.le_trans (List.length_filter_le _ _) (now.length_publications_le _)

theorem mem_inUse_of_mem_publications {made : Publication}
    (h : made ∈ (now.ledgerAt index).publications) : made.identifier ∈ now.inUse := by
  have hevent := Ledger.mem_events_of_mem_publications h
  obtain ⟨pair, hpair, hsame⟩ := List.mem_map.1 hevent
  refine List.mem_filterMap.2 ⟨pair, List.mem_of_mem_filter hpair, ?_⟩
  rw [hsame]
  rfl

theorem recordsOf_published {identifier value signature : Bytes} {position : UInt64}
    (hsize : next.directory.partitions.size = now.directory.partitions.size)
    (h : next.happened = now.happened ++
      [(now.directory.partitionFor identifier, .published identifier value signature position)]) :
    next.recordsOf identifier = ⟨position, value, signature⟩ :: now.recordsOf identifier := by
  rw [recordsOf, ledgerOf, partitionFor_congr hsize, ledgerAt_of_happened h, if_pos rfl,
    Ledger.under_record_published, List.reverse_append]
  rfl

theorem recordsOf_published_of_ne {identifier value signature other : Bytes} {position : UInt64}
    (hsize : next.directory.partitions.size = now.directory.partitions.size)
    (h : next.happened = now.happened ++
      [(now.directory.partitionFor identifier, .published identifier value signature position)])
    (hother : other ≠ identifier) : next.recordsOf other = now.recordsOf other := by
  rw [recordsOf, ledgerOf, partitionFor_congr hsize, ledgerAt_of_happened h]
  split
  · rw [Ledger.under_record_published_of_ne hother]
    rfl
  · rfl

theorem recordsOf_of_ends (hsize : next.directory.partitions.size = now.directory.partitions.size)
    (h : next.happened = now.happened ++ [(index, event)]) (hends : event = .sealed ∨ event = .advanced)
    (other : Bytes) : next.recordsOf other = now.recordsOf other := by
  rw [recordsOf, ledgerOf, partitionFor_congr hsize, ledgerAt_of_happened h]
  split
  · rw [Ledger.under_record_of_ends hends]
    rfl
  · rfl

/-- The entries of the records, oldest first. -/
theorem map_entry_recordsOf (now : Service σ) (identifier : Bytes) :
    (now.recordsOf identifier).reverse.map (·.entry identifier) =
      ((now.ledgerOf identifier).under identifier).map Publication.entry := by
  rw [recordsOf, ← List.map_reverse, List.reverse_reverse, List.map_map]
  apply List.map_congr_left
  intro made hmade
  obtain rfl : made.identifier = identifier := of_decide_eq_true (List.mem_filter.1 hmade).2
  exact made.entry_record

/-- What the snapshots of a partition hold under the key of an identifier that none matches. -/
theorem entriesUnder_snapshot (index : Nat) {identifier : Bytes} (hunmatched : now.Unmatched identifier)
    {epoch : Nat} (hepoch : ∀ made ∈ (now.ledgerAt index).publications, made.period ≤ epoch) :
    entriesUnder (Bits.ofIdentifier identifier) ((now.ledgerAt index).snapshot epoch) =
      ((now.ledgerAt index).under identifier).map Publication.entry := by
  have hall : (now.ledgerAt index).publications.filter (·.period ≤ epoch) =
      (now.ledgerAt index).publications := by
    apply List.filter_eq_self.2
    intro made hmade
    exact decide_eq_true (hepoch made hmade)
  rw [Ledger.snapshot, hall]
  apply Ledger.entriesUnder_key
  intro made hmade hhash
  exact hunmatched _ (mem_inUse_of_mem_publications hmade) hhash

end

end Service

/-! ## The invariant -/

/-- The partitions are what their ledgers say, and the store has the records published in front of
those it had at first. -/
structure Agrees {σ : Type} [Storage σ] (contents : Storage.Contents σ) (first : σ) (config : Config)
    (now : Service σ) : Prop where
  size : now.directory.partitions.size = config.partitions
  reflects : ∀ index p, now.directory.partitions[index]? = some p →
    Reflects p (now.ledgerAt index) config.aggregatedHistory config.historyDepth
  stored : ∀ identifier before, contents.records? first identifier = some before →
    before.length + now.happened.length < UInt64.size →
      contents.records? now.directory.store identifier = some (now.recordsOf identifier ++ before)
  waits : ∀ request ∈ now.waiting, request.value.length < UInt64.size

section

variable {σ : Type} [Storage σ] {contents : Storage.Contents σ} {first : σ} {config : Config}
  {scheme : SignatureScheme} {now next : Service σ}

theorem length_eq_of_checkKey {key : Bytes} (h : scheme.checkKey key = .ok ()) : key.length = 32 := by
  unfold SignatureScheme.checkKey at h
  split at h
  · cases h
  · next hlength => exact not_not.1 hlength

theorem length_eq_of_verify {key message signature : Bytes}
    (h : scheme.verify key message signature = .ok ()) : signature.length = 64 := by
  unfold SignatureScheme.verify at h
  split at h
  · cases h
  · next hlength => exact not_not.1 hlength

/-- Whatever there is a licence for can be stored. -/
theorem Licence.fits {waiting : List Request} {identifier value signature : Bytes}
    {records : List ValueRecord} {position : UInt64}
    (h : Licence scheme waiting identifier records value signature position)
    (hwaits : ∀ request ∈ waiting, request.value.length < UInt64.size) :
    ValueRecord.Fits ⟨position, value, signature⟩ := by
  cases h with
  | master username position hkey hsigned =>
    constructor
    · show value.length < UInt64.size
      rw [length_eq_of_checkKey hkey]
      decide
    · show signature.length < UInt64.size
      rw [length_eq_of_verify hsigned]
      decide
  | owner records hmem hsigned =>
    constructor
    · exact hwaits _ hmem
    · show (_ : Bytes).length < UInt64.size
      rw [length_eq_of_verify hsigned]
      decide

namespace Agrees

/-- Nothing but the appends that wait has changed. -/
theorem rest (h : Agrees contents first config now) {waiting : List Request}
    (hwaits : ∀ request ∈ waiting, request.value.length < UInt64.size) :
    Agrees contents first config { now with waiting } :=
  ⟨h.size, h.reflects, h.stored, hwaits⟩

/-- What happens at one partition is entered for that one, and the others stay as they are. -/
theorem reflects_of_happened (h : Agrees contents first config now) {index : Nat}
    {event : Partition.Event} {p q : Partition} (hpartition : now.directory.partitions[index]? = some p)
    (hq : Reflects q ((now.ledgerAt index).record event) config.aggregatedHistory config.historyDepth)
    (hhappened : next.happened = now.happened ++ [(index, event)])
    (hnext : next.directory.partitions = (now.directory.setPartition index q).partitions) :
    ∀ i r, next.directory.partitions[i]? = some r →
      Reflects r (next.ledgerAt i) config.aggregatedHistory config.historyDepth := by
  intro i r hget
  rw [hnext, getElem?_setPartition hpartition] at hget
  rw [Service.ledgerAt_of_happened hhappened]
  by_cases hindex : index = i
  · rw [if_pos hindex] at hget
    cases hget
    rw [if_pos hindex, ← hindex]
    exact hq
  · rw [if_neg hindex] at hget
    rw [if_neg hindex]
    exact h.reflects i r hget

theorem published (h : Agrees contents first config now) {waiting : List Request}
    {identifier value signature : Bytes} {records : List ValueRecord} {p q : Partition} {store : σ}
    (hsub : waiting.Sublist now.waiting)
    (hlicence : Licence scheme now.waiting identifier records value signature p.nextPosition)
    (hmade : Publishes now.directory identifier records value signature p q)
    (hput : Storage.put now.directory.store identifier (entryOf records value signature p) = .ok store) :
    Agrees contents first config ⟨now.directory.afterwards identifier q store, waiting, now.happened ++
      [(now.directory.partitionFor identifier,
        .published identifier value signature p.nextPosition)]⟩ := by
  have hsize : (now.directory.afterwards identifier q store).partitions.size =
      now.directory.partitions.size := size_setPartition
  have hnew := hlicence.fits h.waits
  have hwaits : ∀ request ∈ waiting, request.value.length < UInt64.size := fun request hmem =>
    h.waits request (hsub.subset hmem)
  refine ⟨hsize.trans h.size, ?_, ?_, hwaits⟩
  · obtain ⟨next, hnext, hreflects⟩ := (h.reflects _ p hmade.partition).append identifier value signature
    cases hmade.append.symm.trans hnext
    exact h.reflects_of_happened hmade.partition hreflects rfl rfl
  · intro other before hbefore hroom
    rw [List.length_append, List.length_singleton] at hroom
    have hstored := h.stored other before hbefore (by omega)
    by_cases hsame : other = identifier
    · subst hsame
      obtain rfl := Option.some.inj
        (hstored.symm.trans (Storage.Contents.records?_eq_some hmade.records))
      rw [Service.recordsOf_published hsize rfl]
      have hlength := now.length_recordsOf_le other
      have hcount : (now.recordsOf other ++ before).length + 1 < UInt64.size := by
        rw [List.length_append]
        omega
      exact records?_entryOf hmade.records hput hnew hcount
    · rw [Service.recordsOf_published_of_ne hsize rfl hsame]
      exact (Storage.Contents.records?_put_of_ne hput hsame).trans hstored

theorem moved (h : Agrees contents first config now) {index : Nat} {event : Partition.Event}
    {p q : Partition} (hends : event = .sealed ∨ event = .advanced)
    (hpartition : now.directory.partitions[index]? = some p)
    (hperform : p.perform event.operation = .ok (q, event)) :
    Agrees contents first config
      ⟨now.directory.setPartition index q, now.waiting, now.happened ++ [(index, event)]⟩ := by
  have hsize : (now.directory.setPartition index q).partitions.size = now.directory.partitions.size :=
    size_setPartition
  refine ⟨hsize.trans h.size, ?_, ?_, h.waits⟩
  · rcases (h.reflects index p hpartition).perform event.operation with
      ⟨e, hrefused, -⟩ | ⟨next, event', hnext, -, hreflects⟩
    · cases hperform.symm.trans hrefused
    · cases hperform.symm.trans hnext
      exact h.reflects_of_happened hpartition hreflects rfl rfl
  · intro other before hbefore hroom
    rw [List.length_append, List.length_singleton] at hroom
    rw [Service.recordsOf_of_ends hsize rfl hends]
    exact h.stored other before hbefore (by omega)

/-- **Every step keeps the accounts the same.** -/
theorem leads (hstore : Storage.NeverFails σ) (h : Agrees contents first config now)
    (hleads : Leads scheme now next) :
    Agrees contents first config next := by
  cases hleads with
  | idle hsub => exact h.rest fun request hmem => h.waits request (hsub.subset hmem)
  | read hfits hkey =>
    apply h.rest
    intro request hmem
    rcases List.mem_append.1 hmem with hmem | hmem
    · exact h.waits request hmem
    · obtain rfl := List.mem_singleton.1 hmem
      exact hfits
  | published hsub hlicence hmade hput => exact h.published hsub hlicence hmade hput
  | unstored hsub hmade hput =>
    obtain ⟨store, hok⟩ := hstore.put _ _ _
    cases hput.symm.trans hok
  | moved hends hpartition hperform => exact h.moved hends hpartition hperform

end Agrees

omit [Storage σ] in
/-- A new directory is on the store that it is given. -/
theorem store_of_new {store : σ} {dir : Directory σ} (h : Directory.new config store = .ok dir) :
    dir.store = store := by
  obtain ⟨-, h⟩ := then_eq_ok_iff.1 h
  obtain ⟨p, -, h⟩ := bind_eq_ok_iff.1 h
  cases h
  rfl

/-- A new directory has its partitions, and they have seen nothing. -/
theorem agrees_start (contents : Storage.Contents σ) {store : σ} {dir : Directory σ}
    (h : Directory.new config store = .ok dir) :
    0 < config.partitions ∧ Agrees contents store config (Service.start dir) := by
  obtain ⟨hvalid, h⟩ := then_eq_ok_iff.1 h
  obtain ⟨p, hp, h⟩ := bind_eq_ok_iff.1 h
  cases h
  have hpositive : 0 < config.partitions := by
    unfold Config.validate at hvalid
    split at hvalid
    · cases hvalid
    · omega
  obtain ⟨new, hnew, hreflects⟩ := Partition.create_reflects config.aggregatedHistory config.historyDepth
  cases hp.symm.trans hnew
  refine ⟨hpositive, Array.size_replicate, ?_, ?_, ?_⟩
  · intro index partition hget
    obtain ⟨hindex, hget⟩ := Array.getElem?_eq_some_iff.1 hget
    have hsame : p = partition := (Array.getElem_replicate _).symm.trans hget
    exact hsame ▸ hreflects
  · intro identifier before hbefore _
    exact hbefore
  · intro request hmem
    cases hmem

/-- **The accounts are the same after every run.** -/
theorem agrees_run (scheme : SignatureScheme) (contents : Storage.Contents σ)
    (hstore : Storage.NeverFails σ) {store : σ} {dir : Directory σ}
    (hnew : Directory.new config store = .ok dir) {steps : List Step} (hfits : Fits steps) :
    Agrees contents store config ((Service.start dir).run scheme steps) ∧
      ((Service.start dir).run scheme steps).happened.length ≤ steps.length := by
  obtain ⟨-, hstart⟩ := agrees_start contents hnew
  have hnone : (Service.start dir).happened.length = 0 := rfl
  have hroom : (Service.start dir).happened.length + steps.length < UInt64.size := by
    rw [hnone, Nat.zero_add]
    exact hfits.length
  obtain ⟨hagrees, hlength⟩ := Service.run_induction hfits hroom hstart
    fun before after h _ hleads => h.leads hstore hleads
  rw [hnone, Nat.zero_add] at hlength
  exact ⟨hagrees, hlength⟩

/-! ## What the accounts say -/

namespace Agrees

/-- The positions answered at a partition count up to its next one. -/
theorem positionsAt_eq (h : Agrees contents first config now)
    (hroom : now.happened.length < UInt64.size) {index : Nat} {p : Partition}
    (hp : now.directory.partitions[index]? = some p) :
    now.positionsAt index = (List.range p.nextPosition.toNat).map UInt64.ofNat := by
  have hreflects := h.reflects index p hp
  have hlength : (now.ledgerAt index).publications.length < UInt64.size :=
    Nat.lt_of_le_of_lt (now.length_publications_le index) hroom
  have hnext : p.nextPosition.toNat = (now.ledgerAt index).publications.length := by
    rw [hreflects.nextPosition]
    exact UInt64.toNat_ofNat_of_lt' hlength
  rw [hnext, Service.positionsAt, ← Ledger.map_position_ofEvents]
  exact hreflects.consistent.map_position

/-- The partition that an identifier belongs to is there. -/
theorem exists_partition (h : Agrees contents first config now) (hpositive : 0 < config.partitions)
    (identifier : Bytes) :
    ∃ p, now.directory.partitions[now.directory.partitionFor identifier]? = some p := by
  have hlt : now.directory.partitionFor identifier < now.directory.partitions.size :=
    partitionFor_lt (h.size.symm ▸ hpositive)
  exact ⟨_, Array.getElem?_eq_getElem hlt⟩

/-- **What is stored is what is committed to.** -/
theorem lookup_eq (h : Agrees contents first config now) {identifier : Bytes}
    (hunmatched : now.Unmatched identifier) {p : Partition}
    (hp : now.directory.partitions[now.directory.partitionFor identifier]? = some p) :
    p.base.lookup (Bits.ofIdentifier identifier) p.base.epoch =
      .ok (if now.recordsOf identifier = [] then none
        else some ((now.recordsOf identifier).reverse.map (·.entry identifier))) := by
  have hreflects := h.reflects _ p hp
  have hentries := Service.entriesUnder_snapshot (now.directory.partitionFor identifier) hunmatched
    hreflects.consistent.period_le
  have hkey := Bits.isKey_ofIdentifier identifier
  rw [hreflects.epoch, hreflects.lookup_eq hkey (Nat.le_refl _), held?, hentries,
    ← Service.ledgerOf, ← Service.map_entry_recordsOf]
  simp only [List.map_eq_nil_iff, List.reverse_eq_nil_iff]

end Agrees

/-- **Store, positions and tries agree.**  On a store that never fails, after every run of requests whose
turns come in whatever order: the requests at a partition have been answered the positions from zero up
to its next one; a registration or an append that fails changes neither store nor partitions; and under
every identifier, if no other identifier in use has its hash, the records in front of those that the
store began with, oldest first, have the entries that the base trie holds.  An append with nothing in
between, and the end of an epoch at all partitions, are runs of such steps too. -/
theorem stored_as_committed_to (scheme : SignatureScheme) (contents : Storage.Contents σ)
    (hstore : Storage.NeverFails σ) {config : Config} {store : σ} {dir : Directory σ}
    (hnew : Directory.new config store = .ok dir) {steps : List Step} (hfits : Fits steps) :
    let now := (Service.start dir).run scheme steps
    (∀ index p, now.directory.partitions[index]? = some p →
      now.positionsAt index = (List.range p.nextPosition.toNat).map UInt64.ofNat) ∧
    (∀ username masterKey signature left e,
      now.directory.register scheme username masterKey signature = (left, .error e) →
        left = now.directory) ∧
    (∀ username value sign left e,
      now.directory.append scheme username value sign = (left, .error e) → left = now.directory) ∧
    (∀ verifyingKey username value sign left e,
      now.directory.publish scheme verifyingKey username value sign = (left, .error e) →
        left = now.directory) ∧
    (∀ identifier before, contents.records? store identifier = some before →
      before.length + steps.length < UInt64.size → now.Unmatched identifier →
        ∃ p records, now.directory.partitionOf identifier = .ok p ∧
          Storage.records now.directory.store identifier = .ok (records ++ before) ∧
          p.base.lookup (Bits.ofIdentifier identifier) p.base.epoch =
            .ok (if records = [] then none else some (records.reverse.map (·.entry identifier)))) ∧
    (∀ username value sign, (now.directory.append scheme username value sign).1 =
      (now.run scheme [.readKey username value sign, .publish now.waiting.length]).directory) ∧
    (∃ first, first <+: List.range now.directory.partitions.size ∧
      now.directory.sealUpdates.1 = (now.run scheme (first.map .sealUpdates)).directory) ∧
    ∃ first, first <+: List.range now.directory.partitions.size ∧
      now.directory.advance.1 = (now.run scheme (first.map .advance)).directory := by
  intro now
  obtain ⟨hpositive, -⟩ := agrees_start contents hnew
  obtain ⟨h, hlength⟩ := agrees_run scheme contents hstore hnew hfits
  have hroom : now.happened.length < UInt64.size := Nat.lt_of_le_of_lt hlength hfits.length
  refine ⟨?_, ?_, ?_, ?_, ?_, now.append_eq_run, now.sealUpdates_eq_run, now.advance_eq_run⟩
  · intro index p hp
    exact h.positionsAt_eq hroom hp
  · intro username masterKey signature left e hfailed
    exact eq_of_register_error hstore hfailed
  · intro username value sign left e hfailed
    exact eq_of_append_error hstore hfailed
  · intro verifyingKey username value sign left e hfailed
    exact eq_of_publish_error hstore hfailed
  · intro identifier before hbefore hmore hunmatched
    obtain ⟨p, hp⟩ := h.exists_partition hpositive identifier
    have hstored := h.stored identifier before hbefore
      (Nat.lt_of_le_of_lt (Nat.add_le_add_left hlength _) hmore)
    exact ⟨p, now.recordsOf identifier, partitionOf_eq_ok_iff.2 hp,
      Storage.Contents.records_eq_ok hstore hstored, h.lookup_eq hunmatched hp⟩

omit [Storage σ] in
/-- A directory can be made with every valid configuration. -/
theorem exists_new (config : Config) (hvalid : config.validate = .ok ()) (store : σ) :
    ∃ dir, Directory.new config store = .ok dir := by
  obtain ⟨p, hp, -⟩ := Partition.create_reflects config.aggregatedHistory config.historyDepth
  exact ⟨_, then_eq_ok_iff.2 ⟨hvalid, bind_eq_ok_iff.2 ⟨p, hp, rfl⟩⟩⟩

end

/-! ## Two requests -/

namespace Shown

open Owner

def scheme : SignatureScheme := Ed25519.scheme.toSignatureScheme

/-- One partition, and a store in memory. -/
def dir : Directory MemoryStore :=
  (Directory.new .default MemoryStore.empty).toOption.getD ⟨#[], .empty⟩

/-- A user registers and publishes a key, and the update epoch ends. -/
def steps : List Step :=
  [.register [1] key keySignature, .readKey [1] [3] fun _ => secondSignature, .publish 0, .sealUpdates 0]

def last : Service MemoryStore := (Service.start dir).run scheme steps

theorem new_eq_dir : Directory.new .default MemoryStore.empty = .ok dir := by
  obtain ⟨made, hmade⟩ := exists_new .default rfl MemoryStore.empty
  rw [dir, hmade]
  rfl

theorem fits_steps : Fits steps where
  length := by decide
  value username value sign hmem := by
    simp only [steps, List.mem_cons, List.not_mem_nil, Step.readKey.injEq, reduceCtorEq, or_false,
      false_or] at hmem
    rw [hmem.2.1]
    decide

/-- Both requests went through. -/
theorem happened_last : last.happened =
    [(0, .published (masterKeyIdentifier [1]) key keySignature 0),
      (0, .published (publicKeyIdentifier [1]) [3] secondSignature 1), (0, .sealed)] := by
  decide +kernel

theorem unmatched_last : last.Unmatched (publicKeyIdentifier [1]) := by
  have hinUse : last.inUse = [masterKeyIdentifier [1], publicKeyIdentifier [1]] := by
    rw [Service.inUse, happened_last]
    rfl
  unfold Service.Unmatched
  rw [hinUse]
  decide +kernel

end Shown

open Owner Shown

/-- A key and a value of one user, and then the same name again. -/
theorem stored_as_committed_to_two_values :
    Storage.NeverFails MemoryStore ∧ Directory.new .default MemoryStore.empty = .ok dir ∧ Fits steps ∧
      MemoryStore.contents.records? MemoryStore.empty (publicKeyIdentifier [1]) = some [] ∧
      last.Unmatched (publicKeyIdentifier [1]) ∧
      (∃ p, last.directory.partitions[0]? = some p ∧
        last.positionsAt 0 = (List.range p.nextPosition.toNat).map UInt64.ofNat) ∧
      (∃ e, last.directory.register scheme [1] key keySignature = (last.directory, .error e)) ∧
      ∃ p records, last.directory.partitionOf (publicKeyIdentifier [1]) = .ok p ∧
        Storage.records last.directory.store (publicKeyIdentifier [1]) = .ok (records ++ []) ∧
        p.base.lookup (Bits.ofIdentifier (publicKeyIdentifier [1])) p.base.epoch =
          .ok (if records = [] then none
            else some (records.reverse.map (·.entry (publicKeyIdentifier [1])))) := by
  obtain ⟨hpositions, hregister, -, -, hrecords, -⟩ := stored_as_committed_to scheme MemoryStore.contents
    MemoryStore.neverFails new_eq_dir fits_steps
  rw [← last] at hpositions hregister hrecords
  have hempty : MemoryStore.contents.records? MemoryStore.empty (publicKeyIdentifier [1]) = some [] := rfl
  have hpartition : last.directory.partitions[0]?.isSome = true := by decide +kernel
  have hagain : (last.directory.register scheme [1] key keySignature).2 =
      .error (.alreadyRegistered (Utf8.decodeLossy [1])) := by
    decide +kernel
  obtain ⟨p, hp⟩ := Option.isSome_iff_exists.1 hpartition
  have hfailed : last.directory.register scheme [1] key keySignature =
      ((last.directory.register scheme [1] key keySignature).1,
        .error (.alreadyRegistered (Utf8.decodeLossy [1]))) := by
    rw [← hagain]
  have hsame := hregister [1] key keySignature _ _ hfailed
  rw [hsame] at hfailed
  exact ⟨MemoryStore.neverFails, new_eq_dir, fits_steps, hempty, unmatched_last,
    ⟨p, hp, hpositions 0 p hp⟩, ⟨_, hfailed⟩, hrecords _ [] hempty (by decide) unmatched_last⟩

end Directory

end KeyTransparency
