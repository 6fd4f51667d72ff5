import KeyTransparency.Directory
import KeyTransparency.Proofs.Partition.Run
import KeyTransparency.Proofs.Storage.Contents

/-!
# Runs of a directory

Requests come together.  A registration holds its partition from its first read to its write; an append
reads the master key first and takes its turn at the partition later, so that anything may happen in
between.  A run takes such steps in any order and lists what went through, by partition.  Everything
that a step can do is one of five things (`Leads`, `leads_take`): nothing, a key read, a value published
and stored, a value published that the store refused, an epoch ended.

The operations of a directory are runs: `append` is its two steps one right after the other
(`append_eq_run`), and the end of an epoch is that of the partitions in turn (`stepAll_eq_run`).
-/

namespace KeyTransparency

/-- The position answered is the next one. -/
theorem Partition.position_of_append {p next : Partition} {identifier value signature : Bytes}
    {position : UInt64} (h : p.append identifier value signature = .ok (next, position)) :
    position = p.nextPosition := by
  unfold append at h
  dsimp only at h
  split at h
  · cases h
  · cases h
    rfl

namespace Directory

/-! ## Steps -/

/-- An append that has read the master key and waits for its turn. -/
structure Request where
  username : Bytes
  value : Bytes
  sign : UInt64 → Bytes
  verifyingKey : Bytes

inductive Step
  | register (username masterKey signature : Bytes)
  /-- An append reads the master key. -/
  | readKey (username value : Bytes) (sign : UInt64 → Bytes)
  /-- One of the appends that wait takes its turn. -/
  | publish (turn : Nat)
  | sealUpdates (index : Nat)
  | advance (index : Nat)

/-- A directory at work. -/
structure Service (σ : Type) where
  directory : Directory σ
  waiting : List Request
  /-- What went through, each event with its partition, oldest first. -/
  happened : List (Nat × Partition.Event)

namespace Service

variable {σ : Type}

/-- Nothing has been asked for yet. -/
def start (directory : Directory σ) : Service σ := ⟨directory, [], []⟩

/-- What a publication leaves behind, and who waits after it. -/
def answered (now : Service σ) (waiting : List Request) (identifier value : Bytes)
    (sign : UInt64 → Bytes) : Directory σ × Except Error UInt64 → Service σ
  | (directory, .error _) => ⟨directory, waiting, now.happened⟩
  | (directory, .ok position) =>
    ⟨directory, waiting, now.happened ++
      [(now.directory.partitionFor identifier, .published identifier value (sign position) position)]⟩

/-- What the end of an epoch leaves behind. -/
def moved (now : Service σ) (index : Nat) (event : Partition.Event) :
    Except Error (Directory σ) → Service σ
  | .error _ => now
  | .ok directory => ⟨directory, now.waiting, now.happened ++ [(index, event)]⟩

variable [Storage σ]

def take (scheme : SignatureScheme) (now : Service σ) : Step → Service σ
  | .register username masterKey signature =>
    now.answered now.waiting (masterKeyIdentifier username) masterKey (fun _ => signature)
      (now.directory.register scheme username masterKey signature)
  | .readKey username value sign =>
    match now.directory.verifyingKeyOf scheme username with
    | .error _ => now
    | .ok key => { now with waiting := now.waiting ++ [⟨username, value, sign, key⟩] }
  | .publish turn =>
    match now.waiting[turn]? with
    | none => now
    | some request =>
      now.answered (now.waiting.eraseIdx turn) (publicKeyIdentifier request.username) request.value
        request.sign
        (now.directory.publish scheme request.verifyingKey request.username request.value request.sign)
  | .sealUpdates index => now.moved index .sealed (now.directory.sealPartition index)
  | .advance index => now.moved index .advanced (now.directory.advancePartition index)

def run (scheme : SignatureScheme) (now : Service σ) (steps : List Step) : Service σ :=
  steps.foldl (take scheme) now

end Service

/-- Eight bytes hold the number of steps and the lengths of the values. -/
structure Fits (steps : List Step) : Prop where
  length : steps.length < UInt64.size
  value : ∀ username value sign, Step.readKey username value sign ∈ steps → value.length < UInt64.size

theorem Fits.of_append {steps more : List Step} (h : Fits (steps ++ more)) : Fits steps ∧ Fits more := by
  have hlength := h.length
  rw [List.length_append] at hlength
  constructor
  · exact ⟨by omega, fun username value sign hmem =>
      h.value username value sign (List.mem_append_left _ hmem)⟩
  · exact ⟨by omega, fun username value sign hmem =>
      h.value username value sign (List.mem_append_right _ hmem)⟩

/-! ## Partitions -/

section

variable {σ : Type} {dir : Directory σ} {p : Partition} {index : Nat} {identifier : Bytes}

theorem partitionAt_eq_ok_iff : dir.partitionAt index = .ok p ↔ dir.partitions[index]? = some p := by
  unfold partitionAt
  cases dir.partitions[index]? <;> simp

theorem partitionOf_eq_ok_iff :
    dir.partitionOf identifier = .ok p ↔ dir.partitions[dir.partitionFor identifier]? = some p :=
  partitionAt_eq_ok_iff

theorem partitionFor_lt (h : 0 < dir.partitions.size) :
    dir.partitionFor identifier < dir.partitions.size := Nat.mod_lt _ h

/-- Identifiers are spread by the number of partitions alone. -/
theorem partitionFor_congr {other : Directory σ} (h : other.partitions.size = dir.partitions.size) :
    other.partitionFor identifier = dir.partitionFor identifier := by
  rw [partitionFor, partitionFor, h]

@[simp] theorem size_setPartition : (dir.setPartition index p).partitions.size = dir.partitions.size := by
  simp [setPartition]

theorem getElem?_setPartition {i : Nat} {old : Partition} (h : dir.partitions[index]? = some old) :
    (dir.setPartition index p).partitions[i]? = if index = i then some p else dir.partitions[i]? := by
  obtain ⟨hindex, -⟩ := Array.getElem?_eq_some_iff.1 h
  rw [setPartition, Array.getElem?_setIfInBounds, if_pos hindex]

theorem stepPartition_eq_ok_iff {step : Partition → Except Error Partition} {index : Nat}
    {next : Directory σ} : stepPartition step dir index = .ok next ↔
      ∃ p q, dir.partitions[index]? = some p ∧ step p = .ok q ∧ next = dir.setPartition index q := by
  unfold stepPartition
  constructor
  · intro h
    obtain ⟨p, hp, h⟩ := bind_eq_ok_iff.1 h
    obtain ⟨q, hq, h⟩ := bind_eq_ok_iff.1 h
    cases h
    exact ⟨p, q, partitionAt_eq_ok_iff.1 hp, hq, rfl⟩
  · rintro ⟨p, q, hp, hq, rfl⟩
    exact bind_eq_ok_iff.2 ⟨p, partitionAt_eq_ok_iff.2 hp, bind_eq_ok_iff.2 ⟨q, hq, rfl⟩⟩

end

/-! ## What a request that goes through has done -/

section

variable {σ : Type} [Storage σ] {dir : Directory σ}

/-- A publication with all that it rests on, but for the write to the store. -/
structure Publishes (dir : Directory σ) (identifier : Bytes) (records : List ValueRecord)
    (value signature : Bytes) (p next : Partition) : Prop where
  partition : dir.partitions[dir.partitionFor identifier]? = some p
  append : p.append identifier value signature = .ok (next, p.nextPosition)
  records : Storage.records dir.store identifier = .ok records

/-- What is written to the store. -/
def entryOf (records : List ValueRecord) (value signature : Bytes) (p : Partition) : Bytes :=
  ValueRecord.encodeList (⟨p.nextPosition, value, signature⟩ :: records)

/-- A publication that is stored leaves a list that begins with it. -/
theorem records?_entryOf {identifier value signature : Bytes} {records : List ValueRecord}
    {p : Partition} {store next : σ} {contents : Storage.Contents σ}
    (hrecords : Storage.records store identifier = .ok records)
    (hput : Storage.put store identifier (entryOf records value signature p) = .ok next)
    (hnew : ValueRecord.Fits ⟨p.nextPosition, value, signature⟩)
    (hlength : records.length + 1 < UInt64.size) :
    contents.records? next identifier = some (⟨p.nextPosition, value, signature⟩ :: records) := by
  have hbefore : contents.records? store identifier = some records :=
    Storage.Contents.records?_eq_some hrecords
  apply Storage.Contents.records?_put_self hput hlength
  exact List.forall_mem_cons.2 ⟨hnew, Storage.Contents.fits_of_records? hbefore⟩

/-- The directory after a publication that the store takes. -/
def afterwards (dir : Directory σ) (identifier : Bytes) (next : Partition) (store : σ) : Directory σ :=
  { dir.setPartition (dir.partitionFor identifier) next with store }

theorem commit_cases {identifier : Bytes} {records : List ValueRecord} {value signature : Bytes}
    (hrecords : Storage.records dir.store identifier = .ok records) :
    (∃ e, dir.commit identifier records value signature = (dir, .error e)) ∨
      ∃ p next, Publishes dir identifier records value signature p next ∧
        ((∃ e, Storage.put dir.store identifier (entryOf records value signature p) = .error e ∧
            dir.commit identifier records value signature =
              (dir.setPartition (dir.partitionFor identifier) next, .error e)) ∨
          ∃ store, Storage.put dir.store identifier (entryOf records value signature p) = .ok store ∧
            dir.commit identifier records value signature =
              (dir.afterwards identifier next store, .ok p.nextPosition)) := by
  unfold commit
  cases hpartition : dir.partitionOf identifier with
  | error e => exact .inl ⟨e, rfl⟩
  | ok p =>
    dsimp only
    cases happend : p.append identifier value signature with
    | error e => exact .inl ⟨e, rfl⟩
    | ok appended =>
      obtain ⟨next, position⟩ := appended
      obtain rfl := Partition.position_of_append happend
      right
      refine ⟨p, next, ⟨partitionOf_eq_ok_iff.1 hpartition, happend, hrecords⟩, ?_⟩
      have hstore : (dir.setPartition (dir.partitionFor identifier) next).store = dir.store := rfl
      have hdata : ValueRecord.encodeList (⟨p.nextPosition, value, signature⟩ :: records) =
          entryOf records value signature p := rfl
      dsimp only
      rw [hstore, hdata]
      cases Storage.put dir.store identifier (entryOf records value signature p) with
      | error e => exact .inl ⟨e, rfl, rfl⟩
      | ok store => exact .inr ⟨store, rfl, rfl⟩

/-- A registration is refused and changes nothing, or the name is new and the key signs itself. -/
theorem register_cases (scheme : SignatureScheme) (dir : Directory σ)
    (username masterKey signature : Bytes) :
    (∃ e, dir.register scheme username masterKey signature = (dir, .error e)) ∨
      Storage.records dir.store (masterKeyIdentifier username) = .ok [] ∧
        scheme.checkKey masterKey = .ok () ∧ scheme.verify masterKey masterKey signature = .ok () ∧
        dir.register scheme username masterKey signature =
          dir.commit (masterKeyIdentifier username) [] masterKey signature := by
  unfold register
  dsimp only
  split
  · next e _ => exact .inl ⟨e, rfl⟩
  · next hadmission =>
    right
    obtain ⟨records, hrecords, hadmission⟩ := bind_eq_ok_iff.1 hadmission
    obtain ⟨hnew, hadmission⟩ := check_eq_ok_iff.1 hadmission
    obtain ⟨position, -, hadmission⟩ := bind_eq_ok_iff.1 hadmission
    obtain ⟨claim, hclaim, hsigned⟩ := bind_eq_ok_iff.1 hadmission
    obtain ⟨hkey, hclaim⟩ := then_eq_ok_iff.1 hclaim
    cases hclaim
    rw [not_not] at hnew
    exact ⟨hnew ▸ hrecords, hkey, hsigned, rfl⟩

/-- A publication is refused and changes nothing, or the owner has signed for the position it takes. -/
theorem publish_cases (scheme : SignatureScheme) (dir : Directory σ)
    (verifyingKey username value : Bytes) (sign : UInt64 → Bytes) :
    (∃ e, dir.publish scheme verifyingKey username value sign = (dir, .error e)) ∨
      ∃ p records, dir.partitions[dir.partitionFor (publicKeyIdentifier username)]? = some p ∧
        Storage.records dir.store (publicKeyIdentifier username) = .ok records ∧
        scheme.verify verifyingKey (signedPayload value p.nextPosition) (sign p.nextPosition) = .ok () ∧
        dir.publish scheme verifyingKey username value sign =
          dir.commit (publicKeyIdentifier username) records value (sign p.nextPosition) := by
  unfold publish
  dsimp only
  split
  · next e _ => exact .inl ⟨e, rfl⟩
  · next records signature hadmission =>
    right
    obtain ⟨position, hposition, hadmission⟩ := bind_eq_ok_iff.1 hadmission
    obtain ⟨hsigned, hadmission⟩ := then_eq_ok_iff.1 hadmission
    obtain ⟨found, hfound, hadmission⟩ := bind_eq_ok_iff.1 hadmission
    cases hadmission
    unfold nextPosition at hposition
    cases hpartition : dir.partitionOf (publicKeyIdentifier username) with
    | error e =>
      rw [hpartition] at hposition
      cases hposition
    | ok p =>
      rw [hpartition] at hposition
      cases hposition
      exact ⟨p, _, partitionOf_eq_ok_iff.1 hpartition, hfound, hsigned, rfl⟩

/-! ### On a store that never fails -/

theorem eq_of_commit_error (hstore : Storage.NeverFails σ) {identifier : Bytes}
    {records : List ValueRecord} {value signature : Bytes}
    (hrecords : Storage.records dir.store identifier = .ok records) {left : Directory σ} {e : Error}
    (h : dir.commit identifier records value signature = (left, .error e)) : left = dir := by
  rcases commit_cases hrecords with ⟨e', hcommit⟩ | ⟨p, next, -, ⟨e', hput, -⟩ | ⟨store, -, hcommit⟩⟩
  · exact (congrArg Prod.fst (hcommit.symm.trans h)).symm
  · obtain ⟨store, hok⟩ := hstore.put dir.store identifier (entryOf records value signature p)
    cases hput.symm.trans hok
  · cases hcommit.symm.trans h

/-- A registration that fails changes nothing. -/
theorem eq_of_register_error (hstore : Storage.NeverFails σ) {scheme : SignatureScheme}
    {username masterKey signature : Bytes} {left : Directory σ} {e : Error}
    (h : dir.register scheme username masterKey signature = (left, .error e)) : left = dir := by
  rcases register_cases scheme dir username masterKey signature with
    ⟨e', hrefused⟩ | ⟨hnew, -, -, hcommit⟩
  · exact (congrArg Prod.fst (hrefused.symm.trans h)).symm
  · exact eq_of_commit_error hstore hnew (hcommit.symm.trans h)

theorem eq_of_publish_error (hstore : Storage.NeverFails σ) {scheme : SignatureScheme}
    {verifyingKey username value : Bytes} {sign : UInt64 → Bytes} {left : Directory σ} {e : Error}
    (h : dir.publish scheme verifyingKey username value sign = (left, .error e)) : left = dir := by
  rcases publish_cases scheme dir verifyingKey username value sign with
    ⟨e', hrefused⟩ | ⟨p, records, -, hrecords, -, hcommit⟩
  · exact (congrArg Prod.fst (hrefused.symm.trans h)).symm
  · exact eq_of_commit_error hstore hrecords (hcommit.symm.trans h)

/-- An append that fails changes nothing. -/
theorem eq_of_append_error (hstore : Storage.NeverFails σ) {scheme : SignatureScheme}
    {username value : Bytes} {sign : UInt64 → Bytes} {left : Directory σ} {e : Error}
    (h : dir.append scheme username value sign = (left, .error e)) : left = dir := by
  unfold append at h
  split at h
  · exact (congrArg Prod.fst h).symm
  · exact eq_of_publish_error hstore h

end

/-! ## What a step can do -/

section

variable {σ : Type} [Storage σ]

/-- Why something may be published: a key that signs itself under a name without one, or an owner's
signature for the position under the key that was read. -/
inductive Licence (scheme : SignatureScheme) (waiting : List Request) :
    (identifier : Bytes) → List ValueRecord → (value signature : Bytes) → UInt64 → Prop
  | master (username : Bytes) {masterKey signature : Bytes} (position : UInt64)
      (key : scheme.checkKey masterKey = .ok ())
      (signed : scheme.verify masterKey masterKey signature = .ok ()) :
      Licence scheme waiting (masterKeyIdentifier username) [] masterKey signature position
  | owner {request : Request} (records : List ValueRecord) {position : UInt64}
      (waits : request ∈ waiting)
      (signed : scheme.verify request.verifyingKey (signedPayload request.value position)
        (request.sign position) = .ok ()) :
      Licence scheme waiting (publicKeyIdentifier request.username) records request.value
        (request.sign position) position

/-- **What a step can do.** -/
inductive Leads (scheme : SignatureScheme) (now : Service σ) : Service σ → Prop
  | idle {waiting : List Request} (sub : waiting.Sublist now.waiting) :
      Leads scheme now { now with waiting }
  | read {request : Request} (fits : request.value.length < UInt64.size)
      (key : now.directory.verifyingKeyOf scheme request.username = .ok request.verifyingKey) :
      Leads scheme now { now with waiting := now.waiting ++ [request] }
  | published {waiting : List Request} {identifier value signature : Bytes}
      {records : List ValueRecord} {p next : Partition} {store : σ}
      (sub : waiting.Sublist now.waiting)
      (licence : Licence scheme now.waiting identifier records value signature p.nextPosition)
      (made : Publishes now.directory identifier records value signature p next)
      (put : Storage.put now.directory.store identifier (entryOf records value signature p) = .ok store) :
      Leads scheme now ⟨now.directory.afterwards identifier next store, waiting, now.happened ++
        [(now.directory.partitionFor identifier,
          .published identifier value signature p.nextPosition)]⟩
  | unstored {waiting : List Request} {identifier value signature : Bytes}
      {records : List ValueRecord} {p next : Partition} {e : Error}
      (sub : waiting.Sublist now.waiting)
      (made : Publishes now.directory identifier records value signature p next)
      (put : Storage.put now.directory.store identifier (entryOf records value signature p) = .error e) :
      Leads scheme now ⟨now.directory.setPartition (now.directory.partitionFor identifier) next,
        waiting, now.happened⟩
  | moved {index : Nat} {event : Partition.Event} {p next : Partition}
      (ends : event = .sealed ∨ event = .advanced)
      (partition : now.directory.partitions[index]? = some p)
      (performed : p.perform event.operation = .ok (next, event)) :
      Leads scheme now ⟨now.directory.setPartition index next, now.waiting,
        now.happened ++ [(index, event)]⟩

namespace Service

variable {scheme : SignatureScheme} {now : Service σ}

/-- A licensed publication is stored, or refused by the store, or has not begun. -/
theorem leads_answered {waiting : List Request} {identifier value signature : Bytes}
    {records : List ValueRecord} {sign : UInt64 → Bytes} (hsub : waiting.Sublist now.waiting)
    (hrecords : Storage.records now.directory.store identifier = .ok records)
    (hlicence : ∀ p, now.directory.partitions[now.directory.partitionFor identifier]? = some p →
      sign p.nextPosition = signature ∧
        Licence scheme now.waiting identifier records value signature p.nextPosition) :
    Leads scheme now (now.answered waiting identifier value sign
      (now.directory.commit identifier records value signature)) := by
  rcases commit_cases hrecords with ⟨e, hcommit⟩ | ⟨p, next, hmade, hwritten⟩
  · rw [hcommit]
    exact .idle hsub
  · obtain ⟨rfl, hlicence⟩ := hlicence p hmade.partition
    rcases hwritten with ⟨e, hput, hcommit⟩ | ⟨store, hput, hcommit⟩
    · rw [hcommit]
      exact .unstored hsub hmade hput
    · rw [hcommit]
      exact .published hsub hlicence hmade hput

theorem leads_register (username masterKey signature : Bytes) :
    Leads scheme now (now.take scheme (.register username masterKey signature)) := by
  rw [take]
  rcases register_cases scheme now.directory username masterKey signature with
    ⟨e, hrefused⟩ | ⟨hnew, hkey, hsigned, hcommit⟩
  · rw [hrefused]
    exact .idle (List.Sublist.refl _)
  · rw [hcommit]
    apply leads_answered (List.Sublist.refl _) hnew
    intro p _
    exact ⟨rfl, .master username p.nextPosition hkey hsigned⟩

theorem leads_readKey {username value : Bytes} (sign : UInt64 → Bytes)
    (hfits : value.length < UInt64.size) :
    Leads scheme now (now.take scheme (.readKey username value sign)) := by
  rw [take]
  split
  · exact .idle (List.Sublist.refl _)
  · next key hkey => exact .read hfits hkey

theorem leads_publish (turn : Nat) : Leads scheme now (now.take scheme (.publish turn)) := by
  rw [take]
  split
  · exact .idle (List.Sublist.refl _)
  · next request hturn =>
    have hsub := List.eraseIdx_sublist now.waiting turn
    have hwaits := List.mem_of_getElem? hturn
    rcases publish_cases scheme now.directory request.verifyingKey request.username request.value
      request.sign with ⟨e, hrefused⟩ | ⟨p, records, hp, hrecords, hsigned, hcommit⟩
    · rw [hrefused]
      exact .idle hsub
    · rw [hcommit]
      apply leads_answered hsub hrecords
      intro q hq
      cases hp.symm.trans hq
      exact ⟨rfl, .owner records hwaits hsigned⟩

theorem leads_moved {step : Partition → Except Error Partition} {event : Partition.Event} (index : Nat)
    (hends : event = .sealed ∨ event = .advanced)
    (hperform : ∀ p q : Partition, step p = .ok q → p.perform event.operation = .ok (q, event)) :
    Leads scheme now (now.moved index event (stepPartition step now.directory index)) := by
  cases hstep : stepPartition step now.directory index with
  | error e => exact .idle (List.Sublist.refl _)
  | ok next =>
    obtain ⟨p, q, hp, hq, rfl⟩ := stepPartition_eq_ok_iff.1 hstep
    exact .moved hends hp (hperform p q hq)

/-- Every step does one of these things. -/
theorem leads_take (step : Step) (hfits : ∀ username value sign,
    step = .readKey username value sign → value.length < UInt64.size) :
    Leads scheme now (now.take scheme step) := by
  cases step with
  | register username masterKey signature => exact leads_register username masterKey signature
  | readKey username value sign => exact leads_readKey sign (hfits username value sign rfl)
  | publish turn => exact leads_publish turn
  | sealUpdates index =>
    apply leads_moved index (.inl rfl)
    intro p q hq
    exact bind_eq_ok_iff.2 ⟨q, hq, rfl⟩
  | advance index =>
    apply leads_moved index (.inr rfl)
    intro p q hq
    exact bind_eq_ok_iff.2 ⟨q, hq, rfl⟩

/-! ## Runs -/

/-- One event at most goes through in a step. -/
theorem length_happened_le {next : Service σ} (h : Leads scheme now next) :
    next.happened.length ≤ now.happened.length + 1 := by
  cases h <;> simp

theorem le_length_happened {next : Service σ} (h : Leads scheme now next) :
    now.happened.length ≤ next.happened.length := by
  cases h <;> simp

/-- **What steps keep, runs keep**: whatever holds at the beginning, and after a step that fits if it held
before, holds in the end. -/
theorem run_induction {P : Service σ → Prop} {steps : List Step} (hfits : Fits steps)
    (hroom : now.happened.length + steps.length < UInt64.size) (hstart : P now)
    (hstep : ∀ before after, P before → before.happened.length + 1 < UInt64.size →
      Leads scheme before after → P after) :
    P (now.run scheme steps) ∧
      (now.run scheme steps).happened.length ≤ now.happened.length + steps.length := by
  induction steps using List.reverseRecOn with
  | nil => exact ⟨hstart, Nat.le_refl _⟩
  | append_singleton steps step ih =>
    rw [List.length_append, List.length_singleton] at hroom
    obtain ⟨hholds, hlength⟩ := ih hfits.of_append.1 (by omega)
    have hleads : Leads scheme (now.run scheme steps) ((now.run scheme steps).take scheme step) := by
      apply leads_take
      rintro username value sign rfl
      exact hfits.value username value sign (List.mem_append_right _ List.mem_cons_self)
    have hmore := length_happened_le hleads
    have hrun : now.run scheme (steps ++ [step]) = (now.run scheme steps).take scheme step := by
      rw [run, List.foldl_append]
      rfl
    rw [hrun, List.length_append, List.length_singleton]
    exact ⟨hstep _ _ hholds (by omega) hleads, by omega⟩

/-! ## Whole operations -/

/-- An append is its two steps with nothing in between. -/
theorem append_eq_run (now : Service σ) (username value : Bytes) (sign : UInt64 → Bytes) :
    (now.directory.append scheme username value sign).1 =
      (now.run scheme [.readKey username value sign, .publish now.waiting.length]).directory := by
  rw [run, List.foldl_cons, List.foldl_cons, List.foldl_nil, take, append]
  cases hkey : now.directory.verifyingKeyOf scheme username with
  | error e =>
    -- no key, and nobody waits in that place
    dsimp only
    rw [take, List.getElem?_eq_none (Nat.le_refl _)]
  | ok key =>
    dsimp only
    rw [take, List.getElem?_concat_length]
    dsimp only
    cases now.directory.publish scheme key username value sign with
    | mk directory answer => cases answer <;> rfl

/-- The end of an epoch for several partitions is its end for one after the other, up to the first that
refuses. -/
theorem stepAll_eq_run {step : Directory σ → Nat → Except Error (Directory σ)} {taken : Nat → Step}
    {event : Partition.Event}
    (htaken : ∀ (now : Service σ) index,
      now.take scheme (taken index) = now.moved index event (step now.directory index))
    (now : Service σ) (indices : List Nat) :
    ∃ first, first <+: indices ∧
      (stepAll step now.directory indices).1 = (now.run scheme (first.map taken)).directory := by
  induction indices generalizing now with
  | nil => exact ⟨[], List.nil_prefix, rfl⟩
  | cons index more ih =>
    rw [stepAll]
    cases hstep : step now.directory index with
    | error e => exact ⟨[], List.nil_prefix, rfl⟩
    | ok next =>
      have hnext : (now.take scheme (taken index)).directory = next := by
        rw [htaken, hstep]
        rfl
      obtain ⟨first, hfirst, hrun⟩ := ih (now.take scheme (taken index))
      refine ⟨index :: first, List.cons_prefix_cons.2 ⟨rfl, hfirst⟩, ?_⟩
      rw [hnext] at hrun
      exact hrun

/-- The end of the update epoch, and that of the verification period, are steps of partitions. -/
theorem sealUpdates_eq_run (now : Service σ) : ∃ first, first <+: List.range now.directory.partitions.size ∧
    now.directory.sealUpdates.1 = (now.run scheme (first.map .sealUpdates)).directory :=
  stepAll_eq_run (fun _ _ => rfl) now _

theorem advance_eq_run (now : Service σ) : ∃ first, first <+: List.range now.directory.partitions.size ∧
    now.directory.advance.1 = (now.run scheme (first.map .advance)).directory :=
  stepAll_eq_run (fun _ _ => rfl) now _

end Service

end

end Directory

end KeyTransparency
