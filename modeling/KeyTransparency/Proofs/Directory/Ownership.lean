import KeyTransparency.Proofs.Directory.Agreement

/-!
# Only the owner publishes

The store has at most one master key for a user name, and that one signs itself; every public key under
the name is signed, together with its position, under it (`Owned`).  This takes nothing of the signature
scheme, the store may fail, and other names may end like an identifier.  What carries it through a run is
what the appends that wait have read: the master key of their user, which stays as it is (`Guards`).

    Owned scheme masters keys  before a run → Owned scheme masters' keys'  after it
      ∧ (masters' ≠ [] → no further step changes masters')                         (owner_publishes)
-/

namespace KeyTransparency

/-! ## Identifiers -/

/-- No identifier is of both kinds, whatever the user names end in. -/
theorem masterKeyIdentifier_ne_publicKeyIdentifier (username other : Bytes) :
    masterKeyIdentifier username ≠ publicKeyIdentifier other := by
  intro h
  have hending : Bytes.ofString "MK" = Bytes.ofString "PK" := List.append_inj_right' h (by decide +kernel)
  exact absurd hending (by decide +kernel)

theorem masterKeyIdentifier_inj {username other : Bytes} :
    masterKeyIdentifier username = masterKeyIdentifier other ↔ username = other :=
  List.append_left_inj _

theorem publicKeyIdentifier_inj {username other : Bytes} :
    publicKeyIdentifier username = publicKeyIdentifier other ↔ username = other :=
  List.append_left_inj _

namespace Directory

/-- The records of a user: no more than one master key, which signs itself, and public keys that are
signed for their positions under it. -/
structure Owned (scheme : SignatureScheme) (masters keys : List ValueRecord) : Prop where
  single : masters.length ≤ 1
  key : ∀ master ∈ masters, scheme.checkKey master.value = .ok ()
  selfSigned : ∀ master ∈ masters, scheme.verify master.value master.value master.signature = .ok ()
  signed : ∀ record ∈ keys, ∃ master ∈ masters,
    scheme.verify master.value (signedPayload record.value record.position) record.signature = .ok ()

namespace Owned

variable {scheme : SignatureScheme} {masters keys : List ValueRecord}

/-- Nothing is asked of a user without records. -/
theorem nil (scheme : SignatureScheme) : Owned scheme [] [] where
  single := Nat.zero_le 1
  key := List.forall_mem_nil _
  selfSigned := List.forall_mem_nil _
  signed := List.forall_mem_nil _

theorem keys_eq_nil (h : Owned scheme [] keys) : keys = [] := by
  apply List.eq_nil_iff_forall_not_mem.2
  intro record hmem
  obtain ⟨master, hnone, -⟩ := h.signed record hmem
  cases hnone

theorem eq_singleton (h : Owned scheme masters keys) {master : ValueRecord} (hmem : master ∈ masters) :
    masters = [master] := by
  have hlength : masters.length = 1 := Nat.le_antisymm h.single (List.length_pos_of_mem hmem)
  obtain ⟨only, rfl⟩ := List.length_eq_one_iff.1 hlength
  rw [List.mem_singleton.1 hmem]

/-- A user without a master key has nothing, and may register one. -/
theorem register (h : Owned scheme [] keys) {masterKey signature : Bytes} (position : UInt64)
    (hkey : scheme.checkKey masterKey = .ok ())
    (hsigned : scheme.verify masterKey masterKey signature = .ok ()) :
    Owned scheme [⟨position, masterKey, signature⟩] keys where
  single := Nat.le_refl 1
  key := List.forall_mem_singleton.2 hkey
  selfSigned := List.forall_mem_singleton.2 hsigned
  signed := by
    rw [h.keys_eq_nil]
    exact List.forall_mem_nil _

theorem publish (h : Owned scheme masters keys) {master record : ValueRecord} (hmaster : master ∈ masters)
    (hsigned : scheme.verify master.value (signedPayload record.value record.position)
      record.signature = .ok ()) : Owned scheme masters (record :: keys) where
  single := h.single
  key := h.key
  selfSigned := h.selfSigned
  signed := List.forall_mem_cons.2 ⟨⟨master, hmaster, hsigned⟩, h.signed⟩

end Owned

section

variable {σ : Type} [Storage σ] {contents : Storage.Contents σ} {scheme : SignatureScheme}
  {username : Bytes} {masters keys : List ValueRecord} {now next : Service σ}

/-- The key that an append reads is the newest record of the user's master key. -/
theorem verifyingKeyOf_eq_ok {dir : Directory σ} {key : Bytes}
    (h : dir.verifyingKeyOf scheme username = .ok key) : ∃ master more,
      Storage.records dir.store (masterKeyIdentifier username) = .ok (master :: more) ∧
        key = master.value := by
  obtain ⟨records, hrecords, h⟩ := bind_eq_ok_iff.1 h
  cases records with
  | nil => cases h
  | cons master more =>
    obtain ⟨-, h⟩ := then_eq_ok_iff.1 h
    cases h
    exact ⟨master, more, hrecords, rfl⟩

/-! ## The invariant -/

/-- The records of a user are the owner's, and so are the keys that the user's appends have read. -/
structure Guards (contents : Storage.Contents σ) (scheme : SignatureScheme) (username : Bytes)
    (masters keys : List ValueRecord) (now : Service σ) : Prop where
  registered : contents.records? now.directory.store (masterKeyIdentifier username) = some masters
  published : contents.records? now.directory.store (publicKeyIdentifier username) = some keys
  owned : Owned scheme masters keys
  waits : ∀ request ∈ now.waiting, request.username = username →
    ∃ master ∈ masters, request.verifyingKey = master.value
  fits : ∀ request ∈ now.waiting, request.value.length < UInt64.size

/-- From `now` to `next` the records have stayed the owner's and a master key the same, and no more public
keys have come than things have happened. -/
def Keeps (contents : Storage.Contents σ) (scheme : SignatureScheme) (username : Bytes)
    (masters keys : List ValueRecord) (now next : Service σ) : Prop :=
  ∃ masters' keys', Guards contents scheme username masters' keys' next ∧
    (masters ≠ [] → masters' = masters) ∧
    keys'.length + now.happened.length ≤ keys.length + next.happened.length

namespace Guards

/-- Nobody waits at a directory that has not been asked for anything. -/
theorem start {dir : Directory σ}
    (hmasters : contents.records? dir.store (masterKeyIdentifier username) = some masters)
    (hkeys : contents.records? dir.store (publicKeyIdentifier username) = some keys)
    (howned : Owned scheme masters keys) :
    Guards contents scheme username masters keys (Service.start dir) :=
  ⟨hmasters, hkeys, howned, List.forall_mem_nil _, List.forall_mem_nil _⟩

/-- The user's records and the appends that may wait are all that counts. -/
theorem of_same (h : Guards contents scheme username masters keys now)
    (hwaiting : next.waiting ⊆ now.waiting)
    (hmasters : contents.records? next.directory.store (masterKeyIdentifier username) =
      contents.records? now.directory.store (masterKeyIdentifier username))
    (hkeys : contents.records? next.directory.store (publicKeyIdentifier username) =
      contents.records? now.directory.store (publicKeyIdentifier username)) :
    Guards contents scheme username masters keys next where
  registered := hmasters.trans h.registered
  published := hkeys.trans h.published
  owned := h.owned
  waits request hmem := h.waits request (hwaiting hmem)
  fits request hmem := h.fits request (hwaiting hmem)

/-- An append that reads the key gets the one that is registered. -/
theorem read (h : Guards contents scheme username masters keys now) {request : Request}
    (hfits : request.value.length < UInt64.size)
    (hkey : now.directory.verifyingKeyOf scheme request.username = .ok request.verifyingKey) :
    Guards contents scheme username masters keys { now with waiting := now.waiting ++ [request] } where
  registered := h.registered
  published := h.published
  owned := h.owned
  waits := by
    intro other hmem hother
    rcases List.mem_append.1 hmem with hmem | hmem
    · exact h.waits other hmem hother
    · obtain rfl := List.mem_singleton.1 hmem
      obtain ⟨master, more, hrecords, hvalue⟩ := verifyingKeyOf_eq_ok hkey
      have hheld : contents.records? now.directory.store (masterKeyIdentifier other.username) =
        some (master :: more) := Storage.Contents.records?_eq_some hrecords
      rw [hother, h.registered] at hheld
      cases hheld
      exact ⟨master, List.mem_cons_self, hvalue⟩
  fits := by
    intro other hmem
    rcases List.mem_append.1 hmem with hmem | hmem
    · exact h.fits other hmem
    · obtain rfl := List.mem_singleton.1 hmem
      exact hfits

/-- **A licensed publication** under one of the user's identifiers is the first master key, or a public
key that the registered one has signed; any other leaves the user's records as they are. -/
theorem publish (h : Guards contents scheme username masters keys now)
    (hroom : keys.length + 1 < UInt64.size) {waiting : List Request}
    {identifier value signature : Bytes} {records : List ValueRecord} {p q : Partition} {store : σ}
    {happened : List (Nat × Partition.Event)} (hsub : waiting.Sublist now.waiting)
    (hlicence : Licence scheme now.waiting identifier records value signature p.nextPosition)
    (hrecords : Storage.records now.directory.store identifier = .ok records)
    (hput : Storage.put now.directory.store identifier (entryOf records value signature p) = .ok store) :
    ∃ masters' keys', Guards contents scheme username masters' keys'
        ⟨now.directory.afterwards identifier q store, waiting, happened⟩ ∧
      (masters ≠ [] → masters' = masters) ∧ keys'.length ≤ keys.length + 1 := by
  have hfits := hlicence.fits h.fits
  have hheld : contents.records? now.directory.store identifier = some records :=
    Storage.Contents.records?_eq_some hrecords
  have helsewhere : ∀ other, other ≠ identifier →
      contents.records? store other = contents.records? now.directory.store other := fun other hother =>
    Storage.Contents.records?_put_of_ne hput hother
  have hapart := masterKeyIdentifier_ne_publicKeyIdentifier
  cases hlicence with
  | master registered _ hkey hsigned =>
    have hkeys := helsewhere (publicKeyIdentifier username) (hapart registered username).symm
    by_cases hsame : username = registered
    · subst hsame
      obtain rfl := Option.some.inj (h.registered.symm.trans hheld)
      have hmasters : contents.records? store (masterKeyIdentifier username) = some _ :=
        records?_entryOf hrecords hput hfits (by decide)
      refine ⟨_, keys, ⟨hmasters, hkeys.trans h.published, h.owned.register _ hkey hsigned, ?_, ?_⟩,
        fun hsome => absurd rfl hsome, Nat.le_succ _⟩
      · -- nobody has read a key that was not there
        intro request hmem hrequest
        obtain ⟨master, hnone, -⟩ := h.waits request (hsub.subset hmem) hrequest
        cases hnone
      · exact fun request hmem => h.fits request (hsub.subset hmem)
    · have hmasters := helsewhere (masterKeyIdentifier username) (hsame ∘ masterKeyIdentifier_inj.1)
      exact ⟨masters, keys, h.of_same hsub.subset hmasters hkeys, fun _ => rfl, Nat.le_succ _⟩
  | @owner request _ _ hmem hsigned =>
    have hmasters := helsewhere (masterKeyIdentifier username) (hapart username request.username)
    by_cases hsame : username = request.username
    · subst hsame
      obtain rfl := Option.some.inj (h.published.symm.trans hheld)
      obtain ⟨master, hmaster, hvalue⟩ := h.waits request hmem rfl
      rw [hvalue] at hsigned
      have hkeys : contents.records? store (publicKeyIdentifier request.username) = some _ :=
        records?_entryOf hrecords hput hfits hroom
      refine ⟨masters, _, ⟨hmasters.trans h.registered, hkeys, h.owned.publish hmaster hsigned, ?_, ?_⟩,
        fun _ => rfl, Nat.le_refl _⟩
      · exact fun other hmem => h.waits other (hsub.subset hmem)
      · exact fun other hmem => h.fits other (hsub.subset hmem)
    · have hkeys := helsewhere (publicKeyIdentifier username) (hsame ∘ publicKeyIdentifier_inj.1)
      exact ⟨masters, keys, h.of_same hsub.subset hmasters hkeys, fun _ => rfl, Nat.le_succ _⟩

/-- **Every step leaves the records to their owner**, and the master key as it is. -/
theorem leads (h : Guards contents scheme username masters keys now) (hleads : Leads scheme now next)
    (hroom : keys.length + next.happened.length < UInt64.size + now.happened.length) :
    Keeps contents scheme username masters keys now next := by
  cases hleads with
  | idle hsub => exact ⟨masters, keys, h.of_same hsub.subset rfl rfl, fun _ => rfl, Nat.le_refl _⟩
  | read hfits hkey => exact ⟨masters, keys, h.read hfits hkey, fun _ => rfl, Nat.le_refl _⟩
  | published hsub hlicence hmade hput =>
    rw [List.length_append, List.length_singleton] at hroom
    obtain ⟨masters', keys', hguards, hmasters, hlength⟩ :=
      h.publish (by omega) hsub hlicence hmade.records hput
    refine ⟨masters', keys', hguards, hmasters, ?_⟩
    rw [List.length_append, List.length_singleton]
    omega
  | unstored hsub _ _ =>
    exact ⟨masters, keys, h.of_same hsub.subset rfl rfl, fun _ => rfl, Nat.le_refl _⟩
  | moved _ _ _ =>
    refine ⟨masters, keys, h.of_same (List.Subset.refl _) rfl rfl, fun _ => rfl, ?_⟩
    rw [List.length_append, List.length_singleton]
    omega

end Guards

theorem Keeps.leads (h : Keeps contents scheme username masters keys now next) {after : Service σ}
    (hleads : Leads scheme next after)
    (hroom : keys.length + after.happened.length < UInt64.size + now.happened.length) :
    Keeps contents scheme username masters keys now after := by
  obtain ⟨masters', keys', hguards, hmasters, hlength⟩ := h
  obtain ⟨masters'', keys'', hguards', hmasters', hlength'⟩ := hguards.leads hleads (by omega)
  refine ⟨masters'', keys'', hguards', ?_, by omega⟩
  intro hsome
  obtain rfl := hmasters hsome
  exact hmasters' hsome

/-- **So does every run** for which the list of public keys has room. -/
theorem Guards.run (h : Guards contents scheme username masters keys now) {steps : List Step}
    (hfits : Fits steps) (hroom : keys.length + steps.length < UInt64.size)
    (hlog : now.happened.length + steps.length < UInt64.size) :
    Keeps contents scheme username masters keys now (now.run scheme steps) ∧
      (now.run scheme steps).happened.length ≤ now.happened.length + steps.length := by
  have hstart : Keeps contents scheme username masters keys now now :=
    ⟨masters, keys, h, fun _ => rfl, Nat.le_refl _⟩
  have hstep : ∀ before after : Service σ,
      (keys.length + before.happened.length < UInt64.size + now.happened.length →
        Keeps contents scheme username masters keys now before) →
      before.happened.length + 1 < UInt64.size → Leads scheme before after →
      keys.length + after.happened.length < UInt64.size + now.happened.length →
        Keeps contents scheme username masters keys now after := by
    intro before after hbefore _ hleads hroom
    have hmore := Service.le_length_happened hleads
    exact (hbefore (by omega)).leads hleads hroom
  obtain ⟨hkeeps, hlength⟩ := Service.run_induction hfits hlog (fun _ => hstart) hstep
  exact ⟨hkeeps (by omega), hlength⟩

/-- **Only the owner publishes.**  Whatever the signature scheme accepts, whichever requests fail, and in
whatever order their turns come: if the records under a user name are the owner's at first (there may be
none), they are after every run, that is, there is no more than one master key, it signs itself, and each
public key is signed for its position under it; and no further steps change a master key that is there. -/
theorem owner_publishes (scheme : SignatureScheme) (contents : Storage.Contents σ) (dir : Directory σ)
    {steps more : List Step} (hfits : Fits (steps ++ more)) {username : Bytes}
    {masters keys : List ValueRecord}
    (hmasters : contents.records? dir.store (masterKeyIdentifier username) = some masters)
    (hkeys : contents.records? dir.store (publicKeyIdentifier username) = some keys)
    (howned : Owned scheme masters keys) (hroom : keys.length + (steps ++ more).length < UInt64.size) :
    let now := (Service.start dir).run scheme steps
    let later := now.run scheme more
    ∃ masters' keys',
      contents.records? now.directory.store (masterKeyIdentifier username) = some masters' ∧
      contents.records? now.directory.store (publicKeyIdentifier username) = some keys' ∧
      Owned scheme masters' keys' ∧
      (masters' ≠ [] →
        contents.records? later.directory.store (masterKeyIdentifier username) = some masters') := by
  intro now later
  have hlength := hfits.length
  rw [List.length_append] at hroom hlength
  obtain ⟨hsteps, hmore⟩ := hfits.of_append
  have hnone : (Service.start dir).happened.length = 0 := rfl
  obtain ⟨⟨masters', keys', hnow, -, hkeys'⟩, hlog⟩ :=
    (Guards.start hmasters hkeys howned).run hsteps (by omega) (by omega)
  obtain ⟨⟨masters'', _, hlater, hsame, -⟩, -⟩ := hnow.run hmore (by omega) (by omega)
  refine ⟨masters', keys', hnow.registered, hnow.published, hnow.owned, ?_⟩
  intro hsome
  obtain rfl := hsame hsome
  exact hlater.registered

end

open Owner Shown

/-- The name of the user who has registered is taken, and the key that was published is the user's. -/
theorem owner_publishes_two_values :
    Fits (steps ++ [.register [1] key keySignature]) ∧
      MemoryStore.contents.records? dir.store (masterKeyIdentifier [1]) = some [] ∧
      MemoryStore.contents.records? dir.store (publicKeyIdentifier [1]) = some [] ∧
      Owned scheme [] [] ∧ ∃ masters keys, masters ≠ [] ∧ keys ≠ [] ∧
        MemoryStore.contents.records? last.directory.store (masterKeyIdentifier [1]) = some masters ∧
        MemoryStore.contents.records? last.directory.store (publicKeyIdentifier [1]) = some keys ∧
        Owned scheme masters keys ∧
        MemoryStore.contents.records?
          (last.run scheme [.register [1] key keySignature]).directory.store
          (masterKeyIdentifier [1]) = some masters := by
  have hfits : Fits (steps ++ [.register [1] key keySignature]) := by
    refine ⟨by decide, ?_⟩
    intro username value sign hmem
    rcases List.mem_append.1 hmem with hmem | hmem
    · exact fits_steps.value username value sign hmem
    · cases List.mem_singleton.1 hmem
  have hmasters : MemoryStore.contents.records? dir.store (masterKeyIdentifier [1]) = some [] := by
    decide +kernel
  have hkeys : MemoryStore.contents.records? dir.store (publicKeyIdentifier [1]) = some [] := by
    decide +kernel
  obtain ⟨masters, keys, hmasters', hkeys', howned, hsame⟩ := owner_publishes scheme
    MemoryStore.contents dir hfits hmasters hkeys (Owned.nil scheme) (by decide)
  rw [← last] at hmasters' hkeys' hsame
  have hregistered : MemoryStore.contents.records? last.directory.store (masterKeyIdentifier [1]) ≠
      some [] := by
    decide +kernel
  have hpublished : MemoryStore.contents.records? last.directory.store (publicKeyIdentifier [1]) ≠
      some [] := by
    decide +kernel
  have hsome : masters ≠ [] := by
    rintro rfl
    exact hregistered hmasters'
  have hsome' : keys ≠ [] := by
    rintro rfl
    exact hpublished hkeys'
  exact ⟨hfits, hmasters, hkeys, Owned.nil scheme, masters, keys, hsome, hsome', hmasters', hkeys',
    howned, hsame hsome⟩

end Directory

end KeyTransparency
