import KeyTransparency.Proofs.Trie.Guarded
import KeyTransparency.Proofs.Trie.Past

/-!
# No run meets a structural fault

Whatever was tried before, with keys of bits, each trie answers every operation in one of a few ways and
none of them is a fault of its own structure: an insertion goes through, or is refused for the key's
length or because the trie is sealed and then changes nothing; a reading in an epoch that has come is
answered.  `Safe` lists the ways, and with them that no index leaves the arena and that insertions and
walks are what they are with every cut out of a key or a label guarded.

    Safe ((empty keyLength).perform calls),  Safe ((empty keyLength).run steps)
                                                              (structural_errors_unreachable)

A trie whose key length is open does under a key what it would do if the length were that of the key
(`fixing`), so both kinds of trie are covered by the invariants of those with a length.
-/

namespace KeyTransparency

open Trie Subtree

/-- The answer is not a fault of the structure. -/
def Faultless {α : Type} (answer : Except Error α) : Prop :=
  ∀ fault, answer ≠ .error (.malformed fault)

theorem Faultless.ok {α : Type} (a : α) : Faultless (.ok a) := fun _ h => nomatch h

theorem Faultless.epochNotYetOccurred {α : Type} (epoch current : Nat) :
    Faultless (.error (.epochNotYetOccurred epoch current) : Except Error α) :=
  fun _ h => nomatch h

theorem Faultless.keyLength {α : Type} (expected found : Nat) :
    Faultless (.error (.keyLength expected found) : Except Error α) :=
  fun _ h => nomatch h

/-! ## Tries that can be sealed -/

namespace PrefixTrie

/-- What changes a trie. -/
inductive Call
  | insert (key : Bits) (entry : ValueEntry)
  | toSealed
deriving DecidableEq

def call (trie : PrefixTrie) : Call → PrefixTrie
  | .insert key entry => (trie.insert key entry).1
  | .toSealed => trie.toSealed

def perform (trie : PrefixTrie) (calls : List Call) : PrefixTrie := calls.foldl call trie

/-- How a trie answers every operation, under keys of bits. -/
structure Safe (trie : PrefixTrie) : Prop where
  insert_ok (key : Bits) (entry : ValueEntry) : trie.isSealed = false → trie.Admits key →
    key.WellFormed → ∃ trie', trie.insert key entry = (trie', .ok ())
  insert_refused (key : Bits) (entry : ValueEntry) : trie.isSealed = false → ¬ trie.Admits key →
    ∃ n, trie.insert key entry = (trie, .error (.keyLength n key.length))
  insert_sealed (key : Bits) (entry : ValueEntry) : trie.isSealed = true →
    trie.insert key entry = (trie, .error .sealedTrie)
  read (key : Bits) : trie.Admits key → key.WellFormed →
    (∃ values, trie.get? key = .ok values) ∧ (∀ hash, ∃ b, trie.containsValue key hash = .ok b) ∧
      ∃ proof, trie.prove key = .ok proof
  read_refused (key : Bits) : ¬ trie.Admits key →
    trie.get? key = .ok none ∧ (∀ hash, trie.containsValue key hash = .ok false) ∧
      ∃ n, trie.prove key = .error (.keyLength n key.length)
  /-- No cut leaves the key or a label, and no bit of the key is not the index of a child. -/
  guarded (key : Bits) : key.WellFormed →
    (∀ entry, Guarded.insert trie key entry = some (trie.insert key entry)) ∧
      Trie.Guarded.walk trie.root key = some (trie.root.walk key)

/-- No operation under a key of bits answers with a fault. -/
def NeverFaults (trie : PrefixTrie) : Prop :=
  ∀ key : Bits, key.WellFormed → (∀ entry, Faultless (trie.insert key entry).2) ∧
    Faultless (trie.get? key) ∧ (∀ hash, Faultless (trie.containsValue key hash)) ∧
    Faultless (trie.prove key)

theorem Safe.neverFaults {trie : PrefixTrie} (h : Safe trie) : NeverFaults trie := by
  intro key hbits
  refine ⟨fun entry => ?_, ?_⟩
  · cases hs : trie.isSealed with
    | true =>
      rw [h.insert_sealed key entry hs]
      exact fun _ he => nomatch he
    | false =>
      by_cases hkey : trie.Admits key
      · obtain ⟨trie', hrun⟩ := h.insert_ok key entry hs hkey hbits
        rw [hrun]
        exact .ok _
      · obtain ⟨n, hrun⟩ := h.insert_refused key entry hs hkey
        rw [hrun]
        exact .keyLength _ _
  · by_cases hkey : trie.Admits key
    · obtain ⟨⟨values, hget⟩, hcontains, proof, hprove⟩ := h.read key hkey hbits
      rw [hget, hprove]
      refine ⟨.ok _, fun hash => ?_, .ok _⟩
      obtain ⟨b, hb⟩ := hcontains hash
      rw [hb]
      exact .ok _
    · obtain ⟨hget, hcontains, n, hprove⟩ := h.read_refused key hkey
      rw [hget, hprove]
      refine ⟨.ok _, fun hash => ?_, .keyLength _ _⟩
      rw [hcontains hash]
      exact .ok _

/-- The trie as it was before it was sealed. -/
def unsealed (trie : PrefixTrie) : PrefixTrie := { trie with isSealed := false }

section

variable {trie : PrefixTrie} {done : List Insertion}

theorem eq_unsealed (h : trie.isSealed = false) : trie.unsealed = trie := by
  rw [unsealed, ← h]

theorem insert_eq_sealed (h : trie.isSealed = true) (key : Bits) (entry : ValueEntry) :
    trie.insert key entry = (trie, .error .sealedTrie) := by
  rw [insert, h, if_pos rfl]

theorem Reached.safe (h : Reached trie.unsealed done) : Safe trie where
  insert_ok key entry hs hkey hbits := by
    rw [eq_unsealed hs] at h
    obtain ⟨trie', hrun, -⟩ := h.insert hkey hbits entry
    exact ⟨trie', hrun⟩
  insert_refused key entry hs hkey := insert_eq_error hs hkey entry
  insert_sealed key entry hs := insert_eq_sealed hs key entry
  read key hkey hbits := by
    have hget : trie.get? key = .ok (held? key done) := h.get?_eq hkey hbits
    obtain ⟨proof, hprove, -⟩ := h.prove_spec hkey hbits
    refine ⟨⟨_, hget⟩, fun hash => ?_, proof, hprove⟩
    rw [containsValue, hget]
    exact ⟨_, rfl⟩
  read_refused key hkey := by
    obtain ⟨n, hn⟩ := checkKey_eq_error hkey
    have hget : trie.get? key = .ok none := by rw [get?, hn]
    refine ⟨hget, fun hash => ?_, n, ?_⟩
    · rw [containsValue, hget]
      rfl
    · rw [prove, hn]
      rfl
  guarded key hbits := ⟨fun entry => Guarded.insert_eq trie key entry, Trie.Guarded.walk_eq hbits⟩

/-- Every call keeps what is known of the trie before it was sealed. -/
theorem Reached.perform (h : Reached trie.unsealed done) {calls : List Call}
    (hbits : ∀ key entry, Call.insert key entry ∈ calls → key.WellFormed) :
    ∃ done, Reached (trie.perform calls).unsealed done := by
  induction calls generalizing trie done with
  | nil => exact ⟨done, h⟩
  | cons next calls ih =>
    have hrest := fun key entry hmem => hbits key entry (List.mem_cons_of_mem _ hmem)
    cases next with
    | toSealed =>
      have hsealed : Reached trie.toSealed.unsealed done := h
      exact ih hsealed hrest
    | insert key entry =>
      suffices hstep : ∃ done, Reached (trie.insert key entry).1.unsealed done by
        obtain ⟨done, hstep⟩ := hstep
        exact ih hstep hrest
      cases hs : trie.isSealed with
      | true =>
        rw [insert_eq_sealed hs]
        exact ⟨done, h⟩
      | false =>
        have h' := eq_unsealed hs ▸ h
        by_cases hkey : trie.Admits key
        · obtain ⟨trie', hrun, -, -, hreached⟩ :=
            h'.insert hkey (hbits key entry List.mem_cons_self) entry
          rw [hrun, eq_unsealed hreached.unsealed]
          exact ⟨_, hreached⟩
        · obtain ⟨n, hrun⟩ := insert_eq_error hs hkey entry
          rw [hrun]
          exact ⟨done, h⟩

end

end PrefixTrie

/-! ## Tries with epochs -/

namespace PersistentTrie

/-- A key of the trie's length, of any length while none is fixed. -/
def Admits (trie : PersistentTrie) (key : Bits) : Prop :=
  key ≠ [] ∧ ∀ n, trie.keyLength = some n → n = key.length

/-- How a trie answers every operation, under keys of bits. -/
structure Safe (trie : PersistentTrie) : Prop where
  insert_ok (key : Bits) (entry : ValueEntry) : trie.Admits key → key.WellFormed →
    ∃ trie', trie.insert key entry = (trie', .ok ())
  insert_refused (key : Bits) (entry : ValueEntry) : ¬ trie.Admits key →
    ∃ n, trie.insert key entry = (trie, .error (.keyLength n key.length))
  epochs (e : Nat) : e ≤ trie.epoch → (∃ root, trie.rootAt e = .ok root ∧ root < trie.nodes.size) ∧
    (∃ hash, trie.rootHash e = .ok hash) ∧ ∃ size, trie.sizeAt e = .ok size
  read (key : Bits) (e : Nat) : e ≤ trie.epoch → trie.Admits key → key.WellFormed →
    ∃ values, trie.lookup key e = .ok values ∧ (∃ proof, trie.prove key e = .ok proof) ∧
      if values.isSome then
        ∃ path, trie.lookupPath key e = .ok path ∧ ∀ id ∈ path, id < trie.nodes.size
      else trie.lookupPath key e = .error (.keyNotFound key.display)
  read_refused (key : Bits) (e : Nat) : ¬ trie.Admits key → ∃ n, trie.Refuses n key e
  future (e : Nat) : trie.epoch < e →
    let error := Error.epochNotYetOccurred e trie.epoch
    trie.rootAt e = .error error ∧ trie.rootHash e = .error error ∧ trie.sizeAt e = .error error ∧
      ∀ key, trie.Admits key → trie.lookup key e = .error error ∧
        trie.lookupPath key e = .error error ∧ trie.prove key e = .error error
  arena : Layered trie
  versions (id : NodeId) : id < trie.nodes.size → ∀ i ∈ trie.versionChain id, i < trie.nodes.size
  /-- In every epoch a tree is stored: what is reached from the root lies in the arena. -/
  stored (e : Nat) : e ≤ trie.epoch → ∃ root t ids, trie.rootAt e = .ok root ∧
    Stored (·.epoch ≤ e) trie.nodes (some root) t ids
  guarded (key : Bits) : key.WellFormed →
    (∀ entry, Guarded.insert trie key entry = some (trie.insert key entry)) ∧
      ∀ e, Guarded.walk trie key e = some (trie.walk key e)

/-- No operation under a key of bits, and none in any epoch, answers with a fault. -/
def NeverFaults (trie : PersistentTrie) : Prop :=
  ∀ e, Faultless (trie.rootAt e) ∧ Faultless (trie.rootHash e) ∧ Faultless (trie.sizeAt e) ∧
    ∀ key : Bits, key.WellFormed → (∀ entry, Faultless (trie.insert key entry).2) ∧
      Faultless (trie.lookup key e) ∧ Faultless (trie.lookupPath key e) ∧ Faultless (trie.prove key e)

section

variable {trie : PersistentTrie} {key : Bits} {e n : Nat}

theorem Safe.faultless_insert (h : Safe trie) (hbits : key.WellFormed) (entry : ValueEntry) :
    Faultless (trie.insert key entry).2 := by
  by_cases hkey : trie.Admits key
  · obtain ⟨trie', hrun⟩ := h.insert_ok key entry hkey hbits
    rw [hrun]
    exact .ok _
  · obtain ⟨n, hrun⟩ := h.insert_refused key entry hkey
    rw [hrun]
    exact .keyLength _ _

theorem Safe.faultless_read (h : Safe trie) (hbits : key.WellFormed) (e : Nat) :
    Faultless (trie.lookup key e) ∧ Faultless (trie.lookupPath key e) ∧
      Faultless (trie.prove key e) := by
  by_cases hkey : trie.Admits key
  · by_cases he : e ≤ trie.epoch
    · obtain ⟨values, hlookup, ⟨proof, hprove⟩, hpath⟩ := h.read key e he hkey hbits
      rw [hlookup, hprove]
      refine ⟨.ok _, ?_, .ok _⟩
      split at hpath
      · obtain ⟨path, hpath, -⟩ := hpath
        rw [hpath]
        exact .ok _
      · rw [hpath]
        exact fun _ hf => nomatch hf
    · obtain ⟨-, -, -, hreads⟩ := h.future e (Nat.not_le.1 he)
      obtain ⟨hlookup, hpath, hprove⟩ := hreads key hkey
      rw [hlookup, hpath, hprove]
      exact ⟨.epochNotYetOccurred _ _, .epochNotYetOccurred _ _, .epochNotYetOccurred _ _⟩
  · obtain ⟨n, hlookup, hpath, hprove⟩ := h.read_refused key e hkey
    rw [hlookup, hpath, hprove]
    exact ⟨.keyLength _ _, .keyLength _ _, .keyLength _ _⟩

theorem Safe.neverFaults (h : Safe trie) : NeverFaults trie := by
  intro e
  have hkeys (key : Bits) (hbits : key.WellFormed) := h.faultless_read hbits e
  by_cases he : e ≤ trie.epoch
  · obtain ⟨⟨root, hroot, -⟩, ⟨hash, hhash⟩, size, hsize⟩ := h.epochs e he
    rw [hroot, hhash, hsize]
    exact ⟨.ok _, .ok _, .ok _, fun key hbits => ⟨h.faultless_insert hbits, hkeys key hbits⟩⟩
  · obtain ⟨hroot, hhash, hsize, -⟩ := h.future e (Nat.not_le.1 he)
    rw [hroot, hhash, hsize]
    exact ⟨.epochNotYetOccurred _ _, .epochNotYetOccurred _ _, .epochNotYetOccurred _ _,
      fun key hbits => ⟨h.faultless_insert hbits, hkeys key hbits⟩⟩

theorem checkKey_of_admits (h : trie.Admits key) : trie.checkKey key = .ok () := by
  obtain ⟨hkey, hlen⟩ := h
  unfold checkKey
  cases hn : trie.keyLength with
  | none => exact if_neg hkey
  | some n =>
    dsimp only
    rw [if_neg (not_not_intro (hlen n hn)), if_neg hkey]

theorem checkKey_of_not_admits (h : ¬ trie.Admits key) :
    ∃ n, trie.checkKey key = .error (.keyLength n key.length) := by
  unfold checkKey
  cases hn : trie.keyLength with
  | none =>
    by_cases hkey : key = []
    · exact ⟨1, by rw [if_pos hkey, hkey, List.length_nil]⟩
    · exact absurd ⟨hkey, by simp [hn]⟩ h
  | some n =>
    by_cases hlen : n = key.length
    · by_cases hkey : key = []
      · exact ⟨1, by simp [hkey, hlen]⟩
      · exact absurd ⟨hkey, by simpa [hn] using hlen⟩ h
    · exact ⟨n, if_pos hlen⟩

/-! ### A length that is still open -/

/-- The trie, with the length of its keys fixed. -/
def fixing (trie : PersistentTrie) (n : Nat) : PersistentTrie := { trie with keyLength := some n }

theorem fixing_eq (h : trie.keyLength = some n) : trie.fixing n = trie := by
  rw [fixing, ← h]

theorem checkKey_fixing (h : trie.Admits key) : (trie.fixing key.length).checkKey key = .ok () :=
  checkKey_of_admits ⟨h.1, fun _ hn => by cases hn; rfl⟩

theorem insert_fixing (h : trie.Admits key) (entry : ValueEntry) :
    trie.insert key entry = (trie.fixing key.length).insert key entry := by
  have hlen : trie.keyLength.getD key.length = key.length := by
    cases hn : trie.keyLength with
    | none => rfl
    | some m => exact h.2 m hn
  unfold insert
  rw [checkKey_of_admits h, checkKey_fixing h, hlen]
  rfl

theorem follow_fixing (trie : PersistentTrie) (n reading : Nat) (key : Bits) (fuel : Nat)
    (node : VersionedNode) (depth : Nat) (above : List CopathEntry) (path : List NodeId) :
    (trie.fixing n).follow reading key fuel node depth above path =
      trie.follow reading key fuel node depth above path := by
  induction fuel generalizing node depth above path with
  | zero => rfl
  | succ fuel ih =>
    unfold follow
    simp only [ih]
    rfl

theorem walk_fixing (h : trie.Admits key) (e : Nat) :
    trie.walk key e = (trie.fixing key.length).walk key e := by
  unfold walk
  rw [checkKey_of_admits h, checkKey_fixing h]
  simp only [follow_fixing]
  rfl

/-- What is known of a trie after any run: it is alike to plain tries, or no key has gone in and the
length is still open. -/
inductive Grounded (trie : PersistentTrie) : Prop
  | fixed (n : Nat) (done : List (Nat × Insertion)) : Mirrors trie n done → Grounded trie
  | free : trie.keyLength = none → (∀ n, Mirrors (trie.fixing n) n []) → Grounded trie

namespace Grounded

theorem of_empty (keyLength : Option Nat) : Grounded (empty keyLength) := by
  cases keyLength with
  | none => exact .free rfl mirrors_empty
  | some n => exact .fixed n [] (mirrors_empty n)

/-- Under a key that it admits, the trie is one with the length of the key. -/
theorem mirrors (h : Grounded trie) (hkey : trie.Admits key) :
    ∃ done, Mirrors (trie.fixing key.length) key.length done := by
  cases h with
  | fixed n done hm =>
    obtain rfl := hkey.2 n hm.keyLength
    exact ⟨done, (fixing_eq hm.keyLength).symm ▸ hm⟩
  | free _ hm => exact ⟨[], hm key.length⟩

/-- In every epoch a tree is stored. -/
theorem stored (h : Grounded trie) (he : e ≤ trie.epoch) :
    ∃ root t ids size, trie.rootAt e = .ok root ∧ trie.sizeAt e = .ok size ∧
      Stored (·.epoch ≤ e) trie.nodes (some root) t ids := by
  cases h with
  | fixed n done hm =>
    obtain ⟨root, ids, hroot, hsize, hstored⟩ := hm.rootAt he
    exact ⟨root, _, ids, _, hroot, hsize, hstored⟩
  | free _ hm =>
    obtain ⟨root, ids, hroot, hsize, hstored⟩ := (hm 0).rootAt he
    exact ⟨root, _, ids, _, hroot, hsize, hstored⟩

theorem nextEpoch (h : Grounded trie) : Grounded trie.nextEpoch := by
  cases h with
  | fixed n done hm => exact .fixed n done hm.nextEpoch
  | free hopen hm => exact .free hopen fun n => (hm n).nextEpoch

theorem insert_refused (hkey : ¬ trie.Admits key) (entry : ValueEntry) :
    ∃ n, trie.insert key entry = (trie, .error (.keyLength n key.length)) := by
  obtain ⟨n, hn⟩ := checkKey_of_not_admits hkey
  exact ⟨n, by rw [PersistentTrie.insert, hn]⟩

theorem insert_ok (h : Grounded trie) (hkey : trie.Admits key) (hbits : key.WellFormed)
    (entry : ValueEntry) :
    ∃ trie', trie.insert key entry = (trie', .ok ()) ∧ Grounded trie' := by
  obtain ⟨done, hm⟩ := h.mirrors hkey
  obtain ⟨trie', hrun, -, hm'⟩ := hm.insert_key hbits rfl hkey.1 entry
  exact ⟨trie', (insert_fixing hkey entry).trans hrun, .fixed _ _ hm'⟩

theorem run (h : Grounded trie) {steps : List Step}
    (hbits : ∀ key entry, Step.insert key entry ∈ steps → key.WellFormed) :
    Grounded (trie.run steps) := by
  induction steps generalizing trie with
  | nil => exact h
  | cons next steps ih =>
    have hrest := fun key entry hmem => hbits key entry (List.mem_cons_of_mem _ hmem)
    cases next with
    | nextEpoch => exact ih h.nextEpoch hrest
    | insert key entry =>
      suffices hstep : Grounded (trie.insert key entry).1 from ih hstep hrest
      by_cases hkey : trie.Admits key
      · obtain ⟨trie', hrun, h'⟩ := h.insert_ok hkey (hbits key entry List.mem_cons_self) entry
        rw [hrun]
        exact h'
      · obtain ⟨n, hrun⟩ := insert_refused hkey entry
        rw [hrun]
        exact h

/-- In an epoch that has come, a walk under a key of bits that the trie admits ends properly. -/
theorem walk (h : Grounded trie) (he : e ≤ trie.epoch) (hkey : trie.Admits key)
    (hbits : key.WellFormed) :
    ∃ walk path proof, trie.walk key e = .ok (walk, path) ∧ walk.toProof = .ok proof ∧
      ∀ id ∈ path, id < trie.nodes.size := by
  obtain ⟨done, hm⟩ := h.mirrors hkey
  obtain ⟨found, side, t, rest, hfound, hwalked⟩ := walk_spec (hm.rooted e) hkey.1 hbits rfl
  have heq := hm.walk_eq he rfl hkey.1
  rw [← walk_fixing hkey, hfound] at heq
  obtain ⟨taken, hreached⟩ := hm.reached e
  obtain ⟨proof, hproof, -⟩ := hwalked.toProof_spec (hm.rooted e) hreached.hash?_root
  obtain ⟨root, _, _, _, hroot, -, hstored⟩ := h.stored he
  obtain ⟨node, hnode, hle, -⟩ := hstored.root
  cases hrun : trie.walk key e with
  | error fault =>
    rw [hrun] at heq
    cases heq
  | ok answer =>
    obtain ⟨walk, path⟩ := answer
    rw [hrun] at heq
    cases heq
    refine ⟨walk, path, proof, rfl, hproof, ?_⟩
    have hexpose : trie.expose e root = .ok node := expose_eq hnode hle
    unfold PersistentTrie.walk at hrun
    simp only [checkKey_of_admits hkey, hroot, hexpose, bind, Except.bind] at hrun
    cases hfollow : trie.follow e key ((trie.nodes.size + 1) * (key.length + 1)) node
        node.label.length [] [root] with
    | error fault =>
      rw [hfollow] at hrun
      cases hrun
    | ok answer =>
      rw [hfollow] at hrun
      cases hrun
      have hlt := follow_path_lt hnode (fun i hi => by
        obtain rfl := List.mem_singleton.1 hi
        exact lt_size_of_getElem? hnode) hfollow
      exact fun id hid => hlt id (List.mem_reverse.1 hid)

end Grounded

theorem oldestFrom_lt (h : Tidy trie.epoch trie.nodes) (fuel : Nat) {id : NodeId}
    (hid : id < trie.nodes.size) : trie.oldestFrom fuel id < trie.nodes.size := by
  induction fuel generalizing id with
  | zero => exact hid
  | succ fuel ih =>
    unfold oldestFrom
    split
    · exact hid
    · next prev hprev =>
      obtain ⟨node, hnode, hp⟩ := Option.bind_eq_some_iff.1 hprev
      exact ih ((h id node hnode).prev hp)

theorem versionsFrom_lt (h : Tidy trie.epoch trie.nodes) (fuel : Nat) {id : NodeId}
    (hid : id < trie.nodes.size) : ∀ i ∈ trie.versionsFrom fuel id, i < trie.nodes.size := by
  induction fuel generalizing id with
  | zero =>
    intro i hi
    obtain rfl := List.mem_singleton.1 hi
    exact hid
  | succ fuel ih =>
    unfold versionsFrom
    split
    · intro i hi
      obtain rfl := List.mem_singleton.1 hi
      exact hid
    · next next hnext =>
      obtain ⟨node, hnode, hn⟩ := Option.bind_eq_some_iff.1 hnext
      intro i hi
      rcases List.mem_cons.1 hi with rfl | hi
      · exact hid
      · exact ih ((h id node hnode).next hn) i hi

/-- A walk in an epoch that has not come is refused as the epoch is. -/
theorem walk_of_future (he : trie.epoch < e) (hkey : trie.Admits key) :
    trie.walk key e = .error (.epochNotYetOccurred e trie.epoch) := by
  unfold walk rootAt
  rw [checkKey_of_admits hkey, if_pos he]
  rfl

theorem Grounded.safe (h : Grounded trie) (hlayered : Layered trie) : Safe trie where
  insert_ok key entry hkey hbits := by
    obtain ⟨trie', hrun, -⟩ := h.insert_ok hkey hbits entry
    exact ⟨trie', hrun⟩
  insert_refused key entry hkey := insert_refused hkey entry
  epochs e he := by
    obtain ⟨root, t, ids, size, hroot, hsize, hstored⟩ := h.stored he
    obtain ⟨node, hnode, -⟩ := hstored.root
    refine ⟨⟨root, hroot, lt_size_of_getElem? hnode⟩, ⟨node.hash, ?_⟩, size, hsize⟩
    simp only [rootHash, hroot, bind, Except.bind, hnode]
  read key e he hkey hbits := by
    obtain ⟨walk, path, proof, hwalk, hproof, hpath⟩ := h.walk he hkey hbits
    refine ⟨walk.values?, by rw [lookup, hwalk]; rfl, ⟨proof, ?_⟩, ?_⟩
    · rw [prove, hwalk]
      show (walk.toProof).mapError Error.malformed = _
      rw [hproof]
      rfl
    · unfold lookupPath
      rw [hwalk]
      simp only [bind, Except.bind]
      cases walk.values? with
      | none => rfl
      | some values => exact ⟨path, rfl, hpath⟩
  read_refused key e hkey := by
    obtain ⟨n, hn⟩ := checkKey_of_not_admits hkey
    exact ⟨n, refuses_of_checkKey hn⟩
  future e he := by
    have hroot : trie.rootAt e = .error (.epochNotYetOccurred e trie.epoch) := if_pos he
    refine ⟨hroot, by rw [rootHash, hroot]; rfl, if_pos he, fun key hkey => ?_⟩
    have hwalk := walk_of_future he hkey
    refine ⟨?_, ?_, ?_⟩
    · rw [lookup, hwalk]
      rfl
    · rw [lookupPath, hwalk]
      rfl
    · rw [prove, hwalk]
      rfl
  arena := hlayered
  versions id hid := versionsFrom_lt hlayered.tidy _ (oldestFrom_lt hlayered.tidy _ hid)
  stored e he := by
    obtain ⟨root, t, ids, size, hroot, -, hstored⟩ := h.stored he
    exact ⟨root, t, ids, hroot, hstored⟩
  guarded key hbits :=
    ⟨fun entry => Guarded.insert_eq trie key entry, Guarded.walk_eq trie hbits⟩

end

end PersistentTrie

/-- **Structural faults cannot be reached.**  After any run under keys of bits, failed operations
included, both kinds of trie answer only in the ways that `Safe` lists: under a key that is not empty and
of the right length everything goes through up to the current epoch, a key of another length and the
empty one are refused and change nothing, and no operation answers with a fault. -/
theorem structural_errors_unreachable (keyLength : Option Nat) :
    (∀ calls : List PrefixTrie.Call, (∀ key entry, .insert key entry ∈ calls → key.WellFormed) →
      let trie := (PrefixTrie.empty keyLength).perform calls
      trie.Safe ∧ trie.NeverFaults) ∧
    ∀ steps : List PersistentTrie.Step, (∀ key entry, .insert key entry ∈ steps → key.WellFormed) →
      let trie := (PersistentTrie.empty keyLength).run steps
      trie.Safe ∧ trie.NeverFaults := by
  constructor
  · intro calls hbits trie
    have hempty : PrefixTrie.Reached (PrefixTrie.empty keyLength).unsealed [] :=
      PrefixTrie.reached_empty keyLength
    obtain ⟨done, hreached⟩ := hempty.perform hbits
    exact ⟨hreached.safe, hreached.safe.neverFaults⟩
  · intro steps hbits trie
    have hgrounded := (PersistentTrie.Grounded.of_empty keyLength).run hbits
    have hsafe := hgrounded.safe (PersistentTrie.layered_run keyLength steps)
    exact ⟨hsafe, hsafe.neverFaults⟩

/-- A refused key, a split, a seal; the same keys over two epochs. -/
theorem structural_errors_unreachable_split :
    let calls : List PrefixTrie.Call := [.insert [0, 0] ⟨Hash.zero, 0⟩, .insert [1] ⟨Hash.zero, 1⟩,
      .insert [0, 1] ⟨Hash.zero, 2⟩, .toSealed, .insert [1, 1] ⟨Hash.zero, 3⟩]
    let steps : List PersistentTrie.Step := [.insert [0, 0] ⟨Hash.zero, 0⟩, .insert [1] ⟨Hash.zero, 1⟩,
      .nextEpoch, .insert [0, 1] ⟨Hash.zero, 2⟩]
    (∀ key entry, .insert key entry ∈ calls → key.WellFormed) ∧
      (∀ key entry, .insert key entry ∈ steps → key.WellFormed) ∧
      ((PrefixTrie.empty none).perform calls).Safe ∧ ((PersistentTrie.empty none).run steps).Safe := by
  intro calls steps
  have hcalls : ∀ key entry, .insert key entry ∈ calls → key.WellFormed := by
    simp only [calls, List.mem_cons, List.not_mem_nil, PrefixTrie.Call.insert.injEq, reduceCtorEq,
      or_false, false_or]
    rintro key entry (⟨rfl, -⟩ | ⟨rfl, -⟩ | ⟨rfl, -⟩ | ⟨rfl, -⟩) <;> decide
  have hsteps : ∀ key entry, .insert key entry ∈ steps → key.WellFormed := by
    simp only [steps, List.mem_cons, List.not_mem_nil, PersistentTrie.Step.insert.injEq, reduceCtorEq,
      or_false, false_or]
    rintro key entry (⟨rfl, -⟩ | ⟨rfl, -⟩ | ⟨rfl, -⟩) <;> decide
  obtain ⟨hplain, hpersistent⟩ := structural_errors_unreachable none
  exact ⟨hcalls, hsteps, (hplain calls hcalls).1, (hpersistent steps hsteps).1⟩

/-- The empty key has the length that the keys of this trie are to have, but is refused. -/
theorem empty_key_refused :
    (PersistentTrie.empty (some 0)).keyLength = some ([] : Bits).length ∧
      (PersistentTrie.empty (some 0)).lookup [] 0 = .error (.keyLength 1 0) ∧
      (PersistentTrie.empty (some 0)).prove [] 0 = .error (.keyLength 1 0) ∧
      (PrefixTrie.empty (some 0)).prove [] = .error (.keyLength 0 0) := by
  decide +kernel

end KeyTransparency
