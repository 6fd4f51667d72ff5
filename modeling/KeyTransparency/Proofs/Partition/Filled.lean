import KeyTransparency.Partition.Basic
import KeyTransparency.Proofs.Preimage
import KeyTransparency.Proofs.Trie.Completeness

/-!
# Tries over the keys of identifiers

The key of an identifier is the bits of a hash: `keyBits` well-formed bits.  A trie that is filled with
such keys takes them all, whether it is filled step by step or in one go, and has a proof for each:

    trieOver insertions has taken insertions                                     (reached_trieOver)
    sealedTrie insertions = ok (trieOver insertions, sealed)                        (sealedTrie_eq)
-/

namespace KeyTransparency

open Trie

/-! ## Keys -/

namespace Bits

theorem wellFormed_ofBytes (bytes : Bytes) : (ofBytes bytes).WellFormed := by
  have hlow : ∀ b : UInt8, b &&& 1 = 0 ∨ b &&& 1 = 1 := by
    intro b
    rw [← UInt8.toNat_inj, ← UInt8.toNat_inj, UInt8.toNat_and]
    have hmod := Nat.and_one_is_mod b.toNat
    have hlt := Nat.mod_lt b.toNat (y := 2) (by omega)
    show b.toNat &&& 1 = 0 ∨ b.toNat &&& 1 = 1
    omega
  intro bit hbit
  obtain ⟨b, -, hbit⟩ := List.mem_flatMap.1 hbit
  simp only [List.mem_cons, List.not_mem_nil, or_false] at hbit
  rcases hbit with rfl | rfl | rfl | rfl | rfl | rfl | rfl | rfl <;> exact hlow _

@[simp] theorem length_ofBytes (bytes : Bytes) : (ofBytes bytes).length = 8 * bytes.length := by
  induction bytes with
  | nil => rfl
  | cons b bytes ih =>
    rw [ofBytes, List.flatMap_cons, List.length_append, ← ofBytes, ih]
    simp only [List.length_cons, List.length_nil]
    omega

/-- The bits of a hash, as every key of a partition's tries is. -/
structure IsKey (key : Bits) : Prop where
  length_eq : key.length = keyBits
  wellFormed : key.WellFormed

theorem isKey_ofIdentifier (identifier : Bytes) : (ofIdentifier identifier).IsKey where
  length_eq := by rw [ofIdentifier, length_ofBytes, Hash.length_bytes, keyBits]
  wellFormed := wellFormed_ofBytes _

theorem IsKey.ne_nil {key : Bits} (h : key.IsKey) : key ≠ [] := by
  rintro rfl
  exact absurd h.length_eq (by decide)

theorem ofBytes_cons (b : UInt8) (bytes : Bytes) : ofBytes (b :: bytes) = ofBytes [b] ++ ofBytes bytes := by
  rw [ofBytes, ofBytes, ofBytes, List.flatMap_singleton, List.flatMap_cons]

/-- A byte is determined by its bits. -/
theorem eq_of_ofBytes_singleton_eq {a b : UInt8} (h : ofBytes [a] = ofBytes [b]) : a = b := by
  have hvalue : ∀ n : Fin 256,
      (ofBytes [UInt8.ofNat n.val]).foldl (fun m bit => 2 * m + bit.toNat) 0 = n.val := by
    decide +kernel
  have ha := hvalue ⟨a.toNat, a.toNat_lt⟩
  have hb := hvalue ⟨b.toNat, b.toNat_lt⟩
  simp only [UInt8.ofNat_toNat] at ha hb
  rw [h] at ha
  exact UInt8.toNat_inj.1 (ha.symm.trans hb)

theorem ofBytes_inj {bytes other : Bytes} (h : ofBytes bytes = ofBytes other) : bytes = other := by
  induction bytes generalizing other with
  | nil =>
    cases other with
    | nil => rfl
    | cons b more => exact absurd (congrArg List.length h) (by simp)
  | cons a bytes ih =>
    cases other with
    | nil => exact absurd (congrArg List.length h) (by simp)
    | cons b more =>
      rw [ofBytes_cons a, ofBytes_cons b] at h
      obtain ⟨hfirst, hrest⟩ := List.append_inj h (by simp)
      rw [eq_of_ofBytes_singleton_eq hfirst, ih hrest]

/-- Identifiers with one key have one hash. -/
theorem hash_eq_of_ofIdentifier_eq {a b : Bytes} (h : ofIdentifier a = ofIdentifier b) :
    Hash.ofParts .identifier [a] = Hash.ofParts .identifier [b] :=
  Hash.ext_bytes (ofBytes_inj h)

end Bits

/-! ## Filling a trie -/

/-- The trie that some insertions make. -/
def trieOver (insertions : List Insertion) : PrefixTrie :=
  (PrefixTrie.empty (some keyBits)).insertAll insertions

section

variable {insertions : List Insertion} {key : Bits}

theorem admits_trieOver (hkey : key.IsKey) : (trieOver insertions).Admits key := by
  refine ⟨hkey.ne_nil, fun n hn => ?_⟩
  rw [trieOver, PrefixTrie.keyLength_insertAll rfl] at hn
  exact (Option.some.inj hn).symm.trans hkey.length_eq.symm

theorem trieOver_concat (insertion : Insertion) :
    trieOver (insertions ++ [insertion]) = ((trieOver insertions).insert insertion.1 insertion.2).1 := by
  rw [trieOver, PrefixTrie.insertAll, List.foldl_append]
  rfl

theorem reached_trieOver (hkeys : ∀ insertion ∈ insertions, insertion.1.IsKey) :
    (trieOver insertions).Reached insertions := by
  induction insertions using List.reverseRecOn with
  | nil => exact PrefixTrie.reached_empty _
  | append_singleton insertions insertion ih =>
    have hkey := hkeys insertion (List.mem_append_right _ List.mem_cons_self)
    have h := ih fun made hmade => hkeys made (List.mem_append_left _ hmade)
    obtain ⟨trie, hrun, -, -, h'⟩ := h.insert (admits_trieOver hkey) hkey.wellFormed insertion.2
    rw [trieOver_concat, hrun]
    exact h'

/-- Inserting one after the other is never refused, and ends in the trie over all. -/
theorem foldlM_eq_trieOver {step : PrefixTrie → Insertion → Except Error PrefixTrie}
    (hstep : ∀ trie insertion next, trie.insert insertion.1 insertion.2 = (next, .ok ()) →
      step trie insertion = .ok next)
    (hkeys : ∀ insertion ∈ insertions, insertion.1.IsKey) :
    insertions.foldlM step (PrefixTrie.empty (some keyBits)) = .ok (trieOver insertions) := by
  induction insertions using List.reverseRecOn with
  | nil => rfl
  | append_singleton insertions insertion ih =>
    have hkey := hkeys insertion (List.mem_append_right _ List.mem_cons_self)
    have hbefore := fun made hmade => hkeys made (List.mem_append_left _ hmade)
    obtain ⟨trie, hrun, -, -, -⟩ :=
      (reached_trieOver hbefore).insert (admits_trieOver hkey) hkey.wellFormed insertion.2
    rw [List.foldlM_append, ih hbefore, trieOver_concat, hrun]
    simp only [bind, Except.bind, List.foldlM, hstep _ _ _ hrun]
    rfl

/-- Sealing takes everything that was queued. -/
theorem sealedTrie_eq (hkeys : ∀ insertion ∈ insertions, insertion.1.IsKey) :
    Partition.sealedTrie insertions = .ok (trieOver insertions).toSealed := by
  rw [Partition.sealedTrie, foldlM_eq_trieOver ?_ hkeys]
  · rfl
  · intro trie insertion next hrun
    dsimp only
    rw [hrun]

/-- The proof says what the trie over the insertions holds under the key. -/
structure LookupProof.AnswersFor (key : Bits) (proof : LookupProof) (insertions : List Insertion) :
    Prop where
  verify : proof.verify key (trieOver insertions).rootHash = .ok ()
  isMember : proof.isMember = true ↔ entriesUnder key insertions ≠ []
  values : proof.values = entriesUnder key insertions

/-- A trie answers for every key; whether it is sealed does not matter. -/
theorem exists_prove_trieOver (hkeys : ∀ insertion ∈ insertions, insertion.1.IsKey)
    (hkey : key.IsKey) :
    ∃ proof, (trieOver insertions).prove key = .ok proof ∧
      (trieOver insertions).toSealed.prove key = .ok proof ∧ proof.AnswersFor key insertions := by
  obtain ⟨proof, hproof, hverify, hmember, hvalues⟩ :=
    (reached_trieOver hkeys).prove_spec (admits_trieOver hkey) hkey.wellFormed
  exact ⟨proof, hproof, hproof, hverify, hmember, hvalues⟩

/-- The values of a proof that answers for a trie are those inserted under the key. -/
theorem LookupProof.AnswersFor.mem_values_iff {proof : LookupProof} (h : proof.AnswersFor key insertions)
    {entry : ValueEntry} : entry ∈ proof.values ↔ (key, entry) ∈ insertions := by
  rw [h.values, mem_entriesUnder_iff]

end

end KeyTransparency
