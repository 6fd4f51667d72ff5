import KeyTransparency.Proofs.Trie.Descent
import KeyTransparency.Proofs.Trie.Run

/-!
# A trie answers for the run that made it, and proves its answers

After any run of insertions from an empty trie, refused ones included, a trie holds under each key of
its length the entries it accepted there, in their order, and its proof of that answer verifies
against its root hash:

    trie.get? key = ok (held? key done)                                        (Reached.get?_eq)
    root.walk key = ok walk → walk.values? = root.find? key                     (Walked.values?_eq)
    walk.toProof = ok proof,  proof.verify key root = ok                        (Walked.toProof_spec)
-/

namespace KeyTransparency

namespace Trie.Subtree

section

variable {root t : Subtree} {n : Nat} {key rest : Bits} {walk : Walk} {side : UInt8}

/-- A walk finds what the labels say. -/
theorem Walked.values?_eq (h : Walked root key walk side t rest) (hroot : Rooted n root) :
    walk.values? = root.find? key := by
  obtain ⟨hbelow, rfl, hhead, hending⟩ := h
  obtain ⟨more, rfl⟩ := List.head?_eq_some_iff.1 hhead
  rw [hbelow.find? hroot, Walk.values?]
  generalize walk.ending = ending at hending
  cases hending with
  | found => simp
  | vacant => rfl
  | diverged _ hleaves => exact (find?_eq_none_of_leaves hleaves).symm

/-- The proof made of a walk says what the walk found, and verifies. -/
theorem Walked.toProof_spec (h : Walked root key walk side t rest) (hroot : Rooted n root)
    {rootHash : Hash} (hhash : root.hash? = some rootHash) :
    ∃ proof, walk.toProof = .ok proof ∧ proof.verify key rootHash = .ok () ∧
      (proof.isMember = true ↔ walk.values? ≠ none) ∧ proof.values = walk.values?.getD [] := by
  obtain ⟨hbelow, rfl, hhead, hending⟩ := h
  have hfold := (fold_below hbelow hroot).trans hhash
  obtain ⟨more, rfl⟩ := List.head?_eq_some_iff.1 hhead
  obtain ⟨m, -, hgrown⟩ := hbelow.grown hroot
  unfold Walk.toProof Walk.values?
  generalize walk.ending = ending at hending
  cases hending with
  | found =>
    refine ⟨_, rfl, ?_, by simp [LookupProof.isMember], rfl⟩
    exact MembershipProof.verify_eq_ok_iff.2 ⟨side, rfl, rfl, hfold⟩
  | vacant =>
    have hlen : walk.copath.length = 1 := by
      rcases hgrown with hgrown | ⟨-, hlen⟩
      · exact absurd rfl hgrown.ne_vacant
      · exact hlen
    refine ⟨_, if_pos hlen, ?_, by simp [LookupProof.isMember], rfl⟩
    have hflags : (Bits.ofFlags [side]).head? = some side := by
      rcases hbelow.side_cases with rfl | rfl <;> rfl
    exact NonMembershipProof.verify_eq_ok_iff.2
      ⟨side, more, hflags, rfl, by simp [NonMembershipProof.diverges, hlen, Bits.ofFlags], hfold⟩
  | diverged hthash hleaves =>
    have hlabel : t.label.head? = some side := by
      rcases hgrown with hgrown | ⟨rfl, -⟩
      · exact hgrown.head
      · cases hthash
    refine ⟨_, rfl, ?_, by simp [LookupProof.isMember], rfl⟩
    rw [hthash] at hfold
    have hnot : t.label.isPrefixOf (side :: more) = false :=
      Bool.eq_false_iff.2 fun hp => hleaves (List.isPrefixOf_iff_prefix.1 hp)
    exact NonMembershipProof.verify_eq_ok_iff.2
      ⟨side, more, hlabel, rfl, by rw [NonMembershipProof.diverges, hnot]; rfl, hfold⟩

end

end Trie.Subtree

namespace PrefixTrie

open Trie Subtree

section

variable {trie : PrefixTrie} {done : List Insertion} {key : Bits}

theorem get?_eq (hkey : trie.Admits key) :
    trie.get? key = ((trie.root.walk key).map Walk.values?).mapError .malformed := by
  unfold get?
  rw [checkKey_eq_ok hkey]

theorem prove_eq (hkey : trie.Admits key) :
    trie.prove key = ((trie.root.walk key).bind Walk.toProof).mapError .malformed := by
  unfold prove
  rw [checkKey_eq_ok hkey]
  rfl

theorem Reached.get?_eq (h : Reached trie done) (hkey : trie.Admits key) (hbits : key.WellFormed) :
    trie.get? key = .ok (held? key done) := by
  have hroot := h.rooted key.length hkey.2
  obtain ⟨walk, side, t, rest, hwalk, hwalked⟩ := walk_spec hroot hkey.1 hbits rfl
  rw [PrefixTrie.get?_eq hkey, hwalk, ← h.find, ← hwalked.values?_eq hroot]
  rfl

theorem Reached.prove_spec (h : Reached trie done) (hkey : trie.Admits key)
    (hbits : key.WellFormed) :
    ∃ proof, trie.prove key = .ok proof ∧ proof.verify key trie.rootHash = .ok () ∧
      (proof.isMember = true ↔ entriesUnder key done ≠ []) ∧
      proof.values = entriesUnder key done := by
  have hroot := h.rooted key.length hkey.2
  obtain ⟨walk, side, t, rest, hwalk, hwalked⟩ := walk_spec hroot hkey.1 hbits rfl
  obtain ⟨proof, hproof, hverify, hmember, hvalues⟩ := hwalked.toProof_spec hroot h.hash?_root
  rw [hwalked.values?_eq hroot, h.find] at hmember hvalues
  refine ⟨proof, ?_, hverify, ?_, hvalues.trans (getD_held? key done)⟩
  · rw [prove_eq hkey, hwalk]
    show (walk.toProof).mapError Error.malformed = _
    rw [hproof]
    rfl
  · rw [hmember, held?]
    split
    · next hnil => simp [hnil]
    · next hnil => simp [hnil]

/-- **A trie is correct for its run.**  Whatever was tried, it holds under each key of its length what
it accepted there, counts its keys, and proves every answer. -/
theorem correct_after_run (keyLength : Option Nat) (inserts : List Insertion)
    (hbits : ∀ insertion ∈ inserts, insertion.1.WellFormed) :
    let trie := (empty keyLength).insertAll inserts
    let done := (empty keyLength).accepted inserts
    trie.size = (done.map Prod.fst).toFinset.card ∧
      ∀ key : Bits, trie.Admits key → key.WellFormed →
        (∀ entry, (trie.insert key entry).2 = .ok ()) ∧
        trie.get? key =
          .ok (if entriesUnder key done = [] then none else some (entriesUnder key done)) ∧
        (∀ hash, trie.containsValue key hash =
          .ok ((entriesUnder key done).any fun entry => entry.hash = hash)) ∧
        ∃ proof, trie.prove key = .ok proof ∧ proof.verify key trie.rootHash = .ok () ∧
          (proof.isMember = true ↔ entriesUnder key done ≠ []) ∧
          proof.values = entriesUnder key done := by
  intro trie done
  have h : Reached trie done := reached_insertAll keyLength hbits
  refine ⟨h.size, fun key hkey hkeyBits => ⟨fun entry => ?_, h.get?_eq hkey hkeyBits, fun hash => ?_,
    h.prove_spec hkey hkeyBits⟩⟩
  · obtain ⟨trie', hrun, -⟩ := h.insert hkey hkeyBits entry
    rw [hrun]
  · unfold containsValue
    rw [h.get?_eq hkey hkeyBits]
    show Except.ok (((held? key done).getD []).any _) = _
    rw [getD_held?]

end

/-- A run with a refused key; the first key has two values, and splits the label of the third. -/
theorem correct_after_run_with_refusal :
    let inserts : List Insertion :=
      [([0, 1, 1], ⟨Hash.zero, 0⟩), ([0, 1], ⟨Hash.zero, 1⟩), ([0, 1, 0], ⟨Hash.zero, 2⟩),
        ([0, 1, 1], ⟨Hash.zero, 3⟩)]
    let trie := (empty none).insertAll inserts
    (∀ insertion ∈ inserts, insertion.1.WellFormed) ∧ trie.Admits [0, 1, 1] ∧
      Bits.WellFormed [0, 1, 1] ∧ trie.size = 2 ∧
      trie.get? [0, 1, 1] = .ok (some [⟨Hash.zero, 0⟩, ⟨Hash.zero, 3⟩]) ∧
      ∃ proof, trie.prove [0, 1, 1] = .ok proof ∧ proof.verify [0, 1, 1] trie.rootHash = .ok () ∧
        proof.values = [⟨Hash.zero, 0⟩, ⟨Hash.zero, 3⟩] := by
  intro inserts trie
  have hbits : ∀ insertion ∈ inserts, insertion.1.WellFormed := by decide
  have hkey : trie.Admits [0, 1, 1] := by decide +kernel
  have hkeyBits : Bits.WellFormed [0, 1, 1] := by decide
  obtain ⟨hsize, h⟩ := correct_after_run none inserts hbits
  obtain ⟨-, hget, -, proof, hprove, hverify, -, hvalues⟩ := h [0, 1, 1] hkey hkeyBits
  exact ⟨hbits, hkey, hkeyBits, hsize, hget, proof, hprove, hverify, hvalues⟩

end PrefixTrie

end KeyTransparency
