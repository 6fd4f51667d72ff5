import KeyTransparency.Proofs.Log.Climb

/-!
# A log proves that it continues each of its earlier states

The path of a consistency proof, with the old root in front where the old digest has it, rebuilds both
tree hashes:

    rebuild m n (subproof m start n false).reverse =
      some the tree hashes of the first m and of all n entries from start on      (rebuild_subproof)
    m < n → subproof m start n false =
      (the old root, if m is a power of two) ++ subproof m start n true           (subproof_false)
-/

namespace KeyTransparency

open Tower Log

namespace CommitmentLog

variable {entries : List LogEntry}

/-- A path that leaves the old root out because the verifier has it. -/
theorem subproof_false (log : CommitmentLog) {m start n : Nat} (hpos : 0 < m) (hlt : m < n) :
    log.subproof m start n false =
      (if isPowerOfTwo m then [log.subtree start m] else []) ++ log.subproof m start n true := by
  induction n using Nat.strongRecOn with
  | ind n ih =>
    obtain ⟨level, hsplit, hlow, hhigh⟩ := exists_splitPoint (n := n) (by omega)
    rw [subproof, subproof, if_neg (Nat.ne_of_lt hlt), if_neg (Nat.ne_of_lt hlt),
      dif_neg (by omega), dif_neg (by omega)]
    simp only [hsplit]
    by_cases hleft : m ≤ blockSize level
    · rw [if_pos hleft, if_pos hleft, ← List.append_assoc]
      rcases Nat.lt_or_eq_of_le hleft with hinner | rfl
      · rw [ih _ hlow hinner]
      · -- the old tree is the left subtree
        rw [subproof, if_pos rfl, subproof, if_pos rfl, if_pos (isPowerOfTwo_iff.2 ⟨level, rfl⟩)]
        rfl
    · -- between the split point and its double there is no power of two
      have hnot : ¬ isPowerOfTwo m = true := by
        rw [isPowerOfTwo_iff]
        rintro ⟨k, rfl⟩
        rcases blockSize_le_or k level with h | h <;> omega
      rw [if_neg hleft, if_neg hleft, if_neg hnot, List.nil_append]

/-- **The path rebuilds both tree hashes.** -/
theorem rebuild_subproof {m start n : Nat} (hpos : 0 < m) (hle : m ≤ n)
    (hfit : start + n ≤ entries.length) :
    ∃ root, rebuild m n ((ofEntries entries).subproof m start n false).reverse = some root ∧
      root.old = treeHash ((entries.drop start).take m) ∧
      root.new = treeHash ((entries.drop start).take n) := by
  induction n using Nat.strongRecOn generalizing m start with
  | ind n ih =>
    rw [subproof]
    by_cases hsame : m = n
    · subst hsame
      rw [if_pos rfl, subtree_ofEntries entries hfit]
      exact ⟨.shared _, if_pos rfl, rfl, rfl⟩
    · have hlt := splitPoint_lt (n := n) (by omega)
      have hsplitPos := splitPoint_pos n
      rw [if_neg hsame, dif_neg (by omega)]
      simp only
      by_cases hleft : m ≤ splitPoint n
      · obtain ⟨inner, hinner, hold, hnew⟩ :=
          ih _ hlt hpos hleft (show start + splitPoint n ≤ entries.length by omega)
        rw [if_pos hleft, List.reverse_append, List.reverse_singleton, List.singleton_append, rebuild,
          if_neg hsame]
        simp only [if_pos hleft]
        refine ⟨_, congrArg (Option.map _) hinner, hold, ?_⟩
        rw [treeHash_stretch (by omega) hfit, ← hnew, subtree_ofEntries entries (by omega)]
        rfl
      · obtain ⟨inner, hinner, hold, hnew⟩ :=
          ih (n - splitPoint n) (by omega) (show 0 < m - splitPoint n by omega) (by omega)
            (show start + splitPoint n + (n - splitPoint n) ≤ entries.length by omega)
        have hsplit : splitPoint m = splitPoint n := splitPoint_eq_of_lt (by omega) hle
        rw [if_neg hleft, List.reverse_append, List.reverse_singleton, List.singleton_append, rebuild,
          if_neg hsame]
        simp only [if_neg hleft]
        refine ⟨_, congrArg (Option.map _) hinner, ?_, ?_⟩
        · rw [treeHash_stretch (by omega) (by omega), hsplit, ← hold,
            subtree_ofEntries entries (by omega)]
          rfl
        · rw [treeHash_stretch (by omega) hfit, ← hnew, subtree_ofEntries entries (by omega)]
          rfl

/-- What a verifier climbs with is the path together with the old root. -/
theorem nodes_subproof {m n : Nat} (hpos : 0 < m) (hlt : m < n) (hfit : n ≤ entries.length) :
    ConsistencyProof.nodes ⟨m, n, (ofEntries entries).subproof m 0 n true⟩
      ⟨treeHash (entries.take m), m⟩ = (ofEntries entries).subproof m 0 n false := by
  have hm : m ≤ entries.length := by omega
  rw [subproof_false _ hpos hlt, subtree_ofEntries_zero entries hm, ConsistencyProof.nodes]
  split
  · rfl
  · rfl

theorem exists_consistencyProof {m n : Nat} (hle : m ≤ n) (hfit : n ≤ entries.length) :
    ∃ proof, (ofEntries entries).consistencyProof m n = .ok proof ∧
      verifyConsistency ⟨treeHash (entries.take m), m⟩ ⟨treeHash (entries.take n), n⟩ proof =
        .ok () := by
  have hrange : ¬ (n < m ∨ (ofEntries entries).size < n) := by
    rw [size_ofEntries]
    omega
  rw [consistencyProof, if_neg hrange]
  rcases Nat.lt_or_eq_of_le hle with hlt | rfl
  · rcases Nat.eq_zero_or_pos m with rfl | hpos
    · rw [if_pos (Or.inl rfl)]
      exact ⟨_, rfl, (ConsistencyProof.verify_eq_ok_iff_of_empty rfl hlt).2 ⟨⟨rfl, rfl⟩, rfl⟩⟩
    · rw [if_neg (by omega)]
      refine ⟨_, rfl, (ConsistencyProof.verify_eq_ok_iff_of_lt hpos hlt).2 ⟨⟨rfl, rfl⟩, ?_⟩⟩
      rw [nodes_subproof hpos hlt hfit]
      have hstart : 0 + n ≤ entries.length := by omega
      exact rebuild_subproof hpos hle hstart
  · rw [if_pos (Or.inr rfl)]
    exact ⟨_, rfl, (ConsistencyProof.verify_eq_ok_iff_of_eq rfl).2 ⟨⟨rfl, rfl⟩, rfl, rfl⟩⟩

/-- A log proves that it continues a log whose entries it begins with. -/
theorem exists_proof_of_prefix {entries' : List LogEntry} (hbegins : entries <+: entries') :
    ∃ proof, (ofEntries entries').consistencyProof (ofEntries entries).size (ofEntries entries').size =
        .ok proof ∧
      verifyConsistency (ofEntries entries).digest (ofEntries entries').digest proof = .ok () := by
  obtain ⟨proof, hproof, hverify⟩ := exists_consistencyProof hbegins.length_le (Nat.le_refl _)
  rw [← List.prefix_iff_eq_take.1 hbegins, List.take_length] at hverify
  refine ⟨proof, ?_, ?_⟩
  · rw [size_ofEntries, size_ofEntries, hproof]
  · rw [digest_ofEntries, digest_ofEntries, hverify]

theorem digestAt_ofEntries {n : Nat} (hfit : n ≤ entries.length) :
    (ofEntries entries).digestAt n = .ok ⟨treeHash (entries.take n), n⟩ := by
  rw [digestAt, size_ofEntries, if_neg (Nat.not_lt_of_le hfit), subtree_ofEntries_zero entries hfit]

/-- **A log proves that it continues each of its earlier states.**  For sizes in order and within the
log there is a proof, it verifies against the digests that the log had at these sizes, and no look-up
on the way misses; for other sizes the answer is that the range is invalid. -/
theorem consistency_complete (entries : List LogEntry) (m n : Nat) :
    (m ≤ n → n ≤ (ofEntries entries).size →
      ∃ old new proof, (ofEntries entries).digestAt m = .ok old ∧
        (ofEntries entries).digestAt n = .ok new ∧
        (ofEntries entries).consistencyProof m n = .ok proof ∧
        verifyConsistency old new proof = .ok () ∧
        ∀ read ∈ subtreeReads 0 m ++ subtreeReads 0 n ++ consistencyReads m n,
          ((ofEntries entries).levels.node? read.1 read.2).isSome) ∧
    (n < m ∨ (ofEntries entries).size < n →
      (ofEntries entries).consistencyProof m n = .error (.invalidRange m n)) := by
  constructor
  · intro hle hfit
    rw [size_ofEntries] at hfit
    have hm : m ≤ entries.length := by omega
    obtain ⟨proof, hproof, hverify⟩ := exists_consistencyProof hle hfit
    refine ⟨_, _, proof, digestAt_ofEntries hm, digestAt_ofEntries hfit, hproof, hverify, ?_⟩
    intro read hread
    rw [List.mem_append, List.mem_append] at hread
    rcases hread with (hread | hread) | hread
    · exact isSome_of_mem_subtreeReads (by omega) hread
    · exact isSome_of_mem_subtreeReads (by omega) hread
    · exact isSome_of_mem_consistencyReads hfit hread
  · intro hrange
    exact if_pos hrange

/-- Five entries, the first three of them proved; the sizes in the wrong order are refused. -/
theorem consistency_complete_three_of_five :
    let entry (n : UInt64) : LogEntry := ⟨n, Hash.zero⟩
    let log := ofEntries [entry 0, entry 1, entry 2, entry 3, entry 4]
    (3 ≤ 5 ∧ 5 ≤ log.size ∧
      ∃ old new proof, log.digestAt 3 = .ok old ∧ log.digestAt 5 = .ok new ∧
        log.consistencyProof 3 5 = .ok proof ∧ verifyConsistency old new proof = .ok () ∧
        ∀ read ∈ subtreeReads 0 3 ++ subtreeReads 0 5 ++ consistencyReads 3 5,
          (log.levels.node? read.1 read.2).isSome) ∧
    ((3 < 5 ∨ log.size < 3) ∧ log.consistencyProof 5 3 = .error (.invalidRange 5 3)) := by
  intro entry log
  have hsize : 5 ≤ log.size := by
    rw [size_ofEntries]
    decide
  have hrange : 3 < 5 ∨ log.size < 3 := Or.inl (by decide)
  exact ⟨⟨by decide, hsize, (consistency_complete _ 3 5).1 (by decide) hsize⟩,
    hrange, (consistency_complete _ 5 3).2 hrange⟩

end CommitmentLog

end KeyTransparency
