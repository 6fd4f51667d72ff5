import KeyTransparency.Proofs.Log.Completeness

/-!
# What the digests of a log stand for

`TreeOver hashes hash` says what the root of the tree over a list of leaf hashes is, without computing
where to split: the left part of a larger tree has a power of two leaves, and the right part is not
empty and no longer than the left one.  There is one such root for every list (`TreeOver.unique`), and
at every size a log answers it, however many entries follow:

    n ≤ entries.length → (ofEntries entries after more appends).digestAt n = ok ⟨root, n⟩,
      TreeOver (leaf hashes of the first n entries) hash ↔ hash = root      (digests_are_tree_hashes)

The hashes and paths are read off the tower.  `subtreeReads` and `subproofReads` hold all look-ups made
for them: logs that agree in these places give the same answers (`subtree_congr`, `subproof_congr`).
-/

namespace KeyTransparency

open Tower

namespace Log

/-! ## Trees over leaf hashes -/

/-- The hash of the tree over leaf hashes. -/
inductive TreeOver : (hashes : List Hash) → (root : Hash) → Prop
  | empty : TreeOver [] emptyRoot
  | leaf (hash : Hash) : TreeOver [hash] hash
  | node {left right : List Hash} {leftRoot rightRoot : Hash} (level : Nat) :
      left.length = 2 ^ level → 0 < right.length → right.length ≤ left.length →
      TreeOver left leftRoot → TreeOver right rightRoot →
      TreeOver (left ++ right) (nodeHash leftRoot rightRoot)

/-- The parts meet at the largest power of two below the number of leaves. -/
theorem length_eq_splitPoint {left right : List Hash} {level : Nat} (hleft : left.length = 2 ^ level)
    (hpos : 0 < right.length) (hle : right.length ≤ left.length) :
    left.length = splitPoint (left ++ right).length := by
  have hsize : left.length = blockSize level := hleft
  have hsplit : splitPoint (left ++ right).length = blockSize level := by
    rw [List.length_append]
    exact splitPoint_eq (by omega) (by omega)
  rw [hsplit, hsize]

theorem two_le_length_append {left right : List Hash} {level : Nat} (hleft : left.length = 2 ^ level)
    (hpos : 0 < right.length) : 2 ≤ (left ++ right).length := by
  have hleftPos : 0 < 2 ^ level := Nat.two_pow_pos level
  rw [List.length_append]
  omega

/-- A list of leaf hashes has one root. -/
theorem TreeOver.unique {hashes : List Hash} {root root' : Hash} (h : TreeOver hashes root)
    (h' : TreeOver hashes root') : root = root' := by
  induction h generalizing root' with
  | empty =>
    generalize hnil : ([] : List Hash) = hashes at h'
    cases h' with
    | empty => rfl
    | leaf => cases hnil
    | node level hleft hpos =>
      have hlen := two_le_length_append hleft hpos
      rw [← hnil] at hlen
      cases hlen
  | leaf hash =>
    generalize hsingle : [hash] = hashes at h'
    cases h' with
    | empty => cases hsingle
    | leaf =>
      cases hsingle
      rfl
    | node level hleft hpos =>
      have hlen := two_le_length_append hleft hpos
      rw [← hsingle, List.length_singleton] at hlen
      omega
  | @node left right leftRoot rightRoot level hleft hpos hle _ _ ihleft ihright =>
    have hlen := two_le_length_append hleft hpos
    have hsplit := length_eq_splitPoint hleft hpos hle
    generalize hboth : left ++ right = hashes at h' hlen hsplit
    cases h' with
    | empty => cases hlen
    | leaf =>
      rw [List.length_singleton] at hlen
      omega
    | @node left' right' _ _ level' hleft' hpos' hle' hl hr =>
      -- Both are split at the same place.
      have hsame : left.length = left'.length :=
        hsplit.trans (length_eq_splitPoint hleft' hpos' hle').symm
      obtain ⟨rfl, rfl⟩ := List.append_inj hboth hsame
      rw [ihleft hl, ihright hr]

/-- The tree hash by recursion is the root. -/
theorem treeOver_treeHash (entries : List LogEntry) :
    TreeOver (entries.map leafHash) (treeHash entries) := by
  induction entries using split_induction with
  | nil =>
    rw [treeHash_nil]
    exact .empty
  | single entry =>
    rw [treeHash_singleton]
    exact .leaf _
  | split entries hlen ihleft ihright =>
    obtain ⟨level, hsplit, hlow, hhigh⟩ := exists_splitPoint hlen
    have hleft : ((entries.take (splitPoint entries.length)).map leafHash).length = blockSize level := by
      rw [List.length_map, List.length_take, hsplit]
      omega
    have hright : ((entries.drop (splitPoint entries.length)).map leafHash).length =
        entries.length - blockSize level := by
      rw [List.length_map, List.length_drop, hsplit]
    have htree := TreeOver.node level hleft (by omega) (by omega) ihleft ihright
    rwa [← List.map_append, List.take_append_drop, ← treeHash_split hlen] at htree

theorem treeOver_iff {entries : List LogEntry} {root : Hash} :
    TreeOver (entries.map leafHash) root ↔ root = treeHash entries := by
  constructor
  · intro h
    exact h.unique (treeOver_treeHash entries)
  · rintro rfl
    exact treeOver_treeHash entries

end Log

namespace CommitmentLog

open Log

/-! ## What the answers depend on -/

section

variable {log log' : CommitmentLog} {m start n : Nat} {complete : Bool}

/-- Logs with the same nodes in the places that are looked up. -/
def AgreeOn (log log' : CommitmentLog) (reads : List (Nat × Nat)) : Prop :=
  ∀ read ∈ reads, log.levels.node? read.1 read.2 = log'.levels.node? read.1 read.2

theorem AgreeOn.append_iff {reads reads' : List (Nat × Nat)} :
    AgreeOn log log' (reads ++ reads') ↔ AgreeOn log log' reads ∧ AgreeOn log log' reads' :=
  List.forall_mem_append

/-- The hash of a stretch depends on the listed nodes alone. -/
theorem subtree_congr (h : AgreeOn log log' (subtreeReads start n)) :
    log.subtree start n = log'.subtree start n := by
  fun_induction subtreeReads start n with
  | case1 => rw [subtree, subtree, dif_pos rfl, dif_pos rfl]
  | case2 start n hpos hperfect =>
    have hread := h _ (List.mem_singleton.2 rfl)
    rw [subtree, subtree, dif_neg hpos, dif_neg hpos, if_pos hperfect, if_pos hperfect, hread]
  | case3 start n hpos himperfect hlt =>
    rw [subtree, subtree, dif_neg hpos, dif_neg hpos, if_neg himperfect, if_neg himperfect,
      dif_pos hlt, dif_pos hlt]
  | case4 start n hpos himperfect hle ihleft ihright =>
    obtain ⟨hleft, hright⟩ := AgreeOn.append_iff.1 h
    rw [subtree, subtree, dif_neg hpos, dif_neg hpos, if_neg himperfect, if_neg himperfect,
      dif_neg hle, dif_neg hle]
    simp only [ihleft hleft, ihright hright]

theorem subproof_congr (h : AgreeOn log log' (subproofReads m start n complete)) :
    log.subproof m start n complete = log'.subproof m start n complete := by
  fun_induction subproofReads m start n complete with
  | case1 => rw [subproof, subproof, if_pos rfl, if_pos rfl, if_pos rfl, if_pos rfl]
  | case2 => rw [subproof, subproof, if_pos rfl, if_pos rfl, subtree_congr h]
  | case3 m start n complete hmn hlt =>
    rw [subproof, subproof, if_neg hmn, if_neg hmn, dif_pos hlt, dif_pos hlt]
  | case4 m start n complete hmn hle k hm ih =>
    obtain ⟨hinner, hright⟩ := AgreeOn.append_iff.1 h
    rw [subproof, subproof, if_neg hmn, if_neg hmn, dif_neg hle, dif_neg hle]
    simp only
    rw [if_pos hm, if_pos hm, ih hinner, subtree_congr hright]
  | case5 m start n complete hmn hle k hm ih =>
    obtain ⟨hinner, hleft⟩ := AgreeOn.append_iff.1 h
    rw [subproof, subproof, if_neg hmn, if_neg hmn, dif_neg hle, dif_neg hle]
    simp only
    rw [if_neg hm, if_neg hm, ih hinner, subtree_congr hleft]

theorem digestAt_congr (hsize : log.size = log'.size) (h : AgreeOn log log' (subtreeReads 0 n)) :
    log.digestAt n = log'.digestAt n := by
  rw [digestAt, digestAt, hsize, subtree_congr h]

theorem consistencyProof_congr (hsize : log.size = log'.size)
    (h : AgreeOn log log' (consistencyReads m n)) :
    log.consistencyProof m n = log'.consistencyProof m n := by
  rw [consistencyProof, consistencyProof, hsize]
  by_cases hempty : m = 0 ∨ m = n
  · rw [if_pos hempty, if_pos hempty]
  · rw [consistencyReads, if_neg hempty] at h
    rw [subproof_congr h]

end

/-! ## The digests -/

/-- Appending goes on where a log stands. -/
theorem foldl_append_ofEntries (entries later : List LogEntry) :
    later.foldl append (ofEntries entries) = ofEntries (entries ++ later) := by
  rw [ofEntries, ofEntries, List.foldl_append]

/-- **The digests of a log are plain tree hashes.**  After any appends the digest at each earlier size
holds the one root of the tree over the leaf hashes of so many entries, and the root of the log that of
the tree over all.  The look-ups made for a digest and for a consistency proof all find a node, and no
other part of the tower matters for the answers. -/
theorem digests_are_tree_hashes (entries later : List LogEntry) {n : Nat} (hn : n ≤ entries.length) :
    let log := later.foldl append (ofEntries entries)
    (∃ root, log.digestAt n = .ok ⟨root, n⟩ ∧ root = treeHash (entries.take n) ∧
      ∀ hash, TreeOver ((entries.take n).map leafHash) hash ↔ hash = root) ∧
    (∀ hash, TreeOver ((entries ++ later).map leafHash) hash ↔ hash = log.root) ∧
    ∀ m, (∀ read ∈ subtreeReads 0 n ++ consistencyReads m n,
        (log.levels.node? read.1 read.2).isSome) ∧
      ∀ other : CommitmentLog, other.size = log.size →
        other.AgreeOn log (subtreeReads 0 n ++ consistencyReads m n) →
        other.digestAt n = log.digestAt n ∧ other.consistencyProof m n = log.consistencyProof m n := by
  intro log
  have hlog : log = ofEntries (entries ++ later) := foldl_append_ofEntries entries later
  have hfit : n ≤ (entries ++ later).length := by
    rw [List.length_append]
    omega
  refine ⟨⟨treeHash (entries.take n), ?_, rfl, fun hash => treeOver_iff⟩, fun hash => ?_, fun m => ⟨?_, ?_⟩⟩
  · rw [hlog, digestAt_ofEntries hfit, List.take_append_of_le_length hn]
  · have hroot : log.root = treeHash (entries ++ later) := by
      rw [hlog]
      exact congrArg LogDigest.root (digest_ofEntries (entries ++ later))
    rw [hroot, treeOver_iff]
  · intro read hread
    rw [hlog]
    rcases List.mem_append.1 hread with hread | hread
    · exact isSome_of_mem_subtreeReads (by omega) hread
    · exact isSome_of_mem_consistencyReads hfit hread
  · intro other hsize hagree
    obtain ⟨hdigest, hproof⟩ := AgreeOn.append_iff.1 hagree
    exact ⟨digestAt_congr hsize hdigest, consistencyProof_congr hsize hproof⟩

/-- Three of five entries, with one more appended. -/
theorem digests_are_tree_hashes_three_of_six :
    let entry (n : UInt64) : LogEntry := ⟨n, Hash.zero⟩
    let entries := [entry 0, entry 1, entry 2, entry 3, entry 4]
    let log := [entry 5].foldl append (ofEntries entries)
    3 ≤ entries.length ∧
      (∃ root, log.digestAt 3 = .ok ⟨root, 3⟩ ∧
        TreeOver [leafHash (entry 0), leafHash (entry 1), leafHash (entry 2)] root) ∧
      TreeOver ((entries ++ [entry 5]).map leafHash) log.root ∧
      ∀ read ∈ subtreeReads 0 3 ++ consistencyReads 2 3, (log.levels.node? read.1 read.2).isSome := by
  intro entry entries log
  have hn : 3 ≤ entries.length := by decide
  obtain ⟨⟨root, hdigest, -, hroot⟩, hall, hreads⟩ := digests_are_tree_hashes entries [entry 5] hn
  exact ⟨hn, ⟨root, hdigest, (hroot root).2 rfl⟩, (hall _).2 rfl, (hreads 2).1⟩

end CommitmentLog

end KeyTransparency
