import KeyTransparency.Proofs.Log.Climb
import KeyTransparency.Proofs.Preimage

/-!
# What a verified consistency proof binds

The strings hashed for a log (`CommitmentLog.preimages`) and during a verification
(`ConsistencyProof.preimages`) are lists of their own.  Up to a collision among them a tree hash binds
the entries of a tree of known size, and a verified proof binds the old log:

    treeHash entries = treeHash entries' → entries = entries', or a collision          (treeHash_inj)
    rebuild m n path = the tree hashes of entries and entries' →
      entries <+: entries', or a collision                                             (prefix_of_rebuild)

The second goes along the splits of the new tree.  Where the old tree ends on the left of a split, it
has to be found in the left subtree; where it reaches over, both trees are split there, and the sibling
in the proof shows that their left subtrees are the same.
-/

namespace KeyTransparency

open Tower Log

/-! ## Hashed strings -/

namespace CommitmentLog

/-- The strings hashed for the leaves of a log and the nodes that it keeps. -/
def storedPreimages (log : CommitmentLog) : List Bytes :=
  log.entries.toList.map leafPreimage ++ log.levels.joins.map fun pair => nodePreimage pair.1 pair.2

/-- The strings hashed for a stretch of a log, those of the nodes it keeps apart. -/
def subtreePreimages (log : CommitmentLog) (start n : Nat) : List Bytes :=
  if _ : n = 0 then [emptyPreimage]
  else if isPowerOfTwo n && start % n == 0 then []
  else if _ : n < 2 then []
  else
    let k := splitPoint n
    nodePreimage (log.subtree start k) (log.subtree (start + k) (n - k)) ::
      (log.subtreePreimages start k ++ log.subtreePreimages (start + k) (n - k))
termination_by n
decreasing_by
  · exact splitPoint_lt (by omega)
  · have := splitPoint_pos n
    omega

/-- The strings hashed to build a log and to take its digest. -/
def preimages (log : CommitmentLog) : List Bytes :=
  log.storedPreimages ++ log.subtreePreimages 0 log.size

end CommitmentLog

/-! ## Tree hashes -/

namespace Log

/-- The strings hashed for the tree over a list of entries. -/
def treePreimages (entries : List LogEntry) : List Bytes :=
  match entries with
  | [] => [emptyPreimage]
  | [entry] => [leafPreimage entry]
  | first :: second :: rest =>
    let k := splitPoint (rest.length + 2)
    let left := (first :: second :: rest).take k
    let right := (first :: second :: rest).drop k
    nodePreimage (treeHash left) (treeHash right) :: (treePreimages left ++ treePreimages right)
termination_by entries.length
decreasing_by
  · have := splitPoint_lt (n := rest.length + 2) (by omega)
    simp only [List.length_take, List.length_cons]
    omega
  · have := splitPoint_pos (rest.length + 2)
    simp only [List.length_drop, List.length_cons]
    omega

theorem treePreimages_nil : treePreimages [] = [emptyPreimage] := by rw [treePreimages]

theorem treePreimages_singleton (entry : LogEntry) :
    treePreimages [entry] = [leafPreimage entry] := by rw [treePreimages]

theorem treePreimages_split {entries : List LogEntry} (h : 2 ≤ entries.length) :
    treePreimages entries =
      nodePreimage (treeHash (entries.take (splitPoint entries.length)))
          (treeHash (entries.drop (splitPoint entries.length))) ::
        (treePreimages (entries.take (splitPoint entries.length)) ++
          treePreimages (entries.drop (splitPoint entries.length))) := by
  match entries, h with
  | first :: second :: rest, _ =>
    rw [treePreimages]
    rfl

section

variable {strings : List Bytes}

theorem treePreimages_subset_iff {entries : List LogEntry} (h : 2 ≤ entries.length) :
    treePreimages entries ⊆ strings ↔
      nodePreimage (treeHash (entries.take (splitPoint entries.length)))
          (treeHash (entries.drop (splitPoint entries.length))) ∈ strings ∧
        treePreimages (entries.take (splitPoint entries.length)) ⊆ strings ∧
        treePreimages (entries.drop (splitPoint entries.length)) ⊆ strings := by
  rw [treePreimages_split h, List.cons_subset, List.append_subset]

theorem treePreimages_stretch_subset_iff {entries : List LogEntry} {start n : Nat} (hn : 2 ≤ n)
    (hfit : start + n ≤ entries.length) :
    treePreimages ((entries.drop start).take n) ⊆ strings ↔
      nodePreimage (treeHash ((entries.drop start).take (splitPoint n)))
          (treeHash ((entries.drop (start + splitPoint n)).take (n - splitPoint n))) ∈ strings ∧
        treePreimages ((entries.drop start).take (splitPoint n)) ⊆ strings ∧
        treePreimages ((entries.drop (start + splitPoint n)).take (n - splitPoint n)) ⊆ strings := by
  have hlt := splitPoint_lt hn
  have hlen := length_stretch hfit
  rw [treePreimages_subset_iff (by omega), hlen, List.take_take, List.drop_take, List.drop_drop,
    Nat.min_eq_left (by omega)]

variable (hfree : ¬ Collision strings)

include hfree

/-- A node binds its children. -/
theorem nodeHash_inj {left right left' right' : Hash} (hmem : nodePreimage left right ∈ strings)
    (hmem' : nodePreimage left' right' ∈ strings)
    (h : nodeHash left right = nodeHash left' right') : left = left' ∧ right = right' :=
  nodePreimage_inj (eq_of_digest_eq hfree hmem hmem' h)

/-- **A tree hash binds the entries**, when their number is known. -/
theorem treeHash_inj {entries entries' : List LogEntry} (hlen : entries.length = entries'.length)
    (hmem : treePreimages entries ⊆ strings) (hmem' : treePreimages entries' ⊆ strings)
    (h : treeHash entries = treeHash entries') : entries = entries' := by
  induction entries using split_induction generalizing entries' with
  | nil => exact (List.eq_nil_of_length_eq_zero hlen.symm).symm
  | single entry =>
    obtain ⟨entry', rfl⟩ := List.length_eq_one_iff.1 hlen.symm
    rw [treePreimages_singleton] at hmem hmem'
    rw [treeHash_singleton, treeHash_singleton] at h
    have heq := eq_of_digest_eq hfree (hmem List.mem_cons_self) (hmem' List.mem_cons_self) h
    rw [leafPreimage_inj heq]
  | split entries hsplit ihleft ihright =>
    have hsplit' : 2 ≤ entries'.length := by omega
    obtain ⟨hnode, hleft, hright⟩ := (treePreimages_subset_iff hsplit).1 hmem
    obtain ⟨hnode', hleft', hright'⟩ := (treePreimages_subset_iff hsplit').1 hmem'
    rw [← hlen] at hnode' hleft' hright'
    rw [treeHash_split hsplit, treeHash_split hsplit', ← hlen] at h
    obtain ⟨heqLeft, heqRight⟩ := nodeHash_inj hfree hnode hnode' h
    have hl := ihleft (by simp only [List.length_take, hlen]) hleft hleft' heqLeft
    have hr := ihright (by simp only [List.length_drop, hlen]) hright hright' heqRight
    rw [← List.take_append_drop (splitPoint entries.length) entries, hl, hr, List.take_append_drop]

/-! ## Rebuilt roots -/

/-- **Roots that are rebuilt from one path** are those of a list and of a prefix of it. -/
theorem prefix_of_rebuild {path : List Hash} {entries entries' : List LogEntry} {root : Computed}
    (hpos : 0 < entries.length) (hle : entries.length ≤ entries'.length)
    (h : rebuild entries.length entries'.length path = some root)
    (hold : root.old = treeHash entries) (hnew : root.new = treeHash entries')
    (hmem : treePreimages entries ⊆ strings) (hmem' : treePreimages entries' ⊆ strings)
    (hhashed : root.hashed ⊆ strings) : entries <+: entries' := by
  induction path generalizing entries entries' root with
  | nil => cases h
  | cons sibling path ih =>
    rw [rebuild] at h
    by_cases hsame : entries.length = entries'.length
    · -- what is left of the path is the root of both trees
      rw [if_pos hsame] at h
      by_cases hpath : path = []
      · rw [if_pos hpath] at h
        cases h
        obtain rfl := treeHash_inj hfree hsame hmem hmem' (hold.symm.trans hnew)
        exact List.prefix_refl _
      · rw [if_neg hpath] at h
        cases h
    · have hsplit' : 2 ≤ entries'.length := by omega
      have hlt := splitPoint_lt hsplit'
      rw [if_neg hsame] at h
      rw [treeHash_split hsplit'] at hnew
      obtain ⟨hnode', hleft', hright'⟩ := (treePreimages_subset_iff hsplit').1 hmem'
      simp only at h
      by_cases hleft : entries.length ≤ splitPoint entries'.length
      · -- the old tree lies within the left subtree
        rw [if_pos hleft] at h
        obtain ⟨inner, hinner, rfl⟩ := Option.map_eq_some_iff.1 h
        simp only [Computed.joinRight, List.append_subset, List.cons_subset] at hhashed hold hnew
        obtain ⟨hhashed, hnode, -⟩ := hhashed
        obtain ⟨heqLeft, -⟩ := nodeHash_inj hfree hnode hnode' hnew
        have hlen : (entries'.take (splitPoint entries'.length)).length =
            splitPoint entries'.length := List.length_take_of_le (by omega)
        rw [← hlen] at hinner
        have hpre := ih hpos (by omega) hinner hold heqLeft hmem hleft' hhashed
        exact hpre.trans (List.take_prefix _ _)
      · -- both trees are split at the same place
        rw [if_neg hleft] at h
        have hsplit : splitPoint entries.length = splitPoint entries'.length :=
          splitPoint_eq_of_lt (by omega) hle
        have hposSplit := splitPoint_pos entries'.length
        have htwo : 2 ≤ entries.length := by omega
        rw [treeHash_split htwo, hsplit] at hold
        obtain ⟨hnode, hleftMem, hrightMem⟩ := (treePreimages_subset_iff htwo).1 hmem
        rw [hsplit] at hnode hleftMem hrightMem
        obtain ⟨inner, hinner, rfl⟩ := Option.map_eq_some_iff.1 h
        simp only [Computed.joinLeft, List.append_subset, List.cons_subset] at hhashed hold hnew
        obtain ⟨hhashed, hnodeOld, hnodeNew, -⟩ := hhashed
        obtain ⟨heqLeft, heqRight⟩ := nodeHash_inj hfree hnodeOld hnode hold
        obtain ⟨heqLeft', heqRight'⟩ := nodeHash_inj hfree hnodeNew hnode' hnew
        have hlens : (entries.take (splitPoint entries'.length)).length =
            (entries'.take (splitPoint entries'.length)).length := by
          rw [List.length_take_of_le (by omega), List.length_take_of_le (by omega)]
        have hl := treeHash_inj hfree hlens hleftMem hleft' (heqLeft.symm.trans heqLeft')
        rw [← List.length_drop, ← List.length_drop] at hinner
        have hr := ih (by rw [List.length_drop]; omega) (by simp only [List.length_drop]; omega) hinner
          heqRight heqRight' hrightMem hright' hhashed
        exact prefix_of_take_of_drop _ hl hr

/-- A proof that verifies between the tree hashes of two lists shows that the one is a prefix of the
other. -/
theorem prefix_of_verify {entries entries' : List LogEntry} {proof : ConsistencyProof}
    (hverify : verifyConsistency ⟨treeHash entries, entries.length⟩
      ⟨treeHash entries', entries'.length⟩ proof = .ok ())
    (hmem : treePreimages entries ⊆ strings) (hmem' : treePreimages entries' ⊆ strings)
    (hproof : proof.preimages ⟨treeHash entries, entries.length⟩
      ⟨treeHash entries', entries'.length⟩ ⊆ strings) : entries <+: entries' := by
  have hle : entries.length ≤ entries'.length := ConsistencyProof.size_le_of_verify hverify
  rcases Nat.eq_zero_or_pos entries.length with hzero | hpos
  · rw [List.eq_nil_of_length_eq_zero hzero]
    exact List.nil_prefix
  · rcases Nat.lt_or_eq_of_le hle with hlt | heq
    · obtain ⟨-, root, hroot, hold, hnew⟩ :=
        (ConsistencyProof.verify_eq_ok_iff_of_lt hpos hlt).1 hverify
      have hhashed : root.hashed ⊆ strings := by
        rw [ConsistencyProof.hashed_eq_preimages hpos hlt hroot]
        exact hproof
      exact prefix_of_rebuild hfree hpos hle hroot hold hnew hmem hmem' hhashed
    · obtain ⟨-, -, hroots⟩ := (ConsistencyProof.verify_eq_ok_iff_of_eq heq).1 hverify
      obtain rfl := treeHash_inj hfree heq hmem hmem' hroots
      exact List.prefix_refl _

end

end Log

/-! ## Logs -/

namespace CommitmentLog

/-- The strings hashed for a perfect subtree are those of its leaves and of stored nodes. -/
theorem treePreimages_subset_stored (entries : List LogEntry) {level start index : Nat}
    (hstart : start = index * blockSize level) (hfit : start + blockSize level ≤ entries.length) :
    treePreimages ((entries.drop start).take (blockSize level)) ⊆
      (ofEntries entries).storedPreimages := by
  induction level generalizing start index with
  | zero =>
    rw [blockSize_zero] at hfit ⊢
    rw [List.drop_eq_getElem_cons (by omega), List.take_succ_cons, List.take_zero,
      treePreimages_singleton, storedPreimages, toList_entries_ofEntries]
    intro s hs
    rw [List.mem_singleton.1 hs]
    exact List.mem_append_left _ (List.mem_map_of_mem (List.getElem_mem _))
  | succ level ih =>
    have hpos := blockSize_pos level
    have hleft : start = 2 * index * blockSize level := by
      rw [hstart, blockSize_succ]
      ring
    have hright : start + blockSize level = (2 * index + 1) * blockSize level := by
      rw [hleft]
      ring
    have hjoin : (treeHash ((entries.drop start).take (blockSize level)),
        treeHash ((entries.drop (start + blockSize level)).take (blockSize level))) ∈
        joins (rows nodeHash (entries.map leafHash)) := by
      rw [blockSize_succ] at hfit
      apply mem_joins_rows level index
      · rw [← hstart, block?_leafHash (by omega)]
      · rw [← hstart, block?_leafHash (by omega)]
    rw [blockSize_succ] at hfit ⊢
    have hsplit : splitPoint (2 * blockSize level) = blockSize level :=
      splitPoint_eq (by omega) (by omega)
    have hhalf : 2 * blockSize level - blockSize level = blockSize level := by omega
    rw [treePreimages_stretch_subset_iff (by omega) hfit, hsplit, hhalf]
    refine ⟨?_, ih hleft (by omega), ih hright (by omega)⟩
    rw [storedPreimages, ofEntries_eq]
    exact List.mem_append_right _ (List.mem_map.2 ⟨_, hjoin, rfl⟩)

/-- The strings hashed for the tree over a stretch are those stored and those of the stretch. -/
theorem treePreimages_subset {entries : List LogEntry} {start n : Nat}
    (hfit : start + n ≤ entries.length) {strings : List Bytes}
    (hstored : (ofEntries entries).storedPreimages ⊆ strings)
    (hstretch : (ofEntries entries).subtreePreimages start n ⊆ strings) :
    treePreimages ((entries.drop start).take n) ⊆ strings := by
  fun_induction subtreePreimages (ofEntries entries) start n with
  | case1 =>
    rw [List.take_zero, treePreimages_nil]
    exact hstretch
  | case2 start n hpos hperfect =>
    obtain ⟨level, rfl, halign⟩ := perfect_iff.1 hperfect
    have hstart := (Nat.div_mul_cancel (Nat.dvd_of_mod_eq_zero halign)).symm
    exact List.Subset.trans (treePreimages_subset_stored entries hstart hfit) hstored
  | case3 start n hpos himperfect hlt =>
    have hle := two_le_of_imperfect hpos himperfect
    omega
  | case4 start n hpos himperfect hle k ihleft ihright =>
    have hlt := splitPoint_lt (n := n) (by omega)
    rw [List.cons_subset, List.append_subset, subtree_ofEntries entries (by omega),
      subtree_ofEntries entries (by omega)] at hstretch
    obtain ⟨hnode, hleft, hright⟩ := hstretch
    rw [treePreimages_stretch_subset_iff (by omega) hfit]
    exact ⟨hnode, ihleft (by omega) hleft, ihright (by omega) hright⟩

theorem treePreimages_subset_preimages (entries : List LogEntry) :
    treePreimages entries ⊆ (ofEntries entries).preimages := by
  have hfit : 0 + entries.length ≤ entries.length := by omega
  have h := treePreimages_subset hfit (List.subset_append_left _ _)
    (List.subset_append_right (ofEntries entries).storedPreimages _)
  rw [List.drop_zero, List.take_length] at h
  rw [preimages, size_ofEntries]
  exact h

/-- **A consistency proof binds the old log.**  A proof that verifies against the digests of two logs
shows that the first is a prefix of the second, unless two of the strings hashed collide. -/
theorem consistency_sound (entries entries' : List LogEntry) (proof : ConsistencyProof)
    (hverify : verifyConsistency (ofEntries entries).digest (ofEntries entries').digest proof = .ok ()) :
    (ofEntries entries).entries.toList <+: (ofEntries entries').entries.toList ∨
      Collision ((ofEntries entries).preimages ++ (ofEntries entries').preimages ++
        proof.preimages (ofEntries entries).digest (ofEntries entries').digest) := by
  by_cases hfree : Collision ((ofEntries entries).preimages ++ (ofEntries entries').preimages ++
      proof.preimages (ofEntries entries).digest (ofEntries entries').digest)
  · exact .inr hfree
  · left
    have hmem := treePreimages_subset_preimages entries
    have hmem' := treePreimages_subset_preimages entries'
    rw [digest_ofEntries, digest_ofEntries] at hverify hfree
    rw [toList_entries_ofEntries, toList_entries_ofEntries]
    refine prefix_of_verify hfree hverify ?_ ?_ (List.subset_append_right _ _)
    · exact List.subset_append_of_subset_left _ (List.subset_append_of_subset_left _ hmem)
    · exact List.subset_append_of_subset_left _ (List.subset_append_of_subset_right _ hmem')

/-- Three entries and a fourth. -/
theorem consistency_sound_three_of_four :
    let entry (n : UInt64) : LogEntry := ⟨n, Hash.zero⟩
    let old := ofEntries [entry 0, entry 1, entry 2]
    let new := ofEntries [entry 0, entry 1, entry 2, entry 3]
    let proof : ConsistencyProof :=
      ⟨3, 4, [leafHash (entry 2), leafHash (entry 3), nodeHash (leafHash (entry 0)) (leafHash (entry 1))]⟩
    verifyConsistency old.digest new.digest proof = .ok () ∧
      (old.entries.toList <+: new.entries.toList ∨
        Collision (old.preimages ++ new.preimages ++ proof.preimages old.digest new.digest)) := by
  intro entry old new proof
  have hverify : verifyConsistency old.digest new.digest proof = .ok () := by decide +kernel
  exact ⟨hverify, consistency_sound _ _ proof hverify⟩

end CommitmentLog

end KeyTransparency
