import KeyTransparency.Log.Consistency
import KeyTransparency.Proofs.Tower
import Mathlib.Data.List.Induction

/-!
# The tree over a log

`treeHash entries` is the tree hash by plain recursion: entries are split at the largest power of two
below their number.  A log keeps its perfect subtrees in a tower, and computes from them the same hash
for every stretch of its entries:

    ofEntries entries = ⟨entries, rows of the leaf hashes⟩                            (ofEntries_eq)
    start + n ≤ entries.length →
      (ofEntries entries).subtree start n = treeHash ((entries.drop start).take n)   (subtree_ofEntries)

`subtreeReads` and `subproofReads` list the look-ups made on the way, none of which misses
(`read_ofEntries`).
-/

namespace KeyTransparency

open Tower

namespace Log

/-! ## Split points -/

theorem splitPoint_eq {n level : Nat} (hlow : blockSize level < n) (hhigh : n ≤ 2 * blockSize level) :
    splitPoint n = blockSize level := by
  have hlog : Nat.log2 (n - 1) = level := log2_eq (by omega) (by omega)
  rw [splitPoint, hlog]

/-- What makes the split point: a block size below `n` whose double is not. -/
theorem exists_splitPoint {n : Nat} (h : 2 ≤ n) :
    ∃ level, splitPoint n = blockSize level ∧ blockSize level < n ∧ n ≤ 2 * blockSize level := by
  refine ⟨Nat.log2 (n - 1), rfl, splitPoint_lt h, ?_⟩
  have hlt : n - 1 < blockSize (Nat.log2 (n - 1) + 1) := Nat.lt_log2_self
  rw [blockSize_succ] at hlt
  omega

/-- A tree that reaches past the split point of a larger one splits there too. -/
theorem splitPoint_eq_of_lt {m n : Nat} (hm : splitPoint n < m) (hn : m ≤ n) :
    splitPoint m = splitPoint n := by
  have hpos := splitPoint_pos n
  obtain ⟨level, hsplit, hlow, hhigh⟩ := exists_splitPoint (n := n) (by omega)
  rw [hsplit] at hm ⊢
  exact splitPoint_eq hm (by omega)

theorem isPowerOfTwo_iff {n : Nat} : isPowerOfTwo n = true ↔ ∃ level, n = blockSize level := by
  rw [isPowerOfTwo, beq_iff_eq]
  constructor
  · intro h
    exact ⟨_, h⟩
  · rintro ⟨level, rfl⟩
    have := blockSize_pos level
    rw [log2_eq (Nat.le_refl (blockSize level)) (by omega)]

/-- A stretch that begins at a multiple of its length, a power of two. -/
theorem perfect_iff {start n : Nat} : (isPowerOfTwo n && start % n == 0) = true ↔
    ∃ level, n = blockSize level ∧ start % blockSize level = 0 := by
  rw [Bool.and_eq_true, isPowerOfTwo_iff, beq_iff_eq]
  constructor
  · rintro ⟨⟨level, rfl⟩, halign⟩
    exact ⟨level, rfl, halign⟩
  · rintro ⟨level, rfl, halign⟩
    exact ⟨⟨level, rfl⟩, halign⟩

/-- A stretch that is not looked up has entries on both sides of its split. -/
theorem two_le_of_imperfect {start n : Nat} (hpos : n ≠ 0)
    (h : ¬ (isPowerOfTwo n && start % n == 0) = true) : 2 ≤ n := by
  by_contra hlt
  obtain rfl : n = 1 := by omega
  exact h (perfect_iff.2 ⟨0, rfl, Nat.mod_one start⟩)

/-! ## Tree hashes -/

/-- The tree hash over a list of entries. -/
def treeHash (entries : List LogEntry) : Hash :=
  match entries with
  | [] => emptyRoot
  | [entry] => leafHash entry
  | first :: second :: rest =>
    let k := splitPoint (rest.length + 2)
    nodeHash (treeHash ((first :: second :: rest).take k))
      (treeHash ((first :: second :: rest).drop k))
termination_by entries.length
decreasing_by
  · have := splitPoint_lt (n := rest.length + 2) (by omega)
    simp only [List.length_take, List.length_cons]
    omega
  · have := splitPoint_pos (rest.length + 2)
    simp only [List.length_drop, List.length_cons]
    omega

theorem treeHash_nil : treeHash [] = emptyRoot := by rw [treeHash]

theorem treeHash_singleton (entry : LogEntry) : treeHash [entry] = leafHash entry := by rw [treeHash]

theorem treeHash_split {entries : List LogEntry} (h : 2 ≤ entries.length) :
    treeHash entries = nodeHash (treeHash (entries.take (splitPoint entries.length)))
      (treeHash (entries.drop (splitPoint entries.length))) := by
  match entries, h with
  | first :: second :: rest, _ =>
    rw [treeHash]
    rfl

/-- Induction along the splits of a tree. -/
theorem split_induction {motive : List LogEntry → Prop} (nil : motive [])
    (single : ∀ entry, motive [entry])
    (split : ∀ entries, 2 ≤ entries.length → motive (entries.take (splitPoint entries.length)) →
      motive (entries.drop (splitPoint entries.length)) → motive entries)
    (entries : List LogEntry) : motive entries := by
  induction entries using treeHash.induct with
  | case1 => exact nil
  | case2 entry => exact single entry
  | case3 first second rest k ihleft ihright =>
    exact split _ (by simp) ihleft ihright

section

variable {entries : List LogEntry} {start n : Nat}

theorem length_stretch (hfit : start + n ≤ entries.length) :
    ((entries.drop start).take n).length = n := by
  rw [List.length_take, List.length_drop]
  omega

/-- A stretch of a list of entries is split where a list of its length is. -/
theorem treeHash_stretch (hn : 2 ≤ n) (hfit : start + n ≤ entries.length) :
    treeHash ((entries.drop start).take n) =
      nodeHash (treeHash ((entries.drop start).take (splitPoint n)))
        (treeHash ((entries.drop (start + splitPoint n)).take (n - splitPoint n))) := by
  have hlt := splitPoint_lt hn
  have hlen := length_stretch hfit
  rw [treeHash_split (by omega), hlen, List.take_take, List.drop_take, List.drop_drop,
    Nat.min_eq_left (by omega)]

/-- The tree over a power of two entries is a block of the tower over the leaf hashes. -/
theorem block?_leafHash {level : Nat} (hfit : start + blockSize level ≤ entries.length) :
    block? nodeHash level ((entries.map leafHash).drop start) =
      some (treeHash ((entries.drop start).take (blockSize level))) := by
  induction level generalizing start with
  | zero =>
    rw [blockSize_zero] at hfit ⊢
    rw [block?, ← List.map_drop, List.drop_eq_getElem_cons (by omega), List.take_succ_cons,
      List.take_zero, treeHash_singleton]
    rfl
  | succ level ih =>
    have hpos := blockSize_pos level
    rw [blockSize_succ] at hfit ⊢
    have hsplit : splitPoint (2 * blockSize level) = blockSize level :=
      splitPoint_eq (by omega) (by omega)
    have hhalf : 2 * blockSize level - blockSize level = blockSize level := by omega
    rw [treeHash_stretch (by omega) hfit, hsplit, hhalf]
    refine block?_succ_eq_some.2 ⟨_, _, ih (by omega), ?_, rfl⟩
    rw [List.drop_drop, ih (by omega)]

end

end Log

namespace CommitmentLog

open Log

/-! ## Logs built by appending -/

/-- The log that entries were appended to one by one. -/
def ofEntries (entries : List LogEntry) : CommitmentLog := entries.foldl append empty

theorem ofEntries_eq (entries : List LogEntry) :
    ofEntries entries = ⟨entries.toArray, rows nodeHash (entries.map leafHash)⟩ := by
  induction entries using List.reverseRecOn with
  | nil => simp [ofEntries, empty, rows_nil]
  | append_singleton entries entry ih =>
    rw [ofEntries, List.foldl_append, ← ofEntries, ih, List.foldl_cons, List.foldl_nil, append,
      push_rows, List.map_append, List.push_toArray]
    rfl

theorem toList_entries_ofEntries (entries : List LogEntry) :
    (ofEntries entries).entries.toList = entries := by
  rw [ofEntries_eq]

theorem size_ofEntries (entries : List LogEntry) : (ofEntries entries).size = entries.length := by
  rw [size, ofEntries_eq, List.size_toArray]

/-- A perfect subtree is found in the tower. -/
theorem node?_ofEntries {entries : List LogEntry} {start level : Nat}
    (halign : start % blockSize level = 0) (hfit : start + blockSize level ≤ entries.length) :
    (ofEntries entries).levels.node? level (start / blockSize level) =
      some (treeHash ((entries.drop start).take (blockSize level))) := by
  have hstart : start / blockSize level * blockSize level = start :=
    Nat.div_mul_cancel (Nat.dvd_of_mod_eq_zero halign)
  rw [ofEntries_eq, node?_rows, hstart, block?_leafHash hfit]

/-- **The hash of a stretch of a log is its tree hash.** -/
theorem subtree_ofEntries (entries : List LogEntry) {start n : Nat}
    (hfit : start + n ≤ entries.length) :
    (ofEntries entries).subtree start n = treeHash ((entries.drop start).take n) := by
  fun_induction subtree (ofEntries entries) start n with
  | case1 => rw [List.take_zero, treeHash_nil]
  | case2 start n hpos hperfect =>
    obtain ⟨level, rfl, halign⟩ := perfect_iff.1 hperfect
    have := blockSize_pos level
    rw [log2_eq (Nat.le_refl _) (by omega), node?_ofEntries halign hfit, Option.getD_some]
  | case3 start n hpos himperfect hlt =>
    have hle := two_le_of_imperfect hpos himperfect
    omega
  | case4 start n hpos himperfect hle k ihleft ihright =>
    have hlt := splitPoint_lt (n := n) (by omega)
    rw [treeHash_stretch (by omega) hfit, ihleft (by omega), ihright (by omega)]

theorem subtree_ofEntries_zero (entries : List LogEntry) {n : Nat} (h : n ≤ entries.length) :
    (ofEntries entries).subtree 0 n = treeHash (entries.take n) := by
  rw [subtree_ofEntries entries (by omega), List.drop_zero]

theorem digest_ofEntries (entries : List LogEntry) :
    (ofEntries entries).digest = ⟨treeHash entries, entries.length⟩ := by
  rw [digest, root, size_ofEntries, subtree_ofEntries_zero entries (Nat.le_refl _), List.take_length]

/-! ## Look-ups -/

/-- The rows and indices looked up for the hash of a stretch. -/
def subtreeReads (start n : Nat) : List (Nat × Nat) :=
  if _ : n = 0 then []
  else if isPowerOfTwo n && start % n == 0 then [(Nat.log2 n, start / n)]
  else if _ : n < 2 then []
  else subtreeReads start (splitPoint n) ++ subtreeReads (start + splitPoint n) (n - splitPoint n)
termination_by n
decreasing_by
  · exact splitPoint_lt (by omega)
  · have := splitPoint_pos n
    omega

/-- The rows and indices looked up for the path of a proof. -/
def subproofReads (m start n : Nat) (complete : Bool) : List (Nat × Nat) :=
  if m = n then if complete then [] else subtreeReads start n
  else if _ : n < 2 then []
  else
    let k := splitPoint n
    if m ≤ k then subproofReads m start k complete ++ subtreeReads (start + k) (n - k)
    else subproofReads (m - k) (start + k) (n - k) false ++ subtreeReads start k
termination_by n
decreasing_by
  · exact splitPoint_lt (by omega)
  · have := splitPoint_pos n
    omega

/-- The rows and indices looked up for a consistency proof. -/
def consistencyReads (oldSize newSize : Nat) : List (Nat × Nat) :=
  if oldSize = 0 ∨ oldSize = newSize then [] else subproofReads oldSize 0 newSize true

/-- A log has every node that it looks up. -/
theorem isSome_of_mem_subtreeReads {entries : List LogEntry} {start n : Nat}
    (hfit : start + n ≤ entries.length) {read : Nat × Nat} (h : read ∈ subtreeReads start n) :
    ((ofEntries entries).levels.node? read.1 read.2).isSome := by
  fun_induction subtreeReads start n with
  | case1 => cases h
  | case2 start n hpos hperfect =>
    obtain ⟨level, rfl, halign⟩ := perfect_iff.1 hperfect
    have := blockSize_pos level
    rw [List.mem_singleton, log2_eq (Nat.le_refl _) (by omega)] at h
    rw [h, node?_ofEntries halign hfit]
    rfl
  | case3 => cases h
  | case4 start n hpos himperfect hle ihleft ihright =>
    have hlt := splitPoint_lt (n := n) (by omega)
    rcases List.mem_append.1 h with h | h
    · exact ihleft (by omega) h
    · exact ihright (by omega) h

theorem isSome_of_mem_subproofReads {entries : List LogEntry} {m start n : Nat} {complete : Bool}
    (hfit : start + n ≤ entries.length) {read : Nat × Nat}
    (h : read ∈ subproofReads m start n complete) :
    ((ofEntries entries).levels.node? read.1 read.2).isSome := by
  fun_induction subproofReads m start n complete with
  | case1 => cases h
  | case2 => exact isSome_of_mem_subtreeReads hfit h
  | case3 => cases h
  | case4 m start n complete hmn hle k hm ih =>
    have hlt := splitPoint_lt (n := n) (by omega)
    rcases List.mem_append.1 h with h | h
    · exact ih (by omega) h
    · exact isSome_of_mem_subtreeReads (by omega) h
  | case5 m start n complete hmn hle k hm ih =>
    have hlt := splitPoint_lt (n := n) (by omega)
    rcases List.mem_append.1 h with h | h
    · exact ih (by omega) h
    · exact isSome_of_mem_subtreeReads (by omega) h

theorem isSome_of_mem_consistencyReads {entries : List LogEntry} {oldSize newSize : Nat}
    (hfit : newSize ≤ entries.length) {read : Nat × Nat}
    (h : read ∈ consistencyReads oldSize newSize) :
    ((ofEntries entries).levels.node? read.1 read.2).isSome := by
  rw [consistencyReads] at h
  split at h
  · cases h
  · exact isSome_of_mem_subproofReads (by omega) h

end CommitmentLog

end KeyTransparency
