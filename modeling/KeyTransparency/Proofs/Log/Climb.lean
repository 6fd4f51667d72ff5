import KeyTransparency.Proofs.Log.Tree

/-!
# The verifier's climb retraces the splits of the tree

The verifier of consistency proofs climbs from the last complete subtree of the old tree to the root,
and is led by the bits of two positions alone.  `rebuild m n` uses up the same hashes from the other
end, the root's side first, along the splits of the tree over `n` entries.  The two compute the same:

    0 < m → m < n → ascend path (skipRight (m - 1) (n - 1)) first =
      rebuild m n (first :: path).reverse                                    (ascend_skipRight)

The last hash of a path belongs to the split at the root.  What a climb does before it is the climb in
the left subtree, when the old tree ends there (`ascend_append_joinRight`), or else the climb in the
right subtree with one more bit in front of both positions (`ascend_append_joinLeft`).
-/

namespace KeyTransparency

open Tower

namespace Log

/-- What a verifier has computed: the hash of the old subtree, that of the new one, and all strings
hashed for them. -/
structure Computed where
  old : Hash
  new : Hash
  hashed : List Bytes

namespace Computed

/-- The subtree that both trees share. -/
def shared (hash : Hash) : Computed := ⟨hash, hash, []⟩

/-- The parents under a common left sibling. -/
def joinLeft (c : Computed) (left : Hash) : Computed :=
  ⟨nodeHash left c.old, nodeHash left c.new,
    c.hashed ++ [nodePreimage left c.old, nodePreimage left c.new]⟩

/-- The parent under a right sibling that the old tree does not reach. -/
def joinRight (c : Computed) (right : Hash) : Computed :=
  ⟨c.old, nodeHash c.new right, c.hashed ++ [nodePreimage c.new right]⟩

end Computed

/-- A climb that uses up the path just when it gets to the root, with the strings it hashes. -/
def ascend : (path : List Hash) → (old new : Nat) → Computed → Option Computed
  | [], _, new, c => if new = 0 then some c else none
  | sibling :: path, old, new, c =>
    if new = 0 then none
    else if old % 2 = 1 ∨ old = new then
      ascend path ((skipLeft old new).1 / 2) ((skipLeft old new).2 / 2) (c.joinLeft sibling)
    else ascend path (old / 2) (new / 2) (c.joinRight sibling)

/-- The hashes of the trees over `m` and over `n` entries, from the siblings along the splits, the one
at the root first. -/
def rebuild (m n : Nat) : List Hash → Option Computed
  | [] => none
  | sibling :: path =>
    if m = n then if path = [] then some (.shared sibling) else none
    else
      let k := splitPoint n
      if m ≤ k then (rebuild m k path).map (·.joinRight sibling)
      else (rebuild (m - k) (n - k) path).map (·.joinLeft sibling)

/-! ## Positions -/

theorem skipLeft_of_odd {old : Nat} (h : old % 2 = 1) (new : Nat) : skipLeft old new = (old, new) := by
  rw [skipLeft, dif_neg (by omega)]

theorem skipLeft_blockSize (level : Nat) :
    skipLeft (blockSize level) (blockSize level) = (1, 1) := by
  induction level with
  | zero => exact skipLeft_of_odd rfl 1
  | succ level ih =>
    have hpos := blockSize_pos level
    have hhalf : blockSize (level + 1) / 2 = blockSize level := by
      rw [blockSize_succ]
      omega
    have heven : blockSize (level + 1) % 2 = 0 ∧ blockSize (level + 1) ≠ 0 := by
      rw [blockSize_succ]
      omega
    rw [skipLeft, dif_pos heven, hhalf, ih]

/-- A bit in front of both positions stays in front. -/
theorem skipLeft_add {old new level : Nat} (hold : old ≠ 0) (hle : old ≤ new)
    (hnew : new < blockSize level) :
    ∃ level' old' new', skipLeft old new = (old', new') ∧ old' ≤ new' ∧
      new' < blockSize (level' + 1) ∧
      skipLeft (old + blockSize level) (new + blockSize level) =
        (old' + blockSize (level' + 1), new' + blockSize (level' + 1)) := by
  induction level generalizing old new with
  | zero =>
    rw [blockSize_zero] at hnew
    omega
  | succ level ih =>
    have hdouble := blockSize_succ level
    by_cases heven : old % 2 = 0
    · obtain ⟨level', old', new', hskip, hle', hnew', hadd⟩ :=
        ih (show old / 2 ≠ 0 by omega) (show old / 2 ≤ new / 2 by omega) (by omega)
      refine ⟨level', old', new', ?_, hle', hnew', ?_⟩
      · rw [skipLeft, dif_pos ⟨heven, hold⟩, hskip]
      · have hhalfOld : (old + blockSize (level + 1)) / 2 = old / 2 + blockSize level := by omega
        have hhalfNew : (new + blockSize (level + 1)) / 2 = new / 2 + blockSize level := by omega
        rw [skipLeft, dif_pos (by omega), hhalfOld, hhalfNew, hadd]
    · refine ⟨level, old, new, skipLeft_of_odd (by omega) new, hle, hnew, ?_⟩
      exact skipLeft_of_odd (by omega) _

/-! ## Single steps -/

theorem ascend_nil_of_ne {new : Nat} (h : new ≠ 0) (old : Nat) (c : Computed) :
    ascend [] old new c = none := if_neg h

theorem ascend_zero {path : List Hash} (h : path ≠ []) (old : Nat) (c : Computed) :
    ascend path old 0 c = none := by
  obtain ⟨sibling, rest, rfl⟩ := List.exists_cons_of_ne_nil h
  rfl

section

variable {old new : Nat} {sibling : Hash} {path : List Hash} {c : Computed}

/-- An odd position has a left sibling. -/
theorem ascend_odd (hnew : new ≠ 0) (hodd : old % 2 = 1) :
    ascend (sibling :: path) old new c = ascend path (old / 2) (new / 2) (c.joinLeft sibling) := by
  rw [ascend, if_neg hnew, if_pos (Or.inl hodd), skipLeft_of_odd hodd]

/-- An even position that is not the last of the new tree has a right sibling. -/
theorem ascend_even (heven : old % 2 = 0) (hlt : old < new) :
    ascend (sibling :: path) old new c = ascend path (old / 2) (new / 2) (c.joinRight sibling) := by
  rw [ascend, if_neg (by omega), if_neg (by omega)]

/-- The last position of both trees is lifted until it has a left sibling. -/
theorem ascend_last (hnew : new ≠ 0) {old' new' : Nat} (hskip : skipLeft new new = (old', new')) :
    ascend (sibling :: path) new new c = ascend path (old' / 2) (new' / 2) (c.joinLeft sibling) := by
  rw [ascend, if_neg hnew, if_pos (Or.inr rfl), hskip]

end

/-! ## The last hash of a path -/

/-- A climb from the left subtree takes its last hash as a right sibling.  The left subtree is full, so
its own last position is all ones. -/
theorem ascend_append_joinRight {path : List Hash} {right : Hash} {level old new inner : Nat}
    {c : Computed} (hold : old < blockSize level) (hinner : inner + 1 = blockSize level)
    (hlow : blockSize level ≤ new) (hhigh : new < 2 * blockSize level) :
    ascend (path ++ [right]) old new c = (ascend path old inner c).map (·.joinRight right) := by
  induction path generalizing level old new inner c with
  | nil =>
    rw [List.nil_append]
    cases level with
    | zero =>
      rw [blockSize_zero] at hold hinner hlow hhigh
      obtain rfl : old = 0 := by omega
      obtain rfl : new = 1 := by omega
      obtain rfl : inner = 0 := by omega
      rfl
    | succ level =>
      have hpos := blockSize_pos level
      rw [blockSize_succ] at hold hinner hlow hhigh
      rw [ascend_nil_of_ne (by omega : inner ≠ 0)]
      rcases Nat.mod_two_eq_zero_or_one old with heven | hodd
      · rw [ascend_even heven (by omega), ascend_nil_of_ne (by omega)]
        rfl
      · rw [ascend_odd (by omega) hodd, ascend_nil_of_ne (by omega)]
        rfl
  | cons sibling path ih =>
    rw [List.cons_append]
    cases level with
    | zero =>
      rw [blockSize_zero] at hold hinner hlow hhigh
      obtain rfl : old = 0 := by omega
      obtain rfl : new = 1 := by omega
      obtain rfl : inner = 0 := by omega
      exact ascend_zero (by simp) 0 _
    | succ level =>
      have hpos := blockSize_pos level
      rw [blockSize_succ] at hold hinner hlow hhigh
      have hhalf : old / 2 < blockSize level := by omega
      rcases Nat.mod_two_eq_zero_or_one old with heven | hodd
      · rw [ascend_even heven (by omega), ascend_even heven (by omega)]
        exact ih hhalf (by omega) (by omega) (by omega)
      · rw [ascend_odd (by omega) hodd, ascend_odd (by omega) hodd]
        exact ih hhalf (by omega) (by omega) (by omega)

/-- A climb from the right subtree takes its last hash as a left sibling.  When its own positions have
come to zero, those with the bit in front are both that bit. -/
theorem ascend_append_joinLeft {path : List Hash} {left : Hash} {level old new : Nat} {c : Computed}
    (hle : old ≤ new) (hnew : new < blockSize level) :
    ascend (path ++ [left]) (old + blockSize level) (new + blockSize level) c =
      (ascend path old new c).map (·.joinLeft left) := by
  induction path generalizing level old new c with
  | nil =>
    have hpos := blockSize_pos level
    rw [List.nil_append]
    by_cases hzero : new = 0
    · obtain rfl : old = 0 := by omega
      subst hzero
      rw [Nat.zero_add, ascend_last (by omega) (skipLeft_blockSize level)]
      rfl
    · rw [ascend_nil_of_ne hzero]
      cases level with
      | zero =>
        rw [blockSize_zero] at hnew
        omega
      | succ level =>
        have hpos := blockSize_pos level
        have hdouble := blockSize_succ level
        rcases Nat.mod_two_eq_zero_or_one old with heven | hodd
        · rcases Nat.lt_or_eq_of_le hle with hlt | rfl
          · rw [ascend_even (by omega) (by omega), ascend_nil_of_ne (by omega)]
            rfl
          · obtain ⟨level', old', new', -, -, -, hskip⟩ := skipLeft_add hzero hle hnew
            have hpos' := blockSize_pos level'
            have hdouble' := blockSize_succ level'
            rw [ascend_last (by omega) hskip, ascend_nil_of_ne (by omega)]
            rfl
        · rw [ascend_odd (by omega) (by omega), ascend_nil_of_ne (by omega)]
          rfl
  | cons sibling path ih =>
    have hpos := blockSize_pos level
    rw [List.cons_append]
    by_cases hzero : new = 0
    · obtain rfl : old = 0 := by omega
      subst hzero
      rw [Nat.zero_add, ascend_last (by omega) (skipLeft_blockSize level)]
      exact ascend_zero (by simp) 0 _
    · cases level with
      | zero =>
        rw [blockSize_zero] at hnew
        omega
      | succ level =>
        have hdouble := blockSize_succ level
        have hhalf : ∀ n, (n + blockSize (level + 1)) / 2 = n / 2 + blockSize level := by
          intro n
          omega
        rcases Nat.mod_two_eq_zero_or_one old with heven | hodd
        · rcases Nat.lt_or_eq_of_le hle with hlt | rfl
          · rw [ascend_even (by omega) (by omega), ascend_even heven hlt, hhalf, hhalf]
            exact ih (by omega) (by omega)
          · obtain ⟨level', old', new', hskip, hle', hnew', hadd⟩ := skipLeft_add hzero hle hnew
            have hdouble' := blockSize_succ level'
            have hhalf' : ∀ n, (n + blockSize (level' + 1)) / 2 = n / 2 + blockSize level' := by
              intro n
              omega
            rw [ascend_last (by omega) hadd, ascend_last hzero hskip, hhalf', hhalf']
            exact ih (by omega) (by omega)
        · rw [ascend_odd (by omega) (by omega), ascend_odd hzero hodd, hhalf, hhalf]
          exact ih (by omega) (by omega)

/-! ## The start of a climb -/

theorem skipRight_of_even {old : Nat} (h : old % 2 = 0) (new : Nat) :
    skipRight old new = (old, new) := by
  rw [skipRight, dif_neg (by omega)]

theorem skipRight_of_odd {old : Nat} (h : old % 2 = 1) (new : Nat) :
    skipRight old new = skipRight (old / 2) (new / 2) := by
  rw [skipRight, dif_pos h]

/-- In a full subtree the climb starts at the root. -/
theorem skipRight_full {last level : Nat} (h : last + 1 = blockSize level) :
    skipRight last last = (0, 0) := by
  induction level generalizing last with
  | zero =>
    rw [blockSize_zero] at h
    obtain rfl : last = 0 := by omega
    exact skipRight_of_even rfl 0
  | succ level ih =>
    rw [blockSize_succ] at h
    rw [skipRight_of_odd (by omega)]
    exact ih (by omega)

/-- Both climbs, in the left subtree and in the whole tree, start at the same position. -/
theorem skipRight_left {level old new inner : Nat} (hold : old < blockSize level)
    (hinner : inner + 1 = blockSize level) (hlow : blockSize level ≤ new)
    (hhigh : new < 2 * blockSize level) :
    ∃ level' old' new' inner', skipRight old new = (old', new') ∧
      skipRight old inner = (old', inner') ∧ old' < blockSize level' ∧
      inner' + 1 = blockSize level' ∧ blockSize level' ≤ new' ∧ new' < 2 * blockSize level' := by
  induction level generalizing old new inner with
  | zero =>
    have heven : old % 2 = 0 := by
      rw [blockSize_zero] at hold
      omega
    exact ⟨0, old, new, inner, skipRight_of_even heven new, skipRight_of_even heven inner, hold, hinner,
      hlow, hhigh⟩
  | succ level ih =>
    rcases Nat.mod_two_eq_zero_or_one old with heven | hodd
    · exact ⟨level + 1, old, new, inner, skipRight_of_even heven new, skipRight_of_even heven inner, hold,
        hinner, hlow, hhigh⟩
    · rw [blockSize_succ] at hold hinner hlow hhigh
      rw [skipRight_of_odd hodd, skipRight_of_odd hodd]
      exact ih (by omega) (by omega) (by omega) (by omega)

/-- Both climbs, in the right subtree and in the whole tree, start alike, but for the bit in front. -/
theorem skipRight_add {level old new : Nat} (hlt : old < new) (hnew : new < blockSize level) :
    ∃ level' old' new', skipRight old new = (old', new') ∧ old' ≤ new' ∧ new' < blockSize level' ∧
      skipRight (old + blockSize level) (new + blockSize level) =
        (old' + blockSize level', new' + blockSize level') := by
  induction level generalizing old new with
  | zero =>
    rw [blockSize_zero] at hnew
    omega
  | succ level ih =>
    have hdouble := blockSize_succ level
    rcases Nat.mod_two_eq_zero_or_one old with heven | hodd
    · exact ⟨level + 1, old, new, skipRight_of_even heven new, by omega, hnew,
        skipRight_of_even (by omega) _⟩
    · have hhalf : ∀ n, (n + blockSize (level + 1)) / 2 = n / 2 + blockSize level := by
        intro n
        omega
      have hodd' : (old + blockSize (level + 1)) % 2 = 1 := by omega
      rw [skipRight_of_odd hodd', skipRight_of_odd hodd, hhalf, hhalf]
      exact ih (by omega) (by omega)

theorem skipRight_lt {old new : Nat} (h : old < new) :
    (skipRight old new).1 < (skipRight old new).2 := by
  fun_induction skipRight old new with
  | case1 old new hodd ih => exact ih (by omega)
  | case2 => exact h

/-- **The climb computes what the splits say.** -/
theorem ascend_skipRight {m n : Nat} (hm : 0 < m)
    (hmn : m < n ∨ m = n ∧ ∃ level, n = blockSize level) (first : Hash) (path : List Hash) :
    ascend path (skipRight (m - 1) (n - 1)).1 (skipRight (m - 1) (n - 1)).2 (.shared first) =
      rebuild m n (first :: path).reverse := by
  induction path using List.reverseRecOn generalizing m n with
  | nil =>
    rw [List.reverse_singleton, rebuild]
    rcases hmn with hlt | ⟨rfl, level, hfull⟩
    · have hstart := skipRight_lt (show m - 1 < n - 1 by omega)
      rw [ascend_nil_of_ne (by omega), if_neg (by omega)]
      simp only [rebuild, Option.map_none, ite_self]
    · rw [skipRight_full (by omega : m - 1 + 1 = blockSize level), if_pos rfl]
      rfl
  | append_singleton path sibling ih =>
    rw [← List.cons_append, List.reverse_append, List.reverse_singleton, List.singleton_append, rebuild]
    rcases hmn with hlt | ⟨rfl, level, hfull⟩
    · obtain ⟨level, hsplit, hlow, hhigh⟩ := exists_splitPoint (n := n) (by omega)
      rw [if_neg (by omega)]
      simp only [hsplit]
      by_cases hleft : m ≤ blockSize level
      · obtain ⟨level', old', new', inner', hnew, hinner, hold', hinner', hlow', hhigh'⟩ :=
          skipRight_left (show m - 1 < blockSize level by omega)
            (show blockSize level - 1 + 1 = blockSize level by omega)
            (show blockSize level ≤ n - 1 by omega) (by omega)
        have hsizes : m < blockSize level ∨
            m = blockSize level ∧ ∃ k, blockSize level = blockSize k := by
          rcases Nat.lt_or_eq_of_le hleft with h | h
          · exact Or.inl h
          · exact Or.inr ⟨h, level, rfl⟩
        have hsub := ih hm hsizes
        rw [hinner] at hsub
        rw [if_pos hleft, hnew, ← hsub]
        exact ascend_append_joinRight hold' hinner' hlow' hhigh'
      · obtain ⟨level', old', new', hinner, hle', hnew', hadd⟩ :=
          skipRight_add (show m - blockSize level - 1 < n - blockSize level - 1 by omega)
            (show n - blockSize level - 1 < blockSize level by omega)
        have hsizes : m - blockSize level < n - blockSize level := by omega
        have hsub := ih (by omega) (Or.inl hsizes)
        have hold : m - blockSize level - 1 + blockSize level = m - 1 := by omega
        have hnew : n - blockSize level - 1 + blockSize level = n - 1 := by omega
        rw [hold, hnew] at hadd
        rw [hinner] at hsub
        rw [if_neg hleft, hadd, ← hsub]
        exact ascend_append_joinLeft hle' hnew'
    · rw [skipRight_full (by omega : m - 1 + 1 = blockSize level), if_pos rfl, if_neg (by simp)]
      exact ascend_zero (by simp) 0 _

/-! ## The verifier's own definition -/

/-- The strings that `climb` hashes. -/
def climbPreimages : (path : List Hash) → (old new : Nat) → (oldHash newHash : Hash) → List Bytes
  | [], _, _, _, _ => []
  | sibling :: path, old, new, oldHash, newHash =>
    if new = 0 then []
    else if old % 2 = 1 ∨ old = new then
      let (old, new) := skipLeft old new
      nodePreimage sibling oldHash :: nodePreimage sibling newHash ::
        climbPreimages path (old / 2) (new / 2) (nodeHash sibling oldHash) (nodeHash sibling newHash)
    else
      nodePreimage newHash sibling ::
        climbPreimages path (old / 2) (new / 2) oldHash (nodeHash newHash sibling)

theorem ascend_eq_some_iff {path : List Hash} {old new : Nat} {c root : Computed} :
    ascend path old new c = some root ↔
      climb path old new c.old c.new = .ok (0, root.old, root.new) ∧
        root.hashed = c.hashed ++ climbPreimages path old new c.old c.new := by
  induction path generalizing old new c with
  | nil =>
    rw [ascend, climb, climbPreimages, List.append_nil]
    by_cases hnew : new = 0
    · rw [if_pos hnew, hnew]
      cases c
      cases root
      simp [and_assoc, eq_comm]
    · rw [if_neg hnew]
      simp [hnew]
  | cons sibling path ih =>
    rw [ascend, climb, climbPreimages]
    by_cases hnew : new = 0
    · simp only [if_pos hnew, reduceCtorEq, false_and]
    · rw [if_neg hnew, if_neg hnew, if_neg hnew]
      by_cases hleft : old % 2 = 1 ∨ old = new
      · rw [if_pos hleft, if_pos hleft, if_pos hleft, ih, Computed.joinLeft, List.append_assoc]
        rfl
      · rw [if_neg hleft, if_neg hleft, if_neg hleft, ih, Computed.joinRight, List.append_assoc]
        rfl

end Log

/-! ## Verified proofs -/

namespace ConsistencyProof

open Log

/-- The hashes that a verifier climbs with.  An old tree over a power of two comes with the old
digest. -/
def nodes (proof : ConsistencyProof) (old : LogDigest) : List Hash :=
  if isPowerOfTwo old.size then old.root :: proof.path else proof.path

/-- The strings hashed by a verifier. -/
def preimages (proof : ConsistencyProof) (old new : LogDigest) : List Bytes :=
  if 0 < old.size ∧ old.size < new.size then
    match proof.nodes old with
    | [] => []
    | first :: path =>
      let (oldLast, newLast) := skipRight (old.size - 1) (new.size - 1)
      climbPreimages path oldLast newLast first first
  else []

variable {proof : ConsistencyProof} {old new : LogDigest}

theorem hashed_eq_preimages (hpos : 0 < old.size) (hlt : old.size < new.size) {root : Computed}
    (h : rebuild old.size new.size (proof.nodes old).reverse = some root) :
    root.hashed = proof.preimages old new := by
  rw [preimages, if_pos ⟨hpos, hlt⟩]
  cases hnodes : proof.nodes old with
  | nil =>
    rw [hnodes] at h
    cases h
  | cons first path =>
    rw [hnodes, ← ascend_skipRight hpos (.inl hlt), ascend_eq_some_iff] at h
    exact h.2

theorem size_le_of_verify (h : verifyConsistency old new proof = .ok ()) : old.size ≤ new.size := by
  rw [verifyConsistency, mapError_eq_ok_iff, checkConsistency, check_eq_ok_iff, check_eq_ok_iff] at h
  omega

theorem verify_eq_ok_iff_of_eq (heq : old.size = new.size) :
    verifyConsistency old new proof = .ok () ↔
      (proof.oldSize = old.size ∧ proof.newSize = new.size) ∧
        proof.path = [] ∧ old.root = new.root := by
  rw [verifyConsistency, mapError_eq_ok_iff, checkConsistency, check_eq_ok_iff, check_eq_ok_iff,
    if_pos heq, lastCheck_eq_ok_iff]
  simp only [not_or, not_not, heq, lt_irrefl, not_false_eq_true, true_and]

theorem verify_eq_ok_iff_of_empty (hzero : old.size = 0) (hlt : old.size < new.size) :
    verifyConsistency old new proof = .ok () ↔
      (proof.oldSize = old.size ∧ proof.newSize = new.size) ∧ proof.path = [] := by
  rw [verifyConsistency, mapError_eq_ok_iff, checkConsistency, check_eq_ok_iff, check_eq_ok_iff,
    if_neg (Nat.ne_of_lt hlt), if_pos hzero, lastCheck_eq_ok_iff]
  simp only [not_or, not_not, Nat.not_lt_of_gt hlt, not_false_eq_true, true_and]

/-- A proof between logs of different sizes verifies when it rebuilds both roots. -/
theorem verify_eq_ok_iff_of_lt (hpos : 0 < old.size) (hlt : old.size < new.size) :
    verifyConsistency old new proof = .ok () ↔
      (proof.oldSize = old.size ∧ proof.newSize = new.size) ∧
        ∃ root, rebuild old.size new.size (proof.nodes old).reverse = some root ∧
          root.old = old.root ∧ root.new = new.root := by
  rw [verifyConsistency, mapError_eq_ok_iff, checkConsistency, check_eq_ok_iff, check_eq_ok_iff,
    if_neg (by omega : ¬ old.size = new.size), if_neg (by omega : ¬ old.size = 0), ← nodes, not_or,
    not_not, not_not, and_congr_right_iff]
  intro hsizes
  cases hnodes : proof.nodes old with
  | nil =>
    constructor
    · rintro ⟨-, hthrow⟩
      cases hthrow
    · rintro ⟨root, hroot, -⟩
      cases hroot
  | cons first path =>
    simp only [bind_eq_ok_iff, check_eq_ok_iff, lastCheck_eq_ok_iff, not_not,
      ← ascend_skipRight hpos (.inl hlt), ascend_eq_some_iff]
    constructor
    · rintro ⟨-, ⟨left, oldRoot, newRoot⟩, hclimb, rfl, rfl, rfl⟩
      exact ⟨⟨_, _, _⟩, ⟨hclimb, rfl⟩, rfl, rfl⟩
    · rintro ⟨root, ⟨hclimb, -⟩, hold, hnew⟩
      exact ⟨by omega, _, hclimb, rfl, hold, hnew⟩

end ConsistencyProof

end KeyTransparency
