import KeyTransparency.Forest.Extension
import KeyTransparency.Proofs.Tower

/-!
# Where the roots of a forest stand

The root positions of a size lie side by side and cover the leaves from the first to the last
(`tiles_rootPositions`).  Read backwards they are the left neighbours on a climb that starts behind the
last leaf (`reverse_positionsBelow`).  When a forest grows from `m` to `n` leaves, the positions agree
up to the highest bit in which the sizes differ, and there one new root takes in all further old ones,
if there are any:

    m < n → rootPositions m = common ++ positionsBelow m level start ∧
      rootPositions n = common ++ ⟨level, start⟩ :: rest                             (exists_parting)
    m ≤ n → all roots are kept ∨ ∃ level low first, Merged m n level low first       (kept_or_merged)

`Merged` is all that proofs of extension need to know of sizes and bits.
-/

namespace KeyTransparency

open Tower

namespace Forest

/-! ## Bits of a size -/

theorem testBit_iff {n level : Nat} : n.testBit level = true ↔ n / blockSize level % 2 = 1 := by
  rw [Nat.testBit_eq_decide_div_mod_eq, decide_eq_true_eq]
  rfl

theorem testBit_mul_blockSize {index level : Nat} :
    (index * blockSize level).testBit level = true ↔ index % 2 = 1 := by
  rw [testBit_iff, Nat.mul_div_cancel _ (blockSize_pos level)]

theorem div_blockSize_succ (n level : Nat) : n / blockSize (level + 1) = n / blockSize level / 2 := by
  rw [blockSize_succ, Nat.mul_comm, Nat.div_div_eq_div_mul]

/-- Half an odd index, doubled. -/
theorem half_mul_blockSize_odd {index : Nat} (h : index % 2 = 1) (level : Nat) :
    index / 2 * blockSize (level + 1) = (index - 1) * blockSize level := by
  have hhalf : index - 1 = index / 2 * 2 := by omega
  rw [blockSize_succ, hhalf]
  ring

theorem half_mul_blockSize_even {index : Nat} (h : index % 2 = 0) (level : Nat) :
    index / 2 * blockSize (level + 1) = index * blockSize level := by
  have hhalf : index / 2 * 2 = index := by omega
  rw [blockSize_succ, ← Nat.mul_assoc, hhalf]

theorem pred_mul_add {index : Nat} (h : index % 2 = 1) (size : Nat) :
    (index - 1) * size + size = index * size := by
  have hsucc : index - 1 + 1 = index := by omega
  rw [← Nat.succ_mul, Nat.succ_eq_add_one, hsucc]

/-- The first leaf of the block that leaf number `n` is in. -/
def blockStart (n level : Nat) : Nat := n / blockSize level * blockSize level

/-- Where the bit of a level is set, the larger block starts one block earlier. -/
theorem blockStart_succ_of_bit {n level : Nat} (h : n.testBit level = true) :
    blockStart n (level + 1) = (n / blockSize level - 1) * blockSize level := by
  rw [blockStart, div_blockSize_succ, half_mul_blockSize_odd (testBit_iff.1 h)]

theorem blockStart_of_bit {n level : Nat} (h : n.testBit level = true) :
    blockStart n level = blockStart n (level + 1) + blockSize level := by
  rw [blockStart_succ_of_bit h, pred_mul_add (testBit_iff.1 h), blockStart]

theorem blockStart_of_not_bit {n level : Nat} (h : ¬ n.testBit level = true) :
    blockStart n level = blockStart n (level + 1) := by
  rw [testBit_iff] at h
  rw [blockStart, blockStart, div_blockSize_succ, half_mul_blockSize_even (by omega)]

/-! ## Tilings -/

/-- The positions lie side by side, from leaf `first` to the one before `past`, each at a multiple of
its size. -/
inductive Tiles : (positions : List RootPosition) → (first past : Nat) → Prop
  | nil (n : Nat) : Tiles [] n n
  | cons {positions : List RootPosition} {past : Nat} (level index : Nat)
      (h : Tiles positions (index * blockSize level + blockSize level) past) :
      Tiles (⟨level, index * blockSize level⟩ :: positions) (index * blockSize level) past

theorem Tiles.le {positions : List RootPosition} {first past : Nat} (h : Tiles positions first past) :
    first ≤ past := by
  induction h with
  | nil => exact Nat.le_refl _
  | cons level index h ih => omega

/-- A tile is a block within the leaves that the tiling covers. -/
theorem Tiles.block {positions : List RootPosition} {first past : Nat} (h : Tiles positions first past)
    {p : RootPosition} (hp : p ∈ positions) :
    ∃ index, p.start = index * blockSize p.level ∧ p.start + blockSize p.level ≤ past := by
  induction h with
  | nil => cases hp
  | cons level index h ih =>
    rcases List.mem_cons.1 hp with rfl | hp
    · exact ⟨index, rfl, h.le⟩
    · exact ih hp

theorem Tiles.le_start {positions : List RootPosition} {first past : Nat} (h : Tiles positions first past)
    {p : RootPosition} (hp : p ∈ positions) : first ≤ p.start := by
  induction h with
  | nil => cases hp
  | cons level index h ih =>
    rcases List.mem_cons.1 hp with rfl | hp
    · exact Nat.le_refl _
    · exact Nat.le_trans (Nat.le_add_right _ _) (ih hp)

/-- Tiles that cover anything cover the last leaf. -/
theorem Tiles.exists_last {positions : List RootPosition} {first past : Nat}
    (h : Tiles positions first past) (hlt : first < past) :
    ∃ p ∈ positions, p.start + blockSize p.level = past := by
  induction h with
  | nil => exact absurd hlt (Nat.lt_irrefl _)
  | cons level index h ih =>
    rcases Nat.lt_or_eq_of_le h.le with hmore | hend
    · obtain ⟨p, hp, hpast⟩ := ih hmore
      exact ⟨p, List.mem_cons_of_mem _ hp, hpast⟩
    · exact ⟨_, List.mem_cons_self, hend⟩

/-- The block of a bit that is set lies before the blocks of the lower bits. -/
theorem Tiles.cons_of_bit {n level past : Nat} (hbit : n.testBit level = true)
    {positions : List RootPosition} (h : Tiles positions (blockStart n level) past) :
    Tiles (⟨level, blockStart n (level + 1)⟩ :: positions) (blockStart n (level + 1)) past := by
  rw [blockStart_of_bit hbit] at h
  rw [blockStart_succ_of_bit hbit] at h ⊢
  exact .cons level _ h

theorem tiles_positionsBelow (n level : Nat) :
    Tiles (positionsBelow n level (blockStart n level)) (blockStart n level) n := by
  induction level with
  | zero =>
    rw [blockStart, blockSize_zero, Nat.div_one, Nat.mul_one]
    exact .nil n
  | succ level ih =>
    rw [positionsBelow]
    split
    · next hbit =>
      rw [← blockStart_of_bit hbit]
      exact ih.cons_of_bit hbit
    · next hbit =>
      rw [← blockStart_of_not_bit hbit]
      exact ih

theorem positionsBelow_extend {n level : Nat} (h : n < blockSize level) (more : Nat) :
    positionsBelow n (level + more) 0 = positionsBelow n level 0 := by
  induction more with
  | zero => rfl
  | succ more ih =>
    have hlt : n < 2 ^ (level + more) := Nat.lt_of_lt_of_le h (blockSize_mono (Nat.le_add_right _ _))
    rw [← Nat.add_assoc, positionsBelow, Nat.testBit_lt_two_pow hlt]
    exact ih

theorem lt_blockSize_log2 (n : Nat) : n < blockSize (Nat.log2 n + 1) := Nat.lt_log2_self

theorem blockStart_of_lt {n level : Nat} (h : n < blockSize level) : blockStart n level = 0 := by
  rw [blockStart, Nat.div_eq_of_lt h, Nat.zero_mul]

/-- Bits above the highest do not matter. -/
theorem rootPositions_eq {n level : Nat} (h : Nat.log2 n + 1 ≤ level) :
    rootPositions n = positionsBelow n level (blockStart n level) := by
  have hlt := lt_blockSize_log2 n
  obtain ⟨more, rfl⟩ := Nat.exists_eq_add_of_le h
  rw [blockStart_of_lt (Nat.lt_of_lt_of_le hlt (blockSize_mono h)), positionsBelow_extend hlt]
  rfl

theorem tiles_rootPositions (n : Nat) : Tiles (rootPositions n) 0 n := by
  have h := tiles_positionsBelow n (Nat.log2 n + 1)
  rw [← rootPositions_eq (Nat.le_refl _), blockStart_of_lt (lt_blockSize_log2 n)] at h
  exact h

/-! ## Left neighbours -/

/-- The blocks on the left of a climb of `up` levels from a block of row `level`, the nearest first. -/
def leftNeighbours : (up level index : Nat) → List RootPosition
  | 0, _, _ => []
  | up + 1, level, index =>
    if index % 2 = 1 then
      ⟨level, (index - 1) * blockSize level⟩ :: leftNeighbours up (level + 1) (index / 2)
    else leftNeighbours up (level + 1) (index / 2)

theorem half_div_blockSize (index up : Nat) :
    index / 2 / blockSize up = index / blockSize (up + 1) := by
  rw [Nat.div_div_eq_div_mul, blockSize_succ]

/-- The last level of a climb. -/
theorem leftNeighbours_succ (up level index : Nat) :
    leftNeighbours (up + 1) level index = leftNeighbours up level index ++
      if index / blockSize up % 2 = 1 then
        [⟨level + up, (index / blockSize up - 1) * blockSize (level + up)⟩]
      else [] := by
  induction up generalizing level index with
  | zero =>
    rw [leftNeighbours, leftNeighbours, leftNeighbours, blockSize_zero, Nat.div_one]
    rfl
  | succ up ih =>
    have hlevel : level + 1 + up = level + (up + 1) := by omega
    have hstep := ih (level + 1) (index / 2)
    rw [hlevel, half_div_blockSize] at hstep
    rw [leftNeighbours, hstep, leftNeighbours]
    split
    · rw [List.cons_append]
    · rfl

/-- **Backwards the root positions are left neighbours**, those of the place behind the last leaf. -/
theorem reverse_positionsBelow (n level : Nat) :
    (positionsBelow n level (blockStart n level)).reverse = leftNeighbours level 0 n := by
  induction level with
  | zero => rfl
  | succ level ih =>
    rw [positionsBelow, leftNeighbours_succ, ← ih, Nat.zero_add]
    by_cases hbit : n.testBit level = true
    · rw [if_pos hbit, if_pos (testBit_iff.1 hbit), ← blockStart_of_bit hbit, List.reverse_cons,
        blockStart_succ_of_bit hbit]
    · have heven := mt testBit_iff.2 hbit
      rw [if_neg hbit, if_neg heven, ← blockStart_of_not_bit hbit, List.append_nil]

/-- A climb may as well start at its first left neighbour, which ends where the climb would start. -/
theorem leftNeighbours_cases (up level index : Nat) :
    leftNeighbours up level index = [] ∨
      ∃ low first, low < level + up ∧ (first + 1) * blockSize low = index * blockSize level ∧
        first / blockSize (level + up - low) = index / blockSize up ∧
        leftNeighbours up level index =
          ⟨low, first * blockSize low⟩ :: leftNeighbours (level + up - low) low first := by
  induction up generalizing level index with
  | zero => exact .inl rfl
  | succ up ih =>
    rw [leftNeighbours]
    by_cases hodd : index % 2 = 1
    · right
      have hup : level + (up + 1) - level = up + 1 := by omega
      have hsame : (index - 1) / 2 = index / 2 := by omega
      refine ⟨level, index - 1, by omega, ?_, ?_, ?_⟩
      · rw [Nat.succ_mul, pred_mul_add hodd]
      · rw [hup, ← half_div_blockSize, ← half_div_blockSize, hsame]
      · rw [if_pos hodd, hup, leftNeighbours, if_neg (by omega), hsame]
    · rw [if_neg hodd, ← half_mul_blockSize_even (by omega)]
      have hlevel : level + 1 + up = level + (up + 1) := by omega
      have hstep := ih (level + 1) (index / 2)
      rw [hlevel, half_div_blockSize] at hstep
      exact hstep

/-! ## Growth -/

theorem level_lt_of_mem_positionsBelow {n level start : Nat} {p : RootPosition}
    (h : p ∈ positionsBelow n level start) : p.level < level := by
  induction level generalizing start with
  | zero => cases h
  | succ level ih =>
    rw [positionsBelow] at h
    split at h
    · rcases List.mem_cons.1 h with rfl | h
      · exact Nat.lt_succ_self level
      · exact Nat.lt_succ_of_lt (ih h)
    · exact Nat.lt_succ_of_lt (ih h)

theorem agreement_self {α : Type} [DecidableEq α] (as : List α) : agreement as as = as.length := by
  induction as with
  | nil => rfl
  | cons a as ih => rw [agreement, if_pos rfl, ih, List.length_cons]

theorem agreement_append {α : Type} [DecidableEq α] (common as bs : List α) :
    agreement (common ++ as) (common ++ bs) = common.length + agreement as bs := by
  induction common with
  | nil => rw [List.nil_append, List.nil_append, List.length_nil, Nat.zero_add]
  | cons a common ih =>
    rw [List.cons_append, List.cons_append, agreement, if_pos rfl, ih, List.length_cons]
    omega

theorem take_agreement {α : Type} [DecidableEq α] (as bs : List α) :
    as.take (agreement as bs) = bs.take (agreement as bs) := by
  fun_induction agreement as bs with
  | case1 as b bs ih => rw [List.take_succ_cons, List.take_succ_cons, ih]
  | case2 => rfl
  | case3 => rfl

theorem agreement_eq_zero {α : Type} [DecidableEq α] {as : List α} {b : α} (h : b ∉ as) (bs : List α) :
    agreement as (b :: bs) = 0 := by
  cases as with
  | nil => rfl
  | cons a as =>
    have hne : a ≠ b := fun heq => h (heq ▸ List.mem_cons_self)
    rw [agreement, if_neg hne]

/-- How the root positions of two sizes differ: after the common ones the larger forest has one root
of `level`, over all leaves that the smaller has left and more. -/
structure Parted (m n : Nat) (common : List RootPosition) (level : Nat) (rest : List RootPosition) :
    Prop where
  old : rootPositions m = common ++ positionsBelow m level (blockStart m level)
  new : rootPositions n = common ++ ⟨level, blockStart m level⟩ :: rest
  tiles : Tiles common 0 (blockStart m level)
  fits : blockStart m level + blockSize level ≤ n

theorem Parted.keptRoots {m n level : Nat} {common rest : List RootPosition}
    (h : Parted m n common level rest) : keptRoots m n = common.length := by
  have hnot : (⟨level, blockStart m level⟩ : RootPosition) ∉
      positionsBelow m level (blockStart m level) :=
    fun hmem => Nat.lt_irrefl _ (level_lt_of_mem_positionsBelow hmem)
  rw [Forest.keptRoots, h.old, h.new, agreement_append, agreement_eq_zero hnot, Nat.add_zero]

theorem exists_parting_below {m n level : Nat} (hsame : m / blockSize level = n / blockSize level)
    (hlt : m < n) :
    ∃ common low rest,
      positionsBelow m level (blockStart m level) =
        common ++ positionsBelow m low (blockStart m low) ∧
      positionsBelow n level (blockStart n level) = common ++ ⟨low, blockStart m low⟩ :: rest ∧
      Tiles common (blockStart m level) (blockStart m low) ∧ blockStart m low + blockSize low ≤ n := by
  induction level with
  | zero =>
    rw [blockSize_zero, Nat.div_one, Nat.div_one] at hsame
    omega
  | succ level ih =>
    have hstart : blockStart m (level + 1) = blockStart n (level + 1) := by
      rw [blockStart, blockStart, hsame]
    by_cases hbits : m / blockSize level = n / blockSize level
    · -- the bit is the same in both sizes
      obtain ⟨common, low, rest, hold, hnew, htiles, hfits⟩ := ih hbits
      have htest : m.testBit level = true ↔ n.testBit level = true := by
        rw [testBit_iff, testBit_iff, hbits]
      by_cases hbit : m.testBit level = true
      · refine ⟨⟨level, blockStart m (level + 1)⟩ :: common, low, rest, ?_, ?_,
          htiles.cons_of_bit hbit, hfits⟩
        · rw [positionsBelow, if_pos hbit, ← blockStart_of_bit hbit, hold, List.cons_append]
        · rw [positionsBelow, if_pos (htest.1 hbit), ← blockStart_of_bit (htest.1 hbit), hnew, hstart,
            List.cons_append]
      · refine ⟨common, low, rest, ?_, ?_, ?_, hfits⟩
        · rw [positionsBelow, if_neg hbit, ← blockStart_of_not_bit hbit, hold]
        · have hbit' := mt htest.2 hbit
          rw [positionsBelow, if_neg hbit', ← blockStart_of_not_bit hbit', hnew]
        · rw [← blockStart_of_not_bit hbit]
          exact htiles
    · -- it is set in the larger size only
      have hle : m / blockSize level ≤ n / blockSize level := Nat.div_le_div_right (Nat.le_of_lt hlt)
      rw [div_blockSize_succ, div_blockSize_succ] at hsame
      have hnext : n / blockSize level = m / blockSize level + 1 := by omega
      have hbit : ¬ m.testBit level = true := mt testBit_iff.1 (by omega)
      have hbit' : n.testBit level = true := testBit_iff.2 (by omega)
      refine ⟨[], level, positionsBelow n level (blockStart m level + blockSize level), ?_, ?_, ?_, ?_⟩
      · rw [positionsBelow, if_neg hbit, ← blockStart_of_not_bit hbit]
        rfl
      · rw [positionsBelow, if_pos hbit', ← hstart, blockStart_of_not_bit hbit]
        rfl
      · rw [blockStart_of_not_bit hbit]
        exact .nil _
      · have hn := Nat.div_mul_le_self n (blockSize level)
        rw [hnext, Nat.succ_mul] at hn
        exact hn

/-- **A larger forest keeps some of the roots and takes all others into one.** -/
theorem exists_parting {m n : Nat} (hlt : m < n) :
    ∃ common level rest, Parted m n common level rest := by
  have hm : m < blockSize (Nat.log2 n + 1) := Nat.lt_trans hlt (lt_blockSize_log2 n)
  have hlog : Nat.log2 m + 1 ≤ Nat.log2 n + 1 := by
    rcases Nat.eq_zero_or_pos m with rfl | hpos
    · exact Nat.le_add_left _ _
    · exact (Nat.log2_lt (Nat.ne_of_gt hpos)).2 hm
  have hsame : m / blockSize (Nat.log2 n + 1) = n / blockSize (Nat.log2 n + 1) := by
    rw [Nat.div_eq_of_lt hm, Nat.div_eq_of_lt (lt_blockSize_log2 n)]
  obtain ⟨common, level, rest, hold, hnew, htiles, hfits⟩ := exists_parting_below hsame hlt
  rw [← rootPositions_eq hlog] at hold
  rw [← rootPositions_eq (Nat.le_refl _)] at hnew
  rw [blockStart_of_lt hm] at htiles
  exact ⟨common, level, rest, hold, hnew, htiles, hfits⟩

/-- A forest of `m` leaves that grows to `n` has its last root, block `first` of row `low`, and perhaps
others taken into a new one, of `level`. -/
structure Merged (m n level low first : Nat) : Prop where
  /-- The old roots that go, the last first: those that a climb from the last one has on its left. -/
  old : ((rootPositions m).drop (keptRoots m n)).reverse =
    ⟨low, first * blockSize low⟩ :: leftNeighbours (level - low) low first
  new : (rootPositions n)[keptRoots m n]? =
    some ⟨level, first / blockSize (level - low) * blockSize level⟩
  lower : low < level
  last : (first + 1) * blockSize low = m
  /-- The old roots that stay end where the new one starts. -/
  tiles : Tiles ((rootPositions m).take (keptRoots m n)) 0
    (first / blockSize (level - low) * blockSize level)
  within : first / blockSize (level - low) * blockSize level ≤ m
  fits : (first / blockSize (level - low) + 1) * blockSize level ≤ n

namespace Merged

variable {m n level low first : Nat}

theorem add_sub (h : Merged m n level low first) : low + (level - low) = level :=
  Nat.add_sub_of_le (Nat.le_of_lt h.lower)

theorem getLast? (h : Merged m n level low first) :
    ((rootPositions m).drop (keptRoots m n)).getLast? = some ⟨low, first * blockSize low⟩ := by
  rw [List.getLast?_eq_head?_reverse, h.old, List.head?_cons]

/-- The new root is complete where there are enough leaves. -/
theorem fits_of_le (h : Merged m n level low first) {size : Nat} (hle : n ≤ size) :
    (first / blockSize (level - low) + 1) * blockSize (low + (level - low)) ≤ size := by
  rw [h.add_sub]
  exact Nat.le_trans h.fits hle

end Merged

theorem Parted.kept_or_merged {m n level : Nat} {common rest : List RootPosition}
    (h : Parted m n common level rest) :
    (rootPositions m).drop (Forest.keptRoots m n) = [] ∨ ∃ low first, Merged m n level low first := by
  have hdrop : (rootPositions m).drop (Forest.keptRoots m n) =
      positionsBelow m level (blockStart m level) := by
    rw [h.keptRoots, h.old, List.drop_left]
  have htake : (rootPositions m).take (Forest.keptRoots m n) = common := by
    rw [h.keptRoots, h.old, List.take_left]
  have hnext : (rootPositions n)[Forest.keptRoots m n]? = some ⟨level, blockStart m level⟩ := by
    rw [h.keptRoots, h.new, List.getElem?_append_right (Nat.le_refl _), Nat.sub_self]
    rfl
  have hreverse := reverse_positionsBelow m level
  rcases leftNeighbours_cases level 0 m with hnil | ⟨low, first, hlow, hlast, hblock, hcons⟩
  · left
    rw [hdrop, ← List.reverse_eq_nil_iff, hreverse, hnil]
  · right
    rw [Nat.zero_add] at hlow hblock hcons
    rw [blockSize_zero, Nat.mul_one] at hlast
    have hfits := h.fits
    have htiles := h.tiles
    have hwithin : blockStart m level ≤ m := Nat.div_mul_le_self m (blockSize level)
    rw [blockStart, ← hblock] at hnext htiles hwithin
    rw [blockStart, ← Nat.succ_mul, ← hblock] at hfits
    refine ⟨low, first, ?_, hnext, hlow, hlast, ?_, hwithin, hfits⟩
    · rw [hdrop, hreverse, hcons]
    · rw [htake]
      exact htiles

/-- **A forest that grows keeps its roots, or its last ones are merged into one.** -/
theorem kept_or_merged {m n : Nat} (hle : m ≤ n) :
    (rootPositions m).drop (keptRoots m n) = [] ∨
      ∃ level low first, Merged m n level low first := by
  rcases Nat.lt_or_eq_of_le hle with hlt | rfl
  · obtain ⟨common, level, rest, hparted⟩ := exists_parting hlt
    exact hparted.kept_or_merged.imp_right fun hmerged => ⟨level, hmerged⟩
  · left
    rw [keptRoots, agreement_self, List.drop_length]

end Forest

end KeyTransparency
