import KeyTransparency.Proofs.Forest.Climb

/-!
# Verification never leaves its lists and its words

`Guarded.check` verifies extension proofs with indices into lists and words of 64 bits: it slices and
indexes the roots of both digests and the position lists, counts an index of the old roots down, and
subtracts from and shifts the start of a block.  Each of these steps is guarded, and one that its
operands do not allow is a `Misstep`.  For two digests and a proof of any contents none happens:

    old.size < 2 ^ 64 → new.size < 2 ^ 64 →
      Guarded.check old new proof = (checkExtension old new proof).mapError .fault
                                                               (verification_never_missteps)

What carries the walk is that its index stays above the first changed root by the number of left
neighbours that are still ahead, which the two sizes settle (`Merged`).  So the walk neither passes
that root nor leaves an old root over: two of the faults that a verifier can report are never reported.
-/

namespace KeyTransparency

open Tower

namespace Forest

/-! ## Guarded steps -/

/-- A step that its operands do not allow. -/
inductive Misstep
  | index (index length : Nat)
  | slice (stop length : Nat)
  | belowZero (number less : Nat)
  | overflow (number more : Nat)
  | shift (amount : Nat)
deriving DecidableEq

/-- Why a guarded verification ends early. -/
inductive Stop
  | misstep (misstep : Misstep)
  | fault (fault : ProofFault)
deriving DecidableEq

namespace Guarded

def item {α : Type} (items : List α) (index : Nat) : Except Stop α :=
  match items[index]? with
  | some item => .ok item
  | none => .error (.misstep (.index index items.length))

/-- The items before `stop`. -/
def front {α : Type} (items : List α) (stop : Nat) : Except Stop (List α) :=
  if items.length < stop then .error (.misstep (.slice stop items.length)) else .ok (items.take stop)

def minus (number less : Nat) : Except Stop Nat :=
  if number < less then .error (.misstep (.belowZero number less)) else .ok (number - less)

def plus (number more : Nat) : Except Stop Nat :=
  if 2 ^ 64 ≤ number + more then .error (.misstep (.overflow number more)) else .ok (number + more)

def shiftRight (number amount : Nat) : Except Stop Nat :=
  if 64 ≤ amount then .error (.misstep (.shift amount)) else .ok (number >>> amount)

/-- The word with bit `amount` set. -/
def bit (amount : Nat) : Except Stop Nat :=
  if 64 ≤ amount then .error (.misstep (.shift amount)) else .ok (1 <<< amount)

/-! ## Guarded verification -/

def positionsBelow (size : Nat) : (level start : Nat) → Except Stop (List RootPosition)
  | 0, _ => .ok []
  | level + 1, start => do
    if (← shiftRight size level) % 2 = 1 then
      let next ← plus start (← bit level)
      let rest ← positionsBelow size level next
      .ok (⟨level, start⟩ :: rest)
    else positionsBelow size level start

def rootPositions (size : Nat) : Except Stop (List RootPosition) := positionsBelow size 64 0

/-- Where a walk has come to. -/
structure Walk where
  /-- The index of the old root taken in last. -/
  root : Nat
  start : Nat
  node : ForestNode
  siblings : List ForestNode

/-- Walks `up` levels from `level`; the old roots before `changed` are not to be taken in. -/
def walk (roots : List ForestNode) (changed : Nat) : (up level : Nat) → Walk → Except Stop Walk
  | 0, _, w => .ok w
  | up + 1, level, w => do
    if (← shiftRight w.start level) % 2 = 1 then
      if w.root ≤ changed then .error (.fault .walkPassedChangedRoot)
      else
        let root ← minus w.root 1
        let left ← item roots root
        let start ← minus w.start (← bit level)
        walk roots changed up (level + 1) ⟨root, start, left.combine w.node, w.siblings⟩
    else
      match w.siblings with
      | [] => .error (.fault .missingSibling)
      | right :: siblings =>
        walk roots changed up (level + 1) { w with node := w.node.combine right, siblings }

/-- Compares where a walk has ended with the first changed root. -/
def checkTop (new : ForestDigest) (changed : Nat) (target : RootPosition) (top : Walk) :
    Except Stop Unit :=
  if top.root ≠ changed ∨ top.start ≠ target.start then .error (.fault .walkIncomplete)
  else if top.siblings ≠ [] then .error (.fault .extraSiblings)
  else do
    if top.node ≠ (← item new.roots changed) then .error (.fault .rebuiltRootDiffers) else .ok ()

/-- Walks from the last old root to the first changed one. -/
def checkWalk (old new : ForestDigest) (siblings : List ForestNode)
    (oldPositions newPositions : List RootPosition) (changed : Nat) : Except Stop Unit := do
  let target ← item newPositions changed
  let root ← minus old.roots.length 1
  let node ← item old.roots root
  let last ← item oldPositions root
  let top ← walk old.roots changed (target.level - last.level) last.level
    ⟨root, last.start, node, siblings⟩
  checkTop new changed target top

def check (old new : ForestDigest) (proof : ExtensionProof) : Except Stop Unit :=
  if proof.oldSize ≠ old.size ∨ proof.newSize ≠ new.size then .error (.fault .sizesDiffer)
  else if new.size < old.size then .error (.fault .forestShrank)
  else if old.roots.length ≠ bitCount old.size ∨ new.roots.length ≠ bitCount new.size then
    .error (.fault .rootCount)
  else do
    let oldPositions ← rootPositions old.size
    let newPositions ← rootPositions new.size
    let changed := agreement oldPositions newPositions
    if (← front old.roots changed) ≠ (← front new.roots changed) then
      .error (.fault .settledRootRewritten)
    else if changed = oldPositions.length then
      if proof.siblings ≠ [] then .error (.fault .unexpectedSiblings) else .ok ()
    else checkWalk old new proof.siblings oldPositions newPositions changed

/-! ## Steps that are allowed -/

section

variable {α : Type} {items : List α} {index number less more amount : Nat}

theorem item_eq_ok {a : α} (h : items[index]? = some a) : item items index = .ok a := by
  rw [item, h]

theorem front_eq_ok (h : index ≤ items.length) : front items index = .ok (items.take index) :=
  if_neg (Nat.not_lt.2 h)

theorem minus_eq_ok (h : less ≤ number) : minus number less = .ok (number - less) :=
  if_neg (Nat.not_lt.2 h)

theorem plus_eq_ok (h : number + more < 2 ^ 64) : plus number more = .ok (number + more) :=
  if_neg (Nat.not_le.2 h)

theorem shiftRight_eq_ok (h : amount < 64) :
    shiftRight number amount = .ok (number / blockSize amount) := by
  rw [shiftRight, if_neg (Nat.not_le.2 h), Nat.shiftRight_eq_div_pow]
  rfl

theorem bit_eq_ok (h : amount < 64) : bit amount = .ok (blockSize amount) := by
  rw [bit, if_neg (Nat.not_le.2 h), Nat.shiftLeft_eq, Nat.one_mul]
  rfl

end

/-! ## Root positions -/

theorem positionsBelow_eq_ok {size level : Nat} (hsize : size < 2 ^ 64) (hlevel : level ≤ 64) :
    positionsBelow size level (blockStart size level) =
      .ok (Forest.positionsBelow size level (blockStart size level)) := by
  induction level with
  | zero => rfl
  | succ level ih =>
    rw [positionsBelow, Forest.positionsBelow, shiftRight_eq_ok hlevel]
    by_cases hbit : size.testBit level = true
    · have hnext := blockStart_of_bit hbit
      have hwithin : blockStart size level ≤ size := Nat.div_mul_le_self _ _
      have hfits : blockStart size (level + 1) + blockSize level < 2 ^ 64 := by omega
      simp only [bind, Except.bind, if_pos (testBit_iff.1 hbit), bit_eq_ok hlevel, plus_eq_ok hfits,
        ← hnext, ih (Nat.le_of_succ_le hlevel), if_pos hbit]
    · simp only [bind, Except.bind, if_neg (mt testBit_iff.2 hbit), ← blockStart_of_not_bit hbit,
        ih (Nat.le_of_succ_le hlevel), if_neg hbit]

theorem log2_lt_of_lt {size : Nat} (hsize : size < 2 ^ 64) : Nat.log2 size + 1 ≤ 64 := by
  rcases Nat.eq_zero_or_pos size with rfl | hpos
  · decide
  · exact (Nat.log2_lt (Nat.ne_of_gt hpos)).2 hsize

theorem rootPositions_eq_ok {size : Nat} (hsize : size < 2 ^ 64) :
    rootPositions size = .ok (Forest.rootPositions size) := by
  have hstart : blockStart size 64 = 0 := blockStart_of_lt hsize
  have hall := positionsBelow_eq_ok hsize (Nat.le_refl 64)
  rwa [← rootPositions_eq (log2_lt_of_lt hsize), hstart] at hall

/-- The levels of roots are amounts that a word may be shifted by. -/
theorem level_lt {size : Nat} (hsize : size < 2 ^ 64) {p : RootPosition}
    (hp : p ∈ Forest.rootPositions size) : p.level < 64 := by
  rw [rootPositions_eq (log2_lt_of_lt hsize)] at hp
  exact level_lt_of_mem_positionsBelow hp

/-! ## Walks -/

/-- Backwards, the items from `first` up to `index` begin with the one at `index`. -/
theorem reverse_drop_take_succ {α : Type} {items : List α} {first index : Nat} {a : α}
    (hle : first ≤ index) (h : items[index]? = some a) :
    ((items.take (index + 1)).drop first).reverse = a :: ((items.take index).drop first).reverse := by
  obtain ⟨hlt, -⟩ := List.getElem?_eq_some_iff.1 h
  have hlength : first ≤ (items.take index).length := by
    rw [List.length_take]
    omega
  rw [List.take_add_one, h, List.drop_append_of_le_length hlength, List.reverse_append]
  rfl

/-- The walk, with the old roots that it has still to take in. -/
def Walk.toClimb (w : Walk) (roots : List ForestNode) (changed : Nat) : Climb :=
  ⟨w.start, w.node, ((roots.take w.root).drop changed).reverse, w.siblings⟩

/-- Where a climb ends that has taken in all old roots. -/
def Walk.ofClimb (changed : Nat) (top : Climb) : Walk := ⟨changed, top.start, top.node, top.siblings⟩

section

variable {roots : List ForestNode} {changed up level index : Nat} {w : Walk}

/-- **A guarded walk is a climb**, as long as its index counts the left neighbours ahead. -/
theorem walk_eq (hup : level + up ≤ 64) (hstart : w.start = index * blockSize level)
    (hcount : w.root = changed + (leftNeighbours up level index).length)
    (hroot : w.root ≤ roots.length) :
    walk roots changed up level w =
      ((climb up level (w.toClimb roots changed)).map (Walk.ofClimb changed)).mapError .fault := by
  induction up generalizing level index w with
  | zero =>
    rw [walk, climb]
    show _ = Except.ok (Walk.ofClimb changed (w.toClimb roots changed))
    rw [Walk.ofClimb, Walk.toClimb]
    obtain ⟨root, start, node, siblings⟩ := w
    cases hcount
    rfl
  | succ up ih =>
    have hlevel : level < 64 := by omega
    have hindex : w.start / blockSize level = index := by
      rw [hstart, Nat.mul_div_cancel _ (blockSize_pos level)]
    have hbit : (w.toClimb roots changed).start.testBit level = true ↔ index % 2 = 1 := by
      rw [testBit_iff, Walk.toClimb, hindex]
    rw [walk, climb, shiftRight_eq_ok hlevel, hindex]
    by_cases hodd : index % 2 = 1
    · rw [leftNeighbours, if_pos hodd, List.length_cons, ← Nat.add_assoc] at hcount
      have hmore : ¬ w.root ≤ changed := by omega
      have hpred : w.root - 1 = changed + (leftNeighbours up (level + 1) (index / 2)).length := by omega
      obtain ⟨left, hleft⟩ : ∃ left, roots[w.root - 1]? = some left :=
        ⟨_, List.getElem?_eq_getElem (by omega)⟩
      have hfits : blockSize level ≤ w.start := by
        rw [hstart, ← pred_mul_add hodd]
        exact Nat.le_add_left _ _
      have habsorb : (w.toClimb roots changed).absorb =
          left :: ((roots.take (w.root - 1)).drop changed).reverse := by
        rw [← reverse_drop_take_succ (by omega) hleft, Nat.sub_add_cancel (by omega)]
        rfl
      have hnext := ih (w := ⟨w.root - 1, w.start - blockSize level, left.combine w.node, w.siblings⟩)
        (by omega) (joinLeft_start (c := w.toClimb roots changed) hstart hodd left []) hpred
        (Nat.le_trans (Nat.sub_le _ _) hroot)
      simp only [bind, Except.bind, if_pos hodd, if_neg hmore, minus_eq_ok (by omega : 1 ≤ w.root),
        item_eq_ok hleft, bit_eq_ok hlevel, minus_eq_ok hfits, hnext, if_pos (hbit.2 hodd), habsorb]
      rfl
    · rw [leftNeighbours, if_neg hodd] at hcount
      simp only [bind, Except.bind, if_neg hodd, if_neg (mt hbit.1 hodd)]
      rw [show (w.toClimb roots changed).siblings = w.siblings from rfl]
      cases w.siblings with
      | nil => rfl
      | cons right siblings =>
        exact ih (w := ⟨w.root, w.start, w.node.combine right, siblings⟩) (by omega)
          (joinRight_start (c := w.toClimb roots changed) hstart hodd right siblings) hcount hroot

end

end Guarded

/-! ## Climbs -/

/-- A climb with an old root for each left neighbour takes in all of them, unless a sibling is missing. -/
theorem climb_cases {up level index : Nat} {c : Climb} (hstart : c.start = index * blockSize level)
    (hcount : c.absorb.length = (leftNeighbours up level index).length) :
    climb up level c = .error .missingSibling ∨
      ∃ top, climb up level c = .ok top ∧ top.absorb = [] ∧
        top.start = index / blockSize up * blockSize (level + up) := by
  induction up generalizing level index c with
  | zero =>
    refine .inr ⟨c, rfl, List.eq_nil_of_length_eq_zero hcount, ?_⟩
    rw [hstart, blockSize_zero, Nat.div_one, Nat.add_zero]
  | succ up ih =>
    have hlevel : level + (up + 1) = level + 1 + up := by omega
    have hbit : c.start.testBit level = true ↔ index % 2 = 1 := by
      rw [hstart]
      exact testBit_mul_blockSize
    rw [climb, hlevel, ← half_div_blockSize]
    by_cases hodd : index % 2 = 1
    · rw [leftNeighbours, if_pos hodd, List.length_cons] at hcount
      obtain ⟨left, absorb, habsorb⟩ := List.exists_cons_of_length_eq_add_one hcount
      rw [habsorb, List.length_cons] at hcount
      rw [if_pos (hbit.2 hodd), habsorb]
      exact ih (joinLeft_start hstart hodd left absorb) (Nat.succ.inj hcount)
    · rw [leftNeighbours, if_neg hodd] at hcount
      rw [if_neg (mt hbit.1 hodd)]
      cases c.siblings with
      | nil => exact .inl rfl
      | cons right siblings => exact ih (joinRight_start hstart hodd right siblings) hcount

/-! ## Verified and guarded -/

theorem agreement_le {α : Type} [DecidableEq α] (as bs : List α) :
    agreement as bs ≤ as.length ∧ agreement as bs ≤ bs.length := by
  fun_induction agreement as bs with
  | case1 as b bs ih => exact ih.imp Nat.succ_le_succ Nat.succ_le_succ
  | case2 => exact ⟨Nat.zero_le _, Nat.zero_le _⟩
  | case3 => exact ⟨Nat.zero_le _, Nat.zero_le _⟩

/-- Both verifications come to the answer, and the walk is not to blame. -/
structure Agrees (old new : ForestDigest) (proof : ExtensionProof) (answer : Except ProofFault Unit) :
    Prop where
  plain : checkExtension old new proof = answer
  guarded : Guarded.check old new proof = answer.mapError .fault
  not_passed : answer ≠ .error .walkPassedChangedRoot
  not_incomplete : answer ≠ .error .walkIncomplete

section

variable {old new : ForestDigest} {proof : ExtensionProof}

/-- What is known of two digests when the walk begins. -/
structure Counted (old new : ForestDigest) (proof : ExtensionProof) : Prop where
  sizes : ¬ (proof.oldSize ≠ old.size ∨ proof.newSize ≠ new.size)
  grows : ¬ new.size < old.size
  rootCounts : ¬ (old.roots.length ≠ bitCount old.size ∨ new.roots.length ≠ bitCount new.size)
  old_lt : old.size < 2 ^ 64
  new_lt : new.size < 2 ^ 64

namespace Counted

theorem length_old (h : Counted old new proof) : old.roots.length = (rootPositions old.size).length :=
  not_not.1 (not_or.1 h.rootCounts).1

theorem length_new (h : Counted old new proof) : new.roots.length = (rootPositions new.size).length :=
  not_not.1 (not_or.1 h.rootCounts).2

/-- The roots to compare are there. -/
theorem front_eq_ok (h : Counted old new proof) :
    Guarded.front old.roots (keptRoots old.size new.size) =
        .ok (old.roots.take (keptRoots old.size new.size)) ∧
      Guarded.front new.roots (keptRoots old.size new.size) =
        .ok (new.roots.take (keptRoots old.size new.size)) := by
  constructor
  · apply Guarded.front_eq_ok
    rw [h.length_old]
    exact (agreement_le _ _).1
  · apply Guarded.front_eq_ok
    rw [h.length_new]
    exact (agreement_le _ _).2

theorem guarded_eq (h : Counted old new proof) :
    Guarded.check old new proof =
      if old.roots.take (keptRoots old.size new.size) ≠ new.roots.take (keptRoots old.size new.size) then
        .error (.fault .settledRootRewritten)
      else if keptRoots old.size new.size = (rootPositions old.size).length then
        if proof.siblings ≠ [] then .error (.fault .unexpectedSiblings) else .ok ()
      else Guarded.checkWalk old new proof.siblings (rootPositions old.size) (rootPositions new.size)
        (keptRoots old.size new.size) := by
  obtain ⟨hold, hnew⟩ := h.front_eq_ok
  rw [keptRoots] at hold hnew
  rw [Guarded.check, if_neg h.sizes, if_neg h.grows, if_neg h.rootCounts,
    Guarded.rootPositions_eq_ok h.old_lt, Guarded.rootPositions_eq_ok h.new_lt]
  simp only [bind, Except.bind, hold, hnew, keptRoots]
  rfl

theorem agrees_of_rewritten (h : Counted old new proof)
    (hrewritten : old.roots.take (keptRoots old.size new.size) ≠
      new.roots.take (keptRoots old.size new.size)) :
    Agrees old new proof (.error .settledRootRewritten) where
  plain := by
    rw [checkExtension, if_neg h.sizes, if_neg h.grows, if_neg h.rootCounts]
    dsimp only
    rw [if_pos hrewritten]
    rfl
  guarded := by
    rw [h.guarded_eq, if_pos hrewritten]
    rfl
  not_passed := nofun
  not_incomplete := nofun

/-- When all roots are kept, the proof has to be empty. -/
theorem agrees_of_kept (h : Counted old new proof)
    (hsame : ¬ old.roots.take (keptRoots old.size new.size) ≠
      new.roots.take (keptRoots old.size new.size))
    (hkept : (rootPositions old.size).drop (keptRoots old.size new.size) = []) :
    Agrees old new proof (if proof.siblings ≠ [] then .error .unexpectedSiblings else .ok ()) where
  plain := by
    rw [checkExtension, if_neg h.sizes, if_neg h.grows, if_neg h.rootCounts]
    dsimp only
    rw [if_neg hsame]
    split
    · next hlast _ =>
      rw [hkept] at hlast
      cases hlast
    · rfl
  guarded := by
    have hall : keptRoots old.size new.size = (rootPositions old.size).length :=
      Nat.le_antisymm (agreement_le _ _).1 (List.drop_eq_nil_iff.1 hkept)
    rw [h.guarded_eq, if_neg hsame, if_pos hall]
    split <;> rfl
  not_passed h := by split at h <;> cases h
  not_incomplete h := by split at h <;> cases h

end Counted

/-! ## The walk of two digests -/

/-- Stands at the last old root. -/
structure Starts (old : ForestDigest) (siblings : List ForestNode) (kept level low first : Nat)
    (w : Guarded.Walk) : Prop where
  length : old.roots.length = w.root + 1
  root : old.roots[w.root]? = some w.node
  position : (rootPositions old.size)[w.root]? = some ⟨low, w.start⟩
  start : w.start = first * blockSize low
  siblings : w.siblings = siblings
  /-- One old root is gone for each left neighbour on the way. -/
  ahead : w.root = kept + (leftNeighbours (level - low) low first).length
  gone : (old.roots.drop kept).reverse = w.node :: (w.toClimb old.roots kept).absorb

/-- What is checked of a climb that has ended. -/
def topAnswer (new : ForestDigest) (kept start : Nat) (top : Climb) : Except ProofFault Unit :=
  if top.absorb ≠ [] ∨ top.start ≠ start then .error .walkIncomplete
  else if top.siblings ≠ [] then .error .extraSiblings
  else if some top.node ≠ new.roots[kept]? then .error .rebuiltRootDiffers
  else .ok ()

theorem topAnswer_ne (new : ForestDigest) (kept : Nat) {start : Nat} {top : Climb} (habsorb : top.absorb = [])
    (hstart : top.start = start) :
    topAnswer new kept start top ≠ .error .walkPassedChangedRoot ∧
      topAnswer new kept start top ≠ .error .walkIncomplete := by
  rw [topAnswer, if_neg (not_or.2 ⟨not_not.2 habsorb, not_not.2 hstart⟩)]
  split
  · exact ⟨nofun, nofun⟩
  · split <;> exact ⟨nofun, nofun⟩

namespace Counted

theorem exists_starts (h : Counted old new proof) {level low first : Nat}
    (hmerged : Merged old.size new.size level low first) :
    ∃ w, Starts old proof.siblings (keptRoots old.size new.size) level low first w := by
  have hcount := congrArg List.length hmerged.old
  have hlast := hmerged.getLast?
  rw [List.length_reverse, List.length_drop, ← h.length_old, List.length_cons] at hcount
  rw [List.getLast?_drop, if_neg (by rw [← h.length_old]; omega), List.getLast?_eq_getElem?,
    ← h.length_old] at hlast
  obtain ⟨root, hroot⟩ : ∃ root, old.roots.length = root + 1 := ⟨old.roots.length - 1, by omega⟩
  obtain ⟨node, hnode⟩ : ∃ node, old.roots[root]? = some node :=
    ⟨_, List.getElem?_eq_getElem (by omega)⟩
  rw [hroot, Nat.add_sub_cancel] at hlast
  have hgone : (old.roots.drop (keptRoots old.size new.size)).reverse =
      node :: ((old.roots.take root).drop (keptRoots old.size new.size)).reverse := by
    rw [← Guarded.reverse_drop_take_succ (by omega) hnode, ← hroot, List.take_length]
  have hahead : root = keptRoots old.size new.size + (leftNeighbours (level - low) low first).length := by
    omega
  exact ⟨⟨root, _, node, _⟩, hroot, hnode, hlast, rfl, rfl, hahead, hgone⟩

theorem checkExtension_eq (h : Counted old new proof)
    (hsame : ¬ old.roots.take (keptRoots old.size new.size) ≠
      new.roots.take (keptRoots old.size new.size))
    {level low first : Nat} (hmerged : Merged old.size new.size level low first) {w : Guarded.Walk}
    (hw : Starts old proof.siblings (keptRoots old.size new.size) level low first w) :
    checkExtension old new proof =
      (climb (level - low) low (w.toClimb old.roots (keptRoots old.size new.size))).bind
        (topAnswer new (keptRoots old.size new.size)
          (first / blockSize (level - low) * blockSize level)) := by
  rw [checkExtension, if_neg h.sizes, if_neg h.grows, if_neg h.rootCounts]
  dsimp only
  rw [if_neg hsame]
  simp only [hw.gone, hmerged.getLast?, hmerged.new, ← hw.siblings, ← hw.start]
  refine congrArg (Except.bind _) (funext fun top => ?_)
  rw [topAnswer]
  split
  · rfl
  · split <;> rfl

theorem check_eq (h : Counted old new proof)
    (hsame : ¬ old.roots.take (keptRoots old.size new.size) ≠
      new.roots.take (keptRoots old.size new.size))
    {level low first : Nat} (hmerged : Merged old.size new.size level low first) {w : Guarded.Walk}
    (hw : Starts old proof.siblings (keptRoots old.size new.size) level low first w) :
    Guarded.check old new proof =
      ((climb (level - low) low (w.toClimb old.roots (keptRoots old.size new.size))).mapError
          .fault).bind fun top =>
        Guarded.checkTop new (keptRoots old.size new.size)
          ⟨level, first / blockSize (level - low) * blockSize level⟩
          (Guarded.Walk.ofClimb (keptRoots old.size new.size) top) := by
  have hgone : keptRoots old.size new.size ≠ (rootPositions old.size).length := by
    have hlength := hw.length
    have hahead := hw.ahead
    rw [← h.length_old]
    omega
  have hlevel : low + (level - low) ≤ 64 := by
    rw [hmerged.add_sub]
    exact Nat.le_of_lt (Guarded.level_lt h.new_lt (List.mem_of_getElem? hmerged.new))
  have hwalk : Guarded.walk old.roots _ (level - low) low w = _ :=
    Guarded.walk_eq hlevel hw.start hw.ahead (by rw [hw.length]; exact Nat.le_succ _)
  rw [h.guarded_eq, if_neg hsame, if_neg hgone, Guarded.checkWalk, Guarded.item_eq_ok hmerged.new,
    Guarded.minus_eq_ok (by rw [hw.length]; exact Nat.le_add_left _ _), hw.length, Nat.add_sub_cancel,
    ← hw.siblings]
  simp only [bind, Except.bind, Guarded.item_eq_ok hw.root, Guarded.item_eq_ok hw.position, hwalk]
  cases climb (level - low) low (w.toClimb old.roots (keptRoots old.size new.size)) <;> rfl

/-- What remains to be checked at the new root, once a climb has taken in all old ones. -/
theorem checkTop_eq (h : Counted old new proof) {kept : Nat} {target : RootPosition} {top : Climb}
    (hnew : (rootPositions new.size)[kept]? = some target) (habsorb : top.absorb = [])
    (hstart : top.start = target.start) :
    Guarded.checkTop new kept target (Guarded.Walk.ofClimb kept top) =
      (topAnswer new kept target.start top).mapError .fault := by
  have hkept : kept < new.roots.length := by
    rw [h.length_new]
    exact (List.getElem?_eq_some_iff.1 hnew).1
  have hroot : new.roots[kept]? = some new.roots[kept] := List.getElem?_eq_getElem hkept
  have harrived : ¬ ((Guarded.Walk.ofClimb kept top).root ≠ kept ∨
      (Guarded.Walk.ofClimb kept top).start ≠ target.start) :=
    not_or.2 ⟨not_not.2 rfl, not_not.2 hstart⟩
  have hended : ¬ (top.absorb ≠ [] ∨ top.start ≠ target.start) :=
    not_or.2 ⟨not_not.2 habsorb, not_not.2 hstart⟩
  rw [Guarded.checkTop, if_neg harrived, topAnswer, if_neg hended, Guarded.item_eq_ok hroot, hroot]
  by_cases hused : top.siblings ≠ []
  · rw [if_pos hused]
    exact if_pos hused
  · rw [if_neg hused]
    refine (if_neg hused).trans ?_
    by_cases hsame : top.node = new.roots[kept]
    · rw [if_neg (not_not.2 (congrArg some hsame))]
      exact if_neg (not_not.2 hsame)
    · rw [if_pos (mt Option.some.inj hsame)]
      exact if_pos hsame

theorem agrees_of_merged (h : Counted old new proof)
    (hsame : ¬ old.roots.take (keptRoots old.size new.size) ≠
      new.roots.take (keptRoots old.size new.size))
    {level low first : Nat} (hmerged : Merged old.size new.size level low first) :
    ∃ answer, Agrees old new proof answer := by
  obtain ⟨w, hw⟩ := h.exists_starts hmerged
  have hplain := h.checkExtension_eq hsame hmerged hw
  have hguarded := h.check_eq hsame hmerged hw
  have hcount : (w.toClimb old.roots (keptRoots old.size new.size)).absorb.length =
      (leftNeighbours (level - low) low first).length := by
    have hlength := hw.length
    have hahead := hw.ahead
    rw [Guarded.Walk.toClimb, List.length_reverse, List.length_drop, List.length_take]
    omega
  rcases climb_cases (c := w.toClimb old.roots (keptRoots old.size new.size)) hw.start hcount with
    hmissing | ⟨top, htop, habsorb, hstart⟩
  · rw [hmissing] at hplain hguarded
    exact ⟨.error .missingSibling, hplain, hguarded, nofun, nofun⟩
  · rw [hmerged.add_sub] at hstart
    rw [htop] at hplain hguarded
    have hended := topAnswer_ne new (keptRoots old.size new.size) habsorb hstart
    exact ⟨_, hplain, hguarded.trans (h.checkTop_eq hmerged.new habsorb hstart), hended.1, hended.2⟩

end Counted

/-! ## Any two digests -/

/-- Of no two digests do the two verifications differ. -/
theorem exists_agrees (proof : ExtensionProof) (hold : old.size < 2 ^ 64) (hnew : new.size < 2 ^ 64) :
    ∃ answer, Agrees old new proof answer := by
  by_cases hsizes : proof.oldSize ≠ old.size ∨ proof.newSize ≠ new.size
  · exact ⟨.error .sizesDiffer, if_pos hsizes, if_pos hsizes, nofun, nofun⟩
  by_cases hshrank : new.size < old.size
  · exact ⟨.error .forestShrank, (if_neg hsizes).trans (if_pos hshrank),
      (if_neg hsizes).trans (if_pos hshrank), nofun, nofun⟩
  by_cases hcounts : old.roots.length ≠ bitCount old.size ∨ new.roots.length ≠ bitCount new.size
  · exact ⟨.error .rootCount, (if_neg hsizes).trans ((if_neg hshrank).trans (if_pos hcounts)),
      (if_neg hsizes).trans ((if_neg hshrank).trans (if_pos hcounts)), nofun, nofun⟩
  have h : Counted old new proof := ⟨hsizes, hshrank, hcounts, hold, hnew⟩
  by_cases hsame : old.roots.take (keptRoots old.size new.size) ≠
      new.roots.take (keptRoots old.size new.size)
  · exact ⟨_, h.agrees_of_rewritten hsame⟩
  rcases kept_or_merged (Nat.not_lt.1 hshrank) with hkept | ⟨level, low, first, hmerged⟩
  · exact ⟨_, h.agrees_of_kept hsame hkept⟩
  · exact h.agrees_of_merged hsame hmerged

/-- **Verification of extension proofs takes no step that is not allowed**, whatever the digests and the
proof hold, and its walk neither passes the first changed root nor leaves an old root over. -/
theorem verification_never_missteps (old new : ForestDigest) (proof : ExtensionProof)
    (hold : old.size < 2 ^ 64) (hnew : new.size < 2 ^ 64) :
    Guarded.check old new proof = (checkExtension old new proof).mapError .fault ∧
      (∀ misstep, Guarded.check old new proof ≠ .error (.misstep misstep)) ∧
      verifyExtension old new proof ≠ .error (.proofInvalid .history .walkPassedChangedRoot) ∧
      verifyExtension old new proof ≠ .error (.proofInvalid .history .walkIncomplete) := by
  obtain ⟨answer, h⟩ := exists_agrees proof hold hnew
  rw [h.guarded, verifyExtension, h.plain]
  refine ⟨rfl, fun misstep hstopped => ?_, fun hpassed => ?_, fun hincomplete => ?_⟩
  · cases answer <;> cases hstopped
  · cases answer with
    | ok => cases hpassed
    | error fault =>
      cases hpassed
      exact h.not_passed rfl
  · cases answer with
    | ok => cases hincomplete
    | error fault =>
      cases hincomplete
      exact h.not_incomplete rfl

/-- Between three leaves and the largest forest there is, without any sibling. -/
theorem verification_never_missteps_to_full_word :
    let node : ForestNode := ⟨Hash.zero, Hash.zero, 0⟩
    let old : ForestDigest := ⟨[node, node], 3⟩
    let new : ForestDigest := ⟨List.replicate 64 node, 2 ^ 64 - 1⟩
    let proof : ExtensionProof := ⟨3, 2 ^ 64 - 1, []⟩
    (old.size < 2 ^ 64 ∧ new.size < 2 ^ 64) ∧
      Guarded.check old new proof = .error (.fault .missingSibling) ∧
      Guarded.check old new proof = (checkExtension old new proof).mapError .fault ∧
      (∀ misstep, Guarded.check old new proof ≠ .error (.misstep misstep)) ∧
      verifyExtension old new proof ≠ .error (.proofInvalid .history .walkPassedChangedRoot) ∧
      verifyExtension old new proof ≠ .error (.proofInvalid .history .walkIncomplete) := by
  intro node old new proof
  exact ⟨by decide, by decide +kernel, verification_never_missteps old new proof (by decide) (by decide)⟩

end

end Forest

end KeyTransparency
