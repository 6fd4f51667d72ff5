import KeyTransparency.Proofs.Trie.Arena
import Mathlib.Combinatorics.Pigeonhole

/-!
# Past epochs stay as they are

An insertion, whether it goes through or not and whatever the arena holds, writes in the current epoch
only.  So a walk in a completed epoch meets the same nodes later on.  It also ends as it did: its bound
grows with the arena, but a walk that has not ended after as many steps as there are pairs of a node and
a bit of the key never ends.

    (nodes.size + 1) * (key.length + 1) ≤ fuel ≤ more →
      trie.follow e key more … = trie.follow e key fuel …                          (follow_of_enough)
    e < trie.epoch → (trie.run more).lookup key e = trie.lookup key e,
      unless only `more` fixed the length of the keys and it is not that of `key` (past_is_immutable)
-/

namespace KeyTransparency.PersistentTrie

open Trie

/-! ## Steps that go on for good -/

section

variable {α : Type} {f : α → Option α} {a : α}

/-- Where `f` leads in a number of steps. -/
def stepsOf (f : α → Option α) : Nat → α → Option α
  | 0, a => some a
  | k + 1, a => (f a).bind (stepsOf f k)

theorem stepsOf_add (f : α → Option α) (i k : Nat) (a : α) :
    stepsOf f (i + k) a = (stepsOf f i a).bind (stepsOf f k) := by
  induction i generalizing a with
  | zero => simp [stepsOf]
  | succ i ih =>
    rw [Nat.succ_add, stepsOf, stepsOf]
    cases f a with
    | none => rfl
    | some b => exact ih b

theorem stepsOf_ne_none_of_le {i k : Nat} (hle : i ≤ k) (h : stepsOf f k a ≠ none) :
    stepsOf f i a ≠ none := by
  intro hi
  rw [← Nat.add_sub_cancel' hle, stepsOf_add, hi] at h
  exact h rfl

theorem mem_of_stepsOf {s : Finset α} (hs : ∀ a ∈ s, ∀ b, f a = some b → b ∈ s) (ha : a ∈ s) {k : Nat}
    {b : α} (h : stepsOf f k a = some b) : b ∈ s := by
  induction k generalizing a with
  | zero =>
    cases h
    exact ha
  | succ k ih =>
    rw [stepsOf, Option.bind_eq_some_iff] at h
    obtain ⟨c, hc, hb⟩ := h
    exact ih (hs a ha c hc) hb

/-- In a finite set, who can take as many steps as it has members can go on for good. -/
theorem stepsOf_ne_none [DecidableEq α] {s : Finset α} (hs : ∀ a ∈ s, ∀ b, f a = some b → b ∈ s)
    (ha : a ∈ s) (h : stepsOf f s.card a ≠ none) (k : Nat) : stepsOf f k a ≠ none := by
  have hmaps : ∀ i ∈ Finset.range (s.card + 1), stepsOf f i a ∈ s.map Function.Embedding.some := by
    intro i hi
    obtain ⟨b, hb⟩ := Option.ne_none_iff_exists'.1
      (stepsOf_ne_none_of_le (Nat.le_of_lt_succ (Finset.mem_range.1 hi)) h)
    exact Finset.mem_map.2 ⟨b, mem_of_stepsOf hs ha hb, hb.symm⟩
  obtain ⟨i, hi, j, hj, hne, hij⟩ :=
    Finset.exists_ne_map_eq_of_card_lt_of_maps_to (by simp) hmaps
  wlog hlt : i < j generalizing i j
  · exact this j hj i hi hne.symm hij.symm (Nat.lt_of_le_of_ne (Nat.not_lt.1 hlt) hne.symm)
  -- What comes after the `j`-th step comes after the `i`-th one already.
  induction k using Nat.strong_induction_on with
  | _ k ih =>
    by_cases hk : k ≤ s.card
    · exact stepsOf_ne_none_of_le hk h
    · have hjk : j ≤ k :=
        Nat.le_trans (Nat.le_of_lt_succ (Finset.mem_range.1 hj)) (Nat.le_of_not_le hk)
      have hback : stepsOf f k a = stepsOf f (i + (k - j)) a := by
        rw [stepsOf_add, hij, ← stepsOf_add, Nat.add_sub_cancel' hjk]
      rw [hback]
      exact ih _ (by omega)

end

/-! ## The bound of a walk -/

section

variable {trie : PersistentTrie} {reading : Nat} {key : Bits} {id : NodeId} {node : VersionedNode}

/-- The node a walk goes on to from a node and the bit of the key that its label ends at. -/
def descend (trie : PersistentTrie) (reading : Nat) (key : Bits) (place : NodeId × Nat) :
    Option (NodeId × Nat) :=
  match trie.nodes[place.1]?, key.drop place.2 with
  | some node, side :: more =>
    match node.child side with
    | none => none
    | some id =>
      match trie.expose reading id with
      | .error _ => none
      | .ok child =>
        if child.label.isPrefixOf (side :: more) then some (id, place.2 + child.label.length) else none
  | _, _ => none

theorem exists_onSides (left right : Option NodeId) (side : UInt8) :
    ∃ c o, VersionedContent.branch left right = onSides side c o ∧
      (c = if side = 0 then left else right) ∧ o = if side = 0 then right else left := by
  unfold onSides
  split <;> exact ⟨_, _, rfl, rfl, rfl⟩

theorem expose_eq_ok_iff {child : VersionedNode} :
    trie.expose reading id = .ok child ↔ trie.nodes[id]? = some child ∧ child.epoch ≤ reading := by
  unfold expose
  cases trie.nodes[id]? with
  | none => simp
  | some node =>
    dsimp only
    split
    · next hlt =>
      constructor
      · exact fun h => nomatch h
      · rintro ⟨h, hle⟩
        cases h
        exact absurd hlt (Nat.not_lt.2 hle)
    · next hle =>
      constructor
      · intro h
        cases h
        exact ⟨rfl, Nat.not_lt.1 hle⟩
      · rintro ⟨h, -⟩
        cases h
        rfl

theorem expose_ne_endless : trie.expose reading id ≠ .error .endlessDescent := by
  unfold expose
  cases trie.nodes[id]? with
  | none => exact fun h => nomatch h
  | some node =>
    dsimp only
    split <;> exact fun h => nomatch h

theorem follow_fault {side : UInt8} {o : Option NodeId} {more : Bits} {depth : Nat}
    (hcontent : node.content = onSides side (some id) o) (hdrop : key.drop depth = side :: more)
    {fault : StructureFault} (hfault : trie.expose reading id = .error fault) (fuel : Nat)
    (above : List CopathEntry) (path : List NodeId) :
    trie.follow reading key (fuel + 1) node depth above path = .error fault := by
  rw [follow, hcontent, hdrop, onSides]
  by_cases hside : side = 0
  · simp only [if_pos hside, hfault]
    rfl
  · simp only [if_neg hside, hfault]
    rfl

/-- A walk ends at a node, whatever its bound, or goes on as `descend` says.  What it adds to its path is
in the arena. -/
theorem follow_succ (hnode : trie.nodes[id]? = some node) (reading : Nat) (key : Bits) (depth : Nat)
    (above : List CopathEntry) (path : List NodeId) :
    (∃ answer, answer ≠ .error .endlessDescent ∧ trie.descend reading key (id, depth) = none ∧
      (∀ walk path', answer = .ok (walk, path') → ∀ i ∈ path', i ∈ path ∨ i < trie.nodes.size) ∧
      ∀ fuel, trie.follow reading key (fuel + 1) node depth above path = answer) ∨
    ∃ id' child above', trie.descend reading key (id, depth) = some (id', depth + child.label.length) ∧
      trie.nodes[id']? = some child ∧
      ∀ fuel, trie.follow reading key (fuel + 1) node depth above path =
        trie.follow reading key fuel child (depth + child.label.length) above' (id' :: path) := by
  cases hcontent : node.content with
  | leaf values =>
    have hchild (side : UInt8) : node.child side = none := by rw [VersionedNode.child, hcontent]
    refine .inl ⟨_, ?_, ?_, fun walk path' hanswer i hi => ?_,
      fun fuel => follow_leaf hcontent key fuel depth above path⟩
    · split <;> rintro ⟨⟩
    · cases hdrop : key.drop depth with
      | nil => simp only [descend, hnode, hdrop]
      | cons side more => simp only [descend, hnode, hdrop, hchild]
    · split at hanswer <;> cases hanswer
      exact .inl hi
  | branch left right =>
    cases hdrop : key.drop depth with
    | nil =>
      refine .inl ⟨.error .keyEndsAtBranch, (by rintro ⟨⟩), ?_, (by rintro _ _ ⟨⟩),
        fun fuel => ?_⟩
      · simp only [descend, hnode, hdrop]
      · rw [follow, hcontent, hdrop]
    | cons side more =>
      obtain ⟨c, o, hsides, hc, ho⟩ := exists_onSides left right side
      have hchild : node.child side = c := by rw [VersionedNode.child, hcontent, hc]
      rw [hsides] at hcontent
      cases c with
      | none =>
        refine .inl ⟨.ok (⟨⟨node.label, trie.hashOf? o⟩ :: above, .vacant side⟩, path),
          (by rintro ⟨⟩), ?_, fun walk path' hanswer i hi => ?_,
          fun fuel => follow_vacant hcontent hdrop fuel above path⟩
        · simp only [descend, hnode, hdrop, hchild]
        · cases hanswer
          exact .inl hi
      | some id' =>
        cases hexpose : trie.expose reading id' with
        | error fault =>
          refine .inl ⟨.error fault, ?_, ?_, (by rintro _ _ ⟨⟩), fun fuel =>
            follow_fault hcontent hdrop hexpose fuel above path⟩
          · intro h
            cases h
            exact expose_ne_endless hexpose
          · simp only [descend, hnode, hdrop, hchild, hexpose]
        | ok child =>
          obtain ⟨hget, hle⟩ := expose_eq_ok_iff.1 hexpose
          by_cases hp : child.label.isPrefixOf (side :: more)
          · refine .inr ⟨id', child, ⟨node.label, trie.hashOf? o⟩ :: above, ?_, hget, fun fuel => ?_⟩
            · simp only [descend, hnode, hdrop, hchild, hexpose, if_pos hp]
            · rw [follow_child hcontent hdrop hget hle, if_pos hp]
          · refine .inl ⟨.ok (⟨⟨node.label, trie.hashOf? o⟩ :: above,
              .diverged child.label child.hash⟩, id' :: path), (by rintro ⟨⟩), ?_,
              fun walk path' hanswer i hi => ?_, fun fuel => ?_⟩
            · simp only [descend, hnode, hdrop, hchild, hexpose, if_neg hp]
            · cases hanswer
              rcases List.mem_cons.1 hi with rfl | hi
              · exact .inr (lt_size_of_getElem? hget)
              · exact .inl hi
            · rw [follow_child hcontent hdrop hget hle, if_neg hp]

/-- The nodes on the path of a walk are in the arena. -/
theorem follow_path_lt {fuel depth : Nat} (hnode : trie.nodes[id]? = some node)
    {above : List CopathEntry} {path path' : List NodeId} {walk : Walk}
    (hpath : ∀ i ∈ path, i < trie.nodes.size)
    (h : trie.follow reading key fuel node depth above path = .ok (walk, path')) :
    ∀ i ∈ path', i < trie.nodes.size := by
  induction fuel generalizing id node depth above path with
  | zero => cases h
  | succ fuel ih =>
    rcases follow_succ hnode reading key depth above path with
      ⟨answer, -, -, hmem, hanswer⟩ | ⟨id', child, above', -, hchild, hnext⟩
    · rw [hanswer] at h
      exact fun i hi => (hmem walk path' h i hi).elim (hpath i) fun hlt => hlt
    · rw [hnext] at h
      refine ih hchild (fun i hi => ?_) h
      rcases List.mem_cons.1 hi with rfl | hi
      · exact lt_size_of_getElem? hchild
      · exact hpath i hi

/-- A walk that has ended is not changed by a larger bound. -/
theorem follow_of_ended {fuel more depth : Nat} (hnode : trie.nodes[id]? = some node)
    (h : stepsOf (trie.descend reading key) fuel (id, depth) = none) (hle : fuel ≤ more)
    (above : List CopathEntry) (path : List NodeId) :
    trie.follow reading key more node depth above path =
      trie.follow reading key fuel node depth above path := by
  induction fuel generalizing more id node depth above path with
  | zero => cases h
  | succ fuel ih =>
    obtain ⟨more, rfl⟩ : ∃ k, more = k + 1 := ⟨more - 1, by omega⟩
    rcases follow_succ hnode reading key depth above path with
      ⟨answer, -, -, -, hanswer⟩ | ⟨id', child, above', hdescend, hchild, hnext⟩
    · rw [hanswer, hanswer]
    · rw [stepsOf, hdescend, Option.bind_some] at h
      rw [hnext, hnext]
      exact ih hchild h (Nat.le_of_succ_le_succ hle) above' _

theorem follow_of_endless {depth : Nat} (hnode : trie.nodes[id]? = some node)
    (h : ∀ k, stepsOf (trie.descend reading key) k (id, depth) ≠ none) (fuel : Nat)
    (above : List CopathEntry) (path : List NodeId) :
    trie.follow reading key fuel node depth above path = .error .endlessDescent := by
  induction fuel generalizing id node depth above path with
  | zero => rfl
  | succ fuel ih =>
    rcases follow_succ hnode reading key depth above path with
      ⟨answer, -, hends, -, -⟩ | ⟨id', child, above', hdescend, hchild, hnext⟩
    · have hone := h 1
      rw [stepsOf, hends] at hone
      exact absurd rfl hone
    · rw [hnext]
      refine ih hchild (fun k => ?_) above' _
      have hk := h (k + 1)
      rwa [stepsOf, hdescend, Option.bind_some] at hk

/-- Where a walk goes on to is a node and a bit of the key. -/
theorem descend_mem {place next : NodeId × Nat} (h : trie.descend reading key place = some next) :
    next ∈ Finset.range trie.nodes.size ×ˢ Finset.range (key.length + 1) := by
  unfold descend at h
  split at h
  · next node side more _ hdrop =>
    split at h
    · cases h
    · split at h
      · cases h
      · next child hexpose =>
        split at h
        · next hp =>
          cases h
          have hlen := (List.isPrefixOf_iff_prefix.1 hp).length_le
          have hmore := congrArg List.length hdrop
          rw [List.length_drop] at hmore
          have hpos : 0 < (side :: more).length := Nat.succ_pos _
          have hid := lt_size_of_getElem? (expose_eq_ok_iff.1 hexpose).1
          exact Finset.mem_product.2 ⟨Finset.mem_range.2 hid, Finset.mem_range.2 (by omega)⟩
        · cases h
  · cases h

/-- The bound that a walk is given is large enough in any arena: a larger one changes nothing. -/
theorem follow_of_enough {fuel more depth : Nat} (hnode : trie.nodes[id]? = some node)
    (henough : (trie.nodes.size + 1) * (key.length + 1) ≤ fuel) (hle : fuel ≤ more)
    (above : List CopathEntry) (path : List NodeId) :
    trie.follow reading key more node depth above path =
      trie.follow reading key fuel node depth above path := by
  by_cases hends : stepsOf (trie.descend reading key) fuel (id, depth) = none
  · exact follow_of_ended hnode hends hle above path
  · let places := {(id, depth)} ∪ Finset.range trie.nodes.size ×ˢ Finset.range (key.length + 1)
    have hcard : places.card ≤ fuel := by
      refine Nat.le_trans (Finset.card_union_le _ _) (Nat.le_trans ?_ henough)
      rw [Finset.card_singleton, Finset.card_product, Finset.card_range, Finset.card_range,
        Nat.succ_mul]
      omega
    have hstart : (id, depth) ∈ places := Finset.mem_union_left _ (Finset.mem_singleton_self _)
    have hlasts := stepsOf_ne_none
      (fun _ _ _ hnext => Finset.mem_union_right _ (descend_mem hnext)) hstart
      (stepsOf_ne_none_of_le hcard hends)
    rw [follow_of_endless hnode hlasts, follow_of_endless hnode hlasts]

end

/-! ## What later operations leave of a trie -/

/-- The two nodes hold the same for a reader. -/
structure Alike (node node' : VersionedNode) : Prop where
  label : node'.label = node.label
  content : node'.content = node.content
  hash : node'.hash = node.hash
  epoch : node'.epoch = node.epoch

/-- `later` is what operations can have made of `trie`, as far as the completed epochs show it. -/
structure Continues (trie later : PersistentTrie) : Prop where
  epoch_le : trie.epoch ≤ later.epoch
  size_le : trie.nodes.size ≤ later.nodes.size
  root {e : Nat} {root : NodeId} : trie.roots[e]? = some root → later.roots[e]? = some root
  size {e size : Nat} : trie.sizes[e]? = some size → later.sizes[e]? = some size
  node {id : NodeId} {node : VersionedNode} : trie.nodes[id]? = some node →
    node.epoch < trie.epoch → ∃ node', later.nodes[id]? = some node' ∧ Alike node node'
  keyLength : trie.keyLength = none ∨ later.keyLength = trie.keyLength

namespace Continues

variable {trie mid later : PersistentTrie}

theorem refl (trie : PersistentTrie) : Continues trie trie :=
  ⟨Nat.le_refl _, Nat.le_refl _, id, id, fun hnode _ => ⟨_, hnode, rfl, rfl, rfl, rfl⟩, .inr rfl⟩

theorem trans (h : Continues trie mid) (h' : Continues mid later) : Continues trie later where
  epoch_le := Nat.le_trans h.epoch_le h'.epoch_le
  size_le := Nat.le_trans h.size_le h'.size_le
  root hroot := h'.root (h.root hroot)
  size hsize := h'.size (h.size hsize)
  node hnode hpast := by
    obtain ⟨node', hmid, halike⟩ := h.node hnode hpast
    obtain ⟨node'', hlast, halike'⟩ :=
      h'.node hmid (halike.epoch ▸ Nat.lt_of_lt_of_le hpast h.epoch_le)
    exact ⟨node'', hlast, halike'.label.trans halike.label, halike'.content.trans halike.content,
      halike'.hash.trans halike.hash, halike'.epoch.trans halike.epoch⟩
  keyLength := by
    rcases h.keyLength with hnone | hsame
    · exact .inl hnone
    · rw [← hsame]
      exact h'.keyLength

theorem insert (trie : PersistentTrie) (key : Bits) (entry : ValueEntry) :
    Continues trie (trie.insert key entry).1 := by
  obtain ⟨hroots, hsizes, hepoch, hkept⟩ := insert_kept trie key entry
  refine ⟨hepoch.ge, hkept.size_le, fun h => hroots ▸ h, fun h => hsizes ▸ h, fun hnode hpast => ?_, ?_⟩
  · obtain ⟨next, hnode', -⟩ := hkept.other hnode (Nat.ne_of_lt hpast)
    exact ⟨_, hnode', rfl, rfl, rfl, rfl⟩
  · cases hn : trie.keyLength with
    | none => exact .inl rfl
    | some n =>
      right
      unfold PersistentTrie.insert
      rw [hn]
      split
      · exact hn
      · dsimp only
        split
        · rfl
        · split <;> rfl

theorem nextEpoch (trie : PersistentTrie) : Continues trie trie.nextEpoch where
  epoch_le := Nat.le_succ _
  size_le := Nat.le_refl _
  root h := by
    rw [PersistentTrie.nextEpoch, Array.getElem?_push,
      if_neg (Nat.ne_of_lt (Array.getElem?_eq_some_iff.1 h).1), h]
  size h := by
    rw [PersistentTrie.nextEpoch, Array.getElem?_push,
      if_neg (Nat.ne_of_lt (Array.getElem?_eq_some_iff.1 h).1), h]
  node hnode _ := ⟨_, hnode, rfl, rfl, rfl, rfl⟩
  keyLength := .inr rfl

theorem run (trie : PersistentTrie) (steps : List Step) : Continues trie (trie.run steps) := by
  induction steps generalizing trie with
  | nil => exact .refl trie
  | cons next steps ih =>
    cases next with
    | insert key entry => exact (Continues.insert trie key entry).trans (ih _)
    | nextEpoch => exact (Continues.nextEpoch trie).trans (ih _)

end Continues

/-! ## Reading a completed epoch later on -/

section

variable {trie later : PersistentTrie} {e : Nat} {id : NodeId} {node : VersionedNode} {key : Bits}

theorem Continues.hashOf? (h : Continues trie later) (he : e < trie.epoch) {child : Option NodeId}
    (hchild : ∀ id, child = some id → ∃ node, trie.nodes[id]? = some node ∧ node.epoch ≤ e) :
    later.hashOf? child = trie.hashOf? child := by
  cases child with
  | none => rfl
  | some id =>
    obtain ⟨node, hnode, hle⟩ := hchild id rfl
    obtain ⟨node', hnode', halike⟩ := h.node hnode (Nat.lt_of_le_of_lt hle he)
    simp only [PersistentTrie.hashOf?, Option.bind_some, hnode, hnode', Option.map_some, halike.hash]

/-- With the same bound, a walk below a node of a completed epoch is the same later on. -/
theorem Continues.follow (h : Continues trie later) (hlayered : Layered trie) (he : e < trie.epoch)
    (hnode : trie.nodes[id]? = some node) (hle : node.epoch ≤ e) {node' : VersionedNode}
    (halike : Alike node node') (fuel depth : Nat) (above : List CopathEntry) (path : List NodeId) :
    later.follow e key fuel node' depth above path =
      trie.follow e key fuel node depth above path := by
  induction fuel generalizing id node node' depth above path with
  | zero => rfl
  | succ fuel ih =>
    have hbelow (side : UInt8) {id : NodeId} (hid : node.child side = some id) :
        ∃ child, trie.nodes[id]? = some child ∧ child.epoch ≤ e := by
      obtain ⟨child, hchild, hle'⟩ := (hlayered.tidy _ node hnode).child hid
      exact ⟨child, hchild, Nat.le_trans hle' hle⟩
    cases hcontent : node.content with
    | leaf values =>
      rw [follow_leaf hcontent, follow_leaf (halike.content.trans hcontent), halike.label]
    | branch left right =>
      cases hdrop : key.drop depth with
      | nil =>
        rw [PersistentTrie.follow, PersistentTrie.follow]
        simp only [halike.content, hcontent, hdrop]
      | cons side more =>
        obtain ⟨c, o, hsides, hc, ho⟩ := exists_onSides left right side
        have hother : later.hashOf? o = trie.hashOf? o := by
          refine h.hashOf? he fun id hid => hbelow (if side = 0 then 1 else 0) ?_
          rw [VersionedNode.child, hcontent, ← hid, ho]
          by_cases hside : side = 0 <;> simp [hside]
        have htaken : node.child side = c := by rw [VersionedNode.child, hcontent, hc]
        rw [hsides] at hcontent
        have hcontent' := halike.content.trans hcontent
        cases c with
        | none =>
          rw [follow_vacant hcontent hdrop, follow_vacant hcontent' hdrop, hother, halike.label]
        | some id' =>
          obtain ⟨child, hchild, hle'⟩ := hbelow side htaken
          obtain ⟨child', hchild', halike'⟩ := h.node hchild (Nat.lt_of_le_of_lt hle' he)
          rw [follow_child hcontent hdrop hchild hle',
            follow_child hcontent' hdrop hchild' (halike'.epoch ▸ hle'), hother, halike.label,
            halike'.label, halike'.hash, ih hchild hle' halike']

theorem Layered.rootAt (h : Layered trie) (he : e < trie.epoch) :
    ∃ root, trie.roots[e]? = some root ∧ trie.rootAt e = .ok root := by
  have hroot := Array.getElem?_eq_getElem (h.roots_size.symm ▸ he : e < trie.roots.size)
  refine ⟨_, hroot, ?_⟩
  rw [PersistentTrie.rootAt, if_neg (Nat.not_lt.2 (Nat.le_of_lt he)), if_neg (Nat.ne_of_lt he), hroot]

namespace Continues

theorem rootAt (h : Continues trie later) (hlayered : Layered trie) (he : e < trie.epoch) :
    later.rootAt e = trie.rootAt e := by
  obtain ⟨root, hroot, hat⟩ := hlayered.rootAt he
  have he' := Nat.lt_of_lt_of_le he h.epoch_le
  rw [hat, PersistentTrie.rootAt, if_neg (Nat.not_lt.2 (Nat.le_of_lt he')), if_neg (Nat.ne_of_lt he'),
    h.root hroot]

theorem sizeAt (h : Continues trie later) (hlayered : Layered trie) (he : e < trie.epoch) :
    later.sizeAt e = trie.sizeAt e := by
  have hsize := Array.getElem?_eq_getElem (hlayered.sizes_size.symm ▸ he : e < trie.sizes.size)
  have he' := Nat.lt_of_lt_of_le he h.epoch_le
  rw [PersistentTrie.sizeAt, PersistentTrie.sizeAt, if_neg (Nat.not_lt.2 (Nat.le_of_lt he')),
    if_neg (Nat.ne_of_lt he'), if_neg (Nat.not_lt.2 (Nat.le_of_lt he)), if_neg (Nat.ne_of_lt he), hsize,
    h.size hsize]

theorem rootHash (h : Continues trie later) (hlayered : Layered trie) (he : e < trie.epoch) :
    later.rootHash e = trie.rootHash e := by
  obtain ⟨root, hroot, hat⟩ := hlayered.rootAt he
  obtain ⟨node, hnode, hle⟩ := hlayered.root hroot
  obtain ⟨node', hnode', halike⟩ := h.node hnode (Nat.lt_of_le_of_lt hle he)
  rw [PersistentTrie.rootHash, PersistentTrie.rootHash, h.rootAt hlayered he, hat]
  simp only [bind, Except.bind, hnode, hnode', halike.hash]

/-- A walk in a completed epoch is the same later on, if the key is checked alike. -/
theorem walk (h : Continues trie later) (hlayered : Layered trie) (he : e < trie.epoch)
    (hkey : later.checkKey key = trie.checkKey key) : later.walk key e = trie.walk key e := by
  obtain ⟨root, hroot, hat⟩ := hlayered.rootAt he
  obtain ⟨node, hnode, hle⟩ := hlayered.root hroot
  obtain ⟨node', hnode', halike⟩ := h.node hnode (Nat.lt_of_le_of_lt hle he)
  have hfuel : (trie.nodes.size + 1) * (key.length + 1) ≤ (later.nodes.size + 1) * (key.length + 1) :=
    Nat.mul_le_mul_right _ (Nat.succ_le_succ h.size_le)
  have hexpose : trie.expose e root = .ok node := expose_eq hnode hle
  have hexpose' : later.expose e root = .ok node' := expose_eq hnode' (halike.epoch ▸ hle)
  unfold PersistentTrie.walk
  rw [hkey, h.rootAt hlayered he, hat]
  simp only [hexpose, hexpose', bind, Except.bind, h.follow hlayered he hnode hle halike, halike.label,
    follow_of_enough hnode (Nat.le_refl _) hfuel]

/-- The later trie checks a key as the trie did, unless it has fixed another length since. -/
theorem checkKey (h : Continues trie later) (key : Bits) :
    later.checkKey key = trie.checkKey key ∨
      trie.keyLength = none ∧ ∃ n, later.keyLength = some n ∧ n ≠ key.length := by
  rcases h.keyLength with hnone | hsame
  · cases hn : later.keyLength with
    | none => exact .inl (by rw [PersistentTrie.checkKey, PersistentTrie.checkKey, hn, hnone])
    | some n =>
      by_cases hlen : n = key.length
      · exact .inl (by simp [PersistentTrie.checkKey, hn, hnone, hlen])
      · exact .inr ⟨hnone, n, rfl, hlen⟩
  · exact .inl (by rw [PersistentTrie.checkKey, PersistentTrie.checkKey, hsame])

end Continues

/-- The answers about `key` in the epoch `e`. -/
def SameAnswers (trie later : PersistentTrie) (key : Bits) (e : Nat) : Prop :=
  later.lookup key e = trie.lookup key e ∧ later.lookupPath key e = trie.lookupPath key e ∧
    later.prove key e = trie.prove key e

/-- Every question about `key` is refused, for its length. -/
def Refuses (trie : PersistentTrie) (n : Nat) (key : Bits) (e : Nat) : Prop :=
  trie.lookup key e = .error (.keyLength n key.length) ∧
    trie.lookupPath key e = .error (.keyLength n key.length) ∧
    trie.prove key e = .error (.keyLength n key.length)

theorem refuses_of_checkKey {n : Nat} (h : trie.checkKey key = .error (.keyLength n key.length)) :
    trie.Refuses n key e := by
  have hwalk : trie.walk key e = .error (.keyLength n key.length) := by
    rw [PersistentTrie.walk, h]
    rfl
  refine ⟨?_, ?_, ?_⟩
  · rw [lookup, hwalk]
    rfl
  · rw [lookupPath, hwalk]
    rfl
  · rw [prove, hwalk]
    rfl

theorem Continues.answers (h : Continues trie later) (hlayered : Layered trie) (he : e < trie.epoch)
    (key : Bits) :
    SameAnswers trie later key e ∨
      trie.keyLength = none ∧ ∃ n, later.keyLength = some n ∧ n ≠ key.length ∧ later.Refuses n key e := by
  rcases h.checkKey key with hkey | ⟨hnone, n, hn, hlen⟩
  · have hwalk := h.walk hlayered he hkey
    left
    unfold SameAnswers lookup lookupPath prove
    rw [hwalk]
    exact ⟨rfl, rfl, rfl⟩
  · refine .inr ⟨hnone, n, hn, hlen, refuses_of_checkKey ?_⟩
    rw [PersistentTrie.checkKey, hn]
    exact if_pos hlen

end

/-- **The past is immutable.**  An insertion into any trie, going through or not, keeps the completed
epochs and all nodes of other epochs than the current one but for the `next` they may get.  After any
run, what is reachable from the root of a completed epoch is of that epoch or an earlier one, and its
root, hash, size and answers stay what they are after any further run; only if no key had fixed the
length of the keys yet, questions about keys of another length are refused from then on. -/
theorem past_is_immutable :
    (∀ (trie : PersistentTrie) (key : Bits) (entry : ValueEntry),
      let after := (trie.insert key entry).1
      after.roots = trie.roots ∧ after.sizes = trie.sizes ∧ after.epoch = trie.epoch ∧
        Kept trie.epoch trie.nodes after.nodes) ∧
    ∀ (keyLength : Option Nat) (steps more : List Step) (e : Nat),
      let trie := (empty keyLength).run steps
      let later := trie.run more
      e < trie.epoch →
        (∃ root, trie.roots[e]? = some root ∧
          ∀ id, Relation.ReflTransGen (Leads trie.nodes) root id →
            ∃ node, trie.nodes[id]? = some node ∧ node.epoch ≤ e) ∧
        later.rootAt e = trie.rootAt e ∧ later.rootHash e = trie.rootHash e ∧
        later.sizeAt e = trie.sizeAt e ∧
        ∀ key, SameAnswers trie later key e ∨
          trie.keyLength = none ∧
            ∃ n, later.keyLength = some n ∧ n ≠ key.length ∧ later.Refuses n key e := by
  refine ⟨insert_kept, ?_⟩
  intro keyLength steps more e trie later he
  have hlayered : Layered trie := layered_run keyLength steps
  have hlater : Continues trie later := .run trie more
  obtain ⟨root, hroot, -⟩ := hlayered.rootAt he
  exact ⟨⟨root, hroot, fun id => hlayered.reachable hroot⟩, hlater.rootAt hlayered he,
    hlater.rootHash hlayered he, hlater.sizeAt hlayered he, hlater.answers hlayered he⟩

/-- A leaf of the first epoch is split in the second one and still answers in the first. -/
theorem past_is_immutable_split :
    let trie := (empty none).run [.insert [0, 0] ⟨Hash.zero, 0⟩, .nextEpoch]
    let later := trie.run [.insert [0, 1] ⟨Hash.zero, 1⟩, .insert [1] ⟨Hash.zero, 2⟩, .nextEpoch]
    0 < trie.epoch ∧ later.rootHash 0 = trie.rootHash 0 ∧
      trie.lookup [0, 0] 0 = .ok (some [⟨Hash.zero, 0⟩]) ∧ SameAnswers trie later [0, 0] 0 := by
  intro trie later
  have he : 0 < trie.epoch := by decide +kernel
  obtain ⟨-, -, hhash, -, hkeys⟩ := past_is_immutable.2 none
    [.insert [0, 0] ⟨Hash.zero, 0⟩, .nextEpoch]
    [.insert [0, 1] ⟨Hash.zero, 1⟩, .insert [1] ⟨Hash.zero, 2⟩, .nextEpoch] 0 he
  refine ⟨he, hhash, by decide +kernel, (hkeys [0, 0]).resolve_right fun h => ?_⟩
  exact absurd h.1 (by decide +kernel)

/-- While no key has fixed their length, a key of any length is looked up in a completed epoch; the
first key of another length ends that. -/
theorem open_length_answer_lost :
    let trie := (empty none).run [.nextEpoch]
    trie.lookup [0, 1] 0 = .ok none ∧
      (trie.run [.insert [0, 0, 0, 1] ⟨Hash.zero, 0⟩]).lookup [0, 1] 0 = .error (.keyLength 4 2) := by
  decide +kernel

end KeyTransparency.PersistentTrie
