import KeyTransparency.Proofs.Trie.Epochs
import Mathlib.Logic.Relation

/-!
# An arena whose indices mean what they say

`Tidy now nodes` is the invariant of the arena itself, whatever keys it was given: no node is made after
`now`, every index that a node holds is in the arena, and the children of a node were made no later than
the node.  Edits keep it, also those that stop half-way and those that meet keys no trie can hold:

    Edit.tidies_writable :     Tidy now nodes → Tidies now (writable now id parent) nodes (made in now)
    Edit.tidies_insertBelow :  … → Tidies now (insertBelow now key entry fuel parent depth) nodes

`Layered trie` adds the roots: the root of a completed epoch is of that epoch or an earlier one, and so
is all that lies below it.

    Layered ((empty keyLength).run steps)                                            (layered_run)
    trie.roots[e]? = some root → Leads* root id → id is a node of an epoch ≤ e    (Layered.reachable)
-/

namespace KeyTransparency.PersistentTrie

/-! ## Indices in range -/

/-- What a node made up to `now` may hold. -/
structure Fits (now : Nat) (nodes : Array VersionedNode) (node : VersionedNode) : Prop where
  epoch_le : node.epoch ≤ now
  child {side : UInt8} {id : NodeId} : node.child side = some id →
    ∃ child, nodes[id]? = some child ∧ child.epoch ≤ node.epoch
  prev {id : NodeId} : node.prev = some id → id < nodes.size
  next {id : NodeId} : node.next = some id → id < nodes.size
  parent {id : NodeId} : node.parent = some id → id < nodes.size

def Tidy (now : Nat) (nodes : Array VersionedNode) : Prop :=
  ∀ (id : NodeId) (node : VersionedNode), nodes[id]? = some node → Fits now nodes node

section

variable {now : Nat} {nodes nodes' : Array VersionedNode} {id : NodeId} {node : VersionedNode}

theorem exists_getElem? (h : id < nodes.size) : ∃ node, nodes[id]? = some node :=
  ⟨nodes[id], Array.getElem?_eq_getElem h⟩

theorem lt_size_of_getElem? (h : nodes[id]? = some node) : id < nodes.size :=
  (Array.getElem?_eq_some_iff.1 h).1

namespace Fits

theorem kept (h : Fits now nodes node) (hk : Kept now nodes nodes') : Fits now nodes' node where
  epoch_le := h.epoch_le
  child hchild := by
    obtain ⟨child, hnode, hle⟩ := h.child hchild
    obtain ⟨child', hnode', hepoch⟩ := hk.epoch hnode
    exact ⟨child', hnode', hepoch ▸ hle⟩
  prev hid := Nat.lt_of_lt_of_le (h.prev hid) hk.size_le
  next hid := Nat.lt_of_lt_of_le (h.next hid) hk.size_le
  parent hid := Nat.lt_of_lt_of_le (h.parent hid) hk.size_le

theorem mono (h : Fits now nodes node) {later : Nat} (hle : now ≤ later) : Fits later nodes node :=
  ⟨Nat.le_trans h.epoch_le hle, h.child, h.prev, h.next, h.parent⟩

/-- A node of `now` without children, whose parent is there. -/
theorem fresh {label : Bits} {content : VersionedContent} {hash : Hash} {parent : NodeId}
    (hcontent : (∃ values, content = .leaf values) ∨ content = .branch none none)
    (hparent : parent < nodes.size) :
    Fits now nodes ⟨label, content, hash, now, none, none, some parent⟩ where
  epoch_le := Nat.le_refl _
  child {side id} h := by
    rcases hcontent with ⟨values, rfl⟩ | rfl
    · cases h
    · simp only [VersionedNode.child, ite_self] at h
      cases h
  prev h := nomatch h
  next h := nomatch h
  parent h := by
    cases h
    exact hparent

/-- Another label or hash changes no index. -/
theorem stamp (h : Fits now nodes node) (label : Bits) (hash : Hash) :
    Fits now nodes { node with label, hash } :=
  ⟨h.epoch_le, h.child, h.prev, h.next, h.parent⟩

theorem withParent (h : Fits now nodes node) (hid : id < nodes.size) :
    Fits now nodes { node with parent := some id } :=
  ⟨h.epoch_le, h.child, h.prev, h.next, fun he => by cases he; exact hid⟩

theorem withNext (h : Fits now nodes node) (hid : id < nodes.size) :
    Fits now nodes { node with next := some id } :=
  ⟨h.epoch_le, h.child, h.prev, fun he => by cases he; exact hid, h.parent⟩

theorem withValues (h : Fits now nodes node) (values : List ValueEntry) :
    Fits now nodes { node with content := .leaf values } :=
  ⟨h.epoch_le, nofun, h.prev, h.next, h.parent⟩

/-- A node of `now` may get any child there is. -/
theorem withChild (h : Fits now nodes node) (hnow : node.epoch = now) {child : VersionedNode}
    (hchild : nodes[id]? = some child) (hle : child.epoch ≤ now) {left right : Option NodeId}
    (hcontent : node.content = .branch left right) (side : UInt8) :
    Fits now nodes
      { node with content := if side = 0 then .branch (some id) right else .branch left (some id) }
    where
  epoch_le := h.epoch_le
  child {s i} hi := by
    have hold (hi : node.child s = some i) := h.child hi
    have hnew (hi : some id = some i) :
        ∃ child, nodes[i]? = some child ∧ child.epoch ≤ node.epoch := by
      cases hi
      exact ⟨child, hchild, hnow ▸ hle⟩
    unfold VersionedNode.child at hi hold
    rw [hcontent] at hold
    by_cases hside : side = 0 <;> by_cases hs : s = 0 <;>
      simp only [hside, hs, if_true, if_false] at hi hold
    · exact hnew hi
    · exact hold hi
    · exact hold hi
    · exact hnew hi
  prev := h.prev
  next := h.next
  parent := h.parent

/-- The copy of a node made in `now`. -/
theorem copy (h : Fits now nodes node) (hid : id < nodes.size) {parent : Option NodeId}
    (hparent : ∀ p, parent = some p → p < nodes.size) :
    Fits now nodes { node with epoch := now, prev := some id, next := none, parent } where
  epoch_le := Nat.le_refl _
  child hi := by
    obtain ⟨child, hchild, hle⟩ := h.child hi
    exact ⟨child, hchild, Nat.le_trans hle h.epoch_le⟩
  prev hi := by
    cases hi
    exact hid
  next hi := nomatch hi
  parent hi := hparent _ hi

end Fits

namespace Tidy

theorem mono (h : Tidy now nodes) {later : Nat} (hle : now ≤ later) : Tidy later nodes :=
  fun id node hnode => (h id node hnode).mono hle

/-- The arena has grown, and what it holds is what it held or fits by itself. -/
theorem kept (h : Tidy now nodes) (hk : Kept now nodes nodes')
    (hnew : ∀ (i : NodeId) (node' : VersionedNode), nodes'[i]? = some node' →
      nodes[i]? = some node' ∨ Fits now nodes' node') :
    Tidy now nodes' := by
  intro i node' hnode'
  rcases hnew i node' hnode' with hold | hfits
  · exact (h i node' hold).kept hk
  · exact hfits

theorem push (h : Tidy now nodes) (hnode : Fits now nodes node) : Tidy now (nodes.push node) := by
  refine h.kept (.push now nodes node) fun i node' hnode' => ?_
  rw [Array.getElem?_push] at hnode'
  split at hnode'
  · cases hnode'
    exact .inr (hnode.kept (.push now nodes _))
  · exact .inl hnode'

theorem modify (h : Tidy now nodes) {change : VersionedNode → VersionedNode}
    (hk : Kept now nodes (nodes.modify id change))
    (hchange : ∀ node, nodes[id]? = some node → Fits now nodes (change node)) :
    Tidy now (nodes.modify id change) := by
  refine h.kept hk fun i node' hnode' => ?_
  rw [Array.getElem?_modify] at hnode'
  by_cases hi : id = i
  · subst hi
    rw [if_pos rfl, Option.map_eq_some_iff] at hnode'
    obtain ⟨node, hnode, rfl⟩ := hnode'
    exact .inr ((hchange node hnode).kept hk)
  · rw [if_neg hi] at hnode'
    exact .inl hnode'

end Tidy

end

/-! ## Edits keep an arena tidy -/

namespace Edit

/-- Whatever `edit` answers, it writes in `now` only and leaves a tidy arena; if it goes through, its
answer is as `post`. -/
def Tidies {α : Type} (now : Nat) (edit : Edit α) (nodes : Array VersionedNode)
    (post : α → Array VersionedNode → Prop) : Prop :=
  ∀ answer nodes', edit.run.run nodes = (answer, nodes') →
    Kept now nodes nodes' ∧ Tidy now nodes' ∧ ∀ a, answer = .ok a → post a nodes'

section

variable {α β : Type} {now : Nat} {nodes : Array VersionedNode} {id : NodeId}

theorem Keeps.tidies {edit : Edit α} {post : α → Array VersionedNode → Prop}
    (h : Keeps now edit nodes post)
    (htidy : ∀ answer nodes', edit.run.run nodes = (answer, nodes') → Tidy now nodes') :
    Tidies now edit nodes post := by
  intro answer nodes' hrun
  obtain ⟨hkept, hpost⟩ := h answer nodes' hrun
  exact ⟨hkept, htidy answer nodes' hrun, hpost⟩

theorem Tidies.bind {x : Edit α} {f : α → Edit β} {post : α → Array VersionedNode → Prop}
    {post' : β → Array VersionedNode → Prop} (hx : Tidies now x nodes post)
    (hf : ∀ a mid, Kept now nodes mid → Tidy now mid → post a mid → Tidies now (f a) mid post') :
    Tidies now (x >>= f) nodes post' := by
  intro answer nodes' h
  rw [run_bind] at h
  rcases hrun : x.run.run nodes with ⟨first, mid⟩
  obtain ⟨hmid, htidy, hpost⟩ := hx first mid hrun
  rw [hrun] at h
  cases first with
  | error fault =>
    cases h
    exact ⟨hmid, htidy, fun _ ha => nomatch ha⟩
  | ok a =>
    obtain ⟨hlast, htidy', hpost'⟩ := hf a mid hmid htidy (hpost a rfl) answer nodes' h
    exact ⟨hmid.trans hlast, htidy', hpost'⟩

theorem tidies_pure (ht : Tidy now nodes) {a : α} {post : α → Array VersionedNode → Prop}
    (h : post a nodes) : Tidies now (pure a) nodes post :=
  (keeps_pure h).tidies fun _ _ hrun => by cases hrun; exact ht

theorem tidies_throw (ht : Tidy now nodes) (fault : StructureFault)
    (post : α → Array VersionedNode → Prop) : Tidies now (throw fault) nodes post :=
  (keeps_throw fault post).tidies fun _ _ hrun => by cases hrun; exact ht

theorem tidies_read (ht : Tidy now nodes) (id : NodeId) :
    Tidies now (read id) nodes fun node nodes' => nodes'[id]? = some node := by
  refine (keeps_read id).tidies fun answer nodes' hrun => ?_
  rw [run_read] at hrun
  split at hrun <;> cases hrun <;> exact ht

theorem tidies_push (ht : Tidy now nodes) {node : VersionedNode} (hnode : Fits now nodes node)
    (hnow : node.epoch = now) :
    Tidies now (push node) nodes fun id nodes' => MadeIn now nodes' id := by
  subst hnow
  exact (keeps_push node).tidies fun _ _ hrun => by cases hrun; exact ht.push hnode

theorem tidies_update (ht : Tidy now nodes) (h : MadeIn now nodes id)
    {change : VersionedNode → VersionedNode} (hepoch : ∀ node, (change node).epoch = node.epoch)
    (hchange : ∀ node, nodes[id]? = some node → Fits now nodes (change node)) :
    Tidies now (update id change) nodes fun _ _ => True :=
  (keeps_update h hepoch).tidies fun _ _ hrun => by
    cases hrun
    exact ht.modify (.modify h hepoch) hchange

/-- Of a node without a successor a copy is made, which is put in its place. -/
theorem tidies_writable (ht : Tidy now nodes) (id : NodeId) (parent : Option NodeId)
    (hparent : ∀ p, parent = some p → p < nodes.size) :
    Tidies now (writable now id parent) nodes fun id nodes' => MadeIn now nodes' id := by
  refine .bind (tidies_read ht id) fun node mid hk ht hnode => ?_
  replace hparent p hp := Nat.lt_of_lt_of_le (hparent p hp) hk.size_le
  have hfits := ht id node hnode
  by_cases hlater : now < node.epoch
  · rw [if_pos hlater]
    exact tidies_throw ht _ _
  · rw [if_neg hlater]
    by_cases hnow : node.epoch = now
    · rw [if_pos hnow]
      have hmade : MadeIn now mid id := ⟨node, hnode, hnow⟩
      cases parent with
      | none => exact tidies_pure ht hmade
      | some parent =>
        refine .bind (tidies_update ht hmade (fun _ => rfl) fun node hnode => ?_) fun _ _ hk ht _ => ?_
        · exact (ht id node hnode).withParent (hparent parent rfl)
        · exact tidies_pure ht (hmade.kept hk)
    · rw [if_neg hnow]
      cases hnext : node.next with
      | some next => exact tidies_throw ht _ _
      | none =>
        have hid := lt_size_of_getElem? hnode
        have hcopy := ht.push (hfits.copy hid hparent)
        have hrest : Tidy now ((mid.push { node with
            epoch := now, prev := some id, next := none, parent }).modify id
              ({ · with next := some mid.size })) := by
          refine ht.kept (.link hnode hnext _) fun i node' hnode' => ?_
          -- The copied node has the copy as its successor; the copy and the rest are as pushed.
          rw [Array.getElem?_modify] at hnode'
          by_cases hi : id = i
          · subst hi
            rw [if_pos rfl, Array.getElem?_push, if_neg (Nat.ne_of_lt hid), hnode] at hnode'
            cases hnode'
            exact .inr ((hfits.kept (.link hnode hnext _)).withNext (by simp))
          · rw [if_neg hi, Array.getElem?_push] at hnode'
            split at hnode'
            · cases hnode'
              exact .inr ((hfits.copy hid hparent).kept (.link hnode hnext _))
            · exact .inl hnode'
        intro answer nodes' hrun
        cases hrun
        have hne : id ≠ mid.size := Nat.ne_of_lt hid
        refine ⟨.link hnode hnext _, hrest, fun _ ha => ?_⟩
        cases ha
        exact ⟨{ node with epoch := now, prev := some id, next := none, parent },
          by rw [Array.getElem?_modify, if_neg hne, Array.getElem?_push, if_pos rfl], rfl⟩

theorem tidies_setChild (ht : Tidy now nodes) {parent child : NodeId} (h : MadeIn now nodes parent)
    (side : UInt8) (hchild : child < nodes.size) :
    Tidies now (setChild parent side child) nodes fun _ _ => True := by
  refine .bind (tidies_read ht parent) fun node mid hk ht hnode => ?_
  have hnow : node.epoch = now := by
    obtain ⟨own, hown, hnow⟩ := h.kept hk
    rw [hnode] at hown
    cases hown
    exact hnow
  obtain ⟨below, hbelow⟩ := exists_getElem? (Nat.lt_of_lt_of_le hchild hk.size_le)
  cases hcontent : node.content with
  | leaf values => exact tidies_throw ht _ _
  | branch left right =>
    refine tidies_update ht (h.kept hk) (fun _ => rfl) fun own hown => ?_
    rw [hnode] at hown
    cases hown
    exact (ht parent node hnode).withChild hnow hbelow (ht child below hbelow).epoch_le hcontent side

theorem tidies_childHash (ht : Tidy now nodes) (child : Option NodeId) :
    Tidies now (childHash child) nodes fun _ _ => True := by
  cases child with
  | none => exact tidies_pure ht trivial
  | some id => exact .bind (tidies_read ht id) fun _ _ _ ht _ => tidies_pure ht trivial

theorem tidies_rehash (ht : Tidy now nodes) (id : NodeId) :
    Tidies now (rehash now id) nodes fun _ _ => True := by
  refine .bind (tidies_read ht id) fun node mid _ ht hnode => ?_
  by_cases hnow : node.epoch = now
  · rw [if_neg (not_not_intro hnow)]
    have hmade : MadeIn now mid id := ⟨node, hnode, hnow⟩
    cases node.content with
    | leaf values =>
      exact tidies_update ht hmade (fun _ => rfl) fun node hnode => (ht id node hnode).stamp _ _
    | branch left right =>
      refine .bind (tidies_childHash ht left) fun _ _ hleft ht _ => ?_
      refine .bind (tidies_childHash ht right) fun _ _ hright ht _ => ?_
      exact tidies_update ht ((hmade.kept hleft).kept hright) (fun _ => rfl) fun node hnode =>
        (ht id node hnode).stamp _ _
  · rw [if_pos hnow]
    exact tidies_throw ht _ _

theorem tidies_newLeaf (ht : Tidy now nodes) (label : Bits) (entry : ValueEntry) {parent : NodeId}
    (hparent : parent < nodes.size) :
    Tidies now (newLeaf now label entry parent) nodes fun id nodes' => MadeIn now nodes' id :=
  tidies_push ht (.fresh (.inl ⟨_, rfl⟩) hparent) rfl

theorem tidies_splitChild (ht : Tidy now nodes) (entry : ValueEntry) {parent : NodeId}
    (h : MadeIn now nodes parent) (child : NodeId) (side : UInt8) (label : Bits) (shared : Nat)
    (below : Bits) :
    Tidies now (splitChild now entry parent child side label shared below) nodes
      fun _ _ => True := by
  refine .bind (tidies_push ht (.fresh (.inr rfl) h.lt_size) rfl) fun upper _ hk ht hupper => ?_
  replace h := h.kept hk
  refine .bind (tidies_writable ht child _ fun p hp => ?_) fun lower _ hk ht hlower => ?_
  · cases hp
    exact hupper.lt_size
  replace h := h.kept hk
  replace hupper := hupper.kept hk
  refine .bind (tidies_update ht hlower (fun _ => rfl) fun node hnode => ?_) fun _ _ hk ht _ => ?_
  · exact (ht lower node hnode).stamp _ _
  replace h := h.kept hk
  replace hupper := hupper.kept hk
  replace hlower := hlower.kept hk
  refine .bind (tidies_rehash ht lower) fun _ _ hk ht _ => ?_
  replace h := h.kept hk
  replace hupper := hupper.kept hk
  replace hlower := hlower.kept hk
  refine .bind (tidies_newLeaf ht _ _ hupper.lt_size) fun leaf _ hk ht hleaf => ?_
  replace h := h.kept hk
  replace hupper := hupper.kept hk
  replace hlower := hlower.kept hk
  refine .bind (tidies_setChild ht hupper _ hlower.lt_size) fun _ _ hk ht _ => ?_
  replace h := h.kept hk
  replace hupper := hupper.kept hk
  replace hleaf := hleaf.kept hk
  refine .bind (tidies_setChild ht hupper _ hleaf.lt_size) fun _ _ hk ht _ => ?_
  replace h := h.kept hk
  replace hupper := hupper.kept hk
  refine .bind (tidies_rehash ht upper) fun _ _ hk ht _ => ?_
  exact tidies_setChild ht (h.kept hk) side (hupper.kept hk).lt_size

/-- Inserting below a node made in `now` keeps the arena tidy, whatever the key. -/
theorem tidies_insertBelow (ht : Tidy now nodes) (key : Bits) (entry : ValueEntry) (fuel : Nat)
    {parent : NodeId} (h : MadeIn now nodes parent) (depth : Nat) :
    Tidies now (insertBelow now key entry fuel parent depth) nodes fun _ _ => True := by
  induction fuel generalizing parent nodes depth with
  | zero => exact tidies_throw ht _ _
  | succ fuel ih =>
    unfold insertBelow
    cases key.drop depth with
    | nil => exact tidies_throw ht _ _
    | cons side more =>
      refine .bind (tidies_read ht parent) fun node _ hk ht hnode => ?_
      replace h := h.kept hk
      cases hside : node.child side with
      | none =>
        refine .bind (tidies_newLeaf ht _ _ h.lt_size) fun leaf _ hk ht hleaf => ?_
        replace h := h.kept hk
        refine .bind (tidies_setChild ht h side hleaf.lt_size) fun _ _ _ ht _ => ?_
        exact .bind (tidies_rehash ht parent) fun _ _ _ ht _ => tidies_pure ht trivial
      | some child =>
        refine .bind (tidies_read ht child) fun below _ hk ht _ => ?_
        replace h := h.kept hk
        dsimp only
        split
        · split
          · exact tidies_throw ht _ _
          · refine .bind (tidies_splitChild ht entry h child side _ _ _) fun _ _ _ ht _ => ?_
            exact .bind (tidies_rehash ht parent) fun _ _ _ ht _ => tidies_pure ht trivial
        · refine .bind (tidies_writable ht child _ fun p hp => ?_) fun child _ hk ht hchild => ?_
          · cases hp
            exact h.lt_size
          replace h := h.kept hk
          refine .bind (tidies_setChild ht h side hchild.lt_size) fun _ _ hk ht _ => ?_
          replace hchild := hchild.kept hk
          refine .bind (tidies_read ht child) fun below _ hk ht _ => ?_
          replace hchild := hchild.kept hk
          cases below.content with
          | leaf values =>
            dsimp only
            split
            · refine .bind (tidies_update ht hchild (fun _ => rfl) fun node hnode => ?_)
                fun _ _ _ ht _ => ?_
              · exact (ht child node hnode).withValues _
              refine .bind (tidies_rehash ht child) fun _ _ _ ht _ => ?_
              exact .bind (tidies_rehash ht parent) fun _ _ _ ht _ => tidies_pure ht trivial
            · exact tidies_throw ht _ _
          | branch left right =>
            refine .bind (ih ht hchild _) fun _ _ _ ht _ => ?_
            exact .bind (tidies_rehash ht parent) fun _ _ _ ht _ => tidies_pure ht trivial

end

end Edit

/-! ## Layers -/

/-- `id` has `child` as one of its children. -/
def Leads (nodes : Array VersionedNode) (id child : NodeId) : Prop :=
  ∃ node side, nodes[id]? = some node ∧ VersionedNode.child node side = some child

/-- What is known of a trie after any run. -/
structure Layered (trie : PersistentTrie) : Prop where
  tidy : Tidy trie.epoch trie.nodes
  currentRoot_lt : trie.currentRoot < trie.nodes.size
  roots_size : trie.roots.size = trie.epoch
  sizes_size : trie.sizes.size = trie.epoch
  root {e : Nat} {root : NodeId} : trie.roots[e]? = some root →
    ∃ node, trie.nodes[root]? = some node ∧ node.epoch ≤ e

theorem layered_empty (keyLength : Option Nat) : Layered (empty keyLength) where
  tidy id node hnode := by
    obtain ⟨hid, rfl⟩ := Array.getElem?_eq_some_iff.1 hnode
    obtain rfl := Nat.lt_one_iff.1 hid
    refine ⟨Nat.le_refl _, fun {side _} h => ?_, fun h => ?_, fun h => ?_, fun h => ?_⟩
    · simp only [VersionedNode.child, empty, List.getElem_toArray, List.getElem_cons_zero,
        ite_self] at h
      cases h
    all_goals cases h
  currentRoot_lt := Nat.one_pos
  roots_size := rfl
  sizes_size := rfl
  root h := by simp [empty] at h

/-- Whether it goes through or not, an insertion writes in the current epoch only and leaves the
completed epochs alone. -/
theorem insert_kept (trie : PersistentTrie) (key : Bits) (entry : ValueEntry) :
    (trie.insert key entry).1.roots = trie.roots ∧ (trie.insert key entry).1.sizes = trie.sizes ∧
      (trie.insert key entry).1.epoch = trie.epoch ∧
      Kept trie.epoch trie.nodes (trie.insert key entry).1.nodes := by
  unfold insert
  cases trie.checkKey key with
  | error e => exact ⟨rfl, rfl, rfl, .refl _ _⟩
  | ok _ =>
    dsimp only
    rcases hroot : (Edit.writable trie.epoch trie.currentRoot none).run.run trie.nodes with
      ⟨fault | root, mid⟩
    · exact ⟨rfl, rfl, rfl, (Edit.keeps_writable trie.epoch trie.currentRoot none _ _ hroot).1⟩
    · obtain ⟨hmid, hmade⟩ := Edit.keeps_writable trie.epoch trie.currentRoot none _ _ hroot
      dsimp only
      rcases hbelow : (Edit.insertBelow trie.epoch key entry
          ((trie.nodes.size + 1) * (key.length + 1)) root 0).run.run mid with ⟨fault | isNew, nodes⟩ <;>
        exact ⟨rfl, rfl, rfl, hmid.trans
          (Edit.keeps_insertBelow trie.epoch key entry _ (hmade root rfl) 0 _ _ hbelow).1⟩

namespace Layered

variable {trie : PersistentTrie}

theorem nextEpoch (h : Layered trie) : Layered trie.nextEpoch where
  tidy := h.tidy.mono (Nat.le_succ _)
  currentRoot_lt := h.currentRoot_lt
  roots_size := by rw [PersistentTrie.nextEpoch, Array.size_push, h.roots_size]
  sizes_size := by rw [PersistentTrie.nextEpoch, Array.size_push, h.sizes_size]
  root {e root} hroot := by
    rw [PersistentTrie.nextEpoch, Array.getElem?_push, h.roots_size] at hroot
    split at hroot
    · next he =>
      cases hroot
      obtain ⟨node, hnode⟩ := exists_getElem? h.currentRoot_lt
      exact ⟨node, hnode, he ▸ (h.tidy _ _ hnode).epoch_le⟩
    · exact h.root hroot

/-- A tidy arena and a root in it are left by every insertion. -/
theorem tidy_insert (h : Layered trie) (key : Bits) (entry : ValueEntry) :
    Tidy trie.epoch (trie.insert key entry).1.nodes ∧
      (trie.insert key entry).1.currentRoot < (trie.insert key entry).1.nodes.size := by
  unfold insert
  cases trie.checkKey key with
  | error e => exact ⟨h.tidy, h.currentRoot_lt⟩
  | ok _ =>
    have hwritable := Edit.tidies_writable h.tidy trie.currentRoot none nofun
    dsimp only
    rcases hroot : (Edit.writable trie.epoch trie.currentRoot none).run.run trie.nodes with
      ⟨fault | root, mid⟩
    · obtain ⟨hkept, htidy, -⟩ := hwritable _ _ hroot
      exact ⟨htidy, Nat.lt_of_lt_of_le h.currentRoot_lt hkept.size_le⟩
    · obtain ⟨-, htidy, hmade⟩ := hwritable _ _ hroot
      replace hmade := hmade root rfl
      dsimp only
      rcases hbelow : (Edit.insertBelow trie.epoch key entry
          ((trie.nodes.size + 1) * (key.length + 1)) root 0).run.run mid with ⟨fault | isNew, nodes⟩ <;>
      · obtain ⟨hkept, htidy', -⟩ := Edit.tidies_insertBelow htidy key entry _ hmade 0 _ _ hbelow
        exact ⟨htidy', Nat.lt_of_lt_of_le hmade.lt_size hkept.size_le⟩

theorem insert (h : Layered trie) (key : Bits) (entry : ValueEntry) :
    Layered (trie.insert key entry).1 := by
  obtain ⟨hroots, hsizes, hepoch, hkept⟩ := insert_kept trie key entry
  obtain ⟨htidy, hroot⟩ := h.tidy_insert key entry
  refine ⟨hepoch ▸ htidy, hroot, ?_, ?_, fun {e root} hr => ?_⟩
  · rw [hroots, hepoch, h.roots_size]
  · rw [hsizes, hepoch, h.sizes_size]
  · rw [hroots] at hr
    obtain ⟨node, hnode, hle⟩ := h.root hr
    obtain ⟨node', hnode', he⟩ := hkept.epoch hnode
    exact ⟨node', hnode', he ▸ hle⟩

theorem step (h : Layered trie) (next : Step) : Layered (trie.step next) := by
  cases next with
  | insert key entry => exact h.insert key entry
  | nextEpoch => exact h.nextEpoch

theorem run (h : Layered trie) (steps : List Step) : Layered (trie.run steps) := by
  induction steps generalizing trie with
  | nil => exact h
  | cons next steps ih => exact ih (h.step next)

/-- Below a node of an epoch there is nothing later. -/
theorem leads (h : Layered trie) {id child : NodeId} {node : VersionedNode} {e : Nat}
    (hnode : trie.nodes[id]? = some node) (hle : node.epoch ≤ e)
    (hleads : Relation.ReflTransGen (Leads trie.nodes) id child) :
    ∃ node, trie.nodes[child]? = some node ∧ node.epoch ≤ e := by
  induction hleads with
  | refl => exact ⟨node, hnode, hle⟩
  | tail _ hlast ih =>
    obtain ⟨node, hnode, hle⟩ := ih
    obtain ⟨own, side, hown, hside⟩ := hlast
    rw [hown] at hnode
    cases hnode
    obtain ⟨child, hchild, hle'⟩ := (h.tidy _ _ hown).child hside
    exact ⟨child, hchild, Nat.le_trans hle' hle⟩

/-- All that is reachable from the root of a completed epoch was made up to that epoch. -/
theorem reachable (h : Layered trie) {e : Nat} {root id : NodeId}
    (hroot : trie.roots[e]? = some root)
    (hleads : Relation.ReflTransGen (Leads trie.nodes) root id) :
    ∃ node, trie.nodes[id]? = some node ∧ node.epoch ≤ e := by
  obtain ⟨node, hnode, hle⟩ := h.root hroot
  exact h.leads hnode hle hleads

end Layered

theorem layered_run (keyLength : Option Nat) (steps : List Step) :
    Layered ((empty keyLength).run steps) :=
  (layered_empty keyLength).run steps

end KeyTransparency.PersistentTrie
