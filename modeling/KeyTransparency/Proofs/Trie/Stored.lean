import KeyTransparency.Proofs.Trie.Descent
import KeyTransparency.Proofs.Trie.Edit
import Mathlib.Data.Set.Lattice
import Mathlib.Order.CompletePartialOrder

/-!
# Trees that lie in an arena

`Stored ok nodes id? t ids` says that the nodes `ids`, all of them `ok` and none of them used twice,
make up the subtree `t` below `id?`.  It is a statement about `ids` alone: writing to other nodes does
not change what is stored (`Stored.edited`).  So an edit is described by what it makes of the tree it
works on and by `Edited`, which says that it wrote to the nodes of that tree and new ones only; the two
together are `Rewritten`.

    Stored … (some root) t ids, none of its nodes later than e →
      (trie.walk key e).map Prod.fst = (t.walk key).mapError malformed                    (walk_eq)
-/

namespace KeyTransparency.PersistentTrie

open Trie Subtree

/-! ## Regions of an arena -/

/-- The nodes of `ids`, and all that are not there yet. -/
def region (nodes : Array VersionedNode) (ids : Set NodeId) : Set NodeId :=
  { i | i ∈ ids ∨ nodes.size ≤ i }

/-- Nothing outside of `ids` was written to. -/
structure Edited (nodes : Array VersionedNode) (ids : Set NodeId) (nodes' : Array VersionedNode) :
    Prop where
  size_le : nodes.size ≤ nodes'.size
  same : ∀ i < nodes.size, i ∉ ids → nodes'[i]? = nodes[i]?

section

variable {nodes mid nodes' : Array VersionedNode} {ids ids' : Set NodeId} {id : NodeId}

theorem subset_region (nodes : Array VersionedNode) (ids : Set NodeId) : ids ⊆ region nodes ids :=
  fun _ h => .inl h

theorem region_mono (h : Edited nodes ids mid) {s s' : Set NodeId} (hs : s ⊆ region nodes s') :
    region mid s ⊆ region nodes s' := by
  rintro i (hi | hi)
  · exact hs hi
  · exact .inr (Nat.le_trans h.size_le hi)

theorem disjoint_region {ds : Set NodeId} (hlt : ∀ i ∈ ds, i < nodes.size) (h : Disjoint ids ds)
    (hids' : ids' ⊆ region nodes ids) : Disjoint ids' ds := by
  rw [Set.disjoint_left] at h ⊢
  intro i hi hds
  rcases hids' hi with hi | hi
  · exact h hi hds
  · exact Nat.not_lt.2 hi (hlt i hds)

namespace Edited

theorem refl (nodes : Array VersionedNode) (ids : Set NodeId) : Edited nodes ids nodes :=
  ⟨Nat.le_refl _, fun _ _ _ => rfl⟩

theorem trans (h : Edited nodes ids mid) (h' : Edited mid ids' nodes')
    (hids' : ids' ⊆ region nodes ids) : Edited nodes ids nodes' where
  size_le := Nat.le_trans h.size_le h'.size_le
  same i hi hid := by
    have hid' : i ∉ ids' := fun hm => (hids' hm).elim hid (Nat.not_le.2 hi)
    rw [h'.same i (Nat.lt_of_lt_of_le hi h.size_le) hid', h.same i hi hid]

theorem mono (h : Edited nodes ids nodes') (hids : ids ⊆ ids') : Edited nodes ids' nodes' :=
  ⟨h.size_le, fun i hi hid => h.same i hi fun hm => hid (hids hm)⟩

theorem push (nodes : Array VersionedNode) (node : VersionedNode) :
    Edited nodes ∅ (nodes.push node) := by
  refine ⟨by simp, fun i hi _ => ?_⟩
  rw [Array.getElem?_push, if_neg (Nat.ne_of_lt hi)]

theorem modify (nodes : Array VersionedNode) (id : NodeId)
    (change : VersionedNode → VersionedNode) : Edited nodes {id} (nodes.modify id change) := by
  refine ⟨by simp, fun i _ hid => ?_⟩
  rw [Array.getElem?_modify, if_neg fun h => hid h.symm]

end Edited

theorem getElem?_push_self (nodes : Array VersionedNode) (node : VersionedNode) :
    (nodes.push node)[nodes.size]? = some node := by
  simp

theorem getElem?_modify_self {node : VersionedNode} (h : nodes[id]? = some node)
    (change : VersionedNode → VersionedNode) :
    (nodes.modify id change)[id]? = some (change node) := by
  simp [Array.getElem?_modify, h]

end

/-! ## Stored trees -/

/-- The nodes `ids`, all of them `ok`, make up the tree `t` below `id?`. -/
inductive Stored (ok : VersionedNode → Prop) (nodes : Array VersionedNode) :
    (id? : Option NodeId) → (t : Subtree) → (ids : Set NodeId) → Prop
  | vacant : Stored ok nodes none .vacant ∅
  | leaf {id node values} : nodes[id]? = some node → ok node → node.content = .leaf values →
      Stored ok nodes (some id) (.leaf node.label values node.hash) {id}
  | branch {id node l r left right as bs} : nodes[id]? = some node → ok node →
      node.content = .branch l r → Stored ok nodes l left as → Stored ok nodes r right bs →
      id ∉ as → id ∉ bs → Disjoint as bs →
      Stored ok nodes (some id) (.branch node.label left right node.hash) ({id} ∪ (as ∪ bs))

namespace Stored

variable {ok ok' : VersionedNode → Prop} {nodes nodes' : Array VersionedNode}
  {id? : Option NodeId} {id : NodeId} {t : Subtree} {ids : Set NodeId}

theorem root (h : Stored ok nodes (some id) t ids) :
    ∃ node, nodes[id]? = some node ∧ ok node ∧ node.label = t.label ∧ t.hash? = some node.hash ∧
      id ∈ ids := by
  cases h with
  | leaf hnode hok _ => exact ⟨_, hnode, hok, rfl, rfl, rfl⟩
  | branch hnode hok _ _ _ _ _ _ => exact ⟨_, hnode, hok, rfl, rfl, .inl rfl⟩

theorem mem (h : Stored ok nodes (some id) t ids) : id ∈ ids := by
  obtain ⟨_, -, -, -, -, hid⟩ := h.root
  exact hid

theorem leaf_content {label : Bits} {values : List ValueEntry} {hash : Hash}
    (h : Stored ok nodes (some id) (.leaf label values hash) ids) :
    ∃ node, nodes[id]? = some node ∧ node.content = .leaf values := by
  cases h with
  | leaf hnode _ hcontent => exact ⟨_, hnode, hcontent⟩

theorem branch_content {label : Bits} {left right : Subtree} {hash : Hash}
    (h : Stored ok nodes (some id) (.branch label left right hash) ids) :
    ∃ node l r, nodes[id]? = some node ∧ node.content = .branch l r := by
  cases h with
  | branch hnode _ hcontent => exact ⟨_, _, _, hnode, hcontent⟩

theorem ne_vacant (h : Stored ok nodes (some id) t ids) : t ≠ .vacant := by
  rintro rfl
  cases h

theorem exists_id (h : Stored ok nodes id? t ids) (ht : t ≠ .vacant) : ∃ id, id? = some id := by
  cases h with
  | vacant => exact absurd rfl ht
  | leaf => exact ⟨_, rfl⟩
  | branch => exact ⟨_, rfl⟩

/-- A tree is stored as long as its nodes hold what they held, wherever else they have changed. -/
theorem map (h : Stored ok nodes id? t ids)
    (hnodes : ∀ i ∈ ids, ∀ node, nodes[i]? = some node → ok node →
      ∃ node', nodes'[i]? = some node' ∧ ok' node' ∧ node'.label = node.label ∧
        node'.content = node.content ∧ node'.hash = node.hash) :
    Stored ok' nodes' id? t ids := by
  induction h with
  | vacant => exact .vacant
  | leaf hnode hok hcontent =>
    obtain ⟨node', hnode', hok', hlabel, hcontent', hhash⟩ := hnodes _ rfl _ hnode hok
    rw [← hlabel, ← hhash]
    exact .leaf hnode' hok' (hcontent'.trans hcontent)
  | branch hnode hok hcontent _ _ has hbs hdisj ihl ihr =>
    obtain ⟨node', hnode', hok', hlabel, hcontent', hhash⟩ :=
      hnodes _ (.inl rfl) _ hnode hok
    rw [← hlabel, ← hhash]
    refine .branch hnode' hok' (hcontent'.trans hcontent) (ihl fun i hi => ?_) (ihr fun i hi => ?_)
      has hbs hdisj
    · exact hnodes i (.inr (.inl hi))
    · exact hnodes i (.inr (.inr hi))

theorem mono (h : Stored ok nodes id? t ids) (hok : ∀ node, ok node → ok' node) :
    Stored ok' nodes id? t ids :=
  h.map fun _ _ node hnode h => ⟨node, hnode, hok node h, rfl, rfl, rfl⟩

theorem lt_size (h : Stored ok nodes id? t ids) : ∀ i ∈ ids, i < nodes.size := by
  induction h with
  | vacant => exact fun _ hi => hi.elim
  | leaf hnode _ _ =>
    rintro i rfl
    exact (Array.getElem?_eq_some_iff.1 hnode).1
  | branch hnode _ _ _ _ _ _ _ ihl ihr =>
    rintro i (rfl | hi | hi)
    · exact (Array.getElem?_eq_some_iff.1 hnode).1
    · exact ihl i hi
    · exact ihr i hi

/-- What is stored apart from the nodes written to is still stored. -/
theorem edited (h : Stored ok nodes id? t ids) {ds : Set NodeId} (he : Edited nodes ds nodes')
    (hdisj : Disjoint ids ds) : Stored ok nodes' id? t ids :=
  h.map fun i hi node hnode hok =>
    ⟨node, by rw [he.same i (h.lt_size i hi) (Set.disjoint_left.1 hdisj hi), hnode], hok, rfl, rfl,
      rfl⟩

theorem notMem_size (h : Stored ok nodes id? t ids) : nodes.size ∉ ids :=
  fun hm => Nat.lt_irrefl _ (h.lt_size _ hm)

theorem pushed (h : Stored ok nodes id? t ids) (node : VersionedNode) :
    Stored ok (nodes.push node) id? t ids :=
  h.edited (.push nodes node) (Set.disjoint_empty _)

theorem modified (h : Stored ok nodes id? t ids) (hid : id ∉ ids)
    (change : VersionedNode → VersionedNode) : Stored ok (nodes.modify id change) id? t ids :=
  h.edited (.modify nodes id change) (Set.disjoint_singleton_right.2 hid)

end Stored

/-! ## Writing to a stored tree -/

/-- A node of the newest version of the trie, as it is in the epoch `now`. -/
def Live (now : Nat) (node : VersionedNode) : Prop := node.epoch ≤ now ∧ node.next = none

/-- The tree on `ids` has become `t`, whose root `id` may be written in `now`. -/
structure Rewritten (now : Nat) (nodes : Array VersionedNode) (ids : Set NodeId)
    (nodes' : Array VersionedNode) (id : NodeId) (t : Subtree) (ids' : Set NodeId) : Prop where
  stored : Stored (Live now) nodes' (some id) t ids'
  made : MadeIn now nodes' id
  edited : Edited nodes ids nodes'
  within : ids' ⊆ region nodes ids

/-- Another label and hash for the root of a tree. -/
def stamp (label : Bits) (hash : Hash) : Subtree → Subtree
  | .vacant => .vacant
  | .leaf _ values _ => .leaf label values hash
  | .branch _ left right _ => .branch label left right hash

section

variable {now : Nat} {ok : VersionedNode → Prop} {nodes mid nodes' : Array VersionedNode}
  {id? : Option NodeId} {id id' : NodeId} {t t' x y : Subtree} {ids ids' ids'' : Set NodeId}
  {node : VersionedNode}

theorem MadeIn.edited (h : MadeIn now nodes id) (he : Edited nodes ids nodes') (hid : id ∉ ids) :
    MadeIn now nodes' id := by
  have hlt := h.lt_size
  obtain ⟨node, hnode, hnow⟩ := h
  exact ⟨node, by rw [he.same id hlt hid, hnode], hnow⟩

theorem Rewritten.refl (h : Stored (Live now) nodes (some id) t ids) (hmade : MadeIn now nodes id) :
    Rewritten now nodes ids nodes id t ids :=
  ⟨h, hmade, .refl nodes ids, subset_region nodes ids⟩

theorem Rewritten.trans (h : Rewritten now nodes ids mid id t ids')
    (h' : Rewritten now mid ids' nodes' id' t' ids'') :
    Rewritten now nodes ids nodes' id' t' ids'' :=
  ⟨h'.stored, h'.made, h.edited.trans h'.edited h.within,
    fun _ hi => region_mono h.edited h.within (h'.within hi)⟩

/-- What is written elsewhere later on does not touch the tree. -/
theorem Rewritten.elsewhere (h : Rewritten now nodes ids mid id t ids')
    (he : Edited mid ids'' nodes') (hdisj : Disjoint ids' ids'') (hwithin : ids'' ⊆ region nodes ids) :
    Rewritten now nodes ids nodes' id t ids' :=
  ⟨h.stored.edited he hdisj, h.made.edited he (Set.disjoint_left.1 hdisj h.stored.mem),
    h.edited.trans he hwithin, h.within⟩

/-- The root of a stored tree may get another label and hash. -/
theorem Stored.write (h : Stored ok nodes (some id) t ids) (hnode : nodes[id]? = some node)
    (change : VersionedNode → VersionedNode) (hok : ok (change node))
    (hcontent : (change node).content = node.content) :
    Stored ok (nodes.modify id change) (some id)
      (stamp (change node).label (change node).hash t) ids := by
  have hnode' := getElem?_modify_self hnode change
  cases h with
  | leaf hown _ hleaf =>
    rw [hown] at hnode
    cases hnode
    exact .leaf hnode' hok (hcontent.trans hleaf)
  | branch hown _ hbranch hl hr has hbs hdisj =>
    rw [hown] at hnode
    cases hnode
    exact .branch hnode' hok (hcontent.trans hbranch) (hl.modified has change)
      (hr.modified hbs change) has hbs hdisj

theorem stamp_self (h : Stored ok nodes (some id) t ids) (hnode : nodes[id]? = some node) :
    stamp node.label node.hash t = t := by
  cases h with
  | leaf hown _ _ =>
    rw [hown] at hnode
    cases hnode
    rfl
  | branch hown _ _ _ _ _ _ _ =>
    rw [hown] at hnode
    cases hnode
    rfl

theorem rehash_stamp (label : Bits) (hash : Hash) (ht : t ≠ .vacant) :
    (stamp label hash t).rehash = t.relabel label := by
  cases t with
  | vacant => exact absurd rfl ht
  | leaf => rfl
  | branch => rfl

/-- The root of a stored tree may be copied to the end of the arena. -/
theorem Stored.copy (h : Stored ok nodes (some id) t ids) (hnode : nodes[id]? = some node)
    (copy : VersionedNode) (hok : ok copy) (hlabel : copy.label = node.label)
    (hcontent : copy.content = node.content) (hhash : copy.hash = node.hash)
    (change : VersionedNode → VersionedNode) :
    ∃ ids', Stored ok ((nodes.push copy).modify id change) (some nodes.size) t ids' ∧
      ids' ⊆ region nodes ids := by
  have hne : id ≠ nodes.size := fun e => h.notMem_size (e ▸ h.mem)
  have hcopy : ((nodes.push copy).modify id change)[nodes.size]? = some copy := by
    rw [Array.getElem?_modify, if_neg hne, getElem?_push_self]
  cases h with
  | leaf hown _ hleaf =>
    rw [hown] at hnode
    cases hnode
    refine ⟨{nodes.size}, ?_, ?_⟩
    · rw [← hlabel, ← hhash]
      exact .leaf hcopy hok (hcontent.trans hleaf)
    · rintro i rfl
      exact .inr (Nat.le_refl _)
  | @branch _ _ l r left right as bs hown _ hbranch hl hr has hbs hdisj =>
    rw [hown] at hnode
    cases hnode
    refine ⟨{nodes.size} ∪ (as ∪ bs), ?_, ?_⟩
    · rw [← hlabel, ← hhash]
      exact .branch hcopy hok (hcontent.trans hbranch) ((hl.pushed copy).modified has change)
        ((hr.pushed copy).modified hbs change) hl.notMem_size hr.notMem_size hdisj
    · rintro i (rfl | hi)
      · exact .inr (Nat.le_refl _)
      · exact .inl (.inr hi)

namespace Edit

/-- A stored tree goes on being stored under the version that may be written. -/
theorem writable_spec (h : Stored (Live now) nodes (some id) t ids) (parent : Option NodeId) :
    ∃ id' nodes' ids', (writable now id parent).run.run nodes = (.ok id', nodes') ∧
      Rewritten now nodes ids nodes' id' t ids' := by
  suffices hspec : ∃ id' nodes' ids', (writable now id parent).run.run nodes = (.ok id', nodes') ∧
      Stored (Live now) nodes' (some id') t ids' ∧ Edited nodes ids nodes' ∧
      ids' ⊆ region nodes ids by
    obtain ⟨id', nodes', ids', hrun, hstored, hedited, hwithin⟩ := hspec
    have hmade := (keeps_writable now id parent _ _ hrun).2 id' rfl
    exact ⟨id', nodes', ids', hrun, hstored, hmade, hedited, hwithin⟩
  obtain ⟨node, hnode, ⟨hle, hnext⟩, -, -, hid⟩ := h.root
  have hroot : {id} ⊆ ids := Set.singleton_subset_iff.2 hid
  unfold writable
  rw [run_bind_ok (run_read_some hnode), if_neg (Nat.not_lt.2 hle)]
  by_cases hnow : node.epoch = now
  · rw [if_pos hnow]
    cases parent with
    | none => exact ⟨id, nodes, ids, rfl, h, .refl nodes ids, subset_region nodes ids⟩
    | some parent =>
      have hwrite := h.write hnode ({ · with parent := some parent }) ⟨hle, hnext⟩ rfl
      rw [stamp_self h hnode] at hwrite
      exact ⟨id, _, ids, rfl, hwrite, (Edited.modify nodes id _).mono hroot,
        subset_region nodes ids⟩
  · rw [if_neg hnow, hnext, if_neg (by decide)]
    obtain ⟨ids', hcopy, hids'⟩ := h.copy hnode
      { node with epoch := now, prev := some id, next := none, parent } ⟨Nat.le_refl _, rfl⟩
      rfl rfl rfl ({ · with next := some nodes.size })
    refine ⟨nodes.size, _, ids', rfl, hcopy, ?_, hids'⟩
    exact ((Edited.push nodes _).mono (Set.empty_subset ids)).trans (.modify _ id _)
      (hroot.trans (subset_region nodes ids))

theorem newLeaf_spec (now : Nat) (nodes : Array VersionedNode) (label : Bits) (entry : ValueEntry)
    (parent : NodeId) :
    ∃ nodes', (newLeaf now label entry parent).run.run nodes = (.ok nodes.size, nodes') ∧
      Rewritten now nodes ∅ nodes' nodes.size (ofLeaf label [entry]) {nodes.size} := by
  refine ⟨_, rfl, .leaf (getElem?_push_self nodes _) ⟨Nat.le_refl _, rfl⟩ rfl,
    ⟨_, getElem?_push_self nodes _, rfl⟩, .push nodes _, ?_⟩
  rintro i rfl
  exact .inr (Nat.le_refl _)

theorem run_childHash (h : Stored ok nodes id? t ids) :
    (childHash id?).run.run nodes = (.ok t.hash?, nodes) := by
  cases id? with
  | none =>
    cases h
    rfl
  | some id =>
    obtain ⟨node, hnode, -, -, hhash, -⟩ := h.root
    unfold childHash
    rw [run_bind_ok (run_read_some hnode), hhash]
    rfl

theorem rehash_spec (h : Stored (Live now) nodes (some id) t ids) (hmade : MadeIn now nodes id) :
    ∃ nodes', (rehash now id).run.run nodes = (.ok (), nodes') ∧
      Rewritten now nodes ids nodes' id t.rehash ids := by
  obtain ⟨node, hnode, hnow⟩ := hmade
  have hlive : Live now node := by
    obtain ⟨own, hown, hlive, -⟩ := h.root
    rw [hown] at hnode
    cases hnode
    exact hlive
  -- The new hash is that of the node's label with what the children carry.
  have hwrite (hash : Hash) (ht : stamp node.label hash t = t.rehash) :
      Rewritten now nodes ids (nodes.modify id ({ · with hash })) id t.rehash ids := by
    refine ⟨ht ▸ h.write hnode ({ · with hash }) hlive rfl, ?_, ?_, subset_region nodes ids⟩
    · exact ⟨_, getElem?_modify_self hnode _, hnow⟩
    · exact (Edited.modify nodes id _).mono (Set.singleton_subset_iff.2 h.mem)
  unfold rehash
  rw [run_bind_ok (run_read_some hnode), if_neg (not_not_intro hnow)]
  cases h with
  | leaf hown _ hleaf =>
    rw [hown] at hnode
    cases hnode
    rw [hleaf]
    exact ⟨_, rfl, hwrite _ rfl⟩
  | branch hown _ hbranch hl hr _ _ _ =>
    rw [hown] at hnode
    cases hnode
    rw [hbranch]
    dsimp only
    rw [run_bind_ok (run_childHash hl), run_bind_ok (run_childHash hr)]
    exact ⟨_, rfl, hwrite _ rfl⟩

/-- A node of `now` gets a new label and is rehashed. -/
theorem relabel_spec (h : Stored (Live now) nodes (some id) t ids) (hmade : MadeIn now nodes id)
    (label : Bits) :
    ∃ mid nodes', (update id ({ · with label })).run.run nodes = (.ok (), mid) ∧
      (rehash now id).run.run mid = (.ok (), nodes') ∧
      Rewritten now nodes ids nodes' id (t.relabel label) ids := by
  obtain ⟨node, hnode, hlive, -, -, hid⟩ := h.root
  have hmid := h.write hnode ({ · with label }) hlive rfl
  obtain ⟨nodes', hrun, hre⟩ := rehash_spec hmid (hmade.kept (.modify hmade fun _ => rfl))
  rw [rehash_stamp label node.hash h.ne_vacant] at hre
  refine ⟨_, nodes', rfl, hrun, hre.stored, hre.made, ?_, subset_region nodes ids⟩
  exact ((Edited.modify nodes id _).mono (Set.singleton_subset_iff.2 hid)).trans hre.edited
    (subset_region nodes ids)

/-- A leaf of `now` takes an entry. -/
theorem append_spec {label : Bits} {values : List ValueEntry} {hash : Hash}
    (h : Stored (Live now) nodes (some id) (.leaf label values hash) ids)
    (hmade : MadeIn now nodes id) (entry : ValueEntry) :
    ∃ mid nodes', (update id ({ · with content := .leaf (values ++ [entry]) })).run.run nodes =
        (.ok (), mid) ∧
      (rehash now id).run.run mid = (.ok (), nodes') ∧
      Rewritten now nodes ids nodes' id (ofLeaf label (values ++ [entry])) ids := by
  cases h with
  | @leaf _ node _ hnode hlive hleaf =>
    have hnode' := getElem?_modify_self hnode ({ · with content := .leaf (values ++ [entry]) })
    have hmid : Stored (Live now) _ (some id) _ {id} := .leaf hnode' hlive rfl
    obtain ⟨nodes', hrun, hre⟩ := rehash_spec hmid (hmade.kept (.modify hmade fun _ => rfl))
    refine ⟨_, nodes', rfl, hrun, hre.stored, hre.made, ?_, subset_region nodes _⟩
    exact (Edited.modify nodes id _).trans hre.edited (subset_region nodes _)

end Edit

end

/-! ## Reading a stored tree -/

/-- The children of a branch: `c` on `side`, `o` on the other. -/
def onSides (side : UInt8) (c o : Option NodeId) : VersionedContent :=
  if side = 0 then .branch c o else .branch o c

section

variable {trie : PersistentTrie} {e : Nat} {id : NodeId} {t : Subtree} {ids : Set NodeId}

theorem hashOf?_eq {ok : VersionedNode → Prop} {id? : Option NodeId}
    (h : Stored ok trie.nodes id? t ids) : trie.hashOf? id? = t.hash? := by
  cases id? with
  | none =>
    cases h
    rfl
  | some id =>
    obtain ⟨node, hnode, -, -, hhash, -⟩ := h.root
    simp [hashOf?, hnode, hhash]

theorem expose_eq {node : VersionedNode} (hnode : trie.nodes[id]? = some node)
    (hepoch : node.epoch ≤ e) : trie.expose e id = .ok node := by
  unfold expose
  rw [hnode]
  exact if_neg (Nat.not_lt.2 hepoch)

theorem follow_leaf {node : VersionedNode} {values : List ValueEntry}
    (hcontent : node.content = .leaf values) (key : Bits) (fuel depth : Nat)
    (above : List CopathEntry) (path : List NodeId) :
    trie.follow e key (fuel + 1) node depth above path =
      if depth = key.length then .ok (⟨above, .found node.label values⟩, path)
      else .error (.leafBeforeKeyEnd depth key.length) := by
  rw [follow, hcontent]

theorem follow_vacant {node : VersionedNode} {side : UInt8} {o : Option NodeId} {key more : Bits}
    {depth : Nat} (hcontent : node.content = onSides side none o)
    (hdrop : key.drop depth = side :: more) (fuel : Nat) (above : List CopathEntry)
    (path : List NodeId) :
    trie.follow e key (fuel + 1) node depth above path =
      .ok (⟨⟨node.label, trie.hashOf? o⟩ :: above, .vacant side⟩, path) := by
  rw [follow, hcontent, hdrop, onSides]
  by_cases hside : side = 0
  · simp only [if_pos hside]
  · simp only [if_neg hside]

theorem follow_child {node child : VersionedNode} {side : UInt8} {o : Option NodeId}
    {key more : Bits} {depth : Nat} (hcontent : node.content = onSides side (some id) o)
    (hdrop : key.drop depth = side :: more) (hchild : trie.nodes[id]? = some child)
    (hepoch : child.epoch ≤ e) (fuel : Nat) (above : List CopathEntry) (path : List NodeId) :
    trie.follow e key (fuel + 1) node depth above path =
      if child.label.isPrefixOf (side :: more) then
        trie.follow e key fuel child (depth + child.label.length)
          (⟨node.label, trie.hashOf? o⟩ :: above) (id :: path)
      else
        .ok (⟨⟨node.label, trie.hashOf? o⟩ :: above, .diverged child.label child.hash⟩,
          id :: path) := by
  rw [follow, hcontent, hdrop, onSides]
  by_cases hside : side = 0
  · simp only [if_pos hside, expose_eq hchild hepoch]
    rfl
  · simp only [if_neg hside, expose_eq hchild hepoch]
    rfl

/-- A walk in the epoch `e` is a walk in the tree stored there. -/
theorem follow_eq (h : Stored (·.epoch ≤ e) trie.nodes (some id) t ids) {node : VersionedNode}
    (hnode : trie.nodes[id]? = some node) (ht : Labelled t) {key : Bits} {fuel depth : Nat}
    (hdepth : depth ≤ key.length) (hfuel : key.length < fuel + depth) (above : List CopathEntry)
    (path : List NodeId) :
    (trie.follow e key fuel node depth above path).map Prod.fst = t.follow key depth above := by
  induction fuel generalizing id node t ids depth above path with
  | zero => omega
  | succ fuel ih =>
    cases h with
    | leaf hown _ hcontent =>
      rw [hown] at hnode
      cases hnode
      rw [follow_leaf hcontent, Subtree.follow]
      split <;> rfl
    | @branch _ _ l r left right as bs hown _ hcontent hl hr _ _ _ =>
      rw [hown] at hnode
      cases hnode
      cases hdrop : key.drop depth with
      | nil =>
        rw [follow, hcontent, Subtree.follow, hdrop]
        rfl
      | cons side more =>
        obtain ⟨c, o, x, y, cs, ds, hsides, hx, hy, hlabelled, hfollow⟩ : ∃ c o x y cs ds,
            node.content = onSides side c o ∧ Stored (·.epoch ≤ e) trie.nodes c x cs ∧
            Stored (·.epoch ≤ e) trie.nodes o y ds ∧ (x = vacant ∨ ∃ b n, Grown b n x) ∧
            (branch node.label left right node.hash).follow key depth above =
              x.arrive (side :: more) side (⟨node.label, y.hash?⟩ :: above) fun _ =>
                x.follow key (depth + x.label.length) (⟨node.label, y.hash?⟩ :: above) := by
          rw [Subtree.follow, hdrop, hcontent]
          unfold onSides
          by_cases hside : side = 0
          · simp only [if_pos hside]
            exact ⟨l, r, left, right, as, bs, rfl, hl, hr, (ht 0 _ _ .left).imp_right (⟨0, ·⟩), rfl⟩
          · simp only [if_neg hside]
            exact ⟨r, l, right, left, bs, as, rfl, hr, hl, (ht 1 _ _ .right).imp_right (⟨1, ·⟩), rfl⟩
        rw [hfollow]
        cases c with
        | none =>
          cases hx
          rw [follow_vacant hsides hdrop, hashOf?_eq hy]
          rfl
        | some id =>
          obtain ⟨child, hchild, hepoch, hlabel, hhash, -⟩ := hx.root
          obtain ⟨b, n, hgrown⟩ := hlabelled.resolve_left hx.ne_vacant
          have hpos := hgrown.label_pos
          rw [follow_child hsides hdrop hchild hepoch, hashOf?_eq hy, arrive_eq hhash, ← hlabel]
          split
          · next hp =>
            have hlen := (List.isPrefixOf_iff_prefix.1 hp).length_le
            have hmore := congrArg List.length hdrop
            rw [List.length_drop] at hmore
            rw [← hlabel] at hpos
            exact ih hx hchild hgrown.labelled (by omega) (by omega) _ _
          · rfl

theorem walk_eq {key : Bits} (hkey : trie.checkKey key = .ok ()) (hroot : trie.rootAt e = .ok id)
    (h : Stored (·.epoch ≤ e) trie.nodes (some id) t ids) (ht : Labelled t) (hlabel : t.label = []) :
    (trie.walk key e).map Prod.fst = (t.walk key).mapError .malformed := by
  obtain ⟨node, hnode, hepoch, hnodeLabel, -, -⟩ := h.root
  rw [hlabel] at hnodeLabel
  have hfuel : key.length < (trie.nodes.size + 1) * (key.length + 1) + 0 :=
    Nat.lt_of_lt_of_le (Nat.lt_succ_self _) (Nat.le_mul_of_pos_left _ (Nat.succ_pos _))
  have hfollow := follow_eq h hnode ht (Nat.zero_le _) hfuel [] [id]
  unfold walk Subtree.walk
  rw [hkey, hroot, hlabel, List.length_nil, ← hfollow]
  show Except.map _ (Except.bind (Except.mapError _ (Except.bind (trie.expose e id) _)) _) = _
  rw [expose_eq hnode hepoch, Except.bind, hnodeLabel, List.length_nil]
  generalize trie.follow e key _ node 0 [] [id] = found
  cases found <;> rfl

end

end KeyTransparency.PersistentTrie
