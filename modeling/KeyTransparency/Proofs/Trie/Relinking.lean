import KeyTransparency.Proofs.Trie.Links

/-!
# What the steps of an edit make of the links

`weave nodes` is the weave of an arena.  Each step of an edit is one of the ways in which links may
change, or leaves them as they are:

    newLeaf     pushes a single node that names its parent                               (run_newLeaf)
    writable    opens the node itself or its copy (`Opened`), or changes nothing        (run_writable)
    setChild    gives a branch another child, or changes nothing                  (run_setChild_cases)
    rehash      changes no link                                                         (weave_rehash)

Where the node is a branch, or one of the current epoch, `setChild` and `rehash` cannot fail.
-/

namespace KeyTransparency.PersistentTrie

/-! ## The links in an arena -/

def links (node : VersionedNode) : Links where
  epoch := node.epoch
  isBranch := match node.content with
    | .branch .. => true
    | .leaf _ => false
  left := node.child 0
  right := node.child 1
  prev := node.prev
  next := node.next
  parent := node.parent

def weave (nodes : Array VersionedNode) : Weave := fun id => nodes[id]?.map links

section

variable {now : Nat} {nodes nodes' : Array VersionedNode} {id child p i : NodeId}
  {node node' : VersionedNode} {l : Links} {side : UInt8}

theorem weave_eq_some (h : nodes[id]? = some node) : weave nodes id = some (links node) :=
  congrArg (Option.map links) h

theorem exists_of_weave (h : weave nodes id = some l) : ∃ node, nodes[id]? = some node ∧ links node = l :=
  Option.map_eq_some_iff.1 h

theorem weave_size (nodes : Array VersionedNode) : weave nodes nodes.size = none := by
  rw [weave, Array.getElem?_eq_none (Nat.le_refl _)]
  rfl

theorem child_eq (node : VersionedNode) (side : UInt8) :
    node.child side = if side = 0 then (links node).left else (links node).right := by
  unfold links VersionedNode.child
  cases node.content with
  | leaf values => simp
  | branch left right => rfl

theorem leads_iff : Leads nodes id child ↔ (weave nodes).Leads id child := by
  constructor
  · rintro ⟨node, side, hnode, hchild⟩
    rw [child_eq] at hchild
    refine ⟨links node, weave_eq_some hnode, ?_⟩
    split at hchild
    · exact .inl hchild
    · exact .inr hchild
  · rintro ⟨l, hl, hchild⟩
    obtain ⟨node, hnode, rfl⟩ := exists_of_weave hl
    rcases hchild with hleft | hright
    · exact ⟨node, 0, hnode, hleft⟩
    · exact ⟨node, 1, hnode, hright⟩

/-- What has a child is a branch. -/
theorem openIn_of_child (h : MadeIn now nodes id) (hnode : nodes[id]? = some node)
    (hchild : node.child side = some child) : (links node).OpenIn now := by
  obtain ⟨own, hown, hnow⟩ := h
  rw [hnode] at hown
  cases hown
  refine ⟨?_, hnow⟩
  unfold VersionedNode.child at hchild
  unfold links
  cases hcontent : node.content with
  | leaf values =>
    rw [hcontent] at hchild
    cases hchild
  | branch left right => rfl

theorem weave_push (nodes : Array VersionedNode) (node : VersionedNode) :
    weave (nodes.push node) = (weave nodes).set nodes.size (links node) := by
  funext i
  by_cases hi : i = nodes.size
  · rw [hi, Weave.set_self, weave, Array.getElem?_push, if_pos rfl]
    rfl
  · rw [Weave.set_of_ne hi, weave, weave, Array.getElem?_push, if_neg hi]

theorem weave_modify (h : nodes[id]? = some node) (change : VersionedNode → VersionedNode) :
    weave (nodes.modify id change) = (weave nodes).set id (links (change node)) := by
  funext i
  by_cases hi : i = id
  · rw [hi, Weave.set_self, weave, Array.getElem?_modify, if_pos rfl, h]
    rfl
  · rw [Weave.set_of_ne hi, weave, weave, Array.getElem?_modify, if_neg (Ne.symm hi)]

theorem Weave.set_of_eq_some {w : Weave} (h : w id = some l) : w.set id l = w := by
  rw [Weave.set, ← h]
  exact Function.update_eq_self id w

/-- Labels, hashes and values are not links. -/
theorem weave_stamp (h : nodes[id]? = some node) {change : VersionedNode → VersionedNode}
    (hchange : links (change node) = links node) : weave (nodes.modify id change) = weave nodes := by
  rw [weave_modify h, hchange, Weave.set_of_eq_some (weave_eq_some h)]

theorem links_withChild {left right : Option NodeId} (h : node.content = .branch left right)
    (side : UInt8) (child : NodeId) :
    links { node with
      content := if side = 0 then .branch (some child) right else .branch left (some child) } =
      (links node).withChild side child := by
  unfold links Links.withChild VersionedNode.child
  rw [h]
  split <;> rfl

end

/-! ## A version that may be written -/

/-- What `writable` makes of the links: `lower` is the version answered, `n` the size of the arena. -/
inductive Opened (now : Nat) (id : NodeId) (parent : Option NodeId) (w : Weave) (n : NodeId) :
    (lower : NodeId) → Weave → Prop
  | kept {l : Links} : w id = some l → l.epoch = now → parent = none →
    Opened now id parent w n id w
  | inPlace {l : Links} {p : NodeId} : w id = some l → l.epoch = now → parent = some p →
    Opened now id parent w n id (w.set id { l with parent := some p })
  | copied {l : Links} : Copyable w now id n l → Opened now id parent w n n (w.copy now id n l parent)

theorem run_writable {now : Nat} {nodes nodes' : Array VersionedNode} {id : NodeId}
    {parent : Option NodeId} {answer : Except StructureFault NodeId}
    (hrun : (Edit.writable now id parent).run.run nodes = (answer, nodes')) :
    (∃ fault, answer = .error fault ∧ nodes' = nodes) ∨
      ∃ lower, answer = .ok lower ∧
        Opened now id parent (weave nodes) nodes.size lower (weave nodes') := by
  unfold Edit.writable at hrun
  rw [Edit.run_bind, Edit.run_read] at hrun
  cases hnode : nodes[id]? with
  | none =>
    rw [hnode] at hrun
    cases hrun
    exact .inl ⟨_, rfl, rfl⟩
  | some node =>
    rw [hnode] at hrun
    dsimp only at hrun
    by_cases hlater : now < node.epoch
    · rw [if_pos hlater] at hrun
      cases hrun
      exact .inl ⟨_, rfl, rfl⟩
    · rw [if_neg hlater] at hrun
      by_cases hnow : node.epoch = now
      · rw [if_pos hnow] at hrun
        have hself := weave_eq_some hnode
        cases parent with
        | none =>
          cases hrun
          exact .inr ⟨id, rfl, .kept hself hnow rfl⟩
        | some p =>
          cases hrun
          refine .inr ⟨id, rfl, ?_⟩
          rw [weave_modify hnode]
          exact .inPlace hself hnow rfl
      · rw [if_neg hnow] at hrun
        cases hnext : node.next with
        | some next =>
          rw [hnext] at hrun
          cases hrun
          exact .inl ⟨_, rfl, rfl⟩
        | none =>
          rw [hnext] at hrun
          cases hrun
          have hid := lt_size_of_getElem? hnode
          have hpushed : (nodes.push { node with epoch := now, prev := some id, next := none, parent })[id]? =
              some node := by
            rw [Array.getElem?_push, if_neg (Nat.ne_of_lt hid), hnode]
          refine .inr ⟨nodes.size, rfl, ?_⟩
          rw [weave_modify hpushed, weave_push]
          exact .copied ⟨weave_eq_some hnode, weave_size nodes, hid, hnext, by
            show node.epoch < now
            omega⟩

namespace Opened

variable {loose : NodeId → NodeId → Prop} {now : Nat} {id n lower i p : NodeId} {parent : Option NodeId}
  {w w' : Weave} {l l' : Links} {side : UInt8}

theorem woven (h : Opened now id parent w n lower w') (hw : Woven Tight w)
    (hparents : ∀ l p, lower = id → w id = some l → l.epoch = now → parent = some p →
      ∀ i, w.Leads i id → loose i id ∨ w.Akin p i) : Woven loose w' := by
  cases h with
  | kept => exact hw.mono fun _ _ _ h => h.elim
  | inPlace hid hnow hp => exact hw.reparent hid (fun _ _ _ h => h.elim) (hparents _ _ rfl hid hnow hp)
  | copied hc => exact (hw.copy hc parent).mono fun _ _ _ h => h.elim

/-- The version answered is of this epoch and names the parent that was given. -/
theorem named (h : Opened now id (some p) w n lower w') :
    ∃ l, w' lower = some l ∧ l.epoch = now ∧ l.parent = some p := by
  cases h with
  | kept _ _ hp => cases hp
  | inPlace _ hnow hp =>
    cases hp
    exact ⟨_, Weave.set_self, hnow, rfl⟩
  | copied hc => exact ⟨_, hc.copy_new _, rfl, rfl⟩

theorem lower_eq (h : Opened now id parent w n lower w') : lower = id ∨ lower = n := by
  cases h with
  | kept => exact .inl rfl
  | inPlace => exact .inl rfl
  | copied => exact .inr rfl

/-- Children and epochs stay, and so do the parents of all other nodes. -/
theorem old (h : Opened now id parent w n lower w') (hi : w i = some l) :
    ∃ l', w' i = some l' ∧ l'.epoch = l.epoch ∧ l'.isBranch = l.isBranch ∧
      (∀ side, l'.other side = l.other side) ∧ (i ≠ id → l' = l) := by
  cases h with
  | kept => exact ⟨l, hi, rfl, rfl, fun _ => rfl, fun _ => rfl⟩
  | @inPlace own p hid =>
    obtain ⟨m, hm, ⟨rfl, rfl, rfl⟩ | ⟨-, rfl⟩⟩ :=
      Weave.exists_set hid { own with parent := some p } hi
    · exact ⟨_, hm, rfl, rfl, fun _ => rfl, fun hne => absurd rfl hne⟩
    · exact ⟨_, hm, rfl, rfl, fun _ => rfl, fun _ => rfl⟩
  | copied hc =>
    by_cases hne : i = id
    · obtain ⟨next, hnext⟩ := hc.exists_copy parent hi
      exact ⟨_, hnext, rfl, rfl, fun _ => rfl, fun h => absurd hne h⟩
    · exact ⟨l, hc.copy_old parent hne hi, rfl, rfl, fun _ => rfl, fun _ => rfl⟩

/-- The version answered is not the other child of a node that has `id` on one side. -/
theorem other_ne (h : Opened now id parent w n lower w') (hw : Woven Tight w) (hn : w n = none)
    (hp : w p = some l) (hside : (if side = 0 then l.left else l.right) = some id)
    (hp' : w' p = some l') : l'.other side ≠ some lower := by
  obtain ⟨m, hm, -, -, hother, -⟩ := h.old hp
  rw [hp'] at hm
  cases hm
  rw [hother]
  rcases h.lower_eq with rfl | rfl
  · exact hw.other_ne hp hside
  · intro hnew
    obtain ⟨c, hc, -⟩ := hw.parent ⟨l, hp, .of_other hnew⟩
    rw [hn] at hc
    cases hc

/-- When a version of `child` is opened under a new branch, that branch stands between it and `parent`. -/
theorem parting {upper : NodeId} {above mid : Links}
    (h : Opened now id (some upper) (w.set upper mid) n lower w') (hw : Woven Tight w)
    (hupper : w upper = none) (hn : (w.set upper mid) n = none) (hopen : mid.OpenIn now)
    (hsingle : mid.Single) (hnamed : mid.parent = some p) (hp : w p = some above)
    (habove : above.OpenIn now) (hside : (if side = 0 then above.left else above.right) = some id) :
    ∃ above', Woven.Parting now w' p upper lower side above' mid := by
  have hleads : w.Leads p id := by
    refine ⟨above, hp, ?_⟩
    split at hside
    · exact .inl hside
    · exact .inr hside
  obtain ⟨own, hown, -⟩ := hw.parent hleads
  have hne : upper ≠ id := (Weave.ne_of_eq_some hupper hown).symm
  have hp' := Weave.set_fresh (l := mid) hupper hp
  obtain ⟨above', habove', hepoch, hbranch, hother, -⟩ := h.old hp'
  have hself : (w.set upper mid) upper = some mid := Weave.set_self
  obtain ⟨mid', hmid', -, -, -, hsame⟩ := h.old hself
  obtain rfl := hsame hne
  refine ⟨above', habove', ⟨hbranch.trans habove.isBranch, hepoch.trans habove.epoch⟩, hmid', hopen,
    hsingle, hnamed, h.named, h.other_ne (hw.push hupper hsingle) hn hp' hside habove', ?_,
    (Weave.ne_of_eq_some hupper hp).symm, ?_⟩
  · rw [hother]
    intro hnew
    obtain ⟨c, hc, -⟩ := hw.parent ⟨above, hp, .of_other hnew⟩
    rw [hupper] at hc
    cases hc
  · rcases h.lower_eq with rfl | rfl
    · exact hne
    · exact Weave.ne_of_eq_some hn Weave.set_self

end Opened

/-! ## Other steps of an edit -/

section

variable {now : Nat} {nodes nodes' : Array VersionedNode} {id child parent p i : NodeId}
  {node node' : VersionedNode} {l : Links} {side : UInt8}

/-- Of a branch `setChild` replaces the child. -/
theorem run_setChild (h : weave nodes parent = some l) (hbranch : l.isBranch = true) (side : UInt8)
    (child : NodeId) :
    ∃ nodes', (Edit.setChild parent side child).run.run nodes = (.ok (), nodes') ∧
      weave nodes' = (weave nodes).set parent (l.withChild side child) := by
  obtain ⟨node, hnode, rfl⟩ := exists_of_weave h
  unfold Edit.setChild
  rw [Edit.run_bind_ok (Edit.run_read_some hnode)]
  cases hcontent : node.content with
  | leaf values =>
    unfold links at hbranch
    rw [hcontent] at hbranch
    cases hbranch
  | branch left right =>
    refine ⟨_, Edit.run_update _ _, ?_⟩
    rw [weave_modify hnode, links_withChild hcontent]

theorem run_setChild_cases {answer : Except StructureFault Unit}
    (hrun : (Edit.setChild parent side child).run.run nodes = (answer, nodes')) :
    (∃ fault, answer = .error fault ∧ nodes' = nodes) ∨
      ∃ l, weave nodes parent = some l ∧
        weave nodes' = (weave nodes).set parent (l.withChild side child) := by
  cases hnode : nodes[parent]? with
  | none =>
    unfold Edit.setChild at hrun
    rw [Edit.run_bind, Edit.run_read, hnode] at hrun
    cases hrun
    exact .inl ⟨_, rfl, rfl⟩
  | some node =>
    cases hcontent : node.content with
    | leaf values =>
      unfold Edit.setChild at hrun
      rw [Edit.run_bind_ok (Edit.run_read_some hnode), hcontent] at hrun
      cases hrun
      exact .inl ⟨_, rfl, rfl⟩
    | branch left right =>
      have hself := weave_eq_some hnode
      have hbranch : (links node).isBranch = true := by
        unfold links
        rw [hcontent]
      obtain ⟨mid, hmid, hweave⟩ := run_setChild hself hbranch side child
      rw [hrun] at hmid
      cases hmid
      exact .inr ⟨_, hself, hweave⟩

theorem run_childHash {side : Option NodeId} {answer : Except StructureFault (Option Hash)}
    (hrun : (Edit.childHash side).run.run nodes = (answer, nodes')) : nodes = nodes' := by
  cases side with
  | none =>
    cases hrun
    rfl
  | some id =>
    unfold Edit.childHash at hrun
    rw [Edit.run_bind, Edit.run_read] at hrun
    cases hnode : nodes[id]? <;> rw [hnode] at hrun <;> cases hrun <;> rfl

/-- A new leaf is put behind the nodes and names its parent. -/
theorem run_newLeaf (now : Nat) (nodes : Array VersionedNode) (label : Bits) (entry : ValueEntry)
    (parent : NodeId) :
    ∃ leaf, (links leaf).Single ∧ (links leaf).parent = some parent ∧
      (Edit.newLeaf now label entry parent).run.run nodes = (.ok nodes.size, nodes.push leaf) ∧
      weave (nodes.push leaf) = (weave nodes).set nodes.size (links leaf) :=
  ⟨_, ⟨rfl, rfl, rfl, rfl⟩, rfl, Edit.run_push _, weave_push nodes _⟩

/-- Hashes are not links. -/
theorem weave_rehash {answer : Except StructureFault Unit}
    (hrun : (Edit.rehash now id).run.run nodes = (answer, nodes')) : weave nodes' = weave nodes := by
  unfold Edit.rehash at hrun
  rw [Edit.run_bind, Edit.run_read] at hrun
  cases hnode : nodes[id]? with
  | none =>
    rw [hnode] at hrun
    cases hrun
    rfl
  | some node =>
    rw [hnode] at hrun
    dsimp only at hrun
    split at hrun
    · cases hrun
      rfl
    · cases hcontent : node.content with
      | leaf values =>
        rw [hcontent] at hrun
        cases hrun
        exact weave_stamp hnode rfl
      | branch left right =>
        rw [hcontent] at hrun
        dsimp only at hrun
        rw [Edit.run_bind] at hrun
        rcases hleft : (Edit.childHash left).run.run nodes with ⟨fault | leftHash, mid⟩ <;>
          rw [hleft] at hrun <;> obtain rfl := run_childHash hleft
        · cases hrun
          rfl
        dsimp only at hrun
        rw [Edit.run_bind] at hrun
        rcases hright : (Edit.childHash right).run.run nodes with ⟨fault | rightHash, mid⟩ <;>
          rw [hright] at hrun <;> obtain rfl := run_childHash hright
        · cases hrun
          rfl
        cases hrun
        exact weave_stamp hnode rfl

theorem run_childHash_ok {side : Option NodeId}
    (h : ∀ c, side = some c → ∃ node, nodes[c]? = some node) :
    ∃ hash, (Edit.childHash side).run.run nodes = (.ok hash, nodes) := by
  cases side with
  | none => exact ⟨_, rfl⟩
  | some c =>
    obtain ⟨node, hnode⟩ := h c rfl
    unfold Edit.childHash
    rw [Edit.run_bind_ok (Edit.run_read_some hnode)]
    exact ⟨_, rfl⟩

/-- A node of this epoch can be rehashed. -/
theorem run_rehash (ht : Tidy now nodes) (h : MadeIn now nodes id) :
    ∃ nodes', (Edit.rehash now id).run.run nodes = (.ok (), nodes') := by
  obtain ⟨node, hnode, hnow⟩ := h
  unfold Edit.rehash
  rw [Edit.run_bind_ok (Edit.run_read_some hnode), if_neg (not_not_intro hnow)]
  cases hcontent : node.content with
  | leaf values => exact ⟨_, rfl⟩
  | branch left right =>
    have hchild (side : UInt8) (c : NodeId) (hc : node.child side = some c) :
        ∃ node, nodes[c]? = some node := by
      obtain ⟨child, hchild, -⟩ := (ht id node hnode).child hc
      exact ⟨child, hchild⟩
    unfold VersionedNode.child at hchild
    rw [hcontent] at hchild
    obtain ⟨leftHash, hleft⟩ := run_childHash_ok fun c (hc : left = some c) => hchild 0 c hc
    obtain ⟨rightHash, hright⟩ := run_childHash_ok fun c (hc : right = some c) => hchild 1 c hc
    dsimp only
    rw [Edit.run_bind_ok hleft, Edit.run_bind_ok hright]
    exact ⟨_, rfl⟩

end

end KeyTransparency.PersistentTrie
