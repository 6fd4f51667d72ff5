import KeyTransparency.Trie.Persistent

/-!
# What writing in one epoch leaves alone

`Kept now nodes nodes'` says what an edit made in the epoch `now` leaves of an arena: no node goes, and
a node of another epoch keeps everything but `next`, which may go from `none` to a node that is new.

    Edit.keeps_writable :     Keeps now (writable now id parent) nodes (the answer is made in now)
    Edit.keeps_insertBelow :  parent made in now → Keeps now (insertBelow now key entry fuel parent depth)

It holds of every arena, also of one that no run makes, and whether the edit goes through or not.
-/

namespace KeyTransparency.PersistentTrie

/-! ## Running an edit -/

namespace Edit

variable {α β : Type} {nodes : Array VersionedNode}

theorem run_bind (x : Edit α) (f : α → Edit β) (nodes : Array VersionedNode) :
    (x >>= f).run.run nodes =
      match x.run.run nodes with
      | (.ok a, nodes) => (f a).run.run nodes
      | (.error fault, nodes) => (.error fault, nodes) := by
  rw [ExceptT.run_bind, StateT.run_bind]
  rcases x.run.run nodes with ⟨answer, nodes⟩
  cases answer <;> rfl

theorem run_bind_ok {x : Edit α} {f : α → Edit β} {mid : Array VersionedNode} {a : α}
    (h : x.run.run nodes = (.ok a, mid)) :
    (x >>= f).run.run nodes = (f a).run.run mid := by
  rw [run_bind, h]

theorem run_pure (a : α) : (pure a : Edit α).run.run nodes = (.ok a, nodes) := rfl

theorem run_throw (fault : StructureFault) :
    (throw fault : Edit α).run.run nodes = (.error fault, nodes) := rfl

theorem run_get : (get : Edit (Array VersionedNode)).run.run nodes = (.ok nodes, nodes) := rfl

theorem run_read (nodes : Array VersionedNode) (id : NodeId) :
    (read id).run.run nodes =
      match nodes[id]? with
      | some node => (.ok node, nodes)
      | none => (.error (.danglingNode id), nodes) := by
  unfold read
  rw [run_bind_ok run_get]
  cases nodes[id]? <;> rfl

theorem run_read_some {id : NodeId} {node : VersionedNode} (h : nodes[id]? = some node) :
    (read id).run.run nodes = (.ok node, nodes) := by
  rw [run_read, h]

theorem run_push (node : VersionedNode) :
    (push node).run.run nodes = (.ok nodes.size, nodes.push node) := rfl

theorem run_update (id : NodeId) (change : VersionedNode → VersionedNode) :
    (update id change).run.run nodes = (.ok (), nodes.modify id change) := rfl

end Edit

/-! ## What is kept -/

/-- What writing in the epoch `now` leaves of the arena. -/
structure Kept (now : Nat) (nodes nodes' : Array VersionedNode) : Prop where
  size_le : nodes.size ≤ nodes'.size
  epoch {id : NodeId} {node : VersionedNode} : nodes[id]? = some node →
    ∃ node', nodes'[id]? = some node' ∧ node'.epoch = node.epoch
  other {id : NodeId} {node : VersionedNode} : nodes[id]? = some node → node.epoch ≠ now →
    ∃ next, nodes'[id]? = some { node with next } ∧
      (next = node.next ∨
        node.next = none ∧ ∃ new, next = some new ∧ nodes.size ≤ new ∧ new < nodes'.size)

def MadeIn (now : Nat) (nodes : Array VersionedNode) (id : NodeId) : Prop :=
  ∃ node, nodes[id]? = some node ∧ node.epoch = now

section

variable {now : Nat} {nodes mid nodes' : Array VersionedNode} {id : NodeId}

theorem MadeIn.lt_size (h : MadeIn now nodes id) : id < nodes.size := by
  obtain ⟨node, hnode, -⟩ := h
  exact (Array.getElem?_eq_some_iff.1 hnode).1

theorem MadeIn.kept (h : MadeIn now nodes id) (hk : Kept now nodes nodes') :
    MadeIn now nodes' id := by
  obtain ⟨node, hnode, hnow⟩ := h
  obtain ⟨node', hnode', hepoch⟩ := hk.epoch hnode
  exact ⟨node', hnode', hepoch.trans hnow⟩

namespace Kept

theorem refl (now : Nat) (nodes : Array VersionedNode) : Kept now nodes nodes where
  size_le := Nat.le_refl _
  epoch h := ⟨_, h, rfl⟩
  other h _ := ⟨_, h, .inl rfl⟩

theorem trans (h : Kept now nodes mid) (h' : Kept now mid nodes') : Kept now nodes nodes' where
  size_le := Nat.le_trans h.size_le h'.size_le
  epoch hnode := by
    obtain ⟨node', hnode', he⟩ := h.epoch hnode
    obtain ⟨node'', hnode'', he'⟩ := h'.epoch hnode'
    exact ⟨node'', hnode'', he'.trans he⟩
  other {id node} hnode hother := by
    obtain ⟨next, hmid, hnext⟩ := h.other hnode hother
    obtain ⟨next', hlast, hnext'⟩ := h'.other hmid hother
    refine ⟨next', hlast, ?_⟩
    -- A successor is set once: of the two edits at most one gave the node its `next`.
    rcases hnext with rfl | ⟨hnone, new, rfl, hnew, hlt⟩
    · rcases hnext' with hsame | ⟨hnone, new, rfl, hnew, hlt⟩
      · exact .inl hsame
      · exact .inr ⟨hnone, new, rfl, Nat.le_trans h.size_le hnew, hlt⟩
    · rcases hnext' with rfl | ⟨hnone', -⟩
      · exact .inr ⟨hnone, new, rfl, hnew, Nat.lt_of_lt_of_le hlt h'.size_le⟩
      · cases hnone'

theorem push (now : Nat) (nodes : Array VersionedNode) (node : VersionedNode) :
    Kept now nodes (nodes.push node) := by
  have hold {id : NodeId} {old : VersionedNode} (h : nodes[id]? = some old) :
      (nodes.push node)[id]? = some old := by
    rw [Array.getElem?_push, if_neg (Nat.ne_of_lt (Array.getElem?_eq_some_iff.1 h).1), h]
  exact ⟨by simp, fun h => ⟨_, hold h, rfl⟩, fun h _ => ⟨_, hold h, .inl rfl⟩⟩

theorem modify (h : MadeIn now nodes id) {change : VersionedNode → VersionedNode}
    (hchange : ∀ node, (change node).epoch = node.epoch) :
    Kept now nodes (nodes.modify id change) where
  size_le := by simp
  epoch {i node} hnode := by
    rw [Array.getElem?_modify, hnode]
    by_cases hi : id = i
    · exact ⟨change node, by simp [hi], hchange node⟩
    · exact ⟨node, by simp [hi], rfl⟩
  other {i node} hnode hother := by
    obtain ⟨own, hown, hnow⟩ := h
    have hi : id ≠ i := by
      rintro rfl
      rw [hown] at hnode
      cases hnode
      exact hother hnow
    exact ⟨node.next, by rw [Array.getElem?_modify, if_neg hi, hnode], .inl rfl⟩

/-- A copy is put behind the nodes and made the successor of a node without one. -/
theorem link {node : VersionedNode} (h : nodes[id]? = some node) (hnext : node.next = none)
    (copy : VersionedNode) :
    Kept now nodes ((nodes.push copy).modify id ({ · with next := some nodes.size })) := by
  have hold {i : NodeId} {old : VersionedNode} (hi : nodes[i]? = some old) :
      ((nodes.push copy).modify id ({ · with next := some nodes.size }))[i]? =
        some (if id = i then { old with next := some nodes.size } else old) := by
    rw [Array.getElem?_modify, Array.getElem?_push,
      if_neg (Nat.ne_of_lt (Array.getElem?_eq_some_iff.1 hi).1), hi]
    split <;> rfl
  refine ⟨by simp, fun hi => ⟨_, hold hi, by split <;> rfl⟩, fun {i old} hi _ => ?_⟩
  by_cases hid : id = i
  · subst hid
    rw [h] at hi
    cases hi
    exact ⟨some nodes.size, by simpa using hold h, .inr ⟨hnext, _, rfl, Nat.le_refl _, by simp⟩⟩
  · exact ⟨old.next, by simpa [hid] using hold hi, .inl rfl⟩

end Kept

end

/-! ## Every edit keeps the other epochs -/

namespace Edit

/-- Whatever `edit` answers, it writes in `now` only; if it goes through, its answer is as `post`. -/
def Keeps {α : Type} (now : Nat) (edit : Edit α) (nodes : Array VersionedNode)
    (post : α → Array VersionedNode → Prop) : Prop :=
  ∀ answer nodes', edit.run.run nodes = (answer, nodes') →
    Kept now nodes nodes' ∧ ∀ a, answer = .ok a → post a nodes'

section

variable {α β : Type} {now : Nat} {nodes : Array VersionedNode} {id : NodeId}

theorem Keeps.of_run {edit : Edit α} {answer : Except StructureFault α}
    {nodes' : Array VersionedNode} {post : α → Array VersionedNode → Prop}
    (h : edit.run.run nodes = (answer, nodes')) (hkept : Kept now nodes nodes')
    (hpost : ∀ a, answer = .ok a → post a nodes') : Keeps now edit nodes post := by
  intro answer' nodes'' h'
  rw [h] at h'
  cases h'
  exact ⟨hkept, hpost⟩

theorem Keeps.bind {x : Edit α} {f : α → Edit β} {post : α → Array VersionedNode → Prop}
    {post' : β → Array VersionedNode → Prop} (hx : Keeps now x nodes post)
    (hf : ∀ a mid, Kept now nodes mid → post a mid → Keeps now (f a) mid post') :
    Keeps now (x >>= f) nodes post' := by
  intro answer nodes' h
  rw [run_bind] at h
  rcases hrun : x.run.run nodes with ⟨first, mid⟩
  obtain ⟨hmid, hpost⟩ := hx first mid hrun
  rw [hrun] at h
  cases first with
  | error fault =>
    cases h
    exact ⟨hmid, fun _ ha => nomatch ha⟩
  | ok a =>
    obtain ⟨hlast, hpost'⟩ := hf a mid hmid (hpost a rfl) answer nodes' h
    exact ⟨hmid.trans hlast, hpost'⟩

theorem keeps_pure {a : α} {post : α → Array VersionedNode → Prop} (h : post a nodes) :
    Keeps now (pure a) nodes post :=
  .of_run (run_pure a) (.refl now nodes) fun _ ha => by cases ha; exact h

theorem keeps_throw (fault : StructureFault) (post : α → Array VersionedNode → Prop) :
    Keeps now (throw fault) nodes post :=
  .of_run (run_throw fault) (.refl now nodes) fun _ ha => nomatch ha

theorem keeps_read (id : NodeId) :
    Keeps now (read id) nodes fun node nodes' => nodes'[id]? = some node := by
  have hrun := run_read nodes id
  cases h : nodes[id]? with
  | none =>
    rw [h] at hrun
    exact .of_run hrun (.refl now nodes) fun _ ha => nomatch ha
  | some node =>
    rw [h] at hrun
    exact .of_run hrun (.refl now nodes) fun _ ha => by cases ha; exact h

theorem keeps_push (node : VersionedNode) :
    Keeps node.epoch (push node) nodes fun id nodes' => MadeIn node.epoch nodes' id := by
  refine .of_run (run_push node) (.push _ nodes node) fun _ ha => ?_
  cases ha
  exact ⟨node, by simp, rfl⟩

theorem keeps_update (h : MadeIn now nodes id) {change : VersionedNode → VersionedNode}
    (hchange : ∀ node, (change node).epoch = node.epoch) :
    Keeps now (update id change) nodes fun _ _ => True :=
  .of_run (run_update id change) (.modify h hchange) fun _ _ => trivial

/-- The version answered may be written in `now`. -/
theorem keeps_writable (now : Nat) (id : NodeId) (parent : Option NodeId) :
    Keeps now (writable now id parent) nodes fun id nodes' => MadeIn now nodes' id := by
  refine .bind (keeps_read id) fun node mid _ hnode => ?_
  by_cases hlater : now < node.epoch
  · rw [if_pos hlater]
    exact keeps_throw _ _
  · rw [if_neg hlater]
    by_cases hnow : node.epoch = now
    · rw [if_pos hnow]
      have hmade : MadeIn now mid id := ⟨node, hnode, hnow⟩
      cases parent with
      | none => exact keeps_pure hmade
      | some parent =>
        refine .bind (keeps_update hmade fun _ => rfl) fun _ _ hkept _ => ?_
        exact keeps_pure (hmade.kept hkept)
    · rw [if_neg hnow]
      cases hnext : node.next with
      | some next => exact keeps_throw _ _
      | none =>
        refine .of_run rfl (.link hnode hnext _) fun _ ha => ?_
        cases ha
        have hne : id ≠ mid.size := Nat.ne_of_lt (Array.getElem?_eq_some_iff.1 hnode).1
        exact ⟨{ node with epoch := now, prev := some id, next := none, parent },
          by rw [Array.getElem?_modify, if_neg hne, Array.getElem?_push, if_pos rfl], rfl⟩

theorem keeps_setChild {parent : NodeId} (h : MadeIn now nodes parent) (side : UInt8)
    (child : NodeId) : Keeps now (setChild parent side child) nodes fun _ _ => True := by
  refine .bind (keeps_read parent) fun node mid hkept _ => ?_
  cases node.content with
  | leaf values => exact keeps_throw _ _
  | branch left right => exact keeps_update (h.kept hkept) fun _ => rfl

theorem keeps_childHash (child : Option NodeId) :
    Keeps now (childHash child) nodes fun _ _ => True := by
  cases child with
  | none => exact keeps_pure trivial
  | some id => exact .bind (keeps_read id) fun _ _ _ _ => keeps_pure trivial

theorem keeps_rehash (now : Nat) (id : NodeId) :
    Keeps now (rehash now id) nodes fun _ _ => True := by
  refine .bind (keeps_read id) fun node mid _ hnode => ?_
  by_cases hnow : node.epoch = now
  · rw [if_neg (not_not_intro hnow)]
    have hmade : MadeIn now mid id := ⟨node, hnode, hnow⟩
    cases node.content with
    | leaf values => exact keeps_update hmade fun _ => rfl
    | branch left right =>
      refine .bind (keeps_childHash left) fun _ _ hleft _ => ?_
      refine .bind (keeps_childHash right) fun _ _ hright _ => ?_
      exact keeps_update ((hmade.kept hleft).kept hright) fun _ => rfl
  · rw [if_pos hnow]
    exact keeps_throw _ _

theorem keeps_splitChild (entry : ValueEntry) {parent : NodeId} (h : MadeIn now nodes parent)
    (child : NodeId) (side : UInt8) (label : Bits) (shared : Nat) (below : Bits) :
    Keeps now (splitChild now entry parent child side label shared below) nodes fun _ _ => True := by
  refine .bind (keeps_push _) fun upper _ hk hupper => ?_
  replace h := h.kept hk
  refine .bind (keeps_writable now child (some upper)) fun lower _ hk hlower => ?_
  replace h := h.kept hk
  replace hupper := hupper.kept hk
  refine .bind (keeps_update hlower fun _ => rfl) fun _ _ hk _ => ?_
  replace h := h.kept hk
  replace hupper := hupper.kept hk
  refine .bind (keeps_rehash now lower) fun _ _ hk _ => ?_
  replace h := h.kept hk
  replace hupper := hupper.kept hk
  refine .bind (keeps_push _) fun leaf _ hk _ => ?_
  replace h := h.kept hk
  replace hupper := hupper.kept hk
  refine .bind (keeps_setChild hupper _ lower) fun _ _ hk _ => ?_
  replace h := h.kept hk
  replace hupper := hupper.kept hk
  refine .bind (keeps_setChild hupper _ leaf) fun _ _ hk _ => ?_
  replace h := h.kept hk
  refine .bind (keeps_rehash now upper) fun _ _ hk _ => ?_
  exact keeps_setChild (h.kept hk) side upper

/-- Inserting below a node made in `now` keeps the nodes of all other epochs. -/
theorem keeps_insertBelow (now : Nat) (key : Bits) (entry : ValueEntry) (fuel : Nat)
    {parent : NodeId} (h : MadeIn now nodes parent) (depth : Nat) :
    Keeps now (insertBelow now key entry fuel parent depth) nodes fun _ _ => True := by
  induction fuel generalizing parent nodes depth with
  | zero => exact keeps_throw _ _
  | succ fuel ih =>
    unfold insertBelow
    cases key.drop depth with
    | nil => exact keeps_throw _ _
    | cons side more =>
      refine .bind (keeps_read parent) fun node _ hk _ => ?_
      replace h := h.kept hk
      cases node.child side with
      | none =>
        refine .bind (keeps_push _) fun leaf _ hk _ => ?_
        replace h := h.kept hk
        refine .bind (keeps_setChild h side leaf) fun _ _ _ _ => ?_
        exact .bind (keeps_rehash now parent) fun _ _ _ _ => keeps_pure trivial
      | some child =>
        refine .bind (keeps_read child) fun below _ hk _ => ?_
        replace h := h.kept hk
        dsimp only
        split
        · split
          · exact keeps_throw _ _
          · refine .bind (keeps_splitChild entry h child side _ _ _) fun _ _ _ _ => ?_
            exact .bind (keeps_rehash now parent) fun _ _ _ _ => keeps_pure trivial
        · refine .bind (keeps_writable now child (some parent)) fun child _ hk hchild => ?_
          replace h := h.kept hk
          refine .bind (keeps_setChild h side child) fun _ _ hk _ => ?_
          replace hchild := hchild.kept hk
          refine .bind (keeps_read child) fun below _ hk _ => ?_
          replace hchild := hchild.kept hk
          cases below.content with
          | leaf values =>
            dsimp only
            split
            · refine .bind (keeps_update hchild fun _ => rfl) fun _ _ _ _ => ?_
              refine .bind (keeps_rehash now child) fun _ _ _ _ => ?_
              exact .bind (keeps_rehash now parent) fun _ _ _ _ => keeps_pure trivial
            · exact keeps_throw _ _
          | branch left right =>
            refine .bind (ih hchild _) fun _ _ _ _ => ?_
            exact .bind (keeps_rehash now parent) fun _ _ _ _ => keeps_pure trivial

end

end Edit

end KeyTransparency.PersistentTrie
