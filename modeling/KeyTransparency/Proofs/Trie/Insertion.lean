import KeyTransparency.Proofs.Trie.Stored

/-!
# Insertion into a stored tree

A `Site` is a place for a child below a branch.  `Hole` says that the arena holds the branch and what is
on its other side, `Grafted` that an edit made something of the child and hung it up there; rehashing
the branch then ends the insertion below it.

    parent stores t,  Sides t side x y,  x.insert entry (side :: more) = (x', ok isNew) →
      insertBelow … parent answers isNew,  parent stores fork t.label side x' y     (insertBelow_spec)
    currentRoot stores root,  root.insert entry key = (root', ok isNew) →
      trie.insert key entry = (trie', ok),  trie'.currentRoot stores root'               (insert_spec)
-/

namespace KeyTransparency.PersistentTrie

open Trie Subtree

/-! ## A branch without one of its children -/

section

variable {now : Nat} {nodes mid nodes' : Array VersionedNode} {id : NodeId} {t x y : Subtree}
  {ids : Set NodeId}

/-- A place for a child: the branch above it, the side, and the tree on the other side with the nodes
it lies on. -/
structure Site where
  branch : NodeId
  label : Bits
  side : UInt8
  other : Subtree
  ids : Set NodeId

def Site.all (site : Site) : Set NodeId := {site.branch} ∪ site.ids

/-- The arena holds all of `site`, and its branch, made in `now`, points to `c` there. -/
structure Hole (now : Nat) (nodes : Array VersionedNode) (site : Site) (c : Option NodeId) : Prop where
  branch : ∃ node o, nodes[site.branch]? = some node ∧ node.epoch = now ∧ node.next = none ∧
    node.label = site.label ∧ node.content = onSides site.side c o ∧
    Stored (Live now) nodes o site.other site.ids
  notMem : site.branch ∉ site.ids
  side : site.side = 0 ∨ site.side = 1

/-- A stored branch is a site on either side, with what is stored there. -/
theorem Stored.hole (h : Stored (Live now) nodes (some id) t ids) (hmade : MadeIn now nodes id)
    {side : UInt8} (hs : Sides t side x y) :
    ∃ c cs ds, Hole now nodes ⟨id, t.label, side, y, ds⟩ c ∧ Stored (Live now) nodes c x cs ∧
      Disjoint cs ({id} ∪ ds) ∧ ids = cs ∪ ({id} ∪ ds) := by
  obtain ⟨own, hown, hnow⟩ := hmade
  cases hs with
  | left =>
    cases h with
    | @branch _ node l r _ _ as bs hnode hok hcontent hl hr has hbs hdisj =>
      rw [hnode] at hown
      cases hown
      refine ⟨l, as, bs, ⟨⟨_, r, hnode, hnow, hok.2, rfl, hcontent, hr⟩, hbs, .inl rfl⟩, hl, ?_,
        Set.union_left_comm _ _ _⟩
      exact Set.disjoint_union_right.2 ⟨Set.disjoint_singleton_right.2 has, hdisj⟩
  | right =>
    cases h with
    | @branch _ node l r _ _ as bs hnode hok hcontent hl hr has hbs hdisj =>
      rw [hnode] at hown
      cases hown
      refine ⟨r, bs, as, ⟨⟨_, l, hnode, hnow, hok.2, rfl, hcontent, hl⟩, has, .inr rfl⟩, hr, ?_, ?_⟩
      · exact Set.disjoint_union_right.2 ⟨Set.disjoint_singleton_right.2 hbs, hdisj.symm⟩
      · rw [Set.union_comm as bs]
        exact Set.union_left_comm _ _ _

namespace Hole

variable {site : Site} {c : Option NodeId} {cs : Set NodeId}

theorem lt_size (h : Hole now nodes site c) : ∀ i ∈ site.all, i < nodes.size := by
  obtain ⟨⟨node, o, hnode, -, -, -, -, ho⟩, -, -⟩ := h
  rintro i (rfl | hi)
  · exact (Array.getElem?_eq_some_iff.1 hnode).1
  · exact ho.lt_size i hi

/-- What is written elsewhere does not touch the site. -/
theorem edited (h : Hole now nodes site c) (he : Edited nodes cs nodes')
    (hdisj : Disjoint cs site.all) : Hole now nodes' site c := by
  have hlt := h.lt_size _ (.inl rfl)
  obtain ⟨⟨node, o, hnode, hnow, hnext, hlabel, hcontent, ho⟩, hid, hside⟩ := h
  obtain ⟨hcs, hcsds⟩ := Set.disjoint_union_right.1 hdisj
  rw [Set.disjoint_singleton_right] at hcs
  refine ⟨⟨node, o, ?_, hnow, hnext, hlabel, hcontent, ho.edited he hcsds.symm⟩, hid, hside⟩
  rw [he.same _ hlt hcs, hnode]

/-- A tree on other nodes fills the hole. -/
theorem fill (h : Hole now nodes site c) (hx : Stored (Live now) nodes c x cs)
    (hdisj : Disjoint cs site.all) :
    ∃ t, Stored (Live now) nodes (some site.branch) t (cs ∪ site.all) ∧
      Sides t site.side x site.other ∧ t.label = site.label := by
  obtain ⟨id, label, side, y, ds⟩ := site
  obtain ⟨⟨node, o, hnode, hnow, hnext, rfl, hcontent, ho⟩, hid, hside⟩ := h
  obtain ⟨hcs, hcsds⟩ := Set.disjoint_union_right.1 hdisj
  rw [Set.disjoint_singleton_right] at hcs
  have hlive : Live now node := ⟨Nat.le_of_eq hnow, hnext⟩
  unfold Site.all
  rcases hside with rfl | rfl
  · refine ⟨.branch node.label x y node.hash, ?_, .left, rfl⟩
    rw [Set.union_left_comm]
    exact .branch hnode hlive hcontent hx ho hcs hid hcsds
  · refine ⟨.branch node.label y x node.hash, ?_, .right, rfl⟩
    rw [Set.union_left_comm, Set.union_comm cs ds]
    exact .branch hnode hlive hcontent ho hx hid hcs hcsds.symm

theorem made (h : Hole now nodes site c) : MadeIn now nodes site.branch := by
  obtain ⟨⟨node, o, hnode, hnow, -⟩, -, -⟩ := h
  exact ⟨node, hnode, hnow⟩

/-- The same branch seen from its other side. -/
theorem swap (h : Hole now nodes site c) (hx : Stored (Live now) nodes c x cs)
    (hid : site.branch ∉ cs) :
    ∃ o, Hole now nodes ⟨site.branch, site.label, 1 - site.side, x, cs⟩ o := by
  obtain ⟨id, label, side, y, ds⟩ := site
  obtain ⟨⟨node, o, hnode, hnow, hnext, hlabel, hcontent, ho⟩, -, hside⟩ := h
  have hcontent' : node.content = onSides (1 - side) o c := by
    rcases hside with rfl | rfl <;> exact hcontent
  have hside' : 1 - side = 0 ∨ 1 - side = 1 := by
    rcases hside with rfl | rfl <;> decide
  exact ⟨o, ⟨node, c, hnode, hnow, hnext, hlabel, hcontent', hx⟩, hid, hside'⟩

theorem setChild (h : Hole now nodes site c) (child : NodeId) :
    ∃ nodes', (Edit.setChild site.branch site.side child).run.run nodes = (.ok (), nodes') ∧
      Hole now nodes' site (some child) ∧ Edited nodes {site.branch} nodes' := by
  obtain ⟨id, label, side, y, ds⟩ := site
  obtain ⟨⟨node, o, hnode, hnow, hnext, hlabel, hcontent, ho⟩, hid, hside⟩ := h
  have hrun : (Edit.setChild id side child).run.run nodes =
      (.ok (), nodes.modify id ({ · with content := onSides side (some child) o })) := by
    unfold Edit.setChild
    rw [Edit.run_bind_ok (Edit.run_read_some hnode), hcontent]
    rcases hside with rfl | rfl <;> exact Edit.run_update _ _
  have hnode' := getElem?_modify_self hnode ({ · with content := onSides side (some child) o })
  exact ⟨_, hrun, ⟨⟨_, o, hnode', hnow, hnext, hlabel, rfl, ho.modified hid _⟩, hid, hside⟩,
    .modify nodes id _⟩

/-- The branch of a filled site is rehashed. -/
theorem rehash (h : Hole now nodes site c) (hx : Stored (Live now) nodes c x cs)
    (hdisj : Disjoint cs site.all) :
    ∃ nodes', (Edit.rehash now site.branch).run.run nodes = (.ok (), nodes') ∧
      Rewritten now nodes (cs ∪ site.all) nodes' site.branch
        (fork site.label site.side x site.other) (cs ∪ site.all) := by
  obtain ⟨t, ht, hsides, hlabel⟩ := h.fill hx hdisj
  obtain ⟨nodes', hrun, hre⟩ := Edit.rehash_spec ht h.made
  rw [hsides.rehash, hlabel] at hre
  exact ⟨nodes', hrun, hre⟩

theorem child (h : Hole now nodes site c) :
    ∃ node, nodes[site.branch]? = some node ∧ node.child site.side = c := by
  obtain ⟨id, label, side, y, ds⟩ := site
  obtain ⟨⟨node, o, hnode, -, -, -, hcontent, -⟩, -, hside⟩ := h
  refine ⟨node, hnode, ?_⟩
  unfold VersionedNode.child
  rw [hcontent]
  rcases hside with rfl | rfl <;> rfl

end Hole

/-! ## Insertion -/

/-- The child at `site` has become `x`, whose root `c` may be written in `now`. -/
structure Grafted (now : Nat) (nodes : Array VersionedNode) (site : Site) (cs : Set NodeId)
    (nodes' : Array VersionedNode) (c : NodeId) (x : Subtree) (cs' : Set NodeId) : Prop where
  hole : Hole now nodes' site (some c)
  child : Stored (Live now) nodes' (some c) x cs'
  made : MadeIn now nodes' c
  disjoint : Disjoint cs' site.all
  edited : Edited nodes (cs ∪ {site.branch}) nodes'
  within : cs' ⊆ region nodes cs

section

variable {site : Site} {c : Option NodeId} {cs cs₁ cs' : Set NodeId} {x' : Subtree}

/-- What was made of the child is hung up in its place. -/
theorem Hole.graft (h : Hole now nodes site c) (hdisj : Disjoint cs site.all)
    (hre : Rewritten now nodes cs mid id x cs') :
    ∃ nodes', (Edit.setChild site.branch site.side id).run.run mid = (.ok (), nodes') ∧
      Grafted now nodes site cs nodes' id x cs' ∧ Edited mid {site.branch} nodes' := by
  have hmid := h.edited hre.edited hdisj
  have hdisj' := disjoint_region h.lt_size hdisj hre.within
  obtain ⟨nodes', hrun, hhole, hedited⟩ := hmid.setChild id
  have hbranch := (Set.disjoint_union_right.1 hdisj').1
  refine ⟨nodes', hrun, ⟨hhole, hre.stored.edited hedited hbranch, ?_, hdisj', ?_, hre.within⟩, hedited⟩
  · exact hre.made.edited hedited (Set.disjoint_left.1 hbranch hre.stored.mem)
  · exact (hre.edited.mono Set.subset_union_left).trans hedited
      (Set.subset_union_right.trans (subset_region _ _))

theorem Grafted.rewrite (h : Grafted now nodes site cs mid id x cs₁)
    (hre : Rewritten now mid cs₁ nodes' id x' cs') : Grafted now nodes site cs nodes' id x' cs' where
  hole := h.hole.edited hre.edited h.disjoint
  child := hre.stored
  made := hre.made
  disjoint := disjoint_region h.hole.lt_size h.disjoint hre.within
  edited := h.edited.trans hre.edited fun _ hi => (h.within hi).imp_left .inl
  within := hre.within.trans (region_mono h.edited h.within)

/-- Rehashing the branch ends an insertion below it. -/
theorem Grafted.rehash (h : Grafted now nodes site cs mid id x cs') :
    ∃ nodes', (Edit.rehash now site.branch).run.run mid = (.ok (), nodes') ∧
      Rewritten now nodes (cs ∪ site.all) nodes' site.branch
        (fork site.label site.side x site.other) (cs' ∪ site.all) := by
  obtain ⟨nodes', hrun, hre⟩ := h.hole.rehash h.child h.disjoint
  have hwithin : cs' ∪ site.all ⊆ region nodes (cs ∪ site.all) := by
    rintro i (hi | hi)
    · exact (h.within hi).imp_left .inl
    · exact .inl (.inr hi)
  refine ⟨nodes', hrun, hre.stored, hre.made, ?_, hwithin⟩
  exact (h.edited.mono (Set.union_subset_union_right cs Set.subset_union_left)).trans hre.edited hwithin

theorem fork_swap {u : Bits} {b : UInt8} (hb : b = 0 ∨ b = 1) :
    fork u (1 - b) y x = fork u b x y := by
  rcases hb with rfl | rfl <;> rfl

namespace Edit

/-- Two trees are hung up below a branch that has no child, and it is rehashed. -/
theorem fork_spec {u : Bits} {b : UInt8} {l r : NodeId} {ds : Set NodeId}
    (h : Hole now nodes ⟨id, u, b, .vacant, ∅⟩ c)
    (hx : Rewritten now nodes cs nodes l x cs) (hy : Rewritten now nodes ds nodes r y ds)
    (hcs : id ∉ cs) (hds : id ∉ ds) (hdisj : Disjoint ds cs) :
    ∃ nodes₁ nodes₂ nodes₃, (setChild id b l).run.run nodes = (.ok (), nodes₁) ∧
      (setChild id (1 - b) r).run.run nodes₁ = (.ok (), nodes₂) ∧
      (rehash now id).run.run nodes₂ = (.ok (), nodes₃) ∧
      Rewritten now nodes (ds ∪ ({id} ∪ cs)) nodes₃ id (fork u b x y) (ds ∪ ({id} ∪ cs)) := by
  have hdisj₁ : Disjoint cs ({id} ∪ ∅) :=
    Set.disjoint_union_right.2 ⟨Set.disjoint_singleton_right.2 hcs, Set.disjoint_empty cs⟩
  obtain ⟨nodes₁, hrun₁, hgraft₁, hedited₁⟩ := h.graft hdisj₁ hx
  obtain ⟨o, hother⟩ := hgraft₁.hole.swap hgraft₁.child hcs
  have hy₁ : Rewritten now nodes₁ ds nodes₁ r y ds :=
    .refl (hy.stored.edited hedited₁ (Set.disjoint_singleton_right.2 hds))
      (hy.made.edited hedited₁ fun e => hds ((show r = id from e) ▸ hy.stored.mem))
  have hdisj₂ : Disjoint ds ({id} ∪ cs) :=
    Set.disjoint_union_right.2 ⟨Set.disjoint_singleton_right.2 hds, hdisj⟩
  obtain ⟨nodes₂, hrun₂, hgraft₂, -⟩ := hother.graft hdisj₂ hy₁
  obtain ⟨nodes₃, hrun₃, hre⟩ := hgraft₂.rehash
  refine ⟨nodes₁, nodes₂, nodes₃, hrun₁, hrun₂, hrun₃, fork_swap h.side ▸ hre.stored, hre.made, ?_,
    subset_region nodes _⟩
  have hid : {id} ⊆ ds ∪ ({id} ∪ cs) := Set.subset_union_left.trans Set.subset_union_right
  exact (hedited₁.mono hid).trans hre.edited (subset_region nodes _)

/-- Parting a child hangs up a new branch over the lower half and the new leaf. -/
theorem splitChild_spec {child : NodeId} (h : Hole now nodes site (some child))
    (hx : Stored (Live now) nodes (some child) x cs) (hdisj : Disjoint cs site.all)
    {u low : Bits} {b : UInt8} (hl : x.label = u ++ b :: low) (hb : b = 0 ∨ b = 1)
    (entry : ValueEntry) (below : Bits) :
    ∃ nodes' upper cs',
      (splitChild now entry site.branch child site.side x.label u.length below).run.run nodes =
        (.ok (), nodes') ∧
      Grafted now nodes site cs nodes' upper
        (fork u b (x.relabel (b :: low)) (ofLeaf below [entry])) cs' := by
  let upperNode : VersionedNode :=
    ⟨x.label.take u.length, .branch none none, Hash.zero, now, none, none, some site.branch⟩
  let nodes₁ := nodes.push upperNode
  have hupper : Hole now nodes₁ ⟨nodes.size, u, b, .vacant, ∅⟩ none := by
    refine ⟨⟨upperNode, none, getElem?_push_self nodes _, rfl, rfl, ?_, ?_, .vacant⟩, id, hb⟩
    · show x.label.take u.length = u
      rw [hl, List.take_left]
    · exact (ite_self _).symm
  -- The lower half, which is not the new branch.
  obtain ⟨lower, nodes₂, cs₂, hrun₂, hre₂⟩ := writable_spec (hx.pushed upperNode) (some nodes.size)
  obtain ⟨nodes₃, nodes₄, hrun₃, hrun₄, hre₄⟩ := relabel_spec hre₂.stored hre₂.made (b :: low)
  have hlower := hre₂.trans hre₄
  have hdisj₁ : Disjoint cs ({nodes.size} ∪ ∅) :=
    Set.disjoint_union_right.2 ⟨Set.disjoint_singleton_right.2 hx.notMem_size, Set.disjoint_empty cs⟩
  have hdisj₄ : Disjoint cs₂ ({nodes.size} ∪ ∅) := disjoint_region hupper.lt_size hdisj₁ hlower.within
  have hcs₂ : nodes.size ∉ cs₂ :=
    Set.disjoint_singleton_right.1 (Set.disjoint_union_right.1 hdisj₄).1
  -- The new leaf, which is neither.
  obtain ⟨nodes₅, hrun₅, hleaf⟩ := newLeaf_spec now nodes₄ below entry nodes.size
  have hlower₅ := hlower.elsewhere hleaf.edited (Set.disjoint_empty _) (Set.empty_subset _)
  have hsize : nodes.size < nodes₄.size :=
    Nat.lt_of_lt_of_le (Nat.lt_of_lt_of_eq (Nat.lt_succ_self _) (Array.size_push _).symm)
      hlower.edited.size_le
  obtain ⟨nodes₆, nodes₇, nodes₈, hrun₆, hrun₇, hrun₈, hfork⟩ :=
    fork_spec (hupper.edited hlower₅.edited hdisj₁) (.refl hlower₅.stored hlower₅.made)
      (.refl hleaf.stored hleaf.made) hcs₂ (Nat.ne_of_lt hsize)
      (Set.disjoint_singleton_left.2 hlower.stored.notMem_size)
  have hwithin : {nodes₄.size} ∪ ({nodes.size} ∪ cs₂) ⊆ region nodes cs := by
    rintro i (rfl | rfl | hi)
    · exact .inr (Nat.le_of_lt hsize)
    · exact .inr (Nat.le_refl _)
    · exact region_mono (Edited.push nodes upperNode) (subset_region nodes cs) (hlower.within hi)
  have hedited : Edited nodes cs nodes₈ := by
    refine Edited.trans ?_ hfork.edited hwithin
    refine ((Edited.push nodes upperNode).mono (Set.empty_subset cs)).trans hlower₅.edited ?_
    exact subset_region nodes cs
  obtain ⟨nodes₉, hrun₉, hgraft, -⟩ := h.graft hdisj ⟨hfork.stored, hfork.made, hedited, hwithin⟩
  refine ⟨nodes₉, nodes.size, _, ?_, hgraft⟩
  have hdrop : x.label.drop u.length = b :: low := by rw [hl, List.drop_left]
  unfold splitChild
  rw [run_bind_ok (run_push upperNode), run_bind_ok hrun₂, hdrop]
  dsimp only [List.headD_cons]
  rw [run_bind_ok hrun₃, run_bind_ok hrun₄, run_bind_ok hrun₅, run_bind_ok hrun₆,
    run_bind_ok hrun₇, run_bind_ok hrun₈]
  exact hrun₉

/-- **Insertion.**  Inserting below a stored branch that may be written does to the tree what
insertion does: the child on the side of the next bit takes the entry, and the branch is rehashed. -/
theorem insertBelow_spec (now : Nat) (key : Bits) (entry : ValueEntry) {fuel depth : Nat}
    {parent : NodeId} {side : UInt8} {more : Bits} {isNew : Bool}
    (h : Stored (Live now) nodes (some parent) t ids) (hmade : MadeIn now nodes parent)
    (hs : Sides t side x y) (hx : x = .vacant ∨ Grown side (more.length + 1) x)
    (hdrop : key.drop depth = side :: more) (hbits : Bits.WellFormed (side :: more))
    (hfuel : more.length < fuel) (hins : x.insert entry (side :: more) = (x', .ok isNew)) :
    ∃ nodes' ids', (insertBelow now key entry fuel parent depth).run.run nodes =
        (.ok isNew, nodes') ∧
      Rewritten now nodes ids nodes' parent (fork t.label side x' y) ids' := by
  induction fuel generalizing nodes parent depth side more t x y x' ids with
  | zero => exact absurd hfuel (Nat.not_lt_zero _)
  | succ fuel ih =>
    obtain ⟨c, cs, ds, hhole, hchild, hdisj, rfl⟩ := h.hole hmade hs
    obtain ⟨node, hnode, hc⟩ : ∃ node, nodes[parent]? = some node ∧ node.child side = c :=
      hhole.child
    -- Whatever became of the child, rehashing the branch ends the insertion.
    have hfinish {mid : Array VersionedNode} {c : NodeId} {cs' : Set NodeId}
        (hgraft : Grafted now nodes ⟨parent, t.label, side, y, ds⟩ cs mid c x' cs') :
        ∃ nodes' ids', (do rehash now parent; pure isNew : Edit Bool).run.run mid =
            (.ok isNew, nodes') ∧
          Rewritten now nodes (cs ∪ ({parent} ∪ ds)) nodes' parent (fork t.label side x' y) ids' := by
      obtain ⟨nodes', hrun, hre⟩ := hgraft.rehash
      exact ⟨nodes', _, run_bind_ok hrun, hre⟩
    unfold insertBelow
    rw [hdrop]
    dsimp only
    rw [run_bind_ok (run_read_some hnode), hc]
    rcases hx with rfl | hx
    · cases hchild with
      | vacant =>
        cases hins
        obtain ⟨mid, hrun, hleaf⟩ := newLeaf_spec now nodes (side :: more) entry parent
        obtain ⟨nodes₁, hset, hgraft, -⟩ := hhole.graft (Set.empty_disjoint _) hleaf
        rw [run_bind_ok hrun, run_bind_ok hset]
        exact hfinish hgraft
    obtain ⟨child, rfl⟩ := hchild.exists_id hx.ne_vacant
    obtain ⟨below, hbelow, -, hlabel, -, -⟩ := hchild.root
    dsimp only
    rw [run_bind_ok (run_read_some hbelow), hlabel]
    by_cases hp : x.label <+: side :: more
    · -- The key follows the child's label: the child is made writable and takes the entry.
      rw [if_neg (fun hlt => Bits.commonPrefix_lt_length_iff.1 hlt hp)]
      obtain ⟨child', nodes₁, cs₁, hrun₁, hre₁⟩ := writable_spec hchild (some parent)
      obtain ⟨nodes₂, hrun₂, hgraft, -⟩ := hhole.graft hdisj hre₁
      rw [run_bind_ok hrun₁, run_bind_ok hrun₂]
      cases x with
      | vacant => exact absurd rfl hx.ne_vacant
      | leaf label values hash =>
        obtain rfl := hx.eq_label rfl hp
        have hlen : depth + (leaf (side :: more) values hash).label.length = key.length := by
          have hdropped := congrArg List.length hdrop
          rw [List.length_drop, List.length_cons] at hdropped
          rw [Subtree.label, List.length_cons]
          omega
        simp only [Subtree.insert, List.isPrefixOf_iff_prefix, List.prefix_rfl, if_true,
          List.drop_length] at hins
        cases hins
        obtain ⟨_, hnode₂, hcontent⟩ := hgraft.child.leaf_content
        obtain ⟨nodes₃, nodes₄, hrun₃, hrun₄, hre₄⟩ := append_spec hgraft.child hgraft.made entry
        rw [run_bind_ok (run_read_some hnode₂), hcontent]
        dsimp only
        rw [if_pos hlen, run_bind_ok hrun₃, run_bind_ok hrun₄]
        exact hfinish (hgraft.rewrite hre₄)
      | branch label left right hash =>
        obtain ⟨s, rest, z, w, hrest, hrestBits, hsides, hz, -⟩ := hx.exists_sides hbits rfl hp
        have hdrop' : key.drop (depth + (branch label left right hash).label.length) = s :: rest := by
          rw [Subtree.label, ← List.drop_drop, hdrop, hrest, List.drop_left]
        have hfuel' : rest.length < fuel := by
          have hlen := congrArg List.length hrest
          rw [List.length_cons, List.length_append, List.length_cons] at hlen
          have hpos : 0 < label.length := hx.label_pos
          omega
        rcases hzi : z.insert entry (s :: rest) with ⟨z', added⟩
        have hins' := hsides.insert hzi
        rw [Subtree.label, ← hrest, hins] at hins'
        cases hins'
        obtain ⟨_, _, _, hnode₂, hcontent⟩ := hgraft.child.branch_content
        obtain ⟨nodes₃, ids', hrun₃, hre₃⟩ :=
          ih hgraft.child hgraft.made hsides (.inr hz) hdrop' hrestBits hfuel' hzi
        rw [run_bind_ok (run_read_some hnode₂), hcontent]
        dsimp only
        rw [run_bind_ok hrun₃]
        exact hfinish (hgraft.rewrite hre₃)
    · -- The key leaves the child's label.
      rw [if_pos (Bits.commonPrefix_lt_length_iff.2 hp)]
      obtain ⟨u, a, rest, b, low, hkey, hl, -, hshared⟩ := Bits.exists_parting hp hx.label_length_le
      rw [hshared, hkey, List.drop_left]
      rw [insert_eq_split hx.ne_vacant hp, hkey,
        split_eq hx.ne_vacant hl (hkey ▸ hshared) entry] at hins
      cases hins
      have hb : b = 0 ∨ b = 1 := (Bits.WellFormed.append_iff.1 (hl ▸ hx.wellFormed)).2.head
      obtain ⟨nodes₁, upper, cs', hrun, hgraft⟩ :=
        splitChild_spec hhole hchild hdisj hl hb entry (a :: rest)
      dsimp only
      rw [run_bind_ok hrun]
      exact hfinish hgraft

end Edit

end

end

/-! ## Insertion into the current version -/

theorem checkKey_eq_ok {trie : PersistentTrie} {key : Bits} (hn : trie.keyLength = some key.length)
    (hkey : key ≠ []) : trie.checkKey key = .ok () := by
  unfold checkKey
  rw [hn]
  simp [hkey]

theorem checkKey_eq_error {trie : PersistentTrie} {n : Nat} {key : Bits}
    (hn : trie.keyLength = some n) (hkey : ¬ (key.length = n ∧ key ≠ [])) :
    ∃ e, trie.checkKey key = .error e := by
  unfold checkKey
  rw [hn]
  by_cases hlen : n = key.length
  · have hnil : key = [] := by
      by_contra hne
      exact hkey ⟨hlen.symm, hne⟩
    exact ⟨.keyLength 1 0, by simp [hlen, hnil]⟩
  · exact ⟨_, if_pos hlen⟩

/-- Insertion does to the stored root what it does to the tree, and keeps the other epochs. -/
theorem insert_spec {trie : PersistentTrie} {root root' : Subtree} {ids : Set NodeId} {key : Bits}
    {isNew : Bool} (hn : trie.keyLength = some key.length)
    (h : Stored (Live trie.epoch) trie.nodes (some trie.currentRoot) root ids)
    (hroot : Rooted key.length root) (hkey : key ≠ []) (hbits : key.WellFormed) {entry : ValueEntry}
    (hins : root.insert entry key = (root', .ok isNew)) :
    ∃ nodes currentRoot ids', trie.insert key entry =
        ({ trie with nodes, currentRoot, size := if isNew then trie.size + 1 else trie.size },
          .ok ()) ∧
      Stored (Live trie.epoch) nodes (some currentRoot) root' ids' ∧
      Kept trie.epoch trie.nodes nodes := by
  obtain ⟨id, mid, ids₁, hrun₁, hre₁⟩ := Edit.writable_spec h none
  have hkept₁ := (Edit.keeps_writable trie.epoch trie.currentRoot none _ _ hrun₁).1
  obtain ⟨side, more, rfl⟩ := List.exists_cons_of_ne_nil hkey
  obtain ⟨x, y, hs⟩ := hroot.exists_sides hbits.head
  obtain ⟨hlabel, hx⟩ := hs.hung hroot
  rcases hxi : x.insert entry (side :: more) with ⟨x', added⟩
  have hins' := hs.insert hxi
  rw [hlabel, List.nil_append, hins] at hins'
  cases hins'
  have hfuel : more.length < (trie.nodes.size + 1) * ((side :: more).length + 1) :=
    Nat.lt_of_lt_of_le (Nat.lt_succ_of_lt (Nat.lt_succ_self _))
      (Nat.le_mul_of_pos_left _ (Nat.succ_pos _))
  obtain ⟨nodes, ids', hrun, hre⟩ :=
    Edit.insertBelow_spec trie.epoch (side :: more) entry hre₁.stored hre₁.made hs hx
      List.drop_zero hbits hfuel hxi
  have hkept := (Edit.keeps_insertBelow trie.epoch _ entry _ hre₁.made 0 _ _ hrun).1
  refine ⟨nodes, id, ids', ?_, hlabel ▸ hre.stored, hkept₁.trans hkept⟩
  unfold insert
  rw [checkKey_eq_ok hn hkey]
  dsimp only
  rw [hrun₁]
  dsimp only
  rw [hrun, hn]
  rfl

end KeyTransparency.PersistentTrie
