import KeyTransparency.Proofs.Trie.Relinking

/-!
# Edits keep the links of an arena

`Coherent now nodes` says that the arena is tidy and its links are woven.  Every edit keeps it, whatever
the key, also one that stops half-way: a split may leave an edge loose only where it cannot stop any
more (`Edit.ends_join`).

    Edit.weaves_insertBelow :  parent made in now → Weaves now (insertBelow … parent depth) nodes
    coherent_run :             Coherent trie.epoch trie.nodes, for trie = (empty keyLength).run steps
-/

namespace KeyTransparency.PersistentTrie

/-! ## Edits that go through -/

namespace Edit

/-- `edit` goes through and leaves all as `post`. -/
def Ends {α : Type} (edit : Edit α) (nodes : Array VersionedNode)
    (post : α → Array VersionedNode → Prop) : Prop :=
  ∃ a nodes', edit.run.run nodes = (.ok a, nodes') ∧ post a nodes'

theorem Ends.bind {α β : Type} {nodes : Array VersionedNode} {x : Edit α} {f : α → Edit β}
    {post : α → Array VersionedNode → Prop} {post' : β → Array VersionedNode → Prop}
    (hx : Ends x nodes post) (hf : ∀ a mid, post a mid → Ends (f a) mid post') :
    Ends (x >>= f) nodes post' := by
  obtain ⟨a, mid, hrun, ha⟩ := hx
  obtain ⟨b, nodes', hrun', hb⟩ := hf a mid ha
  exact ⟨b, nodes', (run_bind_ok hrun).trans hrun', hb⟩

/-- A tidy arena with the links `w`. -/
structure Drawn (now : Nat) (w : Weave) (nodes : Array VersionedNode) : Prop where
  tidy : Tidy now nodes
  weave_eq : weave nodes = w

section

variable {now : Nat} {nodes : Array VersionedNode} {w : Weave} {id parent child : NodeId} {l : Links}

theorem Drawn.madeIn (h : Drawn now w nodes) (hid : w id = some l) (hnow : l.epoch = now) :
    MadeIn now nodes id := by
  obtain ⟨node, hnode, rfl⟩ := exists_of_weave ((congrFun h.weave_eq id).trans hid)
  exact ⟨node, hnode, hnow⟩

theorem Drawn.lt_size (h : Drawn now w nodes) (hid : w id = some l) : id < nodes.size := by
  obtain ⟨node, hnode, -⟩ := exists_of_weave ((congrFun h.weave_eq id).trans hid)
  exact lt_size_of_getElem? hnode

theorem ends_relabel (h : Drawn now w nodes) (hid : w id = some l) (hnow : l.epoch = now)
    (label : Bits) : Ends (update id ({ · with label })) nodes fun _ => Drawn now w := by
  have hmade := h.madeIn hid hnow
  obtain ⟨node, hnode, -⟩ := exists_of_weave ((congrFun h.weave_eq id).trans hid)
  have hrun : (update id ({ · with label })).run.run nodes = _ := run_update id _
  have htidies : Tidies now (update id ({ · with label })) nodes fun _ _ => True :=
    tidies_update h.tidy hmade (fun _ => rfl) fun node hnode => (h.tidy id node hnode).stamp label node.hash
  exact ⟨(), _, hrun, (htidies _ _ hrun).2.1, (weave_stamp hnode rfl).trans h.weave_eq⟩

theorem ends_rehash (h : Drawn now w nodes) (hid : w id = some l) (hnow : l.epoch = now) :
    Ends (rehash now id) nodes fun _ => Drawn now w := by
  obtain ⟨nodes', hrun⟩ := run_rehash h.tidy (h.madeIn hid hnow)
  exact ⟨(), nodes', hrun, (tidies_rehash h.tidy id _ _ hrun).2.1, (weave_rehash hrun).trans h.weave_eq⟩

theorem ends_newLeaf (h : Drawn now w nodes) (hparent : w parent = some l) (label : Bits)
    (entry : ValueEntry) :
    Ends (newLeaf now label entry parent) nodes fun leaf nodes' =>
      w leaf = none ∧ ∃ m : Links, m.Single ∧ m.parent = some parent ∧
        Drawn now (w.set leaf m) nodes' := by
  obtain ⟨own, hsingle, hnamed, hrun, hweave⟩ := run_newLeaf now nodes label entry parent
  have htidies := tidies_newLeaf h.tidy label entry (h.lt_size hparent)
  rw [h.weave_eq] at hweave
  refine ⟨_, _, hrun, ?_, links own, hsingle, hnamed, (htidies _ _ hrun).2.1, hweave⟩
  rw [← h.weave_eq, weave_size]

theorem ends_setChild (h : Drawn now w nodes) (hparent : w parent = some l) (hopen : l.OpenIn now)
    (side : UInt8) {m : Links} (hchild : w child = some m) :
    Ends (setChild parent side child) nodes fun _ =>
      Drawn now (w.set parent (l.withChild side child)) := by
  obtain ⟨nodes', hrun, hweave⟩ :=
    run_setChild ((congrFun h.weave_eq parent).trans hparent) hopen.isBranch side child
  have htidies := tidies_setChild h.tidy (h.madeIn hparent hopen.epoch) side (h.lt_size hchild)
  rw [h.weave_eq] at hweave
  exact ⟨(), nodes', hrun, (htidies _ _ hrun).2.1, hweave⟩

/-- Once there is a version of the child to write to, a split goes through. -/
theorem ends_join {upper lower : NodeId} {above mid : Links} {side : UInt8} (h : Drawn now w nodes)
    (hw : Woven (fun i child => i = parent ∧ child = lower) w)
    (hp : Woven.Parting now w parent upper lower side above mid) (entry : ValueEntry)
    (lowerLabel below : Bits) (lowerSide : UInt8) :
    Ends (do
        update lower ({ · with label := lowerLabel })
        rehash now lower
        let leaf ← newLeaf now below entry upper
        setChild upper lowerSide lower
        setChild upper (1 - lowerSide) leaf
        rehash now upper
        setChild parent side upper)
      nodes fun _ nodes' => Woven Tight (weave nodes') := by
  obtain ⟨low, hlow, hlowNow, -⟩ := hp.atLower
  refine .bind (ends_relabel h hlow hlowNow lowerLabel) fun _ _ h => ?_
  refine .bind (ends_rehash h hlow hlowNow) fun _ _ h => ?_
  refine .bind (ends_newLeaf h hp.atUpper below entry) fun leaf _ hpushed => ?_
  obtain ⟨hn, own, hsingle, hnamed, h⟩ := hpushed
  refine .bind (ends_setChild h (Weave.set_fresh hn hp.atUpper) hp.mid_open lowerSide
    (Weave.set_fresh hn hlow)) fun _ _ h => ?_
  have hopen := hp.mid_open.withChild lowerSide lower
  have hleaf : ((w.set leaf own).set upper (mid.withChild lowerSide lower)) leaf = some own := by
    rw [Weave.set_of_ne (Weave.ne_of_eq_some hn hp.atUpper).symm, Weave.set_self]
  refine .bind (ends_setChild h Weave.set_self hopen (1 - lowerSide) hleaf) fun _ _ h => ?_
  replace hopen := hopen.withChild (1 - lowerSide) leaf
  refine .bind (ends_rehash h Weave.set_self hopen.epoch) fun _ _ h => ?_
  have habove : (((w.set leaf own).set upper (mid.withChild lowerSide lower)).set upper
      ((mid.withChild lowerSide lower).withChild (1 - lowerSide) leaf)) parent = some above := by
    rw [Weave.set_of_ne hp.upper_ne.symm, Weave.set_of_ne hp.upper_ne.symm,
      Weave.set_fresh hn hp.atParent]
  obtain ⟨_, nodes', hrun, hlast⟩ := ends_setChild h habove hp.above_open side Weave.set_self
  refine ⟨(), nodes', hrun, ?_⟩
  show Woven Tight (weave nodes')
  rw [hlast.weave_eq]
  exact hw.join hp hn hsingle hnamed

end

end Edit

/-! ## Edits keep the links -/

/-- What every edit keeps of an arena. -/
structure Coherent (now : Nat) (nodes : Array VersionedNode) : Prop where
  tidy : Tidy now nodes
  woven : Woven Tight (weave nodes)

section

variable {now : Nat} {nodes : Array VersionedNode} {id p i : NodeId}

/-- A node made in `now` is a child of at most one node. -/
theorem Coherent.eq_of_leads (hc : Coherent now nodes) (h : MadeIn now nodes id)
    (hp : Leads nodes p id) (hi : Leads nodes i id) : i = p := by
  obtain ⟨own, hown, hnow⟩ := h
  -- a parent is as young as the child, and nothing is younger
  have hepoch {q : NodeId} (hq : Leads nodes q id) : ∃ node, nodes[q]? = some node ∧ node.epoch = now := by
    obtain ⟨node, side, hnode, hchild⟩ := hq
    have hfits := hc.tidy q node hnode
    obtain ⟨child, hid, hle⟩ := hfits.child hchild
    rw [hown] at hid
    cases hid
    exact ⟨node, hnode, Nat.le_antisymm hfits.epoch_le (hnow ▸ hle)⟩
  obtain ⟨node, hnode, hpnow⟩ := hepoch hp
  obtain ⟨node', hnode', hinow⟩ := hepoch hi
  rw [leads_iff] at hp hi
  exact hc.woven.eq_of_akin (hc.woven.akin_of_leads hi hp) (weave_eq_some hnode')
    (weave_eq_some hnode) (hinow.trans hpnow.symm)

end

namespace Edit

/-- Whatever `edit` answers, it writes in `now` only and leaves a coherent arena; if it goes through, its
answer is as `post`. -/
def Weaves {α : Type} (now : Nat) (edit : Edit α) (nodes : Array VersionedNode)
    (post : α → Array VersionedNode → Prop) : Prop :=
  ∀ answer nodes', edit.run.run nodes = (answer, nodes') →
    Kept now nodes nodes' ∧ Coherent now nodes' ∧ ∀ a, answer = .ok a → post a nodes'

section

variable {α β : Type} {now : Nat} {nodes : Array VersionedNode} {id parent child : NodeId}
  {side : UInt8}

theorem Weaves.bind {x : Edit α} {f : α → Edit β} {post : α → Array VersionedNode → Prop}
    {post' : β → Array VersionedNode → Prop} (hx : Weaves now x nodes post)
    (hf : ∀ a mid, Kept now nodes mid → Coherent now mid → post a mid → Weaves now (f a) mid post') :
    Weaves now (x >>= f) nodes post' := by
  intro answer nodes' h
  rw [run_bind] at h
  rcases hrun : x.run.run nodes with ⟨first, mid⟩
  obtain ⟨hmid, hcoherent, hpost⟩ := hx first mid hrun
  rw [hrun] at h
  cases first with
  | error fault =>
    cases h
    exact ⟨hmid, hcoherent, fun _ ha => nomatch ha⟩
  | ok a =>
    obtain ⟨hlast, hcoherent', hpost'⟩ := hf a mid hmid hcoherent (hpost a rfl) answer nodes' h
    exact ⟨hmid.trans hlast, hcoherent', hpost'⟩

theorem Tidies.weaves {edit : Edit α} {post : α → Array VersionedNode → Prop}
    (h : Tidies now edit nodes post)
    (hwoven : ∀ answer nodes', edit.run.run nodes = (answer, nodes') → Woven Tight (weave nodes')) :
    Weaves now edit nodes post := by
  intro answer nodes' hrun
  obtain ⟨hkept, htidy, hpost⟩ := h answer nodes' hrun
  exact ⟨hkept, ⟨htidy, hwoven answer nodes' hrun⟩, hpost⟩

/-- An edit that does not touch the links. -/
theorem Tidies.weaves_of_same {edit : Edit α} {post : α → Array VersionedNode → Prop}
    (h : Tidies now edit nodes post) (hc : Coherent now nodes)
    (hsame : ∀ answer nodes', edit.run.run nodes = (answer, nodes') → weave nodes' = weave nodes) :
    Weaves now edit nodes post :=
  h.weaves fun answer nodes' hrun => hsame answer nodes' hrun ▸ hc.woven

theorem weaves_pure (hc : Coherent now nodes) {a : α} {post : α → Array VersionedNode → Prop}
    (h : post a nodes) : Weaves now (pure a) nodes post :=
  (tidies_pure hc.tidy h).weaves_of_same hc fun _ _ hrun => by cases hrun; rfl

theorem weaves_throw (hc : Coherent now nodes) (fault : StructureFault)
    (post : α → Array VersionedNode → Prop) : Weaves now (throw fault) nodes post :=
  (tidies_throw hc.tidy fault post).weaves_of_same hc fun _ _ hrun => by cases hrun; rfl

theorem weaves_read (hc : Coherent now nodes) (id : NodeId) :
    Weaves now (read id) nodes fun node nodes' => nodes'[id]? = some node ∧ nodes' = nodes := by
  intro answer nodes' hrun
  obtain ⟨hkept, htidy, hpost⟩ := tidies_read hc.tidy id answer nodes' hrun
  have hsame : nodes' = nodes := by
    rw [run_read] at hrun
    split at hrun <;> cases hrun <;> rfl
  subst hsame
  exact ⟨hkept, hc, fun node hnode => ⟨hpost node hnode, rfl⟩⟩

theorem weaves_rehash (hc : Coherent now nodes) (id : NodeId) :
    Weaves now (rehash now id) nodes fun _ _ => True :=
  (tidies_rehash hc.tidy id).weaves_of_same hc fun _ _ hrun => weave_rehash hrun

theorem weaves_newLeaf (hc : Coherent now nodes) (label : Bits) (entry : ValueEntry)
    (hparent : parent < nodes.size) :
    Weaves now (newLeaf now label entry parent) nodes fun leaf nodes' =>
      leaf = nodes.size ∧ ∃ l : Links, l.parent = some parent ∧
        weave nodes' = (weave nodes).set leaf l := by
  intro answer nodes' hrun
  obtain ⟨leaf, hsingle, hnamed, hrun', hweave⟩ := run_newLeaf now nodes label entry parent
  rw [hrun'] at hrun
  cases hrun
  obtain ⟨hkept, htidy, -⟩ := tidies_newLeaf hc.tidy label entry hparent _ _ hrun'
  refine ⟨hkept, ⟨htidy, ?_⟩, fun a ha => ?_⟩
  · rw [hweave]
    exact hc.woven.push (weave_size nodes) hsingle
  · cases ha
    exact ⟨rfl, _, hnamed, hweave⟩

theorem weaves_setChild (hc : Coherent now nodes) (h : MadeIn now nodes parent)
    (hnamed : ∃ l, weave nodes child = some l ∧ l.parent = some parent)
    (hother : ∀ l, weave nodes parent = some l → l.other side ≠ some child) :
    Weaves now (setChild parent side child) nodes fun _ _ => True := by
  obtain ⟨own, hown, hparent⟩ := hnamed
  obtain ⟨node, hnode, -⟩ := exists_of_weave hown
  refine (tidies_setChild hc.tidy h side (lt_size_of_getElem? hnode)).weaves fun answer nodes' hrun => ?_
  rcases run_setChild_cases hrun with ⟨fault, -, rfl⟩ | ⟨l, hl, hweave⟩
  · exact hc.woven
  · rw [hweave]
    exact hc.woven.adopt side hl hown hparent (hother l hl)

/-- Values that are added change no links. -/
theorem weaves_append (hc : Coherent now nodes) (h : MadeIn now nodes id) {node : VersionedNode}
    {values : List ValueEntry} (hnode : nodes[id]? = some node) (hcontent : node.content = .leaf values)
    (entry : ValueEntry) :
    Weaves now (update id ({ · with content := .leaf (values ++ [entry]) })) nodes fun _ _ => True := by
  refine Tidies.weaves_of_same ?_ hc fun answer nodes' hrun => ?_
  · exact tidies_update hc.tidy h (fun _ => rfl) fun node hnode => (hc.tidy id node hnode).withValues _
  · cases hrun
    refine weave_stamp hnode ?_
    unfold links VersionedNode.child
    rw [hcontent]

/-- The branch that a split puts in, still without children. -/
def upperHalf (now : Nat) (label : Bits) (parent : NodeId) : VersionedNode :=
  ⟨label, .branch none none, Hash.zero, now, none, none, some parent⟩

/-- Between a branch and its child on one side a new branch is put. -/
theorem weaves_splitChild (hc : Coherent now nodes) (entry : ValueEntry) (h : MadeIn now nodes parent)
    {node : VersionedNode} (hnode : nodes[parent]? = some node) (hside : node.child side = some child)
    (label : Bits) (shared : Nat) (below : Bits) :
    Weaves now (splitChild now entry parent child side label shared below) nodes fun _ _ => True := by
  refine (tidies_splitChild hc.tidy entry h child side label shared below).weaves
    fun answer nodes' hrun => ?_
  have hpush : (push (upperHalf now (label.take shared) parent)).run.run nodes = _ := run_push _
  replace hrun := (run_bind_ok hpush).symm.trans hrun
  have hsingle : (links (upperHalf now (label.take shared) parent)).Single := ⟨rfl, rfl, rfl, rfl⟩
  have hweave := weave_push nodes (upperHalf now (label.take shared) parent)
  have hmid : Coherent now (nodes.push (upperHalf now (label.take shared) parent)) := by
    refine ⟨hc.tidy.push (.fresh (.inr rfl) h.lt_size), ?_⟩
    rw [hweave]
    exact hc.woven.push (weave_size nodes) hsingle
  have hupper : nodes.size < (nodes.push (upperHalf now (label.take shared) parent)).size := by simp
  generalize nodes.push (upperHalf now (label.take shared) parent) = mid at hrun hweave hmid hupper
  have habove := openIn_of_child h hnode hside
  have hbelow : Leads mid parent child := by
    obtain ⟨l, hl, hchild⟩ := leads_iff.1 ⟨node, side, hnode, hside⟩
    rw [leads_iff, hweave]
    exact ⟨l, Weave.set_fresh (weave_size nodes) hl, hchild⟩
  rw [run_bind] at hrun
  rcases hopen : (writable now child (some nodes.size)).run.run mid with ⟨fault | lower, rest⟩
  · rw [hopen] at hrun
    cases hrun
    rcases run_writable hopen with ⟨_, -, rfl⟩ | ⟨_, hok, -⟩
    · exact hmid.woven
    · cases hok
  · rw [hopen] at hrun
    rcases run_writable hopen with ⟨_, herror, -⟩ | ⟨_, hok, hopened⟩
    · cases herror
    cases hok
    have htidy := tidies_writable hmid.tidy child (some nodes.size)
      (fun _ hp => Option.some.inj hp ▸ hupper) _ _ hopen
    have hwoven : Woven (fun i c => i = parent ∧ c = lower) (weave rest) := by
      refine hopened.woven hmid.woven fun l _ hlower hl hnow _ i hi => .inl ⟨?_, hlower.symm⟩
      obtain ⟨own, hown, rfl⟩ := exists_of_weave hl
      exact hmid.eq_of_leads ⟨own, hown, hnow⟩ hbelow (leads_iff.2 hi)
    have hsize := weave_size mid
    rw [hweave] at hopened hsize
    rw [child_eq] at hside
    obtain ⟨above, hparting⟩ := hopened.parting hc.woven (weave_size nodes) hsize ⟨rfl, rfl⟩ hsingle rfl
      (weave_eq_some hnode) habove hside
    obtain ⟨_, last, hrun', hlast⟩ := ends_join ⟨htidy.2.1, rfl⟩ hwoven hparting entry
      (label.drop shared) below ((label.drop shared).headD 0)
    replace hrun := hrun'.symm.trans hrun
    cases hrun
    exact hlast

/-- The version of a root that is written to names no parent. -/
theorem weaves_root (hc : Coherent now nodes) (id : NodeId) :
    Weaves now (writable now id none) nodes fun root nodes' => MadeIn now nodes' root := by
  refine (tidies_writable hc.tidy id none nofun).weaves fun answer nodes' hrun => ?_
  rcases run_writable hrun with ⟨_, -, rfl⟩ | ⟨lower, -, hopened⟩
  · exact hc.woven
  · exact hopened.woven hc.woven fun _ _ _ _ _ hp => nomatch hp

/-- The version of a child that is opened under its parent names it, and may be put in the child's place. -/
theorem weaves_writable (hc : Coherent now nodes) (h : MadeIn now nodes parent) {node : VersionedNode}
    (hnode : nodes[parent]? = some node) (hside : node.child side = some child) :
    Weaves now (writable now child (some parent)) nodes fun lower nodes' =>
      MadeIn now nodes' lower ∧ (∃ l, weave nodes' lower = some l ∧ l.parent = some parent) ∧
        ∀ l, weave nodes' parent = some l → l.other side ≠ some lower := by
  intro answer nodes' hrun
  obtain ⟨hkept, htidy, hmade⟩ := tidies_writable hc.tidy child (some parent)
    (fun _ hp => Option.some.inj hp ▸ h.lt_size) answer nodes' hrun
  rcases run_writable hrun with ⟨_, rfl, rfl⟩ | ⟨lower, rfl, hopened⟩
  · exact ⟨hkept, hc, nofun⟩
  · have hbelow : (weave nodes).Leads parent child := leads_iff.1 ⟨node, side, hnode, hside⟩
    refine ⟨hkept, ⟨htidy, hopened.woven hc.woven fun _ p _ _ _ hp i hi => .inr ?_⟩, fun a ha => ?_⟩
    · cases hp
      exact hc.woven.akin_of_leads hbelow hi
    · cases ha
      obtain ⟨l, hl, -, hparent⟩ := hopened.named
      rw [child_eq] at hside
      exact ⟨hmade lower rfl, ⟨l, hl, hparent⟩, fun l hl =>
        hopened.other_ne hc.woven (weave_size nodes) (weave_eq_some hnode) hside hl⟩

/-- Inserting below a node made in `now` keeps the links of an arena, whatever the key. -/
theorem weaves_insertBelow (hc : Coherent now nodes) (key : Bits) (entry : ValueEntry) (fuel : Nat)
    (h : MadeIn now nodes parent) (depth : Nat) :
    Weaves now (insertBelow now key entry fuel parent depth) nodes fun _ _ => True := by
  induction fuel generalizing parent nodes depth with
  | zero => exact weaves_throw hc _ _
  | succ fuel ih =>
    unfold insertBelow
    cases key.drop depth with
    | nil => exact weaves_throw hc _ _
    | cons side more =>
      refine .bind (weaves_read hc parent) fun node _ _ _ hread => ?_
      obtain ⟨hnode, rfl⟩ := hread
      cases hside : node.child side with
      | none =>
        refine .bind (weaves_newLeaf hc _ _ h.lt_size) fun leaf mid hk hc' hpushed => ?_
        obtain ⟨hleaf, l, hnamed, hweave⟩ := hpushed
        have hnew : weave mid leaf = some l := by rw [hweave, Weave.set_self]
        refine .bind (weaves_setChild hc' (h.kept hk) ⟨l, hnew, hnamed⟩ fun above habove hother => ?_)
          fun _ _ _ hc _ => ?_
        · -- a child that was there before is not the new leaf
          subst hleaf
          rw [hweave, Weave.set_of_ne (Nat.ne_of_lt h.lt_size)] at habove
          obtain ⟨own, hown, -⟩ := hc.woven.parent ⟨above, habove, .of_other hother⟩
          rw [weave_size] at hown
          cases hown
        · exact .bind (weaves_rehash hc parent) fun _ _ _ hc _ => weaves_pure hc trivial
      | some child =>
        refine .bind (weaves_read hc child) fun below _ _ _ hread => ?_
        obtain ⟨-, rfl⟩ := hread
        dsimp only
        split
        · split
          · exact weaves_throw hc _ _
          · refine .bind (weaves_splitChild hc entry h hnode hside _ _ _) fun _ _ _ hc _ => ?_
            exact .bind (weaves_rehash hc parent) fun _ _ _ hc _ => weaves_pure hc trivial
        · refine .bind (weaves_writable hc h hnode hside) fun child _ hk hc hopened => ?_
          obtain ⟨hchild, hnamed, hother⟩ := hopened
          replace h := h.kept hk
          refine .bind (weaves_setChild hc h hnamed hother) fun _ _ hk hc _ => ?_
          replace hchild := hchild.kept hk
          refine .bind (weaves_read hc child) fun below _ _ _ hread => ?_
          obtain ⟨hbelow, rfl⟩ := hread
          cases hcontent : below.content with
          | leaf values =>
            dsimp only
            split
            · refine .bind (weaves_append hc hchild hbelow hcontent entry) fun _ _ _ hc _ => ?_
              refine .bind (weaves_rehash hc child) fun _ _ _ hc _ => ?_
              exact .bind (weaves_rehash hc parent) fun _ _ _ hc _ => weaves_pure hc trivial
            · exact weaves_throw hc _ _
          | branch left right =>
            refine .bind (ih hc hchild _) fun _ _ _ hc _ => ?_
            exact .bind (weaves_rehash hc parent) fun _ _ _ hc _ => weaves_pure hc trivial

end

end Edit

/-! ## Runs keep the links -/

theorem coherent_empty (keyLength : Option Nat) :
    Coherent (empty keyLength).epoch (empty keyLength).nodes where
  tidy := (layered_empty keyLength).tidy
  woven := by
    have hsingle {id : NodeId} {l : Links} (h : weave (empty keyLength).nodes id = some l) : l.Single := by
      obtain ⟨node, hnode, rfl⟩ := exists_of_weave h
      obtain ⟨hid, rfl⟩ := Array.getElem?_eq_some_iff.1 hnode
      obtain rfl := Nat.lt_one_iff.1 hid
      exact ⟨rfl, rfl, rfl, rfl⟩
    refine ⟨⟨fun h hp => ?_, fun h hn => ?_⟩, fun h hleft => ?_, fun hleads => ?_⟩
    · rw [(hsingle h).prev] at hp
      cases hp
    · rw [(hsingle h).next] at hn
      cases hn
    · rw [(hsingle h).left] at hleft
      cases hleft
    · obtain ⟨l, hl, hchild⟩ := hleads
      exact absurd hchild (hsingle hl).not_hasChild

namespace Coherent

variable {trie : PersistentTrie}

/-- Whether it goes through or not, an insertion keeps the links of the arena. -/
theorem insert (hc : Coherent trie.epoch trie.nodes) (key : Bits) (entry : ValueEntry) :
    Coherent trie.epoch (trie.insert key entry).1.nodes := by
  unfold PersistentTrie.insert
  cases trie.checkKey key with
  | error e => exact hc
  | ok _ =>
    have hwritable := Edit.weaves_root hc trie.currentRoot
    dsimp only
    rcases hroot : (Edit.writable trie.epoch trie.currentRoot none).run.run trie.nodes with
      ⟨fault | root, mid⟩
    · exact (hwritable _ _ hroot).2.1
    · obtain ⟨-, hmid, hmade⟩ := hwritable _ _ hroot
      dsimp only
      rcases hbelow : (Edit.insertBelow trie.epoch key entry
          ((trie.nodes.size + 1) * (key.length + 1)) root 0).run.run mid with ⟨fault | isNew, nodes⟩ <;>
        exact (Edit.weaves_insertBelow hmid key entry _ (hmade root rfl) 0 _ _ hbelow).2.1

theorem step (hc : Coherent trie.epoch trie.nodes) (next : Step) :
    Coherent (trie.step next).epoch (trie.step next).nodes := by
  cases next with
  | insert key entry =>
    have hepoch : (trie.insert key entry).1.epoch = trie.epoch := (insert_kept trie key entry).2.2.1
    exact hepoch.symm ▸ hc.insert key entry
  | nextEpoch => exact ⟨hc.tidy.mono (Nat.le_succ _), hc.woven⟩

theorem run (hc : Coherent trie.epoch trie.nodes) (steps : List Step) :
    Coherent (trie.run steps).epoch (trie.run steps).nodes := by
  induction steps generalizing trie with
  | nil => exact hc
  | cons next steps ih => exact ih (hc.step next)

end Coherent

theorem coherent_run (keyLength : Option Nat) (steps : List Step) :
    Coherent ((empty keyLength).run steps).epoch ((empty keyLength).run steps).nodes :=
  (coherent_empty keyLength).run steps

end KeyTransparency.PersistentTrie
