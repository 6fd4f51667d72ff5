import KeyTransparency.Proofs.Trie.Arena

/-!
# How the nodes of an arena are linked

A node names its children, its parent and the versions before and after it.  A `Weave` is all that an
arena says of this, and `Woven` is its invariant: `prev` and `next` are each other's inverse and lead to
older and to newer nodes (`Threaded`), the two children of a node differ, and the parent that a child
names is a version of each node it is a child of (`Weave.Akin`).

Links change in four ways, and each keeps the invariant:

    push, copy     a node without links is added, or the next version of one
    reparent       a node names another parent
    adopt          a branch gets a child that names it

A split names the new branch as the parent of a child that still hangs on the old one; until the old
one lets go of it, `Woven loose` leaves that child open.
-/

namespace KeyTransparency.PersistentTrie

/-- What a node says of other nodes. -/
structure Links where
  epoch : Nat
  isBranch : Bool
  left : Option NodeId
  right : Option NodeId
  prev : Option NodeId
  next : Option NodeId
  parent : Option NodeId

namespace Links

def HasChild (l : Links) (child : NodeId) : Prop := l.left = some child ∨ l.right = some child

def withChild (l : Links) (side : UInt8) (child : NodeId) : Links :=
  if side = 0 then { l with left := some child } else { l with right := some child }

/-- The child on the other side. -/
def other (l : Links) (side : UInt8) : Option NodeId := if side = 0 then l.right else l.left

/-- A node without children that is the only version of itself. -/
structure Single (l : Links) : Prop where
  left : l.left = none
  right : l.right = none
  prev : l.prev = none
  next : l.next = none

/-- A branch made in `now`. -/
structure OpenIn (now : Nat) (l : Links) : Prop where
  isBranch : l.isBranch = true
  epoch : l.epoch = now

section

variable {l : Links} {now : Nat} {side : UInt8} {id child : NodeId}

theorem Single.not_hasChild (h : l.Single) : ¬ l.HasChild child := by
  rintro (hleft | hright)
  · rw [h.left] at hleft
    cases hleft
  · rw [h.right] at hright
    cases hright

theorem HasChild.withChild (h : (l.withChild side id).HasChild child) :
    child = id ∨ l.other side = some child := by
  unfold Links.withChild at h
  unfold other
  by_cases hside : side = 0
  · rw [if_pos hside] at h ⊢
    exact h.imp_left fun h => (Option.some.inj h).symm
  · rw [if_neg hside] at h ⊢
    exact h.symm.imp_left fun h => (Option.some.inj h).symm

@[simp] theorem epoch_withChild : (l.withChild side child).epoch = l.epoch := by
  unfold withChild
  split <;> rfl

@[simp] theorem isBranch_withChild : (l.withChild side child).isBranch = l.isBranch := by
  unfold withChild
  split <;> rfl

@[simp] theorem prev_withChild : (l.withChild side child).prev = l.prev := by
  unfold withChild
  split <;> rfl

@[simp] theorem next_withChild : (l.withChild side child).next = l.next := by
  unfold withChild
  split <;> rfl

@[simp] theorem parent_withChild : (l.withChild side child).parent = l.parent := by
  unfold withChild
  split <;> rfl

theorem OpenIn.withChild (h : l.OpenIn now) (side : UInt8) (child : NodeId) :
    (l.withChild side child).OpenIn now :=
  ⟨isBranch_withChild.trans h.isBranch, epoch_withChild.trans h.epoch⟩

theorem HasChild.of_other (h : l.other side = some child) : l.HasChild child := by
  unfold other at h
  split at h
  · exact .inr h
  · exact .inl h

end

end Links

/-- The links of the nodes of an arena. -/
abbrev Weave := NodeId → Option Links

namespace Weave

def Leads (w : Weave) (id child : NodeId) : Prop := ∃ l, w id = some l ∧ l.HasChild child

/-- `older` is the version before `newer`. -/
def Prev (w : Weave) (newer older : NodeId) : Prop := ∃ l, w newer = some l ∧ l.prev = some older

/-- Versions of one node. -/
def Akin (w : Weave) : NodeId → NodeId → Prop := Relation.EqvGen w.Prev

/-- No node is gone or comes after another version than before. -/
def Extends (w w' : Weave) : Prop :=
  ∀ id l, w id = some l → ∃ l', w' id = some l' ∧ l'.prev = l.prev

theorem Akin.mono {w w' : Weave} (hw : w.Extends w') {a b : NodeId} (h : w.Akin a b) : w'.Akin a b := by
  refine Relation.EqvGen.mono (fun newer older hprev => ?_) a b h
  obtain ⟨l, hl, hp⟩ := hprev
  obtain ⟨l', hl', hp'⟩ := hw newer l hl
  exact ⟨l', hl', hp'.trans hp⟩

section

variable {w : Weave} {id i n : NodeId} {l l' m : Links}

theorem ne_of_eq_some (hn : w n = none) (h : w i = some m) : i ≠ n := by
  rintro rfl
  rw [hn] at h
  cases h

/-- One node put in or changed. -/
def set (w : Weave) (id : NodeId) (l : Links) : Weave := Function.update w id (some l)

@[simp] theorem set_self : w.set id l id = some l := Function.update_self ..

theorem set_of_ne (h : i ≠ id) : w.set id l i = w i := Function.update_of_ne h ..

theorem set_eq_some (h : w.set id l i = some m) : i = id ∧ m = l ∨ i ≠ id ∧ w i = some m := by
  by_cases hi : i = id
  · rw [hi, set_self] at h
    exact .inl ⟨hi, (Option.some.inj h).symm⟩
  · rw [set_of_ne hi] at h
    exact .inr ⟨hi, h⟩

theorem set_fresh (hn : w n = none) (h : w i = some m) : w.set n l i = some m := by
  rw [set_of_ne (ne_of_eq_some hn h), h]

theorem exists_set (hid : w id = some l) (l' : Links) (h : w i = some m) :
    ∃ m', w.set id l' i = some m' ∧ (i = id ∧ m = l ∧ m' = l' ∨ i ≠ id ∧ m' = m) := by
  by_cases hi : i = id
  · subst hi
    rw [hid] at h
    cases h
    exact ⟨l', set_self, .inl ⟨rfl, rfl, rfl⟩⟩
  · exact ⟨m, by rw [set_of_ne hi, h], .inr ⟨hi, rfl⟩⟩

theorem extends_fresh (hn : w n = none) : w.Extends (w.set n l) := fun _ m hm =>
  ⟨m, set_fresh hn hm, rfl⟩

theorem extends_set (hid : w id = some l) (hprev : l'.prev = l.prev) : w.Extends (w.set id l') := by
  intro i m hm
  obtain ⟨m', hm', ⟨rfl, rfl, rfl⟩ | ⟨-, rfl⟩⟩ := exists_set hid l' hm
  · exact ⟨_, hm', hprev⟩
  · exact ⟨_, hm', rfl⟩

end

end Weave

/-! ## Versions -/

/-- The versions of a node are linked both ways, and the later one is the newer. -/
structure Threaded (w : Weave) : Prop where
  back {id older : NodeId} {l : Links} : w id = some l → l.prev = some older →
    older < id ∧ ∃ l', w older = some l' ∧ l'.next = some id ∧ l'.epoch < l.epoch
  forth {id newer : NodeId} {l : Links} : w id = some l → l.next = some newer →
    ∃ l', w newer = some l' ∧ l'.prev = some id

namespace Threaded

variable {w : Weave} {n id : NodeId} {l l' : Links} {a b : NodeId}

/-- Of two versions of a node one can be reached from the other. -/
theorem linear (h : Threaded w) (hakin : w.Akin a b) :
    Relation.ReflTransGen w.Prev a b ∨ Relation.ReflTransGen w.Prev b a := by
  have hprev : Relator.RightUnique w.Prev := by
    rintro newer older older' ⟨l, hl, ho⟩ ⟨l', hl', ho'⟩
    rw [hl] at hl'
    cases hl'
    exact Option.some.inj (ho.symm.trans ho')
  have hnext : Relator.RightUnique (Function.swap w.Prev) := by
    rintro older newer newer' ⟨l, hl, ho⟩ ⟨l', hl', ho'⟩
    obtain ⟨-, m, hm, hn, -⟩ := h.back hl ho
    obtain ⟨-, m', hm', hn', -⟩ := h.back hl' ho'
    rw [hm] at hm'
    cases hm'
    exact Option.some.inj (hn.symm.trans hn')
  induction hakin with
  | rel a b hab => exact .inl (.single hab)
  | refl a => exact .inl .refl
  | symm a b _ ih => exact ih.symm
  | trans a b c _ _ ihab ihbc =>
    rcases ihab with hab | hba <;> rcases ihbc with hbc | hcb
    · exact .inl (hab.trans hbc)
    · rw [← Relation.reflTransGen_swap] at hab hcb
      rcases Relation.ReflTransGen.total_of_right_unique hnext hab hcb with hac | hca
      · exact .inr (Relation.reflTransGen_swap.1 hac)
      · exact .inl (Relation.reflTransGen_swap.1 hca)
    · exact Relation.ReflTransGen.total_of_right_unique hprev hba hbc
    · exact .inr (hcb.trans hba)

theorem epoch_lt (h : Threaded w) (hpath : Relation.ReflTransGen w.Prev a b) (ha : w a = some l) :
    a = b ∨ ∃ l', w b = some l' ∧ l'.epoch < l.epoch := by
  induction hpath with
  | refl => exact .inl rfl
  | tail _ hlast ih =>
    obtain ⟨m, hm, ho⟩ := hlast
    obtain ⟨-, l', hl', -, hlt⟩ := h.back hm ho
    refine .inr ⟨l', hl', ?_⟩
    rcases ih with rfl | ⟨m', hm', hlt'⟩
    · rw [ha] at hm
      cases hm
      exact hlt
    · rw [hm] at hm'
      cases hm'
      exact Nat.lt_trans hlt hlt'

/-- In one epoch a node has one version. -/
theorem eq_of_akin (h : Threaded w) (hakin : w.Akin a b) (ha : w a = some l) (hb : w b = some l')
    (hepoch : l.epoch = l'.epoch) : a = b := by
  rcases h.linear hakin with hpath | hpath
  · rcases h.epoch_lt hpath ha with heq | ⟨m, hm, hlt⟩
    · exact heq
    · rw [hb] at hm
      cases hm
      omega
  · rcases h.epoch_lt hpath hb with heq | ⟨m, hm, hlt⟩
    · exact heq.symm
    · rw [ha] at hm
      cases hm
      omega

theorem push (h : Threaded w) (hn : w n = none) (hl : l.Single) : Threaded (w.set n l) where
  back {i older m} hm ho := by
    rcases Weave.set_eq_some hm with ⟨-, rfl⟩ | ⟨-, hold⟩
    · rw [hl.prev] at ho
      cases ho
    · obtain ⟨hlt, l', hl', hrest⟩ := h.back hold ho
      exact ⟨hlt, l', Weave.set_fresh hn hl', hrest⟩
  forth {i newer m} hm ho := by
    rcases Weave.set_eq_some hm with ⟨-, rfl⟩ | ⟨-, hold⟩
    · rw [hl.next] at ho
      cases ho
    · obtain ⟨l', hl', hrest⟩ := h.forth hold ho
      exact ⟨l', Weave.set_fresh hn hl', hrest⟩

/-- A node may change in all but its versions. -/
theorem revise (h : Threaded w) (hid : w id = some l)
    (hsame : l'.epoch = l.epoch ∧ l'.prev = l.prev ∧ l'.next = l.next) : Threaded (w.set id l') := by
  obtain ⟨hepoch, hprev, hnext⟩ := hsame
  have hold {i : NodeId} {m : Links} (hm : w.set id l' i = some m) :
      ∃ m', w i = some m' ∧ m.epoch = m'.epoch ∧ m.prev = m'.prev ∧ m.next = m'.next := by
    rcases Weave.set_eq_some hm with ⟨rfl, rfl⟩ | ⟨-, hm⟩
    · exact ⟨l, hid, hepoch, hprev, hnext⟩
    · exact ⟨m, hm, rfl, rfl, rfl⟩
  have hnew {i : NodeId} {m : Links} (hm : w i = some m) :
      ∃ m', w.set id l' i = some m' ∧ m'.epoch = m.epoch ∧ m'.prev = m.prev ∧ m'.next = m.next := by
    obtain ⟨m', hm', ⟨rfl, rfl, rfl⟩ | ⟨-, rfl⟩⟩ := Weave.exists_set hid l' hm
    · exact ⟨_, hm', hepoch, hprev, hnext⟩
    · exact ⟨_, hm', rfl, rfl, rfl⟩
  constructor
  · intro i older m hm ho
    obtain ⟨m', hm', hme, hmp, -⟩ := hold hm
    obtain ⟨hlt, o, ho', hon, hoe⟩ := h.back hm' (hmp ▸ ho)
    obtain ⟨o', ho'', hoe', -, hon'⟩ := hnew ho'
    exact ⟨hlt, o', ho'', hon'.trans hon, by omega⟩
  · intro i newer m hm ho
    obtain ⟨m', hm', -, -, hmn⟩ := hold hm
    obtain ⟨o, ho', hop⟩ := h.forth hm' (hmn ▸ ho)
    obtain ⟨o', ho'', -, hop', -⟩ := hnew ho'
    exact ⟨o', ho'', hop'.trans hop⟩

end Threaded

/-! ## Copies -/

/-- The next version of a node, made in `now`. -/
def Links.copied (l : Links) (now : Nat) (id : NodeId) (parent : Option NodeId) : Links :=
  { l with epoch := now, prev := some id, next := none, parent }

/-- `w` with the next version of `id` at `n`. -/
def Weave.copy (w : Weave) (now : Nat) (id n : NodeId) (l : Links) (parent : Option NodeId) : Weave :=
  (w.set n (l.copied now id parent)).set id { l with next := some n }

/-- What is copied is old, has no next version, and stands before the copy. -/
structure Copyable (w : Weave) (now : Nat) (id n : NodeId) (l : Links) : Prop where
  node : w id = some l
  fresh : w n = none
  before : id < n
  last : l.next = none
  older : l.epoch < now

section

variable {w : Weave} {now : Nat} {id n i : NodeId} {l m : Links} {parent : Option NodeId}

theorem Weave.copy_eq_some (h : w.copy now id n l parent i = some m) :
    i = id ∧ m = { l with next := some n } ∨ i = n ∧ m = l.copied now id parent ∨
      i ≠ id ∧ w i = some m := by
  rcases set_eq_some h with hself | ⟨hid, h⟩
  · exact .inl hself
  · rcases set_eq_some h with hnew | ⟨-, hold⟩
    · exact .inr (.inl hnew)
    · exact .inr (.inr ⟨hid, hold⟩)

theorem Copyable.copy_new (hc : Copyable w now id n l) (parent : Option NodeId) :
    w.copy now id n l parent n = some (l.copied now id parent) := by
  rw [Weave.copy, Weave.set_of_ne (Nat.ne_of_gt hc.before), Weave.set_self]

theorem Copyable.copy_old (hc : Copyable w now id n l) (parent : Option NodeId) (hi : i ≠ id)
    (hm : w i = some m) : w.copy now id n l parent i = some m := by
  rw [Weave.copy, Weave.set_of_ne hi, Weave.set_fresh hc.fresh hm]

/-- A node is as it was but for its successor. -/
theorem Copyable.exists_copy (hc : Copyable w now id n l) (parent : Option NodeId)
    (hm : w i = some m) : ∃ next, w.copy now id n l parent i = some { m with next } := by
  by_cases hid : i = id
  · subst hid
    rw [hc.node] at hm
    cases hm
    exact ⟨_, Weave.set_self⟩
  · exact ⟨m.next, hc.copy_old parent hid hm⟩

theorem Copyable.extends (hc : Copyable w now id n l) (parent : Option NodeId) :
    w.Extends (w.copy now id n l parent) := fun _ _ hm => by
  obtain ⟨next, hnext⟩ := hc.exists_copy parent hm
  exact ⟨_, hnext, rfl⟩

theorem Threaded.copy (h : Threaded w) (hc : Copyable w now id n l) (parent : Option NodeId) :
    Threaded (w.copy now id n l parent) where
  back {i older m} hm ho := by
    rcases Weave.copy_eq_some hm with ⟨rfl, rfl⟩ | ⟨rfl, rfl⟩ | ⟨-, hold⟩
    · obtain ⟨hlt, m', hm', hrest⟩ := h.back hc.node ho
      exact ⟨hlt, m', hc.copy_old parent (Nat.ne_of_lt hlt) hm', hrest⟩
    · obtain rfl := Option.some.inj ho
      exact ⟨hc.before, _, Weave.set_self, rfl, hc.older⟩
    · obtain ⟨hlt, m', hm', hnext, hepoch⟩ := h.back hold ho
      -- the copied node had no successor
      have hid : older ≠ id := by
        rintro rfl
        rw [hc.node] at hm'
        cases hm'
        rw [hc.last] at hnext
        cases hnext
      exact ⟨hlt, m', hc.copy_old parent hid hm', hnext, hepoch⟩
  forth {i newer m} hm ho := by
    rcases Weave.copy_eq_some hm with ⟨rfl, rfl⟩ | ⟨rfl, rfl⟩ | ⟨-, hold⟩
    · obtain rfl := Option.some.inj ho
      exact ⟨_, hc.copy_new parent, rfl⟩
    · cases ho
    · obtain ⟨m', hm', hprev⟩ := h.forth hold ho
      obtain ⟨next, hnext⟩ := hc.exists_copy parent hm'
      exact ⟨_, hnext, hprev⟩

end

/-! ## Parents -/

/-- The invariant of links.  Of the edges that are `loose` it says only that they lead to a node. -/
structure Woven (loose : NodeId → NodeId → Prop) (w : Weave) : Prop extends Threaded w where
  apart {id child : NodeId} {l : Links} : w id = some l → l.left = some child → l.right ≠ some child
  parent {id child : NodeId} : w.Leads id child →
    ∃ l, w child = some l ∧ (loose id child ∨ ∃ p, l.parent = some p ∧ w.Akin p id)

/-- No edge is loose. -/
def Tight (_ _ : NodeId) : Prop := False

namespace Woven

variable {loose loose' : NodeId → NodeId → Prop} {w : Weave} {now : Nat} {id n p child : NodeId}
  {l l' : Links} {side : UInt8}

theorem mono (h : Woven loose w)
    (hloose : ∀ id child, w.Leads id child → loose id child → loose' id child) : Woven loose' w where
  toThreaded := h.toThreaded
  apart := h.apart
  parent hleads := by
    obtain ⟨l, hl, hparent⟩ := h.parent hleads
    exact ⟨l, hl, hparent.imp_left (hloose _ _ hleads)⟩

/-- The nodes that have one child are versions of one node. -/
theorem akin_of_leads (h : Woven Tight w) {i : NodeId} (hp : w.Leads p child)
    (hi : w.Leads i child) : w.Akin p i := by
  obtain ⟨l, hl, hloose | ⟨q, hq, hakin⟩⟩ := h.parent hp
  · exact hloose.elim
  obtain ⟨l', hl', hloose | ⟨q', hq', hakin'⟩⟩ := h.parent hi
  · exact hloose.elim
  rw [hl] at hl'
  cases hl'
  rw [hq] at hq'
  cases hq'
  exact .trans _ _ _ (.symm _ _ hakin) hakin'

/-- The child on one side is not the one on the other. -/
theorem other_ne (h : Woven loose w) (hid : w id = some l)
    (hside : (if side = 0 then l.left else l.right) = some child) : l.other side ≠ some child := by
  unfold Links.other
  split at hside
  · rw [if_pos ‹_›]
    exact h.apart hid hside
  · rw [if_neg ‹_›]
    exact fun hleft => h.apart hid hleft hside

theorem push (h : Woven loose w) (hn : w n = none) (hl : l.Single) : Woven loose (w.set n l) where
  toThreaded := h.toThreaded.push hn hl
  apart {i c m} hm hleft := by
    rcases Weave.set_eq_some hm with ⟨-, rfl⟩ | ⟨-, hold⟩
    · rw [hl.left] at hleft
      cases hleft
    · exact h.apart hold hleft
  parent {i c} := by
    rintro ⟨m, hm, hc⟩
    rcases Weave.set_eq_some hm with ⟨-, rfl⟩ | ⟨-, hold⟩
    · exact absurd hc hl.not_hasChild
    · obtain ⟨m', hm', hparent⟩ := h.parent ⟨m, hold, hc⟩
      refine ⟨m', Weave.set_fresh hn hm', hparent.imp_right ?_⟩
      rintro ⟨p, hp, hakin⟩
      exact ⟨p, hp, hakin.mono (Weave.extends_fresh hn)⟩

theorem copy (h : Woven Tight w) (hc : Copyable w now id n l) (parent : Option NodeId) :
    Woven Tight (w.copy now id n l parent) where
  toThreaded := h.toThreaded.copy hc parent
  apart {i c m} hm hleft := by
    rcases Weave.copy_eq_some hm with ⟨-, rfl⟩ | ⟨-, rfl⟩ | ⟨-, hold⟩
    · exact h.apart (l := l) hc.node hleft
    · exact h.apart (l := l) hc.node hleft
    · exact h.apart hold hleft
  parent {i c} := by
    rintro ⟨m, hm, hchild⟩
    -- the copy has the children of the node whose version it is
    have hsource : ∃ j, w.Leads j c ∧ (w.copy now id n l parent).Akin j i := by
      rcases Weave.copy_eq_some hm with ⟨rfl, rfl⟩ | ⟨rfl, rfl⟩ | ⟨-, hold⟩
      · exact ⟨i, ⟨l, hc.node, hchild⟩, .refl i⟩
      · exact ⟨id, ⟨l, hc.node, hchild⟩, .symm _ _ (.rel _ _ ⟨_, hm, rfl⟩)⟩
      · exact ⟨i, ⟨m, hold, hchild⟩, .refl i⟩
    obtain ⟨j, hleads, hji⟩ := hsource
    obtain ⟨m', hm', hnone | ⟨p, hp, hakin⟩⟩ := h.parent hleads
    · exact hnone.elim
    · obtain ⟨next, hnext⟩ := hc.exists_copy parent hm'
      exact ⟨_, hnext, .inr ⟨p, hp, .trans _ _ _ (hakin.mono (hc.extends parent)) hji⟩⟩

/-- A node may name another parent, if it is a version of each node that has it as a child. -/
theorem reparent (h : Woven loose w) (hid : w id = some l)
    (hloose : ∀ i child, child ≠ id → loose i child → loose' i child)
    (hparents : ∀ i, w.Leads i id → loose' i id ∨ w.Akin p i) :
    Woven loose' (w.set id { l with parent := some p }) where
  toThreaded := h.toThreaded.revise hid ⟨rfl, rfl, rfl⟩
  apart {i c m} hm hleft := by
    rcases Weave.set_eq_some hm with ⟨-, rfl⟩ | ⟨-, hold⟩
    · exact h.apart (l := l) hid hleft
    · exact h.apart hold hleft
  parent {i c} := by
    rintro ⟨m, hm, hc⟩
    have hextends : w.Extends (w.set id { l with parent := some p }) := Weave.extends_set hid rfl
    have hleads : w.Leads i c := by
      rcases Weave.set_eq_some hm with ⟨rfl, rfl⟩ | ⟨-, hold⟩
      · exact ⟨l, hid, hc⟩
      · exact ⟨m, hold, hc⟩
    by_cases hci : c = id
    · subst hci
      refine ⟨_, Weave.set_self, (hparents i hleads).imp_right fun hakin => ?_⟩
      exact ⟨p, rfl, hakin.mono hextends⟩
    · obtain ⟨m', hm', hparent⟩ := h.parent hleads
      refine ⟨m', by rw [Weave.set_of_ne hci, hm'], hparent.imp (hloose i c hci) ?_⟩
      rintro ⟨q, hq, hakin⟩
      exact ⟨q, hq, hakin.mono hextends⟩

/-- A branch may get any child that names it as its parent, beside another one. -/
theorem adopt (h : Woven loose w) (side : UInt8) (hid : w id = some l) (hchild : w child = some l')
    (hparent : l'.parent = some id) (hother : l.other side ≠ some child) :
    Woven loose (w.set id (l.withChild side child)) where
  toThreaded := h.toThreaded.revise hid (by simp)
  apart {i c m} hm hleft := by
    rcases Weave.set_eq_some hm with ⟨-, rfl⟩ | ⟨-, hold⟩
    · unfold Links.withChild at hleft ⊢
      unfold Links.other at hother
      split at hleft
      · rw [if_pos ‹_›] at hother ⊢
        rwa [Option.some.inj hleft] at hother
      · rw [if_neg ‹_›] at hother ⊢
        intro hright
        rw [← Option.some.inj hright] at hleft
        exact hother hleft
    · exact h.apart hold hleft
  parent {i c} := by
    rintro ⟨m, hm, hc⟩
    have hextends : w.Extends (w.set id (l.withChild side child)) := Weave.extends_set hid (by simp)
    have hkept {i : NodeId} {m : Links} (hm : w i = some m) :
        ∃ m', w.set id (l.withChild side child) i = some m' ∧ m'.parent = m.parent := by
      obtain ⟨m', hm', ⟨rfl, rfl, rfl⟩ | ⟨-, rfl⟩⟩ := Weave.exists_set hid (l.withChild side child) hm
      · exact ⟨_, hm', by simp⟩
      · exact ⟨_, hm', rfl⟩
    have hold (hleads : w.Leads i c) : ∃ m', w.set id (l.withChild side child) c = some m' ∧
        (loose i c ∨ ∃ p, m'.parent = some p ∧ (w.set id (l.withChild side child)).Akin p i) := by
      obtain ⟨m', hm', hm'p⟩ := h.parent hleads
      obtain ⟨m'', hm'', hsame⟩ := hkept hm'
      refine ⟨m'', hm'', hm'p.imp_right ?_⟩
      rintro ⟨p, hp, hakin⟩
      exact ⟨p, hsame.trans hp, hakin.mono hextends⟩
    rcases Weave.set_eq_some hm with ⟨rfl, rfl⟩ | ⟨-, hm⟩
    · rcases hc.withChild with rfl | hbeside
      · obtain ⟨m', hm', hsame⟩ := hkept hchild
        exact ⟨m', hm', .inr ⟨i, hsame.trans hparent, .refl i⟩⟩
      · exact hold ⟨l, hid, .of_other hbeside⟩
    · exact hold ⟨m, hm, hc⟩

/-- A split in the making: `upper` stands between `parent` and `lower`, but neither has it as a child yet
or is its child. -/
structure Parting (now : Nat) (w : Weave) (parent upper lower : NodeId) (side : UInt8)
    (above mid : Links) : Prop where
  atParent : w parent = some above
  above_open : above.OpenIn now
  atUpper : w upper = some mid
  mid_open : mid.OpenIn now
  single : mid.Single
  named : mid.parent = some parent
  atLower : ∃ l, w lower = some l ∧ l.epoch = now ∧ l.parent = some upper
  other_lower : above.other side ≠ some lower
  other_upper : above.other side ≠ some upper
  upper_ne : upper ≠ parent
  lower_ne : upper ≠ lower

/-- Once `upper` has its two children and is the child of `parent`, no edge is loose. -/
theorem join {parent upper lower : NodeId} {above mid leaf : Links} {s t : UInt8}
    (h : Woven (fun i child => i = parent ∧ child = lower) w)
    (hp : Parting now w parent upper lower side above mid) (hn : w n = none) (hleaf : leaf.Single)
    (hnamed : leaf.parent = some upper) :
    Woven Tight ((((w.set n leaf).set upper (mid.withChild s lower)).set upper
      ((mid.withChild s lower).withChild t n)).set parent (above.withChild side upper)) := by
  obtain ⟨low, hlow, -, hlowParent⟩ := hp.atLower
  have hupper : upper ≠ n := Weave.ne_of_eq_some hn hp.atUpper
  have hfirst : Woven _ ((w.set n leaf).set upper (mid.withChild s lower)) :=
    (h.push hn hleaf).adopt s (Weave.set_fresh hn hp.atUpper) (Weave.set_fresh hn hlow) hlowParent
      fun hother => hp.single.not_hasChild (.of_other hother)
  -- beside the leaf there is at most the lower half
  have hbeside : (mid.withChild s lower).other t ≠ some n := fun hother => by
    rcases (Links.HasChild.of_other hother).withChild with rfl | hmid
    · rw [hn] at hlow
      cases hlow
    · exact hp.single.not_hasChild (.of_other hmid)
  have hsecond := hfirst.adopt t Weave.set_self
    (by rw [Weave.set_of_ne hupper.symm, Weave.set_self] : _ = some leaf) hnamed hbeside
  have habove : (((w.set n leaf).set upper (mid.withChild s lower)).set upper
      ((mid.withChild s lower).withChild t n)) parent = some above := by
    rw [Weave.set_of_ne hp.upper_ne.symm, Weave.set_of_ne hp.upper_ne.symm,
      Weave.set_fresh hn hp.atParent]
  have hthird := hsecond.adopt side habove Weave.set_self (by simp [hp.named]) hp.other_upper
  refine hthird.mono fun i child hleads hloose => ?_
  obtain ⟨rfl, rfl⟩ := hloose
  obtain ⟨l, hl, hchild⟩ := hleads
  rw [Weave.set_self] at hl
  cases hl
  rcases hchild.withChild with heq | hother
  · exact hp.lower_ne heq.symm
  · exact hp.other_lower hother

end Woven

end KeyTransparency.PersistentTrie
