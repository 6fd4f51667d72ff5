import KeyTransparency.Trie.Subtree

/-!
# The shape of a trie, and what insertion does to it

`Grown side n t` says that `t` can hang on `side` of a branch when `n` bits of every key are left: its
label starts with `side` and consists of bits, the labels on each way down add up to `n`, a branch has
two children with labels of different first bits, and every hash is that of its node.  `find?` is what
a subtree holds under the rest of a key, read off the labels alone.

    Grown side n t, rest of n bits that starts with side →
      t.insert entry rest = (t', ok (rest is new)),  Grown side n t',
      t'.find? k = if k = rest then what rest held, then entry, else t.find? k     (Grown.insert)

The work is in `Grown.split`, where the key leaves a label in its middle.
-/

namespace KeyTransparency

namespace Bits

/-- Where two bit strings part, if the one does not run along the other to its end. -/
theorem exists_parting {as bs : Bits} (h : ¬ bs <+: as) (hlen : bs.length ≤ as.length) :
    ∃ u a as' b bs', as = u ++ a :: as' ∧ bs = u ++ b :: bs' ∧ a ≠ b ∧
      commonPrefix as bs = u.length := by
  fun_induction commonPrefix as bs with
  | case1 as c bs ih =>
    rw [List.cons_prefix_cons] at h
    obtain ⟨u, a', as', b', bs', rfl, rfl, hne, hu⟩ := ih (by simpa using h) (by simpa using hlen)
    exact ⟨c :: u, a', as', b', bs', rfl, rfl, hne, by simp [hu]⟩
  | case2 a as b bs hne => exact ⟨[], a, as, b, bs, rfl, rfl, hne, rfl⟩
  | case3 as bs hnil =>
    cases bs with
    | nil => exact absurd (List.nil_prefix) h
    | cons b bs =>
      cases as with
      | nil => simp at hlen
      | cons a as => exact absurd rfl (hnil a as b bs rfl)

theorem commonPrefix_lt_length_iff {as bs : Bits} :
    commonPrefix as bs < bs.length ↔ ¬ bs <+: as := by
  rw [← commonPrefix_eq_length_iff]
  have hle := commonPrefix_le_right as bs
  omega

instance (bits : Bits) : Decidable bits.WellFormed :=
  List.decidableBAll (fun b => b = 0 ∨ b = 1) bits

theorem WellFormed.append_iff {as bs : Bits} :
    WellFormed (as ++ bs) ↔ WellFormed as ∧ WellFormed bs := by
  unfold WellFormed
  constructor
  · intro h
    exact ⟨fun b hb => h b (List.mem_append_left _ hb), fun b hb => h b (List.mem_append_right _ hb)⟩
  · rintro ⟨ha, hb⟩ c hc
    rcases List.mem_append.1 hc with hc | hc
    · exact ha c hc
    · exact hb c hc

theorem WellFormed.head {b : UInt8} {bs : Bits} (h : WellFormed (b :: bs)) : b = 0 ∨ b = 1 :=
  h b List.mem_cons_self

end Bits

namespace Trie.Subtree

/-! ## Contents -/

/-- The values under the rest of a key. -/
def find? : Subtree → (rest : Bits) → Option (List ValueEntry)
  | vacant, _ => none
  | leaf label values _, rest => if rest = label then some values else none
  | branch label left right _, rest =>
    if label.isPrefixOf rest then
      match rest.drop label.length with
      | [] => none
      | side :: more => if side = 0 then left.find? (side :: more) else right.find? (side :: more)
    else none


@[simp] theorem find?_ofLeaf (label k : Bits) (values : List ValueEntry) :
    (ofLeaf label values).find? k = if k = label then some values else none := rfl

theorem find?_branch_append (label : Bits) (left right : Subtree) (h : Hash) (side : UInt8)
    (more : Bits) : (branch label left right h).find? (label ++ side :: more) =
      (if side = 0 then left else right).find? (side :: more) := by
  by_cases hside : side = 0 <;> simp [find?, hside]

theorem find?_branch_self (label : Bits) (left right : Subtree) (h : Hash) :
    (branch label left right h).find? label = none := by
  simp [find?]

/-- Nothing is found under a key that leaves the node's label. -/
theorem find?_eq_none_of_leaves {t : Subtree} {k : Bits} (h : ¬ t.label <+: k) :
    t.find? k = none := by
  cases t with
  | vacant => rfl
  | leaf label values hash =>
    have hk : k ≠ label := fun hk => h (hk ▸ List.prefix_refl _)
    simp [find?, hk]
  | branch label left right hash =>
    have hk : ¬ label <+: k := h
    simp [find?, hk]

theorem find?_eq_none_of_head {t : Subtree} {k : Bits} {b : UInt8} (hb : t.label.head? = some b)
    (hk : k.head? ≠ some b) : t.find? k = none := by
  apply find?_eq_none_of_leaves
  rintro ⟨w, rfl⟩
  cases hl : t.label with
  | nil => simp [hl] at hb
  | cons c l =>
    rw [hl] at hb hk
    exact hk hb

@[simp] theorem label_ofLeaf (label : Bits) (values : List ValueEntry) :
    (ofLeaf label values).label = label := rfl

@[simp] theorem label_ofBranch (label : Bits) (left right : Subtree) :
    (ofBranch label left right).label = label := rfl

theorem label_relabel {t : Subtree} (h : t ≠ vacant) (label : Bits) :
    (t.relabel label).label = label := by
  cases t with
  | vacant => exact absurd rfl h
  | leaf => rfl
  | branch => rfl

/-- Cutting the front of a label off is cutting it off the keys below. -/
theorem find?_relabel {t : Subtree} {u low : Bits} (h : t ≠ vacant) (hl : t.label = u ++ low)
    (k : Bits) : (t.relabel low).find? k = t.find? (u ++ k) := by
  cases t with
  | vacant => exact absurd rfl h
  | leaf label values hash =>
    cases hl
    simp [relabel, find?]
  | branch label left right hash =>
    cases hl
    simp [relabel, ofBranch, find?, List.prefix_append_right_inj]

/-! ## Shape -/

/-- A node on `side` of a branch, with `n` bits of every key left. -/
inductive Grown : (side : UInt8) → (n : Nat) → Subtree → Prop
  | leaf {side n label values} : label.head? = some side → label.WellFormed → label.length = n →
      Grown side n (ofLeaf label values)
  | branch {side n m label left right} : label.head? = some side → label.WellFormed →
      label.length + m = n → Grown 0 m left → Grown 1 m right →
      Grown side n (ofBranch label left right)

/-- The root: no label, and either side may be vacant. -/
inductive Rooted (n : Nat) : Subtree → Prop
  | mk {left right} : left = vacant ∨ Grown 0 n left → right = vacant ∨ Grown 1 n right →
      Rooted n (ofBranch [] left right)

namespace Grown

variable {side : UInt8} {n : Nat} {t : Subtree}

theorem head (h : Grown side n t) : t.label.head? = some side := by
  cases h <;> assumption

theorem wellFormed (h : Grown side n t) : t.label.WellFormed := by
  cases h <;> assumption

theorem ne_vacant (h : Grown side n t) : t ≠ vacant := by
  rintro rfl
  cases h.head

theorem label_length_le (h : Grown side n t) : t.label.length ≤ n := by
  cases h with
  | leaf _ _ hlen => exact Nat.le_of_eq hlen
  | branch _ _ hlen _ _ => exact Nat.le_of_add_right_le (Nat.le_of_eq hlen)

theorem label_pos (h : Grown side n t) : 0 < t.label.length := by
  have hhead := h.head
  cases hl : t.label with
  | nil => simp [hl] at hhead
  | cons b l => simp

theorem pos (h : Grown side n t) : 0 < n :=
  Nat.lt_of_lt_of_le h.label_pos h.label_length_le

/-- The lower half of a node whose label is parted. -/
theorem relabel (h : Grown side n t) {u low : Bits} {b : UInt8} (hl : t.label = u ++ b :: low) :
    Grown b (n - u.length) (t.relabel (b :: low)) := by
  cases h with
  | leaf hhead hbits hlen =>
    rw [label_ofLeaf] at hl
    subst hl
    refine .leaf rfl (Bits.WellFormed.append_iff.1 hbits).2 ?_
    rw [← hlen, List.length_append]
    omega
  | branch hhead hbits hlen hleft hright =>
    rw [label_ofBranch] at hl
    subst hl
    refine .branch rfl (Bits.WellFormed.append_iff.1 hbits).2 ?_ hleft hright
    rw [← hlen, List.length_append]
    omega

end Grown

/-! ## The two sides of a branch -/

/-- A branch over two nodes that start with different bits. -/
def fork (u : Bits) (b : UInt8) (x y : Subtree) : Subtree :=
  if b = 0 then ofBranch u x y else ofBranch u y x

/-- `x` is the child of `t` on `side`, `y` the one on the other. -/
inductive Sides : (t : Subtree) → (side : UInt8) → (x y : Subtree) → Prop
  | left {label x y hash} : Sides (branch label x y hash) 0 x y
  | right {label x y hash} : Sides (branch label y x hash) 1 x y

namespace Sides

variable {t x y : Subtree} {side : UInt8}

theorem find? (h : Sides t side x y) (more : Bits) :
    t.find? (t.label ++ side :: more) = x.find? (side :: more) := by
  cases h <;> exact find?_branch_append _ _ _ _ _ _

theorem side_cases (h : Sides t side x y) : side = 0 ∨ side = 1 := by
  cases h <;> simp

/-- A branch hashes its label with the hashes of both sides, the left one first. -/
theorem join (h : Sides t side x y) {n : Nat} {b : UInt8} (ht : Rooted n t ∨ Grown b n t) :
    some (CopathEntry.join ⟨t.label, y.hash?⟩ x.hash? (side == 0)) = t.hash? := by
  cases h with
  | left =>
    rcases ht with ht | ht <;> cases ht <;> rfl
  | right =>
    rcases ht with ht | ht <;> cases ht <;> rfl

/-- Below a branch that has a label both sides are taken. -/
theorem grown (h : Sides t side x y) {n : Nat} {b : UInt8} (ht : Grown b n t) :
    ∃ m, t.label.length + m = n ∧ Grown side m x ∧ ∃ c, Grown c m y := by
  cases h with
  | left =>
    cases ht with
    | branch _ _ hlen hleft hright => exact ⟨_, hlen, hleft, 1, hright⟩
  | right =>
    cases ht with
    | branch _ _ hlen hleft hright => exact ⟨_, hlen, hright, 0, hleft⟩

theorem hung (h : Sides t side x y) {n : Nat} (ht : Rooted n t) :
    t.label = [] ∧ (x = vacant ∨ Grown side n x) := by
  cases h with
  | left =>
    cases ht with
    | mk hleft hright => exact ⟨rfl, hleft⟩
  | right =>
    cases ht with
    | mk hleft hright => exact ⟨rfl, hright⟩

theorem rehash (h : Sides t side x y) : t.rehash = fork t.label side x y := by
  cases h <;> rfl

/-- A branch inserts on the side of the next bit. -/
theorem insert (h : Sides t side x y) {entry : ValueEntry} {more : Bits} {x' : Subtree}
    {added : Except StructureFault Bool} (hx : x.insert entry (side :: more) = (x', added)) :
    t.insert entry (t.label ++ side :: more) = (fork t.label side x' y, added) := by
  cases h <;> simp [Subtree.insert, Subtree.label, fork, hx]

end Sides

/-! ## Insertion -/

theorem find?_fork {u : Bits} {b c : UInt8} {x y : Subtree} (hb : b = 0 ∨ b = 1)
    (hc : c = 0 ∨ c = 1) (hbc : b ≠ c) (hx : x.label.head? = some b) (hy : y.label.head? = some c)
    (k : Bits) : (fork u b x y).find? (u ++ k) = (x.find? k).or (y.find? k) := by
  have hnone {t : Subtree} {d e : UInt8} (ht : t.label.head? = some d) (hde : e ≠ d) (more : Bits) :
      t.find? (e :: more) = none :=
    find?_eq_none_of_head ht (by simpa using hde)
  cases k with
  | nil =>
    rw [find?_eq_none_of_head hx (by simp), find?_eq_none_of_head hy (by simp), List.append_nil]
    unfold fork
    split <;> exact find?_branch_self _ _ _ _
  | cons s more =>
    unfold fork ofBranch
    rcases hb with rfl | rfl
    · obtain rfl : c = 1 := hc.resolve_left (Ne.symm hbc)
      rw [if_pos rfl, find?_branch_append]
      by_cases hs : s = 0
      · subst hs
        rw [if_pos rfl, hnone hy (by decide), Option.or_none]
      · rw [if_neg hs, hnone hx hs, Option.none_or]
    · obtain rfl : c = 0 := hc.resolve_right (Ne.symm hbc)
      rw [if_neg (by decide), find?_branch_append]
      by_cases hs : s = 0
      · subst hs
        rw [if_pos rfl, hnone hx (by decide), Option.none_or]
      · rw [if_neg hs, hnone hy hs, Option.or_none]

theorem Grown.fork {side : UInt8} {n m : Nat} {u : Bits} {b c : UInt8} {x y : Subtree}
    (hhead : u.head? = some side) (hu : u.WellFormed) (hlen : u.length + m = n)
    (hb : b = 0 ∨ b = 1) (hc : c = 0 ∨ c = 1) (hbc : b ≠ c) (hx : Grown b m x) (hy : Grown c m y) :
    Grown side n (Subtree.fork u b x y) := by
  unfold Subtree.fork
  rcases hb with rfl | rfl
  · rw [hc.resolve_left (Ne.symm hbc)] at hy
    exact .branch hhead hu hlen hx hy
  · rw [hc.resolve_right (Ne.symm hbc)] at hy
    exact .branch hhead hu hlen hy hx

/-- What an insertion under `rest` answers and leaves behind. -/
structure Inserted (side : UInt8) (n : Nat) (t : Subtree) (rest : Bits) (entry : ValueEntry)
    (t' : Subtree) : Prop where
  run : t.insert entry rest = (t', .ok (t.find? rest).isNone)
  grown : Grown side n t'
  find : ∀ k, t'.find? k = if k = rest then some ((t.find? rest).getD [] ++ [entry]) else t.find? k

theorem insert_eq_split {t : Subtree} (ht : t ≠ vacant) {rest : Bits} (h : ¬ t.label <+: rest)
    (entry : ValueEntry) : t.insert entry rest = t.split rest entry := by
  cases t with
  | vacant => exact absurd rfl ht
  | leaf label values hash =>
    have hp : ¬ label <+: rest := h
    simp [Subtree.insert, hp]
  | branch label left right hash =>
    have hp : ¬ label <+: rest := h
    simp [Subtree.insert, hp]

/-- A node is split where the key parts from its label. -/
theorem split_eq {t : Subtree} (ht : t ≠ vacant) {u more low : Bits} {b c : UInt8}
    (hl : t.label = u ++ c :: low)
    (hshared : Bits.commonPrefix (u ++ b :: more) t.label = u.length) (entry : ValueEntry) :
    t.split (u ++ b :: more) entry =
      (fork u c (t.relabel (c :: low)) (ofLeaf (b :: more) [entry]), .ok true) := by
  have hlow := label_relabel ht (c :: low)
  rw [hl] at hshared
  unfold split fork
  simp only [hl, hshared, List.take_left, List.drop_left, hlow, List.head?_cons, Option.some.injEq]
  split <;> rfl

/-- A key that leaves the label of a node gets a leaf of its own, under a new branch. -/
theorem Grown.split {side : UInt8} {n : Nat} {t : Subtree} (h : Grown side n t) {rest : Bits}
    (hhead : rest.head? = some side) (hbits : rest.WellFormed) (hlen : rest.length = n)
    (hleaves : ¬ t.label <+: rest) (entry : ValueEntry) :
    ∃ t', t.split rest entry = (t', .ok true) ∧ Grown side n t' ∧
      ∀ k, t'.find? k = if k = rest then some [entry] else t.find? k := by
  obtain ⟨u, b, more, c, low, rfl, hl, hbc, hshared⟩ :=
    Bits.exists_parting hleaves (hlen ▸ h.label_length_le)
  have hlabel := h.wellFormed
  rw [hl, Bits.WellFormed.append_iff] at hlabel
  rw [Bits.WellFormed.append_iff] at hbits
  have hlower := h.relabel hl
  have hfresh : Grown b (n - u.length) (ofLeaf (b :: more) [entry]) :=
    .leaf rfl hbits.2 (by rw [← hlen, List.length_append]; omega)
  have hside : u.head? = some side := by
    cases u with
    | nil =>
      have hb : b = side := by simpa using hhead
      have hc : c = side := by simpa [hl] using h.head
      exact absurd (hb.trans hc.symm) hbc
    | cons d u => simpa using hhead
  refine ⟨Subtree.fork u c (t.relabel (c :: low)) (ofLeaf (b :: more) [entry]), ?_,
    .fork hside hbits.1 ?_ hlabel.2.head hbits.2.head hbc.symm hlower hfresh, fun k => ?_⟩
  · exact split_eq h.ne_vacant hl hshared entry
  · rw [← hlen, List.length_append]
    omega
  · by_cases hk : u <+: k
    · obtain ⟨k, rfl⟩ := hk
      rw [find?_fork hlabel.2.head hbits.2.head hbc.symm hlower.head rfl, find?_ofLeaf,
        find?_relabel h.ne_vacant hl]
      by_cases hkr : k = b :: more
      · rw [hkr, if_pos rfl, if_pos rfl, find?_eq_none_of_leaves hleaves, Option.none_or]
      · rw [if_neg hkr, if_neg (fun e => hkr (List.append_cancel_left e)), Option.or_none]
    · have hkr : k ≠ u ++ b :: more := fun e => hk (e ▸ List.prefix_append _ _)
      rw [if_neg hkr, find?_eq_none_of_leaves (t := t), find?_eq_none_of_leaves]
      · unfold Subtree.fork
        split <;> exact hk
      · rw [hl]
        exact fun e => hk ((List.prefix_append _ _).trans e)

theorem Grown.insert_of_leaves {side : UInt8} {n : Nat} {t : Subtree} (h : Grown side n t)
    {rest : Bits} (hhead : rest.head? = some side) (hbits : rest.WellFormed)
    (hlen : rest.length = n) (hleaves : ¬ t.label <+: rest) (entry : ValueEntry) :
    ∃ t', Inserted side n t rest entry t' := by
  obtain ⟨t', hsplit, hgrown, hfind⟩ := h.split hhead hbits hlen hleaves entry
  have hnone := find?_eq_none_of_leaves hleaves
  refine ⟨t', ?_, hgrown, fun k => ?_⟩
  · rw [insert_eq_split h.ne_vacant hleaves, hsplit, hnone]
    rfl
  · rw [hfind, hnone]
    rfl

/-- Changing one child under one key changes the branch under that key. -/
theorem Sides.find?_congr {t x y x' : Subtree} {side : UInt8} (h : Sides t side x y) {more : Bits}
    {o : Option (List ValueEntry)}
    (hx : ∀ k, x'.find? k = if k = side :: more then o else x.find? k) (k : Bits) :
    (fork t.label side x' y).find? k =
      if k = t.label ++ side :: more then o else t.find? k := by
  by_cases hp : t.label <+: k
  · obtain ⟨k, rfl⟩ := hp
    simp only [List.append_cancel_left_eq]
    cases h with
    | left =>
      cases k with
      | nil => simp [fork, ofBranch, label, find?_branch_self]
      | cons s k =>
        simp only [fork, ofBranch, label, if_true, find?_branch_append]
        by_cases hs : s = 0
        · rw [if_pos hs, if_pos hs, hx]
        · rw [if_neg hs, if_neg hs, if_neg fun e => hs (List.cons.inj e).1]
    | right =>
      cases k with
      | nil => simp [fork, ofBranch, label, find?_branch_self]
      | cons s k =>
        have hone : (1 : UInt8) ≠ 0 := by decide
        simp only [fork, ofBranch, label, if_neg hone, find?_branch_append]
        by_cases hs : s = 0
        · rw [if_pos hs, if_pos hs, if_neg fun e => hone ((List.cons.inj e).1.symm.trans hs)]
        · rw [if_neg hs, if_neg hs, hx]
  · have hk : k ≠ t.label ++ side :: more := fun e => hp (e ▸ List.prefix_append _ _)
    have hfork : (fork t.label side x' y).label = t.label := by
      unfold fork
      split <;> rfl
    rw [if_neg hk, find?_eq_none_of_leaves hp, find?_eq_none_of_leaves (by rwa [hfork])]

/-- A key of the right length that follows the label of a leaf is that label. -/
theorem Grown.eq_label {side : UInt8} {n : Nat} {label rest : Bits} {values : List ValueEntry}
    {hash : Hash} (h : Grown side n (Subtree.leaf label values hash)) (hlen : rest.length = n)
    (hp : label <+: rest) : rest = label := by
  cases h with
  | leaf _ _ hllen => exact (hp.eq_of_length (hllen.trans hlen.symm)).symm

/-- A key of the right length that follows the label of a branch goes on into one of its children. -/
theorem Grown.exists_sides {side : UInt8} {n : Nat} {label rest : Bits} {left right : Subtree}
    {hash : Hash} (h : Grown side n (Subtree.branch label left right hash)) (hbits : rest.WellFormed)
    (hlen : rest.length = n) (hp : label <+: rest) :
    ∃ s more x y, rest = label ++ s :: more ∧ Bits.WellFormed (s :: more) ∧
      Sides (Subtree.branch label left right hash) s x y ∧ Grown s (more.length + 1) x ∧
      ∃ c, Grown c (more.length + 1) y := by
  obtain ⟨more, rfl⟩ := hp
  have hmore := (Bits.WellFormed.append_iff.1 hbits).2
  rw [List.length_append] at hlen
  cases h with
  | @branch _ _ m _ _ _ _ _ hllen hleft hright =>
    have hm : more.length = m := by omega
    subst hm
    cases more with
    | nil => exact absurd hleft.pos (Nat.lt_irrefl 0)
    | cons s more =>
      rcases hmore.head with rfl | rfl
      · exact ⟨0, more, left, right, rfl, hmore, .left, hleft, 1, hright⟩
      · exact ⟨1, more, right, left, rfl, hmore, .right, hright, 0, hleft⟩

/-- Insertion adds the entry under its key, keeps every other key, and keeps the shape. -/
theorem Grown.insert {side : UInt8} {n : Nat} {t : Subtree} (h : Grown side n t) {rest : Bits}
    (hhead : rest.head? = some side) (hbits : rest.WellFormed) (hlen : rest.length = n)
    (entry : ValueEntry) : ∃ t', Inserted side n t rest entry t' := by
  have hwhole := h
  induction h generalizing rest with
  | @leaf side n label values hlhead hlbits hllen =>
    by_cases hp : label <+: rest
    · obtain rfl := hwhole.eq_label hlen hp
      refine ⟨ofLeaf rest (values ++ [entry]), ?_, .leaf hlhead hlbits hllen, fun k => ?_⟩
      · simp [ofLeaf, Subtree.insert, find?]
      · by_cases hk : k = rest <;> simp [hk]
    · exact hwhole.insert_of_leaves hhead hbits hlen hp entry
  | @branch side n m label left right hlhead hlbits hllen hleft hright ihl ihr =>
    by_cases hp : label <+: rest
    · obtain ⟨s, more, x, y, rfl, hmore, hs, hx, hy⟩ := hwhole.exists_sides hbits hlen hp
      have hm : more.length + 1 = m := by
        rw [List.length_append, List.length_cons] at hlen
        omega
      obtain ⟨x', hrun, hgrown, hfind⟩ : ∃ x', Inserted s m x (s :: more) entry x' := by
        cases hs with
        | left => exact ihl rfl hmore hm hleft
        | right => exact ihr rfl hmore hm hright
      have hfound := hs.find? more
      rw [Subtree.label] at hfound
      refine ⟨Subtree.fork label s x' y, ?_, ?_, fun k => ?_⟩
      · rw [ofBranch, hfound]
        exact hs.insert hrun
      · cases hs with
        | left => exact .branch hlhead hlbits hllen hgrown hright
        | right => exact .branch hlhead hlbits hllen hleft hgrown
      · rw [ofBranch, hfound]
        exact hs.find?_congr hfind k
    · exact hwhole.insert_of_leaves hhead hbits hlen hp entry

/-- A side of the root, vacant or not, takes an entry. -/
theorem exists_inserted {side : UInt8} {n : Nat} {t : Subtree} (h : t = vacant ∨ Grown side n t)
    {rest : Bits} (hhead : rest.head? = some side) (hbits : rest.WellFormed)
    (hlen : rest.length = n) (entry : ValueEntry) : ∃ t', Inserted side n t rest entry t' := by
  rcases h with rfl | h
  · exact ⟨ofLeaf rest [entry], rfl, .leaf hhead hbits hlen, fun k => rfl⟩
  · exact h.insert hhead hbits hlen entry

theorem Rooted.eq_ofBranch {n : Nat} {root : Subtree} (h : Rooted n root) :
    ∃ left right, root = ofBranch [] left right := by
  cases h
  exact ⟨_, _, rfl⟩

theorem Rooted.exists_sides {n : Nat} {root : Subtree} (h : Rooted n root) {side : UInt8}
    (hside : side = 0 ∨ side = 1) : ∃ x y, Sides root side x y := by
  obtain ⟨left, right, rfl⟩ := h.eq_ofBranch
  rcases hside with rfl | rfl
  · exact ⟨left, right, .left⟩
  · exact ⟨right, left, .right⟩

/-- Insertion at the root, which branches on the first bit of the key. -/
theorem Rooted.insert {n : Nat} {root : Subtree} (h : Rooted n root) {key : Bits} (hkey : key ≠ [])
    (hbits : key.WellFormed) (hlen : key.length = n) (entry : ValueEntry) :
    ∃ root', root.insert entry key = (root', .ok (root.find? key).isNone) ∧ Rooted n root' ∧
      ∀ k, root'.find? k =
        if k = key then some ((root.find? key).getD [] ++ [entry]) else root.find? k := by
  obtain ⟨s, more, rfl⟩ := List.exists_cons_of_ne_nil hkey
  obtain ⟨x, y, hs⟩ := h.exists_sides hbits.head
  obtain ⟨hlabel, hx⟩ := hs.hung h
  obtain ⟨x', hrun, hgrown, hfind⟩ := exists_inserted hx rfl hbits hlen entry
  have hfound := hs.find? more
  have hinserted := hs.insert hrun
  have hfinds := hs.find?_congr hfind
  rw [hlabel, List.nil_append] at hfound hinserted hfinds
  rw [hfound]
  refine ⟨fork [] s x' y, hinserted, ?_, hfinds⟩
  cases hs with
  | left =>
    cases h with
    | mk _ hright => exact .mk (.inr hgrown) hright
  | right =>
    cases h with
    | mk hleft _ => exact .mk hleft (.inr hgrown)

end Trie.Subtree

end KeyTransparency
