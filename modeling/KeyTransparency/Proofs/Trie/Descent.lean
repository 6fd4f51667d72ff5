import KeyTransparency.Proofs.Trie.Shape
import KeyTransparency.Trie.Walk

/-!
# The way down to a node, and the copath along it

`Below root copath side t` says that `t` hangs on `side` of the last branch on a way down from `root`,
and that `copath` lists the branches of that way as a proof does: the last one first, each with its
label and the hash of the child on the other side.  A walk stays on such a way, and folding it up
again gives the root hash:

    Below root copath side t → foldCopath t.hash? (side == 0) copath = root.hash?      (fold_below)
    root.walk key = ok walk,  Below root walk.copath side t,
      key = pathPrefix walk.copath ++ rest,  the walk ends at t with rest left          (walk_spec)
-/

namespace KeyTransparency

open Trie

/-! ## What verifying asks -/

theorem MembershipProof.verify_eq_ok_iff {proof : MembershipProof} {key : Bits}
    {values : List ValueEntry} {root : Hash} :
    proof.verify key values root = .ok () ↔
      ∃ side, proof.leafLabel.head? = some side ∧ pathPrefix proof.copath ++ proof.leafLabel = key ∧
        foldCopath (some (leafHash proof.leafLabel values)) (side == 0) proof.copath = some root := by
  unfold verify computeRoot
  cases hl : proof.leafLabel with
  | nil => simp
  | cons side low =>
    by_cases hkey : pathPrefix proof.copath ++ side :: low = key
    · simp only [List.head?_cons, Option.some.injEq, exists_eq_left', true_and, hkey]
      cases foldCopath (some (leafHash (side :: low) values)) (side == 0) proof.copath with
      | none => simp
      | some computed => simp
    · simp [hkey]

theorem NonMembershipProof.verify_eq_ok_iff {proof : NonMembershipProof} {key : Bits} {root : Hash} :
    proof.verify key root = .ok () ↔
      ∃ side more, proof.frontierLabel.head? = some side ∧
        key = pathPrefix proof.copath ++ side :: more ∧ proof.diverges (side :: more) = true ∧
        foldCopath proof.frontierHash (side == 0) proof.copath = some root := by
  unfold verify computeRoot
  cases hl : proof.frontierLabel with
  | nil => simp
  | cons side low =>
    simp only [List.head?_cons, Option.some.injEq]
    constructor
    · intro h
      split at h
      · cases h
      · next computed hcomputed =>
        split at hcomputed
        · next hok =>
          obtain ⟨⟨rest, rfl⟩, hhead, hdiverges⟩ := hok
          rw [List.drop_left] at hhead hdiverges
          obtain ⟨more, rfl⟩ := List.head?_eq_some_iff.1 hhead
          refine ⟨side, more, rfl, rfl, hdiverges, ?_⟩
          split at h
          · next heq => exact heq ▸ hcomputed
          · cases h
        · cases hcomputed
    · rintro ⟨_, more, rfl, rfl, hdiverges, hfold⟩
      rw [if_pos]
      · simp [hfold]
      · rw [List.drop_left]
        exact ⟨List.prefix_append _ _, rfl, hdiverges⟩

namespace Trie.Subtree

@[simp] theorem pathPrefix_nil : pathPrefix [] = [] := rfl

@[simp] theorem pathPrefix_cons (entry : CopathEntry) (above : List CopathEntry) :
    pathPrefix (entry :: above) = pathPrefix above ++ entry.label := by
  simp [pathPrefix]

/-! ## The way down -/

inductive Below (root : Subtree) : (copath : List CopathEntry) → (side : UInt8) → Subtree → Prop
  | top {side x y} : Sides root side x y → Below root [⟨root.label, y.hash?⟩] side x
  | down {above b t side x y} : Below root above b t → Sides t side x y →
      Below root (⟨t.label, y.hash?⟩ :: above) side x

namespace Below

variable {root t : Subtree} {copath : List CopathEntry} {side : UInt8} {n : Nat}

theorem copath_ne_nil (h : Below root copath side t) : copath ≠ [] := by
  cases h <;> exact List.cons_ne_nil _ _

theorem side_cases (h : Below root copath side t) : side = 0 ∨ side = 1 := by
  cases h with
  | top hs => exact hs.side_cases
  | down _ hs => exact hs.side_cases

/-- Only a side of the root can be vacant. -/
theorem grown (h : Below root copath side t) (hroot : Rooted n root) :
    ∃ m, (pathPrefix copath).length + m = n ∧
      (Grown side m t ∨ t = vacant ∧ copath.length = 1) := by
  induction h with
  | top hs =>
    obtain ⟨hlabel, hx⟩ := hs.hung hroot
    refine ⟨n, by simp [hlabel], ?_⟩
    rcases hx with hx | hx
    · exact .inr ⟨hx, rfl⟩
    · exact .inl hx
  | down _ hs ih =>
    obtain ⟨m, hlen, ht | ⟨ht, -⟩⟩ := ih
    · obtain ⟨k, hk, hx, -⟩ := hs.grown ht
      refine ⟨k, ?_, .inl hx⟩
      rw [pathPrefix_cons, List.length_append, Nat.add_assoc, hk, hlen]
    · subst ht
      cases hs

/-- A branch below the root is grown, since it is not vacant. -/
theorem grown_of_sides (h : Below root copath side t) (hroot : Rooted n root) {b : UInt8}
    {x y : Subtree} (hs : Sides t b x y) :
    ∃ m, (pathPrefix copath).length + m = n ∧ Grown side m t := by
  obtain ⟨m, hlen, ht | ⟨rfl, -⟩⟩ := h.grown hroot
  · exact ⟨m, hlen, ht⟩
  · cases hs

/-- The keys below a node are those that start with the labels above it. -/
theorem find? (h : Below root copath side t) (hroot : Rooted n root) (more : Bits) :
    root.find? (pathPrefix copath ++ side :: more) = t.find? (side :: more) := by
  induction h generalizing more with
  | top hs => simpa using hs.find? more
  | @down above b t side x y h hs ih =>
    obtain ⟨m, -, ht⟩ := h.grown_of_sides hroot hs
    obtain ⟨low, hlow⟩ := List.head?_eq_some_iff.1 ht.head
    rw [← hs.find? more, pathPrefix_cons, List.append_assoc, hlow, List.cons_append]
    exact ih _

theorem wellFormed (h : Below root copath side t) (hroot : Rooted n root) :
    (pathPrefix copath).WellFormed := by
  induction h with
  | top hs => simp [(hs.hung hroot).1, Bits.WellFormed]
  | down h hs ih =>
    obtain ⟨m, -, ht⟩ := h.grown_of_sides hroot hs
    rw [pathPrefix_cons]
    exact Bits.WellFormed.append_iff.2 ⟨ih, ht.wellFormed⟩

end Below

/-! ## Folding the copath -/

theorem foldCopath_cons {above : List CopathEntry} (h : above ≠ []) (entry : CopathEntry)
    (child : Option Hash) (fromLeft : Bool) :
    foldCopath child fromLeft (entry :: above) =
      match entry.label, entry.sibling with
      | side :: _, some _ => foldCopath (some (entry.join child fromLeft)) (side == 0) above
      | _, _ => none := by
  obtain ⟨a, as, rfl⟩ := List.exists_cons_of_ne_nil h
  rfl

theorem Grown.exists_hash {side : UInt8} {n : Nat} {t : Subtree} (h : Grown side n t) :
    ∃ hash, t.hash? = some hash := by
  cases h <;> exact ⟨_, rfl⟩

/-- Folding the copath of a node, vacant or not, gives the root hash. -/
theorem fold_below {root t : Subtree} {copath : List CopathEntry} {side : UInt8} {n : Nat}
    (h : Below root copath side t) (hroot : Rooted n root) :
    foldCopath t.hash? (side == 0) copath = root.hash? := by
  induction h with
  | @top side x y hs =>
    rw [foldCopath, if_pos (hs.hung hroot).1]
    exact hs.join (b := 0) (.inl hroot)
  | @down above b t side x y h hs ih =>
    obtain ⟨m, -, ht⟩ := h.grown_of_sides hroot hs
    obtain ⟨low, hlow⟩ := List.head?_eq_some_iff.1 ht.head
    obtain ⟨k, -, -, c, hy⟩ := hs.grown ht
    obtain ⟨sibling, hsibling⟩ := hy.exists_hash
    have hjoin := hs.join (.inr ht)
    rw [foldCopath_cons h.copath_ne_nil]
    simp only [hlow, hsibling] at hjoin ⊢
    rw [hjoin, ih]

/-! ## Walks -/

/-- How a walk can end at a node with `rest` of the key left. -/
inductive EndsAt : Ending → Subtree → (rest : Bits) → Prop
  | found {label values} : EndsAt (.found label values) (ofLeaf label values) label
  | vacant {side more} : EndsAt (.vacant side) vacant (side :: more)
  | diverged {t rest hash} : t.hash? = some hash → ¬ t.label <+: rest →
      EndsAt (.diverged t.label hash) t rest

/-- A walk under `key` that stays on the way down and ends properly. -/
structure Walked (root : Subtree) (key : Bits) (walk : Walk) (side : UInt8) (t : Subtree)
    (rest : Bits) : Prop where
  below : Below root walk.copath side t
  key_eq : key = pathPrefix walk.copath ++ rest
  head : rest.head? = some side
  ending : EndsAt walk.ending t rest

section

variable {root : Subtree} {n : Nat} {key : Bits}

/-- A branch is followed on the side of the next bit. -/
theorem follow_sides {t x y : Subtree} {above : List CopathEntry} {side : UInt8} {more : Bits}
    (hs : Sides t side x y) (hkey : key = pathPrefix above ++ (t.label ++ side :: more)) :
    t.follow key ((pathPrefix above).length + t.label.length) above =
      x.arrive (side :: more) side (⟨t.label, y.hash?⟩ :: above) fun _ =>
        x.follow key ((pathPrefix (⟨t.label, y.hash?⟩ :: above)).length + x.label.length)
          (⟨t.label, y.hash?⟩ :: above) := by
  have hdrop : key.drop ((pathPrefix above).length + t.label.length) = side :: more := by
    rw [hkey, ← List.append_assoc, ← List.length_append, List.drop_left]
  cases hs with
  | left =>
    rw [Subtree.label] at hdrop ⊢
    rw [follow, hdrop]
    simp
  | right =>
    rw [Subtree.label] at hdrop ⊢
    rw [follow, hdrop]
    simp

/-- Arriving at a node, the walk goes on or leaves its label. -/
theorem arrive_eq {t : Subtree} {hash : Hash} (h : t.hash? = some hash) (rest : Bits) (side : UInt8)
    (above : List CopathEntry) (onward : Unit → Except StructureFault Walk) :
    t.arrive rest side above onward =
      if t.label.isPrefixOf rest then onward () else .ok ⟨above, .diverged t.label hash⟩ := by
  cases t with
  | vacant => cases h
  | leaf =>
    cases h
    rfl
  | branch =>
    cases h
    rfl

theorem arrive_of_prefixed {t : Subtree} {rest : Bits} (ht : t ≠ vacant) (hp : t.label <+: rest)
    (side : UInt8) (above : List CopathEntry) (onward : Unit → Except StructureFault Walk) :
    t.arrive rest side above onward = onward () := by
  cases t with
  | vacant => exact absurd rfl ht
  | leaf => exact if_pos (List.isPrefixOf_iff_prefix.2 hp)
  | branch => exact if_pos (List.isPrefixOf_iff_prefix.2 hp)

/-- Where the key leaves the label of a node, the walk ends. -/
theorem arrive_of_leaves {t : Subtree} {above : List CopathEntry} {side : UInt8} {more : Bits}
    (h : Below root above side t) (hkey : key = pathPrefix above ++ side :: more) {hash : Hash}
    (hhash : t.hash? = some hash) (hleaves : ¬ t.label <+: side :: more)
    (onward : Unit → Except StructureFault Walk) :
    ∃ walk s u rest, t.arrive (side :: more) side above onward = .ok walk ∧
      Walked root key walk s u rest := by
  refine ⟨⟨above, .diverged t.label hash⟩, side, t, side :: more, ?_, h, hkey, rfl,
    .diverged hhash hleaves⟩
  rw [arrive_eq hhash, if_neg fun hp => hleaves (List.isPrefixOf_iff_prefix.1 hp)]

/-- Arriving at a child, the walk ends there or below. -/
theorem arrive_spec (hroot : Rooted n root) (hbits : key.WellFormed) (hlen : key.length = n)
    (t : Subtree) {above : List CopathEntry} {side : UInt8} {more : Bits}
    (h : Below root above side t) (hkey : key = pathPrefix above ++ side :: more) :
    ∃ walk s u rest, (t.arrive (side :: more) side above fun _ =>
        t.follow key ((pathPrefix above).length + t.label.length) above) = .ok walk ∧
      Walked root key walk s u rest := by
  obtain ⟨m, hm, hgrown⟩ := h.grown hroot
  have hrest : (side :: more).length = m := by
    rw [hkey, List.length_append] at hlen
    omega
  induction t generalizing above side more m with
  | vacant => exact ⟨⟨above, .vacant side⟩, side, .vacant, side :: more, rfl, h, hkey, rfl, .vacant⟩
  | leaf label values hash =>
    have ht := hgrown.resolve_right fun hv => nomatch hv.1
    by_cases hp : label <+: side :: more
    · have hlabel := ht.eq_label hrest hp
      have hfound : EndsAt (.found label values) (Subtree.leaf label values hash) label := by
        cases ht
        exact .found
      refine ⟨⟨above, .found label values⟩, side, _, label, ?_, h, hlabel ▸ hkey,
        by rw [← hlabel, List.head?_cons], hfound⟩
      rw [arrive_of_prefixed ht.ne_vacant hp, follow, if_pos]
      rw [hkey, List.length_append, hlabel]
      rfl
    · exact arrive_of_leaves h hkey rfl hp _
  | branch label left right hash ihl ihr =>
    have ht := hgrown.resolve_right fun hv => nomatch hv.1
    by_cases hp : label <+: side :: more
    · have hmore := (Bits.WellFormed.append_iff.1 (hkey ▸ hbits)).2
      obtain ⟨s, below, x, y, hbelow, -, hs, hx, -⟩ := ht.exists_sides hmore hrest hp
      rw [hbelow] at hkey
      have hkey' : key = pathPrefix (⟨label, y.hash?⟩ :: above) ++ s :: below := by
        rw [pathPrefix_cons, List.append_assoc]
        exact hkey
      rw [arrive_of_prefixed ht.ne_vacant hp, follow_sides hs hkey]
      obtain ⟨k, hk, hgrown'⟩ := (h.down hs).grown hroot
      have hrest' : (s :: below).length = k := by
        rw [hkey', List.length_append] at hlen
        exact Nat.add_left_cancel (hlen.trans hk.symm)
      have hdown := h.down hs
      cases hs with
      | left => exact ihl hdown hkey' k hk hgrown' hrest'
      | right => exact ihr hdown hkey' k hk hgrown' hrest'
    · exact arrive_of_leaves h hkey rfl hp _

/-- **Walks.**  Under a key of the trie's length a walk never fails: it ends below the root, at the
key's leaf, at a vacant side, or at a node whose label the key leaves. -/
theorem walk_spec (hroot : Rooted n root) (hkey : key ≠ []) (hbits : key.WellFormed)
    (hlen : key.length = n) :
    ∃ walk side t rest, root.walk key = .ok walk ∧ Walked root key walk side t rest := by
  obtain ⟨s, more, rfl⟩ := List.exists_cons_of_ne_nil hkey
  obtain ⟨x, y, hs⟩ := hroot.exists_sides hbits.head
  have hkey : s :: more = pathPrefix [] ++ (root.label ++ s :: more) := by
    rw [(hs.hung hroot).1]
    rfl
  have hfollow := follow_sides hs hkey
  rw [pathPrefix_nil, List.length_nil, Nat.zero_add] at hfollow
  rw [walk, hfollow]
  refine arrive_spec hroot hbits hlen x (.top hs) ?_
  rw [pathPrefix_cons]
  exact hkey

/-- Every child has a label. -/
def Labelled (t : Subtree) : Prop :=
  ∀ side x y, Sides t side x y → x = vacant ∨ ∃ n, Grown side n x

theorem Grown.labelled {side : UInt8} {t : Subtree} (h : Grown side n t) : Labelled t := by
  intro s x y hs
  obtain ⟨m, -, hx, -⟩ := hs.grown h
  exact .inr ⟨m, hx⟩

theorem Rooted.labelled {t : Subtree} (h : Rooted n t) : Labelled t := by
  intro s x y hs
  exact (hs.hung h).2.imp_right fun hx => ⟨n, hx⟩

end

end Trie.Subtree

end KeyTransparency
