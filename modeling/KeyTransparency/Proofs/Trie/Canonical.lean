import KeyTransparency.Proofs.Trie.Run

/-!
# A trie is determined by what it holds

The compressed trie of a set of keys is unique, so the order in which keys arrive leaves no trace.
The label of a node is the longest string that all keys found below it start with
(`Grown.label_greatest`), hence two nodes under which the same is found have one label, and then the
same is found under their children.  The hashes are part of what is compared: every node of a grown
trie carries the hash of what hangs below it.

    Grown side n t,  Grown side' n' t',  ∀ k, t.find? k = t'.find? k → t = t'    (Grown.eq_of_find?)
    empty.insertAll first = empty.insertAll second ↔
      every key has the same accepted entries in both, in the same order           (insertAll_eq_iff)
-/

namespace KeyTransparency

namespace Bits

/-- What two strings share that part behind `label` is part of the label. -/
theorem isPrefix_of_parted {u label x y : Bits} (hx : u <+: label ++ 0 :: x)
    (hy : u <+: label ++ 1 :: y) : u <+: label := by
  rcases List.prefix_or_prefix_of_prefix hx (List.prefix_append label (0 :: x)) with hu | ⟨w, rfl⟩
  · exact hu
  · rw [List.prefix_append_right_inj] at hx hy
    cases w with
    | nil => rw [List.append_nil]
    | cons b w =>
      obtain ⟨hb, -⟩ := List.cons_prefix_cons.1 hx
      obtain ⟨hb', -⟩ := List.cons_prefix_cons.1 hy
      exact absurd (hb.symm.trans hb') (by decide)

end Bits

namespace Trie.Subtree

variable {side side' : UInt8} {n n' : Nat} {t t' : Subtree}

/-! ## What is found below a node -/

theorem Grown.exists_find? (h : Grown side n t) :
    ∃ more values, t.find? (side :: more) = some values := by
  induction h with
  | @leaf side n label values hhead =>
    obtain ⟨more, rfl⟩ := List.head?_eq_some_iff.1 hhead
    exact ⟨more, values, if_pos rfl⟩
  | @branch side n m label left right hhead _ _ _ _ ihleft =>
    obtain ⟨low, rfl⟩ := List.head?_eq_some_iff.1 hhead
    obtain ⟨more, values, hfind⟩ := ihleft
    refine ⟨low ++ 0 :: more, values, ?_⟩
    rw [← List.cons_append, ofBranch, find?_branch_append]
    exact hfind

/-- The label of a node is the longest string that the keys found below start with. -/
theorem Grown.label_greatest (h : Grown side n t) {u : Bits}
    (hu : ∀ k, t.find? k ≠ none → u <+: k) : u <+: t.label := by
  cases h with
  | leaf => exact hu _ (by rw [find?_ofLeaf, if_pos (label_ofLeaf _ _)]; exact Option.some_ne_none _)
  | branch _ _ _ hleft hright =>
    -- Keys are found on both sides, and they part behind the label.
    obtain ⟨x, values, hx⟩ := hleft.exists_find?
    obtain ⟨y, values', hy⟩ := hright.exists_find?
    refine Bits.isPrefix_of_parted (hu (_ ++ 0 :: x) ?_) (hu (_ ++ 1 :: y) ?_)
    · rw [label_ofBranch, ofBranch, find?_branch_append, if_pos rfl, hx]
      exact Option.some_ne_none _
    · rw [label_ofBranch, ofBranch, find?_branch_append, if_neg (by decide), hy]
      exact Option.some_ne_none _

/-- The label is part of every key found. -/
theorem label_isPrefix_of_find? {k : Bits} (h : t.find? k ≠ none) : t.label <+: k := by
  by_contra hleaves
  exact h (find?_eq_none_of_leaves hleaves)

theorem Grown.label_eq (h : Grown side n t) (h' : Grown side' n' t')
    (hfind : ∀ k, t.find? k = t'.find? k) : t.label = t'.label := by
  have hle : t.label <+: t'.label :=
    h'.label_greatest fun k hk => label_isPrefix_of_find? (hfind k ▸ hk)
  have hge : t'.label <+: t.label :=
    h.label_greatest fun k hk => label_isPrefix_of_find? (hfind k ▸ hk)
  exact hle.eq_of_length_le hge.length_le

/-! ## The two sides of a branch -/

/-- On one side of a branch only keys are found that start with its bit. -/
theorem find?_eq_of_side (h : t = vacant ∨ Grown side n t) (h' : t' = vacant ∨ Grown side n' t')
    (hfind : ∀ more, t.find? (side :: more) = t'.find? (side :: more)) (k : Bits) :
    t.find? k = t'.find? k := by
  have hnone {m : Nat} {x : Subtree} (hx : x = vacant ∨ Grown side m x) (hk : k.head? ≠ some side) :
      x.find? k = none := by
    rcases hx with rfl | hx
    · rfl
    · exact find?_eq_none_of_head hx.head hk
  by_cases hk : k.head? = some side
  · obtain ⟨more, rfl⟩ := List.head?_eq_some_iff.1 hk
    exact hfind more
  · rw [hnone h hk, hnone h' hk]

/-- Where branches with one label hold the same, so do their children. -/
theorem sides_find?_eq {label : Bits} {left right left' right' : Subtree}
    (hleft : left = vacant ∨ Grown 0 n left) (hleft' : left' = vacant ∨ Grown 0 n' left')
    (hright : right = vacant ∨ Grown 1 n right) (hright' : right' = vacant ∨ Grown 1 n' right')
    (hfind : ∀ k, (ofBranch label left right).find? k = (ofBranch label left' right').find? k) :
    (∀ k, left.find? k = left'.find? k) ∧ ∀ k, right.find? k = right'.find? k := by
  have hside (b : UInt8) (more : Bits) : (if b = 0 then left else right).find? (b :: more) =
      (if b = 0 then left' else right').find? (b :: more) := by
    have hk := hfind (label ++ b :: more)
    rwa [ofBranch, ofBranch, find?_branch_append, find?_branch_append] at hk
  exact ⟨find?_eq_of_side hleft hleft' (hside 0), find?_eq_of_side hright hright' (hside 1)⟩

/-! ## Uniqueness -/

/-- Two nodes under which the same is found are the same, labels, values and hashes included. -/
theorem Grown.eq_of_find? (h : Grown side n t) (h' : Grown side' n' t')
    (hfind : ∀ k, t.find? k = t'.find? k) : t = t' := by
  induction h generalizing side' n' t' with
  | @leaf side n label values hhead hbits hlen =>
    have h : Grown side n (ofLeaf label values) := .leaf hhead hbits hlen
    have hlabel := h.label_eq h' hfind
    have hself := hfind label
    rw [find?_ofLeaf, if_pos rfl] at hself
    cases h' with
    | leaf =>
      cases hlabel
      rw [find?_ofLeaf, if_pos rfl] at hself
      rw [Option.some.inj hself]
    | branch =>
      -- A branch holds nothing under its own label.
      cases hlabel
      exact absurd (hself.trans (find?_branch_self _ _ _ _)) (Option.some_ne_none _)
  | @branch side n m label left right hhead hbits hlen hleft hright ihleft ihright =>
    have hlabel := (Grown.branch hhead hbits hlen hleft hright).label_eq h' hfind
    cases h' with
    | leaf =>
      cases hlabel
      have hself := hfind label
      rw [find?_ofLeaf, if_pos rfl] at hself
      exact absurd (hself.symm.trans (find?_branch_self _ _ _ _)) (Option.some_ne_none _)
    | branch _ _ _ hleft' hright' =>
      cases hlabel
      obtain ⟨hl, hr⟩ :=
        sides_find?_eq (.inr hleft) (.inr hleft') (.inr hright) (.inr hright') hfind
      rw [ihleft hleft' hl, ihright hright' hr]

theorem eq_of_find?_side (h : t = vacant ∨ Grown side n t) (h' : t' = vacant ∨ Grown side n' t')
    (hfind : ∀ k, t.find? k = t'.find? k) : t = t' := by
  rcases h with rfl | h
  · rcases h' with rfl | h'
    · rfl
    · obtain ⟨more, values, hmore⟩ := h'.exists_find?
      exact absurd ((hfind _).trans hmore) (Option.some_ne_none _).symm
  · rcases h' with rfl | h'
    · obtain ⟨more, values, hmore⟩ := h.exists_find?
      exact absurd ((hfind _).symm.trans hmore) (Option.some_ne_none _).symm
    · exact h.eq_of_find? h' hfind

theorem Rooted.eq_of_find? (h : Rooted n t) (h' : Rooted n' t')
    (hfind : ∀ k, t.find? k = t'.find? k) : t = t' := by
  cases h with
  | mk hleft hright =>
    cases h' with
    | mk hleft' hright' =>
      obtain ⟨hl, hr⟩ := sides_find?_eq hleft hleft' hright hright' hfind
      rw [eq_of_find?_side hleft hleft' hl, eq_of_find?_side hright hright' hr]

end Trie.Subtree

namespace PrefixTrie

open Trie Subtree

variable {trie trie' : PrefixTrie} {done done' inserts : List Insertion}

/-- Tries that hold the same under every key are the same. -/
theorem Reached.eq_of_entriesUnder (h : Reached trie done) (h' : Reached trie' done')
    (hlength : trie.keyLength = trie'.keyLength)
    (hsame : ∀ key, entriesUnder key done = entriesUnder key done') : trie = trie' := by
  have hroot : trie.root = trie'.root := by
    refine (h.rooted (trie.keyLength.getD 0) (by simp +contextual)).eq_of_find?
      (h'.rooted (trie'.keyLength.getD 0) (by simp +contextual)) fun key => ?_
    rw [h.find, h'.find, held?_eq_iff]
    exact hsame key
  have hkeys : (done.map Prod.fst).toFinset = (done'.map Prod.fst).toFinset := by
    ext key
    have hnone := (isNone_held? key done).symm.trans
      ((congrArg Option.isNone (held?_eq_iff.2 (hsame key))).trans (isNone_held? key done'))
    rw [List.mem_toFinset, List.mem_toFinset]
    exact not_iff_not.1 (decide_eq_decide.1 hnone)
  have hsize : trie.size = trie'.size := by rw [h.size, h'.size, hkeys]
  have hsealed : trie.isSealed = trie'.isSealed := h.unsealed.trans h'.unsealed.symm
  cases trie
  cases trie'
  cases hroot
  cases hlength
  cases hsize
  cases hsealed
  rfl

/-! ## The length that a run fixes -/

/-- A run fixes the length of the keys that it takes, and none if it takes no key. -/
theorem Reached.keyLength_insertAll_iff (h : Reached trie done)
    (hbits : ∀ insertion ∈ inserts, insertion.1.WellFormed) {n : Nat} :
    (trie.insertAll inserts).keyLength = some n ↔
      trie.keyLength = some n ∨ ∃ insertion ∈ trie.accepted inserts, insertion.1.length = n := by
  induction inserts generalizing trie done with
  | nil => simp [PrefixTrie.insertAll, accepted]
  | cons first inserts ih =>
    obtain ⟨key, entry⟩ := first
    have hrest := fun i hi => hbits i (List.mem_cons_of_mem _ hi)
    by_cases hkey : trie.Admits key
    · obtain ⟨trie', hrun, hlength, -, h'⟩ := h.insert hkey (hbits _ List.mem_cons_self) entry
      rw [insertAll_cons hrun, accepted_cons_of_ok hrun, ih h' hrest, hlength]
      constructor
      · rintro (hn | ⟨insertion, hmem, hn⟩)
        · exact .inr ⟨_, List.mem_cons_self, Option.some.inj hn⟩
        · exact .inr ⟨insertion, List.mem_cons_of_mem _ hmem, hn⟩
      · rintro (hn | ⟨insertion, hmem, hn⟩)
        · rw [hkey.2 n hn]
          exact .inl rfl
        · rcases List.mem_cons.1 hmem with rfl | hmem
          · exact .inl (congrArg some hn)
          · exact .inr ⟨insertion, hmem, hn⟩
    · obtain ⟨m, hrun⟩ := insert_eq_error h.unsealed hkey entry
      rw [insertAll_cons hrun, accepted_cons_of_refused hrun]
      exact ih h hrest

/-- **The trie is canonical.**  Two runs from the same empty trie end in the same trie if and only
if they took the same entries under every key, in the same order for each key. -/
theorem insertAll_eq_iff (keyLength : Option Nat) {first second : List Insertion}
    (hfirst : ∀ insertion ∈ first, insertion.1.WellFormed)
    (hsecond : ∀ insertion ∈ second, insertion.1.WellFormed) :
    (empty keyLength).insertAll first = (empty keyLength).insertAll second ↔
      ∀ key, entriesUnder key ((empty keyLength).accepted first) =
        entriesUnder key ((empty keyLength).accepted second) := by
  have h := reached_insertAll keyLength hfirst
  have h' := reached_insertAll keyLength hsecond
  constructor
  · intro heq key
    rw [← held?_eq_iff, ← h.find, ← h'.find, heq]
  · intro hsame
    have htaken (insertion : Insertion) : insertion ∈ (empty keyLength).accepted first ↔
        insertion ∈ (empty keyLength).accepted second := by
      rw [← mem_entriesUnder_iff, hsame insertion.1, mem_entriesUnder_iff]
    refine h.eq_of_entriesUnder h' (Option.ext fun n => ?_) hsame
    rw [(reached_empty keyLength).keyLength_insertAll_iff hfirst,
      (reached_empty keyLength).keyLength_insertAll_iff hsecond]
    simp only [htaken]

/-! ## Keys of one length -/

theorem admits_iff {n : Nat} {key : Bits} (hkey : key.length = n) :
    trie.Admits key ↔ n ≠ 0 ∧ trie.keyLength.getD n = n := by
  subst hkey
  unfold Admits
  cases trie.keyLength <;> simp

/-- A trie takes all keys of its length. -/
theorem Reached.accepted_eq_self (h : Reached trie done) {n : Nat} (hn : n ≠ 0)
    (hlength : trie.keyLength.getD n = n)
    (hkeys : ∀ insertion ∈ inserts, insertion.1.WellFormed ∧ insertion.1.length = n) :
    trie.accepted inserts = inserts := by
  induction inserts generalizing trie done with
  | nil => rfl
  | cons first inserts ih =>
    obtain ⟨key, entry⟩ := first
    obtain ⟨hbits, hkey⟩ := hkeys _ List.mem_cons_self
    obtain ⟨trie', hrun, hlength', -, h'⟩ :=
      h.insert ((admits_iff hkey).2 ⟨hn, hlength⟩) hbits entry
    rw [accepted_cons_of_ok hrun, ih h' _ fun i hi => hkeys i (List.mem_cons_of_mem _ hi)]
    rw [hlength', Option.getD_some, hkey]

/-- A trie of another length takes none. -/
theorem accepted_eq_nil (hsealed : trie.isSealed = false) {n : Nat}
    (hn : ¬ (n ≠ 0 ∧ trie.keyLength.getD n = n))
    (hkeys : ∀ insertion ∈ inserts, insertion.1.length = n) : trie.accepted inserts = [] := by
  induction inserts with
  | nil => rfl
  | cons first inserts ih =>
    obtain ⟨key, entry⟩ := first
    obtain ⟨m, hrun⟩ :=
      insert_eq_error hsealed (fun hkey => hn ((admits_iff (hkeys _ List.mem_cons_self)).1 hkey)) entry
    rw [accepted_cons_of_refused hrun]
    exact ih fun i hi => hkeys i (List.mem_cons_of_mem _ hi)

/-- **The order of insertions does not matter.**  Where well-formed keys of one length go into two
tries that expect the same length and every key receives the same entries in the same order, whatever
the order between the keys, the two tries are the same: every node with its label, values and hash,
the number of keys and the length.  Where the keys are admitted this is also the only way to the same
trie. -/
theorem insertion_order_irrelevant (keyLength : Option Nat) {n : Nat} {first second : List Insertion}
    (hfirst : ∀ insertion ∈ first, insertion.1.WellFormed ∧ insertion.1.length = n)
    (hsecond : ∀ insertion ∈ second, insertion.1.WellFormed ∧ insertion.1.length = n) :
    ((∀ key, entriesUnder key first = entriesUnder key second) →
      (empty keyLength).insertAll first = (empty keyLength).insertAll second) ∧
    (n ≠ 0 → keyLength.getD n = n →
      (empty keyLength).insertAll first = (empty keyLength).insertAll second →
      ∀ key, entriesUnder key first = entriesUnder key second) := by
  have hiff := insertAll_eq_iff keyLength (fun i hi => (hfirst i hi).1) (fun i hi => (hsecond i hi).1)
  by_cases hn : n ≠ 0 ∧ keyLength.getD n = n
  · rw [(reached_empty keyLength).accepted_eq_self hn.1 hn.2 hfirst,
      (reached_empty keyLength).accepted_eq_self hn.1 hn.2 hsecond] at hiff
    exact ⟨hiff.2, fun _ _ => hiff.1⟩
  · -- Both tries refuse all of the keys.
    rw [accepted_eq_nil rfl hn fun i hi => (hfirst i hi).2,
      accepted_eq_nil rfl hn fun i hi => (hsecond i hi).2] at hiff
    exact ⟨fun _ => hiff.2 fun _ => rfl, fun hpos hlength => absurd ⟨hpos, hlength⟩ hn⟩

/-- Three keys in two orders, one of them with two entries. -/
theorem insertion_order_irrelevant_three_keys :
    let first : List Insertion := [([0, 0, 0], ⟨Hash.zero, 0⟩), ([1, 1, 1], ⟨Hash.zero, 1⟩),
      ([0, 0, 1], ⟨Hash.zero, 2⟩), ([0, 0, 0], ⟨Hash.zero, 3⟩)]
    let second : List Insertion := [([0, 0, 1], ⟨Hash.zero, 2⟩), ([0, 0, 0], ⟨Hash.zero, 0⟩),
      ([0, 0, 0], ⟨Hash.zero, 3⟩), ([1, 1, 1], ⟨Hash.zero, 1⟩)]
    (∀ insertion ∈ first, insertion.1.WellFormed ∧ insertion.1.length = 3) ∧
      (∀ insertion ∈ second, insertion.1.WellFormed ∧ insertion.1.length = 3) ∧
      (∀ key, entriesUnder key first = entriesUnder key second) ∧
      (empty none).insertAll first = (empty none).insertAll second := by
  intro first second
  have hfirst : ∀ insertion ∈ first, insertion.1.WellFormed ∧ insertion.1.length = 3 := by decide
  have hsecond : ∀ insertion ∈ second, insertion.1.WellFormed ∧ insertion.1.length = 3 := by decide
  have hsame (key : Bits) : entriesUnder key first = entriesUnder key second := by
    by_cases h₁ : [0, 0, 1] = key
    · subst h₁
      decide
    · by_cases h₂ : [1, 1, 1] = key
      · subst h₂
        decide
      · simp [entriesUnder, first, second, List.filter_cons, h₁, h₂]
  exact ⟨hfirst, hsecond, hsame, (insertion_order_irrelevant none hfirst hsecond).1 hsame⟩

end PrefixTrie

end KeyTransparency
