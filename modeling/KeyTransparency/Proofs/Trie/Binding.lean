import KeyTransparency.Proofs.Trie.Soundness

/-!
# A membership proof is bound by the root it verifies against

Nothing is asked of the root here: it need not be that of a trie, so there is no trie to compare a
proof with.  Two proofs are compared with each other, from the root down.  Listed from the root, a
proof is a leaf below some branches, and what it hashes is hashed by recursion on these:

    proof.verify key values root = ok → root = openingHash leafLabel values copath.reverse
                                                                        (openingHash_of_verify)

A branch's hash fixes its label.  So two openings with one hash that spell out one key go on to the
same side, with the same rest of the key, and end at the same leaf:

    restOf label path = restOf label' path', openingHash … = openingHash …
      → path = path', label = label', values = values', or a collision          (opening_inj)
-/

namespace KeyTransparency

namespace Trie

/-! ## Openings -/

/-- What the branches of a path and the leaf below them spell out; the path lists them from the top. -/
def restOf (label : Bits) (path : List CopathEntry) : Bits :=
  (path.map CopathEntry.label).flatten ++ label

/-- Whether a node is reached from the left, `rest` being what is spelt out from it on. -/
def onLeft (rest : Bits) : Bool := rest.head? == some 0

/-- The hash at the top of a path that leads to a leaf. -/
def openingHash (label : Bits) (values : List ValueEntry) : (path : List CopathEntry) → Hash
  | [] => leafHash label values
  | entry :: below => entry.join (some (openingHash label values below)) (onLeft (restOf label below))

/-- What is hashed for it, from the top down. -/
def openingPreimages (label : Bits) (values : List ValueEntry) : (path : List CopathEntry) → List Bytes
  | [] => [leafPreimage label values]
  | entry :: below =>
    entry.joinPreimage (some (openingHash label values below)) (onLeft (restOf label below)) ::
      openingPreimages label values below

section

variable {label label' : Bits} {values values' : List ValueEntry} {path path' : List CopathEntry}
  {strings : List Bytes}

theorem restOf_cons (entry : CopathEntry) :
    restOf label (entry :: path) = entry.label ++ restOf label path := by
  simp [restOf]

theorem restOf_reverse (copath : List CopathEntry) :
    restOf label copath.reverse = pathPrefix copath ++ label := rfl

theorem onLeft_of_head {rest : Bits} {side : UInt8} (h : rest.head? = some side) :
    onLeft rest = (side == 0) := by
  rw [onLeft, h]
  rfl

/-- Folding a copath goes on with the opening below it: what is folded in the end is the opening of
both together. -/
theorem openingHash_of_fold {copath : List CopathEntry} {root : Hash}
    (hfold : foldCopath (some (openingHash label values path)) (onLeft (restOf label path)) copath =
      some root) :
    root = openingHash label values (copath.reverse ++ path) ∧
      openingPreimages label values (copath.reverse ++ path) ⊆
        foldPreimages (some (openingHash label values path)) (onLeft (restOf label path)) copath ++
          openingPreimages label values path := by
  induction copath generalizing path with
  | nil => cases hfold
  | cons entry above ih =>
    rw [List.reverse_cons, List.append_assoc, List.singleton_append]
    by_cases habove : above = []
    · subst habove
      rw [foldCopath] at hfold
      split at hfold
      · next hlabel =>
        refine ⟨(Option.some.inj hfold).symm, ?_⟩
        rw [foldPreimages, if_pos hlabel]
        exact List.Subset.refl _
      · cases hfold
    · obtain ⟨side, hside, hfold, hhashed⟩ := foldCopath_cons_eq_some habove hfold
      have hhead : (restOf label (entry :: path)).head? = some side := by
        obtain ⟨low, hlow⟩ := List.head?_eq_some_iff.1 hside
        rw [restOf_cons, hlow, List.cons_append, List.head?_cons]
      rw [← onLeft_of_head hhead] at hfold hhashed
      have hopened : foldCopath (some (openingHash label values (entry :: path)))
          (onLeft (restOf label (entry :: path))) above = some root := hfold
      obtain ⟨hroot, hsub⟩ := ih hopened
      refine ⟨hroot, List.Subset.trans hsub ?_⟩
      rw [hhashed]
      intro string hstring
      rcases List.mem_append.1 hstring with hmem | hmem
      · exact List.mem_append_left _ (List.mem_cons_of_mem _ hmem)
      · rcases List.mem_cons.1 hmem with rfl | hmem
        · exact List.mem_append_left _ List.mem_cons_self
        · exact List.mem_append_right _ hmem

/-! ## One opening for one hash -/

/-- The string hashed for a branch says its label, on whichever side it is entered. -/
theorem label_of_joinPreimage {entry entry' : CopathEntry} {child child' : Option Hash} {left left' : Bool}
    (h : entry.joinPreimage child left = entry'.joinPreimage child' left') :
    entry.label = entry'.label := by
  cases left <;> cases left' <;> exact (internalPreimage_inj h).1

/-- Entered on one side, it says everything. -/
theorem joinPreimage_inj {entry entry' : CopathEntry} {child child' : Option Hash} {left : Bool}
    (h : entry.joinPreimage child left = entry'.joinPreimage child' left) :
    entry = entry' ∧ child = child' := by
  obtain ⟨label, sibling⟩ := entry
  obtain ⟨label', sibling'⟩ := entry'
  cases left with
  | true =>
    obtain ⟨rfl, rfl, rfl⟩ := internalPreimage_inj h
    exact ⟨rfl, rfl⟩
  | false =>
    obtain ⟨rfl, rfl, rfl⟩ := internalPreimage_inj h
    exact ⟨rfl, rfl⟩

theorem leafPreimage_ne_joinPreimage {entry : CopathEntry} {child : Option Hash} {left : Bool} :
    leafPreimage label values ≠ entry.joinPreimage child left := by
  cases left <;> exact leafPreimage_ne_internalPreimage

/-- **Openings of one key with one hash are the same**, if the strings hashed do not collide. -/
theorem opening_inj (hfree : ¬ Collision strings)
    (hstrings : openingPreimages label values path ⊆ strings)
    (hstrings' : openingPreimages label' values' path' ⊆ strings)
    (hkey : restOf label path = restOf label' path')
    (hhash : openingHash label values path = openingHash label' values' path') :
    path = path' ∧ label = label' ∧ values = values' := by
  induction path generalizing path' with
  | nil =>
    cases path' with
    | nil =>
      obtain rfl : label = label' := hkey
      have hsame := eq_of_digest_eq hfree (hstrings List.mem_cons_self) (hstrings' List.mem_cons_self)
        hhash
      exact ⟨rfl, rfl, values_of_leafPreimage hsame⟩
    | cons entry' below' =>
      rw [openingHash, openingHash, CopathEntry.join_eq] at hhash
      exact absurd (eq_of_digest_eq hfree (hstrings List.mem_cons_self)
        (hstrings' List.mem_cons_self) hhash) leafPreimage_ne_joinPreimage
  | cons entry below ih =>
    cases path' with
    | nil =>
      rw [openingHash, openingHash, CopathEntry.join_eq] at hhash
      exact absurd (eq_of_digest_eq hfree (hstrings' List.mem_cons_self)
        (hstrings List.mem_cons_self) hhash.symm) leafPreimage_ne_joinPreimage
    | cons entry' below' =>
      rw [openingHash, openingHash, CopathEntry.join_eq, CopathEntry.join_eq] at hhash
      have hsame := eq_of_digest_eq hfree (hstrings List.mem_cons_self) (hstrings' List.mem_cons_self)
        hhash
      -- with one label above it, the rest of the key is one, and so is the side it goes on to
      rw [restOf_cons, restOf_cons, label_of_joinPreimage hsame] at hkey
      have hrest := List.append_cancel_left hkey
      rw [hrest] at hsame
      obtain ⟨rfl, hchild⟩ := joinPreimage_inj hsame
      obtain ⟨rfl, hleaf⟩ := ih (List.subset_of_cons_subset hstrings)
        (List.subset_of_cons_subset hstrings') hrest (Option.some.inj hchild)
      exact ⟨rfl, hleaf⟩

end

end Trie

/-! ## Membership proofs -/

namespace MembershipProof

open Trie

variable {proof : MembershipProof} {key : Bits} {values : List ValueEntry} {root : Hash}

/-- A proof that verifies spells out the key, and opens the root. -/
theorem openingHash_of_verify (h : proof.verify key values root = .ok ()) :
    restOf proof.leafLabel proof.copath.reverse = key ∧
      root = openingHash proof.leafLabel values proof.copath.reverse ∧
      openingPreimages proof.leafLabel values proof.copath.reverse ⊆ proof.preimages key values := by
  obtain ⟨side, hlabel, hkey, hfold⟩ := verify_eq_ok_iff.1 h
  have hside : onLeft (restOf proof.leafLabel []) = (side == 0) := onLeft_of_head hlabel
  rw [← hside] at hfold
  have hopened : foldCopath (some (openingHash proof.leafLabel values []))
      (onLeft (restOf proof.leafLabel [])) proof.copath = some root := hfold
  obtain ⟨hroot, hsub⟩ := openingHash_of_fold hopened
  rw [List.append_nil] at hroot hsub
  refine ⟨(restOf_reverse proof.copath).trans hkey, hroot, List.Subset.trans hsub ?_⟩
  rw [preimages_of_verify values hlabel hkey, hside]
  intro string hstring
  rcases List.mem_append.1 hstring with hmem | hmem
  · exact List.mem_cons_of_mem _ hmem
  · rw [List.mem_singleton.1 hmem]
    exact List.mem_cons_self

/-- **A root binds what is proved of a key.**  Whatever the root, two proofs of one key that verify
against it are the same, with the same values, unless two of the strings hashed to verify them
collide. -/
theorem verify_unique (root : Hash) (key : Bits) (proof proof' : MembershipProof)
    (values values' : List ValueEntry) (hverify : proof.verify key values root = .ok ())
    (hverify' : proof'.verify key values' root = .ok ()) :
    (values = values' ∧ proof.leafLabel = proof'.leafLabel ∧ proof.copath = proof'.copath) ∨
      Collision (proof.preimages key values ++ proof'.preimages key values') := by
  by_cases hcol : Collision (proof.preimages key values ++ proof'.preimages key values')
  · exact .inr hcol
  · obtain ⟨hkey, hroot, hsub⟩ := openingHash_of_verify hverify
    obtain ⟨hkey', hroot', hsub'⟩ := openingHash_of_verify hverify'
    obtain ⟨hpath, hlabel, hvalues⟩ := opening_inj hcol
      (List.subset_append_of_subset_left _ hsub) (List.subset_append_of_subset_right _ hsub')
      (hkey.trans hkey'.symm) (hroot.symm.trans hroot')
    exact .inl ⟨hvalues, hlabel, List.reverse_injective hpath⟩

/-- A root that no trie has, since the branch below it is labelled with a byte that is no bit. -/
theorem verify_unique_dishonest_root :
    let values : List ValueEntry := [⟨Hash.zero, 0⟩, ⟨Hash.zero, 7⟩]
    let proof : MembershipProof := ⟨[1, 0], [⟨[0, 9], some Hash.zero⟩, ⟨[], none⟩]⟩
    let root := openingHash [1, 0] values proof.copath.reverse
    proof.verify [0, 9, 1, 0] values root = .ok () ∧
      ((values = values ∧ proof.leafLabel = proof.leafLabel ∧ proof.copath = proof.copath) ∨
        Collision (proof.preimages [0, 9, 1, 0] values ++ proof.preimages [0, 9, 1, 0] values)) := by
  intro values proof root
  have hverify : proof.verify [0, 9, 1, 0] values root = .ok () := by decide +kernel
  exact ⟨hverify, verify_unique root [0, 9, 1, 0] proof proof values values hverify hverify⟩

end MembershipProof

end KeyTransparency
