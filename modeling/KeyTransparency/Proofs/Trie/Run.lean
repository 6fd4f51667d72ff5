import KeyTransparency.Proofs.Trie.Shape
import KeyTransparency.Trie.Prefix
import Mathlib.Data.Finset.Dedup
import Mathlib.Data.Finset.Card

/-!
# Runs of insertions into a trie

`insertAll` is the trie after a list of insertions and `accepted` lists those that it took.  `Reached
trie done` is the invariant that a run keeps: the root has the shape of a trie, holds under every key
the entries of `done` in their order, and counts the keys of `done`.

    Admits trie key → trie.insert key entry = (trie', ok),  Reached trie' (done ++ [(key, entry)])
    ¬ Admits trie key → trie.insert key entry = (trie, error)
    Reached (empty.insertAll inserts) (empty.accepted inserts)                   (reached_insertAll)
-/

namespace KeyTransparency

open Trie Subtree

abbrev Insertion := Bits × ValueEntry

/-- The entries inserted under `key`, in their order. -/
def entriesUnder (key : Bits) (done : List Insertion) : List ValueEntry :=
  (done.filter fun insertion => insertion.1 = key).map Prod.snd

theorem mem_entriesUnder_iff {key : Bits} {done : List Insertion} {entry : ValueEntry} :
    entry ∈ entriesUnder key done ↔ (key, entry) ∈ done := by
  rw [entriesUnder, List.mem_map]
  constructor
  · rintro ⟨insertion, hmem, rfl⟩
    obtain ⟨hdone, hkey⟩ := List.mem_filter.1 hmem
    rw [← of_decide_eq_true hkey]
    exact hdone
  · intro hmem
    exact ⟨_, List.mem_filter.2 ⟨hmem, decide_eq_true rfl⟩, rfl⟩

/-- What a trie holds under `key` after the insertions `done`. -/
def held? (key : Bits) (done : List Insertion) : Option (List ValueEntry) :=
  if entriesUnder key done = [] then none else some (entriesUnder key done)

namespace PrefixTrie

/-- The trie after trying one insertion after the other. -/
def insertAll (trie : PrefixTrie) (inserts : List Insertion) : PrefixTrie :=
  inserts.foldl (fun trie insertion => (trie.insert insertion.1 insertion.2).1) trie

/-- The insertions that went through. -/
def accepted (trie : PrefixTrie) : (inserts : List Insertion) → List Insertion
  | [] => []
  | (key, entry) :: inserts =>
    match trie.insert key entry with
    | (next, .ok ()) => (key, entry) :: next.accepted inserts
    | (next, .error _) => next.accepted inserts

section Cons

variable {trie trie' : PrefixTrie} {inserts : List Insertion} {key : Bits} {entry : ValueEntry}

theorem accepted_cons_of_ok (hrun : trie.insert key entry = (trie', .ok ())) :
    trie.accepted ((key, entry) :: inserts) = (key, entry) :: trie'.accepted inserts := by
  rw [accepted, hrun]

theorem accepted_cons_of_refused {e : Error} (hrun : trie.insert key entry = (trie', .error e)) :
    trie.accepted ((key, entry) :: inserts) = trie'.accepted inserts := by
  rw [accepted, hrun]

theorem insertAll_cons {answer : Except Error Unit} (hrun : trie.insert key entry = (trie', answer)) :
    trie.insertAll ((key, entry) :: inserts) = trie'.insertAll inserts := by
  rw [insertAll, List.foldl_cons, hrun]
  rfl

end Cons

/-- A key of the trie's length, of any length while none is fixed. -/
def Admits (trie : PrefixTrie) (key : Bits) : Prop :=
  key ≠ [] ∧ ∀ n, trie.keyLength = some n → n = key.length

instance (trie : PrefixTrie) (key : Bits) : Decidable (trie.Admits key) :=
  decidable_of_iff (key ≠ [] ∧ trie.keyLength.getD key.length = key.length) <| by
    unfold Admits
    cases trie.keyLength <;> simp

theorem checkKey_eq_ok {trie : PrefixTrie} {key : Bits} (h : trie.Admits key) :
    trie.checkKey key = .ok () := by
  obtain ⟨hkey, hlen⟩ := h
  obtain ⟨b, bs, rfl⟩ := List.exists_cons_of_ne_nil hkey
  unfold checkKey
  cases hn : trie.keyLength with
  | none => rfl
  | some n => simp [hlen n hn]

theorem checkKey_eq_error {trie : PrefixTrie} {key : Bits} (h : ¬ trie.Admits key) :
    ∃ n, trie.checkKey key = .error (.keyLength n key.length) := by
  unfold checkKey
  cases key with
  | nil => exact ⟨trie.keyLength.getD 1, rfl⟩
  | cons b bs =>
    cases hn : trie.keyLength with
    | none => exact absurd ⟨List.cons_ne_nil _ _, by simp [hn]⟩ h
    | some n =>
      by_cases he : n = (b :: bs).length
      · exact absurd ⟨List.cons_ne_nil _ _, by simpa [hn] using he⟩ h
      · exact ⟨n, if_neg he⟩

/-- What is known of a trie that took the insertions `done`. -/
structure Reached (trie : PrefixTrie) (done : List Insertion) : Prop where
  unsealed : trie.isSealed = false
  rooted : ∀ n, (∀ m, trie.keyLength = some m → m = n) → Rooted n trie.root
  find : ∀ k, trie.root.find? k = held? k done
  size : trie.size = (done.map Prod.fst).toFinset.card

theorem reached_empty (keyLength : Option Nat) : Reached (empty keyLength) [] where
  unsealed := rfl
  rooted _ _ := .mk (.inl rfl) (.inl rfl)
  find k := by
    cases k with
    | nil => rfl
    | cons b bs => simp [empty, ofBranch, find?, held?, entriesUnder]
  size := rfl

theorem entriesUnder_append (key : Bits) (done more : List Insertion) :
    entriesUnder key (done ++ more) = entriesUnder key done ++ entriesUnder key more := by
  simp [entriesUnder]

theorem getD_held? (key : Bits) (done : List Insertion) :
    (held? key done).getD [] = entriesUnder key done := by
  unfold held?
  split
  · next h => exact h.symm
  · rfl

theorem held?_eq_iff {key : Bits} {done done' : List Insertion} :
    held? key done = held? key done' ↔ entriesUnder key done = entriesUnder key done' := by
  constructor
  · intro h
    rw [← getD_held?, ← getD_held?, h]
  · intro h
    unfold held?
    rw [h]

theorem held?_append (key k : Bits) (done : List Insertion) (entry : ValueEntry) :
    held? k (done ++ [(key, entry)]) =
      if k = key then some ((held? key done).getD [] ++ [entry]) else held? k done := by
  rw [getD_held?]
  unfold held?
  rw [entriesUnder_append]
  by_cases hk : k = key
  · subst hk
    simp [entriesUnder]
  · have hnew : entriesUnder k [(key, entry)] = [] := by simp [entriesUnder, Ne.symm hk]
    rw [hnew, List.append_nil, if_neg hk]

theorem isNone_held? (key : Bits) (done : List Insertion) :
    (held? key done).isNone = decide (key ∉ done.map Prod.fst) := by
  unfold held? entriesUnder
  by_cases h : key ∈ done.map Prod.fst
  · obtain ⟨⟨k, e⟩, hmem, rfl⟩ := List.mem_map.1 h
    have hne : (done.filter fun insertion => insertion.1 = k) ≠ [] :=
      List.ne_nil_of_mem (List.mem_filter.2 ⟨hmem, by simp⟩)
    simp only [List.map_eq_nil_iff, if_neg hne]
    simp [h]
  · have hnil : (done.filter fun insertion => insertion.1 = key) = [] := by
      rw [List.filter_eq_nil_iff]
      intro insertion hmem
      simpa using fun heq : insertion.1 = key => h (heq ▸ List.mem_map_of_mem hmem)
    simp [hnil, h]

/-- The root inserts on the side of the first bit. -/
theorem insert_ofBranch_nil (left right : Subtree) (b : UInt8) (bs : Bits) (entry : ValueEntry) :
    (ofBranch [] left right).insert entry (b :: bs) =
      if b = 0 then
        (ofBranch [] (left.insert entry (b :: bs)).1 right, (left.insert entry (b :: bs)).2)
      else (ofBranch [] left (right.insert entry (b :: bs)).1, (right.insert entry (b :: bs)).2) := by
  simp [ofBranch, Subtree.insert]

/-- An unsealed trie inserts as its root does. -/
theorem insert_eq {trie : PrefixTrie} {left right : Subtree} (hsealed : trie.isSealed = false)
    (hroot : trie.root = ofBranch [] left right) {key : Bits} (hkey : trie.Admits key)
    {entry : ValueEntry} {root : Subtree} {isNew : Bool}
    (hrun : trie.root.insert entry key = (root, .ok isNew)) :
    trie.insert key entry =
      ({ trie with
          root, keyLength := some key.length, size := if isNew then trie.size + 1 else trie.size },
        .ok ()) := by
  have hlen : trie.keyLength.getD key.length = key.length := by
    cases hn : trie.keyLength with
    | none => rfl
    | some m => exact hkey.2 m hn
  obtain ⟨b, bs, rfl⟩ := List.exists_cons_of_ne_nil hkey.1
  rw [hroot, insert_ofBranch_nil] at hrun
  unfold insert
  rw [hsealed, if_neg Bool.false_ne_true, checkKey_eq_ok hkey, hlen]
  simp only [hroot, ofBranch, List.head?_cons, Option.some.injEq]
  by_cases hb : b = 0
  · rw [if_pos hb, Prod.mk.injEq] at hrun
    rw [if_pos hb, hrun.2, ← hrun.1]
    rfl
  · rw [if_neg hb, Prod.mk.injEq] at hrun
    rw [if_neg hb, hrun.2, ← hrun.1]
    rfl

/-- A key of another length changes nothing. -/
theorem insert_eq_error {trie : PrefixTrie} (hsealed : trie.isSealed = false) {key : Bits}
    (hkey : ¬ trie.Admits key) (entry : ValueEntry) :
    ∃ n, trie.insert key entry = (trie, .error (.keyLength n key.length)) := by
  obtain ⟨n, hn⟩ := checkKey_eq_error hkey
  refine ⟨n, ?_⟩
  unfold insert
  rw [hsealed, if_neg Bool.false_ne_true, hn]

theorem Reached.hash?_root {trie : PrefixTrie} {done : List Insertion} (h : Reached trie done) :
    trie.root.hash? = some trie.rootHash := by
  obtain ⟨left, right, heq⟩ := (h.rooted (trie.keyLength.getD 0) (by simp +contextual)).eq_ofBranch
  rw [rootHash, heq]
  rfl

/-- An admitted key takes its entry, and the trie then knows the entry in addition. -/
theorem Reached.insert {trie : PrefixTrie} {done : List Insertion} (h : Reached trie done)
    {key : Bits} (hkey : trie.Admits key) (hbits : key.WellFormed) (entry : ValueEntry) :
    ∃ trie', trie.insert key entry = (trie', .ok ()) ∧ trie'.keyLength = some key.length ∧
      trie.root.insert entry key = (trie'.root, .ok (held? key done).isNone) ∧
      Reached trie' (done ++ [(key, entry)]) := by
  have hroot := h.rooted key.length hkey.2
  obtain ⟨root, hrun, hrooted, hfind⟩ := hroot.insert hkey.1 hbits rfl entry
  obtain ⟨left, right, hshape⟩ := hroot.eq_ofBranch
  refine ⟨_, insert_eq h.unsealed hshape hkey hrun, rfl, h.find key ▸ hrun, ⟨h.unsealed, ?_, ?_, ?_⟩⟩
  · intro n hn
    rw [← hn key.length rfl]
    exact hrooted
  · intro k
    rw [hfind, h.find, h.find, held?_append]
  · rw [h.find, isNone_held?, List.map_append, List.toFinset_append]
    by_cases hmem : key ∈ done.map Prod.fst
    · simp [hmem, h.size]
    · simp [hmem, h.size]

/-- Every run keeps what is known of the trie. -/
theorem Reached.insertAll {trie : PrefixTrie} {done : List Insertion} (h : Reached trie done)
    {inserts : List Insertion} (hbits : ∀ insertion ∈ inserts, insertion.1.WellFormed) :
    Reached (trie.insertAll inserts) (done ++ trie.accepted inserts) := by
  induction inserts generalizing trie done with
  | nil => simpa [PrefixTrie.insertAll, accepted] using h
  | cons insertion inserts ih =>
    obtain ⟨key, entry⟩ := insertion
    have hkeyBits := hbits _ List.mem_cons_self
    have hrest := fun i hi => hbits i (List.mem_cons_of_mem _ hi)
    by_cases hkey : trie.Admits key
    · obtain ⟨trie', hrun, -, -, h'⟩ := h.insert hkey hkeyBits entry
      have hall := ih h' hrest
      rw [List.append_assoc, List.singleton_append] at hall
      rw [insertAll_cons hrun, accepted_cons_of_ok hrun]
      exact hall
    · obtain ⟨n, hrun⟩ := insert_eq_error h.unsealed hkey entry
      rw [insertAll_cons hrun, accepted_cons_of_refused hrun]
      exact ih h hrest

theorem keyLength_replaceRoot (trie : PrefixTrie) (label : Bits) (left right : Subtree) (hash : Hash)
    (added : Except StructureFault Bool) :
    (trie.replaceRoot label left right hash added).1.keyLength = trie.keyLength := by
  cases added <;> rfl

/-- The length of the keys is fixed once. -/
theorem keyLength_insert {trie : PrefixTrie} {n : Nat} (h : trie.keyLength = some n) (key : Bits)
    (entry : ValueEntry) : (trie.insert key entry).1.keyLength = some n := by
  unfold insert
  split
  · exact h
  · split
    · exact h
    · dsimp only
      rw [h]
      split
      · split <;> exact keyLength_replaceRoot _ _ _ _ _ _
      · rfl

theorem keyLength_insertAll {trie : PrefixTrie} {n : Nat} (h : trie.keyLength = some n)
    (inserts : List Insertion) : (trie.insertAll inserts).keyLength = some n := by
  induction inserts generalizing trie with
  | nil => exact h
  | cons insertion inserts ih => exact ih (keyLength_insert h insertion.1 insertion.2)

theorem accepted_sublist (trie : PrefixTrie) (inserts : List Insertion) :
    (trie.accepted inserts).Sublist inserts := by
  induction inserts generalizing trie with
  | nil => exact .slnil
  | cons insertion inserts ih =>
    obtain ⟨key, entry⟩ := insertion
    unfold accepted
    split
    · exact (ih _).cons_cons _
    · exact (ih _).cons _

theorem mem_of_held? {key : Bits} {done : List Insertion} {values : List ValueEntry}
    (h : held? key done = some values) :
    (∃ entry, (key, entry) ∈ done) ∧ values = entriesUnder key done := by
  unfold held? at h
  split at h
  · cases h
  · next hne =>
    cases h
    obtain ⟨entry, hentry⟩ := List.exists_mem_of_ne_nil _ hne
    exact ⟨⟨entry, mem_entriesUnder_iff.1 hentry⟩, rfl⟩

theorem reached_insertAll (keyLength : Option Nat) {inserts : List Insertion}
    (hbits : ∀ insertion ∈ inserts, insertion.1.WellFormed) :
    Reached ((empty keyLength).insertAll inserts) ((empty keyLength).accepted inserts) := by
  have h := (reached_empty keyLength).insertAll hbits
  rwa [List.nil_append] at h

end PrefixTrie

end KeyTransparency
