import KeyTransparency.Proofs.Trie.Completeness
import KeyTransparency.Proofs.Trie.Insertion

/-!
# Every epoch reads as a trie of its own

`plainAt n done e` is the plain trie that takes the insertions made up to the end of epoch `e`.
`Mirrors trie n done` is the invariant of a run: the arena stores the tree of every `plainAt n done e`,
those of past epochs on nodes that are not written to any more, the newest one on nodes of its own.

    Mirrors trie n done → trie.insert key entry = (trie, error) ∨
      trie.insert key entry = (trie', ok),  Mirrors trie' n (done ++ [(trie.epoch, key, entry)])
    Mirrors trie n done → Mirrors trie.nextEpoch n done
    e ≤ epoch → rootHash, sizeAt, lookup and prove in e are those of plainAt n done e
                                                                          (epochs_eq_plain_tries)
-/

namespace KeyTransparency

open Trie Subtree

namespace PersistentTrie

/-! ## Runs -/

inductive Step
  | insert (key : Bits) (entry : ValueEntry)
  | nextEpoch
deriving DecidableEq

def step (trie : PersistentTrie) : Step → PersistentTrie
  | .insert key entry => (trie.insert key entry).1
  | .nextEpoch => trie.nextEpoch

def run (trie : PersistentTrie) (steps : List Step) : PersistentTrie := steps.foldl step trie

/-- The insertions of a run that went through, each with the epoch it was made in. -/
def accepted (trie : PersistentTrie) : (steps : List Step) → List (Nat × Insertion)
  | [] => []
  | .insert key entry :: steps =>
    match trie.insert key entry with
    | (next, .ok ()) => (trie.epoch, key, entry) :: next.accepted steps
    | (next, .error _) => next.accepted steps
  | .nextEpoch :: steps => trie.nextEpoch.accepted steps

/-- The plain trie that takes the insertions made up to the end of epoch `e`. -/
def plainAt (n : Nat) (done : List (Nat × Insertion)) (e : Nat) : PrefixTrie :=
  (PrefixTrie.empty (some n)).insertAll ((done.filter fun made => made.1 ≤ e).map Prod.snd)

section

variable {n e : Nat} {done : List (Nat × Insertion)} {key : Bits} {entry : ValueEntry}

theorem plainAt_append_of_lt {now : Nat} (h : e < now) :
    plainAt n (done ++ [(now, key, entry)]) e = plainAt n done e := by
  simp [plainAt, Nat.not_le.2 h]

theorem plainAt_append_of_le {now : Nat} (h : now ≤ e) :
    plainAt n (done ++ [(now, key, entry)]) e = ((plainAt n done e).insert key entry).1 := by
  simp [plainAt, PrefixTrie.insertAll, h]

/-- Nothing is made in an epoch that is only beginning. -/
theorem plainAt_succ (h : ∀ made ∈ done, made.1 ≤ e) : plainAt n done (e + 1) = plainAt n done e := by
  have hfilter : (done.filter fun made => made.1 ≤ e + 1) = done.filter fun made => made.1 ≤ e :=
    List.filter_congr fun made hmade => by
      simp [h made hmade, Nat.le_succ_of_le (h made hmade)]
  rw [plainAt, hfilter, plainAt]

theorem plainAt_keyLength : (plainAt n done e).keyLength = some n :=
  PrefixTrie.keyLength_insertAll rfl _

theorem admits_plainAt (hlen : key.length = n) (hkey : key ≠ []) :
    (plainAt n done e).Admits key := by
  refine ⟨hkey, fun m hm => ?_⟩
  rw [plainAt_keyLength] at hm
  exact (Option.some.inj hm).symm.trans hlen.symm

end

/-! ## Runs and plain tries -/

/-- What the trie shares with the plain tries that took the insertions `done` up to each epoch. -/
structure Mirrors (trie : PersistentTrie) (n : Nat) (done : List (Nat × Insertion)) : Prop where
  keyLength : trie.keyLength = some n
  epoch_le : ∀ made ∈ done, made.1 ≤ trie.epoch
  wellFormed : ∀ made ∈ done, made.2.1.WellFormed
  roots_size : trie.roots.size = trie.epoch
  sizes_size : trie.sizes.size = trie.epoch
  past : ∀ e < trie.epoch, ∃ root ids, trie.roots[e]? = some root ∧
    trie.sizes[e]? = some (plainAt n done e).size ∧
    Stored (·.epoch ≤ e) trie.nodes (some root) (plainAt n done e).root ids
  size : trie.size = (plainAt n done trie.epoch).size
  current : ∃ ids, Stored (Live trie.epoch) trie.nodes (some trie.currentRoot)
    (plainAt n done trie.epoch).root ids

theorem mirrors_empty (n : Nat) : Mirrors (empty (some n)) n [] where
  keyLength := rfl
  epoch_le _ h := nomatch h
  wellFormed _ h := nomatch h
  roots_size := rfl
  sizes_size := rfl
  past _ h := absurd h (Nat.not_lt_zero _)
  size := rfl
  current := by
    have hlive : Live 0 ⟨[], .branch none none, internalHash [] none none, 0, none, none, none⟩ :=
      ⟨Nat.le_refl _, rfl⟩
    exact ⟨_, .branch rfl hlive rfl .vacant .vacant id id (Set.disjoint_empty _)⟩

namespace Mirrors

variable {trie : PersistentTrie} {n : Nat} {done : List (Nat × Insertion)}

theorem reached (h : Mirrors trie n done) (e : Nat) : ∃ taken, (plainAt n done e).Reached taken := by
  refine ⟨_, PrefixTrie.reached_insertAll (some n) fun insertion hmem => ?_⟩
  obtain ⟨made, hmade, rfl⟩ := List.mem_map.1 hmem
  exact h.wellFormed made (List.mem_of_mem_filter hmade)

theorem rooted (h : Mirrors trie n done) (e : Nat) : Rooted n (plainAt n done e).root := by
  obtain ⟨taken, hreached⟩ := h.reached e
  refine hreached.rooted n fun m hm => ?_
  rw [plainAt_keyLength] at hm
  exact (Option.some.inj hm).symm

theorem nextEpoch (h : Mirrors trie n done) : Mirrors trie.nextEpoch n done where
  keyLength := h.keyLength
  epoch_le made hmade := Nat.le_succ_of_le (h.epoch_le made hmade)
  wellFormed := h.wellFormed
  roots_size := by rw [PersistentTrie.nextEpoch, Array.size_push, h.roots_size]
  sizes_size := by rw [PersistentTrie.nextEpoch, Array.size_push, h.sizes_size]
  past e he := by
    unfold PersistentTrie.nextEpoch
    dsimp only
    rw [Array.getElem?_push, Array.getElem?_push, h.roots_size, h.sizes_size]
    rcases Nat.lt_or_eq_of_le (Nat.le_of_lt_succ he) with hlt | rfl
    · rw [if_neg (Nat.ne_of_lt hlt), if_neg (Nat.ne_of_lt hlt)]
      exact h.past e hlt
    · rw [if_pos rfl, if_pos rfl, h.size]
      obtain ⟨ids, hids⟩ := h.current
      exact ⟨_, ids, rfl, rfl, hids.mono fun node hnode => hnode.1⟩
  size := by
    show trie.size = (plainAt n done (trie.epoch + 1)).size
    rw [plainAt_succ h.epoch_le, h.size]
  current := by
    obtain ⟨ids, hids⟩ := h.current
    refine ⟨ids, ?_⟩
    show Stored (Live (trie.epoch + 1)) trie.nodes _ (plainAt n done (trie.epoch + 1)).root ids
    rw [plainAt_succ h.epoch_le]
    exact hids.mono fun node hnode => ⟨Nat.le_succ_of_le hnode.1, hnode.2⟩

/-- Both tries take an insertion under a key of their length. -/
theorem insert_key (h : Mirrors trie n done) {key : Bits} (hbits : key.WellFormed)
    (hlen : key.length = n) (hne : key ≠ []) (entry : ValueEntry) :
    ∃ trie', trie.insert key entry = (trie', .ok ()) ∧ trie'.epoch = trie.epoch ∧
      Mirrors trie' n (done ++ [(trie.epoch, key, entry)]) := by
  subst hlen
  have hroot := h.rooted trie.epoch
  obtain ⟨taken, hreached⟩ := h.reached trie.epoch
  obtain ⟨root', hins, -, -⟩ := hroot.insert hne hbits rfl entry
  obtain ⟨left, right, hshape⟩ := hroot.eq_ofBranch
  have hplain := PrefixTrie.insert_eq hreached.unsealed hshape (admits_plainAt rfl hne) hins
  obtain ⟨ids, hids⟩ := h.current
  obtain ⟨nodes, currentRoot, ids', hrun, hstored, hkept⟩ :=
    insert_spec h.keyLength hids hroot hne hbits hins
  have hnow : plainAt key.length (done ++ [(trie.epoch, key, entry)]) trie.epoch =
      { plainAt key.length done trie.epoch with
        root := root'
        keyLength := some key.length
        size := if ((plainAt key.length done trie.epoch).root.find? key).isNone then
          (plainAt key.length done trie.epoch).size + 1
          else (plainAt key.length done trie.epoch).size } := by
    rw [plainAt_append_of_le (Nat.le_refl _), hplain]
  refine ⟨_, hrun, rfl, ⟨h.keyLength, ?_, ?_, h.roots_size, h.sizes_size, fun e he => ?_, ?_, ?_⟩⟩
  · intro made hmade
    rcases List.mem_append.1 hmade with hmade | hmade
    · exact h.epoch_le made hmade
    · obtain rfl := List.mem_singleton.1 hmade
      exact Nat.le_refl _
  · intro made hmade
    rcases List.mem_append.1 hmade with hmade | hmade
    · exact h.wellFormed made hmade
    · obtain rfl := List.mem_singleton.1 hmade
      exact hbits
  · rw [plainAt_append_of_lt he]
    obtain ⟨root, ids, hroots, hsizes, hpast⟩ := h.past e he
    refine ⟨root, ids, hroots, hsizes, hpast.map fun i _ node hnode hepoch => ?_⟩
    obtain ⟨next, hnode', -⟩ := hkept.other hnode (Nat.ne_of_lt (Nat.lt_of_le_of_lt hepoch he))
    exact ⟨_, hnode', hepoch, rfl, rfl, rfl⟩
  · dsimp only
    rw [hnow, h.size]
  · dsimp only
    rw [hnow]
    exact ⟨ids', hstored⟩

/-- An insertion is refused and changes nothing, or both tries take it. -/
theorem insert (h : Mirrors trie n done) {key : Bits} (hbits : key.WellFormed) (entry : ValueEntry) :
    (∃ e, trie.insert key entry = (trie, .error e)) ∨
      ∃ trie', trie.insert key entry = (trie', .ok ()) ∧
        Mirrors trie' n (done ++ [(trie.epoch, key, entry)]) := by
  by_cases hkey : key.length = n ∧ key ≠ []
  · obtain ⟨trie', hrun, -, h'⟩ := h.insert_key hbits hkey.1 hkey.2 entry
    exact .inr ⟨trie', hrun, h'⟩
  · left
    obtain ⟨e, he⟩ := checkKey_eq_error h.keyLength hkey
    exact ⟨e, by rw [PersistentTrie.insert, he]⟩

/-- Every run keeps the tries alike. -/
theorem run (h : Mirrors trie n done) {steps : List Step}
    (hbits : ∀ key entry, Step.insert key entry ∈ steps → key.WellFormed) :
    Mirrors (trie.run steps) n (done ++ trie.accepted steps) := by
  induction steps generalizing trie done with
  | nil => simpa [PersistentTrie.run, accepted] using h
  | cons next steps ih =>
    have hrest := fun key entry hmem => hbits key entry (List.mem_cons_of_mem _ hmem)
    cases next with
    | nextEpoch => exact ih h.nextEpoch hrest
    | insert key entry =>
      rcases h.insert (hbits key entry List.mem_cons_self) entry with ⟨e, hrun⟩ | ⟨trie', hrun, h'⟩
      · simpa [PersistentTrie.run, step, accepted, hrun] using ih h hrest
      · have hall := ih h' hrest
        rw [List.append_assoc, List.singleton_append] at hall
        simpa [PersistentTrie.run, step, accepted, hrun] using hall

/-- Every epoch up to the current one has the root, the size and the tree of its plain trie. -/
theorem rootAt (h : Mirrors trie n done) {e : Nat} (he : e ≤ trie.epoch) :
    ∃ root ids, trie.rootAt e = .ok root ∧ trie.sizeAt e = .ok (plainAt n done e).size ∧
      Stored (·.epoch ≤ e) trie.nodes (some root) (plainAt n done e).root ids := by
  unfold PersistentTrie.rootAt sizeAt
  rw [if_neg (Nat.not_lt.2 he), if_neg (Nat.not_lt.2 he)]
  rcases Nat.lt_or_eq_of_le he with hlt | rfl
  · obtain ⟨root, ids, hroot, hsize, hstored⟩ := h.past e hlt
    rw [if_neg (Nat.ne_of_lt hlt), if_neg (Nat.ne_of_lt hlt), hroot, hsize]
    exact ⟨root, ids, rfl, rfl, hstored⟩
  · obtain ⟨ids, hids⟩ := h.current
    rw [if_pos rfl, if_pos rfl, h.size]
    exact ⟨_, ids, rfl, rfl, hids.mono fun node hnode => hnode.1⟩

theorem rootHash_eq (h : Mirrors trie n done) {e : Nat} (he : e ≤ trie.epoch) :
    trie.rootHash e = .ok (plainAt n done e).rootHash := by
  obtain ⟨root, ids, hroot, -, hstored⟩ := h.rootAt he
  obtain ⟨node, hnode, -, -, hhash, -⟩ := hstored.root
  rw [PrefixTrie.rootHash, hhash]
  simp only [rootHash, hroot, bind, Except.bind, hnode]
  rfl

/-- A walk in an epoch is a walk in its plain trie. -/
theorem walk_eq (h : Mirrors trie n done) {e : Nat} (he : e ≤ trie.epoch) {key : Bits}
    (hlen : key.length = n) (hkey : key ≠ []) :
    (trie.walk key e).map Prod.fst = ((plainAt n done e).root.walk key).mapError .malformed := by
  obtain ⟨root, ids, hroot, -, hstored⟩ := h.rootAt he
  have hrooted := h.rooted e
  obtain ⟨left, right, hshape⟩ := hrooted.eq_ofBranch
  exact PersistentTrie.walk_eq (checkKey_eq_ok (hlen ▸ h.keyLength) hkey) hroot hstored
    hrooted.labelled (by rw [hshape, label_ofBranch])

/-- What is held in an epoch is what its plain trie holds. -/
theorem lookup_eq (h : Mirrors trie n done) {e : Nat} (he : e ≤ trie.epoch) {key : Bits}
    (hlen : key.length = n) (hkey : key ≠ []) : trie.lookup key e = (plainAt n done e).get? key := by
  have hwalk := h.walk_eq he hlen hkey
  rw [PrefixTrie.get?_eq (admits_plainAt hlen hkey), lookup]
  revert hwalk
  rcases trie.walk key e with fault | ⟨walk, path⟩ <;>
    rcases (plainAt n done e).root.walk key with fault' | walk'
  · intro hwalk
    cases hwalk
    rfl
  · exact fun hwalk => nomatch hwalk
  · exact fun hwalk => nomatch hwalk
  · intro hwalk
    cases hwalk
    rfl

/-- What is proved in an epoch is what its plain trie proves. -/
theorem prove_eq (h : Mirrors trie n done) {e : Nat} (he : e ≤ trie.epoch) {key : Bits}
    (hlen : key.length = n) (hkey : key ≠ []) : trie.prove key e = (plainAt n done e).prove key := by
  have hwalk := h.walk_eq he hlen hkey
  rw [PrefixTrie.prove_eq (admits_plainAt hlen hkey), prove]
  revert hwalk
  rcases trie.walk key e with fault | ⟨walk, path⟩ <;>
    rcases (plainAt n done e).root.walk key with fault' | walk'
  · intro hwalk
    cases hwalk
    rfl
  · exact fun hwalk => nomatch hwalk
  · exact fun hwalk => nomatch hwalk
  · intro hwalk
    cases hwalk
    rfl

end Mirrors

/-- **Every epoch is a trie of its own.**  Up to the current epoch, what is read in an epoch is what
the plain trie says that took the successful insertions made until its end. -/
theorem epochs_eq_plain_tries (n : Nat) (steps : List Step)
    (hbits : ∀ key entry, Step.insert key entry ∈ steps → key.WellFormed) (e : Nat)
    (he : e ≤ ((empty (some n)).run steps).epoch) :
    let trie := (empty (some n)).run steps
    let plain := plainAt n ((empty (some n)).accepted steps) e
    trie.rootHash e = .ok plain.rootHash ∧ trie.sizeAt e = .ok plain.size ∧
      ∀ key : Bits, key.length = n → key ≠ [] →
        trie.lookup key e = plain.get? key ∧ trie.prove key e = plain.prove key := by
  intro trie plain
  have h : Mirrors trie n ((empty (some n)).accepted steps) := (mirrors_empty n).run hbits
  obtain ⟨-, -, -, hsize, -⟩ := h.rootAt he
  refine ⟨h.rootHash_eq he, hsize, fun key hlen hkey => ?_⟩
  have hwalk := h.walk_eq he hlen hkey
  have hadmits : plain.Admits key := admits_plainAt hlen hkey
  rw [PrefixTrie.get?_eq hadmits, PrefixTrie.prove_eq hadmits]
  unfold lookup prove
  revert hwalk
  rcases trie.walk key e with fault | ⟨walk, path⟩ <;> rcases plain.root.walk key with fault' | walk'
  · intro hwalk
    cases hwalk
    exact ⟨rfl, rfl⟩
  · exact fun hwalk => nomatch hwalk
  · exact fun hwalk => nomatch hwalk
  · intro hwalk
    cases hwalk
    exact ⟨rfl, rfl⟩

/-- Three epochs: a leaf, then a split of it, then a second value under it.  The middle one is read. -/
theorem epochs_eq_plain_tries_three_epochs :
    let steps : List Step :=
      [.insert [0, 0] ⟨Hash.zero, 0⟩, .insert [0] ⟨Hash.zero, 1⟩, .nextEpoch,
        .insert [0, 1] ⟨Hash.zero, 2⟩, .nextEpoch, .insert [0, 0] ⟨Hash.zero, 3⟩]
    let trie := (empty (some 2)).run steps
    let done := (empty (some 2)).accepted steps
    (∀ key entry, Step.insert key entry ∈ steps → key.WellFormed) ∧ 1 ≤ trie.epoch ∧
      done = [(0, [0, 0], ⟨Hash.zero, 0⟩), (1, [0, 1], ⟨Hash.zero, 2⟩), (2, [0, 0], ⟨Hash.zero, 3⟩)] ∧
      trie.rootHash 1 = .ok (plainAt 2 done 1).rootHash ∧
      trie.sizeAt 1 = .ok (plainAt 2 done 1).size ∧
      trie.lookup [0, 0] 1 = (plainAt 2 done 1).get? [0, 0] ∧
      trie.prove [0, 0] 1 = (plainAt 2 done 1).prove [0, 0] := by
  intro steps trie done
  have hbits : ∀ key entry, Step.insert key entry ∈ steps → key.WellFormed := by
    simp only [steps, List.mem_cons, List.not_mem_nil, Step.insert.injEq, reduceCtorEq, or_false,
      false_or]
    rintro key entry (⟨rfl, -⟩ | ⟨rfl, -⟩ | ⟨rfl, -⟩ | ⟨rfl, -⟩) <;> decide
  have hepoch : 1 ≤ trie.epoch := by decide +kernel
  have hdone : done =
      [(0, [0, 0], ⟨Hash.zero, 0⟩), (1, [0, 1], ⟨Hash.zero, 2⟩), (2, [0, 0], ⟨Hash.zero, 3⟩)] := by
    decide +kernel
  obtain ⟨hroot, hsize, hkeys⟩ := epochs_eq_plain_tries 2 steps hbits 1 hepoch
  obtain ⟨hlookup, hprove⟩ := hkeys [0, 0] rfl (by decide)
  exact ⟨hbits, hepoch, hdone, hroot, hsize, hlookup, hprove⟩

/-- The empty key is refused here and, where its length is that of the keys, not found in the plain
trie; the errors of the proofs name different lengths. -/
theorem empty_key_read_differently :
    (empty (some 0)).lookup [] 0 ≠ (plainAt 0 ((empty (some 0)).accepted []) 0).get? [] ∧
      (empty (some 0)).prove [] 0 ≠ (plainAt 0 ((empty (some 0)).accepted []) 0).prove [] := by
  decide +kernel

end PersistentTrie

end KeyTransparency
