import KeyTransparency.Proofs.Trie.Faults
import KeyTransparency.Proofs.Trie.Parents
import Mathlib.Data.List.Chain

/-!
# The versions of a node

After any run, also one in which insertions failed, the versions of a node form one chain, the same for
each of them: in the order in which they were made, each linked to the next one both ways (`VersionsOf`).
On every path from the root of an epoch the parent that a node names is a version of the one above it.

    id < trie.nodes.size → trie.VersionsOf id (trie.versionChain id)                   (versionsOf)
    trie.nodes[c] names r,  p leads to c  →  r ∈ trie.versionChain p       (exists_parent_version)

Both hold of every coherent arena, and runs keep arenas coherent.
-/

namespace KeyTransparency.PersistentTrie

/-- The earlier of two versions has the lower index and is of an earlier epoch. -/
def Earlier (trie : PersistentTrie) (a b : Nat) : Prop :=
  a < b ∧ ∃ older newer, trie.nodes[a]? = some older ∧ trie.nodes[b]? = some newer ∧
    older.epoch < newer.epoch

def Adjacent (trie : PersistentTrie) (a b : NodeId) : Prop :=
  trie.nextOf a = some b ∧ trie.prevOf b = some a

/-- `ids` are all versions of the node that `id` is a version of, oldest first. -/
structure VersionsOf (trie : PersistentTrie) (id : NodeId) (ids : List NodeId) : Prop where
  mem : id ∈ ids
  nodup : ids.Nodup
  increasing : ids.Pairwise trie.Earlier
  adjacent : ids.IsChain trie.Adjacent
  first {i : NodeId} : ids.head? = some i → trie.prevOf i = none
  last {i : NodeId} : ids.getLast? = some i → trie.nextOf i = none

section

variable {trie : PersistentTrie} {a b id i fuel fuel' : Nat}

theorem Earlier.trans {c : Nat} (h : trie.Earlier a b) (h' : trie.Earlier b c) : trie.Earlier a c := by
  obtain ⟨hab, older, mid, ha, hb, hlt⟩ := h
  obtain ⟨hbc, mid', newer, hb', hc, hlt'⟩ := h'
  rw [hb] at hb'
  cases hb'
  exact ⟨Nat.lt_trans hab hbc, older, newer, ha, hc, Nat.lt_trans hlt hlt'⟩

instance : Trans trie.Earlier trie.Earlier trie.Earlier := ⟨Earlier.trans⟩

theorem prev_iff : (weave trie.nodes).Prev b a ↔ trie.prevOf b = some a := by
  unfold prevOf
  rw [Option.bind_eq_some_iff]
  constructor
  · rintro ⟨l, hl, hprev⟩
    obtain ⟨node, hnode, rfl⟩ := exists_of_weave hl
    exact ⟨node, hnode, hprev⟩
  · rintro ⟨node, hnode, hprev⟩
    exact ⟨links node, weave_eq_some hnode, hprev⟩

/-! ## Neighbours -/

theorem adjacent_of_prev (h : Threaded (weave trie.nodes)) (hprev : trie.prevOf b = some a) :
    trie.Adjacent a b ∧ trie.Earlier a b := by
  obtain ⟨l, hl, hp⟩ := prev_iff.2 hprev
  obtain ⟨hlt, l', hl', hnext, hepoch⟩ := h.back hl hp
  obtain ⟨newer, hnewer, rfl⟩ := exists_of_weave hl
  obtain ⟨older, holder, rfl⟩ := exists_of_weave hl'
  exact ⟨⟨Option.bind_eq_some_iff.2 ⟨older, holder, hnext⟩, hprev⟩, hlt, older, newer, holder, hnewer,
    hepoch⟩

theorem prev_of_next (h : Threaded (weave trie.nodes)) (hnext : trie.nextOf a = some b) :
    trie.prevOf b = some a := by
  obtain ⟨node, hnode, hn⟩ := Option.bind_eq_some_iff.1 hnext
  obtain ⟨l, hl, hp⟩ := h.forth (weave_eq_some hnode) hn
  exact prev_iff.1 ⟨l, hl, hp⟩

theorem Earlier.lt_size (h : trie.Earlier a b) : b < trie.nodes.size := by
  obtain ⟨-, -, newer, -, hb, -⟩ := h
  exact lt_size_of_getElem? hb

theorem lt_of_prev (h : Threaded (weave trie.nodes)) (hprev : trie.prevOf b = some a) :
    a < b ∧ b < trie.nodes.size :=
  have hearlier := (adjacent_of_prev h hprev).2
  ⟨hearlier.1, hearlier.lt_size⟩

theorem lt_of_next (h : Threaded (weave trie.nodes)) (hnext : trie.nextOf a = some b) :
    a < b ∧ b < trie.nodes.size :=
  lt_of_prev h (prev_of_next h hnext)

/-! ## The way back to the oldest version -/

/-- Indices go down on the way, so as many steps as the index says are enough. -/
theorem prevOf_oldestFrom (h : Threaded (weave trie.nodes)) (hfuel : id ≤ fuel) :
    trie.prevOf (trie.oldestFrom fuel id) = none := by
  induction fuel generalizing id with
  | zero =>
    unfold oldestFrom
    cases hprev : trie.prevOf id with
    | none => rfl
    | some p =>
      have hlt := lt_of_prev h hprev
      omega
  | succ fuel ih =>
    unfold oldestFrom
    split
    · assumption
    · next p hprev =>
      have hlt := lt_of_prev h hprev
      exact ih (by omega)

theorem oldestFrom_of_le (h : Threaded (weave trie.nodes)) (hfuel : id ≤ fuel) (hfuel' : id ≤ fuel') :
    trie.oldestFrom fuel id = trie.oldestFrom fuel' id := by
  induction fuel generalizing id fuel' with
  | zero =>
    have hnone : trie.prevOf id = none := prevOf_oldestFrom h hfuel
    cases fuel' with
    | zero => rfl
    | succ fuel' => rw [oldestFrom, oldestFrom, hnone]
  | succ fuel ih =>
    cases hprev : trie.prevOf id with
    | none => cases fuel' <;> rw [oldestFrom, oldestFrom, hprev]
    | some p =>
      have hlt := lt_of_prev h hprev
      obtain ⟨fuel', rfl⟩ : ∃ n, fuel' = n + 1 := ⟨fuel' - 1, by omega⟩
      rw [oldestFrom, oldestFrom, hprev]
      exact ih (by omega) (by omega)

theorem oldestFrom_prev (h : Threaded (weave trie.nodes)) (hprev : trie.prevOf b = some a)
    (hfuel : b ≤ fuel) : trie.oldestFrom fuel b = trie.oldestFrom fuel a := by
  have hlt := lt_of_prev h hprev
  obtain ⟨n, rfl⟩ : ∃ n, fuel = n + 1 := ⟨fuel - 1, by omega⟩
  rw [oldestFrom, hprev]
  exact oldestFrom_of_le h (by omega) (by omega)

theorem oldestFrom_first (hfirst : trie.prevOf id = none) : trie.oldestFrom fuel id = id := by
  cases fuel with
  | zero => rfl
  | succ fuel => rw [oldestFrom, hfirst]

/-! ## The way on to the newest version -/

/-- A node without steps left to go on is the last one, if the steps were enough. -/
theorem nextOf_of_size_le (h : Threaded (weave trie.nodes)) (hfuel : trie.nodes.size ≤ id + 1) :
    trie.nextOf id = none := by
  cases hnext : trie.nextOf id with
  | none => rfl
  | some q =>
    have hlt := lt_of_next h hnext
    omega

theorem head?_versionsFrom : (trie.versionsFrom fuel id).head? = some id := by
  cases fuel with
  | zero => rfl
  | succ fuel =>
    unfold versionsFrom
    split <;> rfl

theorem mem_versionsFrom_self : id ∈ trie.versionsFrom fuel id :=
  List.mem_of_mem_head? head?_versionsFrom

theorem isChain_versionsFrom (h : Threaded (weave trie.nodes)) :
    (trie.versionsFrom fuel id).IsChain trie.Adjacent := by
  induction fuel generalizing id with
  | zero => exact .singleton id
  | succ fuel ih =>
    unfold versionsFrom
    split
    · exact .singleton id
    · next q hnext =>
      refine List.isChain_cons.2 ⟨fun i hi => ?_, ih⟩
      rw [head?_versionsFrom] at hi
      cases hi
      exact ⟨hnext, prev_of_next h hnext⟩

/-- Indices go up on the way, so as many steps as there are nodes behind are enough. -/
theorem last_versionsFrom (h : Threaded (weave trie.nodes)) (hfuel : trie.nodes.size ≤ id + fuel + 1)
    (hlast : (trie.versionsFrom fuel id).getLast? = some i) : trie.nextOf i = none := by
  induction fuel generalizing id with
  | zero =>
    cases hlast
    exact nextOf_of_size_le h hfuel
  | succ fuel ih =>
    unfold versionsFrom at hlast
    split at hlast
    · cases hlast
      assumption
    · next q hnext =>
      have hlt := lt_of_next h hnext
      have hne : trie.versionsFrom fuel q ≠ [] := List.ne_nil_of_mem mem_versionsFrom_self
      rw [List.getLast?_cons_of_ne_nil hne] at hlast
      exact ih (by omega) hlast

theorem versionsFrom_of_le (h : Threaded (weave trie.nodes)) (hfuel : trie.nodes.size ≤ id + fuel + 1)
    (hfuel' : trie.nodes.size ≤ id + fuel' + 1) :
    trie.versionsFrom fuel id = trie.versionsFrom fuel' id := by
  induction fuel generalizing id fuel' with
  | zero =>
    have hnone := nextOf_of_size_le h hfuel
    cases fuel' with
    | zero => rfl
    | succ fuel' => rw [versionsFrom, versionsFrom, hnone]
  | succ fuel ih =>
    cases hnext : trie.nextOf id with
    | none => cases fuel' <;> rw [versionsFrom, versionsFrom, hnext]
    | some q =>
      have hlt := lt_of_next h hnext
      obtain ⟨fuel', rfl⟩ : ∃ n, fuel' = n + 1 := ⟨fuel' - 1, by omega⟩
      rw [versionsFrom, versionsFrom, hnext]
      exact congrArg (id :: ·) (ih (by omega) (by omega))

/-- With a version the next one is on the way too. -/
theorem mem_versionsFrom_next (h : Threaded (weave trie.nodes))
    (hfuel : trie.nodes.size ≤ id + fuel + 1) (hmem : a ∈ trie.versionsFrom fuel id)
    (hnext : trie.nextOf a = some b) : b ∈ trie.versionsFrom fuel id := by
  induction fuel generalizing id with
  | zero =>
    obtain rfl := List.mem_singleton.1 hmem
    rw [nextOf_of_size_le h hfuel] at hnext
    cases hnext
  | succ fuel ih =>
    unfold versionsFrom at hmem ⊢
    split at hmem
    · obtain rfl := List.mem_singleton.1 hmem
      next hnone =>
        rw [hnone] at hnext
        cases hnext
    · next q hq =>
      have hlt := lt_of_next h hq
      rcases List.mem_cons.1 hmem with rfl | hmem
      · rw [hq] at hnext
        cases hnext
        exact List.mem_cons_of_mem _ mem_versionsFrom_self
      · exact List.mem_cons_of_mem _ (ih (by omega) hmem)

/-- All versions on the way have the same oldest one. -/
theorem oldestFrom_of_mem (h : Threaded (weave trie.nodes)) (hid : id < trie.nodes.size)
    (hmem : i ∈ trie.versionsFrom fuel id) :
    i < trie.nodes.size ∧
      trie.oldestFrom trie.nodes.size i = trie.oldestFrom trie.nodes.size id := by
  induction fuel generalizing id with
  | zero =>
    obtain rfl := List.mem_singleton.1 hmem
    exact ⟨hid, rfl⟩
  | succ fuel ih =>
    unfold versionsFrom at hmem
    split at hmem
    · obtain rfl := List.mem_singleton.1 hmem
      exact ⟨hid, rfl⟩
    · next q hnext =>
      have hprev := prev_of_next h hnext
      have hq := (lt_of_prev h hprev).2
      rcases List.mem_cons.1 hmem with rfl | hmem
      · exact ⟨hid, rfl⟩
      · obtain ⟨hi, heq⟩ := ih hq hmem
        exact ⟨hi, heq.trans (oldestFrom_prev h hprev (Nat.le_of_lt hq))⟩

/-- What holds the oldest version and with each version the next one holds all of them. -/
theorem mem_of_oldestFrom (h : Threaded (weave trie.nodes)) {ids : List NodeId}
    (hclosed : ∀ a b, a ∈ ids → trie.nextOf a = some b → b ∈ ids)
    (hmem : trie.oldestFrom fuel id ∈ ids) : id ∈ ids := by
  induction fuel generalizing id with
  | zero => exact hmem
  | succ fuel ih =>
    unfold oldestFrom at hmem
    split at hmem
    · exact hmem
    · next p hprev => exact hclosed p id (ih hmem) (adjacent_of_prev h hprev).1.1

/-! ## All versions -/

theorem versionChain_of_mem (hc : Coherent trie.epoch trie.nodes) (hid : id < trie.nodes.size)
    (hmem : i ∈ trie.versionChain id) : trie.versionChain i = trie.versionChain id := by
  have h := hc.woven.toThreaded
  have hoff := oldestFrom_of_mem h (oldestFrom_lt hc.tidy _ hid) hmem
  have hfirst : trie.prevOf (trie.oldestFrom trie.nodes.size id) = none :=
    prevOf_oldestFrom h (Nat.le_of_lt hid)
  rw [oldestFrom_first hfirst] at hoff
  rw [versionChain, hoff.2, versionChain]

/-- Versions of one node have the same chain. -/
theorem versionChain_of_akin (h : Threaded (weave trie.nodes)) (hakin : (weave trie.nodes).Akin a b) :
    trie.versionChain a = trie.versionChain b := by
  induction hakin with
  | rel a b hprev =>
    rw [prev_iff] at hprev
    have hlt := (lt_of_prev h hprev).2
    rw [versionChain, versionChain, oldestFrom_prev h hprev (Nat.le_of_lt hlt)]
  | refl a => rfl
  | symm a b _ ih => exact ih.symm
  | trans a b c _ _ ihab ihbc => exact ihab.trans ihbc

theorem versionsOf (h : Threaded (weave trie.nodes)) (hid : id < trie.nodes.size) :
    trie.VersionsOf id (trie.versionChain id) := by
  have hfuel (i : Nat) : trie.nodes.size ≤ i + trie.nodes.size + 1 := by omega
  have hadjacent : (trie.versionChain id).IsChain trie.Adjacent := isChain_versionsFrom h
  have hincreasing : (trie.versionChain id).Pairwise trie.Earlier :=
    List.isChain_iff_pairwise.1 (hadjacent.imp fun a b hab => (adjacent_of_prev h hab.2).2)
  refine ⟨?_, hincreasing.imp fun hab => Nat.ne_of_lt hab.1, hincreasing, hadjacent, fun hi => ?_,
    fun hi => last_versionsFrom h (hfuel _) hi⟩
  · exact mem_of_oldestFrom h (fun _ _ => mem_versionsFrom_next h (hfuel _)) mem_versionsFrom_self
  · rw [versionChain, head?_versionsFrom] at hi
    cases hi
    exact prevOf_oldestFrom h (Nat.le_of_lt hid)

/-- More steps than there are nodes find no more versions. -/
theorem versionsFrom_eq_versionChain (h : Threaded (weave trie.nodes)) (hid : id < trie.nodes.size)
    (hfuel : trie.nodes.size ≤ fuel) :
    trie.versionsFrom fuel (trie.oldestFrom fuel id) = trie.versionChain id := by
  rw [versionChain, oldestFrom_of_le h (by omega : id ≤ fuel) (Nat.le_of_lt hid)]
  exact versionsFrom_of_le h (by omega) (by omega)

/-- The parent that a child names is a version of each node that it is a child of. -/
theorem exists_parent_version (hc : Coherent trie.epoch trie.nodes) {p c : NodeId}
    (hleads : Leads trie.nodes p c) :
    ∃ child r, trie.nodes[c]? = some child ∧ child.parent = some r ∧ r ∈ trie.versionChain p := by
  obtain ⟨l, hl, hloose | ⟨r, hr, hakin⟩⟩ := hc.woven.parent (leads_iff.1 hleads)
  · exact hloose.elim
  · obtain ⟨child, hchild, rfl⟩ := exists_of_weave hl
    refine ⟨child, r, hchild, hr, ?_⟩
    rw [← versionChain_of_akin hc.woven.toThreaded hakin]
    exact (versionsOf hc.woven.toThreaded ((hc.tidy c child hchild).parent hr)).mem

theorem leads_of_child {p c : NodeId} (side : UInt8)
    (h : trie.nodes[p]?.bind (·.child side) = some c) : Leads trie.nodes p c := by
  obtain ⟨node, hnode, hchild⟩ := Option.bind_eq_some_iff.1 h
  exact ⟨node, side, hnode, hchild⟩

theorem Layered.exists_rootAt (h : Layered trie) {e : Nat} (he : e ≤ trie.epoch) :
    ∃ root, trie.rootAt e = .ok root := by
  rcases Nat.lt_or_eq_of_le he with hlt | rfl
  · obtain ⟨root, -, hroot⟩ := h.rootAt hlt
    exact ⟨root, hroot⟩
  · exact ⟨_, by rw [PersistentTrie.rootAt, if_neg (Nat.lt_irrefl _), if_pos rfl]⟩

end

/-- **Version chains are well formed.**  After any run, also one in which insertions failed, the versions
of a node form one chain, and in every epoch the parent that a node names is a version of the node above
it. -/
theorem version_chains_well_formed (keyLength : Option Nat) (steps : List Step) :
    let trie := (empty keyLength).run steps
    (∀ id, id < trie.nodes.size →
      trie.VersionsOf id (trie.versionChain id) ∧
        (∀ i ∈ trie.versionChain id, trie.versionChain i = trie.versionChain id) ∧
        ∀ fuel, trie.nodes.size ≤ fuel →
          trie.versionsFrom fuel (trie.oldestFrom fuel id) = trie.versionChain id) ∧
      ∀ e, e ≤ trie.epoch → ∃ root, trie.rootAt e = .ok root ∧
        ∀ p c, Relation.ReflTransGen (Leads trie.nodes) root p → Leads trie.nodes p c →
          ∃ child r, trie.nodes[c]? = some child ∧ child.parent = some r ∧
            r ∈ trie.versionChain p := by
  intro trie
  have hc : Coherent trie.epoch trie.nodes := coherent_run keyLength steps
  have h := hc.woven.toThreaded
  refine ⟨fun id hid => ⟨versionsOf h hid, fun i => versionChain_of_mem hc hid,
    fun fuel => versionsFrom_eq_versionChain h hid⟩, fun e he => ?_⟩
  obtain ⟨root, hroot⟩ := (layered_run keyLength steps).exists_rootAt he
  exact ⟨root, hroot, fun p c _ => exists_parent_version hc⟩

/-- A leaf written in three epochs, and one that still names the first version of its parent. -/
theorem version_chains_well_formed_three_epochs :
    let trie := (empty none).run [.insert [0, 0] ⟨Hash.zero, 0⟩, .nextEpoch,
      .insert [0, 1] ⟨Hash.zero, 1⟩, .nextEpoch, .insert [0, 0] ⟨Hash.zero, 2⟩]
    (4 < trie.nodes.size ∧ trie.VersionsOf 4 [1, 4, 8] ∧ 8 ∈ trie.versionChain 4 ∧
        trie.versionChain 8 = [1, 4, 8] ∧ trie.versionsFrom 9 (trie.oldestFrom 9 4) = [1, 4, 8]) ∧
      2 ≤ trie.epoch ∧ trie.rootAt 2 = .ok 6 ∧
        Relation.ReflTransGen (Leads trie.nodes) 6 7 ∧ Leads trie.nodes 7 5 ∧
          ∃ child r, trie.nodes[5]? = some child ∧ child.parent = some r ∧ r ∈ trie.versionChain 7 := by
  intro trie
  obtain ⟨hchains, hpaths⟩ := version_chains_well_formed none [.insert [0, 0] ⟨Hash.zero, 0⟩, .nextEpoch,
    .insert [0, 1] ⟨Hash.zero, 1⟩, .nextEpoch, .insert [0, 0] ⟨Hash.zero, 2⟩]
  have hsize : 4 < trie.nodes.size := by decide +kernel
  have hchain : trie.versionChain 4 = [1, 4, 8] := by decide +kernel
  obtain ⟨hversions, hsame, hfuel⟩ := hchains 4 hsize
  have hmem : 8 ∈ trie.versionChain 4 := by
    rw [hchain]
    decide
  have hepoch : 2 ≤ trie.epoch := by decide +kernel
  have hat : trie.rootAt 2 = .ok 6 := by decide +kernel
  obtain ⟨root, hroot, hbelow⟩ := hpaths 2 hepoch
  obtain rfl : root = 6 := Except.ok.inj (hroot.symm.trans hat)
  have hfirst : Leads trie.nodes 6 7 := leads_of_child 0 (by decide +kernel)
  have hsecond : Leads trie.nodes 7 5 := leads_of_child 1 (by decide +kernel)
  refine ⟨⟨hsize, hchain ▸ hversions, hmem, (hsame 8 hmem).trans hchain,
    (hfuel 9 (by decide +kernel)).trans hchain⟩, hepoch, hat, .single hfirst, hsecond, ?_⟩
  exact hbelow 7 5 (.single hfirst) hsecond

end KeyTransparency.PersistentTrie
