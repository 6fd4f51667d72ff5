import KeyTransparency.Proofs.Partition.Existence
import KeyTransparency.Proofs.Validation

/-!
# The newest value that a digest proves

A ledger is written in the order of events (`Ordered`): whatever comes after the end of an update epoch
is of a later update epoch and of no earlier verification period.  So of two tries that a digest names,
the later one has everything that the earlier one has and that is no older than something of its own
(`Ordered.pairwise_named`).  The newest value that any of the proofs about a key shows is therefore in
the newest of them:

    made is the newest publication under key that the proofs show
      → made.entry ∈ the values of newest proofs                               (exists_newest_shows)
-/

namespace KeyTransparency

open Trie Forest

/-- Lists related element by element have their order in common. -/
theorem pairwise_of_forall₂ {α β : Type} {R : α → β → Prop} {S : α → α → Prop} {T : β → β → Prop}
    {as : List α} {bs : List β} (h : List.Forall₂ R as bs) (hbs : bs.Pairwise T)
    (hstep : ∀ a b a' b', R a b → R a' b' → T b b' → S a a') : as.Pairwise S := by
  induction h with
  | nil => exact .nil
  | @cons a b as bs hab hrest ih =>
    obtain ⟨hfirst, hbs⟩ := List.pairwise_cons.1 hbs
    apply List.Pairwise.cons _ (ih hbs)
    intro a' ha'
    obtain ⟨i, hi⟩ := List.mem_iff_getElem?.1 ha'
    obtain ⟨b', hb', hab'⟩ := getElem?_of_forall₂ hrest.flip hi
    exact hstep a b a' b' hab hab' (hfirst b' (List.mem_of_getElem? hb'))

/-- Of two elements of a list one comes before the other, unless they are the same. -/
theorem before_or_eq_or_after {α : Type} {R : α → α → Prop} {l : List α} (h : l.Pairwise R) {a b : α}
    (ha : a ∈ l) (hb : b ∈ l) : R a b ∨ a = b ∨ R b a := by
  obtain ⟨i, hi, rfl⟩ := List.mem_iff_getElem.1 ha
  obtain ⟨j, hj, rfl⟩ := List.mem_iff_getElem.1 hb
  have horder := List.pairwise_iff_getElem.1 h
  rcases Nat.lt_trichotomy i j with hlt | rfl | hlt
  · exact .inl (horder i j hi hj hlt)
  · exact .inr (.inl rfl)
  · exact .inr (.inr (horder j i hj hi hlt))

namespace Ledger

/-! ## The order of events -/

/-- The ledger is in the order of its events. -/
structure Ordered (ledger : Ledger) : Prop where
  updateEpoch_le : ∀ made ∈ ledger.publications, made.updateEpoch ≤ ledger.updateEpoch + 1
  sealing_le : ∀ sealing ∈ ledger.sealings,
    sealing.updateEpoch ≤ ledger.updateEpoch ∧ sealing.period ≤ ledger.period
  publications : ledger.publications.Pairwise fun older newer => older.updateEpoch ≤ newer.updateEpoch
  sealings : ledger.sealings.Pairwise fun older newer => older.updateEpoch < newer.updateEpoch
  /-- What is published after the end of an update epoch is of that period or a later one. -/
  after : ∀ made ∈ ledger.publications, ∀ sealing ∈ ledger.sealings,
    sealing.updateEpoch < made.updateEpoch → sealing.period ≤ made.period

theorem ordered_empty : empty.Ordered where
  updateEpoch_le _ h := nomatch h
  sealing_le _ h := nomatch h
  publications := .nil
  sealings := .nil
  after _ h := nomatch h

namespace Ordered

variable {ledger : Ledger}

theorem record (h : ledger.Ordered) (event : Partition.Event) : (ledger.record event).Ordered := by
  cases event with
  | published identifier value signature position =>
    refine ⟨?_, h.sealing_le, ?_, h.sealings, ?_⟩
    · intro made hmade
      rcases List.mem_append.1 hmade with hmade | hmade
      · exact h.updateEpoch_le made hmade
      · obtain rfl := List.mem_singleton.1 hmade
        exact Nat.le_refl _
    · apply List.pairwise_append.2 ⟨h.publications, List.pairwise_singleton _ _, ?_⟩
      intro made hmade newest hnewest
      obtain rfl := List.mem_singleton.1 hnewest
      exact h.updateEpoch_le made hmade
    · intro made hmade sealing hsealing hlater
      rcases List.mem_append.1 hmade with hmade | hmade
      · exact h.after made hmade sealing hsealing hlater
      · obtain rfl := List.mem_singleton.1 hmade
        exact (h.sealing_le sealing hsealing).2
  | sealed =>
    have hepoch : (ledger.record .sealed).updateEpoch = ledger.updateEpoch + 1 := updateEpoch_record_sealed
    refine ⟨?_, ?_, h.publications, ?_, ?_⟩
    · intro made hmade
      rw [hepoch]
      exact Nat.le_succ_of_le (h.updateEpoch_le made hmade)
    · intro sealing hsealing
      rw [hepoch]
      rcases List.mem_append.1 hsealing with hsealing | hsealing
      · obtain ⟨hle, hperiod⟩ := h.sealing_le sealing hsealing
        exact ⟨Nat.le_succ_of_le hle, hperiod⟩
      · obtain rfl := List.mem_singleton.1 hsealing
        exact ⟨Nat.le_refl _, Nat.le_refl _⟩
    · apply List.pairwise_append.2 ⟨h.sealings, List.pairwise_singleton _ _, ?_⟩
      intro sealing hsealing newest hnewest
      obtain rfl := List.mem_singleton.1 hnewest
      exact Nat.lt_succ_of_le (h.sealing_le sealing hsealing).1
    · intro made hmade sealing hsealing hlater
      rcases List.mem_append.1 hsealing with hsealing | hsealing
      · exact h.after made hmade sealing hsealing hlater
      · -- nothing has been published after the epoch that is just ending
        obtain rfl := List.mem_singleton.1 hsealing
        exact absurd (h.updateEpoch_le made hmade) (Nat.not_le.2 hlater)
  | advanced =>
    refine ⟨h.updateEpoch_le, ?_, h.publications, h.sealings, h.after⟩
    intro sealing hsealing
    obtain ⟨hle, hperiod⟩ := h.sealing_le sealing hsealing
    rw [period_record_advanced]
    exact ⟨hle, Nat.le_succ_of_le hperiod⟩

theorem foldl (h : ledger.Ordered) (events : List Partition.Event) :
    (events.foldl Ledger.record ledger).Ordered := by
  induction events generalizing ledger with
  | nil => exact h
  | cons event events ih => exact ih (h.record event)

end Ordered

theorem ordered_ofEvents (events : List Partition.Event) : (ofEvents events).Ordered :=
  ordered_empty.foldl _

/-! ## Positions -/

namespace Consistent

variable {ledger : Ledger} {made other : Publication}

/-- As long as eight bytes can count them, later publications have later positions. -/
theorem pairwise_position (h : ledger.Consistent) (hwords : ledger.publications.length < UInt64.size) :
    ledger.publications.Pairwise fun older newer => older.position < newer.position := by
  apply List.pairwise_iff_getElem.2
  intro i j hi hj hij
  obtain ⟨hposition, -⟩ := h.position i _ (List.getElem?_eq_getElem hi)
  obtain ⟨hposition', -⟩ := h.position j _ (List.getElem?_eq_getElem hj)
  rw [hposition, hposition', UInt64.lt_iff_toNat_lt, UInt64.toNat_ofNat_of_lt' (by omega),
    UInt64.toNat_ofNat_of_lt' (by omega)]
  exact hij

/-- A position is taken once. -/
theorem eq_of_position_eq (h : ledger.Consistent) (hwords : ledger.publications.length < UInt64.size)
    (hmade : made ∈ ledger.publications) (hother : other ∈ ledger.publications)
    (hposition : made.position = other.position) : made = other := by
  rcases before_or_eq_or_after (h.pairwise_position hwords) hmade hother with hlt | heq | hlt
  · exact absurd (hposition ▸ hlt) (UInt64.lt_irrefl _)
  · exact heq
  · exact absurd (hposition ▸ hlt) (UInt64.lt_irrefl _)

/-- A publication is among the insertions of some publications if it is one of them. -/
theorem mem_map_filter_iff (h : ledger.Consistent) (hwords : ledger.publications.length < UInt64.size)
    (hmade : made ∈ ledger.publications) {q : Publication → Bool} :
    made.insertion ∈ (ledger.publications.filter q).map Publication.insertion ↔ q made = true := by
  constructor
  · intro hmem
    obtain ⟨other, hother, hsame⟩ := List.mem_map.1 hmem
    obtain ⟨hother, hq⟩ := List.mem_filter.1 hother
    obtain rfl := h.eq_of_position_eq hwords hother hmade (congrArg (·.2.position) hsame)
    exact hq
  · intro hq
    exact List.mem_map_of_mem (List.mem_filter.2 ⟨hmade, hq⟩)

theorem mem_snapshot_iff (h : ledger.Consistent) (hwords : ledger.publications.length < UInt64.size)
    (hmade : made ∈ ledger.publications) {epoch : Nat} :
    made.insertion ∈ ledger.snapshot epoch ↔ made.period ≤ epoch :=
  (h.mem_map_filter_iff hwords hmade).trans decide_eq_true_iff

theorem mem_batch_iff (h : ledger.Consistent) (hwords : ledger.publications.length < UInt64.size)
    (hmade : made ∈ ledger.publications) {updateEpoch : Nat} :
    made.insertion ∈ ledger.batch updateEpoch ↔ made.updateEpoch = updateEpoch :=
  (h.mem_map_filter_iff hwords hmade).trans decide_eq_true_iff

end Consistent

/-! ## The order of the named tries -/

section

variable {ledger : Ledger} {aggregated : Bool} {made other : Publication}

theorem pairwise_settledEpochs (ledger : Ledger) (aggregated : Bool) :
    (ledger.settledEpochs aggregated).Pairwise (· < ·) := by
  cases aggregated with
  | false => exact List.pairwise_singleton _ _
  | true => exact List.pairwise_map.2 (tiles_rootPositions _).pairwise_lastLeaf

/-- Snapshots only ever grow. -/
theorem snapshot_subset {epoch epoch' : Nat} (h : epoch ≤ epoch') :
    ledger.snapshot epoch ⊆ ledger.snapshot epoch' := by
  intro insertion hmem
  obtain ⟨made, hmade, rfl⟩ := List.mem_map.1 hmem
  obtain ⟨hmade, hperiod⟩ := List.mem_filter.1 hmade
  exact mem_snapshot hmade (Nat.le_trans (of_decide_eq_true hperiod) h)

/-- The later trie has what the earlier one has and that is no older than something in the later. -/
def GoesOn (ledger : Ledger) (earlier later : List Insertion) : Prop :=
  ∀ made ∈ ledger.publications, ∀ other ∈ ledger.publications, other.position ≤ made.position →
    made.insertion ∈ earlier → other.insertion ∈ later → made.insertion ∈ later

namespace Ordered

theorem updateEpoch_le_of_position_le (h : ledger.Ordered) (hconsistent : ledger.Consistent)
    (hwords : ledger.publications.length < UInt64.size) (hmade : made ∈ ledger.publications)
    (hother : other ∈ ledger.publications) (hle : other.position ≤ made.position) :
    other.updateEpoch ≤ made.updateEpoch := by
  rcases before_or_eq_or_after ((hconsistent.pairwise_position hwords).and h.publications) hmade hother
    with ⟨hlt, -⟩ | rfl | ⟨-, hupdates⟩
  · exact absurd hle (UInt64.not_le.2 hlt)
  · exact Nat.le_refl _
  · exact hupdates

/-- **The named tries go on from each other.** -/
theorem pairwise_named (h : ledger.Ordered) (hconsistent : ledger.Consistent)
    (hwords : ledger.publications.length < UInt64.size) (hperiod : 2 ≤ ledger.period) :
    (ledger.named aggregated).Pairwise ledger.GoesOn := by
  refine List.pairwise_append.2 ⟨?_, ?_, ?_⟩
  · -- a later snapshot has all that an earlier one has
    apply List.pairwise_map.2
    refine (ledger.pairwise_settledEpochs aggregated).imp ?_
    intro epoch epoch' hlt made _ other _ _ hmem _
    exact snapshot_subset (Nat.le_of_lt hlt) hmem
  · -- an update trie has nothing as new as a later one
    apply List.pairwise_map.2
    refine (h.sealings.filter _).imp ?_
    intro sealing sealing' hlt made hmade other hother hle hmem hmem'
    have hupdates := h.updateEpoch_le_of_position_le hconsistent hwords hmade hother hle
    rw [(hconsistent.mem_batch_iff hwords hmade).1 hmem,
      (hconsistent.mem_batch_iff hwords hother).1 hmem'] at hupdates
    exact absurd hlt (Nat.not_lt.2 hupdates)
  · -- what has settled was published before the epochs ended that serve proofs
    intro earlier hearlier later hlater made hmade other hother hle hmem hmem'
    obtain ⟨epoch, hepoch, rfl⟩ := List.mem_map.1 hearlier
    obtain ⟨sealing, hsealing, rfl⟩ := List.mem_map.1 hlater
    obtain ⟨hsealing, hserved⟩ := List.mem_filter.1 hsealing
    have hserved := of_decide_eq_true hserved
    have hsettled := lt_of_mem_settledEpochs hperiod hepoch
    have hmadePeriod := (hconsistent.mem_snapshot_iff hwords hmade).1 hmem
    have hupdates := h.updateEpoch_le_of_position_le hconsistent hwords hmade hother hle
    rw [(hconsistent.mem_batch_iff hwords hother).1 hmem'] at hupdates
    rw [hconsistent.mem_batch_iff hwords hmade]
    by_contra hne
    have hafter := h.after made hmade sealing hsealing (by omega)
    omega

end Ordered

end

end Ledger

/-! ## The newest proof -/

/-- A proof of membership among these has the entry. -/
def ExistenceProof.Shows (proof : ExistenceProof) (entry : ValueEntry) : Prop :=
  ∃ found ∈ proof.all, found.isMember = true ∧ entry ∈ found.values

instance (proof : ExistenceProof) (entry : ValueEntry) : Decidable (proof.Shows entry) :=
  inferInstanceAs (Decidable (∃ found ∈ _, _))

section

variable {ledger : Ledger} {aggregated : Bool} {key : Bits} {proof : ExistenceProof}

/-- A key that is in a snapshot is in all later ones. -/
theorem stays_of_answers
    (h : List.Forall₂ (LookupProof.AnswersFor key) proof.base (ledger.namedBase aggregated)) :
    Validation.Stays proof.base := by
  rw [Ledger.namedBase, List.forall₂_map_right_iff] at h
  refine pairwise_of_forall₂ h (ledger.pairwise_settledEpochs aggregated) ?_
  intro earlier epoch later epoch' hanswers hanswers' hlt hmember
  obtain ⟨entry, hentry⟩ := List.exists_mem_of_ne_nil _ (hanswers.isMember.1 hmember)
  have hmem := Ledger.snapshot_subset (Nat.le_of_lt hlt) (mem_entriesUnder_iff.1 hentry)
  exact hanswers'.isMember.2 (List.ne_nil_of_mem (mem_entriesUnder_iff.2 hmem))

/-- What is shown is in a named trie. -/
theorem shows_iff (h : List.Forall₂ (LookupProof.AnswersFor key) proof.all (ledger.named aggregated))
    {entry : ValueEntry} :
    proof.Shows entry ↔ ∃ insertions ∈ ledger.named aggregated, (key, entry) ∈ insertions := by
  constructor
  · rintro ⟨found, hfound, -, hentry⟩
    obtain ⟨i, hi⟩ := List.mem_iff_getElem?.1 hfound
    obtain ⟨insertions, hnamed, hanswers⟩ := getElem?_of_forall₂ h.flip hi
    exact ⟨insertions, List.mem_of_getElem? hnamed, hanswers.mem_values_iff.1 hentry⟩
  · rintro ⟨insertions, hnamed, hmem⟩
    obtain ⟨i, hi⟩ := List.mem_iff_getElem?.1 hnamed
    obtain ⟨found, hfound, hanswers⟩ := getElem?_of_forall₂ h hi
    have hentry := hanswers.mem_values_iff.2 hmem
    exact ⟨found, List.mem_of_getElem? hfound, LookupProof.isMember_of_mem_values hentry, hentry⟩

/-- **The newest value shown is in the newest proof.** -/
theorem exists_newest_shows (hordered : ledger.Ordered) (hconsistent : ledger.Consistent)
    (hwords : ledger.publications.length < UInt64.size) (hperiod : 2 ≤ ledger.period)
    (h : List.Forall₂ (LookupProof.AnswersFor key) proof.all (ledger.named aggregated))
    {made : Publication} (hmade : made ∈ ledger.publications) (hkey : made.insertion.1 = key)
    (hshown : proof.Shows made.entry)
    (hnewest : ∀ other ∈ ledger.publications, other.insertion.1 = key → proof.Shows other.entry →
      other.position ≤ made.position) :
    ∃ found, LookupProof.newest proof.all = some found ∧ made.entry ∈ found.values := by
  subst hkey
  obtain ⟨found, hfound, hmember, hentry⟩ := hshown
  have hsome : (LookupProof.newest proof.all).isSome = true :=
    List.find?_isSome.2 ⟨found, List.mem_reverse.2 hfound, hmember⟩
  obtain ⟨last, hlast⟩ := Option.isSome_iff_exists.1 hsome
  refine ⟨last, hlast, ?_⟩
  have hlastMember : last.isMember = true := List.find?_some hlast
  obtain ⟨i, hi, hlater⟩ := LookupProof.newest_eq_some hlast
  obtain ⟨j, hj⟩ := List.mem_iff_getElem?.1 hfound
  rcases Nat.lt_trichotomy j i with hlt | rfl | hlt
  · obtain ⟨earlier, hearlier, hanswers⟩ := getElem?_of_forall₂ h.flip hj
    obtain ⟨later, hlaterTrie, hanswers'⟩ := getElem?_of_forall₂ h.flip hi
    -- the last trie that holds the key has something under it, which is no newer
    obtain ⟨entry, hheld⟩ := List.exists_mem_of_ne_nil _ (hanswers'.isMember.1 hlastMember)
    have hinsertion := mem_entriesUnder_iff.1 hheld
    obtain ⟨other, hother, hsame, -⟩ := Ledger.exists_publication hperiod
      (List.mem_of_getElem? hlaterTrie) hinsertion
    obtain ⟨hotherKey, rfl⟩ := Prod.mk.inj hsame
    have hle := hnewest other hother hotherKey
      ((shows_iff h).2 ⟨later, List.mem_of_getElem? hlaterTrie, hinsertion⟩)
    obtain ⟨hjlt, rfl⟩ := List.getElem?_eq_some_iff.1 hearlier
    obtain ⟨hilt, rfl⟩ := List.getElem?_eq_some_iff.1 hlaterTrie
    have hgoes := List.pairwise_iff_getElem.1
      (hordered.pairwise_named hconsistent hwords hperiod) j i hjlt hilt hlt
    rw [hanswers'.mem_values_iff]
    exact hgoes made hmade other hother hle (hanswers.mem_values_iff.1 hentry) (hsame ▸ hinsertion)
  · cases hi.symm.trans hj
    exact hentry
  · exact absurd hmember (Bool.eq_false_iff.1 (hlater j found hlt hj))

end

end KeyTransparency
