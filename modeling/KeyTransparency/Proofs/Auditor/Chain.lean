import KeyTransparency.Proofs.Auditor.Run
import KeyTransparency.Proofs.Preimage

/-!
# Forks show in the chain

A chain value binds all links that led to it, so two chains that have had the same number of links and
come to the same value have been the same all along:

    chainAfter chain links = chainAfter chain' links' → links.length = links'.length →
      chain = chain' ∧ links = links', or a collision                              (chainAfter_inj)

An auditor who misses no period sees every link.  Within a period the chain stands still, so each digest
that it accepts has the chain that belongs to its epoch (`Placed`), and two auditors who come to the same
chain at the same epoch have been shown the same history (`forks_show`).
-/

namespace KeyTransparency

/-- What a link adds to the chain. -/
structure ChainLink where
  older : Hash
  newer : Hash
  updateEpoch : UInt64
deriving DecidableEq

/-- The link that a digest names. -/
def Digest.link (digest : Digest) : ChainLink :=
  ⟨digest.settledRoot, digest.recentRoot, digest.settledUpdateEpoch⟩

namespace ChainLink

def preimage (chain : Hash) (link : ChainLink) : Bytes :=
  chainPreimage link.older link.newer link.updateEpoch chain

def extend (chain : Hash) (link : ChainLink) : Hash := Hash.digest (link.preimage chain)

/-- The chain with some links more. -/
def chainAfter (chain : Hash) (links : List ChainLink) : Hash := links.foldl extend chain

/-- The strings hashed for these links. -/
def preimages : (chain : Hash) → (links : List ChainLink) → List Bytes
  | _, [] => []
  | chain, link :: links => link.preimage chain :: preimages (extend chain link) links

/-- **A chain binds its links**, when their number is known. -/
theorem chainAfter_inj {strings : List Bytes} (hfree : ¬ Collision strings) {chain chain' : Hash}
    {links links' : List ChainLink} (hlength : links.length = links'.length)
    (hmem : preimages chain links ⊆ strings) (hmem' : preimages chain' links' ⊆ strings)
    (h : chainAfter chain links = chainAfter chain' links') : chain = chain' ∧ links = links' := by
  induction links generalizing links' chain chain' with
  | nil =>
    obtain rfl := List.eq_nil_of_length_eq_zero hlength.symm
    exact ⟨h, rfl⟩
  | cons link links ih =>
    cases links' with
    | nil => cases hlength
    | cons link' links' =>
      unfold preimages at hmem hmem'
      rw [List.cons_subset] at hmem hmem'
      obtain ⟨hstring, hmem⟩ := hmem
      obtain ⟨hstring', hmem'⟩ := hmem'
      obtain ⟨hextended, rfl⟩ := ih (Nat.succ.inj hlength) hmem hmem' h
      obtain ⟨holder, hnewer, hepoch, hchain⟩ :=
        chainPreimage_inj (eq_of_digest_eq hfree hstring hstring' hextended)
      cases link
      cases link'
      cases holder
      cases hnewer
      cases hepoch
      exact ⟨hchain, rfl⟩

end ChainLink

namespace Auditor

open ChainLink

/-! ## The links that an auditor sees -/

def Acceptance.epoch (accepted : Acceptance) : Nat := accepted.digest.verificationEpoch.toNat

/-- The string hashed for the link by which a digest of the next period is accepted. -/
def Acceptance.linkPreimage? (accepted : Acceptance) : Option Bytes :=
  if accepted.verdict = .settled then
    accepted.previous.map fun previous => accepted.digest.link.preimage previous.chain
  else none

/-- The strings hashed for the links of all digests accepted. -/
def linkPreimages (accepted : List Acceptance) : List Bytes :=
  accepted.filterMap Acceptance.linkPreimage?

def links (accepted : List Acceptance) : List ChainLink :=
  (accepted.filter (·.verdict = .settled)).map (·.digest.link)

/-- Each digest was accepted as of the same period as the one before it or as of the next. -/
def Steady (accepted : List Acceptance) : Prop :=
  ∀ each ∈ accepted, each.verdict = .extended ∨ each.verdict = .settled

section

variable {start : Digest} {accepted : Acceptance} {rest : List Acceptance}

theorem links_cons_extended (h : accepted.verdict = .extended) :
    links (accepted :: rest) = links rest := by
  simp [links, h]

theorem links_cons_settled (h : accepted.verdict = .settled) :
    links (accepted :: rest) = accepted.digest.link :: links rest := by
  simp [links, h]

theorem linkPreimages_cons_extended (h : accepted.verdict = .extended) :
    linkPreimages (accepted :: rest) = linkPreimages rest := by
  simp [linkPreimages, Acceptance.linkPreimage?, h]

theorem linkPreimages_cons_settled (h : accepted.verdict = .settled)
    (hprevious : accepted.previous = some start) :
    linkPreimages (accepted :: rest) =
      accepted.digest.link.preimage start.chain :: linkPreimages rest := by
  simp [linkPreimages, Acceptance.linkPreimage?, h, hprevious]

/-- Induction along a steady run.  Within a period the chain stands still; with each new period it has
one link more. -/
theorem steady_induction {motive : Digest → List Acceptance → Prop}
    (nil : ∀ start, motive start [])
    (extended : ∀ start accepted rest, accepted.verdict = .extended →
      accepted.epoch = start.verificationEpoch.toNat → accepted.digest.chain = start.chain →
      motive accepted.digest rest → motive start (accepted :: rest))
    (settled : ∀ start accepted rest, accepted.verdict = .settled → accepted.previous = some start →
      accepted.epoch = start.verificationEpoch.toNat + 1 →
      accepted.digest.chain = extend start.chain accepted.digest.link →
      motive accepted.digest rest → motive start (accepted :: rest))
    {later : List Acceptance} (hlinked : Linked (some start) later) (hsteady : Steady later)
    (hstart : start.verificationEpoch.toNat + 1 < UInt64.size)
    (hwords : ∀ each ∈ later, each.epoch + 1 < UInt64.size) : motive start later := by
  induction later generalizing start with
  | nil => exact nil start
  | cons accepted rest ih =>
    cases hlinked with
    | cons hprevious hsound hlinked =>
      obtain ⟨hverdict, hsteady⟩ := List.forall_mem_cons.1 hsteady
      obtain ⟨hword, hwords⟩ := List.forall_mem_cons.1 hwords
      have hrest := ih hlinked hsteady hword hwords
      unfold Acceptance.Sound at hsound
      rw [hprevious] at hsound
      obtain ⟨-, hcontinues⟩ := hsound
      rcases hverdict with hverdict | hverdict
      · rw [hverdict] at hcontinues
        cases hcontinues with
        | extended h =>
          have hepoch := congrArg UInt64.toNat h.epoch
          exact extended start accepted rest hverdict hepoch h.chain hrest
      · rw [hverdict] at hcontinues
        cases hcontinues with
        | settled h =>
          have hepoch : accepted.epoch = start.verificationEpoch.toNat + 1 := by
            unfold Acceptance.epoch
            rw [h.epoch, UInt64.toNat_add, UInt64.toNat_one, Nat.mod_eq_of_lt hstart]
          exact settled start accepted rest hverdict hprevious hepoch h.chain hrest

end

/-! ## Places in the chain -/

/-- The digest is `k` periods after `start`, with the chain that belongs there. -/
structure Placed (start : Digest) (links : List ChainLink) (k : Nat) (digest : Digest) : Prop where
  le : k ≤ links.length
  epoch : digest.verificationEpoch.toNat = start.verificationEpoch.toNat + k
  chain : digest.chain = chainAfter start.chain (links.take k)

namespace Placed

variable {start digest : Digest} {accepted : Acceptance} {links : List ChainLink} {k : Nat}

theorem self (start : Digest) (links : List ChainLink) : Placed start links 0 start where
  le := Nat.zero_le _
  epoch := rfl
  chain := rfl

theorem extended (h : Placed accepted.digest links k digest)
    (hepoch : accepted.epoch = start.verificationEpoch.toNat)
    (hchain : accepted.digest.chain = start.chain) : Placed start links k digest where
  le := h.le
  epoch := by rw [h.epoch, ← hepoch, Acceptance.epoch]
  chain := by rw [h.chain, hchain]

theorem settled (h : Placed accepted.digest links k digest)
    (hepoch : accepted.epoch = start.verificationEpoch.toNat + 1)
    (hchain : accepted.digest.chain = extend start.chain accepted.digest.link) :
    Placed start (accepted.digest.link :: links) (k + 1) digest where
  le := Nat.succ_le_succ h.le
  epoch := by
    have hdigest := h.epoch
    unfold Acceptance.epoch at hepoch
    omega
  chain := by
    rw [h.chain, hchain, List.take_succ_cons]
    rfl

end Placed

section

variable {start : Digest} {later : List Acceptance} (hlinked : Linked (some start) later)
  (hsteady : Steady later) (hstart : start.verificationEpoch.toNat + 1 < UInt64.size)
  (hwords : ∀ each ∈ later, each.epoch + 1 < UInt64.size)

include hlinked hsteady hstart hwords

/-- **Every digest of a steady run has its place**, and one of a new period names the link before it. -/
theorem placed_of_mem : ∀ each ∈ later, ∃ k, Placed start (links later) k each.digest ∧
    (each.verdict = .settled → ∃ j, k = j + 1 ∧ (links later)[j]? = some each.digest.link) := by
  refine steady_induction (motive := fun start later => ∀ each ∈ later, ∃ k,
      Placed start (links later) k each.digest ∧
        (each.verdict = .settled → ∃ j, k = j + 1 ∧ (links later)[j]? = some each.digest.link))
    ?nil ?extended ?settled hlinked hsteady hstart hwords
  case nil =>
    intro start each hmem
    cases hmem
  case extended =>
    intro start accepted rest hverdict hepoch hchain ih each hmem
    rw [links_cons_extended hverdict]
    rcases List.mem_cons.1 hmem with rfl | hmem
    · refine ⟨0, (Placed.self _ _).extended hepoch hchain, fun hsettled => ?_⟩
      rw [hverdict] at hsettled
      cases hsettled
    · obtain ⟨k, hplaced, hlink⟩ := ih each hmem
      exact ⟨k, hplaced.extended hepoch hchain, hlink⟩
  case settled =>
    intro start accepted rest hverdict _ hepoch hchain ih each hmem
    rw [links_cons_settled hverdict]
    rcases List.mem_cons.1 hmem with rfl | hmem
    · exact ⟨1, (Placed.self _ _).settled hepoch hchain, fun _ => ⟨0, rfl, rfl⟩⟩
    · obtain ⟨k, hplaced, hlink⟩ := ih each hmem
      refine ⟨k + 1, hplaced.settled hepoch hchain, fun hsettled => ?_⟩
      obtain ⟨j, rfl, hget⟩ := hlink hsettled
      exact ⟨j + 1, rfl, hget⟩

/-- The last digest has all links behind it. -/
theorem placed_last : ∀ last, retainedAfter (some start) later = some last →
    Placed start (links later) (links later).length last := by
  refine steady_induction (motive := fun start later => ∀ last,
      retainedAfter (some start) later = some last →
        Placed start (links later) (links later).length last)
    ?nil ?extended ?settled hlinked hsteady hstart hwords
  case nil =>
    intro start last hlast
    cases hlast
    exact .self _ _
  case extended =>
    intro start accepted rest hverdict hepoch hchain ih last hlast
    rw [links_cons_extended hverdict]
    exact (ih last hlast).extended hepoch hchain
  case settled =>
    intro start accepted rest hverdict _ hepoch hchain ih last hlast
    rw [links_cons_settled hverdict]
    exact (ih last hlast).settled hepoch hchain

/-- No period is missed. -/
theorem exists_settled : ∀ j < (links later).length, ∃ each ∈ later,
    each.verdict = .settled ∧ each.epoch = start.verificationEpoch.toNat + (j + 1) := by
  refine steady_induction (motive := fun start later => ∀ j < (links later).length,
      ∃ each ∈ later, each.verdict = .settled ∧
        each.epoch = start.verificationEpoch.toNat + (j + 1))
    ?nil ?extended ?settled hlinked hsteady hstart hwords
  case nil =>
    intro start j hj
    cases hj
  case extended =>
    intro start accepted rest hverdict hepoch _ ih j hj
    rw [links_cons_extended hverdict] at hj
    obtain ⟨each, hmem, hsettled, heach⟩ := ih j hj
    refine ⟨each, List.mem_cons_of_mem _ hmem, hsettled, ?_⟩
    rw [heach, ← hepoch, Acceptance.epoch]
  case settled =>
    intro start accepted rest hverdict _ hepoch _ ih j hj
    rw [links_cons_settled hverdict] at hj
    cases j with
    | zero => exact ⟨accepted, List.mem_cons_self, hverdict, hepoch⟩
    | succ j =>
      obtain ⟨each, hmem, hsettled, heach⟩ := ih j (Nat.lt_of_succ_lt_succ hj)
      refine ⟨each, List.mem_cons_of_mem _ hmem, hsettled, ?_⟩
      unfold Acceptance.epoch at hepoch
      omega

theorem linkPreimages_eq : linkPreimages later = ChainLink.preimages start.chain (links later) := by
  refine steady_induction (motive := fun start later =>
      linkPreimages later = ChainLink.preimages start.chain (links later))
    ?nil ?extended ?settled hlinked hsteady hstart hwords
  case nil =>
    intro start
    rfl
  case extended =>
    intro start accepted rest hverdict _ hchain ih
    rw [linkPreimages_cons_extended hverdict, links_cons_extended hverdict, ih, hchain]
  case settled =>
    intro start accepted rest hverdict hprevious _ hchain ih
    rw [linkPreimages_cons_settled hverdict hprevious, links_cons_settled hverdict, ih, hchain]
    rfl

end

/-! ## Two auditors -/

/-- The run shows digests of the epoch, all with this chain. -/
def ChainAt (accepted : List Acceptance) (epoch : Nat) (chain : Hash) : Prop :=
  (∃ each ∈ accepted, each.epoch = epoch) ∧
    ∀ each ∈ accepted, each.epoch = epoch → each.digest.chain = chain

/-- The run enters the epoch, and by this link. -/
def LinkAt (accepted : List Acceptance) (epoch : Nat) (link : ChainLink) : Prop :=
  (∃ each ∈ accepted, each.verdict = .settled ∧ each.epoch = epoch) ∧
    ∀ each ∈ accepted, each.verdict = .settled → each.epoch = epoch → each.digest.link = link

/-- What an auditor accepts of a partition in a run: a first digest, and later ones without missing a
period. -/
structure Follows (auditor : Auditor) (seen : List Observation) (i : Nat) (first : Acceptance)
    (later : List Acceptance) (last : Digest) : Prop where
  accepted : ofPartition i (auditor.run seen).2 = first :: later
  steady : Steady later
  words : ∀ each ∈ first :: later, each.epoch + 1 < UInt64.size
  last : (auditor.run seen).1.last? i = some last

namespace Follows

variable {auditor : Auditor} {seen : List Observation} {i : Nat} {first : Acceptance}
  {later : List Acceptance} {last : Digest}

theorem linked (h : Follows auditor seen i first later last) :
    Linked (some first.digest) later := by
  have hrun := linked_run auditor seen i
  rw [h.accepted] at hrun
  cases hrun with
  | cons _ _ hlinked => exact hlinked

theorem retained (h : Follows auditor seen i first later last) :
    retainedAfter (some first.digest) later = some last := by
  have hrun := last?_run auditor seen i
  rw [h.accepted, h.last] at hrun
  exact hrun.symm

theorem placed_last (h : Follows auditor seen i first later last) :
    Placed first.digest (links later) (links later).length last := by
  obtain ⟨hstart, hwords⟩ := List.forall_mem_cons.1 h.words
  exact Auditor.placed_last h.linked h.steady hstart hwords last h.retained

theorem linkPreimages_eq (h : Follows auditor seen i first later last) :
    linkPreimages later = ChainLink.preimages first.digest.chain (links later) := by
  obtain ⟨hstart, hwords⟩ := List.forall_mem_cons.1 h.words
  exact Auditor.linkPreimages_eq h.linked h.steady hstart hwords

theorem chainAt (h : Follows auditor seen i first later last) {k : Nat}
    (hk : k ≤ (links later).length) :
    ChainAt (first :: later) (first.epoch + k)
      (chainAfter first.digest.chain ((links later).take k)) := by
  obtain ⟨hstart, hwords⟩ := List.forall_mem_cons.1 h.words
  constructor
  · cases k with
    | zero => exact ⟨first, List.mem_cons_self, rfl⟩
    | succ j =>
      obtain ⟨each, hmem, -, hepoch⟩ := exists_settled h.linked h.steady hstart hwords j hk
      exact ⟨each, List.mem_cons_of_mem _ hmem, hepoch⟩
  · intro each hmem hepoch
    have hplace : ∃ place, Placed first.digest (links later) place each.digest := by
      rcases List.mem_cons.1 hmem with rfl | hmem
      · exact ⟨0, .self _ _⟩
      · obtain ⟨place, hplaced, -⟩ := placed_of_mem h.linked h.steady hstart hwords each hmem
        exact ⟨place, hplaced⟩
    obtain ⟨place, hplaced⟩ := hplace
    have hsame : place = k := by
      have hdigest := hplaced.epoch
      unfold Acceptance.epoch at hepoch
      omega
    rw [hplaced.chain, hsame]

theorem linkAt (h : Follows auditor seen i first later last) {j : Nat} {link : ChainLink}
    (hlink : (links later)[j]? = some link) : LinkAt later (first.epoch + (j + 1)) link := by
  obtain ⟨hstart, hwords⟩ := List.forall_mem_cons.1 h.words
  obtain ⟨hj, -⟩ := List.getElem?_eq_some_iff.1 hlink
  constructor
  · exact exists_settled h.linked h.steady hstart hwords j hj
  · intro each hmem hsettled hepoch
    obtain ⟨place, hplaced, hnamed⟩ := placed_of_mem h.linked h.steady hstart hwords each hmem
    obtain ⟨before, rfl, hget⟩ := hnamed hsettled
    have hsame : before = j := by
      have hdigest := hplaced.epoch
      unfold Acceptance.epoch at hepoch
      omega
    rw [hsame, hlink] at hget
    exact (Option.some.inj hget).symm

end Follows

/-- **Forks show in the chain.**  When two auditors who have missed no period start at the same epoch and
come to the same chain at the same epoch, they have been shown the same chain at every epoch between,
and the same link into every new one, unless two of the strings hashed for these links collide. -/
theorem forks_show {auditor auditor' : Auditor} {seen seen' : List Observation} {i i' : Nat}
    {first first' : Acceptance} {later later' : List Acceptance} {last last' : Digest}
    (h : Follows auditor seen i first later last) (h' : Follows auditor' seen' i' first' later' last')
    (hstart : first.digest.verificationEpoch = first'.digest.verificationEpoch)
    (hend : last.verificationEpoch = last'.verificationEpoch) (hchain : last.chain = last'.chain) :
    ((∀ epoch, first.epoch ≤ epoch → epoch ≤ last.verificationEpoch.toNat →
        ∃ chain, ChainAt (first :: later) epoch chain ∧ ChainAt (first' :: later') epoch chain) ∧
      ∀ epoch, first.epoch < epoch → epoch ≤ last.verificationEpoch.toNat →
        ∃ link, LinkAt later epoch link ∧ LinkAt later' epoch link) ∨
      Collision (linkPreimages later ++ linkPreimages later') := by
  by_cases hfree : Collision (linkPreimages later ++ linkPreimages later')
  · exact .inr hfree
  left
  -- from one epoch to the other both runs have as many links
  have hlast := h.placed_last
  have hlast' := h'.placed_last
  have hlength : (links later).length = (links later').length := by
    have hepoch := hlast.epoch
    have hepoch' := hlast'.epoch
    rw [hstart, hend] at hepoch
    omega
  have hafter := hlast.chain
  have hafter' := hlast'.chain
  rw [List.take_length] at hafter hafter'
  rw [h.linkPreimages_eq, h'.linkPreimages_eq] at hfree
  -- so the chain at the end binds the one at the start and all links
  obtain ⟨hsame, hlinks⟩ := chainAfter_inj hfree hlength (List.subset_append_left _ _)
    (List.subset_append_right _ _) (hafter.symm.trans (hchain.trans hafter'))
  have hepochs : first.epoch = first'.epoch := congrArg UInt64.toNat hstart
  have hspan := hlast.epoch
  constructor
  · intro epoch hle hepoch
    obtain ⟨k, rfl⟩ := Nat.exists_eq_add_of_le hle
    have hk : k ≤ (links later).length := by
      unfold Acceptance.epoch at hepoch
      omega
    refine ⟨_, h.chainAt hk, ?_⟩
    rw [hsame, hlinks, hepochs]
    exact h'.chainAt (hlength ▸ hk)
  · intro epoch hlt hepoch
    obtain ⟨j, rfl⟩ := Nat.exists_eq_add_of_lt hlt
    have hj : j < (links later).length := by
      unfold Acceptance.epoch at hepoch
      omega
    obtain ⟨link, hlink⟩ : ∃ link, (links later)[j]? = some link :=
      ⟨_, List.getElem?_eq_getElem hj⟩
    refine ⟨link, h.linkAt hlink, ?_⟩
    rw [hlinks] at hlink
    rw [hepochs]
    exact h'.linkAt hlink

/-! ## An example -/

namespace Watched

/-- An empty partition, and below it one period later. -/
def opening : Digest :=
  ⟨.zero, .zero, 0, ⟨Log.emptyRoot, 0⟩, ⟨Log.emptyRoot, 0⟩, [], 0, 2, 0, .zero, none⟩

def closing : Digest :=
  { opening with verificationEpoch := 3, chain := opening.expectedNextChain opening }

/-- The digests, each shown without a proof. -/
def shown (i : Nat) (digests : List Digest) : List Observation :=
  digests.map fun digest => ⟨i, digest, .empty⟩

def first (i : Nat) : Acceptance := ⟨⟨i, opening, .empty⟩, none, .first⟩

def again (i : Nat) : Acceptance := ⟨⟨i, opening, .empty⟩, some opening, .extended⟩

def last (i : Nat) : Acceptance := ⟨⟨i, closing, .empty⟩, some opening, .settled⟩

theorem follows_twice :
    Follows empty (shown 0 [opening, opening, closing]) 0 (first 0) [again 0, last 0] closing where
  accepted := by decide +kernel
  steady := by
    unfold Steady
    decide +kernel
  words := by decide +kernel
  last := by decide +kernel

theorem follows_once :
    Follows empty (shown 1 [opening, closing]) 1 (first 1) [last 1] closing where
  accepted := by decide +kernel
  steady := by
    unfold Steady
    decide +kernel
  words := by decide +kernel
  last := by decide +kernel

end Watched

open Watched

/-- One auditor sees a digest within the first period, which the other one misses. -/
theorem forks_show_two_epochs :
    Follows empty (shown 0 [opening, opening, closing]) 0 (first 0) [again 0, last 0] closing ∧
      Follows empty (shown 1 [opening, closing]) 1 (first 1) [last 1] closing ∧
      (((∀ epoch, (first 0).epoch ≤ epoch → epoch ≤ closing.verificationEpoch.toNat →
          ∃ chain, ChainAt [first 0, again 0, last 0] epoch chain ∧
            ChainAt [first 1, last 1] epoch chain) ∧
        ∀ epoch, (first 0).epoch < epoch → epoch ≤ closing.verificationEpoch.toNat →
          ∃ link, LinkAt [again 0, last 0] epoch link ∧ LinkAt [last 1] epoch link) ∨
        Collision (linkPreimages [again 0, last 0] ++ linkPreimages [last 1])) :=
  ⟨follows_twice, follows_once, forks_show follows_twice follows_once rfl rfl rfl⟩

end Auditor

end KeyTransparency
