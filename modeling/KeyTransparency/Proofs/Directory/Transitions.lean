import KeyTransparency.Proofs.Directory.Agreement
import KeyTransparency.Proofs.Partition.InPlace
import Mathlib.Data.List.Perm.Basic

/-!
# The partitions keep step

The end of an epoch goes through the partitions one by one, and each waits for its partition alone: other
requests, and other ends of epochs, run in between.  `Traffic` is a directory with all that is underway;
its moves are those of requests and, for a call that ends an epoch, the step of one partition, made in
place.  `InStep s clocks` is the invariant: at every partition, what its clock shows and the calls that
have still to pass it add up to the same number.

So a call that has passed the first partition finds room in all the others, and only a full history of the
first one refuses, when nothing has been written:

    InStep s clocks → the call in this turn ends, passes a partition or is refused by the first   (proceeds)
    every call that has ended went through all partitions or was refused by the first;
      when none is underway all clocks and histories agree                   (transitions_all_or_nothing)

A call that nothing interrupts is the operation of the directory (`InStep.uninterrupted`).
-/

namespace KeyTransparency

namespace Directory

/-! ## Calls that go through the partitions -/

/-- A call that ends an epoch, with the number of partitions it has passed. -/
structure Sweep where
  transition : Transition
  passed : Nat
deriving DecidableEq

def eventOf : Transition → Partition.Event
  | .update => .sealed
  | .verification => .advanced

/-- A directory with the calls that are underway. -/
structure Traffic (σ : Type) where
  service : Service σ
  underway : List Sweep
  /-- The calls that have answered, oldest first. -/
  ended : List (Sweep × Except Error Unit)

inductive Move
  | register (username masterKey signature : Bytes)
  /-- An append reads the master key. -/
  | readKey (username value : Bytes) (sign : UInt64 → Bytes)
  /-- One of the appends that wait takes its turn. -/
  | publish (turn : Nat)
  | start (transition : Transition)
  /-- One of the calls underway goes on to the next partition. -/
  | proceed (turn : Nat)

namespace Traffic

variable {σ : Type}

def idle (directory : Directory σ) : Traffic σ := ⟨.start directory, [], []⟩

/-- The call in a turn answers. -/
def finish (now : Traffic σ) (turn : Nat) (sweep : Sweep) (answer : Except Error Unit) : Traffic σ :=
  { now with underway := now.underway.eraseIdx turn, ended := now.ended ++ [(sweep, answer)] }

/-- Another partition in the place of one. -/
def put (now : Traffic σ) (index : Nat) (p : Partition) (events : List (Nat × Partition.Event)) :
    Traffic σ :=
  { now with
    service := ⟨now.service.directory.setPartition index p, now.service.waiting,
      now.service.happened ++ events⟩ }

/-- The call in a turn takes the next partition, or answers when there is none left. -/
def proceed (now : Traffic σ) (turn : Nat) (sweep : Sweep) : Traffic σ :=
  match now.service.directory.partitions[sweep.passed]? with
  | none => now.finish turn sweep (.ok ())
  | some p =>
    match p.stepInPlace sweep.transition with
    | (left, .error e) => (now.put sweep.passed left []).finish turn sweep (.error e)
    | (next, .ok ()) =>
      { now.put sweep.passed next [(sweep.passed, eventOf sweep.transition)] with
        underway := now.underway.set turn { sweep with passed := sweep.passed + 1 } }

variable [Storage σ]

def take (scheme : SignatureScheme) (now : Traffic σ) : Move → Traffic σ
  | .register username masterKey signature =>
    { now with service := now.service.take scheme (.register username masterKey signature) }
  | .readKey username value sign =>
    { now with service := now.service.take scheme (.readKey username value sign) }
  | .publish turn => { now with service := now.service.take scheme (.publish turn) }
  | .start transition => { now with underway := now.underway ++ [⟨transition, 0⟩] }
  | .proceed turn =>
    match now.underway[turn]? with
    | none => now
    | some sweep => now.proceed turn sweep

def run (scheme : SignatureScheme) (now : Traffic σ) (moves : List Move) : Traffic σ :=
  moves.foldl (take scheme) now

end Traffic

/-! ## What a request does to the partitions -/

section

variable {σ : Type} [Storage σ] {scheme : SignatureScheme} {dir next : Directory σ}

/-- One partition has taken a value, or none has. -/
def Appended (dir next : Directory σ) : Prop :=
  next.partitions = dir.partitions ∨
    ∃ index p q identifier value signature position, dir.partitions[index]? = some p ∧
      p.append identifier value signature = .ok (q, position) ∧
      next.partitions = (dir.setPartition index q).partitions

omit [Storage σ] in
theorem Appended.refl (dir : Directory σ) : Appended dir dir := .inl rfl

theorem appended_commit {identifier value signature : Bytes} {records : List ValueRecord}
    (hrecords : Storage.records dir.store identifier = .ok records) :
    Appended dir (dir.commit identifier records value signature).1 := by
  rcases commit_cases hrecords with ⟨e, hcommit⟩ | ⟨p, q, hmade, ⟨e, -, hcommit⟩ | ⟨store, -, hcommit⟩⟩
  · rw [hcommit]
    exact .refl dir
  · rw [hcommit]
    exact .inr ⟨_, p, q, _, _, _, _, hmade.partition, hmade.append, rfl⟩
  · rw [hcommit]
    exact .inr ⟨_, p, q, _, _, _, _, hmade.partition, hmade.append, rfl⟩

theorem appended_register (username masterKey signature : Bytes) :
    Appended dir (dir.register scheme username masterKey signature).1 := by
  rcases register_cases scheme dir username masterKey signature with
    ⟨e, hrefused⟩ | ⟨hnew, -, -, hcommit⟩
  · rw [hrefused]
    exact .refl dir
  · rw [hcommit]
    exact appended_commit hnew

theorem appended_publish (verifyingKey username value : Bytes) (sign : UInt64 → Bytes) :
    Appended dir (dir.publish scheme verifyingKey username value sign).1 := by
  rcases publish_cases scheme dir verifyingKey username value sign with
    ⟨e, hrefused⟩ | ⟨p, records, -, hrecords, -, hcommit⟩
  · rw [hrefused]
    exact .refl dir
  · rw [hcommit]
    exact appended_commit hrecords

omit [Storage σ] in
theorem directory_answered (now : Service σ) (waiting : List Request) (identifier value : Bytes)
    (sign : UInt64 → Bytes) (left : Directory σ × Except Error UInt64) :
    (now.answered waiting identifier value sign left).directory = left.1 := by
  obtain ⟨directory, answer⟩ := left
  cases answer <;> rfl

end

/-! ## The invariant -/

/-- The calls for a transition that have not passed the partition at `index`. -/
def behind (underway : List Sweep) (transition : Transition) (index : Nat) : Nat :=
  underway.countP fun sweep => sweep.transition = transition ∧ sweep.passed ≤ index

/-- A call that went through all partitions, or that a history refused at the first one. -/
def EndedWell (config : Config) (ended : Sweep × Except Error Unit) : Prop :=
  (ended.2 = .ok () ∧ ended.1.passed = config.partitions) ∨
    (ended.1 = ⟨.verification, 0⟩ ∧ config.aggregatedHistory = true ∧
      ended.2 = .error (.historyFull (2 ^ config.historyDepth)))

/-- What the call in a turn can do next: answer when it has passed all partitions, move the clock of the
next one, or be refused by the history of the first, which is full. -/
inductive Proceeds {σ : Type} (config : Config) (now : Traffic σ) (turn : Nat) (sweep : Sweep) :
    Traffic σ → Prop
  | ends : sweep.passed = config.partitions →
      Proceeds config now turn sweep (now.finish turn sweep (.ok ()))
  | passes {p q : Partition} : sweep.passed < config.partitions →
      now.service.directory.partitions[sweep.passed]? = some p → p.step sweep.transition = .ok q →
      q.verificationEpoch = p.verificationEpoch + (if sweep.transition = .verification then 1 else 0) →
      q.updateEpoch = p.updateEpoch + (if sweep.transition = .update then 1 else 0) →
      Proceeds config now turn sweep
        { now.put sweep.passed q [(sweep.passed, eventOf sweep.transition)] with
          underway := now.underway.set turn { sweep with passed := sweep.passed + 1 } }
  | refused {p : Partition} {forest : HistoryForest} : sweep = ⟨.verification, 0⟩ →
      config.aggregatedHistory = true → now.service.directory.partitions[0]? = some p →
      p.history = some forest → forest.size = 2 ^ config.historyDepth →
      p.advance = .error (.historyFull (2 ^ config.historyDepth)) →
      Proceeds config now turn sweep
        (now.finish turn sweep (.error (.historyFull (2 ^ config.historyDepth))))

/-- What every clock will show once the calls underway have passed its partition. -/
structure InStep {σ : Type} (config : Config) (now : Traffic σ) (clocks : Transition → Nat) : Prop where
  capacity : HistoryForest.capacityOf config.historyDepth = 2 ^ config.historyDepth
  size : now.service.directory.partitions.size = config.partitions
  reflects : ∀ index p, now.service.directory.partitions[index]? = some p →
    ∃ ledger, Reflects p ledger config.aggregatedHistory config.historyDepth ∧
      ∀ transition, ledger.clock transition + behind now.underway transition index = clocks transition
  passed : ∀ sweep ∈ now.underway, sweep.passed ≤ config.partitions
  ended : ∀ ended ∈ now.ended, EndedWell config ended

section

variable {σ : Type} {config : Config} {now next : Traffic σ} {clocks : Transition → Nat}
  {underway : List Sweep} {turn index : Nat} {sweep : Sweep} {transition : Transition}

theorem behind_cons (sweep : Sweep) (rest : List Sweep) (transition : Transition) (index : Nat) :
    behind (sweep :: rest) transition index =
      behind rest transition index +
        if sweep.transition = transition ∧ sweep.passed ≤ index then 1 else 0 := by
  rw [behind, List.countP_cons]
  simp only [decide_eq_true_eq]
  rfl

/-- The call in a turn, and the rest. -/
theorem behind_of_turn (h : underway[turn]? = some sweep) (transition : Transition) (index : Nat) :
    behind underway transition index =
      behind (underway.eraseIdx turn) transition index +
        if sweep.transition = transition ∧ sweep.passed ≤ index then 1 else 0 := by
  obtain ⟨hturn, rfl⟩ := List.getElem?_eq_some_iff.1 h
  rw [← behind_cons]
  exact (List.getElem_cons_eraseIdx_perm hturn).symm.countP_eq _

theorem behind_set (h : underway[turn]? = some sweep) (other : Sweep) (transition : Transition)
    (index : Nat) :
    behind (underway.set turn other) transition index =
      behind (underway.eraseIdx turn) transition index +
        if other.transition = transition ∧ other.passed ≤ index then 1 else 0 := by
  obtain ⟨hturn, -⟩ := List.getElem?_eq_some_iff.1 h
  rw [← behind_cons]
  exact (List.set_perm_cons_eraseIdx hturn other).countP_eq _

/-- Who has passed the first partition is one less to wait for there. -/
theorem behind_zero_lt (h : underway[turn]? = some sweep) (hpos : 0 < sweep.passed) :
    behind underway sweep.transition 0 < behind underway sweep.transition sweep.passed := by
  rw [behind_of_turn h _ 0, behind_of_turn h _ sweep.passed, if_neg (by omega),
    if_pos ⟨rfl, Nat.le_refl _⟩, Nat.add_zero]
  refine Nat.lt_succ_of_le (List.countP_mono_left fun other _ hother => ?_)
  obtain ⟨hsame, hzero⟩ := of_decide_eq_true hother
  exact decide_eq_true ⟨hsame, Nat.le_trans hzero (Nat.zero_le _)⟩

theorem inStep_idle {store : σ} {dir : Directory σ} (h : Directory.new config store = .ok dir) :
    InStep config (Traffic.idle dir) fun
      | .update => 0
      | .verification => 2 := by
  obtain ⟨hvalid, h⟩ := then_eq_ok_iff.1 h
  obtain ⟨p, hp, h⟩ := bind_eq_ok_iff.1 h
  cases h
  obtain ⟨new, hnew, hreflects⟩ := Partition.create_reflects config.aggregatedHistory config.historyDepth
  cases hp.symm.trans hnew
  refine ⟨Config.capacityOf_historyDepth hvalid, Array.size_replicate, fun index q hq => ?_, nofun, nofun⟩
  obtain ⟨hindex, hq⟩ := Array.getElem?_eq_some_iff.1 hq
  obtain rfl : p = q := (Array.getElem_replicate _).symm.trans hq
  refine ⟨_, hreflects, fun transition => ?_⟩
  cases transition <;> rfl

namespace InStep

theorem appended (h : InStep config now clocks) {service : Service σ}
    (happended : Appended now.service.directory service.directory) :
    InStep config { now with service } clocks := by
  rcases happended with hsame | ⟨index, p, q, identifier, value, signature, position, hp, hrun, hset⟩
  · refine ⟨h.capacity, ?_, ?_, h.passed, h.ended⟩
    · rw [hsame]
      exact h.size
    · intro index p hp
      rw [hsame] at hp
      exact h.reflects index p hp
  · refine ⟨h.capacity, ?_, ?_, h.passed, h.ended⟩
    · rw [hset, size_setPartition]
      exact h.size
    · intro i r hr
      rw [hset, getElem?_setPartition hp] at hr
      by_cases hi : index = i
      · rw [if_pos hi] at hr
        cases hr
        obtain ⟨ledger, hreflects, hclocks⟩ := h.reflects index p hp
        obtain ⟨q', hq', hnext⟩ := hreflects.append identifier value signature
        cases hrun.symm.trans hq'
        refine ⟨_, hnext, fun transition => ?_⟩
        rw [← hclocks transition, hi]
        cases transition <;> rfl
      · rw [if_neg hi] at hr
        exact h.reflects i r hr

theorem start (h : InStep config now clocks) (transition : Transition) :
    InStep config { now with underway := now.underway ++ [⟨transition, 0⟩] }
      fun shown => clocks shown + if transition = shown then 1 else 0 := by
  refine ⟨h.capacity, h.size, fun index p hp => ?_, fun sweep hsweep => ?_, h.ended⟩
  · obtain ⟨ledger, hreflects, hclocks⟩ := h.reflects index p hp
    refine ⟨ledger, hreflects, fun shown => ?_⟩
    have hone : behind [⟨transition, 0⟩] shown index = if transition = shown then 1 else 0 := by
      simp [behind, List.countP_cons]
    rw [← hclocks shown, ← hone, Nat.add_assoc]
    exact congrArg _ List.countP_append
  · rcases List.mem_append.1 hsweep with hsweep | hsweep
    · exact h.passed sweep hsweep
    · obtain rfl := List.mem_singleton.1 hsweep
      exact Nat.zero_le _

/-- Behind the first partition there is room. -/
theorem room (h : InStep config now clocks) (hturn : now.underway[turn]? = some sweep) {p : Partition}
    (hp : now.service.directory.partitions[sweep.passed]? = some p) {ledger : Ledger}
    (hclocks : ∀ transition, ledger.clock transition +
      behind now.underway transition sweep.passed = clocks transition)
    (hpos : 0 < sweep.passed) :
    Reflects.Room ledger config.aggregatedHistory config.historyDepth sweep.transition := by
  have hbehind := behind_zero_lt hturn hpos
  have hown := hclocks sweep.transition
  cases ht : sweep.transition with
  | update => exact trivial
  | verification =>
    rw [ht] at hbehind hown
    intro haggregated
    have hlt := (Array.getElem?_eq_some_iff.1 hp).1
    have hfirst := Array.getElem?_eq_getElem (Nat.zero_lt_of_lt hlt)
    obtain ⟨first, hreflects', hclocks'⟩ := h.reflects 0 _ hfirst
    have hroom := hreflects'.room haggregated
    have hother : first.period + _ = _ := hclocks' .verification
    have hown : ledger.period + _ = _ := hown
    omega

theorem proceeds (h : InStep config now clocks) (hturn : now.underway[turn]? = some sweep) :
    Proceeds config now turn sweep (now.proceed turn sweep) := by
  have hle := h.passed sweep (List.mem_of_getElem? hturn)
  unfold Traffic.proceed
  cases hp : now.service.directory.partitions[sweep.passed]? with
  | none =>
    have hge := Array.getElem?_eq_none_iff.1 hp
    rw [h.size] at hge
    exact .ends (Nat.le_antisymm hle hge)
  | some p =>
    have hlt : sweep.passed < config.partitions := h.size ▸ (Array.getElem?_eq_some_iff.1 hp).1
    obtain ⟨ledger, hreflects, hclocks⟩ := h.reflects _ p hp
    by_cases hroom : Reflects.Room ledger config.aggregatedHistory config.historyDepth sweep.transition
    · obtain ⟨q, hstep, hwritten, -⟩ := hreflects.step hroom
      dsimp only
      rw [hwritten]
      obtain ⟨hverification, hupdate⟩ := Partition.clocks_of_step hstep
      exact .passes hlt hp hstep hverification hupdate
    · have hfirst : sweep.passed = 0 := by
        by_contra hne
        exact hroom (h.room hturn hp hclocks (Nat.pos_of_ne_zero hne))
      rw [hfirst] at hp
      have haggregated : config.aggregatedHistory = true := by
        by_contra hnot
        refine hroom ?_
        cases sweep.transition with
        | update => exact trivial
        | verification => exact fun hyes => absurd hyes hnot
      obtain ⟨hverification, -, hrefused, hwritten, forest, hforest, hsize⟩ :=
        hreflects.step_refused hroom
      rw [h.capacity] at hrefused hwritten hsize
      have hsame : now.service.directory.setPartition 0 p = now.service.directory := by
        obtain ⟨hzero, hget⟩ := Array.getElem?_eq_some_iff.1 hp
        rw [setPartition, Array.setIfInBounds, dif_pos hzero, ← hget, Array.set_getElem_self]
      have hnow : now.put 0 p [] = now := by rw [Traffic.put, hsame, List.append_nil]
      dsimp only
      rw [hwritten, hfirst]
      dsimp only
      rw [hnow]
      obtain ⟨transition, passed⟩ := sweep
      cases hfirst
      cases hverification
      exact .refused rfl haggregated hp hforest hsize hrefused

/-- A call that answers leaves the partitions as they are and is waited for at none of them. -/
theorem finish (h : InStep config now clocks) (hturn : now.underway[turn]? = some sweep)
    {answer : Except Error Unit} (hended : EndedWell config (sweep, answer))
    {later : Transition → Nat}
    (hlater : ∀ index < config.partitions, ∀ transition,
      clocks transition = later transition +
        if sweep.transition = transition ∧ sweep.passed ≤ index then 1 else 0) :
    InStep config (now.finish turn sweep answer) later := by
  refine ⟨h.capacity, h.size, fun index p hp => ?_, fun other hother => ?_, fun other hother => ?_⟩
  · obtain ⟨ledger, hreflects, hclocks⟩ := h.reflects index p hp
    have hindex : index < config.partitions := h.size ▸ (Array.getElem?_eq_some_iff.1 hp).1
    refine ⟨ledger, hreflects, fun transition => ?_⟩
    have hclock := hclocks transition
    rw [behind_of_turn hturn, hlater index hindex transition, ← Nat.add_assoc] at hclock
    exact Nat.add_right_cancel hclock
  · exact h.passed other ((List.eraseIdx_sublist _ _).subset hother)
  · rcases List.mem_append.1 hother with hother | hother
    · exact h.ended other hother
    · obtain rfl := List.mem_singleton.1 hother
      exact hended

/-- Passing a partition moves its clock and takes the call off those that it waits for. -/
theorem passes (h : InStep config now clocks) (hturn : now.underway[turn]? = some sweep)
    (hlt : sweep.passed < config.partitions) {p q : Partition}
    (hp : now.service.directory.partitions[sweep.passed]? = some p)
    (hstep : p.step sweep.transition = .ok q) (events : List (Nat × Partition.Event)) :
    InStep config
      { now.put sweep.passed q events with
        underway := now.underway.set turn { sweep with passed := sweep.passed + 1 } } clocks := by
  refine ⟨h.capacity, size_setPartition.trans h.size, fun index r hr => ?_, fun other hother => ?_,
    h.ended⟩
  · have hr' : (now.service.directory.setPartition sweep.passed q).partitions[index]? = some r := hr
    rw [getElem?_setPartition hp] at hr'
    by_cases hindex : sweep.passed = index
    · rw [if_pos hindex] at hr'
      cases hr'
      obtain ⟨ledger, hreflects, hclocks⟩ := h.reflects _ p hp
      by_cases hroom : Reflects.Room ledger config.aggregatedHistory config.historyDepth sweep.transition
      · obtain ⟨next, hnext, -, hpassed⟩ := hreflects.step hroom
        cases hstep.symm.trans hnext
        refine ⟨_, hpassed, fun transition => ?_⟩
        rw [← hclocks transition, Ledger.clock_passed, behind_set hturn, behind_of_turn hturn]
        dsimp only
        rw [← hindex]
        by_cases htransition : sweep.transition = transition
        · rw [if_pos htransition, if_neg (by omega), if_pos ⟨htransition, Nat.le_refl _⟩]
          omega
        · rw [if_neg htransition, if_neg fun h => htransition h.1, if_neg fun h => htransition h.1,
            Nat.add_zero]
      · obtain ⟨-, -, hrefused, -⟩ := hreflects.step_refused hroom
        cases hstep.symm.trans hrefused
    · rw [if_neg hindex] at hr'
      obtain ⟨ledger, hreflects, hclocks⟩ := h.reflects index r hr'
      refine ⟨ledger, hreflects, fun transition => ?_⟩
      rw [← hclocks transition, behind_set hturn, behind_of_turn hturn]
      dsimp only
      have hside : sweep.passed + 1 ≤ index ↔ sweep.passed ≤ index := by omega
      simp only [hside]
  · rcases List.mem_or_eq_of_mem_set hother with hother | rfl
    · exact h.passed other hother
    · exact hlt

/-- Whatever a call does next, the partitions keep step. -/
theorem proceed (h : InStep config now clocks) (hturn : now.underway[turn]? = some sweep) :
    ∃ clocks, InStep config (now.proceed turn sweep) clocks := by
  have hproceeds := h.proceeds hturn
  generalize now.proceed turn sweep = next at hproceeds
  cases hproceeds with
  | ends hall =>
    refine ⟨clocks, h.finish hturn (.inl ⟨rfl, hall⟩) fun index hindex transition => ?_⟩
    rw [if_neg (by omega), Nat.add_zero]
  | passes hlt hp hstep => exact ⟨clocks, h.passes hturn hlt hp hstep _⟩
  | @refused p forest hsweep haggregated hp =>
    -- At every partition the call was still to come.
    subst hsweep
    refine ⟨fun transition => clocks transition - if .verification = transition then 1 else 0,
      h.finish hturn (.inr ⟨rfl, haggregated, rfl⟩) fun index _ transition => ?_⟩
    obtain ⟨ledger, -, hclocks⟩ := h.reflects 0 p hp
    have hclock := hclocks transition
    rw [behind_of_turn hturn] at hclock
    dsimp only at hclock ⊢
    by_cases htransition : Transition.verification = transition
    · rw [if_pos ⟨htransition, Nat.le_refl _⟩] at hclock
      rw [if_pos htransition, if_pos ⟨htransition, Nat.zero_le _⟩]
      omega
    · rw [if_neg htransition, if_neg fun h => htransition h.1]
      rfl

variable [Storage σ] {scheme : SignatureScheme}

/-- Every move keeps the partitions in step. -/
theorem take (h : InStep config now clocks) (move : Move) :
    ∃ clocks, InStep config (now.take scheme move) clocks := by
  cases move with
  | register username masterKey signature =>
    refine ⟨clocks, h.appended ?_⟩
    rw [Service.take, directory_answered]
    exact appended_register username masterKey signature
  | readKey username value sign =>
    refine ⟨clocks, h.appended ?_⟩
    rw [Service.take]
    split <;> exact .refl _
  | publish turn =>
    refine ⟨clocks, h.appended ?_⟩
    rw [Service.take]
    split
    · exact .refl _
    · rw [directory_answered]
      exact appended_publish _ _ _ _
  | start transition => exact ⟨_, h.start transition⟩
  | proceed turn =>
    rw [Traffic.take]
    split
    · exact ⟨clocks, h⟩
    · next sweep hturn => exact h.proceed hturn

theorem run (h : InStep config now clocks) (moves : List Move) :
    ∃ clocks, InStep config (now.run scheme moves) clocks := by
  induction moves generalizing now clocks with
  | nil => exact ⟨clocks, h⟩
  | cons move moves ih =>
    obtain ⟨next, hnext⟩ : ∃ next, InStep config (now.take scheme move) next := h.take move
    exact ih hnext

omit [Storage σ] in
/-- With no call underway all partitions show the same. -/
theorem alike (h : InStep config now clocks) (hidle : now.underway = []) {i j : Nat} {p q : Partition}
    (hp : now.service.directory.partitions[i]? = some p)
    (hq : now.service.directory.partitions[j]? = some q) :
    p.verificationEpoch = q.verificationEpoch ∧ p.updateEpoch = q.updateEpoch ∧
      p.history.map HistoryForest.size = q.history.map HistoryForest.size := by
  obtain ⟨first, hfirst, hclocks⟩ := h.reflects i p hp
  obtain ⟨second, hsecond, hclocks'⟩ := h.reflects j q hq
  rw [hidle] at hclocks hclocks'
  have hperiod : first.period = second.period :=
    (hclocks .verification).trans (hclocks' .verification).symm
  have hupdate : first.updateEpoch = second.updateEpoch :=
    (hclocks .update).trans (hclocks' .update).symm
  refine ⟨?_, ?_, ?_⟩
  · rw [Partition.verificationEpoch, Partition.verificationEpoch, hfirst.epoch, hsecond.epoch, hperiod]
  · rw [hfirst.updateEpoch, hsecond.updateEpoch, hupdate]
  · rw [hfirst.history, hsecond.history]
    split
    · next haggregated =>
      obtain ⟨hholds, -⟩ := Ledger.holds_history (hfirst.room haggregated)
      obtain ⟨hholds', -⟩ := Ledger.holds_history (hsecond.room haggregated)
      simp only [Option.map_some, hholds.size_eq, hholds'.size_eq, List.length_map, List.length_range,
        hperiod]
    · rfl

end InStep

end

/-! ## A call that nothing interrupts -/

section

variable {σ : Type}

/-- The operation that a call for a transition is. -/
def transition (dir : Directory σ) : Transition → Directory σ × Except Error Unit
  | .update => dir.sealUpdates
  | .verification => dir.advance

theorem transition_eq (dir : Directory σ) (due : Transition) :
    dir.transition due =
      stepAll (stepPartition (Partition.step due)) dir (List.range dir.partitions.size) := by
  cases due <;> rfl

variable [Storage σ] {scheme : SignatureScheme} {config : Config} {now : Traffic σ}
  {clocks : Transition → Nat} {sweep : Sweep}

omit [Storage σ] in
theorem stepPartition_eq_error {dir : Directory σ} {step : Partition → Except Error Partition}
    {index : Nat} {p : Partition} {e : Error} (hp : dir.partitions[index]? = some p)
    (hstep : step p = .error e) : stepPartition step dir index = .error e := by
  rw [stepPartition, partitionAt_eq_ok_iff.2 hp]
  show Except.bind (step p) _ = _
  rw [hstep]
  rfl

theorem take_proceed {turn : Nat} (hturn : now.underway[turn]? = some sweep) :
    now.take scheme (.proceed turn) = now.proceed turn sweep := by
  rw [Traffic.take, hturn]

theorem run_proceed_of_idle (hidle : now.underway = []) (turns : Nat) :
    now.run scheme (List.replicate turns (.proceed 0)) = now := by
  induction turns with
  | zero => rfl
  | succ turns ih =>
    have htake : now.take scheme (.proceed 0) = now := by
      rw [Traffic.take, hidle]
      rfl
    rw [List.replicate_succ, Traffic.run, List.foldl_cons, htake]
    exact ih

omit [Storage σ] in
theorem finish_of_alone (halone : now.underway = [sweep]) (answer : Except Error Unit) :
    now.finish 0 sweep answer = ⟨now.service, [], now.ended ++ [(sweep, answer)]⟩ := by
  rw [Traffic.finish, halone]
  rfl

/-- What is left of a call that is underway alone. -/
theorem InStep.rest (h : InStep config now clocks) (halone : now.underway = [sweep]) {left : Nat}
    (hleft : sweep.passed + left = config.partitions) {dir : Directory σ} {answer : Except Error Unit}
    (houtcome : stepAll (stepPartition (Partition.step sweep.transition)) now.service.directory
      (List.range' sweep.passed left) = (dir, answer)) :
    ∃ service passed, now.run scheme (List.replicate (left + 1) (.proceed 0)) =
        ⟨service, [], now.ended ++ [(⟨sweep.transition, passed⟩, answer)]⟩ ∧
      service.directory = dir := by
  induction left generalizing now sweep clocks with
  | zero =>
    have hturn : now.underway[0]? = some sweep := halone ▸ rfl
    have hproceeds := h.proceeds hturn
    rw [List.replicate_one, Traffic.run, List.foldl_cons, List.foldl_nil, take_proceed hturn]
    cases houtcome
    generalize now.proceed 0 sweep = next at hproceeds
    cases hproceeds with
    | ends => exact ⟨now.service, sweep.passed, finish_of_alone halone _, rfl⟩
    | passes hlt => omega
    | refused hsweep _ hp =>
      subst hsweep
      have hlt := (Array.getElem?_eq_some_iff.1 hp).1
      rw [h.size] at hlt
      dsimp only at hleft
      omega
  | succ left ih =>
    have hturn : now.underway[0]? = some sweep := halone ▸ rfl
    have hproceeds := h.proceeds hturn
    rw [List.replicate_succ, Traffic.run, List.foldl_cons, take_proceed hturn, ← Traffic.run]
    rw [List.range'_succ, stepAll] at houtcome
    generalize now.proceed 0 sweep = next at hproceeds
    cases hproceeds with
    | ends hall => omega
    | @passes p q hlt hp hstep =>
      have hstep' : stepPartition (Partition.step sweep.transition) now.service.directory sweep.passed =
          .ok (now.service.directory.setPartition sweep.passed q) :=
        stepPartition_eq_ok_iff.2 ⟨p, q, hp, hstep, rfl⟩
      rw [hstep'] at houtcome
      have hnext : now.underway.set 0 { sweep with passed := sweep.passed + 1 } =
          [{ sweep with passed := sweep.passed + 1 }] := by
        rw [halone]
        rfl
      have hpasses := h.passes hturn hlt hp hstep [(sweep.passed, eventOf sweep.transition)]
      have hrest := ih hpasses hnext (by dsimp only; omega) houtcome
      exact hrest
    | refused hsweep _ hp _ _ hrefused =>
      subst hsweep
      have hstep' := stepPartition_eq_error hp hrefused
      dsimp only [Partition.step] at houtcome
      rw [hstep'] at houtcome
      cases houtcome
      have hfinish := finish_of_alone halone (.error (.historyFull (2 ^ config.historyDepth)))
      rw [hfinish, run_proceed_of_idle rfl]
      exact ⟨now.service, 0, rfl, rfl⟩

/-- A call with nothing in between is the operation: it leaves the directory and gives the answer that the
operation does. -/
theorem InStep.uninterrupted (h : InStep config now clocks) (hidle : now.underway = [])
    (due : Transition) :
    ∃ service passed, now.run scheme (.start due :: List.replicate (config.partitions + 1) (.proceed 0)) =
        ⟨service, [], now.ended ++ [(⟨due, passed⟩, (now.service.directory.transition due).2)]⟩ ∧
      service.directory = (now.service.directory.transition due).1 := by
  have houtcome := transition_eq now.service.directory due
  rw [List.range_eq_range', h.size] at houtcome
  have halone : now.underway ++ [⟨due, 0⟩] = [⟨due, 0⟩] := by rw [hidle, List.nil_append]
  exact (h.start due).rest halone (Nat.zero_add _) houtcome.symm

/-- **A transition is made everywhere or nowhere.**  With every valid configuration, after every run of
requests and of calls that end epochs, interleaved partition by partition in whatever way: a call that
has answered went through all partitions, or was to end a verification period and was refused by a
history, having passed none.  A call underway answers when it has passed all partitions, moves the clock
of the next one, or is refused by the first, with nothing written, because the history there has all the
leaves it can hold.  And when no call is underway, the clocks and the histories of all partitions agree,
and a call with nothing in between leaves and answers what the operation does. -/
theorem transitions_all_or_nothing (scheme : SignatureScheme) (config : Config)
    (hvalid : config.validate = .ok ()) (store : σ) :
    ∃ dir, Directory.new config store = .ok dir ∧ ∀ moves,
      let now := (Traffic.idle dir).run scheme moves
      (∀ ended ∈ now.ended, EndedWell config ended) ∧
      (∀ turn sweep, now.underway[turn]? = some sweep →
        Proceeds config now turn sweep (now.take scheme (.proceed turn))) ∧
      (now.underway = [] → ∀ (i j : Nat) (p q : Partition),
        now.service.directory.partitions[i]? = some p → now.service.directory.partitions[j]? = some q →
          p.verificationEpoch = q.verificationEpoch ∧ p.updateEpoch = q.updateEpoch ∧
            p.history.map HistoryForest.size = q.history.map HistoryForest.size) ∧
      (now.underway = [] → ∀ due, ∃ service passed,
        now.run scheme (.start due :: List.replicate (config.partitions + 1) (.proceed 0)) =
            ⟨service, [], now.ended ++ [(⟨due, passed⟩, (now.service.directory.transition due).2)]⟩ ∧
          service.directory = (now.service.directory.transition due).1) := by
  obtain ⟨dir, hdir⟩ := exists_new config hvalid store
  refine ⟨dir, hdir, ?_⟩
  intro moves now
  obtain ⟨clocks, h⟩ : ∃ clocks, InStep config now clocks := (inStep_idle hdir).run moves
  refine ⟨h.ended, fun turn sweep hturn => ?_, fun hidle i j p q hp hq => h.alike hidle hp hq,
    fun hidle due => h.uninterrupted hidle due⟩
  rw [take_proceed hturn]
  exact h.proceeds hturn

end

namespace Shown

/-- Two partitions whose histories have room for one more period. -/
def twoPartitions : Config := ⟨10, 1, 2, true, 1⟩

/-- Both epochs end at once, the verification period ahead, and then the next period is refused. -/
def interleaved : List Move :=
  [.start .update, .start .verification, .proceed 1, .proceed 0, .proceed 1, .proceed 0, .proceed 0,
    .proceed 0, .start .verification, .proceed 0]

end Shown

open Shown

/-- Two calls that take turns, and one that finds the history full. -/
theorem transitions_all_or_nothing_interleaved :
    twoPartitions.validate = .ok () ∧
      ∃ dir, Directory.new twoPartitions MemoryStore.empty = .ok dir ∧
        let now := (Traffic.idle dir).run scheme interleaved
        now.ended = [(⟨.update, 2⟩, .ok ()), (⟨.verification, 2⟩, .ok ()),
          (⟨.verification, 0⟩, .error (.historyFull 2))] ∧
        now.underway = [] ∧ ∃ p q, now.service.directory.partitions[0]? = some p ∧
          now.service.directory.partitions[1]? = some q ∧ p.verificationEpoch = 3 ∧
          p.verificationEpoch = q.verificationEpoch ∧ p.updateEpoch = q.updateEpoch := by
  obtain ⟨dir, hdir, h⟩ :=
    transitions_all_or_nothing scheme twoPartitions rfl MemoryStore.empty
  obtain ⟨-, -, halike, -⟩ := h interleaved
  have hrun : (Directory.new twoPartitions MemoryStore.empty).toOption.map (fun dir =>
      let now := (Traffic.idle dir).run scheme interleaved
      (now.ended, now.underway, now.service.directory.partitions.map Partition.verificationEpoch)) =
      some ([(⟨.update, 2⟩, .ok ()), (⟨.verification, 2⟩, .ok ()),
        (⟨.verification, 0⟩, .error (.historyFull 2))], [], #[3, 3]) := by
    decide +kernel
  rw [hdir] at hrun
  obtain ⟨hended, hrun⟩ := Prod.mk.inj (Option.some.inj hrun)
  obtain ⟨hidle, hclocks⟩ := Prod.mk.inj hrun
  refine ⟨rfl, dir, hdir, hended, hidle, ?_⟩
  have hclock (i : Nat) (hi : (#[3, 3] : Array Nat)[i]? = some 3) :
      ∃ p, ((Traffic.idle dir).run scheme interleaved).service.directory.partitions[i]? = some p ∧
        p.verificationEpoch = 3 := by
    have hget := congrArg (·[i]?) hclocks
    simp only [Array.getElem?_map] at hget
    exact Option.map_eq_some_iff.1 (hget.trans hi)
  obtain ⟨p, hp, hepoch⟩ := hclock 0 rfl
  obtain ⟨q, hq, -⟩ := hclock 1 rfl
  obtain ⟨hverification, hupdate, -⟩ := halike hidle 0 1 p q hp hq
  exact ⟨p, q, hp, hq, hepoch, hverification, hupdate⟩

end Directory

end KeyTransparency
