import KeyTransparency.Cadence
import Mathlib.Data.List.Destutter
import Mathlib.Data.List.Perm.Subperm
import Mathlib.Order.Bounds.Basic

/-!
# Epochs end on the grid

The deadlines of either kind are whole periods after the start, its grid.  Wakings come when they
come, never back in time, and any number of grid times may pass between two of them.  What carries the
proof is one number for each kind: how many whole periods had passed (`elapsed`) at the last waking.
The next deadline is the grid time after it, and a waking is due exactly if the number has grown, so the
numbers at which transitions are made are those of the wakings with repetitions left out:

    Awaits c … n → Awaits (c.wake now).1 … (elapsed start period now)              (Awaits.wake)
    Awaits c … n → n :: (c.timesOf kind wakings).map elapsed =
      (wakings.map elapsed).destutter' (· < ·) n                                   (Awaits.elapsed_timesOf)

They go up strictly.  So no interval of the grid has two transitions of a kind, and by a time there have
been at most as many as whole periods have passed.

The search for the next deadline is a loop that ends for no other reason than that the period is
positive (`catchesUp_iff`).

A directory that is waited for is woken at its deadlines, which is a run as above:

    dir.runUntil wanted limit c = dir.drive c wakings, for wakings that go up    (exists_drive_runUntil)
-/

namespace KeyTransparency

namespace Cadence

/-! ## Runs -/

/-- The period of a kind of transition. -/
def periodOf (c : Cadence) : Transition → Nat
  | .update => c.updatePeriod
  | .verification => c.verificationPeriod

/-- The deadline of a kind of transition. -/
def nextOf (c : Cadence) : Transition → Nat
  | .update => c.nextUpdate
  | .verification => c.nextVerification

/-- A transition with the time of the waking that made it. -/
structure Passage where
  time : Nat
  transition : Transition
deriving DecidableEq, Repr

/-- The deadlines after wakings at the given times. -/
def after (c : Cadence) (wakings : List Nat) : Cadence :=
  wakings.foldl (fun c now => (c.wake now).1) c

/-- The transitions that wakings at the given times make, in order. -/
def made (c : Cadence) : List Nat → List Passage
  | [] => []
  | now :: later => (c.wake now).2.map (Passage.mk now) ++ made (c.wake now).1 later

/-- The times at which transitions of a kind are made. -/
def timesOf (c : Cadence) (kind : Transition) (wakings : List Nat) : List Nat :=
  ((c.made wakings).filter fun passage => passage.transition = kind).map Passage.time

theorem made_of_both_due {c : Cadence} {now : Nat} (hupdate : c.nextUpdate ≤ now)
    (hverification : c.nextVerification ≤ now) :
    c.made [now] = [⟨now, .update⟩, ⟨now, .verification⟩] := by
  simp [made, wake, hupdate, hverification]

theorem made_append (c : Cadence) (earlier later : List Nat) :
    c.made (earlier ++ later) = c.made earlier ++ (c.after earlier).made later := by
  induction earlier generalizing c with
  | nil => rfl
  | cons now rest ih =>
    rw [List.cons_append, made, ih, made, List.append_assoc, after, after, List.foldl_cons]

theorem periodOf_wake (c : Cadence) (now : Nat) (kind : Transition) :
    (c.wake now).1.periodOf kind = c.periodOf kind := by
  cases kind <;> rfl

theorem nextOf_wake (c : Cadence) (now : Nat) (kind : Transition) :
    (c.wake now).1.nextOf kind =
      if c.nextOf kind ≤ now then advance (c.nextOf kind) (c.periodOf kind) now else c.nextOf kind := by
  cases kind <;> rfl

theorem timesOf_cons (c : Cadence) (kind : Transition) (now : Nat) (later : List Nat) :
    c.timesOf kind (now :: later) =
      (if c.nextOf kind ≤ now then [now] else []) ++ (c.wake now).1.timesOf kind later := by
  have hdue : (((c.wake now).2.map (Passage.mk now)).filter fun passage => passage.transition = kind).map
      Passage.time = if c.nextOf kind ≤ now then [now] else [] := by
    by_cases hupdate : c.nextUpdate ≤ now <;> by_cases hverification : c.nextVerification ≤ now <;>
      cases kind <;> simp [wake, nextOf, hupdate, hverification]
  rw [timesOf, made, List.filter_append, List.map_append, hdue, timesOf]

/-! ## Catching up -/

/-- The search for the next deadline as a loop that nothing bounds: while it is not after `now`, it is
moved on by a period.  A derivation is a run of the loop that ends. -/
inductive CatchesUp (period now : Nat) : Nat → Nat → Prop
  | done {next : Nat} : now < next → CatchesUp period now next next
  | again {next last : Nat} : next ≤ now → CatchesUp period now (next + period) last →
      CatchesUp period now next last

theorem skipPast_of_lt {period now next : Nat} (h : now < next) : skipPast period now next = next := by
  rw [skipPast, dif_neg (by omega)]

theorem skipPast_of_le {period now next : Nat} (hperiod : 0 < period) (h : next ≤ now) :
    skipPast period now next = skipPast period now (next + period) := by
  rw [skipPast, dif_pos ⟨hperiod, h⟩]

/-- The loop ends if the period is positive, or if there is nothing to catch up with. -/
theorem catchesUp_iff {period now next last : Nat} :
    CatchesUp period now next last ↔
      (0 < period ∨ now < next) ∧ skipPast period now next = last := by
  constructor
  · intro h
    induction h with
    | done h => exact ⟨Or.inr h, skipPast_of_lt h⟩
    | again h _ ih =>
      obtain ⟨hends, hlast⟩ := ih
      have hperiod : 0 < period := by omega
      exact ⟨Or.inl hperiod, (skipPast_of_le hperiod h).trans hlast⟩
  · rintro ⟨hends, rfl⟩
    induction next using skipPast.induct period now with
    | case1 next h ih =>
      rw [skipPast_of_le h.1 h.2]
      exact .again h.2 (ih (Or.inl h.1))
    | case2 next h =>
      have hlt : now < next := by omega
      rw [skipPast_of_lt hlt]
      exact .done hlt

theorem lt_skipPast {period : Nat} (hperiod : 0 < period) (now next : Nat) :
    now < skipPast period now next := by
  induction next using skipPast.induct period now with
  | case1 next h ih => rwa [skipPast_of_le h.1 h.2]
  | case2 next h =>
    have hlt : now < next := by omega
    rwa [skipPast_of_lt hlt]

/-! ## The grid -/

/-- Whole periods after the start, the start itself not among them. -/
def grid (start period : Nat) : Set Nat := {time | ∃ k, 1 ≤ k ∧ time = start + k * period}

/-- The number of whole periods that have passed at a time. -/
def elapsed (start period time : Nat) : Nat := (time - start) / period

section

variable {start period : Nat}

theorem elapsed_mono {early late : Nat} (h : early ≤ late) :
    elapsed start period early ≤ elapsed start period late :=
  Nat.div_le_div_right (Nat.sub_le_sub_right h start)

theorem isChain_elapsed {wakings : List Nat} (h : wakings.Pairwise (· ≤ ·)) :
    (0 :: wakings.map (elapsed start period)).IsChain (· ≤ ·) := by
  refine List.Pairwise.isChain (.cons (fun _ _ => Nat.zero_le _) ?_)
  exact h.map _ fun _ _ => elapsed_mono

variable (hperiod : 0 < period)

include hperiod

theorem lt_elapsed_iff {n time : Nat} :
    n < elapsed start period time ↔ start + (n + 1) * period ≤ time := by
  have hpos : 0 < (n + 1) * period := Nat.mul_pos n.succ_pos hperiod
  rw [elapsed, Nat.lt_iff_add_one_le, Nat.le_div_iff_mul_le hperiod]
  omega

/-- A time in an interval of the grid. -/
theorem elapsed_eq_iff {k time : Nat} (hstart : start ≤ time) :
    elapsed start period time = k ↔ start + k * period ≤ time ∧ time < start + (k + 1) * period := by
  have hend : k < elapsed start period time ↔ start + (k + 1) * period ≤ time := lt_elapsed_iff hperiod
  have hbegin : k ≤ elapsed start period time ↔ k * period ≤ time - start :=
    Nat.le_div_iff_mul_le hperiod
  omega

/-- The first grid time after a time. -/
theorem isLeast_grid (now : Nat) :
    IsLeast {time | time ∈ grid start period ∧ now < time}
      (start + (elapsed start period now + 1) * period) := by
  have hafter {k : Nat} : now < start + (k + 1) * period ↔ elapsed start period now ≤ k := by
    rw [← Nat.not_lt, lt_elapsed_iff hperiod, Nat.not_le]
  refine ⟨⟨⟨_, by omega, rfl⟩, hafter.2 (Nat.le_refl _)⟩, ?_⟩
  rintro time ⟨⟨k, hk, rfl⟩, hnow⟩
  obtain ⟨j, rfl⟩ : ∃ j, k = j + 1 := ⟨k - 1, by omega⟩
  have hle : elapsed start period now + 1 ≤ j + 1 := Nat.succ_le_succ (hafter.1 hnow)
  exact Nat.add_le_add_left (Nat.mul_le_mul_right period hle) start

/-- From a grid time that is not past the next one, the loop arrives at the next one. -/
theorem skipPast_grid {now j : Nat} (hj : j ≤ elapsed start period now) :
    skipPast period now (start + (j + 1) * period) =
      start + (elapsed start period now + 1) * period := by
  obtain ⟨missed, hmissed⟩ := Nat.exists_eq_add_of_le hj
  -- by the number of grid times that are still to be skipped
  induction missed generalizing j with
  | zero =>
    have hsame : j = elapsed start period now := hmissed.symm
    rw [hsame, skipPast_of_lt (isLeast_grid hperiod now).1.2]
  | succ missed ih =>
    have hpast : start + (j + 1) * period ≤ now := (lt_elapsed_iff hperiod).1 (by omega)
    have hnext : start + (j + 1) * period + period = start + (j + 1 + 1) * period := by
      rw [Nat.succ_mul (j + 1), Nat.add_assoc]
    rw [skipPast_of_le hperiod hpast, hnext, ih (by omega) (by omega)]

end

/-- In a list that does not go down, what is left without repetitions has the same members. -/
theorem mem_destutter'_iff {n m : Nat} {list : List Nat} (h : (n :: list).IsChain (· ≤ ·)) :
    m ∈ list.destutter' (· < ·) n ↔ m ∈ n :: list := by
  induction list generalizing n with
  | nil => rfl
  | cons next rest ih =>
    rw [List.isChain_cons_cons] at h
    -- where the list does not go up it stays, and what is left out is there already
    by_cases hlt : n < next
    · rw [List.destutter'_cons_pos _ hlt, List.mem_cons, ih h.2, List.mem_cons (a := m) (b := n)]
    · have hsame : next = n := Nat.le_antisymm (Nat.not_lt.1 hlt) h.1
      subst hsame
      rw [List.destutter'_cons_neg _ hlt, ih h.2, List.mem_cons, List.mem_cons, List.mem_cons, or_self_left]

/-! ## What a waking keeps -/

/-- All grid times up to the `n`th have been dealt with, and the next one is awaited. -/
structure Awaits (c : Cadence) (start period : Nat) (kind : Transition) (n : Nat) : Prop where
  periodOf_eq : c.periodOf kind = period
  nextOf_eq : c.nextOf kind = start + (n + 1) * period

namespace Awaits

variable {c : Cadence} {start period n now : Nat} {kind : Transition} {wakings : List Nat}

theorem of_every (period : Transition → Nat) (start : Nat) (kind : Transition) :
    Awaits (every (period .update) (period .verification) start) start (period kind) kind 0 := by
  cases kind <;> exact ⟨rfl, by rw [Nat.zero_add, Nat.one_mul]; rfl⟩

section

variable (h : Awaits c start period kind n) (hperiod : 0 < period)

include h hperiod

theorem due_iff : c.nextOf kind ≤ now ↔ n < elapsed start period now := by
  rw [h.nextOf_eq, lt_elapsed_iff hperiod]

theorem wake (hnow : n ≤ elapsed start period now) :
    Awaits (c.wake now).1 start period kind (elapsed start period now) := by
  refine ⟨(periodOf_wake c now kind).trans h.periodOf_eq, ?_⟩
  rw [nextOf_wake, h.periodOf_eq]
  by_cases hdue : n < elapsed start period now
  · have hnext : c.nextOf kind + period = start + (n + 1 + 1) * period := by
      rw [h.nextOf_eq, Nat.succ_mul (n + 1), Nat.add_assoc]
    rw [if_pos ((h.due_iff hperiod).2 hdue), advance, hnext, skipPast_grid hperiod hdue]
  · rw [if_neg (mt (h.due_iff hperiod).1 hdue), h.nextOf_eq, Nat.le_antisymm hnow (Nat.not_lt.1 hdue)]

end

/-- The deadline after a run. -/
theorem after (h : Awaits c start period kind n) (hperiod : 0 < period)
    (hwakings : (n :: wakings.map (elapsed start period)).IsChain (· ≤ ·)) :
    Awaits (c.after wakings) start period kind
      ((wakings.map (elapsed start period)).getLastD n) := by
  induction wakings generalizing c n with
  | nil => exact h
  | cons now later ih =>
    rw [List.map_cons, List.isChain_cons_cons] at hwakings
    rw [List.map_cons, List.getLastD_cons]
    exact ih (h.wake hperiod hwakings.1) hwakings.2

/-- The numbers at which transitions are made are those of the wakings, each one once. -/
theorem elapsed_timesOf (h : Awaits c start period kind n) (hperiod : 0 < period)
    (hwakings : (n :: wakings.map (elapsed start period)).IsChain (· ≤ ·)) :
    n :: (c.timesOf kind wakings).map (elapsed start period) =
      (wakings.map (elapsed start period)).destutter' (· < ·) n := by
  induction wakings generalizing c n with
  | nil => rfl
  | cons now later ih =>
    rw [List.map_cons, List.isChain_cons_cons] at hwakings
    have hlater := ih (h.wake hperiod hwakings.1) hwakings.2
    rw [timesOf_cons, List.map_cons]
    by_cases hdue : n < elapsed start period now
    · rw [if_pos ((h.due_iff hperiod).2 hdue), List.destutter'_cons_pos _ hdue, ← hlater]
      rfl
    · -- another waking in an interval that has been dealt with
      have hsame : elapsed start period now = n := Nat.le_antisymm (Nat.not_lt.1 hdue) hwakings.1
      rw [if_neg (mt (h.due_iff hperiod).1 hdue), List.destutter'_cons_neg _ hdue, List.nil_append]
      rw [hsame] at hlater
      exact hlater

/-- Transitions of a kind are made at strictly growing numbers. -/
theorem pairwise_elapsed (h : Awaits c start period kind n) (hperiod : 0 < period)
    (hwakings : (n :: wakings.map (elapsed start period)).IsChain (· ≤ ·)) :
    (n :: (c.timesOf kind wakings).map (elapsed start period)).Pairwise (· < ·) := by
  rw [h.elapsed_timesOf hperiod hwakings]
  exact (List.isChain_destutter' _ _ _).pairwise

theorem mem_elapsed_iff (h : Awaits c start period kind n) (hperiod : 0 < period)
    (hwakings : (n :: wakings.map (elapsed start period)).IsChain (· ≤ ·)) {k : Nat} :
    k ∈ (c.timesOf kind wakings).map (elapsed start period) ↔
      n < k ∧ k ∈ wakings.map (elapsed start period) := by
  have hmem := mem_destutter'_iff hwakings (m := k)
  have hlt := List.pairwise_cons.1 (h.pairwise_elapsed hperiod hwakings)
  rw [← h.elapsed_timesOf hperiod hwakings, List.mem_cons, List.mem_cons] at hmem
  constructor
  · intro hk
    have hnk := hlt.1 k hk
    exact ⟨hnk, (hmem.1 (Or.inr hk)).resolve_left (by omega)⟩
  · rintro ⟨hnk, hk⟩
    exact (hmem.2 (Or.inr hk)).resolve_left (by omega)

end Awaits

/-! ## Counting transitions -/

/-- The number of times in an interval of the grid. -/
def countIn (times : List Nat) (start period k : Nat) : Nat :=
  times.countP fun time => start + k * period ≤ time ∧ time < start + (k + 1) * period

section

variable {c : Cadence} {start period : Nat} {kind : Transition} {wakings : List Nat}
  (h : Awaits c start period kind 0) (hperiod : 0 < period)
  (hwakings : (0 :: wakings.map (elapsed start period)).IsChain (· ≤ ·))

include h hperiod hwakings

theorem start_le_of_mem_timesOf {time : Nat} (htime : time ∈ c.timesOf kind wakings) :
    start ≤ time := by
  have hpos := List.pairwise_cons.1 (h.pairwise_elapsed hperiod hwakings) |>.1 _
    (List.mem_map_of_mem htime)
  have := (lt_elapsed_iff hperiod).1 hpos
  omega

theorem countIn_eq_count (k : Nat) :
    countIn (c.timesOf kind wakings) start period k =
      ((c.timesOf kind wakings).map (elapsed start period)).count k := by
  rw [countIn, List.count, List.countP_map]
  refine List.countP_congr fun time htime => ?_
  -- nothing is made before the start, where no interval is numbered
  have hstart := start_le_of_mem_timesOf h hperiod hwakings htime
  simp only [decide_eq_true_eq, Function.comp_apply, beq_iff_eq, elapsed_eq_iff hperiod hstart]

theorem countIn_le_one (k : Nat) : countIn (c.timesOf kind wakings) start period k ≤ 1 := by
  have hgrows := List.pairwise_cons.1 (h.pairwise_elapsed hperiod hwakings)
  rw [countIn_eq_count h hperiod hwakings]
  exact List.nodup_iff_count_le_one.1 (hgrows.2.imp Nat.ne_of_lt) k

theorem countIn_pos_iff (k : Nat) :
    0 < countIn (c.timesOf kind wakings) start period k ↔
      1 ≤ k ∧ 0 < countIn wakings start period k := by
  rw [countIn_eq_count h hperiod hwakings, List.count_pos_iff, h.mem_elapsed_iff hperiod hwakings]
  refine and_congr_right fun hk => ?_
  rw [List.mem_map, countIn, List.countP_pos_iff]
  refine exists_congr fun time => and_congr_right fun _ => ?_
  rw [decide_eq_true_eq]
  constructor
  · rintro rfl
    have hstart : start ≤ time := by
      have := (lt_elapsed_iff hperiod).1 hk
      omega
    exact (elapsed_eq_iff hperiod hstart).1 rfl
  · intro hin
    exact (elapsed_eq_iff hperiod (by omega)).2 hin

theorem countP_le_elapsed (time : Nat) :
    (c.timesOf kind wakings).countP (· ≤ time) ≤ elapsed start period time := by
  have hgrows := List.pairwise_cons.1 (h.pairwise_elapsed hperiod hwakings)
  -- the numbers of what is made by then: all different, none of them 0 or past that of the time
  let numbers := ((c.timesOf kind wakings).filter (· ≤ time)).map (elapsed start period)
  have hnodup : numbers.Nodup :=
    (hgrows.2.imp Nat.ne_of_lt).sublist (List.filter_sublist.map _)
  have hsub : numbers ⊆ List.range' 1 (elapsed start period time) := by
    intro number hnumber
    obtain ⟨made, hmade, rfl⟩ := List.mem_map.1 hnumber
    obtain ⟨hmade, hle⟩ := List.mem_filter.1 hmade
    have hpos := hgrows.1 _ (List.mem_map_of_mem hmade)
    have hmono : elapsed start period made ≤ elapsed start period time :=
      elapsed_mono (of_decide_eq_true hle)
    rw [List.mem_range'_1]
    omega
  calc (c.timesOf kind wakings).countP (· ≤ time) = numbers.length := by
        rw [List.countP_eq_length_filter, List.length_map]
    _ ≤ (List.range' 1 (elapsed start period time)).length :=
        (List.subperm_of_subset hnodup hsub).length_le
    _ = elapsed start period time := List.length_range'

end

/-! ## Wakings at the deadlines -/

theorem lt_nextWake_wake {c : Cadence} (hperiod : ∀ kind, 0 < c.periodOf kind) (now : Nat) :
    now < (c.wake now).1.nextWake := by
  have hnext (kind : Transition) : now < (c.wake now).1.nextOf kind := by
    rw [nextOf_wake]
    split
    · exact lt_skipPast (hperiod kind) now _
    · omega
  exact Nat.lt_min.2 ⟨hnext .update, hnext .verification⟩

end Cadence

namespace Directory

variable {σ : Type}

/-- Wakes at the given times and makes each time what is due. -/
def drive (dir : Directory σ) (cadence : Cadence) : List Nat → Directory σ
  | [] => dir
  | now :: later =>
    let (cadence, due) := cadence.wake now
    drive (due.foldl applyTransition dir) cadence later

theorem drive_eq (dir : Directory σ) (cadence : Cadence) (wakings : List Nat) :
    dir.drive cadence wakings =
      (cadence.made wakings).foldl (fun dir passage => dir.applyTransition passage.transition) dir := by
  induction wakings generalizing dir cadence with
  | nil => rfl
  | cons now later ih =>
    show drive ((cadence.wake now).2.foldl applyTransition dir) (cadence.wake now).1 later = _
    rw [ih, Cadence.made, List.foldl_append, List.foldl_map]

/-- A directory that is waited for is woken at some times, one after the other.  That none comes before the
first deadline is what the induction needs. -/
theorem exists_drive_runUntil (wanted : Directory σ → Bool) (limit : Nat) {cadence : Cadence}
    (hperiod : ∀ kind, 0 < cadence.periodOf kind) (dir : Directory σ) :
    ∃ wakings : List Nat, wakings.length ≤ limit ∧ wakings.Pairwise (· < ·) ∧
      (∀ waking ∈ wakings, cadence.nextWake ≤ waking) ∧
      dir.runUntil wanted limit cadence = dir.drive cadence wakings := by
  induction limit generalizing cadence dir with
  | zero => exact ⟨[], Nat.le_refl _, .nil, by simp, rfl⟩
  | succ limit ih =>
    rw [runUntil]
    split
    · exact ⟨[], Nat.zero_le _, .nil, by simp, rfl⟩
    · let now := cadence.nextWake
      have hlater := Cadence.lt_nextWake_wake hperiod now
      have hperiods : ∀ kind, 0 < (cadence.wake now).1.periodOf kind := by
        intro kind
        rw [Cadence.periodOf_wake]
        exact hperiod kind
      obtain ⟨wakings, hlength, hgrows, hfrom, hrun⟩ :=
        ih hperiods ((cadence.wake now).2.foldl applyTransition dir)
      have hafter : ∀ waking ∈ wakings, now < waking := by
        intro waking hwaking
        exact Nat.lt_of_lt_of_le hlater (hfrom waking hwaking)
      refine ⟨now :: wakings, Nat.succ_le_succ hlength, .cons hafter hgrows, ?_, hrun⟩
      intro waking hwaking
      rcases List.mem_cons.1 hwaking with rfl | hwaking
      · exact Nat.le_refl _
      · exact Nat.le_of_lt (hafter waking hwaking)

end Directory

namespace Cadence

/-- **Epochs end on the grid.**  For positive periods and wakings that never go back in time, after each
waking the deadline of either kind is the first time of its grid after that waking; the loop that looks
for it always ends.  An interval of the grid has at most one transition of its kind, and has one exactly
if it is not the first and something woke in it, so by any time there have been at most as many as whole
periods since the start.  Where both kinds are due, the update comes first.  And to wait for a directory is
to wake it at times that go up. -/
theorem epochs_end_on_grid {σ : Type} (period : Transition → Nat) (hperiod : ∀ kind, 0 < period kind)
    (start : Nat) (earlier : List Nat) (now : Nat)
    (hwakings : (earlier ++ [now]).Pairwise (· ≤ ·)) (dir : Directory σ) :
    let cadence := every (period .update) (period .verification) start
    let wakings := earlier ++ [now]
    (∀ kind, IsLeast {time | time ∈ grid start (period kind) ∧ now < time}
        ((cadence.after wakings).nextOf kind)) ∧
      (∀ kind deadline time, CatchesUp (period kind) time (deadline + period kind)
        (advance deadline (period kind) time)) ∧
      (∀ kind k, countIn (cadence.timesOf kind wakings) start (period kind) k ≤ 1 ∧
        (0 < countIn (cadence.timesOf kind wakings) start (period kind) k ↔
          1 ≤ k ∧ 0 < countIn wakings start (period kind) k)) ∧
      (∀ kind time,
        (cadence.timesOf kind wakings).countP (· ≤ time) ≤ (time - start) / period kind) ∧
      ((∀ kind, (cadence.after earlier).nextOf kind ≤ now) →
        cadence.made wakings = cadence.made earlier ++ [⟨now, .update⟩, ⟨now, .verification⟩] ∧
          dir.drive cadence wakings = (dir.drive cadence earlier).sealUpdates.1.advance.1) ∧
      ∀ wanted limit, ∃ deadlines : List Nat, deadlines.length ≤ limit ∧ deadlines.Pairwise (· < ·) ∧
        dir.runUntil wanted limit cadence = dir.drive cadence deadlines := by
  intro cadence wakings
  have hstart (kind : Transition) : Awaits cadence start (period kind) kind 0 :=
    .of_every period start kind
  have hchain (kind : Transition) : (0 :: wakings.map (elapsed start (period kind))).IsChain (· ≤ ·) :=
    isChain_elapsed hwakings
  refine ⟨?_, ?_, ?_, ?_, ?_, ?_⟩
  · intro kind
    have hlast := ((hstart kind).after (hperiod kind) (hchain kind)).nextOf_eq
    rw [List.map_append, List.map_singleton, List.getLastD_concat] at hlast
    rw [hlast]
    exact isLeast_grid (hperiod kind) now
  · intro kind deadline time
    exact catchesUp_iff.2 ⟨Or.inl (hperiod kind), rfl⟩
  · intro kind k
    exact ⟨countIn_le_one (hstart kind) (hperiod kind) (hchain kind) k,
      countIn_pos_iff (hstart kind) (hperiod kind) (hchain kind) k⟩
  · intro kind
    exact countP_le_elapsed (hstart kind) (hperiod kind) (hchain kind)
  · intro hdue
    have hmade : cadence.made wakings =
        cadence.made earlier ++ [⟨now, .update⟩, ⟨now, .verification⟩] := by
      rw [made_append, made_of_both_due (hdue .update) (hdue .verification)]
    refine ⟨hmade, ?_⟩
    rw [Directory.drive_eq, hmade, List.foldl_append, ← Directory.drive_eq]
    rfl
  · intro wanted limit
    have hperiods : ∀ kind, 0 < cadence.periodOf kind := by
      intro kind
      rw [(hstart kind).periodOf_eq]
      exact hperiod kind
    obtain ⟨deadlines, hlength, hgrows, -, hrun⟩ :=
      Directory.exists_drive_runUntil wanted limit hperiods dir
    exact ⟨deadlines, hlength, hgrows, hrun⟩

/-- Late wakings: of the updates due at 35, 45, 55 and 65 one is made, at 66, and at 85 both kinds are
due again, exactly at their times. -/
theorem epochs_end_on_grid_late_wakings :
    let period : Transition → Nat := fun kind => if kind = .update then 10 else 20
    let cadence := every 10 20 5
    let wakings := [12, 15, 25, 66] ++ [85]
    let dir : Directory Unit := ⟨#[], ()⟩
    (∀ kind, 0 < period kind) ∧ wakings.Pairwise (· ≤ ·) ∧
      (∀ kind, (cadence.after [12, 15, 25, 66]).nextOf kind ≤ 85) ∧
      (cadence.after wakings).nextUpdate = 95 ∧ (cadence.after wakings).nextVerification = 105 ∧
      CatchesUp 10 66 45 (advance 35 10 66) ∧
      countIn (cadence.timesOf .update wakings) 5 10 4 = 0 ∧
      countIn (cadence.timesOf .update wakings) 5 10 6 = 1 ∧
      (cadence.timesOf .verification wakings).countP (· ≤ 85) ≤ 4 ∧
      cadence.made wakings =
        cadence.made [12, 15, 25, 66] ++ [⟨85, .update⟩, ⟨85, .verification⟩] ∧
      dir.drive cadence wakings = (dir.drive cadence [12, 15, 25, 66]).sealUpdates.1.advance.1 := by
  intro period cadence wakings dir
  have hperiod : ∀ kind, 0 < period kind := by
    intro kind
    cases kind <;> decide
  have hwakings : wakings.Pairwise (· ≤ ·) := by decide
  obtain ⟨hearlier, -⟩ := epochs_end_on_grid period hperiod 5 [12, 15, 25] 66 (by decide) dir
  obtain ⟨hnext, hends, hcount, hmost, hboth, -⟩ :=
    epochs_end_on_grid period hperiod 5 [12, 15, 25, 66] 85 hwakings dir
  have hdue : ∀ kind, (cadence.after [12, 15, 25, 66]).nextOf kind ≤ 85 := by
    intro kind
    cases kind with
    | update => exact (hearlier .update).2 ⟨⟨8, by decide, rfl⟩, by decide⟩
    | verification => exact (hearlier .verification).2 ⟨⟨4, by decide, rfl⟩, by decide⟩
  obtain ⟨hmade, hdrive⟩ := hboth hdue
  refine ⟨hperiod, hwakings, hdue, (hnext .update).unique (isLeast_grid (show 0 < 10 by decide) 85),
    (hnext .verification).unique (isLeast_grid (show 0 < 20 by decide) 85), hends .update 35 66,
    ?_, ?_, Nat.le_trans (hmost .verification 85) (show (85 - 5) / 20 ≤ 4 by decide), hmade, hdrive⟩
  · exact Nat.eq_zero_of_not_pos fun hpos => absurd ((hcount .update 4).2.1 hpos).2 (by decide)
  · exact Nat.le_antisymm (hcount .update 6).1 ((hcount .update 6).2.2 ⟨by decide, by decide⟩)

end Cadence

end KeyTransparency
