import KeyTransparency.Simulation

/-!
# How the steps of a simulation end

A step of a simulation either goes through, with a result and the state after it (`Succeeds`), or is the
one that ends the simulation (`Fails`).  The rules follow the way in which steps are put together: one
after the other, in a loop over the first numbers, and one for each number with their results in a list.
A loop goes through with an invariant that is indexed by the number of rounds done, and fails in the round
in which its body does.
-/

namespace KeyTransparency.Simulation

variable {σ α β : Type} {s t : Simulation σ} {e : Error}

/-- The step goes through, and `post` holds of what it answers and leaves behind. -/
def Succeeds (step : Step σ α) (s : Simulation σ) (post : α → Simulation σ → Prop) : Prop :=
  ∃ a t, step.run.run s = (.ok a, t) ∧ post a t

/-- The step fails with this error. -/
def Fails (step : Step σ α) (s : Simulation σ) (e : Error) : Prop :=
  ∃ t, step.run.run s = (.error e, t)

theorem run_bind_ok {step : Step σ α} {more : α → Step σ β} {a : α}
    (h : step.run.run s = (.ok a, t)) : (step >>= more).run.run s = (more a).run.run t := by
  show (step.run >>= ExceptT.bindCont more).run s = _
  rw [StateT.run_bind, h]
  rfl

theorem run_bind_error {step : Step σ α} {more : α → Step σ β}
    (h : step.run.run s = (.error e, t)) : (step >>= more).run.run s = (.error e, t) := by
  show (step.run >>= ExceptT.bindCont more).run s = _
  rw [StateT.run_bind, h]
  rfl

/-! ## Steps that go through -/

namespace Succeeds

theorem pure {a : α} {post : α → Simulation σ → Prop} (h : post a s) :
    Succeeds (Pure.pure a : Step σ α) s post := ⟨a, s, rfl, h⟩

theorem mono {step : Step σ α} {post post' : α → Simulation σ → Prop} (h : Succeeds step s post)
    (hpost : ∀ a t, post a t → post' a t) : Succeeds step s post' := by
  obtain ⟨a, t, hrun, ha⟩ := h
  exact ⟨a, t, hrun, hpost a t ha⟩

theorem bind {step : Step σ α} {more : α → Step σ β} {post : β → Simulation σ → Prop}
    (h : Succeeds step s fun a t => Succeeds (more a) t post) : Succeeds (step >>= more) s post := by
  obtain ⟨a, t, hrun, b, u, hmore, hpost⟩ := h
  exact ⟨b, u, (run_bind_ok hrun).trans hmore, hpost⟩

/-- One step, whatever it answers, and then another. -/
theorem andThen {step : Step σ α} {more : α → Step σ β} {mid : Simulation σ → Prop}
    {post : β → Simulation σ → Prop} (h : Succeeds step s fun _ => mid)
    (hmore : ∀ a t, mid t → Succeeds (more a) t post) : Succeeds (step >>= more) s post :=
  bind (h.mono hmore)

/-- A loop that keeps an invariant goes through. -/
theorem forRange {count : Nat} {body : Nat → PUnit → Step σ (ForInStep PUnit)}
    (invariant : Nat → Simulation σ → Prop) (hstart : invariant 0 s)
    (hbody : ∀ i < count, ∀ t, invariant i t →
      Succeeds (body i ⟨⟩) t fun next u => next = .yield ⟨⟩ ∧ invariant (i + 1) u) :
    Succeeds (forIn (List.range count) PUnit.unit body) s fun _ => invariant count := by
  have hrest : ∀ (left done : Nat), done + left = count → ∀ t, invariant done t →
      Succeeds (forIn (List.range' done left) PUnit.unit body) t fun _ => invariant count := by
    intro left
    induction left with
    | zero =>
      rintro done rfl t h
      exact pure h
    | succ left ih =>
      intro done hcount t h
      rw [List.range'_succ, List.forIn_cons]
      refine bind ((hbody done (by omega) t h).mono ?_)
      rintro next u ⟨rfl, hnext⟩
      exact ih (done + 1) (by omega) u hnext
  rw [List.range_eq_range']
  exact hrest count 0 (Nat.zero_add _) s hstart

/-- Steps that change nothing, one for each entry of a list. -/
theorem mapM {step : β → Step σ α} {post : α → Prop} {l : List β}
    (h : ∀ b ∈ l, Succeeds (step b) s fun a t => t = s ∧ post a) :
    Succeeds (l.mapM step) s fun answers t =>
      t = s ∧ answers.length = l.length ∧ ∀ a ∈ answers, post a := by
  induction l with
  | nil => exact pure ⟨rfl, rfl, nofun⟩
  | cons b rest ih =>
    rw [List.mapM_cons]
    obtain ⟨hb, hrest⟩ := List.forall_mem_cons.1 h
    refine bind (hb.mono ?_)
    rintro a t ⟨rfl, ha⟩
    refine bind ((ih hrest).mono ?_)
    rintro answers t ⟨rfl, hlength, hanswers⟩
    exact pure ⟨rfl, congrArg (· + 1) hlength, List.forall_mem_cons.2 ⟨ha, hanswers⟩⟩

end Succeeds

/-! ## Steps that fail -/

namespace Fails

theorem bind {step : Step σ α} (h : Fails step s e) (more : α → Step σ β) :
    Fails (step >>= more) s e := by
  obtain ⟨t, hrun⟩ := h
  exact ⟨t, run_bind_error hrun⟩

theorem later {step : Step σ α} {more : α → Step σ β}
    (h : Succeeds step s fun a t => Fails (more a) t e) : Fails (step >>= more) s e := by
  obtain ⟨a, t, hrun, u, hmore⟩ := h
  exact ⟨u, (run_bind_ok hrun).trans hmore⟩

/-- A loop that keeps an invariant until its body fails. -/
theorem forRange {count last : Nat} (hlast : last < count)
    {body : Nat → PUnit → Step σ (ForInStep PUnit)} (invariant : Nat → Simulation σ → Prop)
    (hstart : invariant 0 s)
    (hbody : ∀ i < last, ∀ t, invariant i t →
      Succeeds (body i ⟨⟩) t fun next u => next = .yield ⟨⟩ ∧ invariant (i + 1) u)
    (hfails : ∀ t, invariant last t → Fails (body last ⟨⟩) t e) :
    Fails (forIn (List.range count) PUnit.unit body) s e := by
  have hrest : ∀ (before done left : Nat), done + before = last → before < left → ∀ t,
      invariant done t → Fails (forIn (List.range' done left) PUnit.unit body) t e := by
    intro before
    induction before with
    | zero =>
      rintro done left rfl hleft t h
      obtain ⟨left, rfl⟩ := Nat.exists_eq_add_one.2 hleft
      rw [List.range'_succ, List.forIn_cons]
      exact (hfails t h).bind _
    | succ before ih =>
      intro done left hdone hleft t h
      obtain ⟨left, rfl⟩ := Nat.exists_eq_add_one.2 (Nat.zero_lt_of_lt hleft)
      rw [List.range'_succ, List.forIn_cons]
      refine later ((hbody done (by omega) t h).mono ?_)
      rintro next u ⟨rfl, hnext⟩
      exact ih (done + 1) left (by omega) (by omega) u hnext
  rw [List.range_eq_range']
  exact hrest last 0 count (Nat.zero_add _) hlast s hstart

end Fails

/-! ## Requests and questions -/

/-- A request that the directory grants. -/
theorem Succeeds.request {request : Directory σ → Directory σ × Except Error α} {directory : Directory σ}
    {a : α} {post : α → Simulation σ → Prop} (h : request s.directory = (directory, .ok a))
    (hpost : post a { s with directory }) : Succeeds (Simulation.request request) s post := by
  refine ⟨a, { s with directory }, ?_, hpost⟩
  show ((request s.directory).2, { s with directory := (request s.directory).1 }) = _
  rw [h]

theorem Fails.request {request : Directory σ → Directory σ × Except Error α} {directory : Directory σ}
    (h : request s.directory = (directory, .error e)) : Fails (Simulation.request request) s e := by
  refine ⟨{ s with directory }, ?_⟩
  show ((request s.directory).2, { s with directory := (request s.directory).1 }) = _
  rw [h]

theorem Succeeds.ask {question : Directory σ → Except Error α} {a : α}
    {post : α → Simulation σ → Prop} (h : question s.directory = .ok a) (hpost : post a s) :
    Succeeds (Simulation.ask question) s post := by
  refine ⟨a, s, ?_, hpost⟩
  show (question s.directory, s) = _
  rw [h]

end KeyTransparency.Simulation
