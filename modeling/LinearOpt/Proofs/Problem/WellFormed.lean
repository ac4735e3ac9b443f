import LinearOpt.Problem.Matrix
import LinearOpt.Proofs.Problem.Index

/-!
# Well-formed problems

What holds of every problem that edits can build: as many bounds as costs, coefficients only where
there is a constraint and a variable, no constraint without a bound, and an index that is that of the
coefficients.  Such a problem passes its own check (`WellFormed.checkDimensions_eq`).

An edit that fails is an edit too, so `Preserves` speaks of the state after an edit either way.
`preserves_addConstraint`, `preserves_setCoefficient` and the like are one lemma for each edit.  None
of them depends on the number type.
-/

namespace LinearOpt

variable {F σ α β : Type}

/-! ## What edits keep -/

/-- The state after an edit, also after one that failed. -/
def stateAfter (e : Edit σ α) (s : σ) : σ :=
  match e s with
  | .ok _ next => next
  | .error _ next => next

def Preserves (P : σ → Prop) (e : Edit σ α) : Prop := ∀ s, P s → P (stateAfter e s)

/-- An edit that leaves the state as it was when it fails. -/
def atomically (f : σ → Except Failure σ) : Edit σ Unit := fun s =>
  match f s with
  | .ok next => .ok () next
  | .error e => .error e s

/-- A block that succeeds does so through its first part. -/
theorem edit_bind_eq_ok {x : Edit σ α} {f : α → Edit σ β} {s next : σ} {b : β}
    (h : (x >>= f) s = .ok b next) : ∃ a mid, x s = .ok a mid ∧ f a mid = .ok b next := by
  change EStateM.bind x f s = _ at h
  unfold EStateM.bind at h
  cases hx : x s with
  | ok a mid =>
    rw [hx] at h
    exact ⟨a, mid, rfl, h⟩
  | error e mid =>
    rw [hx] at h
    cases h

theorem edit_bind_of_ok {x : Edit σ α} {s mid : σ} {a : α} (h : x s = .ok a mid)
    (f : α → Edit σ β) : (x >>= f) s = f a mid := by
  change EStateM.bind x f s = _
  rw [EStateM.bind, h]

theorem atomically_error {f : σ → Except Failure σ} {s next : σ} {e : Failure}
    (h : atomically f s = .error e next) : next = s := by
  unfold atomically at h
  cases hrun : f s with
  | ok t =>
    rw [hrun] at h
    cases h
  | error e =>
    rw [hrun] at h
    cases h
    rfl

namespace Preserves

variable {P : σ → Prop}

theorem pure (a : α) : Preserves P (Pure.pure a : Edit σ α) := fun _ hs => hs

theorem throw (e : Failure) : Preserves P (MonadExcept.throw e : Edit σ α) := fun _ hs => hs

theorem modifyGet {f : σ → α × σ} (h : ∀ s, P s → P (f s).2) :
    Preserves P (MonadStateOf.modifyGet f : Edit σ α) := fun s hs => h s hs

theorem atomically {f : σ → Except Failure σ} (h : ∀ s next, P s → f s = .ok next → P next) :
    Preserves P (atomically f) := by
  intro s hs
  unfold stateAfter LinearOpt.atomically
  cases hrun : f s with
  | ok next => exact h s next hs hrun
  | error e => exact hs

theorem bind {x : Edit σ α} {f : α → Edit σ β} (hx : Preserves P x)
    (hf : ∀ a, Preserves P (f a)) : Preserves P (x >>= f) := by
  intro s hs
  have hnext := hx s hs
  unfold stateAfter at hnext ⊢
  change P (match EStateM.bind x f s with | .ok _ next => next | .error _ next => next)
  unfold EStateM.bind
  cases hrun : x s with
  | ok a next =>
    rw [hrun] at hnext
    exact hf a next hnext
  | error e next =>
    rw [hrun] at hnext
    exact hnext

theorem mapM {f : β → Edit σ α} {xs : List β} (h : ∀ x ∈ xs, Preserves P (f x)) :
    Preserves P (xs.mapM f) := by
  induction xs with
  | nil => exact pure []
  | cons x xs ih =>
    rw [List.mapM_cons]
    refine (h x List.mem_cons_self).bind fun a => ?_
    exact (ih fun y hy => h y (List.mem_cons_of_mem x hy)).bind fun _ => pure _

end Preserves

theorem Bounds.ne_free_iff {b : Bounds F} : b ≠ .free ↔ b.lower.isSome ∨ b.upper.isSome := by
  obtain ⟨lower, upper⟩ := b
  cases lower <;> cases upper <;> simp [free]

namespace Problem

/-! ## Well-formedness -/

structure WellFormed (p : Problem F) : Prop where
  bounds_length : p.variableBounds.length = p.cost.length
  key_lt : ∀ key ∈ p.keys, key.1 < p.constraintCount ∧ key.2 < p.variableCount
  bounded : ∀ b ∈ p.constraintBounds, b ≠ .free
  indexed : p.Indexed

/-- Changes that touch neither keys nor counts. -/
theorem WellFormed.of_keys_eq {p q : Problem F} (hp : p.WellFormed)
    (hindex : q.index = p.index) (hkeys : q.keys = p.keys)
    (hcost : q.cost.length = p.cost.length)
    (hvariables : q.variableBounds.length = p.variableBounds.length)
    (hconstraints : q.constraintBounds.length = p.constraintBounds.length)
    (hbounded : ∀ b ∈ q.constraintBounds, b ≠ .free) : q.WellFormed where
  bounds_length := by rw [hvariables, hp.bounds_length, hcost]
  key_lt key hkey := by
    rw [hkeys] at hkey
    unfold variableCount constraintCount
    rw [hcost, hconstraints]
    exact hp.key_lt key hkey
  bounded := hbounded
  indexed := by
    unfold Indexed
    rw [hindex, hkeys]
    exact hp.indexed

theorem WellFormed.setConstraint {p : Problem F} (hp : p.WellFormed) (i : ℕ) {b : Bounds F}
    (hb : b ≠ .free) : WellFormed { p with constraintBounds := p.constraintBounds.set i b } := by
  refine hp.of_keys_eq rfl rfl rfl rfl List.length_set fun c hc => ?_
  rcases List.mem_or_eq_of_mem_set hc with hold | rfl
  · exact hp.bounded c hold
  · exact hb

theorem WellFormed.appendConstraint {p : Problem F} (hp : p.WellFormed) {b : Bounds F}
    (hb : b ≠ .free) : WellFormed { p with constraintBounds := p.constraintBounds ++ [b] } := by
  refine ⟨hp.bounds_length, fun key hkey => ?_, fun c hc => ?_, hp.indexed⟩
  · obtain ⟨hrow, hcolumn⟩ := hp.key_lt key hkey
    unfold constraintCount at hrow ⊢
    rw [List.length_append]
    exact ⟨by omega, hcolumn⟩
  · rcases List.mem_append.mp hc with hold | hnew
    · exact hp.bounded c hold
    · rw [List.mem_singleton] at hnew
      rw [hnew]
      exact hb

/-- Without constraints and coefficients, there only have to be as many bounds as costs. -/
theorem wellFormed_of_unconstrained (objective : Objective) (nonNegative : Bool) {cost : List F}
    {bounds : List (Bounds F)} (hlength : bounds.length = cost.length) :
    WellFormed { empty objective with
      nonNegativeDefault := nonNegative, cost, variableBounds := bounds } where
  bounds_length := hlength
  key_lt _ h := by cases h
  bounded _ h := by cases h
  indexed := Indexes.empty

theorem wellFormed_empty (objective : Objective) : WellFormed (empty objective : Problem F) :=
  wellFormed_of_unconstrained objective true rfl

theorem wellFormed_cleared (p : Problem F) : p.cleared.WellFormed :=
  wellFormed_of_unconstrained p.objective p.nonNegativeDefault rfl

theorem checkVariable_eq {p : Problem F} {j : ℕ} (hj : j < p.variableCount) :
    p.checkVariable j = .ok () := if_pos hj

theorem checkConstraint_eq {p : Problem F} {i : ℕ} (hi : i < p.constraintCount) :
    p.checkConstraint i = .ok () := if_pos hi

theorem WellFormed.checkDimensions_eq {p : Problem F} (hp : p.WellFormed) :
    p.checkDimensions = .ok () := by
  have hsize : p.index.size = p.entries.length := by
    rw [hp.indexed.size_eq, keys, List.length_map]
  unfold checkDimensions
  rw [if_neg (not_not_intro hp.bounds_length.symm), if_neg (not_not_intro hsize)]
  refine forM_eq_ok fun e he => ?_
  obtain ⟨hrow, hcolumn⟩ := hp.key_lt e.key (List.mem_map_of_mem he)
  have hconstraint : p.checkConstraint e.row = .ok () := checkConstraint_eq hrow
  rw [hconstraint, ok_bind]
  exact checkVariable_eq hcolumn

/-! ## Rows and columns -/

section Lines

variable {p : Problem F}

/-- Coefficients that are in a line are known by the other position. -/
theorem nodup_line {es : List (Entry F)} (hnodup : (es.map Entry.key).Nodup)
    {inLine : Entry F → Bool} {position : Entry F → ℕ} (key : ℕ → ℕ × ℕ)
    (hkey : ∀ e, inLine e = true → e.key = key (position e)) :
    ((es.filter inLine).map position).Nodup := by
  have hkeys : ((es.filter inLine).map Entry.key).Nodup :=
    hnodup.sublist (List.filter_sublist.map _)
  have hpositions : (es.filter inLine).map Entry.key =
      ((es.filter inLine).map position).map key := by
    rw [List.map_map]
    exact List.map_congr_left fun e he => hkey e (List.mem_filter.mp he).2
  rw [hpositions] at hkeys
  exact hkeys.of_map _

theorem nodup_column (hp : p.WellFormed) (j : ℕ) : ((p.column j).map Prod.fst).Nodup := by
  unfold column
  rw [List.map_map]
  refine nodup_line hp.indexed.nodup (fun i => (i, j)) fun e he => ?_
  rw [← beq_iff_eq.mp he]
  rfl

theorem nodup_row (hp : p.WellFormed) (i : ℕ) : ((p.row i).map Prod.fst).Nodup := by
  unfold row
  rw [List.map_map]
  refine nodup_line hp.indexed.nodup (fun j => (i, j)) fun e he => ?_
  rw [← beq_iff_eq.mp he]
  rfl

theorem WellFormed.column_lt (hp : p.WellFormed) : ∀ e ∈ p.entries, e.column < p.variableCount :=
  fun e he => (hp.key_lt e.key (List.mem_map_of_mem he)).2

theorem WellFormed.row_lt (hp : p.WellFormed) : ∀ e ∈ p.entries, e.row < p.constraintCount :=
  fun e he => (hp.key_lt e.key (List.mem_map_of_mem he)).1

theorem row_lt_of_mem_column (hp : p.WellFormed) {j : ℕ} {term : ℕ × F}
    (h : term ∈ p.column j) : term.1 < p.constraintCount := by
  obtain ⟨e, he, rfl⟩ := List.mem_map.mp h
  exact hp.row_lt e (List.mem_of_mem_filter he)

theorem column_lt_of_mem_row (hp : p.WellFormed) {i : ℕ} {term : ℕ × F}
    (h : term ∈ p.row i) : term.1 < p.variableCount := by
  obtain ⟨e, he, rfl⟩ := List.mem_map.mp h
  exact hp.column_lt e (List.mem_of_mem_filter he)

end Lines

/-! ## Edits -/

/-- The options are no part of what is well-formed. -/
theorem preserves_setObjective (objective : Objective) :
    Preserves WellFormed (setObjective objective : Edit (Problem F) Unit) :=
  .modifyGet fun _ hp => ⟨hp.bounds_length, hp.key_lt, hp.bounded, hp.indexed⟩

theorem preserves_setNonNegativeDefault (value : Bool) :
    Preserves WellFormed (setNonNegativeDefault value : Edit (Problem F) Unit) :=
  .modifyGet fun _ hp => ⟨hp.bounds_length, hp.key_lt, hp.bounded, hp.indexed⟩

variable [Scalar F]

theorem preserves_addVariables (n : ℕ) (bounds : Bounds F) :
    Preserves WellFormed (addVariables n bounds) := by
  refine .modifyGet fun p hp => ⟨?_, ?_, hp.bounded, hp.indexed⟩
  · simp only [List.length_append, List.length_replicate, hp.bounds_length]
  · intro key hkey
    obtain ⟨hrow, hcolumn⟩ := hp.key_lt key hkey
    unfold variableCount at hcolumn ⊢
    rw [List.length_append]
    exact ⟨hrow, by omega⟩

theorem preserves_addVariable (bounds : Bounds F) :
    Preserves WellFormed (addVariable bounds) := by
  refine .bind (fun _ hp => hp) fun p => ?_
  exact (Preserves.bind (preserves_addVariables 1 bounds) fun _ => .pure _).bind fun _ => .pure _

theorem preserves_addVariableGrid (n m : ℕ) (bounds : Bounds F) :
    Preserves WellFormed (addVariableGrid n m bounds) :=
  .mapM fun _ _ => preserves_addVariables m bounds

/-- A constraint without finite bounds is refused. -/
theorem addConstraint_eq (bounds : Bounds F) (p : Problem F) :
    (bounds.finite = .free ∧ addConstraint bounds p = .error (.refused .invalidConstraint) p) ∨
      (bounds.finite ≠ .free ∧ addConstraint bounds p = .ok p.constraintCount
        { p with constraintBounds := p.constraintBounds ++ [bounds.finite] }) := by
  rcases hfinite : bounds.finite with ⟨lower, upper⟩
  unfold addConstraint
  rw [hfinite]
  cases lower with
  | some l => exact Or.inr ⟨nofun, rfl⟩
  | none =>
    cases upper with
    | some u => exact Or.inr ⟨nofun, rfl⟩
    | none => exact Or.inl ⟨rfl, rfl⟩

theorem preserves_addConstraint (bounds : Bounds F) :
    Preserves WellFormed (addConstraint bounds) := by
  intro p hp
  unfold stateAfter
  rcases addConstraint_eq bounds p with ⟨-, hrun⟩ | ⟨hfree, hrun⟩
  · rw [hrun]
    exact hp
  · rw [hrun]
    exact hp.appendConstraint hfree

theorem setCoefficient_eq (i j : ℕ) (value : F) (accumulate : Bool) :
    setCoefficient i j value accumulate = atomically (fun p => do
      p.checkConstraint i
      p.checkVariable j
      p.insert ⟨i, j, value⟩ accumulate) := by
  funext p
  change EStateM.bind (liftM (p.checkConstraint i)) (fun _ =>
    EStateM.bind (liftM (p.checkVariable j)) fun _ =>
    EStateM.bind (liftM (p.insert ⟨i, j, value⟩ accumulate)) EStateM.set) p = _
  unfold atomically
  beta_reduce
  cases p.checkConstraint i with
  | error e => rfl
  | ok _ =>
    cases p.checkVariable j with
    | error e => rfl
    | ok _ => cases p.insert ⟨i, j, value⟩ accumulate <;> rfl

/-- An insertion where there is a constraint and a variable. -/
theorem WellFormed.insert {p q : Problem F} (hp : p.WellFormed) {e : Entry F} {accumulate : Bool}
    (hrow : e.row < p.constraintCount) (hcolumn : e.column < p.variableCount)
    (h : p.insert e accumulate = .ok q) :
    q.WellFormed ∧ q.constraintCount = p.constraintCount ∧ q.variableCount = p.variableCount := by
  obtain ⟨entries, index, rfl, hindexed, hkeys⟩ := insert_cases hp.indexed h
  refine ⟨⟨hp.bounds_length, fun key hkey => ?_, hp.bounded, hindexed⟩, rfl, rfl⟩
  rcases hkeys key hkey with rfl | hold
  · exact ⟨hrow, hcolumn⟩
  · exact hp.key_lt key hold

/-- A new coefficient is appended. -/
theorem stateAfter_setCoefficient {p : Problem F} (hp : p.Indexed) {i j : ℕ}
    (hi : i < p.constraintCount) (hj : j < p.variableCount) (hnew : (i, j) ∉ p.keys) (value : F)
    (accumulate : Bool) :
    stateAfter (setCoefficient i j value accumulate) p =
      { p with
        entries := p.entries ++ [⟨i, j, value⟩]
        index := p.index.insert (i, j) p.entries.length } := by
  have hinsert := insert_of_not_mem hp (e := ⟨i, j, value⟩) hnew accumulate
  rw [setCoefficient_eq, stateAfter, atomically, checkConstraint_eq hi, checkVariable_eq hj,
    hinsert]
  rfl

/-- A call that is refused leaves the problem as it was. -/
theorem setCoefficient_error {p q : Problem F} {i j : ℕ} {value : F} {accumulate : Bool}
    {e : Failure} (h : setCoefficient i j value accumulate p = .error e q) : q = p := by
  rw [setCoefficient_eq] at h
  exact atomically_error h

/-- A coefficient that is set is inserted where there is a constraint and a variable. -/
theorem setCoefficient_eq_ok {p q : Problem F} {i j : ℕ} {value : F} {accumulate : Bool}
    (h : setCoefficient i j value accumulate p = .ok () q) :
    i < p.constraintCount ∧ j < p.variableCount ∧
      p.insert ⟨i, j, value⟩ accumulate = .ok q := by
  rw [setCoefficient_eq, atomically] at h
  by_cases hi : i < p.constraintCount
  · by_cases hj : j < p.variableCount
    · rw [checkConstraint_eq hi, checkVariable_eq hj] at h
      cases hq : p.insert ⟨i, j, value⟩ accumulate with
      | error f =>
        rw [hq] at h
        cases h
      | ok next =>
        rw [hq] at h
        cases h
        exact ⟨hi, hj, rfl⟩
    · rw [checkConstraint_eq hi, checkVariable, if_neg hj] at h
      cases h
  · rw [checkConstraint, if_neg hi] at h
    cases h

theorem preserves_setCoefficient (i j : ℕ) (value : F) (accumulate : Bool) :
    Preserves WellFormed (setCoefficient i j value accumulate) := by
  intro p hp
  unfold stateAfter
  cases hrun : setCoefficient i j value accumulate p with
  | error e q =>
    rw [setCoefficient_error hrun]
    exact hp
  | ok _ q =>
    obtain ⟨hi, hj, hq⟩ := setCoefficient_eq_ok hrun
    exact (hp.insert hi hj hq).1

theorem setCost_eq (j : ℕ) (value : F) (accumulate : Bool) :
    setCost j value accumulate = atomically (fun p => do
      p.checkVariable j
      let cost ← update p.cost j fun old => merged accumulate old value
      return { p with cost }) := by
  funext p
  change EStateM.bind (liftM (p.checkVariable j)) (fun _ =>
    EStateM.bind (liftM (update p.cost j fun old => merged accumulate old value))
      fun cost => EStateM.set { p with cost := cost }) p = _
  unfold atomically
  beta_reduce
  cases p.checkVariable j with
  | error e => rfl
  | ok _ => cases update p.cost j fun old => merged accumulate old value <;> rfl

theorem preserves_setCost (j : ℕ) (value : F) (accumulate : Bool) :
    Preserves WellFormed (setCost j value accumulate) := by
  rw [setCost_eq]
  refine .atomically fun p q hp h => ?_
  obtain ⟨-, -, h⟩ := bind_eq_ok.mp h
  obtain ⟨cost, hcost, h⟩ := bind_eq_ok.mp h
  have hlength : cost.length = p.cost.length := length_update (liftM_eq_ok.mp hcost)
  cases h
  refine ⟨hp.bounds_length.trans hlength.symm, fun key hkey => ?_, hp.bounded, hp.indexed⟩
  unfold variableCount
  rw [hlength]
  exact hp.key_lt key hkey

/-! ## Problems from matrices -/

theorem preserves_fillRow (i j : ℕ) (values : List F) :
    Preserves WellFormed (fillRow i j values) := by
  induction values generalizing j with
  | nil => exact .pure ()
  | cons value values ih =>
    unfold fillRow
    cases Scalar.isZero value with
    | true => exact .bind (.pure ()) fun _ => ih (j + 1)
    | false => exact .bind (preserves_setCoefficient i j value false) fun _ => ih (j + 1)

theorem preserves_appendRows (rows : List (List F × F)) (relations : List Relation) :
    Preserves WellFormed (appendRows rows relations) := by
  induction rows generalizing relations with
  | nil => exact .pure ()
  | cons row rows ih =>
    obtain ⟨values, rhs⟩ := row
    refine .bind (preserves_addConstraint _) fun i => ?_
    exact .bind (preserves_fillRow i 0 values) fun _ => ih relations.tail

theorem wellFormed_ofMatrix {objective : Objective} {nonNegative : Bool} {a : List (List F)}
    {b c : List F} {relations : List Relation} {p : Problem F}
    (h : ofMatrix objective nonNegative a b c relations = .ok p) : p.WellFormed := by
  obtain ⟨-, -, h⟩ := bind_eq_ok.mp h
  dsimp only at h
  generalize hstart : ({
      objective
      nonNegativeDefault := nonNegative
      cost := c
      variableBounds := c.map fun _ => if nonNegative then .nonnegative else .free } :
    Problem F) = start at h
  have hwf : start.WellFormed := by
    rw [← hstart]
    exact wellFormed_of_unconstrained objective nonNegative (List.length_map _)
  have hrows := preserves_appendRows (a.zip b) relations start hwf
  unfold stateAfter at hrows
  cases hrun : appendRows (a.zip b) relations start with
  | ok _ q =>
    rw [hrun] at h hrows
    cases h
    exact hrows
  | error e q =>
    rw [hrun] at h
    cases h

end Problem

end LinearOpt
