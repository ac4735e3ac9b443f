import LinearOpt.Proofs.Problem.Cells

/-!
# What a matrix asks for

A problem that is made from a dense matrix stores the coefficients that are not zero, one by one, and
finds them again by a scan when a vector is evaluated.  Here both ends are compared with the dense
definition.

* `checkShape_cases` says when the sizes of the parts agree.  If they do not, the matrix is refused.
* `exists_fillRow` and `exists_appendRows` say that nothing fails once they do: all that happens is
  that constraints and coefficients are appended.
* `rowForm_eq_linear` is the linear form of a constraint.  It is the dense product of its row, the
  zeros that are not stored included.
* `ofMatrix_dense` says what a matrix is made into, and `Dense` what it means.
-/

namespace LinearOpt

/-- What a relation says of the value of a row. -/
def Relation.Holds (relation : Relation) (value rhs : ℚ) : Prop :=
  match relation with
  | atMost => value ≤ rhs
  | equal => value = rhs
  | atLeast => rhs ≤ value

theorem Relation.holds_bounds (relation : Relation) (value rhs : ℚ) :
    (relation.bounds rhs).Holds value ↔ relation.Holds value rhs := by
  cases relation with
  | atMost => simp [Bounds.Holds, Relation.bounds, Relation.Holds]
  | equal =>
    rw [Relation.Holds, le_antisymm_iff, and_comm]
    simp [Bounds.Holds, Relation.bounds]
  | atLeast => simp [Bounds.Holds, Relation.bounds, Relation.Holds]

theorem Relation.bounds_ne_free (relation : Relation) (rhs : ℚ) :
    relation.bounds rhs ≠ .free := by
  cases relation <;> simp [Relation.bounds, Bounds.free]

/-- All rationals are finite. -/
theorem Bounds.finite_eq (b : Bounds ℚ) : b.finite = b := by
  obtain ⟨lower, upper⟩ := b
  cases lower <;> cases upper <;> rfl

namespace Problem

/-! ## Sizes -/

/-- The parts of a dense problem belong together. -/
structure Shaped {F : Type} (a : List (List F)) (b c : List F) (relations : List Relation) :
    Prop where
  rows_eq : a.length = b.length
  columns_eq : ∀ row ∈ a, row.length = c.length
  relations_le : relations.length ≤ a.length

/-- The check of the sizes, with the first one that is wrong if there is any. -/
theorem checkShape_cases {F : Type} (a : List (List F)) (b c : List F)
    (relations : List Relation) :
    (Shaped a b c relations ∧ checkShape a b c relations = .ok ()) ∨
      (¬Shaped a b c relations ∧
        ∃ mismatch, checkShape a b c relations = .error (.dimensionMismatch mismatch)) := by
  unfold checkShape
  by_cases hrows : a.length = b.length
  · rw [if_neg (not_not_intro hrows)]
    dsimp only
    cases hfind : a.zipIdx.find? (·.1.length ≠ c.length) with
    | some line =>
      obtain ⟨row, i⟩ := line
      have hrow : row.length ≠ c.length := by simpa using List.find?_some hfind
      have hmem := List.fst_mem_of_mem_zipIdx (List.mem_of_find?_eq_some hfind)
      exact Or.inr ⟨fun h => hrow (h.columns_eq row hmem), _, rfl⟩
    | none =>
      have hcolumns : ∀ row ∈ a, row.length = c.length := by
        intro row hrow
        obtain ⟨i, hi⟩ := List.mem_iff_getElem?.mp hrow
        simpa using List.find?_eq_none.mp hfind (row, i) (List.mem_zipIdx_iff_getElem?.mpr hi)
      dsimp only
      split
      · rename_i hlt
        exact Or.inr ⟨fun h => absurd h.relations_le (by omega), _, rfl⟩
      · rename_i hle
        exact Or.inl ⟨⟨hrows, hcolumns, by omega⟩, rfl⟩
  · rw [if_pos hrows]
    exact Or.inr ⟨fun h => hrows h.rows_eq, _, rfl⟩

/-! ## Filling -/

variable {p : Problem ℚ}

/-- A row that fits goes into the problem, and only coefficients are appended. -/
theorem exists_fillRow (hp : p.WellFormed) {i k : ℕ} (values : List ℚ)
    (hi : i < p.constraintCount) (hk : k + values.length ≤ p.variableCount) :
    ∃ entries index, fillRow i k values p = .ok () { p with entries, index } ∧
      WellFormed { p with entries, index } := by
  induction values generalizing p k with
  | nil => exact ⟨p.entries, p.index, rfl, hp⟩
  | cons value values ih =>
    rw [List.length_cons] at hk
    unfold fillRow
    by_cases hzero : value = 0
    · obtain ⟨entries, index, hrun, hwf⟩ := ih (k := k + 1) hp hi (by omega)
      refine ⟨entries, index, ?_, hwf⟩
      simpa [hzero] using hrun
    · rw [Exact.isZero_eq, if_pos (by simpa using hzero)]
      obtain ⟨mid, hset, -, -⟩ :=
        exists_setCoefficient hp.indexed ⟨i, k, value, false⟩ hi (by dsimp only; omega)
      have hmid := preserves_setCoefficient i k value false p hp
      unfold stateAfter at hmid
      rw [hset] at hmid
      obtain ⟨-, -, hinsert⟩ := setCoefficient_eq_ok hset
      obtain ⟨entries, index, rfl, -⟩ := insert_cases hp.indexed hinsert
      rw [edit_bind_of_ok hset]
      exact ih (k := k + 1) hmid hi (by show k + 1 + values.length ≤ p.variableCount; omega)

theorem addConstraint_eq_ok {bounds : Bounds ℚ} (h : bounds ≠ .free) (p : Problem ℚ) :
    addConstraint bounds p = .ok p.constraintCount
      { p with constraintBounds := p.constraintBounds ++ [bounds] } := by
  rcases addConstraint_eq bounds p with ⟨hfree, -⟩ | ⟨-, hrun⟩
  · rw [Bounds.finite_eq] at hfree
    exact absurd hfree h
  · rw [hrun, Bounds.finite_eq]

/-- The bounds of the rows. -/
def rowBounds : List (List ℚ × ℚ) → List Relation → List (Bounds ℚ)
  | [], _ => []
  | (_, rhs) :: rows, relations =>
      (relations.head?.getD default).bounds rhs :: rowBounds rows relations.tail

theorem length_rowBounds (rows : List (List ℚ × ℚ)) (relations : List Relation) :
    (rowBounds rows relations).length = rows.length := by
  induction rows generalizing relations with
  | nil => rfl
  | cons row rows ih => simp [rowBounds, ih]

theorem getElem?_rowBounds (rows : List (List ℚ × ℚ)) (relations : List Relation) (i : ℕ) :
    (rowBounds rows relations)[i]? =
      rows[i]?.map fun row => (relations.getD i .atMost).bounds row.2 := by
  induction rows generalizing relations i with
  | nil => simp [rowBounds]
  | cons row rows ih =>
    cases i with
    | zero => cases relations <;> rfl
    | succ i =>
      rw [rowBounds, List.getElem?_cons_succ, List.getElem?_cons_succ, ih]
      cases relations <;> rfl

/-- Rows that fit go into the problem, and only constraints and coefficients are appended. -/
theorem exists_appendRows (hp : p.WellFormed) (rows : List (List ℚ × ℚ))
    (relations : List Relation) (hrows : ∀ row ∈ rows, row.1.length ≤ p.variableCount) :
    ∃ entries index, appendRows rows relations p = .ok () { p with
      constraintBounds := p.constraintBounds ++ rowBounds rows relations, entries, index } := by
  induction rows generalizing p relations with
  | nil => exact ⟨p.entries, p.index, by simp [rowBounds, appendRows]; rfl⟩
  | cons row rows ih =>
    obtain ⟨values, rhs⟩ := row
    have hfree := (relations.head?.getD default).bounds_ne_free rhs
    obtain ⟨entries, index, hfill, hfilled⟩ := exists_fillRow (hp.appendConstraint hfree)
      (i := p.constraintCount) (k := 0) values (length_lt_concat _ _)
      (by rw [Nat.zero_add]; exact hrows _ List.mem_cons_self)
    obtain ⟨entries', index', hlater⟩ := ih hfilled relations.tail
      fun row hrow => hrows row (List.mem_cons_of_mem _ hrow)
    refine ⟨entries', index', ?_⟩
    unfold appendRows
    rw [edit_bind_of_ok (addConstraint_eq_ok hfree p), edit_bind_of_ok hfill, hlater, rowBounds, List.append_assoc,
      List.singleton_append]

/-- A dense problem whose sizes agree is made into a problem. -/
theorem exists_ofMatrix (objective : Objective) (nonNegative : Bool) {a : List (List ℚ)}
    {b c : List ℚ} {relations : List Relation} (h : Shaped a b c relations) :
    ∃ entries index, ofMatrix objective nonNegative a b c relations = .ok
      { objective
        nonNegativeDefault := nonNegative
        cost := c
        variableBounds := c.map fun _ => if nonNegative then .nonnegative else .free
        constraintBounds := rowBounds (a.zip b) relations
        entries
        index } := by
  have hshape : checkShape a b c relations = .ok () := by
    rcases checkShape_cases a b c relations with ⟨-, hcheck⟩ | ⟨hnot, -⟩
    · exact hcheck
    · exact absurd h hnot
  have hstart : WellFormed (F := ℚ)
      { objective
        nonNegativeDefault := nonNegative
        cost := c
        variableBounds := c.map fun _ => if nonNegative then .nonnegative else .free } :=
    wellFormed_of_unconstrained objective nonNegative (List.length_map _)
  obtain ⟨entries, index, hrun⟩ := exists_appendRows hstart (a.zip b) relations
    fun row hrow => (h.columns_eq row.1 (List.of_mem_zip hrow).1).le
  refine ⟨entries, index, ?_⟩
  unfold ofMatrix
  rw [hshape, liftM_ok_refusal, ok_bind]
  dsimp only
  rw [hrun]
  rfl

/-! ## Meaning -/

/-- The problem is what the dense data say.  The values of rows and costs are dense products, and
rows without a relation are upper bounded. -/
structure Dense (p : Problem ℚ) (objective : Objective) (nonNegative : Bool) (a : List (List ℚ))
    (b c : List ℚ) (relations : List Relation) : Prop where
  objective_eq : p.objective = objective
  variableCount_eq : p.variableCount = c.length
  constraintCount_eq : p.constraintCount = a.length
  isFeasible_iff : ∀ x : List ℚ, x.length = c.length → (p.isFeasible x = .ok true ↔
    (∀ i row rhs, a[i]? = some row → b[i]? = some rhs →
      (relations.getD i .atMost).Holds (linear row (valuation x)) rhs) ∧
    (nonNegative = true → ∀ value ∈ x, 0 ≤ value))
  objectiveValue_eq : ∀ x : List ℚ, x.length = c.length →
    p.objectiveValue x = .ok (linear c (valuation x))
  coefficient?_eq : ∀ i j row value, a[i]? = some row → row[j]? = some value →
    p.coefficient? i j = .ok (if value = 0 then none else some value)

section Dense

variable {a : List (List ℚ)} {b c : List ℚ} {relations : List Relation}

/-- The linear form of a constraint is the dense product of its row. -/
theorem rowForm_eq_linear (hp : p.WellFormed) {i : ℕ} {row : List ℚ}
    (hcells : ∀ j, p.coefficient? i j = .ok (row[j]?.filter (· ≠ 0)))
    (hrow : row.length = p.variableCount) (z : ℕ → ℚ) : rowForm p.entries i z = linear row z := by
  have hcoefficient : ∀ j, coefficientAt p.entries i j = valuation row j := by
    intro j
    obtain ⟨cell, hcell, hvalue⟩ := Problem.coefficient?_eq hp i j
    rw [hcells, Except.ok.injEq] at hcell
    rw [← hvalue, ← hcell, valuation, List.getD_eq_getElem?_getD]
    cases row[j]? with
    | none => rfl
    | some value =>
      rw [Option.filter_some]
      by_cases hzero : value = 0 <;> simp [hzero]
  rw [rowForm_eq_sum hp.column_lt, linear, hrow]
  simp only [hcoefficient]

theorem allHold_default_iff {nonNegative : Bool} {x : List ℚ} (hx : x.length = c.length) :
    AllHold (c.map fun _ => if nonNegative then .nonnegative else .free) (valuation x) ↔
      (nonNegative = true → ∀ value ∈ x, 0 ≤ value) := by
  cases nonNegative with
  | false =>
    refine iff_of_true (fun j b hb => ?_) nofun
    obtain ⟨_, -, rfl⟩ := List.mem_map.mp (List.mem_of_getElem? hb)
    exact Bounds.holds_free _
  | true =>
    have hvalue : ∀ (j : ℕ) value, x[j]? = some value → valuation x j = value := by
      intro j value hj
      rw [valuation, List.getD_eq_getElem?_getD, hj, Option.getD_some]
    constructor
    · intro h _ value hmem
      obtain ⟨j, hj⟩ := List.mem_iff_getElem?.mp hmem
      have hlt : j < c.length := hx ▸ (List.getElem?_eq_some_iff.mp hj).1
      have hholds := h j .nonnegative (by simp [hlt])
      rwa [Bounds.holds_nonnegative, hvalue j value hj] at hholds
    · intro h j b hb
      obtain ⟨_, -, rfl⟩ := List.mem_map.mp (List.mem_of_getElem? hb)
      have hlt : j < x.length := by
        rw [hx]
        simpa using (List.getElem?_eq_some_iff.mp hb).1
      have hj := List.getElem?_eq_getElem hlt
      rw [if_pos rfl, Bounds.holds_nonnegative, hvalue j _ hj]
      exact h rfl _ (List.getElem_mem hlt)

theorem allHold_rowBounds_iff (rows : List (List ℚ × ℚ)) (value : ℕ → ℚ) :
    AllHold (rowBounds rows relations) value ↔ ∀ (i : ℕ) row, rows[i]? = some row →
      (relations.getD i .atMost).Holds (value i) row.2 := by
  constructor
  · intro h i row hrow
    refine (Relation.holds_bounds _ _ _).mp (h i _ ?_)
    rw [getElem?_rowBounds, hrow, Option.map_some]
  · intro h i bounds hbounds
    rw [getElem?_rowBounds] at hbounds
    obtain ⟨row, hrow, rfl⟩ := Option.map_eq_some_iff.mp hbounds
    exact (Relation.holds_bounds _ _ _).mpr (h i row hrow)

theorem dense_ofMatrix {objective : Objective} {nonNegative : Bool} (hshape : Shaped a b c relations)
    (h : ofMatrix objective nonNegative a b c relations = .ok p) :
    p.Dense objective nonNegative a b c relations := by
  have hp := wellFormed_ofMatrix h
  have hcells := coefficient?_ofMatrix h
  obtain ⟨entries, index, hrun⟩ := exists_ofMatrix objective nonNegative hshape
  rw [h, Except.ok.injEq] at hrun
  have hcost : p.cost = c := by rw [hrun]
  have hvariables : p.variableBounds =
      c.map fun _ => if nonNegative then .nonnegative else .free := by rw [hrun]
  have hconstraints : p.constraintBounds = rowBounds (a.zip b) relations := by rw [hrun]
  have hcount : p.variableCount = c.length := by rw [variableCount, hcost]
  have hform : ∀ (i : ℕ) row z, a[i]? = some row → rowForm p.entries i z = linear row z := by
    intro i row z hrow
    refine rowForm_eq_linear hp (fun j => ?_) ?_ z
    · rw [hcells, matrixCell, hrow, Option.bind_some]
    · rw [hcount]
      exact hshape.columns_eq row (List.mem_of_getElem? hrow)
  constructor
  · rw [hrun]
  · exact hcount
  · rw [constraintCount, hconstraints, length_rowBounds, List.length_zip, hshape.rows_eq, min_self]
  · intro x hx
    rw [Problem.isFeasible_iff hp, feasible_iff, hvariables, hconstraints, hcount,
      allHold_default_iff hx, allHold_rowBounds_iff]
    constructor
    · rintro ⟨-, hnonneg, hrows⟩
      refine ⟨fun i row rhs hrow hrhs => ?_, hnonneg⟩
      rw [← hform i row _ hrow]
      exact hrows i (row, rhs) (List.getElem?_zip_eq_some.mpr ⟨hrow, hrhs⟩)
    · rintro ⟨hrows, hnonneg⟩
      refine ⟨hx, hnonneg, fun i line hline => ?_⟩
      obtain ⟨hrow, hrhs⟩ := List.getElem?_zip_eq_some.mp hline
      rw [hform i line.1 _ hrow]
      exact hrows i line.1 line.2 hrow hrhs
  · intro x hx
    rw [Problem.objectiveValue_eq (hx.trans hcount.symm), hcost]
  · intro i j row value hrow hvalue
    rw [hcells, matrixCell, hrow, Option.bind_some, hvalue, Option.filter_some]
    by_cases hzero : value = 0 <;> simp [hzero]

end Dense

/-- A dense problem is accepted exactly if its sizes agree, and it is refused for no other reason.
If it is accepted, the problem is what the dense data say. -/
theorem ofMatrix_dense (objective : Objective) (nonNegative : Bool) (a : List (List ℚ))
    (b c : List ℚ) (relations : List Relation) :
    ((∃ p, ofMatrix objective nonNegative a b c relations = .ok p) ↔ Shaped a b c relations) ∧
      (∀ e, ofMatrix objective nonNegative a b c relations = .error e →
        ∃ mismatch, e = .refused (.dimensionMismatch mismatch)) ∧
      ∀ p, ofMatrix objective nonNegative a b c relations = .ok p →
        p.Dense objective nonNegative a b c relations := by
  rcases checkShape_cases a b c relations with ⟨hshape, -⟩ | ⟨hshape, mismatch, hcheck⟩
  · obtain ⟨entries, index, hrun⟩ := exists_ofMatrix objective nonNegative hshape
    refine ⟨iff_of_true ⟨_, hrun⟩ hshape, fun e h => ?_, fun p h => dense_ofMatrix hshape h⟩
    rw [hrun] at h
    cases h
  · have hrun : ofMatrix objective nonNegative a b c relations =
        .error (.refused (.dimensionMismatch mismatch)) := by
      unfold ofMatrix
      rw [hcheck]
      rfl
    refine ⟨iff_of_false (fun ⟨p, h⟩ => ?_) hshape, fun e h => ?_, fun p h => ?_⟩
    · rw [hrun] at h
      cases h
    · rw [hrun] at h
      cases h
      exact ⟨mismatch, rfl⟩
    · rw [hrun] at h
      cases h

end Problem

end LinearOpt
