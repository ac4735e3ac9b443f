import LinearOpt.Proofs.Exact
import LinearOpt.Tableau.Pivot

/-!
# The tableaux that can be built

`Built` is every tableau that the operations make, over any number type: a first tableau, and from
there any pivots and changes of phase.  A pivot may be given any coefficients here.  They need not be
those of the entering column, so the rows need not describe a basis.

What is left without a basis is that the parts of the tableau fit together.  `WellSized` says so.
`pivot_cases` lists what a pivot does to the rows, and with it each operation keeps the sizes
(`wellSized_start`, `WellSized.pivot`, `WellSized.startPhaseTwo`), hence `Built.wellSized`.  The sizes
are enough for a column to be generated (`WellSized.exists_generateColumn`).
-/

namespace LinearOpt

section

variable {F : Type} [Scalar F]

/-! ## Rows -/

theorem BasisRow.length_inverse_dividedBy {row divided : BasisRow F} {divisor : F}
    (h : row.dividedBy divisor = .ok divided) :
    divided.inverse.length = row.inverse.length := by
  obtain ⟨inverse, hinverse, h⟩ := bind_eq_ok.mp h
  obtain ⟨value, -, h⟩ := bind_eq_ok.mp h
  cases h
  exact (forall₂_of_mapM hinverse).length_eq.symm

theorem BasisRow.minus_eq_ok {row other next : BasisRow F} {factor : F}
    (h : row.minus factor other = .ok next) :
    next.column = row.column ∧
      next.inverse.length = min row.inverse.length other.inverse.length := by
  obtain ⟨inverse, hinverse, h⟩ := bind_eq_ok.mp h
  obtain ⟨product, -, h⟩ := bind_eq_ok.mp h
  obtain ⟨value, -, h⟩ := bind_eq_ok.mp h
  cases h
  refine ⟨rfl, ?_⟩
  rw [← List.length_zip]
  exact (forall₂_of_mapM hinverse).length_eq.symm

namespace Tableau

/-! ## Sizes -/

/-- The parts of a tableau fit together, and its rows name columns that there are. -/
structure WellSized (t : Tableau F) : Prop where
  matrix_length : t.matrix.length = t.rowCount
  length_of_mem_matrix : ∀ row ∈ t.matrix, row.length = t.realColumnCount
  columnCount_eq : t.columnCount = t.realColumnCount + t.rowCount
  inverse_length : ∀ row ∈ t.rows, row.inverse.length = t.rowCount
  column_lt : ∀ row ∈ t.rows, row.column < t.columnCount

theorem wellSized_start {matrix : List (List F)} {b cost : List F} {t : Tableau F}
    (h : start matrix b cost = .ok t) : t.WellSized := by
  obtain ⟨_, hmatrix, h⟩ := bind_eq_ok.mp h
  obtain ⟨_, hlengths, h⟩ := bind_eq_ok.mp h
  obtain ⟨_, -, h⟩ := bind_eq_ok.mp h
  cases h
  constructor
  · simpa [rowCount] using eq_true_of_require hmatrix
  · simpa [realColumnCount] using eq_true_of_require hlengths
  · simp [columnCount, realColumnCount, rowCount]
  · intro row hrow
    obtain ⟨entry, -, rfl⟩ := List.mem_map.mp hrow
    simp [rowCount]
  · intro row hrow
    obtain ⟨⟨value, i⟩, hentry, rfl⟩ := List.mem_map.mp hrow
    have hi : i < b.length := List.snd_lt_of_mem_zipIdx hentry
    simpa [columnCount] using hi

/-- What a pivot that is made has done: one row was divided and named after the entering column, and
any other row either stays or lost a multiple of that one. -/
theorem pivot_cases {t next : Tableau F} {j r : ℕ} {coefficients : List F}
    (h : t.pivot j r coefficients = .ok next) :
    j < t.columnCount ∧ ∃ leaving ∈ t.rows, ∃ divisor divided rows basic,
      leaving.dividedBy divisor = .ok divided ∧ next = { t with rows, basic } ∧
      rows.length = t.rowCount ∧ basic.length = t.columnCount ∧
      ∀ row ∈ rows, row = { divided with column := j, cost := t.phaseCost j } ∨ row ∈ t.rows ∨
        ∃ before ∈ t.rows, ∃ factor,
          before.minus factor { divided with column := j, cost := t.phaseCost j } = .ok row := by
  obtain ⟨_, hj, h⟩ := bind_eq_ok.mp h
  obtain ⟨_, -, h⟩ := bind_eq_ok.mp h
  obtain ⟨_, -, h⟩ := bind_eq_ok.mp h
  obtain ⟨divisor, -, h⟩ := bind_eq_ok.mp h
  obtain ⟨_, -, h⟩ := bind_eq_ok.mp h
  obtain ⟨leaving, hleaving, h⟩ := bind_eq_ok.mp h
  obtain ⟨divided, hdivided, h⟩ := bind_eq_ok.mp h
  obtain ⟨rows, hrows, h⟩ := bind_eq_ok.mp h
  have hlength : rows.length = t.rowCount := by
    rw [← (forall₂_of_mapM hrows).length_eq, List.length_zipIdx]
    rfl
  split at h
  · obtain ⟨unmarked, hunmarked, h⟩ := bind_eq_ok.mp h
    cases h
    have hcount : (unmarked.set j true).length = t.columnCount := by
      rw [List.length_set, length_update hunmarked]
      rfl
    refine ⟨by simpa using eq_true_of_require hj, leaving,
      List.mem_of_getElem? (fetch_eq_ok_iff.mp hleaving), divisor, divided, rows, _, hdivided, rfl,
      hlength, hcount, fun row hrow => ?_⟩
    obtain ⟨⟨before, i⟩, hbefore, hmade⟩ := exists_of_mem_mapM hrows hrow
    have hmem : before ∈ t.rows := List.fst_mem_of_mem_zipIdx hbefore
    dsimp only at hmade
    split at hmade
    · cases hmade
      exact Or.inl rfl
    · split at hmade
      · cases hmade
        exact Or.inr (Or.inl hmem)
      · rename_i factor _
        split at hmade
        · cases hmade
          exact Or.inr (Or.inl hmem)
        · exact Or.inr (Or.inr ⟨before, hmem, factor, hmade⟩)
  · cases h

/-- The coefficients play no part in the sizes. -/
theorem WellSized.pivot {t next : Tableau F} {j r : ℕ} {coefficients : List F} (ht : t.WellSized)
    (h : t.pivot j r coefficients = .ok next) : next.WellSized := by
  obtain ⟨hj, leaving, hleaving, divisor, divided, rows, basic, hdivided, rfl, hlength, hcount,
    hcases⟩ := pivot_cases h
  have hdivided : divided.inverse.length = t.rowCount := by
    rw [BasisRow.length_inverse_dividedBy hdivided, ht.inverse_length leaving hleaving]
  have hrow : ∀ row ∈ rows, row.inverse.length = t.rowCount ∧ row.column < t.columnCount := by
    intro row hrow
    rcases hcases row hrow with rfl | hmem | ⟨before, hmem, factor, hminus⟩
    · exact ⟨hdivided, hj⟩
    · exact ⟨ht.inverse_length row hmem, ht.column_lt row hmem⟩
    · obtain ⟨hcolumn, hmin⟩ := BasisRow.minus_eq_ok hminus
      rw [hcolumn, hmin, ht.inverse_length before hmem]
      exact ⟨by simp [hdivided], ht.column_lt before hmem⟩
  constructor
  · exact ht.matrix_length.trans hlength.symm
  · exact ht.length_of_mem_matrix
  · rw [columnCount, hcount, ht.columnCount_eq, ← hlength]
    rfl
  · exact fun row hmem => (hrow row hmem).1.trans hlength.symm
  · exact fun row hmem => (hrow row hmem).2.trans_eq hcount.symm

theorem WellSized.startPhaseTwo {t next : Tableau F} (ht : t.WellSized)
    (h : t.startPhaseTwo = .ok next) : next.WellSized := by
  obtain ⟨_, -, h⟩ := bind_eq_ok.mp h
  cases h
  constructor
  · simpa [rowCount] using ht.matrix_length
  · exact ht.length_of_mem_matrix
  · simpa [columnCount, realColumnCount, rowCount] using ht.columnCount_eq
  · intro row hrow
    obtain ⟨before, hbefore, rfl⟩ := List.mem_map.mp hrow
    simpa [rowCount] using ht.inverse_length before hbefore
  · intro row hrow
    obtain ⟨before, hbefore, rfl⟩ := List.mem_map.mp hrow
    exact ht.column_lt before hbefore

/-- The tableaux that the operations make. -/
inductive Built : Tableau F → Prop where
  | start {matrix : List (List F)} {b cost : List F} {t : Tableau F}
      (h : Tableau.start matrix b cost = .ok t) : Built t
  | pivot {t next : Tableau F} {j r : ℕ} {coefficients : List F} (h : Built t)
      (hnext : t.pivot j r coefficients = .ok next) : Built next
  | startPhaseTwo {t next : Tableau F} (h : Built t) (hnext : t.startPhaseTwo = .ok next) :
      Built next

theorem Built.wellSized {t : Tableau F} (h : t.Built) : t.WellSized := by
  induction h with
  | start h => exact wellSized_start h
  | pivot _ hnext ih => exact ih.pivot hnext
  | startPhaseTwo _ hnext ih => exact ih.startPhaseTwo hnext

/-! ## Columns -/

theorem WellSized.exists_extendedColumn {t : Tableau F} (ht : t.WellSized) {j : ℕ}
    (hj : j < t.columnCount) :
    ∃ column, t.extendedColumn j = .ok column ∧ column.length = t.rowCount := by
  rw [extendedColumn, require_eq_ok (by simpa using hj), ok_bind]
  split
  · rename_i hreal
    have hfetch : ∀ row ∈ t.matrix, fetch row j = .ok (row.getD j Scalar.zero) := by
      intro row hrow
      rw [← ht.length_of_mem_matrix row hrow] at hreal
      apply fetch_eq_ok
      rw [List.getD_eq_getElem?_getD, List.getElem?_eq_getElem hreal, Option.getD_some]
    refine ⟨_, mapM_eq_ok hfetch, ?_⟩
    rw [List.length_map, ht.matrix_length]
  · exact ⟨_, rfl, by simp⟩

end Tableau

end

theorem Tableau.WellSized.exists_generateColumn {t : Tableau ℚ} (ht : t.WellSized) {j : ℕ}
    (hj : j < t.columnCount) :
    ∃ column, t.generateColumn j = .ok column ∧ column.length = t.rowCount := by
  obtain ⟨column, hcolumn, hlength⟩ := ht.exists_extendedColumn hj
  have hdot : ∀ row ∈ t.rows, Scalar.dot row.inverse column =
      .ok ((row.inverse.zip column).map fun p => p.1 * p.2).sum := by
    intro row hrow
    rw [Scalar.dot, require_eq_ok (by simp [ht.inverse_length row hrow, hlength]), ok_bind,
      Exact.sumProducts_eq]
  rw [generateColumn, hcolumn, ok_bind, mapM_eq_ok hdot]
  exact ⟨_, rfl, List.length_map _⟩

end LinearOpt
