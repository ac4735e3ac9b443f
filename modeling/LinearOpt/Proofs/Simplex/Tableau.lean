import LinearOpt.Proofs.Exact
import LinearOpt.Proofs.Simplex.Basis
import LinearOpt.Tableau.Pivot

/-!
# The tableau of a basis

`StandardForm.tableau` writes a basis down as a tableau.  Each operation on tableaux is given on
such a tableau as the corresponding function of the basis, so that nothing after this file opens an
operation:

* `start_eq` and `startPhaseTwo_eq` make tableaux of bases;
* `generateColumn_eq`, `generateElement_eq`, `dualValues_eq`, `relativeCost_eq`,
  `objectiveValue_eq` and `basicSolution_eq` compute what their names say;
* `pivot_eq` is the exchange of a column.

All of these are equations with `.ok`: on the tableau of a basis no operation faults.  A pivot does
not need a basis to succeed, and `pivot_ofFn` is what it makes of any tableau.
-/

namespace LinearOpt

open Matrix

namespace StandardForm

variable {m n : ℕ} (p : StandardForm m n)

/-- The rows of the matrix as lists. -/
def rows : List (List ℚ) := List.ofFn fun i => List.ofFn (p.matrix i)

/-- The first tableau of the problem. -/
def start : Except Fault (Tableau ℚ) :=
  Tableau.start p.rows (List.ofFn p.values) (List.ofFn p.cost)

variable {p} (phase : Phase) (B : p.Basis)

/-- What a tableau stores about one row. -/
noncomputable def basisRow (i : Fin m) : BasisRow ℚ where
  column := B.columns i
  cost := B.costs phase i
  inverse := List.ofFn (B.inverse i)
  value := B.values i

/-- The tableau that describes a basis. -/
noncomputable def tableau : Tableau ℚ where
  phase
  matrix := p.rows
  cost := List.ofFn p.cost
  rows := List.ofFn (basisRow phase B)
  basic := List.ofFn fun k : Fin (n + m) => B.has k

@[simp] theorem tableau_phase : (tableau phase B).phase = phase := rfl

@[simp] theorem tableau_rowCount : (tableau phase B).rowCount = m := List.length_ofFn

@[simp] theorem tableau_realColumnCount : (tableau phase B).realColumnCount = n :=
  List.length_ofFn

@[simp] theorem tableau_columnCount : (tableau phase B).columnCount = n + m :=
  List.length_ofFn

theorem tableau_rows_getElem? (i : Fin m) :
    (tableau phase B).rows[i.val]? = some (basisRow phase B i) := by
  exact getElem?_ofFn_val (basisRow phase B) i

/-! ## Columns -/

theorem phaseCost_eq (j : ℕ) : (tableau phase B).phaseCost j = p.phaseCost phase j := by
  rw [Tableau.phaseCost, tableau, List.getElem?_ofFn]
  by_cases hj : j < n
  · cases phase <;> simp [phaseCost, hj]
  · cases phase <;> simp [phaseCost, hj]

theorem extendedColumn_eq {j : ℕ} (hj : j < n + m) :
    (tableau phase B).extendedColumn j = .ok (List.ofFn (p.column j)) := by
  rw [Tableau.extendedColumn, tableau_columnCount, require_eq_ok (by simpa using hj), ok_bind,
    tableau_realColumnCount, tableau_rowCount]
  split
  · rename_i hlt
    refine mapM_ofFn fun i => fetch_eq_ok ?_
    rw [List.getElem?_ofFn, dif_pos hlt, column, dif_pos hlt]
  · rename_i hge
    rw [range_eq_ofFn, List.map_ofFn, pure_eq_ok]
    congr 2
    funext i
    have hiff : i.val = j - n ↔ j = n + i := by omega
    simp [Tableau.unit, column, hge, hiff]

theorem generateColumn_eq {j : ℕ} (hj : j < n + m) :
    (tableau phase B).generateColumn j = .ok (List.ofFn (B.coefficients j)) := by
  rw [Tableau.generateColumn, extendedColumn_eq phase B hj, ok_bind]
  exact mapM_ofFn fun i => Exact.dot_ofFn (B.inverse i) (p.column j)

theorem generateElement_eq (i : Fin m) {j : ℕ} (hj : j < n + m) :
    (tableau phase B).generateElement i j = .ok (B.coefficients j i) := by
  rw [Tableau.generateElement, fetch_eq_ok (tableau_rows_getElem? phase B i), ok_bind,
    extendedColumn_eq phase B hj, ok_bind]
  exact Exact.dot_ofFn (B.inverse i) (p.column j)

theorem isBasic_eq_ok_iff {j : ℕ} {b : Bool} :
    (tableau phase B).isBasic j = .ok b ↔ j < n + m ∧ B.has j = b := by
  rw [Tableau.isBasic, fetch_eq_ok_iff, tableau, getElem?_ofFn_eq_some_iff]
  constructor
  · intro h
    obtain ⟨i, rfl, hi⟩ := h
    exact ⟨i.isLt, hi⟩
  · intro h
    exact ⟨⟨j, h.1⟩, rfl, h.2⟩

theorem isBasic_eq {j : ℕ} (hj : j < n + m) : (tableau phase B).isBasic j = .ok (B.has j) :=
  (isBasic_eq_ok_iff phase B).mpr ⟨hj, rfl⟩

/-- The mark of a column.  There are no marks behind the last column, and no basic columns. -/
theorem basic_getD (j : ℕ) : (tableau phase B).basic.getD j false = B.has j := by
  rw [List.getD_eq_getElem?_getD]
  by_cases hj : j < n + m
  · have hmark := fetch_eq_ok_iff.mp (isBasic_eq phase B hj)
    rw [hmark, Option.getD_some]
  · rw [List.getElem?_eq_none (by simpa [tableau] using hj), Option.getD_none, eq_comm,
      B.has_eq_false_iff]
    intro i hi
    exact hj (hi ▸ B.columns_lt i)

theorem basicColumn_eq (i : Fin m) : (tableau phase B).basicColumn i = .ok (B.columns i) := by
  rw [Tableau.basicColumn, fetch_eq_ok (tableau_rows_getElem? phase B i), ok_bind]
  rfl

/-! ## Costs and values -/

theorem dualValues_eq : (tableau phase B).dualValues = .ok (List.ofFn (B.duals phase)) := by
  rw [Tableau.dualValues, tableau_rowCount, range_eq_ofFn]
  refine mapM_ofFn fun k => ?_
  have hterms : (tableau phase B).rows.mapM
      (fun row => do return (row.cost, ← fetch row.inverse k.val)) =
      (.ok (List.ofFn fun i => (B.costs phase i, B.inverse i k)) : Except Fault _) := by
    refine mapM_ofFn fun i => ?_
    rw [basisRow, fetch_eq_ok (getElem?_ofFn_val (B.inverse i) k)]
    rfl
  rw [hterms, ok_bind, Exact.sumProducts_eq, List.map_ofFn, List.sum_ofFn]
  rfl

theorem relativeCost_eq {j : ℕ} (hj : j < n + m) :
    (tableau phase B).relativeCost j (List.ofFn (B.duals phase)) =
      .ok (B.reducedCost phase j) := by
  rw [Tableau.relativeCost, extendedColumn_eq phase B hj, ok_bind, Exact.dot_ofFn, ok_bind,
    Exact.sub_eq, phaseCost_eq, Basis.reducedCost]

theorem objectiveValue_eq : (tableau phase B).objectiveValue = .ok (B.objective phase) := by
  rw [Tableau.objectiveValue, tableau, List.map_ofFn, List.map_ofFn]
  exact Exact.dot_ofFn (B.costs phase) B.values

/-- The value of a variable is found in the row of its column, if it has one. -/
theorem find?_column_eq (j : ℕ) :
    (List.ofFn (basisRow phase B)).find? (·.column == j) = none ∧ (∀ i, B.columns i ≠ j) ∨
      ∃ i, B.columns i = j ∧
        (List.ofFn (basisRow phase B)).find? (·.column == j) = some (basisRow phase B i) := by
  cases hfind : (List.ofFn (basisRow phase B)).find? (·.column == j) with
  | none =>
    refine Or.inl ⟨rfl, fun i hi => ?_⟩
    rw [List.find?_eq_none] at hfind
    have hmem : basisRow phase B i ∈ List.ofFn (basisRow phase B) :=
      List.mem_ofFn.mpr ⟨i, rfl⟩
    exact hfind _ hmem (by simpa [basisRow] using hi)
  | some row =>
    obtain ⟨i, rfl⟩ := List.mem_ofFn.mp (List.mem_of_find?_eq_some hfind)
    have hcol := List.find?_some hfind
    exact Or.inr ⟨i, by simpa [basisRow] using hcol, rfl⟩

theorem basicSolution_eq : (tableau phase B).basicSolution = List.ofFn B.solution := by
  rw [Tableau.basicSolution, tableau_realColumnCount, range_eq_ofFn, List.map_ofFn]
  congr 1
  funext j
  rw [Basis.solution, Function.comp_apply, tableau]
  rcases find?_column_eq phase B j with ⟨hnone, hne⟩ | ⟨i, hi, hsome⟩
  · rw [hnone, B.spread_eq_zero _ hne]
    rfl
  · rw [hsome, B.spread_columns _ hi]
    rfl

/-! ## Making tableaux -/

/-- A row of the first tableau. -/
theorem basisRow_artificial (i : Fin m) :
    basisRow .one (Basis.artificial p) i =
      { column := n + i
        cost := 1
        inverse := (List.range m).map fun k => Tableau.unit i k
        value := p.values i } := by
  have hcost : (Basis.artificial p).costs .one i = 1 := by
    simp [Basis.costs, phaseCost]
  rw [basisRow, Basis.artificial_inverse, Basis.artificial_values, hcost, range_eq_ofFn,
    List.map_ofFn]
  congr 2
  funext k
  simp [Tableau.unit, one_apply, Fin.ext_iff, eq_comm]

/-- The marks of the first tableau. -/
theorem basic_artificial :
    (tableau .one (Basis.artificial p)).basic = List.replicate n false ++ List.replicate m true := by
  apply List.ext_getElem
  · simp [tableau]
  · intro k hk _
    have hlt : k < n + m := by simpa [tableau] using hk
    simp only [tableau, List.getElem_append, List.getElem_ofFn, List.length_replicate,
      List.getElem_replicate]
    split
    · rename_i hreal
      rw [Basis.has_eq_false_iff]
      intro i
      rw [Basis.artificial_columns]
      omega
    · rename_i hge
      rw [Basis.has_iff]
      refine ⟨⟨k - n, by omega⟩, ?_⟩
      rw [Basis.artificial_columns]
      exact Nat.add_sub_of_le (by omega)

theorem start_eq : p.start = .ok (tableau .one (Basis.artificial p)) := by
  have hrows : (p.rows.all fun row => row.length == (List.ofFn p.cost).length) = true := by
    rw [List.all_eq_true]
    intro row hrow
    obtain ⟨i, rfl⟩ := List.mem_ofFn.mp hrow
    simp
  have hvalues : ((List.ofFn p.values).all fun value => !Scalar.lt value Scalar.zero) = true := by
    rw [List.all_eq_true]
    intro value hvalue
    obtain ⟨i, rfl⟩ := List.mem_ofFn.mp hvalue
    simpa using p.values_nonneg i
  rw [start, Tableau.start, require_eq_ok (by simp [rows]), ok_bind, require_eq_ok hrows, ok_bind,
    require_eq_ok hvalues, ok_bind, pure_eq_ok, List.length_ofFn, List.length_ofFn,
    ← basic_artificial, zipIdx_ofFn, List.map_ofFn]
  congr 3
  funext i
  exact (basisRow_artificial i).symm

/-- What passes the checks of the first tableau is a problem in standard form. -/
theorem exists_form_of_start {matrix : List (List ℚ)} {b cost : List ℚ} {t : Tableau ℚ}
    (h : Tableau.start matrix b cost = .ok t) :
    ∃ form : StandardForm b.length cost.length, form.start = .ok t := by
  have hstart := h
  rw [Tableau.start] at h
  obtain ⟨_, hrows, h⟩ := bind_eq_ok.mp h
  obtain ⟨_, hlengths, h⟩ := bind_eq_ok.mp h
  obtain ⟨_, hvalues, -⟩ := bind_eq_ok.mp h
  obtain ⟨rows, rfl⟩ := exists_eq_ofFn (beq_iff_eq.mp (eq_true_of_require hrows))
  have hentries : ∀ i, ∃ row : Fin cost.length → ℚ, rows i = List.ofFn row := by
    intro i
    have hlength := List.all_eq_true.mp (eq_true_of_require hlengths) _ (List.mem_ofFn.mpr ⟨i, rfl⟩)
    exact exists_eq_ofFn (beq_iff_eq.mp hlength)
  choose entries hentries using hentries
  have hnonneg : ∀ i, 0 ≤ b.get i := by
    intro i
    have hvalue := List.all_eq_true.mp (eq_true_of_require hvalues) _ (b.get_mem i)
    simpa using hvalue
  refine ⟨⟨Matrix.of entries, b.get, cost.get, hnonneg⟩, ?_⟩
  have hmatrix : List.ofFn rows = List.ofFn fun i => List.ofFn (entries i) := by
    congr 1
    funext i
    exact hentries i
  rw [start, StandardForm.rows, List.ofFn_get, List.ofFn_get, ← hstart, hmatrix]
  rfl

theorem startPhaseTwo_eq : (tableau .one B).startPhaseTwo = .ok (tableau .two B) := by
  rw [Tableau.startPhaseTwo, require_eq_ok (by rw [tableau_phase]; rfl), ok_bind, pure_eq_ok]
  rw [tableau, tableau, List.map_ofFn]
  congr 3
  funext i
  have hcost : (tableau .two B).phaseCost (B.columns i) = B.costs .two i :=
    phaseCost_eq .two B (B.columns i)
  rw [basisRow, ← hcost]
  rfl

/-! ## The exchange -/

theorem dividedBy_eq (row : BasisRow ℚ) {divisor : ℚ} (h : divisor ≠ 0) :
    row.dividedBy divisor =
      .ok { row with
        inverse := row.inverse.map fun x => x / divisor
        value := row.value / divisor } := by
  rw [BasisRow.dividedBy, mapM_eq_ok fun x _ => Exact.div_eq x h, ok_bind,
    Exact.div_eq _ h, ok_bind, pure_eq_ok]

theorem minus_eq (row : BasisRow ℚ) (factor : ℚ) (other : BasisRow ℚ) :
    row.minus factor other =
      .ok { row with
        inverse := (row.inverse.zip other.inverse).map fun xy => xy.1 - factor * xy.2
        value := row.value - factor * other.value } := by
  have hinverse : (row.inverse.zip other.inverse).mapM
      (fun (x, y) => do Scalar.sub x (← Scalar.mul factor y)) =
      (.ok ((row.inverse.zip other.inverse).map fun xy => xy.1 - factor * xy.2) :
        Except Fault _) :=
    mapM_eq_ok fun _ _ => rfl
  rw [BasisRow.minus, hinverse]
  rfl

/-- What takes the place of the leaving row: that row divided by its coefficient, with column `j`. -/
def enteringRow (leaving : BasisRow ℚ) (divisor : ℚ) (j : ℕ) (cost : ℚ) : BasisRow ℚ where
  column := j
  cost
  inverse := leaving.inverse.map fun x => x / divisor
  value := leaving.value / divisor

/-- Row `i` after a pivot in row `r`.  A row in which the column has coefficient zero stays, and from
any other a multiple of the entering row is subtracted. -/
def pivotedRow (row : Fin m → BasisRow ℚ) (d : Fin m → ℚ) (r : Fin m) (entering : BasisRow ℚ)
    (i : Fin m) : BasisRow ℚ :=
  if i = r then entering
  else if d i = 0 then row i
  else { row i with
    inverse := ((row i).inverse.zip entering.inverse).map fun xy => xy.1 - d i * xy.2
    value := (row i).value - d i * entering.value }

/-- A pivot on any tableau, with any coefficients, one for each row.  The leaving column has to be one
of the columns. -/
theorem pivot_ofFn {t : Tableau ℚ} {row : Fin m → BasisRow ℚ} (hrows : t.rows = List.ofFn row)
    (d : Fin m → ℚ) {j : ℕ} {r : Fin m} (hj : t.isBasic j = .ok false) (hr : d r ≠ 0)
    (hleaving : (row r).column < t.columnCount) :
    t.pivot j r (List.ofFn d) = .ok { t with
      rows := List.ofFn (pivotedRow row d r (enteringRow (row r) (d r) j (t.phaseCost j)))
      basic := (t.basic.set (row r).column false).set j true } := by
  have hlt : j < t.columnCount := lt_length_of_fetch hj
  have hrow : t.rows[r.val]? = some (row r) := by
    rw [hrows, getElem?_ofFn_val]
  have hrest : ((List.ofFn d).drop t.rowCount).all Scalar.isZero = true := by
    rw [Tableau.rowCount, hrows, List.drop_of_length_le (by simp), List.all_nil]
  have hunmarked : update t.basic (row r).column (fun _ => .ok false) =
      .ok (t.basic.set (row r).column false) :=
    update_eq_ok (List.getElem?_eq_getElem hleaving) rfl
  rw [Tableau.pivot, require_eq_ok (by simpa using hlt), ok_bind, hj, ok_bind,
    require_eq_ok (by rfl), ok_bind, fetch_eq_ok (getElem?_ofFn_val d r), ok_bind,
    require_eq_ok (by simpa using hr), ok_bind, fetch_eq_ok hrow, ok_bind, dividedBy_eq _ hr, ok_bind, hrows, zipIdx_ofFn]
  refine bind_eq_ok.mpr ⟨_, mapM_ofFn (y := pivotedRow row d r
    (enteringRow (row r) (d r) j (t.phaseCost j))) fun i => ?_, ?_⟩
  · by_cases hi : i = r
    · simp only [hi, pivotedRow, if_true, pure_eq_ok]
      rfl
    · have hval : ¬ i.val = r.val := fun hv => hi (Fin.ext hv)
      by_cases hzero : d i = 0
      · simp [pivotedRow, hi, hval, hzero]
      · simp [pivotedRow, hi, hval, hzero, minus_eq, enteringRow]
  · rw [if_pos hrest, hunmarked, ok_bind, pure_eq_ok]

variable {B} {j : ℕ} {r : Fin m} (h : B.coefficients j r ≠ 0)

/-- The row of the leaving column after the exchange. -/
theorem basisRow_exchange_self :
    basisRow phase (B.exchange j r h) r =
      enteringRow (basisRow phase B r) (B.coefficients j r) j (p.phaseCost phase j) := by
  rw [basisRow, Basis.costs, Basis.exchange_columns, Basis.exchange_inverse,
    Basis.exchange_values, if_pos rfl, if_pos rfl, enteringRow, basisRow, List.map_ofFn]
  congr 2
  funext k
  simp [Basis.pivotRows]

/-- The rows after the exchange are those that a pivot makes. -/
theorem basisRow_exchange (i : Fin m) :
    basisRow phase (B.exchange j r h) i =
      pivotedRow (basisRow phase B) (B.coefficients j) r (basisRow phase (B.exchange j r h) r) i := by
  by_cases hi : i = r
  · rw [pivotedRow, if_pos hi, hi]
  · rw [pivotedRow, if_neg hi]
    by_cases hzero : B.coefficients j i = 0
    · rw [if_pos hzero]
      simp only [basisRow, Basis.costs, Basis.exchange_columns, Basis.exchange_inverse,
        Basis.exchange_values, if_neg hi, hzero, zero_mul, sub_zero]
      congr 2
      funext k
      simp [Basis.pivotRows, hi, hzero]
    · rw [if_neg hzero, basisRow_exchange_self]
      simp only [enteringRow, basisRow, List.map_ofFn, zip_ofFn, Basis.costs,
        Basis.exchange_columns, Basis.exchange_inverse, Basis.exchange_values, if_neg hi]
      congr 2
      funext k
      simp [Basis.pivotRows, hi]

theorem has_exchange (k : ℕ) :
    (B.exchange j r h).has k =
      if k = j then true else if k = B.columns r then false else B.has k := by
  split
  · rename_i hk
    rw [Basis.has_iff]
    exact ⟨r, by rw [Basis.exchange_columns, if_pos rfl, hk]⟩
  · rename_i hkj
    split
    · rename_i hkr
      rw [Basis.has_eq_false_iff]
      intro i hi
      rw [Basis.exchange_columns] at hi
      split at hi
      · exact hkj hi.symm
      · rename_i hir
        exact hir (B.columns_injective (hi.trans hkr))
    · rename_i hkr
      rw [Bool.eq_iff_iff, Basis.has_iff, Basis.has_iff]
      constructor
      · rintro ⟨i, hi⟩
        rw [Basis.exchange_columns] at hi
        split at hi
        · exact absurd hi.symm hkj
        · exact ⟨i, hi⟩
      · rintro ⟨i, hi⟩
        refine ⟨i, ?_⟩
        rw [Basis.exchange_columns, if_neg, hi]
        rintro rfl
        exact hkr hi.symm

/-- The marks of the columns after the exchange. -/
theorem set_basic_eq :
    ((tableau phase B).basic.set (B.columns r) false).set j true =
      (tableau phase (B.exchange j r h)).basic := by
  apply List.ext_getElem
  · simp [tableau]
  · intro k _ _
    simp only [tableau, List.getElem_set, List.getElem_ofFn, has_exchange]
    by_cases hk : k = j
    · rw [if_pos hk, if_pos hk.symm]
    · rw [if_neg hk, if_neg (Ne.symm hk)]
      by_cases hr : k = B.columns r
      · rw [if_pos hr, if_pos hr.symm]
      · rw [if_neg hr, if_neg (Ne.symm hr)]

/-- On the tableau of a basis a pivot is the exchange of a column. -/
theorem pivot_eq (hjm : j < n + m) (hj : B.has j = false) :
    (tableau phase B).pivot j r (List.ofFn (B.coefficients j)) =
      .ok (tableau phase (B.exchange j r h)) := by
  have hbasic : (tableau phase B).isBasic j = .ok false := by
    rw [isBasic_eq phase B hjm, hj]
  have hleaving : (basisRow phase B r).column < (tableau phase B).columnCount := by
    rw [tableau_columnCount]
    exact B.columns_lt r
  have hrows : (tableau phase B).rows = List.ofFn (basisRow phase B) := rfl
  have hmarks : ((tableau phase B).basic.set (basisRow phase B r).column false).set j true =
      (tableau phase (B.exchange j r h)).basic := set_basic_eq phase h
  rw [pivot_ofFn hrows _ hbasic h hleaving, hmarks, phaseCost_eq, ← basisRow_exchange_self phase h,
    ← funext (basisRow_exchange phase h)]
  rfl

end StandardForm

end LinearOpt
