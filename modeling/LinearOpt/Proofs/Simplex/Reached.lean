import LinearOpt.Proofs.Simplex.Tableau

/-!
# The states that pivots can reach

A tableau keeps the same basis in several forms: the columns of the rows, a mark on each column, the
inverse of the basis matrix, the values and the costs.  A pivot updates each by hand.
`Consistent` says that they agree.

`Reached` is every history: pivots on any column that is not basic, artificial ones included, and on
any row where the entry is not zero, and a change of phase, which a tableau allows once.
`Reached.exists_basis` is the invariant: a reached state is the tableau of a basis.
`reached_consistent` is the result.
-/

namespace LinearOpt

open Matrix

namespace StandardForm

variable {m n : ℕ} (p : StandardForm m n)

/-- The states reached from the first tableau by pivots and by starting phase two. -/
inductive Reached : Tableau ℚ → Prop where
  | start {t : Tableau ℚ} (h : p.start = .ok t) : Reached t
  | pivot {t next : Tableau ℚ} {j r : ℕ} {column : List ℚ} {x : ℚ} (h : Reached t)
      (hbasic : t.isBasic j = .ok false) (hcolumn : t.generateColumn j = .ok column)
      (hx : column[r]? = some x) (hne : x ≠ 0) (hnext : t.pivot j r column = .ok next) :
      Reached next
  | startPhaseTwo {t next : Tableau ℚ} (h : Reached t) (hnext : t.startPhaseTwo = .ok next) :
      Reached next

/-- All parts of a tableau describe the basis whose columns its rows name. -/
structure Consistent (t : Tableau ℚ) (row : Fin m → BasisRow ℚ)
    (inverse : Matrix (Fin m) (Fin m) ℚ) : Prop where
  rows_eq : t.rows = List.ofFn row
  inverse_eq : ∀ i, (row i).inverse = List.ofFn (inverse i)
  inverse_mul : inverse * p.basisMatrix (fun i => (row i).column) = 1
  mul_inverse : p.basisMatrix (fun i => (row i).column) * inverse = 1
  value_eq : ∀ i, (row i).value = (inverse *ᵥ p.values) i
  nodup : (t.rows.map (·.column)).Nodup
  basic_length : t.basic.length = n + m
  basic_iff : ∀ k, t.basic[k]? = some true ↔ k ∈ t.rows.map (·.column)
  cost_eq : ∀ i, (row i).cost = p.phaseCost t.phase (row i).column
  /-- A basic column is a unit vector with respect to the basis. -/
  generateColumn_eq : ∀ i, t.generateColumn (row i).column = .ok (List.ofFn (Pi.single i 1))
  /-- A basic column has relative cost zero. -/
  relativeCost_eq : ∃ duals, t.dualValues = .ok duals ∧
    ∀ i, t.relativeCost (row i).column duals = .ok 0

/-- A change of the basis that is called for with a column that is not basic, and with a row where
that column has a nonzero entry, is made. -/
def PivotsSucceed (t : Tableau ℚ) : Prop :=
  ∀ j, t.isBasic j = .ok false →
    ∃ column, t.generateColumn j = .ok column ∧ column.length = m ∧
      ∀ r x, column[r]? = some x → x ≠ 0 → ∃ next, t.pivot j r column = .ok next

variable {p}

/-- Pivots and the change of phase lead from tableaux of bases to tableaux of bases. -/
theorem Reached.exists_basis {t : Tableau ℚ} (h : p.Reached t) :
    ∃ phase, ∃ B : p.Basis, t = tableau phase B := by
  induction h with
  | start h =>
    rw [start_eq, Except.ok.injEq] at h
    exact ⟨.one, Basis.artificial p, h.symm⟩
  | @pivot t next j r column x h hbasic hcolumn hx hne hnext ih =>
    obtain ⟨phase, B, rfl⟩ := ih
    obtain ⟨hj, hhas⟩ := (isBasic_eq_ok_iff _ _).mp hbasic
    rw [generateColumn_eq phase B hj, Except.ok.injEq] at hcolumn
    subst hcolumn
    obtain ⟨i, rfl, rfl⟩ := getElem?_ofFn_eq_some_iff.mp hx
    rw [pivot_eq phase hne hj hhas, Except.ok.injEq] at hnext
    exact ⟨phase, B.exchange j i hne, hnext.symm⟩
  | startPhaseTwo h hnext ih =>
    obtain ⟨phase, B, rfl⟩ := ih
    cases phase with
    | one =>
      rw [startPhaseTwo_eq, Except.ok.injEq] at hnext
      exact ⟨.two, B, hnext.symm⟩
    | two => cases hnext

theorem tableau_consistent (phase : Phase) (B : p.Basis) :
    p.Consistent (tableau phase B) (basisRow phase B) B.inverse where
  rows_eq := rfl
  inverse_eq _ := rfl
  inverse_mul := B.inverse_mul
  mul_inverse := B.mul_inverse
  value_eq _ := rfl
  nodup := by
    rw [tableau, List.map_ofFn]
    exact List.nodup_ofFn.mpr B.columns_injective
  basic_length := by rw [tableau, List.length_ofFn]
  basic_iff k := by
    rw [tableau, List.getElem?_ofFn, List.map_ofFn, List.mem_ofFn]
    by_cases hk : k < n + m
    · rw [dif_pos hk, Option.some.injEq, B.has_iff]
      rfl
    · rw [dif_neg hk]
      simp only [reduceCtorEq, false_iff]
      rintro ⟨i, rfl⟩
      exact hk (B.columns_lt i)
  cost_eq _ := rfl
  generateColumn_eq i := by
    rw [← B.coefficients_columns i]
    exact StandardForm.generateColumn_eq phase B (B.columns_lt i)
  relativeCost_eq := by
    refine ⟨_, dualValues_eq phase B, fun i => ?_⟩
    rw [← B.reducedCost_columns phase i]
    exact StandardForm.relativeCost_eq phase B (B.columns_lt i)

theorem tableau_pivotsSucceed (phase : Phase) (B : p.Basis) :
    PivotsSucceed (m := m) (tableau phase B) := by
  intro j hbasic
  obtain ⟨hj, hhas⟩ := (isBasic_eq_ok_iff _ _).mp hbasic
  refine ⟨_, generateColumn_eq phase B hj, by simp, fun r x hx hne => ?_⟩
  obtain ⟨i, rfl, rfl⟩ := getElem?_ofFn_eq_some_iff.mp hx
  exact ⟨_, pivot_eq phase hne hj hhas⟩

/-- In every reached state the parts of the tableau agree, and every further pivot on a nonzero
entry of a column that is not basic can be made. -/
theorem reached_consistent {t : Tableau ℚ} (h : p.Reached t) :
    (∃ row inverse, p.Consistent t row inverse) ∧ PivotsSucceed (m := m) t ∧
      (∃ first, p.start = .ok first) ∧
      (t.phase = .one → ∃ next, t.startPhaseTwo = .ok next) := by
  obtain ⟨phase, B, rfl⟩ := h.exists_basis
  refine ⟨⟨_, _, tableau_consistent phase B⟩, tableau_pivotsSucceed phase B, ⟨_, start_eq⟩, ?_⟩
  intro hphase
  rw [tableau_phase] at hphase
  subst hphase
  exact ⟨_, startPhaseTwo_eq B⟩

/-! A history with an infeasible state: column 0 enters in row 0, where the ratio test would choose
row 1, and the artificial column that left comes back in the other row in phase two. -/

namespace Crossed

def form : StandardForm 2 2 where
  matrix := !![1, 2; 3, 4]
  values := ![5, 6]
  cost := ![7, 8]
  values_nonneg := by decide

def first : Tableau ℚ where
  phase := .one
  matrix := [[1, 2], [3, 4]]
  cost := [7, 8]
  rows := [⟨2, 1, [1, 0], 5⟩, ⟨3, 1, [0, 1], 6⟩]
  basic := [false, false, true, true]

def second : Tableau ℚ :=
  { first with
    rows := [⟨0, 0, [1, 0], 5⟩, ⟨3, 1, [-3, 1], -9⟩]
    basic := [true, false, false, true] }

def third : Tableau ℚ :=
  { second with
    phase := .two
    rows := [⟨0, 7, [1, 0], 5⟩, ⟨3, 0, [-3, 1], -9⟩] }

def last : Tableau ℚ :=
  { third with
    rows := [⟨0, 7, [0, 1 / 3], 2⟩, ⟨2, 0, [1, -1 / 3], 3⟩]
    basic := [true, false, true, false] }

theorem reached_last : form.Reached last := by
  have hfirst : form.Reached first := .start (by decide +kernel)
  have hcolumn : first.generateColumn 0 = .ok [1, 3] := by decide +kernel
  have hsecond : form.Reached second :=
    .pivot (r := 0) (x := 1) hfirst (by decide +kernel) hcolumn rfl (by decide)
      (by decide +kernel)
  have hthird : form.Reached third := .startPhaseTwo hsecond (by decide +kernel)
  have hcolumn : third.generateColumn 2 = .ok [1, -3] := by decide +kernel
  exact .pivot (r := 1) (x := -3) hthird (by decide +kernel) hcolumn rfl (by decide)
    (by decide +kernel)

end Crossed

theorem reached_consistent_crossed :
    Crossed.form.Reached Crossed.last ∧
      (∃ row inverse, Crossed.form.Consistent Crossed.last row inverse) ∧
      PivotsSucceed (m := 2) Crossed.last ∧ (∃ first, Crossed.form.start = .ok first) ∧
      (Crossed.last.phase = .one → ∃ next, Crossed.last.startPhaseTwo = .ok next) :=
  ⟨Crossed.reached_last, reached_consistent Crossed.reached_last⟩

end StandardForm

end LinearOpt
