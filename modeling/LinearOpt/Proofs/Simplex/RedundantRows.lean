import LinearOpt.Proofs.Simplex.Progress
import Mathlib.Data.List.Sort
import Mathlib.LinearAlgebra.Matrix.Rank

/-!
# Redundant rows

Driving out fixes the rows to be cleaned before it starts, and changes the basis while it goes
through them.  What it leaves are the rows where no column of the problem has an entry.

* `Basis.OwnRows`: an artificial variable is basic only in its own row, since none ever enters.
* `DrivenOut.solution_eq` and `objective_one_eq_zero`: the exchanges are made at value zero.
* `Basis.Proper.isCombination`: the inverse of the basis writes a redundant row as a combination of
  the others.  `Basis.Proper.rank_matrix` counts the other rows, which have the basic columns of the
  problem as unit vectors.
* `Dormant` says that the redundant rows are left alone.  It holds in every state of phase two.

`redundantRows_spec` is the result.
-/

namespace LinearOpt

open Matrix

namespace StandardForm

variable {m n : ℕ} {p : StandardForm m n}

/-! ## Artificial variables in their own rows -/

namespace Basis

/-- An artificial variable is basic only in its own row. -/
def OwnRows (B : p.Basis) : Prop := ∀ i : Fin m, n ≤ B.columns i → B.columns i = n + i

theorem artificial_ownRows : (artificial p).OwnRows := fun _ _ => rfl

/-- That stays so as long as no artificial column enters. -/
theorem OwnRows.of_columns_eq {B next : p.Basis} (hB : B.OwnRows)
    (h : ∀ {i : Fin m}, n ≤ next.columns i → next.columns i = B.columns i) : next.OwnRows := by
  intro i hi
  have hcolumns := h hi
  rw [hcolumns] at hi ⊢
  exact hB i hi

/-- The artificial column of a row is basic iff the row holds it. -/
theorem OwnRows.has_iff {B : p.Basis} (hB : B.OwnRows) (i : Fin m) :
    B.has (n + i) = true ↔ n ≤ B.columns i := by
  rw [Basis.has_iff]
  constructor
  · rintro ⟨k, hk⟩
    have hown := hB k (by omega)
    have hki : k = i := Fin.ext (by omega)
    subst hki
    omega
  · exact fun hi => ⟨i, hB i hi⟩

end Basis

theorem Step.ownRows {phase : Phase} {B next : p.Basis} (h : Step phase B next)
    (hB : B.OwnRows) : next.OwnRows :=
  hB.of_columns_eq h.columns_eq

/-! ## Driving out at value zero -/

/-- The basic solution stays: only columns at zero are exchanged. -/
theorem DrivenOut.solution_eq {B last : p.Basis} {rows remaining : List ℕ}
    (h : DrivenOut B rows remaining last) (hzero : ∀ i : Fin m, i.val ∈ rows → B.values i = 0) :
    last.solution = B.solution := by
  funext j
  rw [Basis.solution, Basis.solution, Basis.spread, Basis.spread, h.values_eq]
  refine Finset.sum_congr rfl fun i _ => ?_
  by_cases hi : i.val ∈ rows
  · rw [hzero i hi, ite_self, ite_self]
  · rw [h.kept i (Or.inl hi)]

/-- With all artificial variables at zero, so is their sum. -/
theorem objective_one_eq_zero {B : p.Basis} (hzero : ∀ i, n ≤ B.columns i → B.values i = 0) :
    B.objective .one = 0 := by
  rw [Basis.objective, dotProduct]
  refine Finset.sum_eq_zero fun i _ => ?_
  rw [Basis.costs, phaseCost]
  by_cases hi : B.columns i < n
  · rw [if_pos hi, zero_mul]
  · rw [hzero i (Nat.le_of_not_lt hi), mul_zero]

/-- The rows with artificial variables are determined by where they are. -/
theorem artificialRows_eq {phase : Phase} {B : p.Basis} {rows : List ℕ}
    (hsorted : rows.Pairwise (· < ·)) (hlt : ∀ k ∈ rows, k < m)
    (hrows : ∀ i : Fin m, i.val ∈ rows ↔ n ≤ B.columns i) :
    (tableau phase B).artificialRows = rows := by
  refine (pairwise_artificialRows phase B).eq_of_mem_iff hsorted fun k => ?_
  rw [mem_artificialRows]
  constructor
  · rintro ⟨i, rfl, hi⟩
    exact (hrows i).mpr hi
  · exact fun hk => ⟨⟨k, hlt k hk⟩, rfl, (hrows ⟨k, hlt k hk⟩).mp hk⟩

theorem artificialRows_congr {phase phase' : Phase} {B next : p.Basis}
    (h : ∀ i, n ≤ next.columns i ↔ n ≤ B.columns i) :
    (tableau phase' next).artificialRows = (tableau phase B).artificialRows := by
  refine artificialRows_eq (pairwise_artificialRows phase B) (fun k hk => ?_) fun i => ?_
  · obtain ⟨i, rfl, -⟩ := mem_artificialRows.mp hk
    exact i.isLt
  · rw [val_mem_artificialRows, h i]

theorem length_artificialRows (phase : Phase) (B : p.Basis) :
    (tableau phase B).artificialRows.length =
      (Finset.univ.filter fun i => ¬ B.columns i < n).card := by
  have hrows : (tableau phase B).artificialRows.toFinset =
      (Finset.univ.filter fun i => ¬ B.columns i < n).map Fin.valEmbedding := by
    ext k
    simp [mem_artificialRows, and_comm]
  rw [← List.toFinset_card_of_nodup ((pairwise_artificialRows phase B).imp fun hlt => hlt.ne),
    hrows, Finset.card_map]

/-! ## Redundant rows are combinations -/

/-- Row `r` of the matrix and of the values is a combination of the rows that are not in `rows`. -/
def IsCombination (p : StandardForm m n) (rows : List ℕ) (r : Fin m) : Prop :=
  ∃ factors : Fin m → ℚ, (∀ i : Fin m, i.val ∈ rows → factors i = 0) ∧
    p.matrix r = factors ᵥ* p.matrix ∧ p.values r = factors ⬝ᵥ p.values

namespace Basis

/-- The matrix of the problem with respect to the basis. -/
theorem inverse_mul_matrix (B : p.Basis) (i : Fin m) (j : Fin n) :
    (B.inverse * p.matrix) i j = B.coefficients j i := by
  rw [coefficients, column_of_lt]
  rfl

theorem Redundant.vecMul_matrix {B : p.Basis} {r : Fin m} (h : B.Redundant r) :
    B.inverse r ᵥ* p.matrix = 0 := by
  funext j
  have hentry := B.inverse_mul_matrix r j
  rw [h j j.isLt] at hentry
  exact hentry

/-- The column of the inverse at a row that holds its own artificial variable. -/
theorem inverse_of_own {B : p.Basis} {k : Fin m} (h : B.columns k = n + k) (i : Fin m) :
    B.inverse i k = Pi.single (M := fun _ => ℚ) k 1 i := by
  have hunit := B.coefficients_columns k
  rw [h, coefficients, column_artificial, mulVec_single_one] at hunit
  exact congrFun hunit i

/-- The row of the inverse reads: the redundant row minus a combination of the others is zero. -/
theorem Proper.isCombination {B : p.Basis} (hB : B.Proper) (hown : B.OwnRows) (phase : Phase)
    {r : Fin m} (hr : n ≤ B.columns r) :
    p.IsCombination (tableau phase B).artificialRows r := by
  refine ⟨Pi.single r 1 - B.inverse r, fun i hi => ?_, ?_, ?_⟩
  · rw [Pi.sub_apply, inverse_of_own (hown i (val_mem_artificialRows i |>.mp hi)), Pi.single_comm,
      sub_self]
  · rw [sub_vecMul, (hB.redundant r hr).vecMul_matrix, sub_zero, single_one_vecMul]
    rfl
  · have hvalue : B.inverse r ⬝ᵥ p.values = 0 := hB.values_eq_zero r hr
    rw [sub_dotProduct, hvalue, sub_zero, single_one_dotProduct]

/-- The basic columns of the problem are unit vectors in their rows. -/
theorem submatrix_eq_one (B : p.Basis) :
    (B.inverse * p.matrix).submatrix (fun i : {i // B.columns i < n} => i.val)
      (fun i : {i // B.columns i < n} => (⟨B.columns i, i.2⟩ : Fin n)) = 1 := by
  ext i k
  rw [submatrix_apply, inverse_mul_matrix, coefficients_columns, one_apply, Pi.single_apply]
  simp only [Subtype.ext_iff]

/-- With respect to the basis the redundant rows are zero, and the others are independent. -/
theorem Proper.rank_matrix {B : p.Basis} (hB : B.Proper) :
    p.matrix.rank = (Finset.univ.filter fun i => B.columns i < n).card := by
  have hrank : (B.inverse * p.matrix).rank = p.matrix.rank :=
    rank_mul_eq_right_of_isUnit_det _ _
      ((isUnit_iff_isUnit_det _).mp (.of_mul_eq_one _ B.inverse_mul))
  rw [← hrank]
  apply le_antisymm
  · refine rank_le_card_of_support_subset _ _ (Function.support_subset_iff'.mpr fun i hi => ?_)
    have hartificial : n ≤ B.columns i := by simpa using hi
    exact (hB.redundant i hartificial).vecMul_matrix
  · calc (Finset.univ.filter fun i => B.columns i < n).card
        = (1 : Matrix {i // B.columns i < n} {i // B.columns i < n} ℚ).rank := by
          rw [rank_one, Fintype.card_subtype]
      _ ≤ (B.inverse * p.matrix).rank := by
          rw [← B.submatrix_eq_one]
          exact rank_submatrix_le _ _ _

theorem Proper.rank_add_length {B : p.Basis} (hB : B.Proper) (phase : Phase) :
    p.matrix.rank + (tableau phase B).artificialRows.length = m := by
  rw [hB.rank_matrix, length_artificialRows, Finset.card_filter_add_card_filter_not,
    Finset.card_univ, Fintype.card_fin]

end Basis

/-! ## Phase two leaves them alone -/

/-- The given rows, and no others, hold an artificial variable: their own, at zero.  The ratio test
does not choose them for any column of the problem. -/
structure Dormant (n : ℕ) (rows : List ℕ) (t : Tableau ℚ) : Prop where
  artificialRows_eq : t.artificialRows = rows
  isBasic_iff : ∀ i, t.isBasic (n + i) = .ok true ↔ i ∈ rows
  row_eq : ∀ r ∈ rows, ∃ row, t.rows[r]? = some row ∧ row.column = n + r ∧ row.value = 0
  not_selected : ∀ j < n, ∀ column r, t.generateColumn j = .ok column →
    t.selectRow column = .ok (some r) → r ∉ rows

theorem Basis.Proper.dormant {B : p.Basis} (hB : B.Proper) (hown : B.OwnRows) (phase : Phase) :
    Dormant n (tableau phase B).artificialRows (tableau phase B) where
  artificialRows_eq := rfl
  isBasic_iff k := by
    rw [mem_artificialRows]
    constructor
    · intro hbasic
      obtain ⟨hk, hhas⟩ := (isBasic_eq_ok_iff phase B).mp hbasic
      have hkm : k < m := by omega
      exact ⟨⟨k, hkm⟩, rfl, (hown.has_iff ⟨k, hkm⟩).mp hhas⟩
    · rintro ⟨i, rfl, hi⟩
      rw [isBasic_eq phase B (by omega), (hown.has_iff i).mpr hi]
  row_eq k hk := by
    obtain ⟨i, rfl, hi⟩ := mem_artificialRows.mp hk
    exact ⟨_, tableau_rows_getElem? phase B i, hown i hi, hB.values_eq_zero i hi⟩
  not_selected j hj column k hcolumn hrow hk := by
    rw [generateColumn_eq phase B (by omega), Except.ok.injEq] at hcolumn
    subst hcolumn
    obtain ⟨i, rfl, hi⟩ := mem_artificialRows.mp hk
    have hrows : (tableau phase B).rows = List.ofFn (basisRow phase B) := rfl
    rcases selectRow_cases hrows (B.coefficients j) with ⟨hnone, -⟩ | ⟨r, hsome, hmin⟩
    · rw [hnone] at hrow
      cases hrow
    · -- the chosen row has a positive coefficient, and a redundant row has none
      rw [hsome, Except.ok.injEq, Option.some.injEq] at hrow
      obtain rfl := Fin.ext hrow
      exact hmin.pos.ne' (hB.redundant r hi j hj)

/-- A step from a proper basis keeps the artificial variables where they are. -/
theorem Step.artificialRows_eq {phase : Phase} {B next : p.Basis} (h : Step phase B next)
    (hB : B.Proper) : (tableau phase next).artificialRows = (tableau phase B).artificialRows := by
  refine artificialRows_congr fun i => ⟨fun hi => ?_, fun hi => ?_⟩
  · rwa [← h.columns_eq hi]
  · rwa [(h.redundant (hB.redundant i hi)).2.1]

/-- Every state of a phase that starts from a proper basis leaves the redundant rows alone. -/
theorem Basis.Proper.iterations_dormant {phase : Phase} {B : p.Basis} (hB : B.Proper)
    (hown : B.OwnRows) {es : List (ℕ × ℕ)} {s : Tableau ℚ}
    (h : Tableau.Iterations (tableau phase B) es s) :
    Dormant n (tableau phase B).artificialRows s := by
  obtain ⟨last, rfl, hrun⟩ := exists_steps h rfl
  obtain ⟨hlast, hlastown, hrows⟩ := Step.induct
    (P := fun B' : p.Basis => B'.Proper ∧ B'.OwnRows ∧
      (tableau phase B').artificialRows = (tableau phase B).artificialRows)
    hrun ⟨hB, hown, rfl⟩ fun B' next hstep h =>
      ⟨hstep.proper h.1, hstep.ownRows h.2.1, (hstep.artificialRows_eq h.1).trans h.2.2⟩
  rw [← hrows]
  exact hlast.dormant hlastown phase

/-! ## The end of phase one -/

/-- What driving out the artificial variables from the tableau `reached` has to achieve: nothing
changes but the basis, and the rows that are left are the redundant ones. -/
structure EndsFeasible (p : StandardForm m n) (rows : List ℕ) (reached last : Tableau ℚ) :
    Prop where
  basicSolution_eq : last.basicSolution = reached.basicSolution
  objectiveValue_before : reached.objectiveValue = .ok 0
  objectiveValue_after : last.objectiveValue = .ok 0
  sorted : rows.Pairwise (· < ·)
  artificialRows_eq : last.artificialRows = rows
  rank_add_length : p.matrix.rank + rows.length = m
  isCombination : ∀ k ∈ rows, ∃ r : Fin m, r.val = k ∧ p.IsCombination rows r

theorem endsFeasible_of_drivenOut {B last : p.Basis} {rows : List ℕ} (hB : B.Feasible)
    (hown : B.OwnRows) (hzero : ∀ i, n ≤ B.columns i → B.values i = 0)
    (h : DrivenOut B (tableau .one B).artificialRows rows last) :
    p.EndsFeasible rows (tableau .one B) (tableau .one last) ∧ last.Proper ∧ last.OwnRows ∧
      (tableau .two last).artificialRows = rows := by
  have hproper := h.proper hB hzero val_mem_artificialRows
  have hlastown : last.OwnRows := hown.of_columns_eq h.columns_eq
  have hsorted : rows.Pairwise (· < ·) := (pairwise_artificialRows .one B).sublist h.sublist
  have hrows : ∀ phase, (tableau phase last).artificialRows = rows := by
    intro phase
    refine artificialRows_eq hsorted (fun k hk => ?_) (h.mem_remaining_iff val_mem_artificialRows)
    obtain ⟨i, rfl, -⟩ := mem_artificialRows.mp (h.sublist.subset hk)
    exact i.isLt
  refine ⟨⟨?_, ?_, ?_, hsorted, hrows .one, ?_, fun k hk => ?_⟩, hproper, hlastown, hrows .two⟩
  · rw [basicSolution_eq, basicSolution_eq,
      h.solution_eq fun i hi => hzero i ((val_mem_artificialRows i).mp hi)]
  · rw [objectiveValue_eq, objective_one_eq_zero hzero]
  · rw [objectiveValue_eq, objective_one_eq_zero hproper.values_eq_zero]
  · rw [← hrows .one]
    exact hproper.rank_add_length .one
  · rw [← hrows .one] at hk ⊢
    obtain ⟨r, rfl, hr⟩ := mem_artificialRows.mp hk
    exact ⟨r, rfl, hproper.isCombination hlastown .one hr⟩

/-- When phase one finds a feasible basis, driving out has kept the basic solution and left exactly
the redundant rows, as many as the rank of the matrix is short of the number of rows; and in every
state of phase two these rows still hold their own artificial variables, at zero. -/
theorem redundantRows_spec {first last : Tableau ℚ} {verbosity : Verbosity} {fuel : ℕ}
    {rows : List ℕ} (hfirst : p.start = .ok first)
    (h : (first.phaseOne verbosity fuel).outcome = .ok (.feasible rows, last)) :
    (∃ reached, (first.iterate verbosity fuel 0).outcome = .ok (.optimal, reached) ∧
      reached.driveOut reached.artificialRows = .ok (last, rows) ∧
      p.EndsFeasible rows reached last) ∧
    ∃ second, last.startPhaseTwo = .ok second ∧
      ∀ es s, Tableau.Iterations second es s → Dormant n rows s := by
  rw [start_eq, Except.ok.injEq] at hfirst
  subst hfirst
  rcases Tableau.phaseOne_outcome_cases h with ⟨hfeasibility, -⟩ | ⟨hfeasibility, -⟩ |
    ⟨reached, redundant, hfeasibility, hrun, hpositive, hdriven⟩
  · cases hfeasibility
  · cases hfeasibility
  · cases hfeasibility
    obtain ⟨es, hes, -⟩ := Tableau.exists_iterations hrun
    obtain ⟨B, rfl, hsteps⟩ := exists_steps hes rfl
    have hB : B.Feasible := Step.induct hsteps Basis.artificial_feasible fun _ _ h => h.feasible
    have hown : B.OwnRows := Step.induct hsteps Basis.artificial_ownRows fun _ _ h => h.ownRows
    have hzero := values_eq_zero_of_hasPositiveArtificial hB hpositive
    obtain ⟨driven, remaining, hlast, hout⟩ := exists_drivenOut .one hzero
    rw [hdriven, Except.ok.injEq, Prod.mk.injEq] at hlast
    obtain ⟨rfl, rfl⟩ := hlast
    obtain ⟨hends, hproper, hdrivenown, hrows⟩ := endsFeasible_of_drivenOut hB hown hzero hout
    refine ⟨⟨_, hrun, hdriven, hends⟩, _, startPhaseTwo_eq driven, fun es s hs => ?_⟩
    rw [← hrows]
    exact hproper.iterations_dormant hdrivenown hs

/-! A problem where the second row is twice the first one and the third row is empty. -/

namespace Doubled

def form : StandardForm 3 2 where
  matrix := !![1, 1; 2, 2; 0, 0]
  values := ![1, 2, 0]
  cost := ![1, 0]
  values_nonneg := by decide

def first : Tableau ℚ where
  phase := .one
  matrix := [[1, 1], [2, 2], [0, 0]]
  cost := [1, 0]
  rows := [⟨2, 1, [1, 0, 0], 1⟩, ⟨3, 1, [0, 1, 0], 2⟩, ⟨4, 1, [0, 0, 1], 0⟩]
  basic := [false, false, true, true, true]

def last : Tableau ℚ :=
  { first with
    rows := [⟨0, 0, [1, 0, 0], 1⟩, ⟨3, 1, [-2, 1, 0], 0⟩, ⟨4, 1, [0, 0, 1], 0⟩]
    basic := [true, false, false, true, true] }

end Doubled

theorem redundantRows_spec_doubled :
    Doubled.form.start = .ok Doubled.first ∧
      (Doubled.first.phaseOne .off 2).outcome = .ok (.feasible [1, 2], Doubled.last) ∧
      (∃ reached, (Doubled.first.iterate .off 2 0).outcome = .ok (.optimal, reached) ∧
        reached.driveOut reached.artificialRows = .ok (Doubled.last, [1, 2]) ∧
        Doubled.form.EndsFeasible [1, 2] reached Doubled.last) ∧
      ∃ second, Doubled.last.startPhaseTwo = .ok second ∧
        ∀ es s, Tableau.Iterations second es s → Dormant 2 [1, 2] s := by
  have hfirst : Doubled.form.start = .ok Doubled.first := by decide +kernel
  have hfeasible : (Doubled.first.phaseOne .off 2).outcome =
      .ok (.feasible [1, 2], Doubled.last) := by
    decide +kernel
  exact ⟨hfirst, hfeasible, redundantRows_spec hfirst hfeasible⟩

end StandardForm

end LinearOpt
