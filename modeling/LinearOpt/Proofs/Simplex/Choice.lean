import LinearOpt.Proofs.Simplex.Tableau
import Mathlib.Tactic.Linarith

/-!
# The choice of a pivot

What `selectColumn` and `selectRow` choose.  `selectColumn_eq` gives the column by `List.find?`: the
first one that is not basic and has a negative reduced cost, with the two cases in
`selectColumn_cases`.  `IsFirstMinimum` says what a chosen row is, and `selectRow_cases` is the ratio
test on an arbitrary tableau: no row is chosen iff no coefficient is positive, and a chosen row is the
first minimum.  `nonneg_exchange_iff` is what the least ratio is good for.

`nextStep_cases` puts the two together.  It is the case analysis of one iteration.
-/

namespace LinearOpt

namespace StandardForm

variable {m n : ℕ}

/-! ## The ratio test -/

/-- Row `r` has a positive coefficient and the least ratio, and no row before it has the same. -/
structure IsFirstMinimum (x d : Fin m → ℚ) (r : Fin m) : Prop where
  pos : 0 < d r
  le : ∀ i, 0 < d i → x r / d r ≤ x i / d i
  lt : ∀ i < r, 0 < d i → x r / d r < x i / d i

/-- What the ratio test remembers of the rows it has seen. -/
def Remembers (x d : Fin m → ℚ) : Option (ℕ × ℚ) → Prop
  | none => ∀ i, d i ≤ 0
  | some (k, ratio) => ∃ r : Fin m, k = r ∧ ratio = x r / d r ∧ IsFirstMinimum x d r

/-- A last row that is no candidate, or not better than the best one before it, changes nothing. -/
theorem IsFirstMinimum.castSucc {x d : Fin (m + 1) → ℚ} {r : Fin m}
    (h : IsFirstMinimum (fun i => x i.castSucc) (fun i => d i.castSucc) r)
    (hlast : 0 < d (Fin.last m) →
      x r.castSucc / d r.castSucc ≤ x (Fin.last m) / d (Fin.last m)) :
    IsFirstMinimum x d r.castSucc where
  pos := h.pos
  le i := by
    induction i using Fin.lastCases with
    | last => exact hlast
    | cast i => exact h.le i
  lt i := by
    induction i using Fin.lastCases with
    | last => exact fun hlt => absurd hlt (not_lt_of_gt r.castSucc_lt_last)
    | cast i => exact fun hlt => h.lt i hlt

/-- A last row that is better than all rows before it. -/
theorem isFirstMinimum_last {x d : Fin (m + 1) → ℚ} (hpos : 0 < d (Fin.last m))
    (hlt : ∀ i : Fin m, 0 < d i.castSucc →
      x (Fin.last m) / d (Fin.last m) < x i.castSucc / d i.castSucc) :
    IsFirstMinimum x d (Fin.last m) where
  pos := hpos
  le i := by
    induction i using Fin.lastCases with
    | last => exact fun _ => le_rfl
    | cast i => exact fun hi => (hlt i hi).le
  lt i := by
    induction i using Fin.lastCases with
    | last => exact fun h => absurd h (lt_irrefl _)
    | cast i => exact fun _ => hlt i

/-- One more row. -/
theorem betterRatio_remembers {x d : Fin (m + 1) → ℚ} {best : Option (ℕ × ℚ)}
    (h : Remembers (fun i => x i.castSucc) (fun i => d i.castSucc) best) :
    ∃ next, Tableau.betterRatio best m (x (Fin.last m)) (d (Fin.last m)) = .ok next ∧
      Remembers x d next := by
  rw [Tableau.betterRatio]
  by_cases hpos : 0 < d (Fin.last m)
  · rw [Exact.lt_eq, Exact.zero_eq, if_pos (decide_eq_true hpos), Exact.div_eq _ hpos.ne', ok_bind]
    cases best with
    | none =>
      refine ⟨_, rfl, Fin.last m, rfl, rfl, isFirstMinimum_last hpos fun i hi => ?_⟩
      exact absurd hi (not_lt_of_ge (h i))
    | some pair =>
      obtain ⟨k, least⟩ := pair
      obtain ⟨r, rfl, rfl, hr⟩ := h
      by_cases hlt : x (Fin.last m) / d (Fin.last m) < x r.castSucc / d r.castSucc
      · refine ⟨some (m, x (Fin.last m) / d (Fin.last m)), by simp [hlt], Fin.last m, rfl, rfl, ?_⟩
        exact isFirstMinimum_last hpos fun i hi => hlt.trans_le (hr.le i hi)
      · refine ⟨some (r, x r.castSucc / d r.castSucc), by simp [hlt], r.castSucc, rfl, rfl, ?_⟩
        exact hr.castSucc fun _ => le_of_not_gt hlt
  · rw [Exact.lt_eq, Exact.zero_eq, if_neg (by simpa using hpos), pure_eq_ok]
    refine ⟨best, rfl, ?_⟩
    cases best with
    | none =>
      intro i
      induction i using Fin.lastCases with
      | last => exact le_of_not_gt hpos
      | cast i => exact h i
    | some pair =>
      obtain ⟨k, least⟩ := pair
      obtain ⟨r, rfl, rfl, hr⟩ := h
      exact ⟨r.castSucc, rfl, rfl, hr.castSucc fun hlast => absurd hlast hpos⟩

/-- The loop over the rows.  The induction adds a last row, since rows are seen in order. -/
theorem foldlM_betterRatio (row : Fin m → BasisRow ℚ) (d : Fin m → ℚ) :
    ∃ best, (List.ofFn fun i => ((row i, d i), i.val)).foldlM
        (fun best ((row, coefficient), i) => Tableau.betterRatio best i row.value coefficient)
        none = .ok best ∧
      Remembers (fun i => (row i).value) d best := by
  induction m with
  | zero => exact ⟨none, rfl, fun i => i.elim0⟩
  | succ m ih =>
    obtain ⟨best, hbest, hrem⟩ := ih (fun i => row i.castSucc) (fun i => d i.castSucc)
    obtain ⟨next, hnext, hrem'⟩ := betterRatio_remembers (x := fun i => (row i).value) hrem
    refine ⟨next, ?_, hrem'⟩
    rw [List.ofFn_succ', List.concat_eq_append, List.foldlM_append]
    exact bind_eq_ok.mpr ⟨best, hbest, bind_eq_ok.mpr ⟨next, hnext, rfl⟩⟩

/-- The ratio test finds no row iff no coefficient is positive, and else the first minimum. -/
theorem selectRow_cases {t : Tableau ℚ} {row : Fin m → BasisRow ℚ} (hrows : t.rows = List.ofFn row)
    (d : Fin m → ℚ) :
    t.selectRow (List.ofFn d) = .ok none ∧ (∀ i, d i ≤ 0) ∨
      ∃ r : Fin m, t.selectRow (List.ofFn d) = .ok (some r.val) ∧
        IsFirstMinimum (fun i => (row i).value) d r := by
  obtain ⟨best, hbest, hrem⟩ := foldlM_betterRatio row d
  have hselect : t.selectRow (List.ofFn d) = .ok (best.map fun (i, _) => i) := by
    rw [Tableau.selectRow, Tableau.rowCount, hrows, require_eq_ok (by simp), ok_bind, zip_ofFn,
      zipIdx_ofFn]
    exact bind_eq_ok.mpr ⟨best, hbest, rfl⟩
  cases best with
  | none => exact Or.inl ⟨hselect, hrem⟩
  | some pair =>
    obtain ⟨k, ratio⟩ := pair
    obtain ⟨r, rfl, rfl, hr⟩ := hrem
    exact Or.inr ⟨r, hselect, hr⟩

/-- The row of least ratio is the one to pivot in.  After a pivot in any other row with a positive
coefficient, a row of smaller ratio has a negative value. -/
theorem nonneg_exchange_iff {x d : Fin m → ℚ} (hx : ∀ i, 0 ≤ x i) {r : Fin m} (hr : 0 < d r) :
    (∀ i, 0 ≤ if i = r then x r / d r else x i - d i * (x r / d r)) ↔
      ∀ i, 0 < d i → x r / d r ≤ x i / d i := by
  have hratio : 0 ≤ x r / d r := div_nonneg (hx r) hr.le
  constructor
  · intro hnonneg i hi
    by_cases hir : i = r
    · rw [hir]
    · have hvalue := hnonneg i
      rw [if_neg hir, sub_nonneg, mul_comm] at hvalue
      exact (le_div_iff₀ hi).mpr hvalue
  · intro hleast i
    split
    · exact hratio
    · rw [sub_nonneg]
      rcases le_or_gt (d i) 0 with hneg | hpos
      · exact (mul_nonpos_of_nonpos_of_nonneg hneg hratio).trans (hx i)
      · rw [mul_comm]
        exact (le_div_iff₀ hpos).mp (hleast i hpos)

/-! ## The first column -/

variable {p : StandardForm m n} (phase : Phase) (B : p.Basis)

/-- Column `j` is not basic and lowers the cost. -/
noncomputable def profitable (j : ℕ) : Bool :=
  !B.has j && decide (B.reducedCost phase j < 0)

theorem firstNegative_eq (columns : List ℕ) (hcolumns : ∀ j ∈ columns, j < n + m) :
    (tableau phase B).firstNegative (List.ofFn (B.duals phase)) columns =
      .ok ((columns.find? (profitable phase B)).map fun j => (j, B.reducedCost phase j)) := by
  induction columns with
  | nil => rfl
  | cons j columns ih =>
    have hj := hcolumns j (by simp)
    have ih := ih fun k hk => hcolumns k (by simp [hk])
    rw [Tableau.firstNegative, isBasic_eq phase B hj, ok_bind, relativeCost_eq phase B hj, ok_bind,
      List.find?_cons, profitable, ih]
    cases B.has j with
    | true => simp
    | false => by_cases hneg : B.reducedCost phase j < 0 <;> simp [hneg]

theorem selectColumn_eq :
    (tableau phase B).selectColumn =
      .ok (((List.range n).find? (profitable phase B)).map fun j =>
        (j, B.reducedCost phase j)) := by
  rw [Tableau.selectColumn, dualValues_eq, ok_bind, tableau_realColumnCount]
  refine firstNegative_eq phase B _ fun j hj => ?_
  have := List.mem_range.mp hj
  omega

/-- No column lowers the cost, or the one that is chosen does. -/
theorem selectColumn_cases :
    ((tableau phase B).selectColumn = .ok none ∧
        ∀ j < n, B.has j = false → 0 ≤ B.reducedCost phase j) ∨
      ∃ j < n, B.has j = false ∧ B.reducedCost phase j < 0 ∧
        (tableau phase B).selectColumn = .ok (some (j, B.reducedCost phase j)) := by
  rw [selectColumn_eq]
  cases hfind : (List.range n).find? (profitable phase B) with
  | none =>
    refine Or.inl ⟨rfl, fun j hj hbasic => ?_⟩
    have hnot := List.find?_eq_none.mp hfind j (List.mem_range.mpr hj)
    simpa [profitable, hbasic] using hnot
  | some j =>
    have hj : j < n := List.mem_range.mp (List.mem_of_find?_eq_some hfind)
    have hprofit := List.find?_some hfind
    simp only [profitable, Bool.and_eq_true, Bool.not_eq_true', decide_eq_true_eq] at hprofit
    exact Or.inr ⟨j, hj, hprofit.1, hprofit.2, rfl⟩

/-! ## One iteration -/

/-- The three ways an iteration can go on. -/
theorem nextStep_cases :
    ((tableau phase B).nextStep = .ok .optimal ∧
        ∀ j < n, B.has j = false → 0 ≤ B.reducedCost phase j) ∨
      ∃ j < n, B.has j = false ∧ B.reducedCost phase j < 0 ∧
        ((tableau phase B).nextStep = .ok (.unbounded j (B.reducedCost phase j)) ∧
            (∀ i, B.coefficients j i ≤ 0) ∨
          ∃ r : Fin m, IsFirstMinimum B.values (B.coefficients j) r ∧
            (tableau phase B).nextStep = .ok (.pivot j (B.reducedCost phase j) r
              (List.ofFn (B.coefficients j)))) := by
  unfold Tableau.nextStep
  rcases selectColumn_cases phase B with ⟨hcolumn, h⟩ | ⟨j, hj, hbasic, hcost, hcolumn⟩
  · rw [hcolumn]
    exact Or.inl ⟨rfl, h⟩
  · refine Or.inr ⟨j, hj, hbasic, hcost, ?_⟩
    rw [hcolumn, ok_bind]
    dsimp only
    rw [generateColumn_eq phase B (by omega), ok_bind]
    have hrows : (tableau phase B).rows = List.ofFn (basisRow phase B) := rfl
    rcases selectRow_cases hrows (B.coefficients j) with ⟨hrow, hd⟩ | ⟨r, hrow, hmin⟩
    · rw [hrow]
      exact Or.inl ⟨rfl, hd⟩
    · rw [hrow]
      exact Or.inr ⟨r, hmin, rfl⟩

end StandardForm

end LinearOpt
