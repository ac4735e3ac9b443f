import LinearOpt.Proofs.Simplex.Built
import LinearOpt.Proofs.Simplex.Progress
import Mathlib.Order.Bounds.Basic

/-!
# The ratio test

The ratio test needs no basis.  On any tableau, and with any coefficients, it finds the first of the
rows that attain the least ratio (`selectRow_eq_some_iff`), and no row iff no coefficient is positive
(`selectRow_eq_none_iff`).

The least ratio is also what a pivot needs.  `value_pivotedRow` gives the value of every row after a
pivot, the chosen one and the others, from which `exists_pivot` follows: no basic variable has become
negative iff the pivot was made in a row that attains the least ratio.  For a pivot to succeed the
parts of the tableau have to fit together, as they do in every tableau that can be built.

`ratioTest_exact` states both, and `tied` is a tableau with two rows of least ratio.
-/

namespace LinearOpt

open StandardForm (HasRatio IsFirstMinimum hasRatio_ofFn nonneg_exchange_iff pivot_ofFn pivotedRow
  enteringRow selectRow_cases)

/-! ## The least ratio -/

/-- Row `r` has a positive coefficient. -/
def IsCandidate (column : List ℚ) (r : ℕ) : Prop := ∃ x, column[r]? = some x ∧ 0 < x

namespace Tableau

/-- Row `r` has a positive coefficient, and no other such row has a smaller ratio. -/
def AttainsLeast (t : Tableau ℚ) (column : List ℚ) (r : ℕ) : Prop :=
  IsCandidate column r ∧ ∃ least, HasRatio t r column least ∧
    ∀ i ratio, IsCandidate column i → HasRatio t i column ratio → least ≤ ratio

section

variable {m : ℕ} {t : Tableau ℚ} {row : Fin m → BasisRow ℚ} {d : Fin m → ℚ}

theorem isCandidate_ofFn {r : ℕ} :
    IsCandidate (List.ofFn d) r ↔ ∃ i : Fin m, i.val = r ∧ 0 < d i := by
  constructor
  · intro h
    obtain ⟨x, hx, hpos⟩ := h
    obtain ⟨i, hi, rfl⟩ := getElem?_ofFn_eq_some_iff.mp hx
    exact ⟨i, hi, hpos⟩
  · intro h
    obtain ⟨i, rfl, hpos⟩ := h
    exact ⟨d i, getElem?_ofFn_val d i, hpos⟩

theorem attainsLeast_ofFn (hrows : t.rows = List.ofFn row) {r : Fin m} :
    t.AttainsLeast (List.ofFn d) r ↔
      0 < d r ∧ ∀ i, 0 < d i → (row r).value / d r ≤ (row i).value / d i := by
  constructor
  · intro h
    obtain ⟨hcandidate, least, hleast, hle⟩ := h
    obtain ⟨k, hk, hpos⟩ := isCandidate_ofFn.mp hcandidate
    obtain rfl := Fin.ext hk
    rw [hasRatio_ofFn hrows] at hleast
    subst hleast
    refine ⟨hpos, fun i hi => ?_⟩
    exact hle i _ (isCandidate_ofFn.mpr ⟨i, rfl, hi⟩) ((hasRatio_ofFn hrows).mpr rfl)
  · intro h
    obtain ⟨hpos, hle⟩ := h
    refine ⟨isCandidate_ofFn.mpr ⟨r, rfl, hpos⟩, _, (hasRatio_ofFn hrows).mpr rfl, ?_⟩
    intro i ratio hi hratio
    obtain ⟨k, rfl, hk⟩ := isCandidate_ofFn.mp hi
    rw [hasRatio_ofFn hrows] at hratio
    rw [hratio]
    exact hle k hk

/-- No row before a first minimum has the same ratio, and so none attains the least one. -/
theorem isLeast_of_isFirstMinimum (hrows : t.rows = List.ofFn row) {r : Fin m}
    (h : IsFirstMinimum (fun i => (row i).value) d r) :
    IsLeast {i | t.AttainsLeast (List.ofFn d) i} r := by
  constructor
  · exact (attainsLeast_ofFn hrows).mpr ⟨h.pos, h.le⟩
  · intro i hi
    obtain ⟨k, rfl, -⟩ := isCandidate_ofFn.mp hi.1
    obtain ⟨hpos, hle⟩ := (attainsLeast_ofFn hrows).mp hi
    by_contra hlt
    exact absurd (hle r h.pos) (not_le_of_gt (h.lt k (Fin.lt_def.mpr (by omega)) hpos))

end

/-! ## The choice -/

theorem exists_rows (t : Tableau ℚ) :
    ∃ row : Fin t.rowCount → BasisRow ℚ, t.rows = List.ofFn row :=
  exists_eq_ofFn rfl

section

variable {t : Tableau ℚ} {column : List ℚ}

/-- The ratio test on lists.  It always comes to a choice. -/
theorem selectRow_isLeast (h : column.length = t.rowCount) :
    t.selectRow column = .ok none ∧ (∀ x ∈ column, x ≤ 0) ∨
      ∃ r, t.selectRow column = .ok (some r) ∧ IsLeast {i | t.AttainsLeast column i} r := by
  obtain ⟨row, hrows⟩ := exists_rows t
  obtain ⟨d, rfl⟩ := exists_eq_ofFn h
  rcases selectRow_cases hrows d with ⟨hnone, hd⟩ | ⟨r, hsome, hr⟩
  · refine Or.inl ⟨hnone, fun x hx => ?_⟩
    obtain ⟨i, rfl⟩ := List.mem_ofFn.mp hx
    exact hd i
  · exact Or.inr ⟨r, hsome, isLeast_of_isFirstMinimum hrows hr⟩

theorem not_attainsLeast_of_nonpos (h : ∀ x ∈ column, x ≤ 0) (r : ℕ) :
    ¬ t.AttainsLeast column r := by
  intro hr
  obtain ⟨⟨x, hx, hpos⟩, -⟩ := hr
  exact absurd (h x (List.mem_of_getElem? hx)) (not_le_of_gt hpos)

theorem selectRow_eq_none_iff (h : column.length = t.rowCount) :
    t.selectRow column = .ok none ↔ ∀ x ∈ column, x ≤ 0 := by
  rcases selectRow_isLeast h with ⟨hnone, hnonpos⟩ | ⟨r, hsome, hr⟩
  · exact iff_of_true hnone hnonpos
  · refine iff_of_false (by simp [hsome]) fun hnonpos => ?_
    exact not_attainsLeast_of_nonpos hnonpos r hr.1

theorem selectRow_eq_some_iff (h : column.length = t.rowCount) (r : ℕ) :
    t.selectRow column = .ok (some r) ↔ IsLeast {i | t.AttainsLeast column i} r := by
  rcases selectRow_isLeast h with ⟨hnone, hnonpos⟩ | ⟨k, hsome, hk⟩
  · refine iff_of_false (by simp [hnone]) fun hr => ?_
    exact not_attainsLeast_of_nonpos hnonpos r hr.1
  · rw [hsome, Except.ok.injEq, Option.some.injEq]
    constructor
    · intro hkr
      rwa [← hkr]
    · intro hr
      exact hk.unique hr

end

/-! ## The values after a pivot -/

theorem value_pivotedRow {m : ℕ} (row : Fin m → BasisRow ℚ) (d : Fin m → ℚ) (r : Fin m) (j : ℕ)
    (cost : ℚ) (i : Fin m) :
    (pivotedRow row d r (enteringRow (row r) (d r) j cost) i).value =
      if i = r then (row r).value / d r
      else (row i).value - d i * ((row r).value / d r) := by
  rw [pivotedRow]
  split
  · rfl
  · split
    · rename_i hzero
      rw [hzero, zero_mul, sub_zero]
    · rfl

/-- A pivot in a row with a positive coefficient is made, and it leaves no basic variable negative iff
that row attains the least ratio. -/
theorem exists_pivot {t : Tableau ℚ} (ht : t.WellSized) (hnonneg : ∀ row ∈ t.rows, 0 ≤ row.value)
    {column : List ℚ} (hlength : column.length = t.rowCount) {j r : ℕ} {x : ℚ}
    (hj : t.isBasic j = .ok false) (hx : column[r]? = some x) (hpos : 0 < x) :
    ∃ next, t.pivot j r column = .ok next ∧
      ((∀ row ∈ next.rows, 0 ≤ row.value) ↔ t.AttainsLeast column r) := by
  obtain ⟨row, hrows⟩ := exists_rows t
  obtain ⟨d, rfl⟩ := exists_eq_ofFn hlength
  obtain ⟨i, rfl, hi⟩ := isCandidate_ofFn.mp ⟨x, hx, hpos⟩
  have hmem : ∀ k, row k ∈ t.rows := by
    intro k
    rw [hrows]
    exact List.mem_ofFn.mpr ⟨k, rfl⟩
  refine ⟨_, pivot_ofFn hrows d hj hi.ne' (ht.column_lt _ (hmem i)), ?_⟩
  rw [attainsLeast_ofFn hrows, List.forall_mem_ofFn_iff]
  simp only [value_pivotedRow]
  rw [nonneg_exchange_iff (fun k => hnonneg _ (hmem k)) hi]
  exact (and_iff_right hi).symm

/-! ## The result -/

/-- The ratio test is an exact first minimum.  On any tableau, and with any coefficients, one for each
row, it returns: no row iff no coefficient is positive, and else the first of the rows that attain
the least ratio among those with a positive coefficient.

Every tableau that can be built is well sized.  If no basic variable of such a tableau is negative,
then a column that is not basic can be pivoted on in every row where it has a positive coefficient,
and no basic variable is negative afterwards iff the row attains the least ratio. -/
theorem ratioTest_exact (t : Tableau ℚ) :
    (∀ column : List ℚ, column.length = t.rowCount →
      (t.selectRow column = .ok none ↔ ∀ x ∈ column, x ≤ 0) ∧
      (∀ r, t.selectRow column = .ok (some r) ↔ IsLeast {i | t.AttainsLeast column i} r) ∧
      ∃ chosen, t.selectRow column = .ok chosen) ∧
    (t.Built → t.WellSized) ∧
    (t.WellSized → (∀ row ∈ t.rows, 0 ≤ row.value) → ∀ j, t.isBasic j = .ok false →
      ∃ column, t.generateColumn j = .ok column ∧ column.length = t.rowCount ∧
        ∀ r x, column[r]? = some x → 0 < x →
          ∃ next, t.pivot j r column = .ok next ∧
            ((∀ row ∈ next.rows, 0 ≤ row.value) ↔ t.AttainsLeast column r)) := by
  refine ⟨fun column hlength => ⟨selectRow_eq_none_iff hlength, selectRow_eq_some_iff hlength, ?_⟩,
    Built.wellSized, fun ht hnonneg j hj => ?_⟩
  · rcases selectRow_isLeast hlength with ⟨hnone, -⟩ | ⟨r, hsome, -⟩
    · exact ⟨none, hnone⟩
    · exact ⟨some r, hsome⟩
  · obtain ⟨column, hcolumn, hlength⟩ := ht.exists_generateColumn (lt_length_of_fetch hj)
    refine ⟨column, hcolumn, hlength, fun r x hx hpos => ?_⟩
    exact exists_pivot ht hnonneg hlength hj hx hpos

/-- The first tableau of `x = 1`, `2 x = 2`, `-x = 0` and `x = 3`.  The first two rows have the same
ratio, and the last one has a larger ratio. -/
def tied : Tableau ℚ where
  phase := .one
  matrix := [[1], [2], [-1], [1]]
  cost := [1]
  rows := [⟨1, 1, [1, 0, 0, 0], 1⟩, ⟨2, 1, [0, 1, 0, 0], 2⟩, ⟨3, 1, [0, 0, 1, 0], 0⟩,
    ⟨4, 1, [0, 0, 0, 1], 3⟩]
  basic := [false, true, true, true, true]

/-- Row 0 is chosen.  A pivot in row 1 would do as well, and one in row 3 would not. -/
theorem ratioTest_exact_tied :
    tied.Built ∧ (∀ row ∈ tied.rows, 0 ≤ row.value) ∧ tied.isBasic 0 = .ok false ∧
      tied.generateColumn 0 = .ok [1, 2, -1, 1] ∧
      IsLeast {i | tied.AttainsLeast [1, 2, -1, 1] i} 0 ∧
      tied.AttainsLeast [1, 2, -1, 1] 1 ∧ ¬ tied.AttainsLeast [1, 2, -1, 1] 3 := by
  have hbuilt : tied.Built :=
    .start (show start [[1], [2], [-1], [1]] [1, 2, 0, 3] [1] = .ok tied by decide +kernel)
  have hnonneg : ∀ row ∈ tied.rows, 0 ≤ row.value := by decide +kernel
  have hbasic : tied.isBasic 0 = .ok false := rfl
  have hgenerated : tied.generateColumn 0 = .ok [1, 2, -1, 1] := by decide +kernel
  have hselect : tied.selectRow [1, 2, -1, 1] = .ok (some 0) := by decide +kernel
  have hsecond : (tied.pivot 0 1 [1, 2, -1, 1]).map (fun next => next.rows.map (·.value)) =
      .ok [0, 1, 1, 2] := by decide +kernel
  have hfourth : (tied.pivot 0 3 [1, 2, -1, 1]).map (fun next => next.rows.map (·.value)) =
      .ok [-2, -4, 3, 3] := by decide +kernel
  obtain ⟨htest, hsized, hpivots⟩ := ratioTest_exact tied
  obtain ⟨column, hcolumn, hlength, hpivots⟩ := hpivots (hsized hbuilt) hnonneg 0 hbasic
  rw [hgenerated, Except.ok.injEq] at hcolumn
  subst hcolumn
  refine ⟨hbuilt, hnonneg, hbasic, hgenerated, ((htest _ hlength).2.1 0).mp hselect, ?_, ?_⟩
  · obtain ⟨next, hnext, hiff⟩ := hpivots 1 2 rfl (by decide)
    rw [hnext] at hsecond
    have hvalues : next.rows.map (·.value) = [0, 1, 1, 2] := Except.ok.inj hsecond
    refine hiff.mp (List.forall_mem_map.mp ?_)
    rw [hvalues]
    decide +kernel
  · obtain ⟨next, hnext, hiff⟩ := hpivots 3 1 rfl (by decide)
    rw [hnext] at hfourth
    have hvalues : next.rows.map (·.value) = [-2, -4, 3, 3] := Except.ok.inj hfourth
    intro hattains
    have hall := List.forall_mem_map.mpr (hiff.mpr hattains)
    rw [hvalues] at hall
    exact absurd (hall (-2) (by simp)) (by decide)

end Tableau

end LinearOpt
