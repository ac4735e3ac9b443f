import LinearOpt.Proofs.Simplex.Run
import LinearOpt.Simplex.TwoPhase

/-!
# The two phases

Phase one starts from the artificial basis.  It cannot be unbounded, since a column that lowers its
cost has a positive coefficient (`exists_coefficient_pos`), so it ends with a positive artificial
variable, or with all of them at zero and then drives them out.

A row is `Redundant` if no column of the problem has an entry in it.  `driveOut_spec` says what
driving out leaves: the same basic solution, and artificial columns only in redundant rows.  Such a
row takes part in no later pivot, so the artificial variables stay at zero in phase two.  `Proper` is
that invariant, and `Step.proper` is its preservation.

`phaseOne_cases` and `phaseTwo_cases` are the ways in which the phases can end.
-/

namespace LinearOpt

open Matrix

namespace StandardForm

variable {m n : ℕ} {p : StandardForm m n}

/-! ## Redundant rows -/

namespace Basis

/-- No column of the problem has an entry in row `i`. -/
def Redundant (B : p.Basis) (i : Fin m) : Prop := ∀ j < n, B.coefficients j i = 0

/-- A pivot on a column of the problem leaves a redundant row as it is. -/
theorem Redundant.exchange {B : p.Basis} {i : Fin m} (h : B.Redundant i) {j : ℕ} {r : Fin m}
    (hne : B.coefficients j r ≠ 0) (hj : j < n) :
    i ≠ r ∧ (B.exchange j r hne).Redundant i ∧
      (B.exchange j r hne).columns i = B.columns i ∧
      (B.exchange j r hne).values i = B.values i := by
  have hir : i ≠ r := by
    rintro rfl
    exact hne (h j hj)
  refine ⟨hir, fun k hk => ?_, ?_, ?_⟩
  · rw [exchange_coefficients, if_neg hir, h k hk, h j hj]
    ring
  · rw [exchange_columns, if_neg hir]
  · rw [exchange_values, if_neg hir, h j hj]
    ring

/-- No variable is negative, and artificial variables are left only in redundant rows, at zero. -/
structure Proper (B : p.Basis) : Prop where
  feasible : B.Feasible
  redundant : ∀ i, n ≤ B.columns i → B.Redundant i
  values_eq_zero : ∀ i, n ≤ B.columns i → B.values i = 0

end Basis

/-- No artificial column enters. -/
theorem Step.columns_eq {phase : Phase} {B next : p.Basis} (h : Step phase B next) {i : Fin m}
    (hi : n ≤ next.columns i) : next.columns i = B.columns i := by
  obtain ⟨hj, -, -, hr⟩ := h
  rename_i j r
  rw [Basis.exchange_columns] at hi ⊢
  split
  · rename_i hir
    rw [if_pos hir] at hi
    omega
  · rfl

theorem Step.redundant {phase : Phase} {B next : p.Basis} (h : Step phase B next) {i : Fin m}
    (hi : B.Redundant i) :
    next.Redundant i ∧ next.columns i = B.columns i ∧ next.values i = B.values i := by
  obtain ⟨hj, -, -, hr⟩ := h
  exact (hi.exchange hr.pos.ne' hj).2

theorem Step.proper {phase : Phase} {B next : p.Basis} (h : Step phase B next)
    (hB : B.Proper) : next.Proper := by
  have hold : ∀ i, n ≤ next.columns i → n ≤ B.columns i := by
    intro i hi
    rwa [← h.columns_eq hi]
  refine ⟨h.feasible hB.feasible, fun i hi => ?_, fun i hi => ?_⟩
  · exact (h.redundant (hB.redundant i (hold i hi))).1
  · rw [(h.redundant (hB.redundant i (hold i hi))).2.2, hB.values_eq_zero i (hold i hi)]

/-! ## Phase one is bounded -/

/-- A column that lowers the sum of the artificial variables has a positive coefficient. -/
theorem exists_coefficient_pos (B : p.Basis) {j : ℕ} (hj : j < n)
    (hcost : B.reducedCost .one j < 0) : ∃ i, 0 < B.coefficients j i := by
  rw [B.reducedCost_eq, phaseCost, if_pos hj, zero_sub, Left.neg_neg_iff] at hcost
  by_contra hnot
  have hnonpos : B.costs .one ⬝ᵥ B.coefficients j ≤ 0 := by
    refine Finset.sum_nonpos fun i _ => ?_
    refine mul_nonpos_of_nonneg_of_nonpos ?_ (not_lt.mp (not_exists.mp hnot i))
    rw [Basis.costs, phaseCost]
    split
    · exact le_rfl
    · exact zero_le_one
  exact absurd hcost (not_lt_of_ge hnonpos)

theorem not_isUnbounded_one (B : p.Basis) (j : ℕ) : ¬ IsUnbounded .one B j := by
  intro h
  obtain ⟨i, hi⟩ := exists_coefficient_pos B h.lt h.reducedCost_neg
  exact absurd hi (not_lt_of_ge (h.coefficients_nonpos i))

/-! ## Driving out -/

/-- An element of row `r` that is not zero belongs to a column that is not basic, unless `r` is its
own row. -/
theorem firstNonzero_eq (phase : Phase) (B : p.Basis) (r : Fin m) (columns : List ℕ)
    (hcolumns : ∀ j ∈ columns, j < n + m) :
    (tableau phase B).firstNonzero r columns =
      .ok (columns.find? fun j => !B.has j && decide (B.coefficients j r ≠ 0)) := by
  induction columns with
  | nil => rfl
  | cons j columns ih =>
    have hj := hcolumns j (by simp)
    have ih := ih fun k hk => hcolumns k (by simp [hk])
    rw [Tableau.firstNonzero, isBasic_eq phase B hj, ok_bind, generateElement_eq phase B r hj,
      ok_bind, List.find?_cons, ih]
    cases B.has j with
    | true => simp
    | false => by_cases hzero : B.coefficients j r = 0 <;> simp [hzero]

/-- Either some column of the problem can take the place of the artificial one in row `r`, or the
row is redundant. -/
theorem firstNonzero_cases (phase : Phase) (B : p.Basis) (r : Fin m) (hr : n ≤ B.columns r) :
    ((tableau phase B).firstNonzero r (List.range n) = .ok none ∧ B.Redundant r) ∨
      ∃ j < n, (tableau phase B).firstNonzero r (List.range n) = .ok (some j) ∧
        B.has j = false ∧ B.coefficients j r ≠ 0 := by
  rw [firstNonzero_eq phase B r _ fun j hj => by have := List.mem_range.mp hj; omega]
  cases hfind : (List.range n).find? fun j => !B.has j && decide (B.coefficients j r ≠ 0) with
  | none =>
    refine Or.inl ⟨rfl, fun j hj => ?_⟩
    have hnot := List.find?_eq_none.mp hfind j (List.mem_range.mpr hj)
    cases hbasic : B.has j with
    | false => simpa [hbasic] using hnot
    | true =>
      -- a basic column of the problem has its unit entry in another row
      obtain ⟨i, rfl⟩ := B.has_iff.mp hbasic
      have hir : i ≠ r := by
        rintro rfl
        omega
      rw [B.coefficients_columns, Pi.single_eq_of_ne (Ne.symm hir)]
  | some j =>
    have hj : j < n := List.mem_range.mp (List.mem_of_find?_eq_some hfind)
    have hprop := List.find?_some hfind
    simp only [Bool.and_eq_true, Bool.not_eq_true', decide_eq_true_eq] at hprop
    exact Or.inr ⟨j, hj, rfl, hprop.1, hprop.2⟩

/-- What driving out the artificial columns of `rows` makes of a basis.  The rows in `remaining`
keep theirs. -/
structure DrivenOut (B : p.Basis) (rows remaining : List ℕ) (last : p.Basis) : Prop where
  values_eq : last.values = B.values
  sublist : remaining.Sublist rows
  kept : ∀ i : Fin m, i.val ∉ rows ∨ i.val ∈ remaining → last.columns i = B.columns i
  redundant : ∀ i : Fin m, i.val ∈ remaining ∨ B.Redundant i → last.Redundant i
  replaced : ∀ i : Fin m, i.val ∈ rows → i.val ∉ remaining → last.columns i < n

theorem exchange_values_of_eq_zero {B : p.Basis} {j : ℕ} {r : Fin m}
    (h : B.coefficients j r ≠ 0) (hzero : B.values r = 0) :
    (B.exchange j r h).values = B.values := by
  funext i
  rw [Basis.exchange_values, hzero, zero_div, mul_zero, sub_zero]
  split
  · rename_i hi
    rw [hi, hzero]
  · rfl

/-- The first row is redundant, and keeps its artificial column. -/
theorem DrivenOut.cons_redundant {B last : p.Basis} {rows remaining : List ℕ} {r : Fin m}
    (h : DrivenOut B rows remaining last) (hr : r.val ∉ rows) (hred : B.Redundant r) :
    DrivenOut B (r.val :: rows) (r.val :: remaining) last := by
  have hval : ∀ i : Fin m, i ≠ r → i.val ≠ r.val := fun i hir h => hir (Fin.ext h)
  refine ⟨h.values_eq, h.sublist.cons_cons _, fun i hi => ?_, fun i hi => ?_,
    fun i hi hi' => ?_⟩
  · by_cases hir : i = r
    · subst hir
      exact h.kept i (Or.inl hr)
    · exact h.kept i (by simpa [hval i hir] using hi)
  · by_cases hir : i = r
    · subst hir
      exact h.redundant i (Or.inr hred)
    · exact h.redundant i (by simpa [hval i hir] using hi)
  · simp only [List.mem_cons, not_or] at hi hi'
    exact h.replaced i (hi.resolve_left hi'.1) hi'.2

/-- A column of the problem takes the place of the artificial one in the first row. -/
theorem DrivenOut.cons_exchange {B last : p.Basis} {rows remaining : List ℕ} {j : ℕ} {r : Fin m}
    {hne : B.coefficients j r ≠ 0} (h : DrivenOut (B.exchange j r hne) rows remaining last)
    (hr : r.val ∉ rows) (hj : j < n) (hzero : B.values r = 0) :
    DrivenOut B (r.val :: rows) remaining last := by
  have hr' : r.val ∉ remaining := fun hmem => hr (h.sublist.subset hmem)
  have hval : ∀ i : Fin m, i ≠ r → i.val ≠ r.val := fun i hir h => hir (Fin.ext h)
  refine ⟨h.values_eq.trans (exchange_values_of_eq_zero hne hzero), h.sublist.cons _,
    fun i hi => ?_, fun i hi => ?_, fun i hi hi' => ?_⟩
  · have hir : i ≠ r := by
      rintro rfl
      simp [hr'] at hi
    rw [h.kept i (by simpa [hval i hir] using hi), Basis.exchange_columns, if_neg hir]
  · refine h.redundant i (hi.imp_right fun hred => ?_)
    exact (hred.exchange hne hj).2.1
  · by_cases hir : i = r
    · subst hir
      rw [h.kept i (Or.inl hr), Basis.exchange_columns, if_pos rfl]
      exact hj
    · exact h.replaced i (by simpa [hval i hir] using hi) hi'

/-- Driving out succeeds.  The rows are fixed before the loop, and each of them is settled when its
turn comes: later pivots are on other rows, and leave redundant rows alone. -/
theorem driveOut_spec (phase : Phase) (rows : List ℕ) (hnodup : rows.Nodup) (B : p.Basis)
    (hrows : ∀ k ∈ rows, ∃ i : Fin m, i.val = k ∧ n ≤ B.columns i ∧ B.values i = 0) :
    ∃ last remaining, (tableau phase B).driveOut rows = .ok (tableau phase last, remaining) ∧
      DrivenOut B rows remaining last := by
  induction rows generalizing B with
  | nil =>
    refine ⟨B, [], rfl, rfl, .refl _, fun _ _ => rfl, fun i hi => ?_, fun i hi => ?_⟩
    · simpa using hi
    · simp at hi
  | cons k rows ih =>
    obtain ⟨hk, hnodup'⟩ := List.nodup_cons.mp hnodup
    obtain ⟨r, rfl, hr, hzero⟩ := hrows k (by simp)
    rw [Tableau.driveOut, tableau_realColumnCount]
    rcases firstNonzero_cases phase B r hr with ⟨hnone, hred⟩ | ⟨j, hj, hsome, hbasic, hne⟩
    · obtain ⟨last, remaining, hlast, hout⟩ := ih hnodup' B fun k hk => hrows k (by simp [hk])
      refine ⟨last, r.val :: remaining, ?_, hout.cons_redundant hk hred⟩
      rw [hnone, ok_bind]
      simp [hlast]
    · have hrest : ∀ k ∈ rows, ∃ i : Fin m, i.val = k ∧ n ≤ (B.exchange j r hne).columns i ∧
          (B.exchange j r hne).values i = 0 := by
        intro l hl
        obtain ⟨i, rfl, hi, hi'⟩ := hrows l (by simp [hl])
        have hir : i ≠ r := by
          rintro rfl
          exact hk hl
        refine ⟨i, rfl, ?_, by rw [exchange_values_of_eq_zero hne hzero, hi']⟩
        rw [Basis.exchange_columns, if_neg hir]
        exact hi
      obtain ⟨last, remaining, hlast, hout⟩ := ih hnodup' (B.exchange j r hne) hrest
      refine ⟨last, remaining, ?_, hout.cons_exchange hk hj hzero⟩
      rw [hsome, ok_bind]
      simp only [generateColumn_eq phase B (show j < n + m by omega), ok_bind,
        pivot_eq phase hne (show j < n + m by omega) hbasic, hlast]

/-- An artificial column that is there afterwards was there before. -/
theorem DrivenOut.columns_eq {B last : p.Basis} {rows remaining : List ℕ}
    (h : DrivenOut B rows remaining last) {i : Fin m} (hi : n ≤ last.columns i) :
    last.columns i = B.columns i := by
  refine h.kept i ?_
  by_cases hrow : i.val ∈ rows
  · by_contra hnot
    have hlt := h.replaced i hrow fun hmem => hnot (Or.inr hmem)
    omega
  · exact Or.inl hrow

/-- The rows that are left are those that still have an artificial column. -/
theorem DrivenOut.mem_remaining_iff {B last : p.Basis} {rows remaining : List ℕ}
    (h : DrivenOut B rows remaining last) (hrows : ∀ i : Fin m, i.val ∈ rows ↔ n ≤ B.columns i)
    (i : Fin m) : i.val ∈ remaining ↔ n ≤ last.columns i := by
  constructor
  · intro hi
    rw [h.kept i (Or.inr hi)]
    exact (hrows i).mp (h.sublist.subset hi)
  · intro hi
    by_contra hout
    have hrow : i.val ∈ rows := by
      rw [hrows, ← h.columns_eq hi]
      exact hi
    have hlt := h.replaced i hrow hout
    omega

theorem DrivenOut.proper {B : p.Basis} {rows remaining : List ℕ} {last : p.Basis}
    (h : DrivenOut B rows remaining last) (hB : B.Feasible)
    (hzero : ∀ i, n ≤ B.columns i → B.values i = 0)
    (hrows : ∀ i : Fin m, i.val ∈ rows ↔ n ≤ B.columns i) : last.Proper := by
  refine ⟨fun i => ?_, fun i hi => ?_, fun i hi => ?_⟩
  · rw [h.values_eq]
    exact hB i
  · exact h.redundant i (Or.inl ((h.mem_remaining_iff hrows i).mpr hi))
  · rw [h.columns_eq hi] at hi
    rw [h.values_eq, hzero i hi]

/-! ## Artificial rows -/

theorem mem_artificialRows {phase : Phase} {B : p.Basis} {k : ℕ} :
    k ∈ (tableau phase B).artificialRows ↔ ∃ i : Fin m, i.val = k ∧ n ≤ B.columns i := by
  rw [Tableau.artificialRows, tableau_realColumnCount, tableau, zipIdx_ofFn, List.mem_map]
  constructor
  · rintro ⟨⟨row, k⟩, hmem, rfl⟩
    obtain ⟨hmem, hcol⟩ := List.mem_filter.mp hmem
    obtain ⟨i, hi⟩ := List.mem_ofFn.mp hmem
    cases hi
    exact ⟨i, rfl, of_decide_eq_true hcol⟩
  · rintro ⟨i, rfl, hi⟩
    exact ⟨(basisRow phase B i, i.val),
      List.mem_filter.mpr ⟨List.mem_ofFn.mpr ⟨i, rfl⟩, decide_eq_true hi⟩, rfl⟩

theorem pairwise_artificialRows (phase : Phase) (B : p.Basis) :
    (tableau phase B).artificialRows.Pairwise (· < ·) := by
  have hsub := ((tableau phase B).rows.zipIdx.filter_sublist
    (p := fun row => decide ((tableau phase B).realColumnCount ≤ row.1.column))).map (·.2)
  refine List.Pairwise.sublist hsub ?_
  rw [List.zipIdx_map_snd]
  exact List.pairwise_lt_range'

theorem hasPositiveArtificial_eq (phase : Phase) (B : p.Basis) :
    (tableau phase B).hasPositiveArtificial = true ↔ ∃ i, n ≤ B.columns i ∧ 0 < B.values i := by
  rw [Tableau.hasPositiveArtificial, tableau_realColumnCount, tableau, List.any_eq_true]
  constructor
  · rintro ⟨row, hrow, h⟩
    obtain ⟨i, rfl⟩ := List.mem_ofFn.mp hrow
    obtain ⟨hcol, hpos⟩ := (Bool.and_eq_true _ _).mp h
    exact ⟨i, of_decide_eq_true hcol, of_decide_eq_true hpos⟩
  · rintro ⟨i, hcol, hpos⟩
    exact ⟨basisRow phase B i, List.mem_ofFn.mpr ⟨i, rfl⟩,
      (Bool.and_eq_true _ _).mpr ⟨decide_eq_true hcol, decide_eq_true hpos⟩⟩

/-- A feasible basis with no positive artificial variable has all of them at zero. -/
theorem values_eq_zero_of_hasPositiveArtificial {phase : Phase} {B : p.Basis} (hB : B.Feasible)
    (h : (tableau phase B).hasPositiveArtificial = false) :
    ∀ i, n ≤ B.columns i → B.values i = 0 := by
  intro i hi
  have hnot : ¬ 0 < B.values i := by
    intro hpos
    rw [(hasPositiveArtificial_eq phase B).mpr ⟨i, hi, hpos⟩] at h
    cases h
  exact le_antisymm (not_lt.mp hnot) (hB i)

/-- Artificial variables at zero can be driven out of all their rows. -/
theorem exists_drivenOut (phase : Phase) {B : p.Basis}
    (hzero : ∀ i, n ≤ B.columns i → B.values i = 0) :
    ∃ last remaining, (tableau phase B).driveOut (tableau phase B).artificialRows =
      .ok (tableau phase last, remaining) ∧
      DrivenOut B (tableau phase B).artificialRows remaining last := by
  refine driveOut_spec phase _ ((pairwise_artificialRows phase B).imp fun hlt => hlt.ne) B ?_
  intro k hk
  obtain ⟨i, rfl, hi⟩ := mem_artificialRows.mp hk
  exact ⟨i, rfl, hi, hzero i hi⟩

theorem val_mem_artificialRows {phase : Phase} {B : p.Basis} (i : Fin m) :
    i.val ∈ (tableau phase B).artificialRows ↔ n ≤ B.columns i := by
  rw [mem_artificialRows]
  constructor
  · rintro ⟨k, hk, hcol⟩
    rwa [← Fin.ext hk]
  · exact fun hi => ⟨i, rfl, hi⟩

/-- Driving out leaves a proper basis, and the rows that are left come in increasing order. -/
theorem driveOut_artificialRows (phase : Phase) {B : p.Basis} (hB : B.Feasible)
    (h : (tableau phase B).hasPositiveArtificial = false) :
    ∃ last : p.Basis, ∃ remaining, (tableau phase B).driveOut (tableau phase B).artificialRows =
      .ok (tableau phase last, remaining) ∧ last.Proper ∧ remaining.Pairwise (· ≤ ·) := by
  have hzero := values_eq_zero_of_hasPositiveArtificial hB h
  obtain ⟨last, remaining, hlast, hout⟩ := exists_drivenOut phase hzero
  exact ⟨last, remaining, hlast, hout.proper hB hzero val_mem_artificialRows,
    ((pairwise_artificialRows phase B).sublist hout.sublist).imp fun hlt => hlt.le⟩

/-! ## The ends of the phases -/

/-- Phase one runs out of fuel pivoting, ends at an optimum with a positive artificial variable, or
leaves a proper basis. -/
theorem phaseOne_cases (verbosity : Verbosity) (fuel : ℕ) :
    ((tableau .one (Basis.artificial p)).phaseOne verbosity fuel).outcome = .error .outOfFuel ∧
        (tableau .one (Basis.artificial p)).MakesPivots fuel ∨
      (∃ last : p.Basis, last.Feasible ∧ IsOptimal .one last ∧
        (∃ i, n ≤ last.columns i ∧ 0 < last.values i) ∧
        ((tableau .one (Basis.artificial p)).phaseOne verbosity fuel).outcome =
          .ok (.infeasible, tableau .one last)) ∨
      ∃ last : p.Basis, ∃ remaining, last.Proper ∧
        ((tableau .one (Basis.artificial p)).phaseOne verbosity fuel).outcome =
          .ok (.feasible remaining, tableau .one last) := by
  rw [Tableau.phaseOne, Logged.outcome_bind]
  rcases iterate_cases verbosity .one fuel 0 (Basis.artificial_feasible (p := p)) with
    ⟨hfuel, hmakes⟩ | ⟨last, -, hfeasible, ⟨hend, hopt⟩ | ⟨-, j, hunb⟩⟩
  · exact Or.inl ⟨by rw [hfuel, error_bind], hmakes⟩
  · rw [hend, ok_bind]
    cases hpos : (tableau .one last).hasPositiveArtificial with
    | true =>
      refine Or.inr (Or.inl ⟨last, hfeasible, hopt, ?_, by simp [hpos]⟩)
      exact (hasPositiveArtificial_eq .one last).mp hpos
    | false =>
      obtain ⟨driven, remaining, hdriven, hproper, hsorted⟩ :=
        driveOut_artificialRows .one hfeasible hpos
      have hcheck : require (decide (remaining.Pairwise (· ≤ ·))) = .ok () :=
        require_eq_ok (decide_eq_true hsorted)
      refine Or.inr (Or.inr ⟨driven, remaining, hproper, ?_⟩)
      simp only [hpos, hdriven, hcheck, Bool.false_eq_true, if_false, Logged.outcome_bind,
        Logged.outcome_liftM_ok, ok_bind, Logged.outcome_pure]
  · exact absurd hunb (not_isUnbounded_one last j)

/-- Phase two runs out of fuel pivoting, or ends at a proper basis that is optimal or unbounded. -/
theorem phaseTwo_cases (verbosity : Verbosity) (fuel : ℕ) {B : p.Basis} (hB : B.Proper) :
    ((tableau .two B).phaseTwo verbosity fuel).outcome = .error .outOfFuel ∧
        (tableau .two B).MakesPivots fuel ∨
      (∃ last : p.Basis, last.Proper ∧ IsOptimal .two last ∧
        ((tableau .two B).phaseTwo verbosity fuel).outcome =
          .ok (.optimum (List.ofFn last.solution), tableau .two last)) ∨
      ∃ last : p.Basis, ∃ j, last.Proper ∧ IsUnbounded .two last j ∧
        ((tableau .two B).phaseTwo verbosity fuel).outcome =
          .ok (.unbounded, tableau .two last) := by
  rw [Tableau.phaseTwo, Logged.outcome_bind]
  rcases iterate_cases verbosity .two fuel 0 hB.feasible with
    ⟨hfuel, hmakes⟩ | ⟨last, hrun, -, hend⟩
  · exact Or.inl ⟨by rw [hfuel, error_bind], hmakes⟩
  · have hproper : last.Proper := Step.induct hrun hB fun _ _ h => h.proper
    rcases hend with ⟨hend, hopt⟩ | ⟨hend, j, hunb⟩
    · refine Or.inr (Or.inl ⟨last, hproper, hopt, ?_⟩)
      rw [hend, ← basicSolution_eq .two last]
      rfl
    · exact Or.inr (Or.inr ⟨last, j, hproper, hunb, by rw [hend]; rfl⟩)

end StandardForm

end LinearOpt
