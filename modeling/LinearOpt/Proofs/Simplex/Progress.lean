import LinearOpt.Proofs.Simplex.Exchanges
import LinearOpt.Proofs.Simplex.Phases
import LinearOpt.Proofs.Simplex.Reached
import Mathlib.Data.Finset.Powerset

/-!
# Progress of the simplex method

An exchange changes the cost of the basic solution by the relative cost of the entering column times
the ratio of the leaving row (`Basis.objective_exchange`).  The cost depends only on which columns
are basic (`Basis.objective_eq_of_has_eq`).  So a run that comes back to a basis has made no
progress in between, and a run that makes progress with every exchange comes to an end: `Basis.rank`
counts the sets of columns that do as well as the current one, and falls.

`Visited` is every tableau that the method looks at, in either phase, and `visited_progress` states
all this for its iterations.
-/

namespace LinearOpt

open Matrix

namespace StandardForm

variable {m n : ℕ} {p : StandardForm m n}

/-! ## The cost of a basis -/

namespace Basis

theorem objective_exchange (phase : Phase) {B : p.Basis} {j : ℕ} {r : Fin m}
    (h : B.coefficients j r ≠ 0) :
    (B.exchange j r h).objective phase =
      B.objective phase + B.reducedCost phase j * (B.values r / B.coefficients j r) := by
  set ratio := B.values r / B.coefficients j r with hratio
  -- the entering column adds its own cost, and every row pays for what it gives away
  have hterm : ∀ i, (B.exchange j r h).costs phase i * (B.exchange j r h).values i =
      B.costs phase i * B.values i - B.costs phase i * B.coefficients j i * ratio +
        if i = r then p.phaseCost phase j * ratio else 0 := by
    intro i
    rw [exchange_values, costs, exchange_columns, ← hratio]
    by_cases hi : i = r
    · subst hi
      rw [if_pos rfl, if_pos rfl, if_pos rfl, mul_assoc, hratio, mul_div_cancel₀ _ h, sub_self,
        zero_add]
    · rw [if_neg hi, if_neg hi, if_neg hi, costs]
      ring
  rw [objective, objective, reducedCost_eq, dotProduct, dotProduct, dotProduct,
    Finset.sum_congr rfl fun i _ => hterm i, Finset.sum_add_distrib, Finset.sum_sub_distrib,
    Finset.sum_ite_eq', ← Finset.sum_mul, if_pos (Finset.mem_univ r)]
  ring

/-- Bases with the same columns, in whatever rows, have the same cost. -/
theorem objective_eq_of_has_eq (phase : Phase) {B B' : p.Basis} (h : ∀ k, B'.has k = B.has k) :
    B'.objective phase = B.objective phase := by
  have hrow : ∀ i, ∃ k, B.columns k = B'.columns i := by
    intro i
    rw [← has_iff, ← h]
    exact B'.has_iff.mpr ⟨i, rfl⟩
  choose row hrow using hrow
  have hinj : Function.Injective row := by
    intro i k hik
    apply B'.columns_injective
    rw [← hrow, ← hrow, hik]
  obtain ⟨e, he⟩ : ∃ e : Fin m ≃ Fin m, ∀ i, e i = row i :=
    ⟨.ofBijective row (Finite.injective_iff_bijective.mp hinj), fun _ => rfl⟩
  have hcolumns : B'.columns = B.columns ∘ e := by
    funext i
    rw [Function.comp_apply, he, hrow]
  -- the values solve the same equations, with the unknowns in another order
  have hsolves : p.basisMatrix B'.columns *ᵥ (B.values ∘ e) = p.values := by
    have hmatrix : p.basisMatrix B'.columns = (p.basisMatrix B.columns).submatrix id e := by
      rw [hcolumns]
      rfl
    rw [hmatrix, submatrix_mulVec_equiv, Function.comp_assoc, Equiv.self_comp_symm,
      CompTriple.comp_eq, CompTriple.comp_eq, basisMatrix_mulVec_values]
  have hvalues : B'.values = B.values ∘ e := by
    rw [values, ← hsolves, mulVec_mulVec, inverse_mul, one_mulVec]
  have hcosts : B'.costs phase = B.costs phase ∘ e := by
    funext i
    rw [costs, hcolumns]
    rfl
  rw [objective, hcosts, hvalues]
  exact Equiv.sum_comp e fun i => B.costs phase i * B.values i

/-! ## Bases that do as well -/

def columnSet (B : p.Basis) : Finset ℕ := Finset.univ.image B.columns

theorem mem_columnSet {B : p.Basis} {k : ℕ} : k ∈ B.columnSet ↔ B.has k = true := by
  rw [columnSet, Finset.mem_image, has_iff]
  simp

theorem columnSet_mem_powersetCard (B : p.Basis) :
    B.columnSet ∈ (Finset.range (n + m)).powersetCard m := by
  rw [Finset.mem_powersetCard]
  constructor
  · intro k hk
    obtain ⟨i, -, rfl⟩ := Finset.mem_image.mp hk
    exact Finset.mem_range.mpr (B.columns_lt i)
  · rw [columnSet, Finset.card_image_of_injective _ B.columns_injective, Finset.card_univ,
      Fintype.card_fin]

theorem has_eq_of_columnSet_eq {B B' : p.Basis} (h : B'.columnSet = B.columnSet) (k : ℕ) :
    B'.has k = B.has k := by
  rw [Bool.eq_iff_iff, ← mem_columnSet, ← mem_columnSet, h]

open Classical in
/-- The sets of columns whose basic solution costs at most as much. -/
noncomputable def asGood (phase : Phase) (B : p.Basis) : Finset (Finset ℕ) :=
  ((Finset.range (n + m)).powersetCard m).filter fun columns =>
    ∃ B' : p.Basis, B'.columnSet = columns ∧ B'.objective phase ≤ B.objective phase

noncomputable def rank (phase : Phase) (B : p.Basis) : ℕ := (B.asGood phase).card

theorem columnSet_mem_asGood_iff (phase : Phase) {B B' : p.Basis} :
    B'.columnSet ∈ B.asGood phase ↔ B'.objective phase ≤ B.objective phase := by
  classical
  rw [asGood, Finset.mem_filter]
  constructor
  · rintro ⟨-, B'', hcolumns, hle⟩
    rwa [objective_eq_of_has_eq phase (has_eq_of_columnSet_eq hcolumns)] at hle
  · exact fun hle => ⟨B'.columnSet_mem_powersetCard, B', rfl, hle⟩

theorem rank_le (phase : Phase) (B : p.Basis) : B.rank phase ≤ (n + m).choose m := by
  classical
  have hle : B.rank phase ≤ ((Finset.range (n + m)).powersetCard m).card :=
    Finset.card_le_card (Finset.filter_subset _ _)
  rwa [Finset.card_powersetCard, Finset.card_range] at hle

theorem rank_pos (phase : Phase) (B : p.Basis) : 0 < B.rank phase :=
  Finset.card_pos.mpr ⟨_, (columnSet_mem_asGood_iff phase).mpr le_rfl⟩

/-- A basis that costs less is worse than fewer others. -/
theorem rank_lt {phase : Phase} {B next : p.Basis}
    (h : next.objective phase < B.objective phase) : next.rank phase < B.rank phase := by
  classical
  refine Finset.card_lt_card ⟨fun columns hmem => ?_, fun hsub => ?_⟩
  · rw [asGood, Finset.mem_filter] at hmem
    obtain ⟨-, B', rfl, hle⟩ := hmem
    exact (columnSet_mem_asGood_iff phase).mpr (hle.trans h.le)
  · have hself := (columnSet_mem_asGood_iff phase).mp
      (hsub ((columnSet_mem_asGood_iff phase).mpr (le_refl (B.objective phase))))
    exact absurd h (not_lt_of_ge hself)

end Basis

/-! ## Iterations -/

section

variable {phase : Phase} {B : p.Basis}

/-- What is chosen on the tableau of a basis is an exchange in the row of least ratio, and it can be
made. -/
theorem nextStep_eq_pivot {j r : ℕ} {cost : ℚ} {column : List ℚ}
    (h : (tableau phase B).nextStep = .ok (.pivot j cost r column)) :
    ∃ i : Fin m, ∃ hi : IsFirstMinimum B.values (B.coefficients j) i,
      cost = B.reducedCost phase j ∧ cost < 0 ∧ r = i ∧ column = List.ofFn (B.coefficients j) ∧
      (tableau phase B).pivot j r column = .ok (tableau phase (B.exchange j i hi.pos.ne')) ∧
      Step phase B (B.exchange j i hi.pos.ne') := by
  rcases nextStep_cases phase B with
    ⟨hnext, -⟩ | ⟨k, hk, hbasic, hcost, ⟨hnext, -⟩ | ⟨i, hi, hnext⟩⟩
  · rw [hnext] at h
    cases h
  · rw [hnext] at h
    cases h
  · rw [hnext] at h
    cases h
    exact ⟨i, hi, rfl, hcost, rfl, rfl, pivot_eq phase hi.pos.ne' (by omega) hbasic,
      .exchange hk hbasic hcost hi⟩

/-- A run from the tableau of a basis makes steps. -/
theorem exists_steps {t s : Tableau ℚ} {es : List (ℕ × ℕ)} (h : Tableau.Iterations t es s)
    {B : p.Basis} (ht : t = tableau phase B) :
    ∃ last, s = tableau phase last ∧ Relation.ReflTransGen (Step phase) B last := by
  induction h generalizing B with
  | refl t => exact ⟨B, ht, .refl⟩
  | step hnext _ ih =>
    subst ht
    obtain ⟨i, hi, rfl, -, rfl, rfl, hpivot, hstep⟩ := nextStep_eq_pivot hnext.nextStep_eq
    rw [hnext.pivot_eq, Except.ok.injEq] at hpivot
    obtain ⟨last, hlast, hsteps⟩ := ih hpivot
    exact ⟨last, hlast, .head hstep hsteps⟩

/-- A chosen pivot is made. -/
theorem exists_iterates {j r : ℕ} {cost : ℚ} {column : List ℚ}
    (h : (tableau phase B).nextStep = .ok (.pivot j cost r column)) :
    ∃ next, (tableau phase B).Iterates j cost r column next := by
  obtain ⟨i, hi, -, -, -, -, hpivot, -⟩ := nextStep_eq_pivot h
  exact ⟨_, h, hpivot⟩

/-- The ratio of the value of row `r` to its coefficient. -/
def HasRatio (t : Tableau ℚ) (r : ℕ) (column : List ℚ) (ratio : ℚ) : Prop :=
  ∃ row x, t.rows[r]? = some row ∧ column[r]? = some x ∧ ratio = row.value / x

theorem hasRatio_ofFn {t : Tableau ℚ} {row : Fin m → BasisRow ℚ} (hrows : t.rows = List.ofFn row)
    {d : Fin m → ℚ} {i : Fin m} {ratio : ℚ} :
    HasRatio t i (List.ofFn d) ratio ↔ ratio = (row i).value / d i := by
  unfold HasRatio
  rw [hrows, getElem?_ofFn_val, getElem?_ofFn_val]
  constructor
  · rintro ⟨_, _, hrow, hx, hratio⟩
    cases hrow
    cases hx
    exact hratio
  · exact fun hratio => ⟨_, _, rfl, rfl, hratio⟩

theorem hasRatio_iff {j : ℕ} {i : Fin m} {ratio : ℚ} :
    HasRatio (tableau phase B) i (List.ofFn (B.coefficients j)) ratio ↔
      ratio = B.values i / B.coefficients j i :=
  hasRatio_ofFn (show (tableau phase B).rows = List.ofFn (basisRow phase B) from rfl)

/-- What an iteration with this relative cost and this ratio achieves. -/
structure Advances (t next : Tableau ℚ) (cost ratio : ℚ) : Prop where
  ratio_nonneg : 0 ≤ ratio
  values_nonneg : ∀ row ∈ next.rows, 0 ≤ row.value
  objectiveValue_eq : ∃ before after, t.objectiveValue = .ok before ∧
    next.objectiveValue = .ok after ∧ after = before + cost * ratio ∧ after ≤ before ∧
    (after < before ↔ 0 < ratio)

/-- One iteration: the next basis is feasible, and the cost falls by the relative cost times the
ratio. -/
theorem Basis.Feasible.iterates (hB : B.Feasible) {j r : ℕ} {cost : ℚ} {column : List ℚ}
    {next : Tableau ℚ} (h : (tableau phase B).Iterates j cost r column next) :
    ∃ B' : p.Basis, ∃ ratio, next = tableau phase B' ∧ B'.Feasible ∧ cost < 0 ∧ 0 ≤ ratio ∧
      HasRatio (tableau phase B) r column ratio ∧
      B'.objective phase = B.objective phase + cost * ratio := by
  obtain ⟨i, hi, rfl, hcost, rfl, rfl, hpivot, hstep⟩ := nextStep_eq_pivot h.nextStep_eq
  rw [h.pivot_eq, Except.ok.injEq] at hpivot
  exact ⟨_, _, hpivot, hstep.feasible hB, hcost, div_nonneg (hB i) hi.pos.le, hasRatio_iff.mpr rfl,
    Basis.objective_exchange phase hi.pos.ne'⟩

theorem HasRatio.unique {t : Tableau ℚ} {r : ℕ} {column : List ℚ} {x y : ℚ}
    (hx : HasRatio t r column x) (hy : HasRatio t r column y) : x = y := by
  obtain ⟨row, z, hrow, hz, rfl⟩ := hx
  obtain ⟨row', z', hrow', hz', rfl⟩ := hy
  rw [hrow, Option.some.injEq] at hrow'
  rw [hz, Option.some.injEq] at hz'
  rw [hrow', hz']

theorem Basis.Feasible.advances (hB : B.Feasible) {j r : ℕ} {cost ratio : ℚ} {column : List ℚ}
    {next : Tableau ℚ} (h : (tableau phase B).Iterates j cost r column next)
    (hratio : HasRatio (tableau phase B) r column ratio) :
    Advances (tableau phase B) next cost ratio := by
  obtain ⟨B', ratio', rfl, hB', hcost, hnonneg, hratio', hobjective⟩ := hB.iterates h
  obtain rfl := hratio'.unique hratio
  refine ⟨hnonneg, fun row hrow => ?_, _, _, objectiveValue_eq phase B, objectiveValue_eq phase B',
    hobjective, ?_, ?_⟩
  · obtain ⟨i, rfl⟩ := List.mem_ofFn.mp hrow
    exact hB' i
  · have hle := mul_nonpos_of_nonpos_of_nonneg hcost.le hnonneg
    linarith
  · rw [hobjective, add_lt_iff_neg_left]
    exact ⟨fun hlt => pos_of_mul_neg_right hlt hcost.le, mul_neg_of_neg_of_pos hcost⟩

/-- A run goes from basis to basis, and the cost never rises. -/
theorem Basis.Feasible.iterations {t s : Tableau ℚ} {es : List (ℕ × ℕ)}
    (h : Tableau.Iterations t es s) {B : p.Basis} (ht : t = tableau phase B) (hB : B.Feasible) :
    ∃ B' : p.Basis, s = tableau phase B' ∧ B'.Feasible ∧
      B'.objective phase ≤ B.objective phase := by
  induction h generalizing B with
  | refl t => exact ⟨B, ht, hB, le_rfl⟩
  | step hnext _ ih =>
    subst ht
    obtain ⟨B', ratio, hB'eq, hB', hcost, hnonneg, -, hobjective⟩ := hB.iterates hnext
    obtain ⟨last, hlast, hfeasible, hle⟩ := ih hB'eq hB'
    have hfall := mul_nonpos_of_nonpos_of_nonneg hcost.le hnonneg
    exact ⟨last, hlast, hfeasible, by linarith⟩

theorem mem_basicColumns {k : ℕ} : k ∈ (tableau phase B).basicColumns ↔ B.has k = true := by
  rw [Tableau.basicColumns, tableau_columnCount, List.mem_filter, List.mem_range]
  rw [basic_getD, and_iff_right_iff_imp]
  intro hhas
  obtain ⟨i, rfl⟩ := B.has_iff.mp hhas
  exact B.columns_lt i

/-- A run from a basis back to the same columns has made no progress on the way. -/
theorem Basis.Feasible.ratio_eq_zero (hB : B.Feasible) {es es' : List (ℕ × ℕ)}
    {s next last : Tableau ℚ} {j r : ℕ} {cost ratio : ℚ} {column : List ℚ}
    (hbefore : Tableau.Iterations (tableau phase B) es s) (h : s.Iterates j cost r column next)
    (hratio : HasRatio s r column ratio) (hafter : Tableau.Iterations next es' last)
    (hcolumns : last.basicColumns = (tableau phase B).basicColumns) : ratio = 0 := by
  obtain ⟨B₁, rfl, hB₁, hle₁⟩ := Basis.Feasible.iterations hbefore rfl hB
  obtain ⟨B₂, ratio', rfl, hB₂, hcost, -, hratio', hobjective⟩ := hB₁.iterates h
  obtain rfl := hratio'.unique hratio
  obtain ⟨B₃, rfl, -, hle₃⟩ := Basis.Feasible.iterations hafter rfl hB₂
  have hsame : B₃.objective phase = B.objective phase := by
    refine Basis.objective_eq_of_has_eq phase fun k => ?_
    have hlast : k ∈ (tableau phase B₃).basicColumns ↔ B₃.has k = true := mem_basicColumns
    rw [Bool.eq_iff_iff, ← hlast, hcolumns, mem_basicColumns]
  have hzero : cost * ratio' = 0 := by
    have hnonpos : cost * ratio' ≤ 0 :=
      mul_nonpos_of_nonpos_of_nonneg hcost.le ((hB₁.advances h hratio').ratio_nonneg)
    linarith
  exact (mul_eq_zero.mp hzero).resolve_left hcost.ne

/-- A run that makes progress with every exchange makes fewer than `rank` of them. -/
theorem Basis.Feasible.lt_rank (k : ℕ) {B : p.Basis} (hB : B.Feasible)
    (hmakes : (tableau phase B).MakesPivots k)
    (hpos : ∀ es s j cost r column next ratio, Tableau.Iterations (tableau phase B) es s →
      s.Iterates j cost r column next → HasRatio s r column ratio → 0 < ratio) :
    k < B.rank phase := by
  induction k generalizing B with
  | zero => exact B.rank_pos phase
  | succ k ih =>
    -- the first exchange costs one rank, and the others start from a basis that ranks lower
    obtain ⟨j, cost, r, column, next, hnext, hpivot, hrest⟩ := hmakes
    have hiterates : (tableau phase B).Iterates j cost r column next := ⟨hnext, hpivot⟩
    obtain ⟨B', ratio, rfl, hB', hcost, -, hratio, hobjective⟩ := hB.iterates hiterates
    have hratio_pos := hpos _ _ _ _ _ _ _ _ (.refl _) hiterates hratio
    have hlt : B'.objective phase < B.objective phase := by
      have hneg := mul_neg_of_neg_of_pos hcost hratio_pos
      linarith
    have hk := ih hB' hrest fun es s j cost r column next ratio hrun =>
      hpos _ _ _ _ _ _ _ _ (.step hiterates hrun)
    exact Nat.lt_of_le_of_lt hk (Basis.rank_lt hlt)

end

/-! ## The tableaux of a run -/

variable (p) in
/-- The tableaux that the method looks at, in either phase. -/
inductive Visited : Tableau ℚ → Prop where
  | start {t : Tableau ℚ} (h : p.start = .ok t) : Visited t
  | iterates {t next : Tableau ℚ} {j r : ℕ} {cost : ℚ} {column : List ℚ} (h : Visited t)
      (hnext : t.Iterates j cost r column next) : Visited next
  | startPhaseTwo {t driven next : Tableau ℚ} {redundant : List ℕ} (h : Visited t)
      (hend : t.nextStep = .ok .optimal) (hzero : t.hasPositiveArtificial = false)
      (hdriven : t.driveOut t.artificialRows = .ok (driven, redundant))
      (hnext : driven.startPhaseTwo = .ok next) : Visited next

/-- Every tableau that the method looks at is that of a feasible basis. -/
theorem Visited.exists_feasible {t : Tableau ℚ} (h : p.Visited t) :
    ∃ phase, ∃ B : p.Basis, t = tableau phase B ∧ B.Feasible := by
  induction h with
  | start h =>
    rw [start_eq, Except.ok.injEq] at h
    exact ⟨.one, Basis.artificial p, h.symm, Basis.artificial_feasible⟩
  | iterates _ hnext ih =>
    obtain ⟨phase, B, rfl, hB⟩ := ih
    obtain ⟨B', -, hB'eq, hB', -⟩ := hB.iterates hnext
    exact ⟨phase, B', hB'eq, hB'⟩
  | startPhaseTwo _ _ hzero hdriven hnext ih =>
    obtain ⟨phase, B, rfl, hB⟩ := ih
    obtain ⟨last, remaining, hlast, hproper, -⟩ := driveOut_artificialRows phase hB hzero
    rw [hlast, Except.ok.injEq, Prod.mk.injEq] at hdriven
    obtain ⟨rfl, -⟩ := hdriven
    cases phase with
    | one =>
      rw [startPhaseTwo_eq, Except.ok.injEq] at hnext
      exact ⟨.two, last, hnext.symm, hproper.feasible⟩
    | two => cases hnext

/-- What is true of the iterations from a tableau with `m` rows and `n + m` columns. -/
structure MakesProgress (m n : ℕ) (t : Tableau ℚ) : Prop where
  /-- The chosen pivot is made, and advances. -/
  advances : ∀ j cost r column, t.nextStep = .ok (.pivot j cost r column) →
    ∃ next ratio, t.Iterates j cost r column next ∧ HasRatio t r column ratio ∧
      Advances t next cost ratio
  /-- If the same columns are basic again, all ratios on the way were zero. -/
  ratio_eq_zero : ∀ es s j cost r column next ratio es' last, Tableau.Iterations t es s →
    s.Iterates j cost r column next → HasRatio s r column ratio →
    Tableau.Iterations next es' last → last.basicColumns = t.basicColumns → ratio = 0
  /-- If all ratios are positive the loop ends, before it has seen all sets of columns. -/
  ends : (∀ es s j cost r column next ratio, Tableau.Iterations t es s →
      s.Iterates j cost r column next → HasRatio s r column ratio → 0 < ratio) →
    ∀ verbosity pivots, ∃ result,
      (t.iterate verbosity ((n + m).choose m) pivots).outcome = .ok result

theorem visited_progress {t : Tableau ℚ} (h : p.Visited t) : MakesProgress m n t := by
  obtain ⟨phase, B, rfl, hB⟩ := h.exists_feasible
  refine ⟨fun j cost r column hstep => ?_, fun es s j cost r column next ratio es' last => ?_,
    fun hpos verbosity pivots => ?_⟩
  · obtain ⟨next, hnext⟩ := exists_iterates hstep
    obtain ⟨_, ratio, -, -, -, -, hratio, -⟩ := hB.iterates hnext
    exact ⟨next, ratio, hnext, hratio, hB.advances hnext hratio⟩
  · exact hB.ratio_eq_zero
  · rcases iterate_cases verbosity phase ((n + m).choose m) pivots hB with
      ⟨-, hmakes⟩ | ⟨last, -, -, ⟨hend, -⟩ | ⟨hend, -⟩⟩
    · have hlt := hB.lt_rank _ hmakes hpos
      exact absurd (B.rank_le phase) (not_le_of_gt hlt)
    · exact ⟨_, hend⟩
    · exact ⟨_, hend⟩

theorem visited_progress_crossed :
    Crossed.form.Visited Crossed.first ∧ MakesProgress 2 2 Crossed.first := by
  have hvisited : Crossed.form.Visited Crossed.first := .start (by decide +kernel)
  exact ⟨hvisited, visited_progress hvisited⟩

end StandardForm

end LinearOpt
