import LinearOpt.Proofs.Refinement.Agreement
import LinearOpt.Tableau.Pivot

/-!
# The tableau of an image

If `v` refines a number type, every operation on a tableau agrees with the same operation on its
image `Tableau.map v`.  In particular the same column is chosen and the same row:
`Tableau.nextStep_agrees`.
-/

namespace LinearOpt

variable {F G : Type}

/-! ## Images -/

def BasisRow.map (v : F → G) (row : BasisRow F) : BasisRow G :=
  ⟨row.column, v row.cost, row.inverse.map v, v row.value⟩

def Tableau.map (v : F → G) (t : Tableau F) : Tableau G where
  phase := t.phase
  matrix := t.matrix.map (List.map v)
  cost := t.cost.map v
  rows := t.rows.map (BasisRow.map v)
  basic := t.basic

def Tableau.Step.map (v : F → G) : Tableau.Step F → Tableau.Step G
  | .optimal => .optimal
  | .unbounded column relativeCost => .unbounded column (v relativeCost)
  | .pivot column relativeCost row coefficients =>
      .pivot column (v relativeCost) row (coefficients.map v)

namespace Tableau

section Sizes

variable (v : F → G) (t : Tableau F)

@[simp] theorem map_rowCount : (t.map v).rowCount = t.rowCount := List.length_map _

@[simp] theorem map_realColumnCount : (t.map v).realColumnCount = t.realColumnCount :=
  List.length_map _

end Sizes

variable [Scalar F] [Scalar G] {v : F → G} (hv : Refines v)

/-! ## Columns and costs -/

section Columns

include hv

theorem map_unit (k i : ℕ) : v (unit k i) = unit k i := by
  unfold unit
  split
  · exact hv.one_eq
  · exact hv.zero_eq

theorem start_agrees (matrix : List (List F)) (b cost : List F) :
    Agrees (Tableau.map v) (start matrix b cost)
      (start (matrix.map (List.map v)) (b.map v) (cost.map v)) := by
  unfold start
  refine (Agrees.require ?_).bind fun _ => (Agrees.require ?_).bind fun _ =>
    (Agrees.require ?_).bind fun _ => .ok ?_
  · rw [List.length_map, List.length_map]
  · rw [List.all_map, List.length_map]
    refine congrArg (List.all matrix) (funext fun row => ?_)
    rw [Function.comp_apply, List.length_map]
  · rw [List.all_map]
    exact congrArg (List.all b) (funext fun value => congrArg Bool.not (hv.lt_zero_eq value))
  · simp only [Tableau.map, List.length_map, List.zipIdx_map, List.map_map]
    congr 1
    refine List.map_congr_left fun entry _ => ?_
    simp only [BasisRow.map, Function.comp_apply, List.map_map, hv.one_eq]
    congr 1
    exact List.map_congr_left fun k _ => map_unit hv _ k

theorem map_phaseCost (t : Tableau F) (j : ℕ) : (t.map v).phaseCost j = v (t.phaseCost j) := by
  have hcost : (t.map v).cost[j]? = t.cost[j]?.map v := List.getElem?_map
  have hphase : (t.map v).phase = t.phase := rfl
  unfold phaseCost
  rw [hcost, hphase]
  cases t.phase <;> cases t.cost[j]?
  · exact hv.one_eq.symm
  · exact hv.zero_eq.symm
  · exact hv.zero_eq.symm
  · rfl

theorem extendedColumn_agrees (t : Tableau F) (j : ℕ) :
    Agrees (List.map v) (t.extendedColumn j) ((t.map v).extendedColumn j) := by
  unfold extendedColumn
  refine (Agrees.refl _).bind fun _ => ?_
  rw [map_realColumnCount, map_rowCount]
  split
  · exact .mapM rfl fun row => .fetch v row j
  · refine .ok ?_
    rw [List.map_map]
    exact List.map_congr_left fun i _ => map_unit hv _ i

theorem generateColumn_agrees (t : Tableau F) (j : ℕ) :
    Agrees (List.map v) (t.generateColumn j) ((t.map v).generateColumn j) := by
  unfold generateColumn
  refine (extendedColumn_agrees hv t j).bind fun column => ?_
  exact .mapM rfl fun row => hv.dot row.inverse column

theorem generateElement_agrees (t : Tableau F) (i j : ℕ) :
    Agrees v (t.generateElement i j) ((t.map v).generateElement i j) := by
  unfold generateElement
  refine (Agrees.fetch (BasisRow.map v) t.rows i).bind fun row => ?_
  exact (extendedColumn_agrees hv t j).bind fun column => hv.dot row.inverse column

theorem dualValues_agrees (t : Tableau F) :
    Agrees (List.map v) t.dualValues (t.map v).dualValues := by
  unfold dualValues
  rw [map_rowCount]
  refine Agrees.mapM (List.map_id _).symm fun k => ?_
  refine Agrees.bind (f := List.map (Prod.map v v)) (.mapM rfl fun row => ?_) fun terms =>
    hv.sumProducts rfl
  exact (Agrees.fetch v row.inverse k).map fun x => rfl

theorem relativeCost_agrees (t : Tableau F) (j : ℕ) (duals : List F) :
    Agrees v (t.relativeCost j duals) ((t.map v).relativeCost j (duals.map v)) := by
  unfold relativeCost
  refine (extendedColumn_agrees hv t j).bind fun column => ?_
  refine (hv.dot duals column).bind fun priced => ?_
  rw [map_phaseCost hv]
  exact hv.sub _ priced

theorem objectiveValue_agrees (t : Tableau F) :
    Agrees v t.objectiveValue (t.map v).objectiveValue := by
  unfold objectiveValue
  have hcosts : (t.map v).rows.map (·.cost) = (t.rows.map (·.cost)).map v := by
    simp [Tableau.map, BasisRow.map, Function.comp_def]
  have hvalues : (t.map v).rows.map (·.value) = (t.rows.map (·.value)).map v := by
    simp [Tableau.map, BasisRow.map, Function.comp_def]
  rw [hcosts, hvalues]
  exact hv.dot _ _

end Columns

/-! ## The basic solution -/

section Solution

omit [Scalar F] [Scalar G] in
theorem basicColumn_agrees (v : F → G) (t : Tableau F) (i : ℕ) :
    Agrees id (t.basicColumn i) ((t.map v).basicColumn i) :=
  (Agrees.fetch (BasisRow.map v) t.rows i).map fun _ => rfl

omit [Scalar F] [Scalar G] in
theorem map_artificialRows (v : F → G) (t : Tableau F) :
    (t.map v).artificialRows = t.artificialRows := by
  have hrows : (t.map v).rows.zipIdx = t.rows.zipIdx.map (Prod.map (BasisRow.map v) id) :=
    List.zipIdx_map
  unfold artificialRows
  rw [hrows, map_realColumnCount, List.filter_map, List.map_map]
  rfl

include hv

theorem map_basicSolution (t : Tableau F) :
    (t.map v).basicSolution = t.basicSolution.map v := by
  unfold basicSolution
  rw [map_realColumnCount, List.map_map]
  refine List.map_congr_left fun j _ => ?_
  have hfind : (t.map v).rows.find? (·.column == j) =
      (t.rows.find? (·.column == j)).map (BasisRow.map v) := List.find?_map ..
  rw [hfind, Function.comp_apply]
  cases t.rows.find? (·.column == j) with
  | none => exact hv.zero_eq.symm
  | some row => rfl

theorem map_hasPositiveArtificial (t : Tableau F) :
    (t.map v).hasPositiveArtificial = t.hasPositiveArtificial := by
  unfold hasPositiveArtificial
  rw [map_realColumnCount]
  refine List.any_map.trans (congrArg (List.any t.rows) (funext fun row => ?_))
  exact congrArg (and _) (hv.zero_lt_eq row.value)

theorem map_isFeasibleBasis (t : Tableau F) :
    (t.map v).isFeasibleBasis = t.isFeasibleBasis := by
  unfold isFeasibleBasis
  rw [map_rowCount]
  refine congrArg₂ and (congrArg₂ and ?_ rfl) ?_
  · refine List.all_map.trans (congrArg (List.all t.rows) (funext fun row => ?_))
    exact congrArg Bool.not (hv.lt_zero_eq row.value)
  · exact List.all_map

end Solution

/-! ## The next step -/

section Steps

include hv

theorem firstNegative_agrees (t : Tableau F) (duals : List F) (js : List ℕ) :
    Agrees (Option.map (Prod.map id v)) (t.firstNegative duals js)
      ((t.map v).firstNegative (duals.map v) js) := by
  induction js with
  | nil => exact .ok rfl
  | cons j js ih =>
    refine (Agrees.refl (t.isBasic j)).bind fun isBasic => ?_
    dsimp only [id]
    split
    · exact ih
    · refine (relativeCost_agrees hv t j duals).bind fun cost => ?_
      rw [hv.lt_zero_eq]
      split
      · exact .ok rfl
      · exact ih

theorem selectColumn_agrees (t : Tableau F) :
    Agrees (Option.map (Prod.map id v)) t.selectColumn (t.map v).selectColumn := by
  unfold selectColumn
  rw [map_realColumnCount]
  exact (dualValues_agrees hv t).bind fun duals => firstNegative_agrees hv t duals _

theorem betterRatio_agrees (best : Option (ℕ × F)) (i : ℕ) (value coefficient : F) :
    Agrees (Option.map (Prod.map id v)) (betterRatio best i value coefficient)
      (betterRatio (best.map (Prod.map id v)) i (v value) (v coefficient)) := by
  unfold betterRatio
  rw [hv.zero_lt_eq]
  split
  · refine (hv.div value coefficient).bind fun ratio => ?_
    cases best with
    | none => exact .ok rfl
    | some least =>
      dsimp only [Option.map, Prod.map]
      rw [hv.lt_eq]
      refine .ok ?_
      split <;> rfl
  · exact .ok rfl

theorem selectRow_agrees (t : Tableau F) (coefficients : List F) :
    Agrees id (t.selectRow coefficients) ((t.map v).selectRow (coefficients.map v)) := by
  have hrows : ((t.map v).rows.zip (coefficients.map v)).zipIdx =
      (t.rows.zip coefficients).zipIdx.map (Prod.map (Prod.map (BasisRow.map v) v) id) := by
    rw [← List.zipIdx_map, ← List.zip_map]
    rfl
  unfold selectRow
  refine (Agrees.require ?_).bind fun _ => ?_
  · rw [List.length_map, map_rowCount]
  · refine Agrees.map (f := Option.map (Prod.map id v)) (.foldlM hrows (fun best term => ?_) none)
      fun best => ?_
    · exact betterRatio_agrees hv best term.2 term.1.1.value term.1.2
    · rw [Option.map_map]
      rfl

theorem nextStep_agrees (t : Tableau F) :
    Agrees (Step.map v) t.nextStep (t.map v).nextStep := by
  unfold nextStep
  refine (selectColumn_agrees hv t).bind fun column => ?_
  rcases column with _ | ⟨j, cost⟩
  · exact .ok rfl
  · refine (generateColumn_agrees hv t j).bind fun coefficients => ?_
    refine (selectRow_agrees hv t coefficients).bind fun row => ?_
    cases row with
    | none => exact .ok rfl
    | some r => exact .ok rfl

/-! ## The exchange -/

theorem dividedBy_agrees (row : BasisRow F) (divisor : F) :
    Agrees (BasisRow.map v) (row.dividedBy divisor) ((row.map v).dividedBy (v divisor)) := by
  unfold BasisRow.dividedBy
  refine Agrees.bind (f := List.map v) (.mapM rfl fun x => hv.div x divisor) fun inverse => ?_
  exact (hv.div row.value divisor).map fun value => rfl

theorem minus_agrees (row : BasisRow F) (factor : F) (other : BasisRow F) :
    Agrees (BasisRow.map v) (row.minus factor other)
      ((row.map v).minus (v factor) (other.map v)) := by
  unfold BasisRow.minus
  refine Agrees.bind (f := List.map v) (.mapM List.zip_map fun term => ?_) fun inverse => ?_
  · exact (hv.mul factor term.2).bind fun product => hv.sub term.1 product
  · refine (hv.mul factor other.value).bind fun product => ?_
    exact (hv.sub row.value product).map fun value => rfl

theorem pivot_agrees (t : Tableau F) (j r : ℕ) (coefficients : List F) :
    Agrees (Tableau.map v) (t.pivot j r coefficients)
      ((t.map v).pivot j r (coefficients.map v)) := by
  unfold pivot
  refine (Agrees.require rfl).bind fun _ => (Agrees.refl (t.isBasic j)).bind fun isBasic => ?_
  refine (Agrees.require rfl).bind fun _ => ?_
  refine (Agrees.fetch v coefficients r).bind fun divisor => ?_
  refine (Agrees.require (hv.nonzero_eq divisor)).bind fun _ => ?_
  refine (Agrees.fetch (BasisRow.map v) t.rows r).bind fun leaving => ?_
  refine (dividedBy_agrees hv leaving divisor).bind fun divided => ?_
  have hentering : BasisRow.map v { divided with column := j, cost := t.phaseCost j } =
      { divided.map v with column := j, cost := (t.map v).phaseCost j } := by
    rw [map_phaseCost hv]
    rfl
  have hsurplus : ((coefficients.map v).drop (t.map v).rowCount).all Scalar.isZero =
      (coefficients.drop t.rowCount).all Scalar.isZero := by
    rw [map_rowCount, ← List.map_drop, List.all_map]
    exact congrArg (List.all _) (funext hv.isZero_eq)
  dsimp only
  rw [← hentering, hsurplus]
  refine Agrees.bind (f := List.map (BasisRow.map v)) (.mapM List.zipIdx_map fun term => ?_)
    fun rows => ?_
  · dsimp only [Prod.map, id]
    split
    · exact .ok rfl
    · rw [List.getElem?_map]
      cases coefficients[term.2]? with
      | none => exact .ok rfl
      | some factor =>
        dsimp only [Option.map]
        rw [hv.isZero_eq]
        split
        · exact .ok rfl
        · exact minus_agrees hv term.1 factor _
  · split
    · exact (Agrees.refl (update t.basic leaving.column fun _ => .ok false)).map fun basic => rfl
    · exact .error _

theorem startPhaseTwo_agrees (t : Tableau F) :
    Agrees (Tableau.map v) t.startPhaseTwo (t.map v).startPhaseTwo := by
  unfold startPhaseTwo
  refine (Agrees.require rfl).bind fun _ => .ok ?_
  have hcost : ∀ j, phaseCost { t.map v with phase := .two } j =
      v (phaseCost { t with phase := .two } j) :=
    map_phaseCost hv { t with phase := .two }
  have hrows : ∀ row : BasisRow F,
      BasisRow.map v { row with cost := phaseCost { t with phase := .two } row.column } =
        { row.map v with cost := phaseCost { t.map v with phase := .two } row.column } := by
    intro row
    rw [hcost]
    rfl
  simp only [Tableau.map, List.map_map]
  congr 1
  exact List.map_congr_left fun row _ => hrows row

end Steps

end Tableau

end LinearOpt
