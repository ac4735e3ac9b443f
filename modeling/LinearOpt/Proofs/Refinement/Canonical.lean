import LinearOpt.Canonical.Form
import LinearOpt.Proofs.Refinement.Agreement

/-!
# The canonical form of an image

`Problem.map v` is the problem with every number replaced by its image under `v`.  If `v` refines a
number type, each pass over a problem agrees with the same pass over its image, so the canonical
form of the image is the image of the canonical form: `Problem.canonicalForm_agrees`.

The passes up to the slacks are followed by one that can be refused half way, and then the problem
is left as it was by then.  That pass has no arithmetic but for negative one, so it cannot overflow
(`Problem.map_addSlacks`).
-/

namespace LinearOpt

variable {F G : Type}

/-! ## Images -/

def Bounds.map (v : F → G) (b : Bounds F) : Bounds G := ⟨b.lower.map v, b.upper.map v⟩

def Entry.map (v : F → G) (e : Entry F) : Entry G := ⟨e.row, e.column, v e.value⟩

def Recovery.map (v : F → G) (r : Recovery F) : Recovery G := ⟨r.paired, v r.scale, v r.offset⟩

def Problem.map (v : F → G) (p : Problem F) : Problem G where
  objective := p.objective
  nonNegativeDefault := p.nonNegativeDefault
  cost := p.cost.map v
  variableBounds := p.variableBounds.map (Bounds.map v)
  constraintBounds := p.constraintBounds.map (Bounds.map v)
  entries := p.entries.map (Entry.map v)
  index := p.index
  transformed := p.transformed

def CanonicalForm.map (v : F → G) (c : CanonicalForm F) : CanonicalForm G :=
  ⟨c.problem.map v, c.recoveries.map (Recovery.map v)⟩

def Outcome.map {α β : Type} (f : α → β) : Outcome α → Outcome β
  | .optimum a => .optimum (f a)
  | .infeasible => .infeasible
  | .unbounded => .unbounded
  | .infeasibleOrUnbounded => .infeasibleOrUnbounded
  | .error => .error

/-! ## Bounds -/

variable [Scalar F] [Scalar G] {v : F → G} (hv : Refines v)

namespace Bounds

include hv

theorem map_nonnegative : (nonnegative : Bounds F).map v = nonnegative := by
  unfold nonnegative map
  rw [← hv.zero_eq]
  rfl

theorem map_isEquality (b : Bounds F) : (b.map v).isEquality = b.isEquality := by
  rcases b with ⟨_ | lower, _ | upper⟩
  · rfl
  · rfl
  · rfl
  · exact hv.eq_eq lower upper

theorem map_isRange (b : Bounds F) : (b.map v).isRange = b.isRange := by
  rcases b with ⟨_ | lower, _ | upper⟩
  · rfl
  · rfl
  · rfl
  · exact congrArg Bool.not (hv.eq_eq lower upper)

theorem loweredBy_agrees (b : Bounds F) (amount : F) :
    Agrees (Bounds.map v) (b.loweredBy amount) ((b.map v).loweredBy (v amount)) := by
  refine (Agrees.option_mapM b.lower fun x => hv.sub x amount).bind fun lower => ?_
  exact (Agrees.option_mapM b.upper fun x => hv.sub x amount).map fun upper => rfl

theorem negated_agrees (b : Bounds F) :
    Agrees (Bounds.map v) b.negated (b.map v).negated := by
  refine (Agrees.option_mapM b.upper hv.neg).bind fun lower => ?_
  exact (Agrees.option_mapM b.lower hv.neg).map fun upper => rfl

theorem map_hasNegativeValue (b : Bounds F) :
    Problem.hasNegativeValue (b.map v) = Problem.hasNegativeValue b := by
  rcases b with ⟨_ | lower, upper⟩
  · rfl
  · exact hv.lt_zero_eq lower

end Bounds

namespace Problem

/-! ## Views -/

section Views

omit [Scalar F] [Scalar G]

variable (v) (p : Problem F)

@[simp] theorem map_variableCount : (p.map v).variableCount = p.variableCount := List.length_map _

@[simp] theorem map_constraintCount : (p.map v).constraintCount = p.constraintCount :=
  List.length_map _

theorem map_column (j : ℕ) : (p.map v).column j = (p.column j).map (Prod.map id v) := by
  unfold column map
  rw [List.filter_map, List.map_map, List.map_map]
  rfl

theorem map_row (i : ℕ) : (p.map v).row i = (p.row i).map (Prod.map id v) := by
  unfold row map
  rw [List.filter_map, List.map_map, List.map_map]
  rfl

theorem map_checkDimensions : (p.map v).checkDimensions = p.checkDimensions := by
  have hentries : (p.map v).entries.forM (fun e => do
      (p.map v).checkConstraint e.row
      (p.map v).checkVariable e.column) = p.entries.forM (fun e => do
      p.checkConstraint e.row
      p.checkVariable e.column) := by
    simp only [checkConstraint, checkVariable, map_constraintCount, map_variableCount]
    simp only [map, List.forM_eq_forM, List.forM_map]
    rfl
  unfold checkDimensions
  rw [hentries]
  simp only [map, List.length_map]

end Views

/-! ## Building -/

theorem map_insert (p : Problem F) (e : Entry F) :
    (p.insert e false).map (Problem.map v) = (p.map v).insert (e.map v) false := by
  have hindex : (p.map v).index[((e.map v).row, (e.map v).column)]? =
    p.index[(e.row, e.column)]? := rfl
  unfold insert
  rw [hindex]
  cases p.index[(e.row, e.column)]? with
  | none => simp [Problem.map, Entry.map, Except.map]
  | some position =>
    exact map_bind (map_update (f := Entry.map v) (fun old => rfl) p.entries position)
      fun entries => rfl

include hv

theorem map_appendColumn (p : Problem F) (cost : F) (column : List (ℕ × F)) :
    (p.appendColumn cost column).map (Problem.map v) =
      (p.map v).appendColumn (v cost) (column.map (Prod.map id v)) := by
  unfold appendColumn
  have hstart : Problem.map v { p with
      cost := p.cost ++ [cost], variableBounds := p.variableBounds ++ [.nonnegative] } =
      { p.map v with
        cost := (p.map v).cost ++ [v cost]
        variableBounds := (p.map v).variableBounds ++ [.nonnegative] } := by
    simp [Problem.map, Bounds.map_nonnegative hv]
  rw [← hstart, map_variableCount]
  exact map_foldlM (fun q entry => map_insert q _) column _

/-! ## Variables -/

theorem minimized_agrees (p : Problem F) :
    Agrees (Problem.map v) p.minimized (p.map v).minimized := by
  have hobjective : (p.map v).objective = p.objective := rfl
  unfold minimized
  rw [hobjective]
  cases p.objective with
  | minimize => exact .ok rfl
  | maximize => exact (Agrees.mapM rfl hv.neg).map fun cost => rfl

theorem moveConstant_agrees (p : Problem F) (j : ℕ) (x : F) :
    Agrees (Problem.map v) (p.moveConstant j x) ((p.map v).moveConstant j (v x)) := by
  unfold moveConstant
  refine Agrees.map (f := List.map (Bounds.map v))
    (.foldlM (map_column v p j) (fun bounds term => ?_) _) fun bounds => rfl
  exact (hv.mul term.2 x).bind fun amount =>
    .update (fun b => b.loweredBy_agrees hv amount) bounds term.1

theorem negateColumn_agrees (p : Problem F) (j : ℕ) :
    Agrees (Problem.map v) (p.negateColumn j) ((p.map v).negateColumn j) := by
  unfold negateColumn
  refine (Agrees.update hv.neg p.cost j).bind fun cost => ?_
  refine Agrees.map (f := List.map (Entry.map v)) (.mapM rfl fun e => ?_) fun entries => rfl
  change Agrees _ (if e.column == j then _ else _) (if e.column == j then _ else _)
  split
  · exact (hv.neg e.value).map fun value => rfl
  · exact .ok rfl

theorem splitVariable_agrees (p : Problem F) (j : ℕ) :
    Agrees (Prod.map (Problem.map v) (Recovery.map v)) (p.splitVariable j)
      ((p.map v).splitVariable j) := by
  unfold splitVariable
  refine (Agrees.mapM (g := Prod.map id v) (map_column v p j) fun term => ?_).bind fun column => ?_
  · exact (hv.neg term.2).map fun value => rfl
  · refine (Agrees.fetch v p.cost j).bind fun old => (hv.neg old).bind fun cost => ?_
    refine Agrees.map (.of_map (map_appendColumn hv p cost column)) fun q => ?_
    rw [map_variableCount, ← hv.one_eq, ← hv.zero_eq]
    rfl

theorem reflectVariable_agrees (p : Problem F) (j : ℕ) (upper : F) :
    Agrees (Prod.map (Problem.map v) (Recovery.map v)) (p.reflectVariable j upper)
      ((p.map v).reflectVariable j (v upper)) := by
  unfold reflectVariable
  refine (moveConstant_agrees hv p j upper).bind fun moved => ?_
  refine (negateColumn_agrees hv moved j).bind fun q => ?_
  rw [← hv.one_eq]
  exact (hv.neg Scalar.one).map fun scale => rfl

theorem shiftVariable_agrees (p : Problem F) (j : ℕ) (lower : F) (upper : Option F) :
    Agrees (Prod.map (Problem.map v) (Recovery.map v)) (p.shiftVariable j lower upper)
      ((p.map v).shiftVariable j (v lower) (upper.map v)) := by
  have hrecovery : Recovery.map v ⟨none, Scalar.one, lower⟩ = ⟨none, Scalar.one, v lower⟩ := by
    rw [← hv.one_eq]
    rfl
  -- The new constraint does not depend on whether the old ones were moved.
  have hbound : ∀ (moved : Problem F) (upper : F),
      Agrees (Prod.map (Problem.map v) (Recovery.map v))
        (do
          let amount ← Scalar.sub upper lower
          let q ← insert
            { moved with constraintBounds := moved.constraintBounds ++ [⟨none, some amount⟩] }
            ⟨moved.constraintCount, j, Scalar.one⟩ false
          return (q, ⟨none, Scalar.one, lower⟩))
        (do
          let amount ← Scalar.sub (v upper) (v lower)
          let q ← insert { moved.map v with
              constraintBounds := (moved.map v).constraintBounds ++ [⟨none, some amount⟩] }
            ⟨(moved.map v).constraintCount, j, Scalar.one⟩ false
          return (q, ⟨none, Scalar.one, v lower⟩)) := by
    intro moved upper
    refine (hv.sub upper lower).bind fun amount => ?_
    refine Agrees.map (f := Problem.map v) (.of_map ?_) fun q => ?_
    · rw [map_insert, map_constraintCount, ← hv.one_eq]
      simp [Problem.map, Bounds.map, Entry.map]
    · exact congrArg (Prod.mk _) hrecovery
  unfold shiftVariable
  rw [hv.isZero_eq]
  cases upper with
  | none =>
    dsimp only [Option.map]
    split
    · exact .ok (congrArg (Prod.mk _) hrecovery)
    · exact (moveConstant_agrees hv p j lower).map fun moved => congrArg (Prod.mk _) hrecovery
  | some upper =>
    dsimp only [Option.map]
    split
    · exact hbound p upper
    · exact (moveConstant_agrees hv p j lower).bind fun moved => hbound moved upper

theorem normalizeVariable_agrees (p : Problem F) (j : ℕ) :
    Agrees (Prod.map (Problem.map v) (Recovery.map v)) (p.normalizeVariable j)
      ((p.map v).normalizeVariable j) := by
  unfold normalizeVariable
  refine (Agrees.fetch (Bounds.map v) p.variableBounds j).bind fun bounds => ?_
  have hset : Problem.map v { p with variableBounds := p.variableBounds.set j .nonnegative } =
      { p.map v with variableBounds := (p.map v).variableBounds.set j .nonnegative } := by
    simp [Problem.map, Bounds.map_nonnegative hv, List.map_set]
  dsimp only
  rw [← hset]
  rcases bounds with ⟨_ | lower, _ | upper⟩
  · exact splitVariable_agrees hv _ j
  · exact reflectVariable_agrees hv _ j upper
  · exact shiftVariable_agrees hv _ j lower none
  · exact shiftVariable_agrees hv _ j lower (some upper)

theorem normalizeEach_agrees (js : List ℕ) (p : Problem F) :
    Agrees (Prod.map (Problem.map v) (List.map (Recovery.map v))) (p.normalizeEach js)
      ((p.map v).normalizeEach js) := by
  induction js generalizing p with
  | nil => exact .ok rfl
  | cons j js ih =>
    refine (normalizeVariable_agrees hv p j).bind fun here => ?_
    exact (ih here.1).map fun later => rfl

theorem normalizeVariables_agrees (p : Problem F) :
    Agrees (Prod.map (Problem.map v) (List.map (Recovery.map v))) p.normalizeVariables
      (p.map v).normalizeVariables := by
  unfold normalizeVariables
  rw [map_variableCount]
  exact normalizeEach_agrees hv _ p

/-! ## Constraints -/

theorem splitRange_agrees (p : Problem F) (i : ℕ) :
    Agrees (Prod.map (Problem.map v) id) (p.splitRange i) ((p.map v).splitRange i) := by
  unfold splitRange
  refine (Agrees.fetch (Bounds.map v) p.constraintBounds i).bind fun bounds => ?_
  rw [bounds.map_isRange hv]
  split
  · have hstart : Problem.map v { p with
        constraintBounds :=
          p.constraintBounds.set i ⟨bounds.lower, none⟩ ++ [⟨none, bounds.upper⟩] } =
        { p.map v with
          constraintBounds := (p.map v).constraintBounds.set i ⟨(bounds.map v).lower, none⟩ ++
            [⟨none, (bounds.map v).upper⟩] } := by
      simp [Problem.map, Bounds.map, List.map_set]
    dsimp only
    rw [← hstart, map_constraintCount]
    refine Agrees.map (f := Problem.map v) (.foldlM (map_row v p i) (fun q term => ?_) _)
      fun q => rfl
    exact .of_map (map_insert q _)
  · exact .ok rfl

theorem splitEach_agrees (is : List ℕ) (p : Problem F) :
    Agrees (Prod.map (Problem.map v) id) (p.splitEach is) ((p.map v).splitEach is) := by
  induction is generalizing p with
  | nil => exact .ok rfl
  | cons i is ih =>
    refine (splitRange_agrees hv p i).bind fun here => ?_
    exact (ih here.1).map fun later => rfl

theorem splitRanges_agrees (p : Problem F) :
    Agrees (Prod.map (Problem.map v) id) p.splitRanges (p.map v).splitRanges := by
  unfold splitRanges
  rw [map_constraintCount]
  exact splitEach_agrees hv _ p

theorem map_withSlack (p : Problem F) (i : ℕ) (value coefficient : F) :
    (p.withSlack i value coefficient).map (Problem.map v) =
      (p.map v).withSlack i (v value) (v coefficient) := by
  unfold withSlack
  have hset : Problem.map v { p with
      constraintBounds := p.constraintBounds.set i ⟨some value, some value⟩ } =
      { p.map v with
        constraintBounds :=
          (p.map v).constraintBounds.set i ⟨some (v value), some (v value)⟩ } := by
    simp [Problem.map, Bounds.map, List.map_set]
  dsimp only
  rw [← hset, ← hv.zero_eq]
  exact map_appendColumn hv _ _ _

theorem map_addSlack (p : Problem F) (i : ℕ) :
    (p.addSlack i).map (Prod.map (Problem.map v) id) = (p.map v).addSlack i := by
  unfold addSlack
  change _ = liftM (fetch (p.constraintBounds.map (Bounds.map v)) i) >>= _
  rw [← map_fetch]
  cases fetch p.constraintBounds i with
  | error e => rfl
  | ok bounds =>
    rcases bounds with ⟨_ | lower, _ | upper⟩
    · rfl
    · refine map_bind (f := Problem.map v) ?_ fun q => rfl
      rw [map_lift, map_withSlack hv, hv.one_eq]
    · refine map_bind (f := v) ?_ fun coefficient => map_bind (f := Problem.map v) ?_ fun q => rfl
      · rw [map_lift, hv.neg_one]
      · rw [map_lift, map_withSlack hv]
    · rfl

theorem map_slackEach (is : List ℕ) (p : Problem F) :
    Prod.map (Problem.map v) id (p.slackEach is) = (p.map v).slackEach is := by
  induction is generalizing p with
  | nil => rfl
  | cons i is ih =>
    unfold slackEach
    rw [← map_addSlack hv]
    cases p.addSlack i with
    -- a refusal leaves the problem as it is by now
    | error e => rfl
    | ok here =>
      simp only [Except.map, Prod.map_fst, ← ih]
      rfl

theorem map_addSlacks (p : Problem F) :
    Prod.map (Problem.map v) id p.addSlacks = (p.map v).addSlacks := by
  unfold addSlacks
  rw [map_constraintCount]
  exact map_slackEach hv _ p

theorem withNonnegativeValues_agrees (p : Problem F) :
    Agrees (Problem.map v) p.withNonnegativeValues (p.map v).withNonnegativeValues := by
  unfold withNonnegativeValues
  have hnegative : (p.map v).constraintBounds.map hasNegativeValue =
      p.constraintBounds.map hasNegativeValue := by
    simp only [Problem.map, List.map_map, Function.comp_def, Bounds.map_hasNegativeValue hv]
  rw [hnegative]
  refine Agrees.bind (f := List.map (Bounds.map v)) (.mapM rfl fun b => ?_) fun bounds => ?_
  · rw [b.map_hasNegativeValue hv]
    split
    · exact b.negated_agrees hv
    · exact .ok rfl
  · refine Agrees.map (f := List.map (Entry.map v)) (.mapM rfl fun e => ?_) fun entries => rfl
    refine (Agrees.refl _).bind fun negative => ?_
    dsimp only [id]
    split
    · exact (hv.neg e.value).map fun value => rfl
    · exact .ok rfl

theorem map_isCanonical (p : Problem F) : (p.map v).isCanonical = p.isCanonical := by
  unfold isCanonical
  refine congrArg₂ and (congrArg₂ and rfl ?_) ?_
  · refine List.all_map.trans (congrArg (List.all p.variableBounds) (funext fun b => ?_))
    rcases b with ⟨_ | lower, _ | upper⟩
    · rfl
    · rfl
    · exact hv.isZero_eq lower
    · rfl
  · refine List.all_map.trans (congrArg (List.all p.constraintBounds) (funext fun b => ?_))
    rw [Function.comp_apply, b.map_isEquality hv, b.map_hasNegativeValue hv]

/-! ## All passes -/

theorem normalize_agrees (p : Problem F) :
    Agrees (Prod.map (Problem.map v) (Except.map (Prod.map (List.map (Recovery.map v)) id)))
      p.normalize (p.map v).normalize := by
  unfold normalize
  refine (minimized_agrees hv p).bind fun p => ?_
  refine (normalizeVariables_agrees hv p).bind fun normalized => ?_
  refine (splitRanges_agrees hv normalized.1).bind fun split => ?_
  dsimp only [Prod.map]
  rw [← map_addSlacks hv]
  rcases split.1.addSlacks with ⟨q, _ | slacks⟩
  · exact .ok rfl
  · exact (withNonnegativeValues_agrees hv q).map fun q => rfl

omit hv in
/-- The canonical forms of two problems agree if the passes over them do.  Nothing else depends on
the numbers. -/
theorem canonicalForm_agrees_of_normalize {p : Problem F} {q : Problem G}
    {f : Problem F → Problem G} {g : List (Recovery F) → List (Recovery G)}
    (htransformed : q.transformed = p.transformed)
    (hdimensions : q.checkDimensions = p.checkDimensions)
    (hcanonical : ∀ r, (f r).isCanonical = r.isCanonical)
    (h : Agrees (Prod.map f (Except.map (Prod.map g id))) p.normalize q.normalize) :
    Agrees (fun c => ⟨f c.problem, g c.recoveries⟩) p.canonicalForm.outcome
      q.canonicalForm.outcome := by
  unfold canonicalForm toCanonical
  rw [htransformed, hdimensions]
  cases p.transformed with
  | true => exact .error _
  | false =>
    simp only [Bool.false_eq_true, if_false]
    cases p.checkDimensions with
    | error e => exact .error _
    | ok _ =>
      dsimp only
      rcases h with hover | hmap
      · rw [hover]
        exact Or.inl rfl
      · rw [← hmap]
        rcases p.normalize with e | ⟨r, e | ⟨recoveries, slacks, ranges⟩⟩
        · exact .error _
        · exact .error _
        · simp only [Except.map, Prod.map, Logged.outcome_bind, Logged.outcome_report, ok_bind,
            hcanonical]
          cases require r.isCanonical with
          | error e => exact .error _
          | ok _ => exact .ok rfl

theorem canonicalForm_agrees (p : Problem F) :
    Agrees (CanonicalForm.map v) p.canonicalForm.outcome (p.map v).canonicalForm.outcome :=
  canonicalForm_agrees_of_normalize rfl (map_checkDimensions v p) (map_isCanonical hv)
    (normalize_agrees hv p)

end Problem

/-! ## Getting back -/

section Recovery

include hv

theorem Recovery.value_agrees (r : Recovery F) (j : ℕ) (canonical : List F) :
    Agrees v (r.value j canonical) ((r.map v).value j (canonical.map v)) := by
  have hvalueAt : ∀ j, Agrees v (liftM (valueAt canonical j) : Except Failure F)
      (liftM (valueAt (canonical.map v) j)) := by
    intro j
    unfold valueAt
    rw [List.getElem?_map, List.length_map]
    cases canonical[j]? with
    | some x => exact .ok rfl
    | none => exact .error _
  unfold value
  refine (hvalueAt j).bind fun x => (hv.mul x r.scale).lift.bind fun scaled => ?_
  refine (hv.add scaled r.offset).lift.bind fun shifted => ?_
  rcases r with ⟨_ | position, scale, offset⟩
  · exact .ok rfl
  · exact (hvalueAt position).bind fun part => (hv.sub shifted part).lift

theorem CanonicalForm.map_values (c : CanonicalForm F) : (c.map v).values = c.values.map v := by
  unfold values
  rw [List.map_map]
  refine List.map_map.trans (List.map_congr_left fun b _ => ?_)
  rcases b with ⟨_ | lower, upper⟩
  · exact hv.zero_eq.symm
  · rfl

theorem CanonicalForm.reconstruct_agrees (c : CanonicalForm F) (result : Outcome (List F)) :
    Agrees (List.map v) (c.reconstruct result)
      ((c.map v).reconstruct (result.map (List.map v))) := by
  unfold reconstruct Recovery.values
  cases result with
  | optimum canonical =>
    exact .mapM List.zipIdx_map fun term => term.1.value_agrees hv term.2 canonical
  | infeasible => exact .error _
  | unbounded => exact .error _
  | infeasibleOrUnbounded => exact .error _
  | error => exact .error _

end Recovery

end LinearOpt
