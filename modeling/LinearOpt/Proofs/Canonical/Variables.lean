import LinearOpt.Proofs.Canonical.Columns
import Mathlib.Algebra.Order.Group.MinMax

/-!
# Nonnegative variables

Each variable is written in terms of nonnegative ones: a free variable as `x' - x''`, one that is
only bounded from above as `upper - x'`, any other as `x' + lower`.  `Recovery.back` is the way back.

`Normalized` is what one such step does.  `normalizeSplit`, `normalizeReflect` and `normalizeShift`
are the three cases, and `normalizeEach_spec` is the pass over all variables.  A step changes one
variable and uses that variable and new ones only, so the ways back do not interfere, and together
they are `recovered`.
-/

namespace LinearOpt

/-- The value of variable `j` from the values of the canonical variables. -/
def Recovery.back (r : Recovery ℚ) (j : ℕ) (z : ℕ → ℚ) : ℚ :=
  z j * r.scale + r.offset - (match r.paired with
    | some k => z k
    | none => 0)

theorem Recovery.back_congr (r : Recovery ℚ) {j : ℕ} {z w : ℕ → ℚ} (hj : z j = w j)
    (hpaired : ∀ i, r.paired = some i → z i = w i) : r.back j z = r.back j w := by
  unfold back
  rw [hj]
  cases hcase : r.paired with
  | none => rfl
  | some i =>
    dsimp only
    rw [hpaired i hcase]

namespace Problem

variable {p : Problem ℚ} {j : ℕ}

/-- The problem `q` is `p` with variable `j` written in terms of nonnegative variables. -/
structure Normalized (p : Problem ℚ) (j : ℕ) (q : Problem ℚ) (r : Recovery ℚ) : Prop where
  wellFormed : q.WellFormed
  objective_eq : q.objective = p.objective
  variableCount_le : p.variableCount ≤ q.variableCount
  paired_lt : ∀ k, r.paired = some k → p.variableCount ≤ k ∧ k < q.variableCount
  bounds_eq : ∀ (k : ℕ) b, q.variableBounds[k]? = some b →
    b = .nonnegative ∨ k ≠ j ∧ p.variableBounds[k]? = some b
  reformulates : Reformulates p q (fun z => Function.update z j (r.back j z)) 1

/-- Only the bounds of the variable that changes have to be looked at again. -/
theorem feasible_update_iff {b : Bounds ℚ} (hb : p.variableBounds[j]? = some b) (z : ℕ → ℚ)
    (x : ℚ) : p.Feasible (Function.update z j x) ↔
      (b.Holds x ∧ AllHoldBut j p.variableBounds z) ∧
        AllHold p.constraintBounds fun i => rowForm p.entries i (Function.update z j x) := by
  have hbut : AllHoldBut j p.variableBounds (Function.update z j x) ↔
      AllHoldBut j p.variableBounds z :=
    allHoldBut_congr fun k _ hk => Function.update_of_ne hk x z
  rw [feasible_iff, allHold_iff hb, Function.update_self, hbut]

theorem variableBounds_lt (hp : p.WellFormed) {k : ℕ} {b : Bounds ℚ}
    (hb : p.variableBounds[k]? = some b) : k < p.variableCount := by
  rw [variableCount, ← hp.bounds_length]
  exact (List.getElem?_eq_some_iff.mp hb).1

/-- The first thing that happens to each variable. -/
def withNonnegative (p : Problem ℚ) (j : ℕ) : Problem ℚ :=
  { p with variableBounds := p.variableBounds.set j .nonnegative }

theorem withNonnegative_wellFormed (hp : p.WellFormed) (j : ℕ) :
    (p.withNonnegative j).WellFormed :=
  hp.of_keys_eq rfl rfl rfl List.length_set rfl hp.bounded

/-! ## Free variables -/

/-- A row gains what the second part contributes. -/
theorem rowForm_split (es : List (Entry ℚ)) (i j n : ℕ) (z : ℕ → ℚ) :
    rowForm (es ++ columnEntries n (((es.filter (·.column == j)).map fun e => (e.row, e.value)).map
      fun term => (term.1, -term.2))) i z =
      rowForm es i (Function.update z j (z j - z n)) := by
  have hneg : ∀ column : List (ℕ × ℚ),
      ((column.map fun term => (term.1, -term.2)).map
        fun term => if term.1 = i then term.2 else 0).sum =
      -(column.map fun term => if term.1 = i then term.2 else 0).sum := by
    intro column
    induction column with
    | nil => simp
    | cons term column ih =>
      simp only [List.map_cons, List.sum_cons] at ih ⊢
      rw [ih]
      split <;> ring
  rw [rowForm_append, rowForm_columnEntries, hneg, sum_column, rowForm_update]
  ring

/-- Every number is the difference of two nonnegative ones. -/
theorem exists_parts (z : ℕ → ℚ) (x : ℚ) {j l : ℕ} (hne : j ≠ l) :
    ∃ w : ℕ → ℚ, w j - w l = x ∧ (0 ≤ w j ∧ 0 ≤ w l) ∧ ∀ k, k ≠ l → k ≠ j → w k = z k := by
  have hj : Function.update (Function.update z j (max x 0)) l (max (-x) 0) j = max x 0 := by
    rw [Function.update_of_ne hne, Function.update_self]
  refine ⟨Function.update (Function.update z j (max x 0)) l (max (-x) 0), ?_, ⟨?_, ?_⟩,
    fun k hkl hkj => ?_⟩
  · rw [hj, Function.update_self]
    exact max_zero_sub_max_neg_zero_eq_self x
  · rw [hj]
    exact le_max_right x 0
  · rw [Function.update_self]
    exact le_max_right (-x) 0
  · rw [Function.update_of_ne hkl, Function.update_of_ne hkj]

theorem normalized_split (hp : p.WellFormed) (hb : p.variableBounds[j]? = some .free)
    {q : Problem ℚ} (hq : q.WellFormed) (hobjective : q.objective = p.objective)
    (hcost : q.cost = p.cost ++ [-valuation p.cost j])
    (hvariables : q.variableBounds = p.variableBounds.set j .nonnegative ++ [.nonnegative])
    (hconstraints : q.constraintBounds = p.constraintBounds)
    (hrows : ∀ i z, rowForm q.entries i z =
      rowForm p.entries i (Function.update z j (z j - z p.variableCount))) :
    Normalized p j q { paired := some p.variableCount, scale := 1, offset := 0 } := by
  have hj := variableBounds_lt hp hb
  have hjb : j < p.variableBounds.length := (List.getElem?_eq_some_iff.mp hb).1
  have hcount : q.variableCount = p.variableCount + 1 := by
    rw [variableCount, hcost, List.length_append, List.length_singleton]
    rfl
  have hback : (fun z => Function.update z j (Recovery.back
      { paired := some p.variableCount, scale := 1, offset := 0 } j z)) =
      fun z => Function.update z j (z j - z p.variableCount) := by
    funext z
    rw [Recovery.back, mul_one, add_zero]
  refine ⟨hq, hobjective, by omega, fun k hk => ?_, fun k b hk => ?_, ?_⟩
  · cases hk
    exact ⟨le_refl _, by omega⟩
  · rw [hvariables] at hk
    rcases getElem?_concat hk with hnew | hset
    · exact Or.inl hnew
    · exact getElem?_set_cases hset
  · rw [hback]
    refine .of_substitution hp hb (fun z => 0 ≤ z j ∧ 0 ≤ z p.variableCount)
      (fun z => ?_) (fun z x _ => ?_) ⟨0, fun z => ?_⟩ (by omega) fun z w h => ?_
    · have hlength : (p.variableBounds.set j .nonnegative).length = p.variableCount := by
        rw [List.length_set, hp.bounds_length]
        rfl
      rw [feasible_iff, feasible_update_iff hb, hvariables, hconstraints, allHold_append,
        allHold_set hjb, hlength, Bounds.holds_nonnegative, Bounds.holds_nonnegative]
      simp only [hrows]
      have hfree := Bounds.holds_free (z j - z p.variableCount)
      tauto
    · obtain ⟨w, hvalue, hnonneg, hrest⟩ := exists_parts z x hj.ne
      exact ⟨w, hvalue, hnonneg, fun k hk hkj => hrest k hk.ne hkj⟩
    · have hlength : p.cost.length = p.variableCount := rfl
      rw [linear_update hj, hcost, linear_append, hlength]
      ring
    · rw [h j (by omega), h p.variableCount (by omega)]

theorem splitVariable_eq (hp : p.WellFormed) (hj : j < p.variableCount) :
    ∃ index, p.splitVariable j = .ok
        ({ p with
          cost := p.cost ++ [-valuation p.cost j]
          variableBounds := p.variableBounds ++ [.nonnegative]
          entries := p.entries ++ columnEntries p.variableCount
            ((p.column j).map fun term => (term.1, -term.2))
          index },
        { paired := some p.variableCount, scale := 1, offset := 0 }) ∧
      WellFormed { p with
        cost := p.cost ++ [-valuation p.cost j]
        variableBounds := p.variableBounds ++ [.nonnegative]
        entries := p.entries ++ columnEntries p.variableCount
          ((p.column j).map fun term => (term.1, -term.2))
        index } := by
  have hnodup : (((p.column j).map fun term => (term.1, -term.2)).map Prod.fst).Nodup := by
    rw [List.map_map]
    exact nodup_column hp j
  have hrows : ∀ term ∈ (p.column j).map fun term => (term.1, -term.2),
      term.1 < p.constraintCount := by
    intro term hterm
    obtain ⟨old, hold, rfl⟩ := List.mem_map.mp hterm
    have hrow := row_lt_of_mem_column hp hold
    exact hrow
  obtain ⟨index, hrun, hwf⟩ := appendColumn_spec hp (-valuation p.cost j) hnodup hrows
  refine ⟨index, ?_, hwf⟩
  have hcolumn : ((p.column j).mapM fun (i, value) => do return (i, ← Scalar.neg value)) =
      (.ok ((p.column j).map fun term => (term.1, -term.2)) : Except Fault _) :=
    mapM_eq_ok fun _ _ => rfl
  unfold splitVariable
  rw [hcolumn, ok_bind, fetch_eq_ok (fetch_cost hj), ok_bind, Exact.neg_eq, ok_bind, hrun]
  rfl

theorem normalizeSplit (hp : p.WellFormed) (hb : p.variableBounds[j]? = some .free) :
    ∃ q r, (p.withNonnegative j).splitVariable j = .ok (q, r) ∧ Normalized p j q r := by
  obtain ⟨index, hrun, hwf⟩ :=
    splitVariable_eq (withNonnegative_wellFormed hp j) (variableBounds_lt hp hb)
  exact ⟨_, _, hrun, normalized_split hp hb hwf rfl rfl rfl rfl fun i z =>
    rowForm_split p.entries i j p.variableCount z⟩

/-! ## Bounded variables -/

/-- A step without a new variable: an affine change of variable `j`. -/
theorem normalized_affine (hp : p.WellFormed) {b : Bounds ℚ} (hb : p.variableBounds[j]? = some b)
    {q : Problem ℚ} (hq : q.WellFormed) (hobjective : q.objective = p.objective)
    (hvariables : q.variableBounds = p.variableBounds.set j .nonnegative)
    (hcount : q.variableCount = p.variableCount) {scale offset : ℚ} (hscale : scale ≠ 0)
    (hfeasible : ∀ z, q.Feasible z ↔ p.Feasible (Function.update z j (z j * scale + offset)))
    (hcost : ∃ shift, ∀ z, linear p.cost (Function.update z j (z j * scale + offset)) =
      linear q.cost z + shift) :
    Normalized p j q { paired := none, scale, offset } := by
  have hback : (fun z => Function.update z j (Recovery.back
      { paired := none, scale, offset } j z)) =
      fun z => Function.update z j (z j * scale + offset) := by
    funext z
    rw [Recovery.back, sub_zero]
  have hj := variableBounds_lt hp hb
  refine ⟨hq, hobjective, hcount.ge, nofun, fun k b' hk => ?_, ?_⟩
  · rw [hvariables] at hk
    exact getElem?_set_cases hk
  · rw [hback]
    refine .of_substitution hp hb (fun _ => True) (fun z => ?_) (fun z x _ => ?_) hcost
      hcount.ge fun z w h => ?_
    · rw [hfeasible, and_true]
    · refine ⟨Function.update z j ((x - offset) / scale), ?_, trivial, fun k _ hkj => ?_⟩
      · rw [Function.update_self, div_mul_cancel₀ _ hscale, sub_add_cancel]
      · rw [Function.update_of_ne hkj]
    · rw [h j (by omega)]

theorem reflectVariable_eq (hp : p.WellFormed) (hj : j < p.variableCount) (upper : ℚ) :
    p.reflectVariable j upper = .ok
      ({ p with
        constraintBounds :=
          p.constraintBounds.mapIdx fun i b => b.lowered (coefficientAt p.entries i j * upper)
        cost := p.cost.set j (-valuation p.cost j)
        entries := p.entries.map (negatedAt j) },
      { paired := none, scale := -1, offset := upper }) := by
  unfold reflectVariable
  rw [moveConstant_eq hp, ok_bind, negateColumn_eq]
  · rfl
  · exact hj

theorem wellFormed_reflected (hp : p.WellFormed) (j : ℕ) (upper : ℚ) : WellFormed { p with
    constraintBounds :=
      p.constraintBounds.mapIdx fun i b => b.lowered (coefficientAt p.entries i j * upper)
    cost := p.cost.set j (-valuation p.cost j)
    entries := p.entries.map (negatedAt j) } :=
  hp.of_keys_eq rfl (keys_negated _ j) List.length_set rfl List.length_mapIdx
    (lowered_ne_free_of_mem hp _)

theorem normalizeReflect (hp : p.WellFormed) {upper : ℚ}
    (hb : p.variableBounds[j]? = some ⟨none, some upper⟩) :
    ∃ q r, (p.withNonnegative j).reflectVariable j upper = .ok (q, r) ∧ Normalized p j q r := by
  have hj := variableBounds_lt hp hb
  have hjb : j < p.variableBounds.length := (List.getElem?_eq_some_iff.mp hb).1
  have hwf := withNonnegative_wellFormed hp j
  refine ⟨_, _, reflectVariable_eq hwf hj upper, ?_⟩
  refine normalized_affine hp hb ?_ ?_ ?_ ?_ (neg_ne_zero.mpr one_ne_zero) (fun z => ?_)
    ⟨valuation p.cost j * upper, fun z => ?_⟩
  · exact wellFormed_reflected hwf j upper
  · rfl
  · rfl
  · exact List.length_set
  · have hrows : ∀ i,
        rowForm (p.entries.map (negatedAt j)) i z + coefficientAt p.entries i j * upper =
        rowForm p.entries i (Function.update z j (z j * -1 + upper)) := by
      intro i
      rw [rowForm_negated, rowForm_update, rowForm_update]
      ring
    have hbound : Bounds.Holds ⟨none, some upper⟩ (z j * -1 + upper) ↔ 0 ≤ z j := by
      simp [Bounds.Holds]
    rw [feasible_update_iff hb, feasible_iff, hbound]
    simp only [withNonnegative, allHold_lowered, hrows, allHold_set hjb, Bounds.holds_nonnegative]
  · show linear p.cost _ = linear (p.cost.set j (-valuation p.cost j)) z + _
    rw [linear_update hj, linear_set hj]
    ring

/-- The constraint bounds after variable `j` was shifted by a constant. -/
def shiftedBounds (p : Problem ℚ) (j : ℕ) (lower : ℚ) : List (Bounds ℚ) :=
  p.constraintBounds.mapIdx fun i b => b.lowered (coefficientAt p.entries i j * lower)

theorem wellFormed_shifted (hp : p.WellFormed) (j : ℕ) (lower : ℚ) :
    WellFormed { p with constraintBounds := p.shiftedBounds j lower } :=
  hp.of_keys_eq rfl rfl rfl rfl List.length_mapIdx (lowered_ne_free_of_mem hp _)

/-- A shift by zero is left out, and would change nothing. -/
theorem shiftVariable_eq (hp : p.WellFormed) (j : ℕ) (lower : ℚ) (upper : Option ℚ) :
    p.shiftVariable j lower upper = (do
      let q ← (match upper with
        | none => .ok { p with constraintBounds := p.shiftedBounds j lower }
        | some upper => insert { p with
            constraintBounds := p.shiftedBounds j lower ++ [⟨none, some (upper - lower)⟩] }
            ⟨(p.shiftedBounds j lower).length, j, 1⟩ false : Except Fault (Problem ℚ))
      return (q, { paired := none, scale := 1, offset := lower })) := by
  unfold shiftVariable
  by_cases hzero : lower = 0
  · have hself : p.shiftedBounds j lower = p.constraintBounds := by
      apply List.ext_getElem?
      intro i
      rw [shiftedBounds, List.getElem?_mapIdx]
      simp only [hzero, mul_zero, Bounds.lowered_zero, Option.map_id']
    rw [if_pos (by simpa using hzero), hself]
    cases upper <;> rfl
  · rw [if_neg (by simpa using hzero), moveConstant_eq hp]
    cases upper <;> rfl

/-- The new constraint has one coefficient, which is new. -/
theorem shiftVariable_some_eq (hp : p.WellFormed) (hj : j < p.variableCount) (lower upper : ℚ) :
    ∃ index, p.shiftVariable j lower (some upper) = .ok
        ({ p with
          constraintBounds := p.shiftedBounds j lower ++ [⟨none, some (upper - lower)⟩]
          entries := p.entries ++ rowEntries p.constraintCount [(j, 1)]
          index },
        { paired := none, scale := 1, offset := lower }) ∧
      WellFormed { p with
        constraintBounds := p.shiftedBounds j lower ++ [⟨none, some (upper - lower)⟩]
        entries := p.entries ++ rowEntries p.constraintCount [(j, 1)]
        index } := by
  have hlength : (p.shiftedBounds j lower).length = p.constraintCount := List.length_mapIdx
  have hbounded : ∀ b ∈ p.shiftedBounds j lower ++ [⟨none, some (upper - lower)⟩], b ≠ .free := by
    intro b hb
    rcases List.mem_append.mp hb with hold | hself
    · exact lowered_ne_free_of_mem hp _ b hold
    · rw [List.mem_singleton] at hself
      rw [hself]
      exact nofun
  have hcolumns : ∀ term ∈ [(j, (1 : ℚ))], term.1 < p.variableCount := by
    intro term hterm
    rw [List.mem_singleton.mp hterm]
    exact hj
  have hnodup : ([(j, (1 : ℚ))].map Prod.fst).Nodup := List.nodup_singleton j
  obtain ⟨index, hrun, hwf⟩ := appendRow_spec hp hlength hbounded hnodup hcolumns
  rw [List.foldlM_cons] at hrun
  refine ⟨index, ?_, hwf⟩
  rw [shiftVariable_eq hp, hlength]
  dsimp only
  obtain ⟨q, hinsert, hq⟩ := bind_eq_ok.mp hrun
  cases hq
  rw [hinsert]
  rfl

/-- The rows at the new variable are the rows at the old one. -/
theorem allHold_shifted (p : Problem ℚ) (j : ℕ) (lower : ℚ) (z : ℕ → ℚ) :
    AllHold (p.shiftedBounds j lower) (fun i => rowForm p.entries i z) ↔
      AllHold p.constraintBounds
        fun i => rowForm p.entries i (Function.update z j (z j * 1 + lower)) := by
  have hrows : ∀ i, rowForm p.entries i z + coefficientAt p.entries i j * lower =
      rowForm p.entries i (Function.update z j (z j * 1 + lower)) := by
    intro i
    rw [rowForm_update]
    ring
  unfold shiftedBounds
  rw [allHold_lowered]
  simp only [hrows]

theorem normalizeShift (hp : p.WellFormed) {lower : ℚ} {upper : Option ℚ}
    (hb : p.variableBounds[j]? = some ⟨some lower, upper⟩) :
    ∃ q r, (p.withNonnegative j).shiftVariable j lower upper = .ok (q, r) ∧
      Normalized p j q r := by
  have hj := variableBounds_lt hp hb
  have hjb : j < p.variableBounds.length := (List.getElem?_eq_some_iff.mp hb).1
  have hwf := withNonnegative_wellFormed hp j
  have hshifted := fun z => allHold_shifted p j lower z
  have hcost : ∀ z, linear p.cost (Function.update z j (z j * 1 + lower)) =
      linear p.cost z + valuation p.cost j * lower := by
    intro z
    rw [linear_update hj]
    ring
  cases upper with
  | none =>
    have hbound : ∀ x : ℚ, Bounds.Holds ⟨some lower, none⟩ (x * 1 + lower) ↔ 0 ≤ x := by
      intro x
      simp [Bounds.Holds]
    refine ⟨_, _, shiftVariable_eq hwf j lower none, ?_⟩
    refine normalized_affine hp hb ?_ ?_ ?_ ?_ one_ne_zero (fun z => ?_) ⟨_, hcost⟩
    · exact wellFormed_shifted hwf j lower
    · rfl
    · rfl
    · rfl
    · rw [feasible_update_iff hb, feasible_iff, hbound]
      show AllHold (p.variableBounds.set j .nonnegative) z ∧
        AllHold (p.shiftedBounds j lower) (fun i => rowForm p.entries i z) ↔ _
      rw [hshifted, allHold_set hjb, Bounds.holds_nonnegative]
  | some upper =>
    have hbound : ∀ x : ℚ, Bounds.Holds ⟨some lower, some upper⟩ (x * 1 + lower) ↔
        0 ≤ x ∧ Bounds.Holds ⟨none, some (upper - lower)⟩ x := by
      intro x
      simp [Bounds.Holds, le_sub_iff_add_le]
    obtain ⟨index, hrun, hwf'⟩ := shiftVariable_some_eq hwf hj lower upper
    refine ⟨_, _, hrun, ?_⟩
    refine normalized_affine hp hb hwf' ?_ ?_ ?_ one_ne_zero (fun z => ?_) ⟨_, hcost⟩
    · rfl
    · rfl
    · rfl
    · have hlength : (p.shiftedBounds j lower).length = p.constraintCount := List.length_mapIdx
      have hsum : ([(j, (1 : ℚ))].map fun term => term.2 * z term.1).sum = z j := by
        rw [List.map_singleton, List.sum_singleton, one_mul]
      rw [feasible_update_iff hb, feasible_iff, hbound]
      show AllHold (p.variableBounds.set j .nonnegative) z ∧
        AllHold (p.shiftedBounds j lower ++ [⟨none, some (upper - lower)⟩])
          (fun i => rowForm (p.entries ++ rowEntries p.constraintCount [(j, 1)]) i z) ↔ _
      rw [allHold_appendRow hp hlength, hsum, hshifted, allHold_set hjb, Bounds.holds_nonnegative]
      tauto

/-! ## All variables -/

theorem normalizeVariable_spec (hp : p.WellFormed) (hj : j < p.variableCount) :
    ∃ q r, p.normalizeVariable j = .ok (q, r) ∧ Normalized p j q r := by
  have hjb : j < p.variableBounds.length := by
    rw [hp.bounds_length]
    exact hj
  have hb := List.getElem?_eq_getElem hjb
  rcases hbounds : p.variableBounds[j] with ⟨lower, upper⟩
  rw [hbounds] at hb
  unfold normalizeVariable
  rw [fetch_eq_ok hb, ok_bind]
  cases lower with
  | some lower => exact normalizeShift hp hb
  | none =>
    cases upper with
    | none => exact normalizeSplit hp hb
    | some upper => exact normalizeReflect hp hb

/-- The way back for the variables from `k` on. -/
def recovered (k : ℕ) (rs : List (Recovery ℚ)) (z : ℕ → ℚ) (j : ℕ) : ℚ :=
  if j < k then z j
  else
    match rs[j - k]? with
    | some r => r.back j z
    | none => z j

theorem recovered_of_lt {k j : ℕ} (hj : j < k) (rs : List (Recovery ℚ)) (z : ℕ → ℚ) :
    recovered k rs z j = z j := if_pos hj

theorem recovered_of_ge {k j : ℕ} {rs : List (Recovery ℚ)} (hj : k + rs.length ≤ j)
    (z : ℕ → ℚ) : recovered k rs z j = z j := by
  rw [recovered, if_neg (by omega), List.getElem?_eq_none (by omega)]

/-- Each way back reads its own variable and new ones, which the others leave as they are. -/
theorem recovered_cons {k : ℕ} {r : Recovery ℚ} {rs : List (Recovery ℚ)}
    (hpaired : ∀ i, r.paired = some i → k + 1 + rs.length ≤ i) (z : ℕ → ℚ) :
    Function.update (recovered (k + 1) rs z) k (r.back k (recovered (k + 1) rs z)) =
      recovered k (r :: rs) z := by
  have hback : r.back k (recovered (k + 1) rs z) = r.back k z :=
    r.back_congr (recovered_of_lt (Nat.lt_succ_self k) rs z) fun i hi =>
      recovered_of_ge (hpaired i hi) z
  funext j
  rcases Nat.lt_trichotomy j k with hlt | rfl | hgt
  · rw [Function.update_of_ne hlt.ne, recovered_of_lt hlt, recovered_of_lt (by omega)]
  · rw [Function.update_self, hback, recovered, if_neg (lt_irrefl _), Nat.sub_self,
      List.getElem?_cons_zero]
  · have hsub : j - k = j - (k + 1) + 1 := by omega
    rw [Function.update_of_ne hgt.ne', recovered, recovered, if_neg (by omega), if_neg (by omega),
      hsub, List.getElem?_cons_succ]

/-- The problem `q` is `p` with `l` variables from `k` on written in terms of nonnegative ones. -/
structure NormalizedFrom (p : Problem ℚ) (k l : ℕ) (q : Problem ℚ) (rs : List (Recovery ℚ)) :
    Prop where
  wellFormed : q.WellFormed
  objective_eq : q.objective = p.objective
  variableCount_le : p.variableCount ≤ q.variableCount
  length_eq : rs.length = l
  paired_lt : ∀ r ∈ rs, ∀ i, r.paired = some i → k + l ≤ i ∧ i < q.variableCount
  bounds_eq : ∀ b ∈ q.variableBounds, b = .nonnegative
  reformulates : Reformulates p q (recovered k rs) 1

theorem normalizeEach_spec (hp : p.WellFormed) (k l : ℕ) (hcount : k + l ≤ p.variableCount)
    (hbounds : Settled (· = .nonnegative) k l p.variableBounds) :
    ∃ q rs, p.normalizeEach (List.range' k l) = .ok (q, rs) ∧ NormalizedFrom p k l q rs := by
  induction l generalizing p k with
  | zero =>
    have hback : recovered k [] = id := by
      funext z j
      by_cases hj : j < k
      · exact recovered_of_lt hj [] z
      · exact recovered_of_ge (by simpa using hj) z
    refine ⟨p, [], rfl, hp, rfl, le_refl _, rfl, nofun, hbounds.all, ?_⟩
    rw [hback]
    exact .refl p
  | succ l ih =>
    obtain ⟨mid, r, hrun, hmid⟩ := normalizeVariable_spec hp (show k < p.variableCount by omega)
    have hmidCount : k + 1 + l ≤ mid.variableCount := by
      have hle := hmid.variableCount_le
      omega
    obtain ⟨q, rs, hrun', hq⟩ :=
      ih hmid.wellFormed (k + 1) hmidCount (hbounds.step hmid.bounds_eq)
    have hpaired : ∀ i, r.paired = some i → k + (l + 1) ≤ i ∧ i < q.variableCount := by
      intro i hi
      obtain ⟨hge, hlt⟩ := hmid.paired_lt i hi
      have hle := hq.variableCount_le
      omega
    have hback : (fun z => Function.update z k (r.back k z)) ∘ recovered (k + 1) rs =
        recovered k (r :: rs) := by
      funext z
      refine recovered_cons (fun i hi => ?_) z
      have hge := (hpaired i hi).1
      rw [hq.length_eq]
      omega
    refine ⟨q, r :: rs, ?_, hq.wellFormed, hq.objective_eq.trans hmid.objective_eq,
      hmid.variableCount_le.trans hq.variableCount_le, ?_, ?_, hq.bounds_eq, ?_⟩
    · rw [List.range'_succ, normalizeEach, hrun, ok_bind]
      dsimp only
      rw [hrun', ok_bind]
      rfl
    · rw [List.length_cons, hq.length_eq]
    · intro r' hr' i hi
      rcases List.mem_cons.mp hr' with rfl | hrest
      · exact hpaired i hi
      · have hrest' := hq.paired_lt r' hrest i hi
        omega
    · have htrans := hmid.reformulates.trans hq.reformulates
      rw [hback, one_mul] at htrans
      exact htrans

theorem normalizeVariables_spec (hp : p.WellFormed) :
    ∃ q rs, p.normalizeVariables = .ok (q, rs) ∧ NormalizedFrom p 0 p.variableCount q rs := by
  unfold normalizeVariables
  rw [List.range_eq_range']
  refine normalizeEach_spec hp 0 p.variableCount (by omega) ?_
  rw [variableCount, ← hp.bounds_length]
  exact settled_start _ _

end Problem

end LinearOpt
