import LinearOpt.Problem.Feasible
import LinearOpt.Proofs.Exact
import LinearOpt.Proofs.Problem.WellFormed
import Mathlib.Data.List.GetD

/-!
# What a problem asks for

The meaning of a problem over the rationals, without lists of values.  A vector is a function
`z : ℕ → ℚ`, of which only the values at the variables count.

* `AllHold` says that values are within a list of bounds.
* `linear` is the cost, `rowForm` the linear form of a constraint, and `coefficientAt` a coefficient
  of it.
* `Problem.Feasible` says that all bounds hold.
* `objectiveValue_eq`, `activity_eq` and `isFeasible_iff` say that the code computes these.
-/

namespace LinearOpt

/-! ## Bounds -/

namespace Bounds

def Holds (b : Bounds ℚ) (x : ℚ) : Prop :=
  (∀ l, b.lower = some l → l ≤ x) ∧ ∀ u, b.upper = some u → x ≤ u

theorem admits_iff (b : Bounds ℚ) (x : ℚ) : b.admits x = true ↔ b.Holds x := by
  obtain ⟨lower, upper⟩ := b
  cases lower <;> cases upper <;> simp [admits, Holds]

theorem holds_nonnegative {x : ℚ} : (nonnegative : Bounds ℚ).Holds x ↔ 0 ≤ x := by
  simp [Holds, nonnegative]

theorem holds_free (x : ℚ) : (free : Bounds ℚ).Holds x := by
  simp [Holds, free]

end Bounds

/-! ## Lists of bounds -/

/-- Each value is within the bounds at its position. -/
def AllHold (bs : List (Bounds ℚ)) (z : ℕ → ℚ) : Prop :=
  ∀ (i : ℕ) b, bs[i]? = some b → b.Holds (z i)

/-- The same, but for position `i`. -/
def AllHoldBut (i : ℕ) (bs : List (Bounds ℚ)) (z : ℕ → ℚ) : Prop :=
  ∀ (k : ℕ) b, k ≠ i → bs[k]? = some b → b.Holds (z k)

theorem allHold_congr {bs : List (Bounds ℚ)} {z w : ℕ → ℚ} (h : ∀ i < bs.length, z i = w i) :
    AllHold bs z ↔ AllHold bs w := by
  have hlt : ∀ (i : ℕ) b, bs[i]? = some b → i < bs.length := fun i b hb =>
    (List.getElem?_eq_some_iff.mp hb).1
  constructor
  · intro hz i b hb
    rw [← h i (hlt i b hb)]
    exact hz i b hb
  · intro hw i b hb
    rw [h i (hlt i b hb)]
    exact hw i b hb

theorem allHoldBut_congr {i : ℕ} {bs : List (Bounds ℚ)} {z w : ℕ → ℚ}
    (h : ∀ k < bs.length, k ≠ i → z k = w k) : AllHoldBut i bs z ↔ AllHoldBut i bs w := by
  have hlt : ∀ (k : ℕ) b, bs[k]? = some b → k < bs.length := fun k b hb =>
    (List.getElem?_eq_some_iff.mp hb).1
  constructor
  · intro hz k b hk hb
    rw [← h k (hlt k b hb) hk]
    exact hz k b hk hb
  · intro hw k b hk hb
    rw [h k (hlt k b hb) hk]
    exact hw k b hk hb

theorem allHold_iff {i : ℕ} {bs : List (Bounds ℚ)} {b : Bounds ℚ} (hi : bs[i]? = some b)
    (z : ℕ → ℚ) : AllHold bs z ↔ b.Holds (z i) ∧ AllHoldBut i bs z := by
  constructor
  · exact fun h => ⟨h i b hi, fun k b' _ hb => h k b' hb⟩
  · rintro ⟨hself, hrest⟩ k b' hb
    by_cases hk : k = i
    · subst hk
      rw [hi, Option.some.injEq] at hb
      rw [← hb]
      exact hself
    · exact hrest k b' hk hb

theorem allHold_set {i : ℕ} {bs : List (Bounds ℚ)} (hi : i < bs.length) (b : Bounds ℚ)
    (z : ℕ → ℚ) : AllHold (bs.set i b) z ↔ b.Holds (z i) ∧ AllHoldBut i bs z := by
  rw [allHold_iff (i := i) (b := b) (List.getElem?_set_self hi)]
  refine and_congr_right fun _ => ?_
  constructor
  · intro h k b' hk hb
    exact h k b' hk (by rw [List.getElem?_set_ne (Ne.symm hk), hb])
  · intro h k b' hk hb
    rw [List.getElem?_set_ne (Ne.symm hk)] at hb
    exact h k b' hk hb

theorem allHold_append {bs : List (Bounds ℚ)} {b : Bounds ℚ} {z : ℕ → ℚ} :
    AllHold (bs ++ [b]) z ↔ AllHold bs z ∧ b.Holds (z bs.length) := by
  constructor
  · intro h
    refine ⟨fun i b' hb => ?_, h _ b List.getElem?_concat_length⟩
    have hi := (List.getElem?_eq_some_iff.mp hb).1
    exact h i b' (by rw [List.getElem?_append_left hi, hb])
  · rintro ⟨hall, hlast⟩ i b' hb
    by_cases hi : i < bs.length
    · rw [List.getElem?_append_left hi] at hb
      exact hall i b' hb
    · have hlt := (List.getElem?_eq_some_iff.mp hb).1
      rw [List.length_append, List.length_singleton] at hlt
      have hlength : i = bs.length := by omega
      subst hlength
      rw [List.getElem?_concat_length, Option.some.injEq] at hb
      rw [← hb]
      exact hlast

/-! ## Linear forms -/

/-- A list of values as a vector. -/
def valuation (x : List ℚ) (j : ℕ) : ℚ := x.getD j 0

def linear (c : List ℚ) (z : ℕ → ℚ) : ℚ := ∑ j ∈ Finset.range c.length, valuation c j * z j

/-- The linear form of row `i`. -/
def rowForm (entries : List (Entry ℚ)) (i : ℕ) (z : ℕ → ℚ) : ℚ :=
  (entries.map fun e => if e.row = i then e.value * z e.column else 0).sum

def coefficientAt (entries : List (Entry ℚ)) (i j : ℕ) : ℚ :=
  (entries.map fun e => if e.key = (i, j) then e.value else 0).sum

theorem valuation_append_left {x y : List ℚ} {j : ℕ} (hj : j < x.length) :
    valuation (x ++ y) j = valuation x j := by
  unfold valuation
  rw [List.getD_append _ _ _ _ hj]

theorem valuation_append_length (x : List ℚ) (a : ℚ) : valuation (x ++ [a]) x.length = a := by
  unfold valuation
  rw [List.getD_append_right _ _ _ _ (le_refl _), Nat.sub_self, List.getD_cons_zero]

theorem linear_congr {c : List ℚ} {z w : ℕ → ℚ} (h : ∀ j < c.length, z j = w j) :
    linear c z = linear c w :=
  Finset.sum_congr rfl fun j hj => by rw [h j (Finset.mem_range.mp hj)]

theorem linear_append (c : List ℚ) (a : ℚ) (z : ℕ → ℚ) :
    linear (c ++ [a]) z = linear c z + a * z c.length := by
  unfold linear
  rw [List.length_append, List.length_singleton, Finset.sum_range_succ, valuation_append_length]
  congr 1
  refine Finset.sum_congr rfl fun j hj => ?_
  rw [valuation_append_left (Finset.mem_range.mp hj)]

theorem linear_update {c : List ℚ} {j : ℕ} (hj : j < c.length) (z : ℕ → ℚ) (x : ℚ) :
    linear c (Function.update z j x) = linear c z + valuation c j * (x - z j) := by
  have hmem : j ∈ Finset.range c.length := Finset.mem_range.mpr hj
  unfold linear
  rw [← Finset.add_sum_erase _ _ hmem, ← Finset.add_sum_erase _ _ hmem, Function.update_self]
  have hrest : ∀ k ∈ (Finset.range c.length).erase j,
      valuation c k * Function.update z j x k = valuation c k * z k := by
    intro k hk
    rw [Function.update_of_ne (Finset.ne_of_mem_erase hk)]
  rw [Finset.sum_congr rfl hrest]
  ring

theorem rowForm_append (es es' : List (Entry ℚ)) (i : ℕ) (z : ℕ → ℚ) :
    rowForm (es ++ es') i z = rowForm es i z + rowForm es' i z := by
  unfold rowForm
  rw [List.map_append, List.sum_append]

theorem rowForm_cons (e : Entry ℚ) (es : List (Entry ℚ)) (i : ℕ) (z : ℕ → ℚ) :
    rowForm (e :: es) i z = (if e.row = i then e.value * z e.column else 0) + rowForm es i z := by
  unfold rowForm
  rw [List.map_cons, List.sum_cons]

theorem coefficientAt_cons (e : Entry ℚ) (es : List (Entry ℚ)) (i j : ℕ) :
    coefficientAt (e :: es) i j =
      (if e.key = (i, j) then e.value else 0) + coefficientAt es i j := by
  unfold coefficientAt
  rw [List.map_cons, List.sum_cons]

theorem rowForm_congr {es : List (Entry ℚ)} {i : ℕ} {z w : ℕ → ℚ}
    (h : ∀ e ∈ es, z e.column = w e.column) : rowForm es i z = rowForm es i w := by
  unfold rowForm
  congr 1
  refine List.map_congr_left fun e he => ?_
  rw [h e he]

theorem rowForm_eq_zero {es : List (Entry ℚ)} {i : ℕ} (h : ∀ e ∈ es, e.row ≠ i) (z : ℕ → ℚ) :
    rowForm es i z = 0 := by
  unfold rowForm
  apply List.sum_eq_zero
  intro x hx
  obtain ⟨e, he, rfl⟩ := List.mem_map.mp hx
  rw [if_neg (h e he)]

/-- Changing one variable changes a row by its coefficient. -/
theorem rowForm_update (es : List (Entry ℚ)) (i j : ℕ) (z : ℕ → ℚ) (x : ℚ) :
    rowForm es i (Function.update z j x) =
      rowForm es i z + coefficientAt es i j * (x - z j) := by
  induction es with
  | nil => simp [rowForm, coefficientAt]
  | cons e es ih =>
    rw [rowForm_cons, rowForm_cons, coefficientAt_cons, ih]
    by_cases hrow : e.row = i
    · by_cases hcolumn : e.column = j
      · have hkey : e.key = (i, j) := by rw [← hrow, ← hcolumn]; rfl
        rw [if_pos hrow, if_pos hrow, if_pos hkey, hcolumn, Function.update_self]
        ring
      · have hkey : e.key ≠ (i, j) := fun h => hcolumn (congrArg Prod.snd h)
        rw [if_pos hrow, if_pos hrow, if_neg hkey, Function.update_of_ne hcolumn]
        ring
    · have hkey : e.key ≠ (i, j) := fun h => hrow (congrArg Prod.fst h)
      rw [if_neg hrow, if_neg hrow, if_neg hkey]
      ring

theorem coefficientAt_eq_zero {es : List (Entry ℚ)} {i j : ℕ}
    (h : (i, j) ∉ es.map Entry.key) : coefficientAt es i j = 0 := by
  unfold coefficientAt
  apply List.sum_eq_zero
  intro x hx
  obtain ⟨e, he, rfl⟩ := List.mem_map.mp hx
  rw [if_neg]
  intro hkey
  exact h (hkey ▸ List.mem_map_of_mem he)

/-- Where keys are distinct, each entry is a coefficient. -/
theorem coefficientAt_of_mem {es : List (Entry ℚ)} (hnodup : (es.map Entry.key).Nodup)
    {e : Entry ℚ} (he : e ∈ es) : coefficientAt es e.row e.column = e.value := by
  induction es with
  | nil => cases he
  | cons first es ih =>
    rw [List.map_cons, List.nodup_cons] at hnodup
    rw [coefficientAt_cons]
    rcases List.mem_cons.mp he with rfl | hrest
    · have hself : e.key = (e.row, e.column) := rfl
      have hzero : coefficientAt es e.row e.column = 0 := coefficientAt_eq_zero hnodup.1
      rw [if_pos hself, hzero, add_zero]
    · have hne : first.key ≠ (e.row, e.column) := by
        intro hkey
        rw [hkey] at hnodup
        exact hnodup.1 (List.mem_map_of_mem (f := Entry.key) hrest)
      rw [if_neg hne, zero_add]
      exact ih hnodup.2 hrest

/-- A row as a sum over all variables. -/
theorem rowForm_eq_sum {es : List (Entry ℚ)} {n : ℕ} (h : ∀ e ∈ es, e.column < n) (i : ℕ)
    (z : ℕ → ℚ) : rowForm es i z = ∑ j ∈ Finset.range n, coefficientAt es i j * z j := by
  induction es with
  | nil => simp [rowForm, coefficientAt]
  | cons e es ih =>
    simp only [rowForm_cons, coefficientAt_cons, add_mul, Finset.sum_add_distrib]
    rw [ih fun e' he' => h e' (List.mem_cons_of_mem e he')]
    congr 1
    by_cases hrow : e.row = i
    · rw [if_pos hrow, Finset.sum_eq_single e.column]
      · rw [if_pos (by rw [← hrow]; rfl)]
      · intro j _ hj
        rw [if_neg fun hkey => hj (congrArg Prod.snd hkey).symm, zero_mul]
      · intro hnot
        exact absurd (Finset.mem_range.mpr (h e List.mem_cons_self)) hnot
    · rw [if_neg hrow, Finset.sum_eq_zero]
      intro j _
      rw [if_neg fun hkey => hrow (congrArg Prod.fst hkey), zero_mul]

/-! ## Problems -/

theorem dot_eq {c x : List ℚ} (h : c.length = x.length) :
    Scalar.dot c x = .ok (linear c (valuation x)) := by
  rw [Scalar.dot, require_eq_ok (by simpa using h), ok_bind, Exact.sumProducts_eq, linear,
    Finset.sum_range, ← List.sum_ofFn]
  congr 2
  apply List.ext_getElem
  · simp [h]
  · intro j hj _
    simp only [List.length_map, List.length_zip] at hj
    have hx : j < x.length := by omega
    simp [valuation, hx]

namespace Problem

variable {p : Problem ℚ} {x : List ℚ}

/-- All bounds hold. -/
structure Feasible (p : Problem ℚ) (z : ℕ → ℚ) : Prop where
  variable_holds : AllHold p.variableBounds z
  constraint_holds : AllHold p.constraintBounds fun i => rowForm p.entries i z

theorem feasible_iff (p : Problem ℚ) (z : ℕ → ℚ) : p.Feasible z ↔
    AllHold p.variableBounds z ∧ AllHold p.constraintBounds fun i => rowForm p.entries i z :=
  ⟨fun h => ⟨h.variable_holds, h.constraint_holds⟩, fun h => ⟨h.1, h.2⟩⟩

theorem checkSolution_eq (hx : x.length = p.variableCount) : p.checkSolution x = .ok () :=
  if_pos hx

theorem objectiveValue_eq (hx : x.length = p.variableCount) :
    p.objectiveValue x = .ok (linear p.cost (valuation x)) := by
  unfold objectiveValue
  rw [checkSolution_eq hx, dot_eq hx.symm]
  rfl

/-- Only the values at the variables count. -/
theorem Feasible.congr (hp : p.WellFormed) {z w : ℕ → ℚ} (h : p.Feasible z)
    (heq : ∀ j < p.variableCount, z j = w j) : p.Feasible w := by
  refine ⟨(allHold_congr fun j hj => heq j ?_).mp h.variable_holds, ?_⟩
  · rw [variableCount, ← hp.bounds_length]
    exact hj
  · refine (allHold_congr fun i _ => ?_).mp h.constraint_holds
    exact rowForm_congr fun e he => heq e.column (hp.column_lt e he)

theorem rowTerms_eq (hp : p.WellFormed) (hx : x.length = p.variableCount) (i : ℕ) :
    p.rowTerms i x = .ok ((p.row i).map fun term => (term.2, valuation x term.1)) := by
  refine mapM_eq_ok fun term hterm => ?_
  obtain ⟨e, he, rfl⟩ := List.mem_map.mp hterm
  have hcolumn : e.column < x.length := by
    rw [hx]
    exact hp.column_lt e (List.mem_of_mem_filter he)
  have hfetch : fetch x e.column = .ok (valuation x e.column) := by
    apply fetch_eq_ok
    unfold valuation
    rw [List.getD_eq_getElem _ _ hcolumn, List.getElem?_eq_getElem hcolumn]
  change (do return (e.value, ← fetch x e.column)) = _
  rw [hfetch]
  rfl

theorem sum_row (entries : List (Entry ℚ)) (i : ℕ) (z : ℕ → ℚ) :
    (((entries.filter (·.row == i)).map fun e => (e.column, e.value)).map
      fun term => term.2 * z term.1).sum = rowForm entries i z := by
  induction entries with
  | nil => rfl
  | cons e es ih =>
    rw [rowForm_cons, ← ih]
    by_cases hrow : e.row = i
    · simp [hrow]
    · simp [hrow]

theorem activity_eq (hp : p.WellFormed) (hx : x.length = p.variableCount) {i : ℕ}
    (hi : i < p.constraintCount) :
    p.activity i x = .ok (rowForm p.entries i (valuation x)) := by
  unfold activity
  rw [checkConstraint_eq hi, checkSolution_eq hx, rowTerms_eq hp hx]
  simp only [liftM_ok_refusal, liftM_ok, ok_bind, Exact.sumProducts_eq]
  rw [← sum_row, List.map_map, row]
  rfl

theorem satisfies_eq (hp : p.WellFormed) (hx : x.length = p.variableCount)
    (rows : List (Bounds ℚ × ℕ)) (hrows : ∀ row ∈ rows, row.2 < p.constraintCount) :
    p.satisfies x rows =
      .ok (rows.all fun row => row.1.admits (rowForm p.entries row.2 (valuation x))) := by
  induction rows with
  | nil => rfl
  | cons row rows ih =>
    obtain ⟨bounds, i⟩ := row
    unfold satisfies
    rw [activity_eq hp hx (hrows _ List.mem_cons_self), ok_bind, List.all_cons,
      ih fun row hrow => hrows row (List.mem_cons_of_mem _ hrow)]
    cases bounds.admits (rowForm p.entries i (valuation x)) <;> rfl

theorem all_constraints_iff (p : Problem ℚ) (z : ℕ → ℚ) :
    (p.constraintBounds.zipIdx.all fun row => row.1.admits (rowForm p.entries row.2 z)) = true ↔
      AllHold p.constraintBounds fun i => rowForm p.entries i z := by
  rw [List.all_eq_true]
  constructor
  · intro h i b hb
    exact (b.admits_iff _).mp (h (b, i) (List.mem_zipIdx_iff_getElem?.mpr hb))
  · intro h row hrow
    exact (row.1.admits_iff _).mpr (h row.2 row.1 (List.mem_zipIdx_iff_getElem?.mp hrow))

theorem all_variables_iff (hp : p.WellFormed) (hx : x.length = p.variableCount) :
    ((p.variableBounds.zip x).all fun pair => pair.1.admits pair.2) = true ↔
      AllHold p.variableBounds (valuation x) := by
  rw [List.all_eq_true]
  constructor
  · intro h j b hb
    have hj : j < x.length := by
      rw [hx, variableCount, ← hp.bounds_length]
      exact (List.getElem?_eq_some_iff.mp hb).1
    refine (b.admits_iff _).mp (h (b, valuation x j) (List.mem_iff_getElem?.mpr ⟨j, ?_⟩))
    rw [List.getElem?_zip_eq_some, valuation, List.getD_eq_getElem _ _ hj]
    exact ⟨hb, List.getElem?_eq_getElem hj⟩
  · intro h pair hpair
    obtain ⟨j, hj⟩ := List.mem_iff_getElem?.mp hpair
    rw [List.getElem?_zip_eq_some] at hj
    have hvalue : valuation x j = pair.2 := by
      rw [valuation, List.getD_eq_getElem?_getD, hj.2, Option.getD_some]
    rw [← hvalue]
    exact (pair.1.admits_iff _).mpr (h j pair.1 hj.1)

/-- The test of a vector succeeds on the feasible vectors of the right length. -/
theorem isFeasible_iff (hp : p.WellFormed) :
    p.isFeasible x = .ok true ↔ x.length = p.variableCount ∧ p.Feasible (valuation x) := by
  by_cases hx : x.length = p.variableCount
  · have hrows : ∀ row ∈ p.constraintBounds.zipIdx, row.2 < p.constraintCount := by
      intro row hrow
      exact List.snd_lt_of_mem_zipIdx hrow
    have hrun : p.isFeasible x =
        if (p.variableBounds.zip x).all fun pair => pair.1.admits pair.2
          then p.satisfies x p.constraintBounds.zipIdx else .ok false := by
      unfold isFeasible
      rw [checkSolution_eq hx]
      rfl
    rw [hrun, satisfies_eq hp hx _ hrows]
    constructor
    · intro h
      split at h
      · rename_i hall
        rw [Except.ok.injEq] at h
        exact ⟨hx, (all_variables_iff hp hx).mp hall, (all_constraints_iff p _).mp h⟩
      · cases h
    · rintro ⟨-, hfeasible⟩
      rw [if_pos ((all_variables_iff hp hx).mpr hfeasible.variable_holds),
        (all_constraints_iff p _).mpr hfeasible.constraint_holds]
  · constructor
    · intro h
      unfold isFeasible checkSolution at h
      rw [if_neg hx] at h
      cases h
    · exact fun h => absurd h.1 hx

end Problem

end LinearOpt
