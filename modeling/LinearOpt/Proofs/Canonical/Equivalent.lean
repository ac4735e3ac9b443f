import LinearOpt.Proofs.Canonical.Passes
import LinearOpt.Proofs.Simplex.Tableau
import LinearOpt.Simplex.TwoPhase

/-!
# The canonical form is an equivalent problem

A canonical form is read as a problem in standard form: `Canonicalized.form` has the coefficients,
the values and the cost of the canonical problem.  `Represents` says that its feasible vectors are
those of the problem that it was made from, written differently, and that the costs agree.
`Canonicalized.represents` puts this together from the passes, and `canonicalForm_represents` states
it for every problem that can be built.
-/

namespace LinearOpt

open Matrix

/-! ## Reading the canonical problem -/

theorem valuation_ofFn {n : ℕ} (x : Fin n → ℚ) (j : Fin n) : valuation (List.ofFn x) j = x j := by
  rw [valuation, List.getD_eq_getElem?_getD, getElem?_ofFn_val]
  rfl

theorem linear_ofFn (c : List ℚ) (x : Fin c.length → ℚ) :
    linear c (valuation (List.ofFn x)) =
      (fun j : Fin c.length => valuation c j) ⬝ᵥ x := by
  unfold linear
  rw [Finset.sum_range]
  refine Finset.sum_congr rfl fun j _ => ?_
  rw [valuation_ofFn]

namespace Problem

variable {p q : Problem ℚ} {rs : List (Recovery ℚ)}

/-- A coefficient that is not set is zero. -/
theorem coefficient?_eq (hp : p.WellFormed) (i j : ℕ) :
    ∃ value, p.coefficient? i j = .ok value ∧ value.getD 0 = coefficientAt p.entries i j := by
  unfold coefficient?
  cases hposition : p.index[(i, j)]? with
  | none =>
    have hnot : (i, j) ∉ p.keys := hp.indexed.getElem?_eq_none_iff.mp hposition
    exact ⟨none, rfl, (coefficientAt_eq_zero hnot).symm⟩
  | some position =>
    have hkey := (hp.indexed.getElem?_iff (i, j) position).mp hposition
    unfold keys at hkey
    rw [List.getElem?_map] at hkey
    obtain ⟨e, he, heq⟩ := Option.map_eq_some_iff.mp hkey
    refine ⟨some e.value, ?_, ?_⟩
    · dsimp only
      rw [fetch_eq_ok he]
      rfl
    · have hrow : e.row = i := congrArg Prod.fst heq
      have hcolumn : e.column = j := congrArg Prod.snd heq
      rw [← hrow, ← hcolumn]
      exact (coefficientAt_of_mem hp.indexed.nodup (List.mem_of_getElem? he)).symm

/-- The canonical problem in standard form. -/
def Canonicalized.form (h : Canonicalized p q rs) :
    StandardForm q.constraintCount q.variableCount where
  matrix := of fun i j => coefficientAt q.entries i j
  values i := (q.constraintBounds.get i).lower.getD 0
  cost j := valuation q.cost j
  values_nonneg i := by
    obtain ⟨value, hb, hvalue⟩ := h.constraint_eq _ (List.get_mem q.constraintBounds i)
    rw [hb]
    exact hvalue

theorem Canonicalized.allHold_variables_iff (h : Canonicalized p q rs) (z : ℕ → ℚ) :
    AllHold q.variableBounds z ↔
      (0 : Fin q.variableCount → ℚ) ≤ fun j : Fin q.variableCount => z j := by
  constructor
  · intro hz j
    have hj : j.val < q.variableBounds.length := by
      rw [h.wellFormed.bounds_length]
      exact j.isLt
    have hholds := hz j _ (List.getElem?_eq_getElem hj)
    rw [h.variable_eq _ (List.getElem_mem hj)] at hholds
    exact Bounds.holds_nonnegative.mp hholds
  · intro hz j b hb
    rw [h.variable_eq b (List.mem_of_getElem? hb)]
    exact Bounds.holds_nonnegative.mpr (hz ⟨j, variableBounds_lt h.wellFormed hb⟩)

theorem Canonicalized.mulVec_eq (h : Canonicalized p q rs) (z : ℕ → ℚ)
    (i : Fin q.constraintCount) :
    (h.form.matrix *ᵥ fun j => z j) i = rowForm q.entries i z := by
  rw [rowForm_eq_sum h.wellFormed.column_lt, Finset.sum_range]
  rfl

theorem Canonicalized.equation (h : Canonicalized p q rs) {i : ℕ} {b : Bounds ℚ}
    (hb : q.constraintBounds[i]? = some b) (hi : i < q.constraintCount) :
    b = ⟨some (h.form.values ⟨i, hi⟩), some (h.form.values ⟨i, hi⟩)⟩ := by
  obtain ⟨value, heq, -⟩ := h.constraint_eq b (List.mem_of_getElem? hb)
  have hget : q.constraintBounds.get ⟨i, hi⟩ = b := (List.getElem?_eq_some_iff.mp hb).2
  have hvalue : h.form.values ⟨i, hi⟩ = value := by
    show (q.constraintBounds.get ⟨i, hi⟩).lower.getD 0 = value
    rw [hget, heq]
    rfl
  rw [hvalue]
  exact heq

theorem Canonicalized.allHold_constraints_iff (h : Canonicalized p q rs) (z : ℕ → ℚ) :
    AllHold q.constraintBounds (fun i => rowForm q.entries i z) ↔
      h.form.matrix *ᵥ (fun j => z j) = h.form.values := by
  constructor
  · intro hz
    funext i
    have hb := List.getElem?_eq_getElem i.isLt
    rw [h.mulVec_eq, ← holds_equation, ← h.equation hb i.isLt]
    exact hz i _ hb
  · intro hz i b hb
    have hi : i < q.constraintCount := (List.getElem?_eq_some_iff.mp hb).1
    rw [h.equation hb hi, holds_equation, ← hz, h.mulVec_eq]

theorem Canonicalized.feasible_iff (h : Canonicalized p q rs) (z : ℕ → ℚ) :
    q.Feasible z ↔ (0 : Fin q.variableCount → ℚ) ≤ (fun j : Fin q.variableCount => z j) ∧
      h.form.matrix *ᵥ (fun j => z j) = h.form.values := by
  rw [Problem.feasible_iff, h.allHold_variables_iff, h.allHold_constraints_iff]

/-- Writing one coefficient to its place. -/
theorem update_entry {m n : ℕ} {e : Entry ℚ} (hrow : e.row < m) (hcolumn : e.column < n)
    (a : Fin m → Fin n → ℚ) :
    update (List.ofFn fun i => List.ofFn (a i)) e.row
        (fun row => update row e.column fun _ => .ok e.value) =
      .ok (List.ofFn fun i => List.ofFn fun j =>
        if e.key = (i.val, j.val) then e.value else a i j) := by
  have hinner : update (List.ofFn (a ⟨e.row, hrow⟩)) e.column (fun _ => .ok e.value) =
      .ok (List.ofFn (Function.update (a ⟨e.row, hrow⟩) ⟨e.column, hcolumn⟩ e.value)) :=
    update_ofFn (i := ⟨e.column, hcolumn⟩) rfl
  refine (update_ofFn (i := ⟨e.row, hrow⟩) hinner).trans ?_
  congr 2
  funext i
  have hkey : ∀ j : Fin n, e.key = (i.val, j.val) ↔ i = ⟨e.row, hrow⟩ ∧ j = ⟨e.column, hcolumn⟩ := by
    intro j
    rw [Entry.key, Prod.mk.injEq, Fin.ext_iff, Fin.ext_iff, eq_comm, @eq_comm _ e.column]
  simp only [hkey]
  by_cases hi : i = ⟨e.row, hrow⟩
  · subst hi
    rw [Function.update_self]
    congr 1
    funext j
    simp [Function.update_apply]
  · rw [Function.update_of_ne hi]
    simp [hi]

/-- Coefficients that are written to places where there is a zero are added to the matrix. -/
theorem foldlM_update_eq {m n : ℕ} {entries : List (Entry ℚ)}
    (hlt : ∀ e ∈ entries, e.row < m ∧ e.column < n) (hnodup : (entries.map Entry.key).Nodup)
    (a : Fin m → Fin n → ℚ)
    (hzero : ∀ i j, (i.val, j.val) ∈ entries.map Entry.key → a i j = 0) :
    entries.foldlM
        (fun rows e => update rows e.row fun row => update row e.column fun _ => .ok e.value)
        (List.ofFn fun i => List.ofFn (a i)) =
      .ok (List.ofFn fun i => List.ofFn fun j => a i j + coefficientAt entries i j) := by
  induction entries generalizing a with
  | nil => simp [coefficientAt]
  | cons e entries ih =>
    obtain ⟨hrow, hcolumn⟩ := hlt e List.mem_cons_self
    rw [List.map_cons, List.nodup_cons] at hnodup
    rw [List.foldlM_cons, update_entry hrow hcolumn, ok_bind,
      ih (fun e' he' => hlt e' (List.mem_cons_of_mem e he')) hnodup.2]
    · congr 2
      funext i
      congr 1
      funext j
      rw [coefficientAt_cons]
      split
      · rename_i hkey
        rw [hzero i j (by rw [← hkey]; exact List.mem_cons_self), zero_add]
      · rw [zero_add]
    · intro i j hmem
      have hne : e.key ≠ (i.val, j.val) := by
        intro hkey
        rw [hkey] at hnodup
        exact hnodup.1 hmem
      rw [if_neg hne]
      exact hzero i j (List.mem_cons_of_mem _ hmem)

/-- Every coefficient of the problem has its place in the dense matrix. -/
theorem matrix_eq {c : CanonicalForm ℚ} (hc : c.problem.WellFormed) :
    c.matrix = .ok (List.ofFn fun i : Fin c.problem.constraintCount =>
      List.ofFn fun j : Fin c.problem.variableCount => coefficientAt c.problem.entries i j) := by
  have hzeros : List.replicate c.problem.constraintCount
      (List.replicate c.problem.variableCount (Scalar.zero : ℚ)) =
      List.ofFn fun _ : Fin c.problem.constraintCount =>
        List.ofFn fun _ : Fin c.problem.variableCount => 0 := by
    rw [List.ofFn_const, List.ofFn_const]
    rfl
  unfold CanonicalForm.matrix
  rw [hzeros, foldlM_update_eq (fun e he => ⟨hc.row_lt e he, hc.column_lt e he⟩)
    hc.indexed.nodup _ fun _ _ _ => rfl]
  simp only [zero_add]

theorem Canonicalized.matrix_eq {c : CanonicalForm ℚ}
    (h : Canonicalized p c.problem c.recoveries) : c.matrix = .ok h.form.rows :=
  Problem.matrix_eq h.wellFormed

theorem Canonicalized.values_eq {c : CanonicalForm ℚ}
    (h : Canonicalized p c.problem c.recoveries) : c.values = List.ofFn h.form.values := by
  unfold CanonicalForm.values
  rw [← List.ofFn_getElem_eq_map]
  rfl

theorem Canonicalized.cost_eq (h : Canonicalized p q rs) :
    q.cost = List.ofFn h.form.cost := by
  apply List.ext_getElem
  · exact (List.length_ofFn).symm
  · intro j hj _
    rw [List.getElem_ofFn]
    exact (List.getD_eq_getElem _ _ hj).symm

end Problem

/-! ## Getting back -/

namespace Recovery

variable {x : List ℚ}

theorem valueAt_eq {j : ℕ} (hj : j < x.length) : valueAt x j = .ok (valuation x j) := by
  rw [valueAt, List.getElem?_eq_getElem hj, valuation, List.getD_eq_getElem _ _ hj]

theorem value_eq {r : Recovery ℚ} {j : ℕ} (hj : j < x.length)
    (hpaired : ∀ i, r.paired = some i → i < x.length) :
    r.value j x = .ok (r.back j (valuation x)) := by
  unfold value back
  rw [valueAt_eq hj]
  cases hcase : r.paired with
  | none =>
    simp only [liftM_ok_refusal, ok_bind, Exact.mul_eq, Exact.add_eq, sub_zero]
    rfl
  | some i =>
    simp only [liftM_ok_refusal, ok_bind, Exact.mul_eq, Exact.add_eq, valueAt_eq (hpaired i hcase)]
    rfl

theorem values_eq_map {rs : List (Recovery ℚ)} (hlength : rs.length ≤ x.length)
    (hpaired : ∀ r ∈ rs, ∀ i, r.paired = some i → i < x.length) :
    values rs (.optimum x) = .ok (rs.zipIdx.map fun pair => pair.1.back pair.2 (valuation x)) := by
  refine mapM_eq_ok fun pair hpair => ?_
  have hget := List.mem_zipIdx_iff_getElem?.mp hpair
  have hj := (List.getElem?_eq_some_iff.mp hget).1
  exact value_eq (by omega) (hpaired pair.1 (List.mem_of_getElem? hget))

/-- The recoveries give all variables at once, if there are enough canonical values. -/
theorem values_eq {rs : List (Recovery ℚ)} (hlength : rs.length ≤ x.length)
    (hpaired : ∀ r ∈ rs, ∀ i, r.paired = some i → i < x.length) :
    ∃ y, values rs (.optimum x) = .ok y ∧ y.length = rs.length ∧
      ∀ j < rs.length, valuation y j = Problem.recovered 0 rs (valuation x) j := by
  refine ⟨_, values_eq_map hlength hpaired, ?_, fun j hj => ?_⟩
  · rw [List.length_map, List.length_zipIdx]
  · rw [valuation, List.getD_eq_getElem _ _ (by simpa using hj), Problem.recovered,
      if_neg (Nat.not_lt_zero j), Nat.sub_zero, List.getElem?_eq_getElem hj, List.getElem_map,
      List.getElem_zipIdx, Nat.zero_add]

end Recovery

/-! ## The equivalence -/

/-- The canonical form is `form`, and stands for the problem `p`.  Every feasible vector of `form`
goes back to one of `p`, every one of `p` comes from one of `form`, and the costs agree up to the
sign and a constant. -/
structure CanonicalForm.Represents {m n : ℕ} (c : CanonicalForm ℚ) (p : Problem ℚ)
    (form : StandardForm m n) : Prop where
  matrix_eq : c.matrix = .ok form.rows
  values_eq : c.values = List.ofFn form.values
  cost_eq : c.problem.cost = List.ofFn form.cost
  sound : ∃ shift, ∀ x : Fin n → ℚ, 0 ≤ x → form.matrix *ᵥ x = form.values →
    ∃ y, c.reconstruct (.optimum (List.ofFn x)) = .ok y ∧ p.isFeasible y = .ok true ∧
      p.objectiveValue y = .ok (p.objective.sign * (form.cost ⬝ᵥ x) + shift)
  complete : ∀ y, p.isFeasible y = .ok true → ∃ x : Fin n → ℚ, 0 ≤ x ∧
    form.matrix *ᵥ x = form.values ∧ c.reconstruct (.optimum (List.ofFn x)) = .ok y

namespace Problem

variable {p : Problem ℚ}

theorem list_ext {x y : List ℚ} (hlength : x.length = y.length)
    (h : ∀ j < x.length, valuation x j = valuation y j) : x = y := by
  apply List.ext_getElem hlength
  intro j hx hy
  have hj := h j hx
  rw [valuation, valuation, List.getD_eq_getElem _ _ hx, List.getD_eq_getElem _ _ hy] at hj
  exact hj

/-- What a vector of canonical values goes back to. -/
theorem Canonicalized.reconstruct_eq {c : CanonicalForm ℚ}
    (h : Canonicalized p c.problem c.recoveries) (x : Fin c.problem.variableCount → ℚ) :
    ∃ y, c.reconstruct (.optimum (List.ofFn x)) = .ok y ∧ y.length = p.variableCount ∧
      ∀ j < p.variableCount,
        valuation y j = recovered 0 c.recoveries (valuation (List.ofFn x)) j := by
  have hle := h.variableCount_le
  rw [← h.length_eq] at hle ⊢
  refine Recovery.values_eq ?_ fun r hr i hi => ?_
  · rw [List.length_ofFn]
    exact hle
  · rw [List.length_ofFn]
    exact h.paired_lt r hr i hi

theorem Canonicalized.represents (hp : p.WellFormed) {c : CanonicalForm ℚ}
    (h : Canonicalized p c.problem c.recoveries) : c.Represents p h.form := by
  refine ⟨h.matrix_eq, h.values_eq, h.cost_eq, ?_, fun y hy => ?_⟩
  · obtain ⟨shift, hcost⟩ := h.reformulates.cost_eq
    refine ⟨shift, fun x hx hrows => ?_⟩
    obtain ⟨y, hback, hlength, hvalues⟩ := h.reconstruct_eq x
    have hx' : (fun j : Fin c.problem.variableCount => valuation (List.ofFn x) j) = x := by
      funext j
      exact valuation_ofFn x j
    have hfeasible : c.problem.Feasible (valuation (List.ofFn x)) := by
      rw [h.feasible_iff, hx']
      exact ⟨hx, hrows⟩
    refine ⟨y, hback, ?_, ?_⟩
    · rw [isFeasible_iff hp]
      exact ⟨hlength,
        (h.reformulates.sound _ hfeasible).congr hp fun j hj => (hvalues j hj).symm⟩
    · have hlinear : linear c.problem.cost (valuation (List.ofFn x)) = h.form.cost ⬝ᵥ x :=
        linear_ofFn c.problem.cost x
      rw [objectiveValue_eq hlength, linear_congr hvalues, hcost, hlinear]
  · obtain ⟨hlength, hfeasible⟩ := (isFeasible_iff hp).mp hy
    obtain ⟨w, hw, hback⟩ := h.reformulates.complete _ hfeasible
    obtain ⟨hnonneg, hrows⟩ := (h.feasible_iff w).mp hw
    obtain ⟨y', hback', hlength', hvalues⟩ := h.reconstruct_eq fun j => w j
    refine ⟨fun j => w j, hnonneg, hrows, ?_⟩
    rw [hback']
    congr 1
    refine list_ext (hlength'.trans hlength.symm) fun j hj => ?_
    rw [hlength'] at hj
    rw [hvalues j hj, ← hback j hj]
    refine h.reformulates.back_congr _ _ (fun k hk => ?_) j hj
    exact valuation_ofFn (fun j : Fin c.problem.variableCount => w j) ⟨k, hk⟩

/-- Every problem that can be built has a canonical form that stands for it, once. -/
theorem canonicalForm_represents (hp : p.Reachable) (hfresh : p.transformed = false) :
    ∃ c, p.canonicalForm.outcome = .ok c ∧
      ∃ form : StandardForm c.problem.constraintCount c.problem.variableCount,
        c.Represents p form := by
  obtain ⟨c, hrun, hcanonical⟩ := canonicalForm_spec hp.wellFormed hfresh
  exact ⟨c, hrun, hcanonical.form, hcanonical.represents hp.wellFormed⟩

theorem canonicalForm_represents_mixed :
    Mixed.coupled.Reachable ∧ Mixed.coupled.transformed = false ∧
      ∃ c, Mixed.coupled.canonicalForm.outcome = .ok c ∧
        ∃ form : StandardForm c.problem.constraintCount c.problem.variableCount,
          c.Represents Mixed.coupled form :=
  ⟨Mixed.reachable_coupled, rfl, canonicalForm_represents Mixed.reachable_coupled rfl⟩

end Problem

end LinearOpt
