import LinearOpt.Canonical.Normalize
import LinearOpt.Proofs.Problem.Meaning

/-!
# Problems that say the same

A pass of the way to canonical form changes the variables, the constraints and the cost, and leaves a
way back.  `Reformulates p q back sign` says that `q` is the problem `p` in other variables:

* what is feasible for `q` goes back to what is feasible for `p`;
* everything that is feasible for `p` comes from something feasible for `q`;
* costs agree up to the sign and a constant.

Reformulations compose (`Reformulates.trans`), so each pass is treated alone.
-/

namespace LinearOpt

/-- What a cost is multiplied with to be minimised. -/
def Objective.sign : Objective → ℚ
  | .minimize => 1
  | .maximize => -1

namespace Problem

/-- `back` turns vectors of `q` into vectors of `p`. -/
structure Reformulates (p q : Problem ℚ) (back : (ℕ → ℚ) → ℕ → ℚ) (sign : ℚ) : Prop where
  sound : ∀ z, q.Feasible z → p.Feasible (back z)
  complete : ∀ z, p.Feasible z → ∃ w, q.Feasible w ∧ ∀ j < p.variableCount, back w j = z j
  cost_eq : ∃ shift, ∀ z, linear p.cost (back z) = sign * linear q.cost z + shift
  /-- Only the variables of `q` are used. -/
  back_congr : ∀ z w, (∀ j < q.variableCount, z j = w j) →
    ∀ j < p.variableCount, back z j = back w j

namespace Reformulates

variable {p q r : Problem ℚ} {back back' : (ℕ → ℚ) → ℕ → ℚ} {sign sign' : ℚ}

theorem refl (p : Problem ℚ) : Reformulates p p id 1 where
  sound _ h := h
  complete z h := ⟨z, h, fun _ _ => rfl⟩
  cost_eq := ⟨0, fun z => by rw [id, one_mul, add_zero]⟩
  back_congr _ _ h := h

theorem trans (h : Reformulates p q back sign) (h' : Reformulates q r back' sign') :
    Reformulates p r (back ∘ back') (sign * sign') where
  sound z hz := h.sound _ (h'.sound z hz)
  complete z hz := by
    obtain ⟨w, hw, hback⟩ := h.complete z hz
    obtain ⟨v, hv, hback'⟩ := h'.complete w hw
    refine ⟨v, hv, fun j hj => ?_⟩
    rw [← hback j hj]
    exact h.back_congr _ _ hback' j hj
  cost_eq := by
    obtain ⟨shift, hcost⟩ := h.cost_eq
    obtain ⟨shift', hcost'⟩ := h'.cost_eq
    refine ⟨sign * shift' + shift, fun z => ?_⟩
    rw [Function.comp_apply, hcost, hcost']
    ring
  back_congr z w heq := h.back_congr _ _ (h'.back_congr z w heq)

/-- A pass that keeps the variables and the cost only has to keep what is feasible. -/
theorem of_feasible_iff (hcost : q.cost = p.cost) (h : ∀ z, q.Feasible z ↔ p.Feasible z) :
    Reformulates p q id 1 where
  sound z hz := (h z).mp hz
  complete z hz := ⟨z, (h z).mpr hz, fun _ _ => rfl⟩
  cost_eq := ⟨0, fun z => by rw [id, hcost, one_mul, add_zero]⟩
  back_congr z w heq j hj := by
    refine heq j ?_
    rw [variableCount, hcost]
    exact hj

/-- A pass that writes variable `j` in terms of the new variables.  The new variables are subject to
`Extra`, and every value of the old variable that its bounds allow is the value of some of them. -/
theorem of_substitution (hp : p.WellFormed) {j : ℕ} {b : Bounds ℚ}
    (hb : p.variableBounds[j]? = some b) {value : (ℕ → ℚ) → ℚ} (Extra : (ℕ → ℚ) → Prop)
    (hfeasible : ∀ z, q.Feasible z ↔ p.Feasible (Function.update z j (value z)) ∧ Extra z)
    (hsurjective : ∀ (z : ℕ → ℚ) x, b.Holds x → ∃ w, value w = x ∧ Extra w ∧
      ∀ k < p.variableCount, k ≠ j → w k = z k)
    (hcost : ∃ shift, ∀ z, linear p.cost (Function.update z j (value z)) =
      linear q.cost z + shift)
    (hcount : p.variableCount ≤ q.variableCount)
    (hcongr : ∀ z w, (∀ k < q.variableCount, z k = w k) → value z = value w) :
    Reformulates p q (fun z => Function.update z j (value z)) 1 where
  sound z hz := ((hfeasible z).mp hz).1
  complete z hz := by
    obtain ⟨w, hvalue, hextra, heq⟩ := hsurjective z (z j) (hz.variable_holds j b hb)
    have hback : ∀ k < p.variableCount, Function.update w j (value w) k = z k := by
      intro k hk
      by_cases hkj : k = j
      · rw [hkj, Function.update_self, hvalue]
      · rw [Function.update_of_ne hkj, heq k hk hkj]
    exact ⟨w, (hfeasible w).mpr ⟨hz.congr hp fun k hk => (hback k hk).symm, hextra⟩, hback⟩
  cost_eq := by
    obtain ⟨shift, hcost⟩ := hcost
    exact ⟨shift, fun z => by rw [hcost, one_mul]⟩
  back_congr z w heq k hk := by
    by_cases hkj : k = j
    · rw [hkj, Function.update_self, Function.update_self]
      exact hcongr z w heq
    · rw [Function.update_of_ne hkj, Function.update_of_ne hkj]
      exact heq k (by omega)

end Reformulates

/-! ## One position after the other -/

/-- All bounds are as they should be, but for the `l` from position `k` on. -/
def Settled (P : Bounds ℚ → Prop) (k l : ℕ) (bs : List (Bounds ℚ)) : Prop :=
  ∀ (i : ℕ) b, i < k ∨ k + l ≤ i → bs[i]? = some b → P b

theorem settled_start (P : Bounds ℚ → Prop) (bs : List (Bounds ℚ)) : Settled P 0 bs.length bs := by
  intro i b hi hb
  have hlt := (List.getElem?_eq_some_iff.mp hb).1
  omega

/-- A step settles its own position, and what it adds or changes elsewhere is settled too. -/
theorem Settled.step {P : Bounds ℚ → Prop} {k l : ℕ} {bs bs' : List (Bounds ℚ)}
    (h : Settled P k (l + 1) bs)
    (hstep : ∀ (i : ℕ) b, bs'[i]? = some b → P b ∨ i ≠ k ∧ bs[i]? = some b) :
    Settled P (k + 1) l bs' := by
  intro i b hi hb
  rcases hstep i b hb with hself | ⟨hne, hold⟩
  · exact hself
  · exact h i b (by omega) hold

theorem Settled.all {P : Bounds ℚ → Prop} {k : ℕ} {bs : List (Bounds ℚ)} (h : Settled P k 0 bs) :
    ∀ b ∈ bs, P b := by
  intro b hb
  obtain ⟨i, hi⟩ := List.mem_iff_getElem?.mp hb
  exact h i b (by omega) hi

theorem getElem?_concat {bs : List (Bounds ℚ)} {k : ℕ} {b last : Bounds ℚ}
    (h : (bs ++ [last])[k]? = some b) : b = last ∨ bs[k]? = some b := by
  by_cases hk : k < bs.length
  · rw [List.getElem?_append_left hk] at h
    exact Or.inr h
  · rw [List.getElem?_append_right (by omega)] at h
    exact Or.inl (List.mem_singleton.mp (List.mem_of_getElem? h))

/-- What holds where it was looked at holds there of any bounds. -/
theorem getElem?_cases_of_eq {P : Bounds ℚ → Prop} {bs : List (Bounds ℚ)} {j k : ℕ}
    {b b' : Bounds ℚ} (hb : bs[j]? = some b) (hP : P b) (hk : bs[k]? = some b') :
    P b' ∨ k ≠ j ∧ bs[k]? = some b' := by
  by_cases hkj : k = j
  · subst hkj
    rw [hb, Option.some.injEq] at hk
    rw [← hk]
    exact Or.inl hP
  · exact Or.inr ⟨hkj, hk⟩

theorem getElem?_set_cases {bs : List (Bounds ℚ)} {j k : ℕ} {b new : Bounds ℚ}
    (h : (bs.set j new)[k]? = some b) : b = new ∨ k ≠ j ∧ bs[k]? = some b := by
  by_cases hk : k = j
  · subst hk
    have hlt := (List.getElem?_eq_some_iff.mp h).1
    rw [List.length_set] at hlt
    rw [List.getElem?_set_self hlt, Option.some.injEq] at h
    exact Or.inl h.symm
  · rw [List.getElem?_set_ne (Ne.symm hk)] at h
    exact Or.inr ⟨hk, h⟩

/-! ## Direction -/

theorem valuation_neg (x : List ℚ) (j : ℕ) : valuation (x.map (- ·)) j = -valuation x j := by
  unfold valuation
  rw [List.getD_eq_getElem?_getD, List.getD_eq_getElem?_getD, List.getElem?_map]
  cases x[j]? with
  | none => exact neg_zero.symm
  | some value => rfl

theorem linear_neg (c : List ℚ) (z : ℕ → ℚ) : linear (c.map (- ·)) z = -linear c z := by
  unfold linear
  rw [List.length_map, ← Finset.sum_neg_distrib]
  refine Finset.sum_congr rfl fun j _ => ?_
  rw [valuation_neg, neg_mul]

/-- The cost is negated if it is to be maximised. -/
theorem minimized_eq (p : Problem ℚ) :
    ∃ cost, p.minimized = .ok { p with objective := .minimize, cost } ∧
      cost.length = p.cost.length ∧
      ∀ z, linear p.cost z = p.objective.sign * linear cost z := by
  unfold minimized
  cases hobjective : p.objective with
  | minimize =>
    have hself : { p with objective := .minimize } = p := by rw [← hobjective]
    exact ⟨p.cost, congrArg Except.ok hself.symm, rfl, fun z => (one_mul _).symm⟩
  | maximize =>
    refine ⟨p.cost.map (- ·), ?_, List.length_map _, fun z => ?_⟩
    · rw [Exact.mapM_neg]
      rfl
    · rw [linear_neg, Objective.sign, neg_mul_neg, one_mul]

theorem minimized_spec {p : Problem ℚ} (hp : p.WellFormed) :
    ∃ q, p.minimized = .ok q ∧ q.WellFormed ∧ q.objective = .minimize ∧
      q.variableBounds = p.variableBounds ∧ q.constraintBounds = p.constraintBounds ∧
      q.variableCount = p.variableCount ∧ Reformulates p q id p.objective.sign := by
  obtain ⟨cost, hrun, hlength, hcost⟩ := p.minimized_eq
  refine ⟨_, hrun, hp.of_keys_eq rfl rfl hlength rfl rfl hp.bounded, rfl, rfl, rfl, hlength, ?_⟩
  refine ⟨fun z hz => ⟨hz.1, hz.2⟩, fun z hz => ⟨z, ⟨hz.1, hz.2⟩, fun _ _ => rfl⟩, ?_, ?_⟩
  · exact ⟨0, fun z => by rw [id, hcost, add_zero]⟩
  · intro z w heq j hj
    exact heq j (by rw [variableCount, hlength]; exact hj)

end Problem

end LinearOpt
