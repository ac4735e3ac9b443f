import LinearOpt.Proofs.Canonical.Columns
import LinearOpt.Proofs.Canonical.WellFormed

/-!
# Equalities with nonnegative values

The passes over the constraints keep the variables that there are, so there is nothing to go back
from.  `Rewritten` is what they have in common.

* `splitEach_spec`: a constraint with two different bounds becomes two constraints, after which
  none `isRange`.
* `slackEach_spec`: an inequality becomes an equality by a new nonnegative variable, after which
  every constraint is an `Equation`.
* `withNonnegativeValues_spec`: an equation with a negative value is negated.
-/

namespace LinearOpt

namespace Problem

variable {p q r : Problem ℚ} {i : ℕ}

/-- The problem `q` is `p` with other constraints, and possibly with more variables. -/
structure Rewritten (p q : Problem ℚ) : Prop where
  wellFormed : q.WellFormed
  objective_eq : q.objective = p.objective
  variableBounds_mem : ∀ b ∈ q.variableBounds, b = .nonnegative ∨ b ∈ p.variableBounds
  variableCount_le : p.variableCount ≤ q.variableCount
  constraintCount_le : p.constraintCount ≤ q.constraintCount
  reformulates : Reformulates p q id 1

theorem Rewritten.refl (hp : p.WellFormed) : Rewritten p p :=
  ⟨hp, rfl, fun _ hb => Or.inr hb, le_refl _, le_refl _, .refl p⟩

theorem Rewritten.trans (h : Rewritten p q) (h' : Rewritten q r) : Rewritten p r where
  wellFormed := h'.wellFormed
  objective_eq := h'.objective_eq.trans h.objective_eq
  variableBounds_mem b hb := by
    rcases h'.variableBounds_mem b hb with hnew | hold
    · exact Or.inl hnew
    · exact h.variableBounds_mem b hold
  variableCount_le := h.variableCount_le.trans h'.variableCount_le
  constraintCount_le := h.constraintCount_le.trans h'.constraintCount_le
  reformulates := by
    have htrans := h.reformulates.trans h'.reformulates
    rw [Function.comp_id, one_mul] at htrans
    exact htrans

/-! ## Ranges -/

/-- The constraint `⟨l, u⟩` is the two constraints `⟨l, none⟩` and `⟨none, u⟩`. -/
theorem splitRange_eq (hp : p.WellFormed) {b : Bounds ℚ} (hb : p.constraintBounds[i]? = some b)
    (hrange : b.isRange = true) :
    ∃ index, p.splitRange i = .ok
        ({ p with
          constraintBounds := p.constraintBounds.set i ⟨b.lower, none⟩ ++ [⟨none, b.upper⟩]
          entries := p.entries ++ rowEntries p.constraintCount (p.row i)
          index }, 1) ∧
      WellFormed { p with
        constraintBounds := p.constraintBounds.set i ⟨b.lower, none⟩ ++ [⟨none, b.upper⟩]
        entries := p.entries ++ rowEntries p.constraintCount (p.row i)
        index } := by
  obtain ⟨index, hrun, hwf⟩ := appendRow_spec hp List.length_set
    (hp.splitConstraint hrange i).bounded (nodup_row hp i) fun _ => column_lt_of_mem_row hp
  refine ⟨index, ?_, hwf⟩
  unfold splitRange
  rw [fetch_eq_ok hb, ok_bind, if_pos hrange]
  exact congrArg (fun run => run >>= fun q => (.ok (q, 1) : Except Fault _)) hrun

theorem feasible_split_iff (hp : p.WellFormed) {b : Bounds ℚ}
    (hb : p.constraintBounds[i]? = some b) {index : Std.HashMap (ℕ × ℕ) ℕ} (z : ℕ → ℚ) :
    Feasible { p with
      constraintBounds := p.constraintBounds.set i ⟨b.lower, none⟩ ++ [⟨none, b.upper⟩]
      entries := p.entries ++ rowEntries p.constraintCount (p.row i)
      index } z ↔ p.Feasible z := by
  have hi : i < p.constraintCount := (List.getElem?_eq_some_iff.mp hb).1
  have hsum : ((p.row i).map fun term => term.2 * z term.1).sum = rowForm p.entries i z :=
    sum_row p.entries i z
  have hsplit : ∀ x, b.Holds x ↔
      Bounds.Holds ⟨b.lower, none⟩ x ∧ Bounds.Holds ⟨none, b.upper⟩ x := by
    intro x
    simp [Bounds.Holds]
  rw [feasible_iff, feasible_iff]
  rw [allHold_appendRow hp List.length_set, hsum, allHold_set hi, allHold_iff hb, hsplit]
  tauto

theorem splitRange_spec (hp : p.WellFormed) (hi : i < p.constraintCount) :
    ∃ q count, p.splitRange i = .ok (q, count) ∧ Rewritten p q ∧
      ∀ (k : ℕ) b, q.constraintBounds[k]? = some b →
        b.isRange = false ∨ k ≠ i ∧ p.constraintBounds[k]? = some b := by
  have hb := List.getElem?_eq_getElem hi
  cases hrange : (p.constraintBounds[i]).isRange with
  | false =>
    refine ⟨p, 0, ?_, .refl hp, fun k b hk => ?_⟩
    · unfold splitRange
      rw [fetch_eq_ok hb, ok_bind, hrange]
      rfl
    · exact getElem?_cases_of_eq (P := fun b => b.isRange = false) hb hrange hk
  | true =>
    obtain ⟨index, hrun, hwf⟩ := splitRange_eq hp hb hrange
    refine ⟨_, 1, hrun, ⟨hwf, rfl, fun _ h => Or.inr h, le_refl _, ?_, ?_⟩, fun k b hk => ?_⟩
    · simp [constraintCount]
    · exact .of_feasible_iff rfl fun z => feasible_split_iff hp hb z
    · rcases getElem?_concat hk with hlast | hset
      · rw [hlast]
        exact Or.inl rfl
      · rcases getElem?_set_cases hset with hnew | hold
        · rw [hnew]
          cases (p.constraintBounds[i]).lower <;> exact Or.inl rfl
        · exact Or.inr hold

theorem splitEach_spec (hp : p.WellFormed) (k l : ℕ) (hcount : k + l ≤ p.constraintCount)
    (hranges : Settled (fun b => b.isRange = false) k l p.constraintBounds) :
    ∃ q count, p.splitEach (List.range' k l) = .ok (q, count) ∧ Rewritten p q ∧
      ∀ b ∈ q.constraintBounds, b.isRange = false := by
  induction l generalizing p k with
  | zero => exact ⟨p, 0, rfl, .refl hp, hranges.all⟩
  | succ l ih =>
    obtain ⟨mid, here, hrun, hmid, hbounds⟩ :=
      splitRange_spec hp (show k < p.constraintCount by omega)
    have hmidCount : k + 1 + l ≤ mid.constraintCount := by
      have hle := hmid.constraintCount_le
      omega
    obtain ⟨q, later, hrun', hq, hall⟩ :=
      ih hmid.wellFormed (k + 1) hmidCount (hranges.step hbounds)
    refine ⟨q, here + later, ?_, hmid.trans hq, hall⟩
    rw [List.range'_succ, splitEach, hrun, ok_bind]
    dsimp only
    rw [hrun', ok_bind]
    rfl

theorem splitRanges_spec (hp : p.WellFormed) :
    ∃ q count, p.splitRanges = .ok (q, count) ∧ Rewritten p q ∧
      ∀ b ∈ q.constraintBounds, b.isRange = false := by
  unfold splitRanges
  rw [List.range_eq_range']
  exact splitEach_spec hp 0 p.constraintCount (by omega) (settled_start _ _)

/-! ## Slacks -/

/-- Both bounds are present and equal. -/
def Equation (b : Bounds ℚ) : Prop := ∃ value, b = ⟨some value, some value⟩

theorem holds_equation {value x : ℚ} : Bounds.Holds ⟨some value, some value⟩ x ↔ x = value := by
  constructor
  · intro h
    exact le_antisymm (h.2 value rfl) (h.1 value rfl)
  · rintro rfl
    refine ⟨fun l hl => ?_, fun u hu => ?_⟩
    · cases hl
      exact le_refl x
    · cases hu
      exact le_refl x

theorem feasible_slack_iff (hp : p.WellFormed) (hi : i < p.constraintCount)
    {index : Std.HashMap (ℕ × ℕ) ℕ} (value coefficient : ℚ) (z : ℕ → ℚ) :
    Feasible { p with
      cost := p.cost ++ [0]
      variableBounds := p.variableBounds ++ [.nonnegative]
      constraintBounds := p.constraintBounds.set i ⟨some value, some value⟩
      entries := p.entries ++ columnEntries p.variableCount [(i, coefficient)]
      index } z ↔
    (AllHold p.variableBounds z ∧ 0 ≤ z p.variableCount) ∧
      rowForm p.entries i z + coefficient * z p.variableCount = value ∧
      AllHoldBut i p.constraintBounds fun k => rowForm p.entries k z := by
  have hlength : p.variableBounds.length = p.variableCount := hp.bounds_length
  have hrow : ∀ k, rowForm (p.entries ++ columnEntries p.variableCount [(i, coefficient)]) k z =
      rowForm p.entries k z + (if i = k then coefficient else 0) * z p.variableCount := by
    intro k
    rw [rowForm_append, rowForm_columnEntries, List.map_singleton, List.sum_singleton]
  have hrest : AllHoldBut i p.constraintBounds
      (fun k => rowForm p.entries k z + (if i = k then coefficient else 0) * z p.variableCount) ↔
      AllHoldBut i p.constraintBounds fun k => rowForm p.entries k z := by
    refine allHoldBut_congr fun k _ hk => ?_
    rw [if_neg (Ne.symm hk), zero_mul, add_zero]
  rw [feasible_iff]
  simp only [hrow]
  rw [allHold_append, hlength, Bounds.holds_nonnegative, allHold_set hi, holds_equation, if_pos rfl,
    hrest]

/-- The slack makes up for the difference, in the direction of its coefficient. -/
theorem reformulates_slack (hp : p.WellFormed) {b : Bounds ℚ}
    (hb : p.constraintBounds[i]? = some b) {index : Std.HashMap (ℕ × ℕ) ℕ}
    (value coefficient : ℚ) (hunit : coefficient * coefficient = 1)
    (hholds : ∀ x, b.Holds x ↔ 0 ≤ (value - x) * coefficient) :
    Reformulates p { p with
      cost := p.cost ++ [0]
      variableBounds := p.variableBounds ++ [.nonnegative]
      constraintBounds := p.constraintBounds.set i ⟨some value, some value⟩
      entries := p.entries ++ columnEntries p.variableCount [(i, coefficient)]
      index } id 1 := by
  have hi : i < p.constraintCount := (List.getElem?_eq_some_iff.mp hb).1
  refine ⟨fun z hz => ?_, fun z hz => ?_, ⟨0, fun z => ?_⟩, fun z w h j hj => ?_⟩
  · obtain ⟨⟨hvariables, hslack⟩, hrow, hrest⟩ :=
      (feasible_slack_iff hp hi value coefficient z).mp hz
    have hdifference : (value - rowForm p.entries i z) * coefficient = z p.variableCount := by
      rw [← hrow, add_sub_cancel_left, mul_right_comm, hunit, one_mul]
    refine ⟨hvariables, (allHold_iff hb _).mpr ⟨(hholds _).mpr ?_, hrest⟩⟩
    rw [id, hdifference]
    exact hslack
  · -- the slack takes the value of the difference
    obtain ⟨hwithin, hrest⟩ := (allHold_iff hb _).mp hz.constraint_holds
    let w := Function.update z p.variableCount ((value - rowForm p.entries i z) * coefficient)
    have hold : ∀ j < p.variableCount, w j = z j := fun j hj => Function.update_of_ne hj.ne _ z
    have hself : w p.variableCount = (value - rowForm p.entries i z) * coefficient :=
      Function.update_self _ _ z
    have hrow : ∀ k, rowForm p.entries k w = rowForm p.entries k z := fun k =>
      rowForm_congr fun e he => hold e.column (hp.column_lt e he)
    refine ⟨w, (feasible_slack_iff hp hi value coefficient w).mpr ⟨⟨?_, ?_⟩, ?_, ?_⟩, hold⟩
    · exact (hz.congr hp fun j hj => (hold j hj).symm).variable_holds
    · rw [hself]
      exact (hholds _).mp hwithin
    · rw [hrow, hself, mul_comm, mul_assoc, hunit, mul_one, add_sub_cancel]
    · simp only [hrow]
      exact hrest
  · rw [id, one_mul, add_zero]
    show _ = linear (p.cost ++ [0]) z
    rw [linear_append, zero_mul, add_zero]
  · refine h j ?_
    show j < (p.cost ++ [0]).length
    rw [List.length_append]
    exact Nat.lt_add_right _ hj

theorem withSlack_eq (hp : p.WellFormed) (hi : i < p.constraintCount) (value coefficient : ℚ) :
    ∃ index, p.withSlack i value coefficient = .ok { p with
        cost := p.cost ++ [0]
        variableBounds := p.variableBounds ++ [.nonnegative]
        constraintBounds := p.constraintBounds.set i ⟨some value, some value⟩
        entries := p.entries ++ columnEntries p.variableCount [(i, coefficient)]
        index } ∧
      WellFormed { p with
        cost := p.cost ++ [0]
        variableBounds := p.variableBounds ++ [.nonnegative]
        constraintBounds := p.constraintBounds.set i ⟨some value, some value⟩
        entries := p.entries ++ columnEntries p.variableCount [(i, coefficient)]
        index } := by
  have hwf := hp.setConstraint i (b := ⟨some value, some value⟩) nofun
  have hrows : ∀ term ∈ [(i, coefficient)],
      term.1 < (p.constraintBounds.set i ⟨some value, some value⟩).length := by
    intro term hterm
    rw [List.mem_singleton.mp hterm, List.length_set]
    exact hi
  have hnodup : ([(i, coefficient)].map Prod.fst).Nodup := List.nodup_singleton i
  exact appendColumn_spec hwf 0 hnodup hrows

theorem withSlack_spec (hp : p.WellFormed) {b : Bounds ℚ}
    (hb : p.constraintBounds[i]? = some b) (value coefficient : ℚ)
    (hunit : coefficient * coefficient = 1)
    (hholds : ∀ x, b.Holds x ↔ 0 ≤ (value - x) * coefficient) :
    ∃ q, p.withSlack i value coefficient = .ok q ∧ Rewritten p q ∧
      q.constraintBounds = p.constraintBounds.set i ⟨some value, some value⟩ := by
  have hi : i < p.constraintCount := (List.getElem?_eq_some_iff.mp hb).1
  obtain ⟨index, hrun, hwf⟩ := withSlack_eq hp hi value coefficient
  refine ⟨_, hrun, ⟨hwf, rfl, fun b' hb' => ?_, ?_, ?_, ?_⟩, rfl⟩
  · rcases List.mem_append.mp hb' with hold | hnew
    · exact Or.inr hold
    · exact Or.inl (List.mem_singleton.mp hnew)
  · simp [variableCount]
  · simp [constraintCount]
  · exact reformulates_slack hp hb value coefficient hunit hholds

/-- What `addSlack` does once it has chosen the coefficient. -/
theorem addSlack_of_withSlack (hp : p.WellFormed) {b : Bounds ℚ}
    (hb : p.constraintBounds[i]? = some b) (value coefficient : ℚ)
    (hunit : coefficient * coefficient = 1)
    (hholds : ∀ x, b.Holds x ↔ 0 ≤ (value - x) * coefficient)
    (hcode : p.addSlack i = (do
      let q ← p.withSlack i value coefficient
      return (q, 1))) :
    ∃ q count, p.addSlack i = .ok (q, count) ∧ Rewritten p q ∧
      ∀ (k : ℕ) b, q.constraintBounds[k]? = some b →
        Equation b ∨ k ≠ i ∧ p.constraintBounds[k]? = some b := by
  obtain ⟨q, hrun, hq, hset⟩ := withSlack_spec hp hb value coefficient hunit hholds
  refine ⟨q, 1, ?_, hq, fun k b hk => ?_⟩
  · rw [hcode, hrun]
    rfl
  · rw [hset] at hk
    rcases getElem?_set_cases hk with hnew | hold
    · exact Or.inl ⟨_, hnew⟩
    · exact Or.inr hold

theorem addSlack_spec (hp : p.WellFormed) (hi : i < p.constraintCount)
    (hranges : ∀ b ∈ p.constraintBounds, b.isRange = false) :
    ∃ q count, p.addSlack i = .ok (q, count) ∧ Rewritten p q ∧
      ∀ (k : ℕ) b, q.constraintBounds[k]? = some b →
        Equation b ∨ k ≠ i ∧ p.constraintBounds[k]? = some b := by
  have hb := List.getElem?_eq_getElem hi
  have hbounded := hp.bounded _ (List.getElem_mem hi)
  have hrange := hranges _ (List.getElem_mem hi)
  rcases hbounds : p.constraintBounds[i] with ⟨lower, upper⟩
  rw [hbounds] at hb hbounded hrange
  cases lower with
  | none =>
    cases upper with
    | none => exact absurd rfl hbounded
    | some upper =>
      refine addSlack_of_withSlack hp hb upper 1 (one_mul 1) (fun x => ?_) ?_
      · simp [Bounds.Holds]
      · unfold addSlack
        rw [fetch_eq_ok hb]
        rfl
  | some lower =>
    cases upper with
    | none =>
      refine addSlack_of_withSlack hp hb lower (-1) (by norm_num) (fun x => ?_) ?_
      · simp [Bounds.Holds]
      · unfold addSlack
        rw [fetch_eq_ok hb]
        rfl
    | some upper =>
      have heq : lower = upper := by simpa [Bounds.isRange] using hrange
      refine ⟨p, 0, ?_, .refl hp, fun k b hk => getElem?_cases_of_eq hb ⟨upper, ?_⟩ hk⟩
      · unfold addSlack
        rw [fetch_eq_ok hb]
        rfl
      · rw [heq]

theorem isRange_of_equation {b : Bounds ℚ} (hb : Equation b) : b.isRange = false := by
  obtain ⟨value, rfl⟩ := hb
  simp [Bounds.isRange]

theorem slackEach_spec (hp : p.WellFormed) (k l : ℕ) (hcount : k + l ≤ p.constraintCount)
    (hranges : ∀ b ∈ p.constraintBounds, b.isRange = false)
    (hequations : Settled Equation k l p.constraintBounds) :
    ∃ q count, p.slackEach (List.range' k l) = (q, .ok count) ∧ Rewritten p q ∧
      ∀ b ∈ q.constraintBounds, Equation b := by
  induction l generalizing p k with
  | zero => exact ⟨p, 0, rfl, .refl hp, hequations.all⟩
  | succ l ih =>
    obtain ⟨mid, here, hrun, hmid, hbounds⟩ :=
      addSlack_spec hp (show k < p.constraintCount by omega) hranges
    have hmidCount : k + 1 + l ≤ mid.constraintCount := by
      have hle := hmid.constraintCount_le
      omega
    have hmidRanges : ∀ b ∈ mid.constraintBounds, b.isRange = false := by
      intro b hb
      obtain ⟨i, hi⟩ := List.mem_iff_getElem?.mp hb
      rcases hbounds i b hi with hequation | ⟨-, hold⟩
      · exact isRange_of_equation hequation
      · exact hranges b (List.mem_of_getElem? hold)
    obtain ⟨q, later, hrun', hq, hall⟩ :=
      ih hmid.wellFormed (k + 1) hmidCount hmidRanges (hequations.step hbounds)
    refine ⟨q, here + later, ?_, hmid.trans hq, hall⟩
    rw [List.range'_succ, slackEach, hrun]
    dsimp only
    rw [hrun']
    rfl

theorem addSlacks_spec (hp : p.WellFormed)
    (hranges : ∀ b ∈ p.constraintBounds, b.isRange = false) :
    ∃ q count, p.addSlacks = (q, .ok count) ∧ Rewritten p q ∧
      ∀ b ∈ q.constraintBounds, Equation b := by
  unfold addSlacks
  rw [List.range_eq_range']
  exact slackEach_spec hp 0 p.constraintCount (by omega) hranges (settled_start _ _)

/-! ## Signs -/

/-- Bounds with a negative value are negated. -/
def unsigned (b : Bounds ℚ) : Bounds ℚ :=
  if hasNegativeValue b then ⟨b.upper.map (- ·), b.lower.map (- ·)⟩ else b

theorem unsigned_ne_free {b : Bounds ℚ} (hb : b ≠ .free) : unsigned b ≠ .free := by
  unfold unsigned
  split
  · rwa [Bounds.ne_free_iff, Option.isSome_map, Option.isSome_map, or_comm, ← Bounds.ne_free_iff]
  · exact hb

/-- What a row is multiplied with. -/
def rowSign (bs : List (Bounds ℚ)) (i : ℕ) : ℚ :=
  if (bs.map hasNegativeValue).getD i false then -1 else 1

def signedEntry (bs : List (Bounds ℚ)) (e : Entry ℚ) : Entry ℚ :=
  { e with value := rowSign bs e.row * e.value }

theorem wellFormed_unsigned (hp : p.WellFormed) : WellFormed { p with
    constraintBounds := p.constraintBounds.map unsigned
    entries := p.entries.map (signedEntry p.constraintBounds) } := by
  refine hp.of_keys_eq rfl ?_ rfl rfl (List.length_map _) fun b hb => ?_
  · unfold keys
    rw [List.map_map]
    rfl
  · obtain ⟨old, hold, rfl⟩ := List.mem_map.mp hb
    exact unsigned_ne_free (hp.bounded old hold)

theorem withNonnegativeValues_eq (hp : p.WellFormed) :
    p.withNonnegativeValues = .ok { p with
      constraintBounds := p.constraintBounds.map unsigned
      entries := p.entries.map (signedEntry p.constraintBounds) } := by
  have hbounds : (p.constraintBounds.mapM fun b =>
      if hasNegativeValue b then b.negated else pure b) =
      (.ok (p.constraintBounds.map unsigned) : Except Fault _) := by
    refine mapM_eq_ok fun b _ => ?_
    unfold unsigned
    split
    · obtain ⟨lower, upper⟩ := b
      cases lower <;> cases upper <;> rfl
    · rfl
  have hentries : (p.entries.mapM fun e => do
      if ← fetch (p.constraintBounds.map hasNegativeValue) e.row then
        return { e with value := ← Scalar.neg e.value }
      else return e) =
      (.ok (p.entries.map (signedEntry p.constraintBounds)) : Except Fault _) := by
    refine mapM_eq_ok fun e he => ?_
    have hlt : e.row < (p.constraintBounds.map hasNegativeValue).length := by
      rw [List.length_map]
      exact hp.row_lt e he
    rw [fetch_eq_ok (List.getElem?_eq_getElem hlt), ok_bind, signedEntry, rowSign,
      List.getD_eq_getElem _ _ hlt]
    cases (p.constraintBounds.map hasNegativeValue)[e.row] with
    | true =>
      rw [if_pos rfl, if_pos rfl, neg_one_mul]
      rfl
    | false =>
      rw [if_neg Bool.false_ne_true, if_neg Bool.false_ne_true, one_mul]
      rfl
  unfold withNonnegativeValues
  rw [hbounds, ok_bind, hentries]
  rfl

theorem rowForm_signed (bs : List (Bounds ℚ)) (es : List (Entry ℚ)) (i : ℕ) (z : ℕ → ℚ) :
    rowForm (es.map (signedEntry bs)) i z = rowSign bs i * rowForm es i z := by
  induction es with
  | nil => simp [rowForm]
  | cons e es ih =>
    rw [List.map_cons, rowForm_cons, rowForm_cons, ih, mul_add]
    congr 1
    unfold signedEntry
    by_cases hrow : e.row = i
    · rw [if_pos hrow, if_pos hrow, hrow, mul_assoc]
    · rw [if_neg hrow, if_neg hrow, mul_zero]

/-- Bounds are negated together with their row. -/
theorem allHold_unsigned (bs : List (Bounds ℚ)) (z : ℕ → ℚ) :
    AllHold (bs.map unsigned) (fun i => rowSign bs i * z i) ↔ AllHold bs z := by
  have hself : ∀ (i : ℕ) b, bs[i]? = some b →
      ((unsigned b).Holds (rowSign bs i * z i) ↔ b.Holds (z i)) := by
    intro i b hb
    have hsign : rowSign bs i = if hasNegativeValue b then -1 else 1 := by
      rw [rowSign, List.getD_eq_getElem?_getD, List.getElem?_map, hb]
      rfl
    rw [hsign, unsigned]
    split
    · obtain ⟨lower, upper⟩ := b
      cases lower <;> cases upper <;> simp [Bounds.Holds, and_comm]
    · rw [one_mul]
  constructor
  · intro h i b hb
    exact (hself i b hb).mp (h i _ (by rw [List.getElem?_map, hb]; rfl))
  · intro h i b' hb'
    rw [List.getElem?_map] at hb'
    obtain ⟨b, hb, rfl⟩ := Option.map_eq_some_iff.mp hb'
    exact (hself i b hb).mpr (h i b hb)

theorem withNonnegativeValues_spec (hp : p.WellFormed)
    (hequations : ∀ b ∈ p.constraintBounds, Equation b) :
    ∃ q, p.withNonnegativeValues = .ok q ∧ Rewritten p q ∧
      ∀ b ∈ q.constraintBounds, ∃ value, b = ⟨some value, some value⟩ ∧ 0 ≤ value := by
  have hvalues : ∀ b ∈ p.constraintBounds.map unsigned,
      ∃ value, b = ⟨some value, some value⟩ ∧ 0 ≤ value := by
    intro b hb
    obtain ⟨old, hold, rfl⟩ := List.mem_map.mp hb
    obtain ⟨value, rfl⟩ := hequations old hold
    rcases lt_or_ge value 0 with hneg | hpos
    · refine ⟨-value, ?_, neg_nonneg.mpr hneg.le⟩
      rw [unsigned, if_pos (by simpa [hasNegativeValue] using hneg)]
      rfl
    · refine ⟨value, ?_, hpos⟩
      rw [unsigned, if_neg (by simpa [hasNegativeValue] using hpos)]
  refine ⟨_, withNonnegativeValues_eq hp,
    ⟨wellFormed_unsigned hp, rfl, fun _ h => Or.inr h, le_refl _, ?_, ?_⟩, hvalues⟩
  · simp [constraintCount]
  · refine .of_feasible_iff rfl fun z => ?_
    rw [feasible_iff, feasible_iff]
    simp only [rowForm_signed, allHold_unsigned]

end Problem

end LinearOpt
