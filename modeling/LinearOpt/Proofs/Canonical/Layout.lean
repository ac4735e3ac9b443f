import LinearOpt.Proofs.Canonical.Storage

/-!
# Where everything is in a canonical form

Three passes append variables and constraints, and the recoveries remember positions of variables
while the list of them still grows.  This module counts what each pass appends and says where it
ends up.

* A pass goes through the positions that there are when it starts (`Reads`), and a step leaves the
  bounds at later positions as they are (`Reads.of_frame`).
* `VariablesAdded`, `RangesSplit` and `SlacksAdded` are what the passes append.  Each has a lemma
  for one step and one for the pass.
* `Layout` puts the counts together, and `layout_of_normalize` reads them off the passes.
* `CanonicalForm.Takes` is about the way back: it needs the variables up to the last second part of
  a free variable, and looks at no slack.
-/

namespace LinearOpt

/-! ## Kinds of bounds -/

namespace Bounds

def isFree (b : Bounds ℚ) : Bool := b.lower.isNone && b.upper.isNone

/-- Both bounds are present. -/
def isBoxed (b : Bounds ℚ) : Bool := b.lower.isSome && b.upper.isSome

/-- How to get back to a variable with these bounds.  The second part of a free variable is at
position `paired`. -/
def recovery (b : Bounds ℚ) (paired : ℕ) : Recovery ℚ :=
  match b.lower, b.upper with
  | none, none => { paired := some paired, scale := 1, offset := 0 }
  | none, some upper => { paired := none, scale := -1, offset := upper }
  | some lower, _ => { paired := none, scale := 1, offset := lower }

theorem isEquality_lowered (b : Bounds ℚ) (amount : ℚ) :
    (b.lowered amount).isEquality = b.isEquality := by
  obtain ⟨lower, upper⟩ := b
  cases lower <;> cases upper <;> simp [isEquality, lowered]

theorem isRange_lowered (b : Bounds ℚ) (amount : ℚ) :
    (b.lowered amount).isRange = b.isRange := by
  obtain ⟨lower, upper⟩ := b
  cases lower <;> cases upper <;> simp [isRange, lowered]

/-- Bounds that are both present are equal or they differ. -/
theorem isEquality_of_isRange {b : Bounds ℚ} (hb : b.isRange = true) : b.isEquality = false := by
  obtain ⟨lower, upper⟩ := b
  cases lower <;> cases upper <;> simp_all [isEquality, isRange]

theorem isBoxed_of_not_isRange {b : Bounds ℚ} (hb : b.isRange = false) :
    b.isBoxed = b.isEquality := by
  obtain ⟨lower, upper⟩ := b
  cases lower <;> cases upper <;> simp_all [isBoxed, isEquality, isRange]

/-- Only free variables have a second part. -/
theorem paired_recovery {b : Bounds ℚ} {paired i : ℕ} :
    (b.recovery paired).paired = some i ↔ b.isFree = true ∧ paired = i := by
  obtain ⟨lower, upper⟩ := b
  cases lower <;> cases upper <;> simp [recovery, isFree]

end Bounds

/-! ## Counting -/

/-- How many bounds have a property does not change if lowering does not change the property. -/
theorem countP_lowered {P : Bounds ℚ → Bool} (hP : ∀ b amount, P (b.lowered amount) = P b)
    (bs : List (Bounds ℚ)) (amount : ℕ → ℚ) :
    (bs.mapIdx fun i b => b.lowered (amount i)).countP P = bs.countP P := by
  induction bs generalizing amount with
  | nil => rfl
  | cons b bs ih =>
    rw [List.mapIdx_cons, List.countP_cons, List.countP_cons, hP, ih fun i => amount (i + 1)]

theorem countP_set_of_eq {P : Bounds ℚ → Bool} {bs : List (Bounds ℚ)} {i : ℕ} {b new : Bounds ℚ}
    (hb : bs[i]? = some b) (hnew : P new = P b) : (bs.set i new).countP P = bs.countP P := by
  induction bs generalizing i with
  | nil => cases hb
  | cons head bs ih =>
    cases i with
    | zero =>
      cases hb
      rw [List.set_cons_zero, List.countP_cons, List.countP_cons, hnew]
    | succ i => rw [List.set_cons_succ, List.countP_cons, List.countP_cons, ih hb]

/-- Not all elements of a kind come before one of them. -/
theorem countP_take_lt {α : Type} {P : α → Bool} {xs : List α} {j : ℕ} {x : α}
    (hx : xs[j]? = some x) (hP : P x = true) : (xs.take j).countP P < xs.countP P := by
  have hle : (xs.take (j + 1)).countP P ≤ xs.countP P := (List.take_sublist _ _).countP_le
  rw [List.take_add_one, hx, Option.toList_some, List.countP_append, List.countP_singleton,
    if_pos hP] at hle
  exact hle

/-- A bound on how many come before each of them bounds how many there are. -/
theorem countP_le_of_take_lt {α : Type} {P : α → Bool} {xs : List α} {t : ℕ}
    (h : ∀ (j : ℕ) x, xs[j]? = some x → P x = true → (xs.take j).countP P < t) :
    xs.countP P ≤ t := by
  -- from the end of the list, since all but one come before the last of them
  induction xs using List.reverseRecOn with
  | nil => exact Nat.zero_le t
  | append_singleton xs last ih =>
    have hinit : xs.countP P ≤ t := by
      refine ih fun j x hx hP => ?_
      have hj := (List.getElem?_eq_some_iff.mp hx).1
      have hlt := h j x (by rw [List.getElem?_append_left hj, hx]) hP
      rwa [List.take_append_of_le_length hj.le] at hlt
    rw [List.countP_append, List.countP_singleton]
    by_cases hP : P last = true
    · have hlt := h xs.length last List.getElem?_concat_length hP
      rw [List.take_left] at hlt
      rw [if_pos hP]
      exact hlt
    · rw [if_neg hP]
      exact hinit

namespace Problem

def freeCount (p : Problem ℚ) : ℕ := p.variableBounds.countP Bounds.isFree

def boxedCount (p : Problem ℚ) : ℕ := p.variableBounds.countP Bounds.isBoxed

def rangeCount (p : Problem ℚ) : ℕ := p.constraintBounds.countP Bounds.isRange

def equalityCount (p : Problem ℚ) : ℕ := p.constraintBounds.countP Bounds.isEquality

/-- One slack for each constraint that is not an equality, one more for the second half of a range,
and one for the upper bound of a variable that is bounded on both sides. -/
def slackCount (p : Problem ℚ) : ℕ :=
  p.constraintCount - p.equalityCount + p.rangeCount + p.boxedCount

variable {p q r : Problem ℚ} {i j : ℕ} {b : Bounds ℚ}

/-! ## One position after the other -/

/-- The bounds at the given positions. -/
def Reads (all : List (Bounds ℚ)) (is : List ℕ) (bs : List (Bounds ℚ)) : Prop :=
  List.Forall₂ (fun i b => all[i]? = some b) is bs

theorem reads_range (bs : List (Bounds ℚ)) : Reads bs (List.range bs.length) bs :=
  List.forall₂_iff_get.mpr ⟨List.length_range, fun i hi _ => by simp⟩

/-- A step that changes one position does not disturb the steps that are left. -/
theorem Reads.of_frame {all all' : List (Bounds ℚ)} {is : List ℕ} {bs : List (Bounds ℚ)}
    (h : Reads all is bs) (hi : i ∉ is)
    (hframe : ∀ k ≠ i, ∀ b, all[k]? = some b → all'[k]? = some b) : Reads all' is bs := by
  have hne : ∀ k ∈ is, k ≠ i := fun k hk heq => hi (heq ▸ hk)
  exact ((List.forall₂_and_left is bs).mpr ⟨hne, h⟩).imp fun k b hk => hframe k hk.1 b hk.2

/-- Bounds that are set at one position, with others appended. -/
theorem getElem?_set_append {bs new : List (Bounds ℚ)} {k : ℕ} {b' : Bounds ℚ} (hk : k ≠ i)
    (hb : bs[k]? = some b') (b : Bounds ℚ) : (bs.set i b ++ new)[k]? = some b' := by
  have hlt := (List.getElem?_eq_some_iff.mp hb).1
  rw [List.getElem?_append_left (by rwa [List.length_set]), List.getElem?_set_ne hk.symm, hb]

/-! ## Variables -/

/-- The problem `q` is `p` with variables of the bounds `bs` made nonnegative. -/
structure VariablesAdded (bs : List (Bounds ℚ)) (p q : Problem ℚ) : Prop where
  variableCount_eq : q.variableCount = p.variableCount + bs.countP Bounds.isFree
  constraintCount_eq : q.constraintCount = p.constraintCount + bs.countP Bounds.isBoxed
  rangeCount_eq : q.rangeCount = p.rangeCount
  equalityCount_eq : q.equalityCount = p.equalityCount

theorem VariablesAdded.trans {bs bs' : List (Bounds ℚ)} (h : VariablesAdded bs p q)
    (h' : VariablesAdded bs' q r) : VariablesAdded (bs ++ bs') p r where
  variableCount_eq := by
    rw [h'.variableCount_eq, h.variableCount_eq, List.countP_append, Nat.add_assoc]
  constraintCount_eq := by
    rw [h'.constraintCount_eq, h.constraintCount_eq, List.countP_append, Nat.add_assoc]
  rangeCount_eq := h'.rangeCount_eq.trans h.rangeCount_eq
  equalityCount_eq := h'.equalityCount_eq.trans h.equalityCount_eq

/-- A new constraint with an upper bound only is neither a range nor an equality. -/
theorem variablesAdded_of_lowered (amount : ℕ → ℚ) (new : List (Bounds ℚ))
    (hnew : ∀ b ∈ new, b.isRange = false ∧ b.isEquality = false)
    (hvariables : q.variableCount = p.variableCount + [b].countP Bounds.isFree)
    (hlength : new.length = [b].countP Bounds.isBoxed)
    (hconstraints : q.constraintBounds =
      (p.constraintBounds.mapIdx fun i b => b.lowered (amount i)) ++ new) :
    VariablesAdded [b] p q where
  variableCount_eq := hvariables
  constraintCount_eq := by
    rw [constraintCount, hconstraints, List.length_append, List.length_mapIdx, hlength]
    rfl
  rangeCount_eq := by
    have hnone : new.countP Bounds.isRange = 0 :=
      List.countP_eq_zero.mpr fun b hb => by rw [(hnew b hb).1]; exact Bool.false_ne_true
    rw [rangeCount, hconstraints, List.countP_append, countP_lowered Bounds.isRange_lowered, hnone]
    rfl
  equalityCount_eq := by
    have hnone : new.countP Bounds.isEquality = 0 :=
      List.countP_eq_zero.mpr fun b hb => by rw [(hnew b hb).2]; exact Bool.false_ne_true
    rw [equalityCount, hconstraints, List.countP_append,
      countP_lowered Bounds.isEquality_lowered, hnone]
    rfl

theorem normalizeVariable_layout (hp : p.WellFormed) (hb : p.variableBounds[j]? = some b)
    {rec : Recovery ℚ} (h : p.normalizeVariable j = .ok (q, rec)) :
    rec = b.recovery p.variableCount ∧ VariablesAdded [b] p q ∧
      ∀ k ≠ j, ∀ b', p.variableBounds[k]? = some b' → q.variableBounds[k]? = some b' := by
  have hj := variableBounds_lt hp hb
  have hwf := withNonnegative_wellFormed hp j
  obtain ⟨lower, upper⟩ := b
  unfold normalizeVariable at h
  rw [fetch_eq_ok hb, ok_bind] at h
  cases lower with
  | none =>
    cases upper with
    | none =>
      obtain ⟨index, hrun, -⟩ := splitVariable_eq hwf hj
      cases hrun.symm.trans h
      refine ⟨rfl, ?_, fun k hk b' hb' => getElem?_set_append hk hb' _⟩
      exact ⟨by simp [variableCount, Bounds.isFree, withNonnegative], rfl, rfl, rfl⟩
    | some upper =>
      cases (reflectVariable_eq hwf hj upper).symm.trans h
      refine ⟨rfl, variablesAdded_of_lowered (fun i => coefficientAt p.entries i j * upper) []
        (List.forall_mem_nil _) ?_ rfl (List.append_nil _).symm, fun k hk b' hb' => ?_⟩
      · simp [variableCount, Bounds.isFree, withNonnegative]
      · exact (List.getElem?_set_ne hk.symm).trans hb'
  | some lower =>
    cases upper with
    | none =>
      cases (shiftVariable_eq hwf j lower none).symm.trans h
      refine ⟨rfl, variablesAdded_of_lowered (fun i => coefficientAt p.entries i j * lower) []
        (List.forall_mem_nil _) rfl rfl (List.append_nil _).symm, fun k hk b' hb' => ?_⟩
      exact (List.getElem?_set_ne hk.symm).trans hb'
    | some upper =>
      obtain ⟨index, hrun, -⟩ := shiftVariable_some_eq hwf hj lower upper
      cases hrun.symm.trans h
      refine ⟨rfl, variablesAdded_of_lowered (fun i => coefficientAt p.entries i j * lower)
        [⟨none, some (upper - lower)⟩] (fun b hb => ?_) rfl rfl rfl, fun k hk b' hb' => ?_⟩
      · rw [List.mem_singleton.mp hb]
        exact ⟨rfl, rfl⟩
      · exact (List.getElem?_set_ne hk.symm).trans hb'

/-- The recoveries of the variables in turn.  Second parts are numbered in this order. -/
theorem normalizeEach_layout {js : List ℕ} {bs : List (Bounds ℚ)} {rs : List (Recovery ℚ)}
    (hp : p.WellFormed) (hreads : Reads p.variableBounds js bs) (hnodup : js.Nodup)
    (h : p.normalizeEach js = .ok (q, rs)) :
    VariablesAdded bs p q ∧ rs.length = bs.length ∧ ∀ (i : ℕ) b, bs[i]? = some b →
      rs[i]? = some (b.recovery (p.variableCount + (bs.take i).countP Bounds.isFree)) := by
  induction js generalizing p bs rs with
  | nil =>
    cases hreads
    cases h
    exact ⟨⟨rfl, rfl, rfl, rfl⟩, rfl, nofun⟩
  | cons j js ih =>
    obtain ⟨b, bs, hb, hrest, rfl⟩ := List.forall₂_cons_left_iff.mp hreads
    obtain ⟨⟨mid, here⟩, hmid, h⟩ := bind_eq_ok.mp h
    obtain ⟨⟨last, later⟩, hlast, h⟩ := bind_eq_ok.mp h
    cases h
    obtain ⟨rfl, hadded, hframe⟩ := normalizeVariable_layout hp hb hmid
    obtain ⟨hj, hnodup⟩ := List.nodup_cons.mp hnodup
    obtain ⟨hadded', hlength, hrecovery⟩ := ih (wellFormed_normalizeVariable hp hmid)
      (Reads.of_frame hrest hj hframe) hnodup hlast
    refine ⟨hadded.trans hadded', congrArg (· + 1) hlength, fun i b' hb' => ?_⟩
    cases i with
    | zero =>
      cases hb'
      rfl
    | succ i =>
      have hcount : ((b :: bs).take (i + 1)).countP Bounds.isFree =
          [b].countP Bounds.isFree + (bs.take i).countP Bounds.isFree := by
        rw [List.take_succ_cons, ← List.singleton_append, List.countP_append]
      rw [hcount, ← Nat.add_assoc, ← hadded.variableCount_eq]
      exact hrecovery i b' hb'

theorem normalizeVariables_layout (hp : p.WellFormed) {rs : List (Recovery ℚ)}
    (h : p.normalizeVariables = .ok (q, rs)) :
    VariablesAdded p.variableBounds p q ∧ rs.length = p.variableCount ∧
      ∀ (j : ℕ) b, p.variableBounds[j]? = some b → rs[j]? = some
        (b.recovery (p.variableCount + (p.variableBounds.take j).countP Bounds.isFree)) := by
  have hlength : p.variableBounds.length = p.variableCount := hp.bounds_length
  unfold normalizeVariables at h
  rw [← hlength] at h
  obtain ⟨hadded, hcount, hrecovery⟩ :=
    normalizeEach_layout hp (reads_range p.variableBounds) List.nodup_range h
  exact ⟨hadded, hcount.trans hlength, hrecovery⟩

/-! ## Ranges -/

/-- The problem `q` is `p` with the ranges among the bounds `bs` split. -/
structure RangesSplit (bs : List (Bounds ℚ)) (p q : Problem ℚ) : Prop where
  variableCount_eq : q.variableCount = p.variableCount
  constraintCount_eq : q.constraintCount = p.constraintCount + bs.countP Bounds.isRange
  equalityCount_eq : q.equalityCount = p.equalityCount

theorem RangesSplit.trans {bs bs' : List (Bounds ℚ)} (h : RangesSplit bs p q)
    (h' : RangesSplit bs' q r) : RangesSplit (bs ++ bs') p r where
  variableCount_eq := h'.variableCount_eq.trans h.variableCount_eq
  constraintCount_eq := by
    rw [h'.constraintCount_eq, h.constraintCount_eq, List.countP_append, Nat.add_assoc]
  equalityCount_eq := h'.equalityCount_eq.trans h.equalityCount_eq

/-- Neither half of a range is an equality, and nor was the range. -/
theorem splitRange_layout (hp : p.WellFormed) (hb : p.constraintBounds[i]? = some b) {n : ℕ}
    (h : p.splitRange i = .ok (q, n)) :
    RangesSplit [b] p q ∧
      ∀ k ≠ i, ∀ b', p.constraintBounds[k]? = some b' → q.constraintBounds[k]? = some b' := by
  cases hrange : b.isRange with
  | false =>
    unfold splitRange at h
    rw [fetch_eq_ok hb, ok_bind, hrange] at h
    cases h
    refine ⟨⟨rfl, ?_, rfl⟩, fun k _ b' hb' => hb'⟩
    rw [List.countP_singleton, hrange]
    rfl
  | true =>
    obtain ⟨index, hrun, -⟩ := splitRange_eq hp hb hrange
    cases hrun.symm.trans h
    refine ⟨⟨rfl, ?_, ?_⟩, fun k hk b' hb' => getElem?_set_append hk hb' _⟩
    · rw [List.countP_singleton, hrange]
      simp [constraintCount]
    · have hlower : Bounds.isEquality ⟨b.lower, none⟩ = b.isEquality := by
        rw [Bounds.isEquality_of_isRange hrange]
        cases b.lower <;> rfl
      have hupper : [(⟨none, b.upper⟩ : Bounds ℚ)].countP Bounds.isEquality = 0 := rfl
      rw [equalityCount, List.countP_append, countP_set_of_eq hb hlower, hupper]
      rfl

theorem splitEach_layout {is : List ℕ} {bs : List (Bounds ℚ)} {n : ℕ} (hp : p.WellFormed)
    (hreads : Reads p.constraintBounds is bs) (hnodup : is.Nodup)
    (h : p.splitEach is = .ok (q, n)) : RangesSplit bs p q := by
  induction is generalizing p bs n with
  | nil =>
    cases hreads
    cases h
    exact ⟨rfl, rfl, rfl⟩
  | cons i is ih =>
    obtain ⟨b, bs, hb, hrest, rfl⟩ := List.forall₂_cons_left_iff.mp hreads
    obtain ⟨⟨mid, here⟩, hmid, h⟩ := bind_eq_ok.mp h
    obtain ⟨⟨last, later⟩, hlast, h⟩ := bind_eq_ok.mp h
    cases h
    obtain ⟨hsplit, hframe⟩ := splitRange_layout hp hb hmid
    obtain ⟨hi, hnodup⟩ := List.nodup_cons.mp hnodup
    exact hsplit.trans (ih (wellFormed_splitRange hp hmid) (Reads.of_frame hrest hi hframe) hnodup
      hlast)

theorem splitRanges_layout (hp : p.WellFormed) {n : ℕ} (h : p.splitRanges = .ok (q, n)) :
    RangesSplit p.constraintBounds p q :=
  splitEach_layout hp (reads_range p.constraintBounds) List.nodup_range h

/-! ## Slacks -/

/-- The problem `q` is `p` with slacks.  Those are the last variables, they have no cost, and each
has one coefficient, which is `1` or `-1`. -/
structure SlacksAdded (slacks : List (Entry ℚ)) (p q : Problem ℚ) : Prop where
  entries_eq : q.entries = p.entries ++ slacks
  cost_eq : q.cost = p.cost ++ List.replicate slacks.length 0
  columns_eq : slacks.map (·.column) = List.range' p.variableCount slacks.length
  value_cases : ∀ e ∈ slacks, e.value = 1 ∨ e.value = -1
  constraintCount_eq : q.constraintCount = p.constraintCount

theorem SlacksAdded.variableCount_eq {slacks : List (Entry ℚ)} (h : SlacksAdded slacks p q) :
    q.variableCount = p.variableCount + slacks.length := by
  rw [variableCount, h.cost_eq, List.length_append, List.length_replicate, variableCount]

theorem SlacksAdded.refl (p : Problem ℚ) : SlacksAdded [] p p :=
  ⟨(List.append_nil _).symm, (List.append_nil _).symm, rfl, nofun, rfl⟩

theorem SlacksAdded.trans {slacks slacks' : List (Entry ℚ)} (h : SlacksAdded slacks p q)
    (h' : SlacksAdded slacks' q r) : SlacksAdded (slacks ++ slacks') p r where
  entries_eq := by rw [h'.entries_eq, h.entries_eq, List.append_assoc]
  cost_eq := by
    rw [h'.cost_eq, h.cost_eq, List.append_assoc, List.replicate_append_replicate,
      List.length_append]
  columns_eq := by
    rw [List.map_append, h.columns_eq, h'.columns_eq, h.variableCount_eq, List.length_append,
      List.range'_append_1]
  value_cases e he := by
    rcases List.mem_append.mp he with hold | hnew
    · exact h.value_cases e hold
    · exact h'.value_cases e hnew
  constraintCount_eq := h'.constraintCount_eq.trans h.constraintCount_eq

/-- One slack at most, and only for a constraint that lacks a bound. -/
theorem addSlack_layout (hp : p.WellFormed) (hb : p.constraintBounds[i]? = some b) {n : ℕ}
    (h : p.addSlack i = .ok (q, n)) :
    (∃ slacks, SlacksAdded slacks p q ∧ slacks.length = [b].countP (!·.isBoxed) ∧
      (slacks.map (·.row)).Sublist [i]) ∧
      ∀ k ≠ i, ∀ b', p.constraintBounds[k]? = some b' → q.constraintBounds[k]? = some b' := by
  have hi : i < p.constraintCount := (List.getElem?_eq_some_iff.mp hb).1
  -- both kinds of inequalities get a slack, with a coefficient of either sign
  have hslack : ∀ value coefficient : ℚ, coefficient = 1 ∨ coefficient = -1 →
      p.withSlack i value coefficient = .ok q →
      SlacksAdded [⟨i, p.variableCount, coefficient⟩] p q ∧
        ∀ k ≠ i, ∀ b', p.constraintBounds[k]? = some b' → q.constraintBounds[k]? = some b' := by
    intro value coefficient hcoefficient hq
    obtain ⟨index, hrun, -⟩ := withSlack_eq hp hi value coefficient
    cases hrun.symm.trans hq
    refine ⟨⟨rfl, rfl, rfl, fun e he => ?_, List.length_set⟩, fun k hk b' hb' => ?_⟩
    · rw [List.mem_singleton.mp he]
      exact hcoefficient
    · exact (List.getElem?_set_ne hk.symm).trans hb'
  obtain ⟨b', hfetch, h⟩ := bind_eq_ok.mp h
  have hsame := fetch_eq_ok_iff.mp (liftM_eq_ok.mp hfetch)
  obtain rfl : b = b' := Option.some.inj (hb.symm.trans hsame)
  obtain ⟨lower, upper⟩ := b
  cases lower with
  | none =>
    cases upper with
    | none => cases h
    | some upper =>
      obtain ⟨q', hq, h⟩ := bind_eq_ok.mp h
      cases h
      obtain ⟨hadded, hframe⟩ := hslack upper 1 (Or.inl rfl) (liftM_eq_ok.mp hq)
      exact ⟨⟨_, hadded, rfl, List.Sublist.refl _⟩, hframe⟩
  | some lower =>
    cases upper with
    | none =>
      obtain ⟨coefficient, hnegated, h⟩ := bind_eq_ok.mp h
      cases hnegated
      obtain ⟨q', hq, h⟩ := bind_eq_ok.mp h
      cases h
      obtain ⟨hadded, hframe⟩ := hslack lower (-1) (Or.inr rfl) (liftM_eq_ok.mp hq)
      exact ⟨⟨_, hadded, rfl, List.Sublist.refl _⟩, hframe⟩
    | some upper =>
      cases h
      exact ⟨⟨[], .refl p, rfl, List.nil_sublist _⟩, fun k _ b' hb' => hb'⟩

/-- The constraints that get a slack are in the order of the slacks. -/
theorem slackEach_layout {is : List ℕ} {bs : List (Bounds ℚ)} {n : ℕ} (hp : p.WellFormed)
    (hreads : Reads p.constraintBounds is bs) (hnodup : is.Nodup)
    (h : p.slackEach is = (q, .ok n)) :
    ∃ slacks, SlacksAdded slacks p q ∧ slacks.length = bs.countP (!·.isBoxed) ∧
      (slacks.map (·.row)).Sublist is := by
  induction is generalizing p bs n with
  | nil =>
    cases hreads
    cases h
    exact ⟨[], .refl _, rfl, List.Sublist.refl _⟩
  | cons i is ih =>
    obtain ⟨b, bs, hb, hrest, rfl⟩ := List.forall₂_cons_left_iff.mp hreads
    obtain ⟨hi, hnodup⟩ := List.nodup_cons.mp hnodup
    unfold slackEach at h
    split at h
    · cases h
    · rename_i mid here hmid
      obtain ⟨⟨slacks, hadded, hlength, hrows⟩, hframe⟩ := addSlack_layout hp hb hmid
      cases hrun : mid.slackEach is with
      | mk last later =>
        rw [hrun] at h
        cases later with
        | error e => cases h
        | ok later =>
          cases h
          obtain ⟨slacks', hadded', hlength', hrows'⟩ := ih (wellFormed_addSlack hp hmid)
            (Reads.of_frame hrest hi hframe) hnodup hrun
          refine ⟨slacks ++ slacks', hadded.trans hadded', ?_, ?_⟩
          · rw [List.length_append, hlength, hlength', ← List.countP_append]
            rfl
          · rw [List.map_append]
            exact hrows.append hrows'

theorem addSlacks_layout (hp : p.WellFormed) {n : ℕ} (h : p.addSlacks = (q, .ok n)) :
    ∃ slacks, SlacksAdded slacks p q ∧
      slacks.length = p.constraintBounds.countP (!·.isBoxed) ∧ (slacks.map (·.row)).Nodup := by
  obtain ⟨slacks, hadded, hlength, hrows⟩ :=
    slackEach_layout hp (reads_range p.constraintBounds) List.nodup_range h
  exact ⟨slacks, hadded, hlength, List.nodup_range.sublist hrows⟩

/-- The entry at a position, if the entries are those of consecutive columns. -/
theorem filter_column {es : List (Entry ℚ)} {n k : ℕ} {e : Entry ℚ}
    (hcolumns : es.map (·.column) = List.range' n es.length) (he : es[k]? = some e) :
    es.filter (·.column == n + k) = [e] := by
  induction es generalizing n k with
  | nil => cases he
  | cons head es ih =>
    rw [List.map_cons, List.length_cons, List.range'_succ, List.cons.injEq] at hcolumns
    obtain ⟨hhead, hcolumns⟩ := hcolumns
    cases k with
    | zero =>
      cases he
      have hrest : es.filter (·.column == n + 0) = [] := by
        refine List.filter_eq_nil_iff.mpr fun e he => ?_
        have hmem : e.column ∈ List.range' (n + 1) es.length :=
          hcolumns ▸ List.mem_map_of_mem he
        have hlt := (List.mem_range'_1.mp hmem).1
        simp only [beq_iff_eq]
        omega
      rw [List.filter_cons_of_pos (by simp [hhead]), hrest]
    | succ k =>
      have hnumber : n + (k + 1) = n + 1 + k := by omega
      rw [List.filter_cons_of_neg (by simp [hhead]), hnumber]
      exact ih hcolumns he

/-- The coefficients of the old problem are at old variables. -/
theorem SlacksAdded.column_eq {slacks : List (Entry ℚ)} (h : SlacksAdded slacks p q)
    (hp : p.WellFormed) {k : ℕ} {e : Entry ℚ} (he : slacks[k]? = some e) :
    q.column (p.variableCount + k) = [(e.row, e.value)] := by
  have hold : p.entries.filter (·.column == p.variableCount + k) = [] := by
    refine List.filter_eq_nil_iff.mpr fun e he => ?_
    have hlt := hp.column_lt e he
    simp only [beq_iff_eq]
    omega
  rw [column, h.entries_eq, List.filter_append, hold, filter_column h.columns_eq he]
  rfl

/-! ## Signs -/

theorem rowSign_mul_cases (bs : List (Bounds ℚ)) (i : ℕ) {a : ℚ} (ha : a = 1 ∨ a = -1) :
    rowSign bs i * a = 1 ∨ rowSign bs i * a = -1 := by
  unfold rowSign
  rcases ha with rfl | rfl <;> split <;> norm_num

theorem column_signed (bs : List (Bounds ℚ)) (p : Problem ℚ) (j : ℕ) :
    column { p with entries := p.entries.map (signedEntry bs) } j =
      (p.column j).map fun term => (term.1, rowSign bs term.1 * term.2) := by
  unfold column
  rw [List.filter_map, List.map_map, List.map_map]
  rfl

/-- The slacks of a problem whose rows are then multiplied by their signs. -/
theorem SlacksAdded.exists_row {slacks : List (Entry ℚ)} (h : SlacksAdded slacks p q)
    (hp : p.WellFormed) (hrows : (slacks.map (·.row)).Nodup) (bs : List (Bounds ℚ)) :
    ∃ row : Fin slacks.length → ℕ, Function.Injective row ∧ ∀ k : Fin slacks.length,
      q.cost[p.variableCount + k]? = some 0 ∧
        ∃ coefficient, (coefficient = 1 ∨ coefficient = -1) ∧
          column { q with entries := q.entries.map (signedEntry bs) } (p.variableCount + k) =
            [(row k, coefficient)] := by
  refine ⟨fun k => (slacks.get k).row, fun k l hkl => ?_, fun k => ⟨?_, ?_⟩⟩
  · have hrow : (slacks.map (·.row))[k.val]? = (slacks.map (·.row))[l.val]? := by
      rw [List.getElem?_map, List.getElem?_map, List.getElem?_eq_getElem k.isLt,
        List.getElem?_eq_getElem l.isLt]
      exact congrArg some hkl
    have hlt : k.val < (slacks.map (·.row)).length := by
      rw [List.length_map]
      exact k.isLt
    exact Fin.ext ((List.getElem?_inj hlt hrows).mp hrow)
  · have hlength : p.cost.length = p.variableCount := rfl
    rw [h.cost_eq, List.getElem?_append_right (by omega), hlength, Nat.add_sub_cancel_left,
      List.getElem?_replicate_of_lt k.isLt]
  · refine ⟨rowSign bs (slacks.get k).row * (slacks.get k).value, ?_, ?_⟩
    · exact rowSign_mul_cases bs _ (h.value_cases _ (List.get_mem slacks k))
    · rw [column_signed, h.column_eq hp (List.getElem?_eq_getElem k.isLt)]
      rfl

/-! ## The layout -/

/-- What a canonical form of `p` looks like.  The first variables are those of `p`.  The second
parts of the free ones come next, in the order of the free ones, and the slacks are last. -/
structure Layout (p : Problem ℚ) (c : CanonicalForm ℚ) : Prop where
  objective_eq : c.problem.objective = .minimize
  variableCount_eq : c.problem.variableCount = p.variableCount + p.freeCount + p.slackCount
  variableBounds_eq :
    c.problem.variableBounds = List.replicate c.problem.variableCount .nonnegative
  constraintCount_eq :
    c.problem.constraintCount = p.constraintCount + p.boxedCount + p.rangeCount
  constraint_eq :
    ∀ b ∈ c.problem.constraintBounds, ∃ value, b = ⟨some value, some value⟩ ∧ 0 ≤ value
  recoveries_length : c.recoveries.length = p.variableCount
  recovery_eq : ∀ (j : ℕ) b, p.variableBounds[j]? = some b → c.recoveries[j]? = some
    (b.recovery (p.variableCount + (p.variableBounds.take j).countP Bounds.isFree))
  /-- Slacks have no cost and one coefficient each, in rows of their own. -/
  slack_eq : ∃ row : Fin p.slackCount → ℕ, Function.Injective row ∧ ∀ k : Fin p.slackCount,
    c.problem.cost[p.variableCount + p.freeCount + k]? = some 0 ∧
      ∃ coefficient, (coefficient = 1 ∨ coefficient = -1) ∧
        c.problem.column (p.variableCount + p.freeCount + k) = [(row k, coefficient)]

/-- Without ranges, the constraints that are not equalities are those that lack a bound. -/
theorem countP_unboxed {bs : List (Bounds ℚ)} (hranges : ∀ b ∈ bs, b.isRange = false) :
    bs.countP (!·.isBoxed) = bs.length - bs.countP Bounds.isEquality := by
  have hsplit := List.length_eq_countP_add_countP Bounds.isBoxed (l := bs)
  have hequality : bs.countP Bounds.isBoxed = bs.countP Bounds.isEquality :=
    List.countP_congr fun b hb => by rw [Bounds.isBoxed_of_not_isRange (hranges b hb)]
  simp only [Bool.not_eq_true, Bool.decide_eq_false] at hsplit
  omega

/-- What the first three passes make of a problem. -/
theorem counts_before_slacks (hp : p.WellFormed) {p₁ p₂ p₃ : Problem ℚ} {rs : List (Recovery ℚ)}
    {ranges : ℕ} (h₁ : p.minimized = .ok p₁) (h₂ : p₁.normalizeVariables = .ok (p₂, rs))
    (h₃ : p₂.splitRanges = .ok (p₃, ranges)) :
    p₃.variableCount = p.variableCount + p.freeCount ∧
      p₃.constraintCount = p.constraintCount + p.boxedCount + p.rangeCount ∧
      p₃.constraintBounds.countP (!·.isBoxed) = p.slackCount := by
  obtain ⟨p₁', hrun₁, hwf₁, -, hvariables, hconstraints, hcount, -⟩ := minimized_spec hp
  obtain rfl : p₁ = p₁' := Except.ok.inj (h₁.symm.trans hrun₁)
  have hwf₂ := wellFormed_normalizeEach hwf₁ h₂
  obtain ⟨p₃', ranges', hrun₃, -, hranges⟩ := splitRanges_spec hwf₂
  cases h₃.symm.trans hrun₃
  obtain ⟨hadded, -, -⟩ := normalizeVariables_layout hwf₁ h₂
  have hsplit := splitRanges_layout hwf₂ h₃
  have hvariableCount : p₃.variableCount = p.variableCount + p.freeCount := by
    rw [hsplit.variableCount_eq, hadded.variableCount_eq, hvariables, hcount]
    rfl
  have hconstraintCount :
      p₃.constraintCount = p.constraintCount + p.boxedCount + p.rangeCount := by
    have hrangeCount : p₂.constraintBounds.countP Bounds.isRange = p.rangeCount := by
      rw [← rangeCount, hadded.rangeCount_eq, rangeCount, hconstraints, rangeCount]
    rw [hsplit.constraintCount_eq, hrangeCount, hadded.constraintCount_eq, hvariables,
      constraintCount, hconstraints]
    rfl
  have hequalityCount : p₃.equalityCount = p.equalityCount := by
    rw [hsplit.equalityCount_eq, hadded.equalityCount_eq, equalityCount, hconstraints,
      equalityCount]
  refine ⟨hvariableCount, hconstraintCount, ?_⟩
  have hle : p.equalityCount ≤ p.constraintCount := List.countP_le_length
  rw [countP_unboxed hranges, ← constraintCount, ← equalityCount, hconstraintCount,
    hequalityCount, slackCount]
  omega

theorem layout_of_normalize (hp : p.WellFormed) {rs : List (Recovery ℚ)} {slacks ranges : ℕ}
    (h : p.normalize = .ok (q, .ok (rs, slacks, ranges))) (hcanonical : Canonicalized p q rs) :
    Layout p ⟨q, rs⟩ := by
  obtain ⟨p₁, h₁, h⟩ := bind_eq_ok.mp h
  obtain ⟨⟨p₂, recoveries⟩, h₂, h⟩ := bind_eq_ok.mp h
  obtain ⟨⟨p₃, count⟩, h₃, h⟩ := bind_eq_ok.mp h
  dsimp only at h
  split at h
  · cases h
  rename_i p₄ made h₄
  obtain ⟨p₅, h₅, h⟩ := bind_eq_ok.mp h
  cases h
  have hwf₁ := wellFormed_minimized hp h₁
  have hwf₃ := wellFormed_splitEach (wellFormed_normalizeEach hwf₁ h₂) h₃
  have hwf₄ : p₄.WellFormed := by
    have hwf := wellFormed_slackEach (List.range p₃.constraintCount) hwf₃
    rw [← addSlacks, h₄] at hwf
    exact hwf
  cases (withNonnegativeValues_eq hwf₄).symm.trans h₅
  obtain ⟨hvariableCount, hconstraintCount, hslackCount⟩ := counts_before_slacks hp h₁ h₂ h₃
  obtain ⟨new, hadded, hlength, hrows⟩ := addSlacks_layout hwf₃ h₄
  rw [hslackCount] at hlength
  obtain ⟨-, hrecoveries, hrecovery⟩ := normalizeVariables_layout hwf₁ h₂
  obtain ⟨p₁', hrun₁, -, -, hvariables, -, hcount, -⟩ := minimized_spec hp
  obtain rfl : p₁ = p₁' := Except.ok.inj (h₁.symm.trans hrun₁)
  refine ⟨hcanonical.objective_eq, ?_, ?_, ?_, hcanonical.constraint_eq, ?_, ?_, ?_⟩
  · exact hadded.variableCount_eq.trans (by rw [hvariableCount, hlength])
  · exact List.eq_replicate_iff.mpr ⟨hcanonical.wellFormed.bounds_length, hcanonical.variable_eq⟩
  · exact (List.length_map _).trans (hadded.constraintCount_eq.trans hconstraintCount)
  · exact hrecoveries.trans hcount
  · rw [← hvariables, ← hcount]
    exact hrecovery
  · rw [← hlength, ← hvariableCount]
    exact hadded.exists_row hwf₃ hrows p₄.constraintBounds

end Problem

/-! ## The way back -/

namespace Recovery

variable {x : List ℚ} {rs : List (Recovery ℚ)}

/-- The canonical values reach as far as the recoveries look. -/
def Covered (rs : List (Recovery ℚ)) (x : List ℚ) : Prop :=
  rs.length ≤ x.length ∧ ∀ r ∈ rs, ∀ i, r.paired = some i → i < x.length

/-- The canonical values end before a position that was asked for. -/
def EndsEarly {α : Type} (x : List ℚ) (result : Except Failure α) : Prop :=
  ∃ position, x.length ≤ position ∧
    result = .error (.refused (.dimensionMismatch (.canonicalSolution x.length position)))

theorem EndsEarly.ne_ok {α : Type} {result : Except Failure α} (h : EndsEarly x result) (a : α) :
    result ≠ .ok a := by
  obtain ⟨position, -, rfl⟩ := h
  nofun

theorem valueAt_error {j : ℕ} (hj : x.length ≤ j) :
    valueAt x j = .error (.dimensionMismatch (.canonicalSolution x.length j)) := by
  rw [valueAt, List.getElem?_eq_none hj]

theorem value_cases (r : Recovery ℚ) (j : ℕ) (x : List ℚ) :
    (j < x.length ∧ ∀ i, r.paired = some i → i < x.length) ∨ EndsEarly x (r.value j x) := by
  rcases Nat.lt_or_ge j x.length with hj | hj
  · cases hpaired : r.paired with
    | none => exact Or.inl ⟨hj, nofun⟩
    | some i =>
      rcases Nat.lt_or_ge i x.length with hi | hi
      · refine Or.inl ⟨hj, fun k hk => ?_⟩
        cases hk
        exact hi
      · refine Or.inr ⟨i, hi, ?_⟩
        unfold value
        rw [valueAt_eq hj, hpaired]
        simp only [liftM_ok_refusal, ok_bind, Exact.mul_eq, Exact.add_eq, valueAt_error hi]
        rfl
  · refine Or.inr ⟨j, hj, ?_⟩
    unfold value
    rw [valueAt_error hj]
    rfl

theorem values_cases (rs : List (Recovery ℚ)) (x : List ℚ) :
    Covered rs x ∨ EndsEarly x (values rs (.optimum x)) := by
  rcases mapM_cases (fun pair => pair.1.value pair.2 x) rs.zipIdx with
    hall | ⟨pair, -, e, he, hrun⟩
  · have hreach : ∀ (j : ℕ) r, rs[j]? = some r →
        j < x.length ∧ ∀ i, r.paired = some i → i < x.length := by
      intro j r hr
      obtain ⟨y, hy⟩ := hall (r, j) (List.mem_zipIdx_iff_getElem?.mpr hr)
      exact (r.value_cases j x).resolve_right fun hearly => hearly.ne_ok y hy
    refine Or.inl ⟨?_, fun r hr => ?_⟩
    · by_contra hlt
      have hj : x.length < rs.length := by omega
      exact lt_irrefl _ (hreach x.length _ (List.getElem?_eq_getElem hj)).1
    · obtain ⟨j, hj⟩ := List.mem_iff_getElem?.mp hr
      exact (hreach j r hj).2
  · refine Or.inr ?_
    rcases pair.1.value_cases pair.2 x with ⟨hj, hpaired⟩ | ⟨position, hposition, herror⟩
    · cases (value_eq hj hpaired).symm.trans he
    · cases he.symm.trans herror
      exact ⟨position, hposition, hrun⟩

/-- Nothing looks at further values. -/
theorem values_append (h : Covered rs x) (y : List ℚ) :
    values rs (.optimum (x ++ y)) = values rs (.optimum x) := by
  have hle : x.length ≤ (x ++ y).length := by
    rw [List.length_append]
    exact Nat.le_add_right _ _
  rw [values_eq_map (h.1.trans hle) fun r hr i hi => (h.2 r hr i hi).trans_le hle,
    values_eq_map h.1 h.2]
  congr 1
  refine List.map_congr_left fun pair hpair => ?_
  have hget := List.mem_zipIdx_iff_getElem?.mp hpair
  have hj := (List.getElem?_eq_some_iff.mp hget).1
  exact pair.1.back_congr (valuation_append_left (hj.trans_le h.1)) fun i hi =>
    valuation_append_left (h.2 pair.1 (List.mem_of_getElem? hget) i hi)

end Recovery

/-- The way back needs `n` canonical values and looks at no other. -/
structure CanonicalForm.Takes (c : CanonicalForm ℚ) (n : ℕ) : Prop where
  ok_iff : ∀ x, (∃ y, c.reconstruct (.optimum x) = .ok y) ↔ n ≤ x.length
  refused : ∀ x, x.length < n → Recovery.EndsEarly x (c.reconstruct (.optimum x))
  take_eq : ∀ x, c.reconstruct (.optimum (x.take n)) = c.reconstruct (.optimum x)

/-- So it is with recoveries that look at the first `n` values, down to the last of these. -/
theorem CanonicalForm.takes_of_covered {c : CanonicalForm ℚ} {n : ℕ}
    (h : ∀ x, Recovery.Covered c.recoveries x ↔ n ≤ x.length) : c.Takes n := by
  have hrefused : ∀ x, x.length < n → Recovery.EndsEarly x (c.reconstruct (.optimum x)) := by
    intro x hx
    have hnot : ¬ Recovery.Covered c.recoveries x := by
      rw [h]
      exact not_le_of_gt hx
    exact (Recovery.values_cases c.recoveries x).resolve_left hnot
  refine ⟨fun x => ⟨fun hok => ?_, fun hx => ?_⟩, hrefused, fun x => ?_⟩
  · obtain ⟨y, hy⟩ := hok
    by_contra hlt
    exact (hrefused x (not_le.mp hlt)).ne_ok y hy
  · obtain ⟨hlength, hpaired⟩ := (h x).mpr hx
    exact ⟨_, Recovery.values_eq_map hlength hpaired⟩
  · rcases Nat.lt_or_ge x.length n with hx | hx
    · rw [List.take_of_length_le hx.le]
    · have hcovered : Recovery.Covered c.recoveries (x.take n) := by
        rw [h, List.length_take, Nat.min_eq_left hx]
      have hsame := Recovery.values_append hcovered (x.drop n)
      rw [List.take_append_drop] at hsame
      exact hsame.symm

namespace Problem

variable {p : Problem ℚ}

/-- The last second part is the last value that is looked at. -/
theorem Layout.covered_iff {c : CanonicalForm ℚ} (h : Layout p c) (hp : p.WellFormed)
    (x : List ℚ) :
    Recovery.Covered c.recoveries x ↔ p.variableCount + p.freeCount ≤ x.length := by
  constructor
  · rintro ⟨hlength, hpaired⟩
    rw [h.recoveries_length] at hlength
    have hcount : p.freeCount ≤ x.length - p.variableCount := by
      refine countP_le_of_take_lt fun j b hb hfree => ?_
      have hlt := hpaired _ (List.mem_of_getElem? (h.recovery_eq j b hb)) _
        (Bounds.paired_recovery.mpr ⟨hfree, rfl⟩)
      omega
    omega
  · intro hx
    refine ⟨?_, fun r hr i hi => ?_⟩
    · rw [h.recoveries_length]
      omega
    · obtain ⟨j, hj⟩ := List.mem_iff_getElem?.mp hr
      have hlt : j < p.variableBounds.length := by
        rw [hp.bounds_length]
        exact (List.getElem?_eq_some_iff.mp hj).1.trans_eq h.recoveries_length
      have hb := List.getElem?_eq_getElem hlt
      obtain rfl := Option.some.inj ((h.recovery_eq j _ hb).symm.trans hj)
      obtain ⟨hfree, rfl⟩ := Bounds.paired_recovery.mp hi
      have hcount := countP_take_lt hb hfree
      unfold freeCount at hx
      omega

/-- Every problem that can be built has a canonical form that is laid out like this. -/
theorem canonicalForm_layout (hp : p.Reachable) (hfresh : p.transformed = false) :
    ∃ c, p.canonicalForm.outcome = .ok c ∧ Layout p c ∧
      c.Takes (p.variableCount + p.freeCount) := by
  obtain ⟨q, rs, slacks, ranges, hrun, hcanonical, -⟩ := normalize_spec hp.wellFormed
  have hlayout := layout_of_normalize hp.wellFormed hrun hcanonical
  refine ⟨⟨q, rs⟩, ?_, hlayout, CanonicalForm.takes_of_covered (hlayout.covered_iff hp.wellFormed)⟩
  rw [canonicalForm_of_normalize hp.wellFormed hfresh hrun hcanonical.isCanonical_eq]

theorem canonicalForm_layout_mixed :
    Mixed.coupled.Reachable ∧ Mixed.coupled.transformed = false ∧
      ∃ c, Mixed.coupled.canonicalForm.outcome = .ok c ∧ Layout Mixed.coupled c ∧
        c.Takes 4 :=
  ⟨Mixed.reachable_coupled, rfl, canonicalForm_layout Mixed.reachable_coupled rfl⟩

end Problem

end LinearOpt
