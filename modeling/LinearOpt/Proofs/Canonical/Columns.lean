import LinearOpt.Proofs.Canonical.Reformulation

/-!
# Operations on columns and rows

What the operations on the column of a variable do to a problem, and what a new column or row means.

* `moveConstant_eq` lowers the bounds of each constraint by the coefficient times a value, and
  `allHold_lowered` says that the rows are then short of that amount.
* `negateColumn_eq` negates a column, which is to negate its variable (`rowForm_negated`).
* `appendColumn_spec` appends a variable, and `rowForm_columnEntries` is what a row gains.
* `appendRow_spec` appends a constraint, and `allHold_appendRow` says that the others stay.
-/

namespace LinearOpt

/-! ## Lowered bounds -/

namespace Bounds

def lowered (b : Bounds ℚ) (amount : ℚ) : Bounds ℚ :=
  ⟨b.lower.map (· - amount), b.upper.map (· - amount)⟩

theorem loweredBy_eq (b : Bounds ℚ) (amount : ℚ) : b.loweredBy amount = .ok (b.lowered amount) := by
  obtain ⟨lower, upper⟩ := b
  cases lower <;> cases upper <;> rfl

theorem holds_lowered {b : Bounds ℚ} {amount x : ℚ} :
    (b.lowered amount).Holds x ↔ b.Holds (x + amount) := by
  obtain ⟨lower, upper⟩ := b
  cases lower <;> cases upper <;> simp [Holds, lowered, le_sub_iff_add_le]

theorem lowered_lowered (b : Bounds ℚ) (x y : ℚ) : (b.lowered x).lowered y = b.lowered (x + y) := by
  obtain ⟨lower, upper⟩ := b
  cases lower <;> cases upper <;> simp [lowered, sub_sub]

theorem lowered_zero (b : Bounds ℚ) : b.lowered 0 = b := by
  obtain ⟨lower, upper⟩ := b
  cases lower <;> cases upper <;> simp [lowered]

theorem lowered_ne_free {b : Bounds ℚ} (hb : b ≠ .free) (amount : ℚ) :
    b.lowered amount ≠ .free := by
  rwa [ne_free_iff, lowered, Option.isSome_map, Option.isSome_map, ← ne_free_iff]

end Bounds

theorem allHold_lowered (bs : List (Bounds ℚ)) (amount z : ℕ → ℚ) :
    AllHold (bs.mapIdx fun i b => b.lowered (amount i)) z ↔
      AllHold bs fun i => z i + amount i := by
  constructor
  · intro h i b hb
    have hlowered := h i (b.lowered (amount i)) (by rw [List.getElem?_mapIdx, hb]; rfl)
    exact Bounds.holds_lowered.mp hlowered
  · intro h i b hb
    rw [List.getElem?_mapIdx] at hb
    obtain ⟨old, hold, rfl⟩ := Option.map_eq_some_iff.mp hb
    exact Bounds.holds_lowered.mpr (h i old hold)

namespace Problem

/-! ## Constants -/

/-- One coefficient after the other lowers the bounds of its constraint. -/
theorem foldlM_lowered (es : List (Entry ℚ)) (j : ℕ) (x : ℚ) (bs : List (Bounds ℚ))
    (hrows : ∀ e ∈ es, e.row < bs.length) :
    ((es.filter (·.column == j)).map fun e => (e.row, e.value)).foldlM
        (fun (bounds : List (Bounds ℚ)) (term : ℕ × ℚ) => do
          let amount ← Scalar.mul term.2 x
          update bounds term.1 fun b => b.loweredBy amount) bs =
      .ok (bs.mapIdx fun i b => b.lowered (coefficientAt es i j * x)) := by
  induction es generalizing bs with
  | nil =>
    have hself : (bs.mapIdx fun i b => b.lowered (coefficientAt [] i j * x)) = bs := by
      apply List.ext_getElem?
      intro i
      have hzero : coefficientAt [] i j * x = 0 := zero_mul x
      rw [List.getElem?_mapIdx]
      simp only [hzero, Bounds.lowered_zero, Option.map_id']
    rw [hself]
    rfl
  | cons e es ih =>
    have hrest : ∀ e' ∈ es, e'.row < bs.length := fun e' he' =>
      hrows e' (List.mem_cons_of_mem e he')
    by_cases hcolumn : e.column = j
    · have hlt := hrows e List.mem_cons_self
      rw [List.filter_cons_of_pos (by simpa using hcolumn), List.map_cons, List.foldlM_cons,
        Exact.mul_eq, ok_bind,
        update_eq_ok (List.getElem?_eq_getElem hlt) (Bounds.loweredBy_eq _ _), ok_bind,
        ih _ (by simpa using hrest)]
      congr 1
      apply List.ext_getElem?
      intro i
      rw [List.getElem?_mapIdx, List.getElem?_mapIdx, List.getElem?_set]
      by_cases hi : e.row = i
      · subst hi
        have hkey : e.key = (e.row, j) := by rw [← hcolumn]; rfl
        rw [if_pos rfl, if_pos hlt, List.getElem?_eq_getElem hlt, Option.map_some, Option.map_some,
          Bounds.lowered_lowered, coefficientAt_cons, if_pos hkey, add_mul]
      · have hkey : e.key ≠ (i, j) := fun h => hi (congrArg Prod.fst h)
        rw [if_neg hi, coefficientAt_cons, if_neg hkey, zero_add]
    · rw [List.filter_cons_of_neg (by simpa using hcolumn), ih _ hrest]
      congr 2
      funext i b
      have hkey : e.key ≠ (i, j) := fun h => hcolumn (congrArg Prod.snd h)
      rw [coefficientAt_cons, if_neg hkey, zero_add]

variable {p : Problem ℚ}

theorem moveConstant_eq (hp : p.WellFormed) (j : ℕ) (x : ℚ) :
    p.moveConstant j x = .ok { p with
      constraintBounds :=
        p.constraintBounds.mapIdx fun i b => b.lowered (coefficientAt p.entries i j * x) } := by
  have hfold := foldlM_lowered p.entries j x p.constraintBounds hp.row_lt
  unfold moveConstant column
  rw [hfold]
  rfl

theorem lowered_ne_free_of_mem (hp : p.WellFormed) (amount : ℕ → ℚ) :
    ∀ b ∈ p.constraintBounds.mapIdx fun i b => b.lowered (amount i), b ≠ .free := by
  intro b hb
  obtain ⟨i, hi, rfl⟩ := List.mem_mapIdx.mp hb
  exact Bounds.lowered_ne_free (hp.bounded _ (List.getElem_mem hi)) _

/-! ## Negated columns -/

def negatedAt (j : ℕ) (e : Entry ℚ) : Entry ℚ :=
  if e.column = j then { e with value := -e.value } else e

theorem key_negatedAt (j : ℕ) (e : Entry ℚ) : (negatedAt j e).key = e.key := by
  unfold negatedAt
  split <;> rfl

theorem keys_negated (es : List (Entry ℚ)) (j : ℕ) :
    (es.map (negatedAt j)).map Entry.key = es.map Entry.key := by
  rw [List.map_map]
  exact List.map_congr_left fun e _ => key_negatedAt j e

theorem rowForm_negated (es : List (Entry ℚ)) (i j : ℕ) (z : ℕ → ℚ) :
    rowForm (es.map (negatedAt j)) i z = rowForm es i (Function.update z j (-z j)) := by
  unfold rowForm
  rw [List.map_map]
  congr 1
  refine List.map_congr_left fun e _ => ?_
  rw [Function.comp_apply, negatedAt]
  by_cases hcolumn : e.column = j
  · rw [if_pos hcolumn, hcolumn, Function.update_self, neg_mul_comm]
  · rw [if_neg hcolumn, Function.update_of_ne hcolumn]

theorem linear_set {c : List ℚ} {j : ℕ} (hj : j < c.length) (x : ℚ) (z : ℕ → ℚ) :
    linear (c.set j x) z = linear c z + (x - valuation c j) * z j := by
  have hmem : j ∈ Finset.range c.length := Finset.mem_range.mpr hj
  have hself : valuation (c.set j x) j = x := by
    rw [valuation, List.getD_eq_getElem?_getD, List.getElem?_set_self hj, Option.getD_some]
  have hrest : ∀ k ∈ (Finset.range c.length).erase j,
      valuation (c.set j x) k * z k = valuation c k * z k := by
    intro k hk
    have hkj : j ≠ k := (Finset.ne_of_mem_erase hk).symm
    rw [valuation, List.getD_eq_getElem?_getD, List.getElem?_set_ne hkj,
      ← List.getD_eq_getElem?_getD, ← valuation]
  unfold linear
  rw [List.length_set, ← Finset.add_sum_erase _ _ hmem, ← Finset.add_sum_erase _ _ hmem,
    Finset.sum_congr rfl hrest, hself]
  ring

theorem fetch_cost {j : ℕ} (hj : j < p.variableCount) :
    p.cost[j]? = some (valuation p.cost j) := by
  rw [valuation, List.getD_eq_getElem _ _ hj]
  exact List.getElem?_eq_getElem hj

theorem negateColumn_eq {j : ℕ} (hj : j < p.variableCount) :
    p.negateColumn j = .ok { p with
      cost := p.cost.set j (-valuation p.cost j)
      entries := p.entries.map (negatedAt j) } := by
  have hentries : (p.entries.mapM fun e =>
      if e.column == j then do return { e with value := ← Scalar.neg e.value } else return e) =
      (.ok (p.entries.map (negatedAt j)) : Except Fault _) := by
    refine mapM_eq_ok fun e _ => ?_
    unfold negatedAt
    by_cases hcolumn : e.column = j
    · rw [if_pos (by simpa using hcolumn), if_pos hcolumn]
      rfl
    · rw [if_neg (by simpa using hcolumn), if_neg hcolumn]
      rfl
  unfold negateColumn
  rw [update_eq_ok (fetch_cost hj) (Exact.neg_eq _), ok_bind, hentries]
  rfl

/-! ## Appended columns -/

/-- The entries of a new column. -/
def columnEntries (j : ℕ) (column : List (ℕ × ℚ)) : List (Entry ℚ) :=
  column.map fun term => ⟨term.1, j, term.2⟩

theorem rowForm_columnEntries (j i : ℕ) (column : List (ℕ × ℚ)) (z : ℕ → ℚ) :
    rowForm (columnEntries j column) i z =
      (column.map fun term => if term.1 = i then term.2 else 0).sum * z j := by
  induction column with
  | nil => simp [columnEntries, rowForm]
  | cons term column ih =>
    unfold columnEntries at ih ⊢
    rw [List.map_cons, rowForm_cons, ih, List.map_cons, List.sum_cons, add_mul, ite_mul, zero_mul]

theorem sum_column (es : List (Entry ℚ)) (i j : ℕ) :
    (((es.filter (·.column == j)).map fun e => (e.row, e.value)).map
      fun term => if term.1 = i then term.2 else 0).sum = coefficientAt es i j := by
  induction es with
  | nil => rfl
  | cons e es ih =>
    rw [coefficientAt_cons, ← ih]
    by_cases hcolumn : e.column = j
    · simp [Entry.key, hcolumn]
    · simp [Entry.key, hcolumn]

/-- A new variable is nonnegative, and takes part in the rows of its column. -/
theorem appendColumn_spec (hp : p.WellFormed) (cost : ℚ) {column : List (ℕ × ℚ)}
    (hnodup : (column.map Prod.fst).Nodup) (hrows : ∀ term ∈ column, term.1 < p.constraintCount) :
    ∃ index, p.appendColumn cost column = .ok { p with
        cost := p.cost ++ [cost]
        variableBounds := p.variableBounds ++ [.nonnegative]
        entries := p.entries ++ columnEntries p.variableCount column
        index } ∧
      WellFormed { p with
        cost := p.cost ++ [cost]
        variableBounds := p.variableBounds ++ [.nonnegative]
        entries := p.entries ++ columnEntries p.variableCount column
        index } := by
  have hkeys : (columnEntries p.variableCount column).map Entry.key =
      (column.map Prod.fst).map fun i => (i, p.variableCount) := by
    unfold columnEntries
    rw [List.map_map, List.map_map]
    rfl
  have hnodup' : ((columnEntries p.variableCount column).map Entry.key).Nodup := by
    rw [hkeys]
    exact hnodup.map fun i k h => congrArg Prod.fst h
  have hnew : ∀ e ∈ columnEntries p.variableCount column, e.key ∉ p.keys := by
    intro e he hmem
    obtain ⟨term, -, rfl⟩ := List.mem_map.mp he
    exact absurd (hp.key_lt _ hmem).2 (lt_irrefl _)
  have hindexed : Indexed { p with
      cost := p.cost ++ [cost]
      variableBounds := p.variableBounds ++ [.nonnegative] } := hp.indexed
  obtain ⟨index, hrun, hindexed'⟩ := insertAll hindexed _ hnodup' hnew
  refine ⟨index, ?_, ?_, ?_, hp.bounded, hindexed'⟩
  · unfold appendColumn
    rw [← hrun, columnEntries, List.foldlM_map]
  · simp only [List.length_append, List.length_singleton, hp.bounds_length]
  · intro key hkey
    unfold keys at hkey
    rw [List.map_append, List.mem_append] at hkey
    unfold variableCount constraintCount
    rw [List.length_append, List.length_singleton]
    rcases hkey with hold | hself
    · obtain ⟨hrow, hcolumn⟩ := hp.key_lt key hold
      exact ⟨hrow, Nat.lt_succ_of_lt hcolumn⟩
    · rw [hkeys, List.map_map] at hself
      obtain ⟨term, hterm, rfl⟩ := List.mem_map.mp hself
      exact ⟨hrows term hterm, Nat.lt_succ_self _⟩

/-! ## Appended rows -/

/-- The entries of a new row. -/
def rowEntries (i : ℕ) (row : List (ℕ × ℚ)) : List (Entry ℚ) :=
  row.map fun term => ⟨i, term.1, term.2⟩

theorem rowForm_rowEntries (k i : ℕ) (row : List (ℕ × ℚ)) (z : ℕ → ℚ) :
    rowForm (rowEntries k row) i z =
      if k = i then (row.map fun term => term.2 * z term.1).sum else 0 := by
  induction row with
  | nil => simp [rowEntries, rowForm]
  | cons term row ih =>
    unfold rowEntries at ih ⊢
    rw [List.map_cons, rowForm_cons, ih, List.map_cons, List.sum_cons]
    by_cases hi : k = i
    · rw [if_pos hi, if_pos hi, if_pos hi]
    · rw [if_neg hi, if_neg hi, if_neg hi, add_zero]

/-- The rows that there are do not change. -/
theorem allHold_appendRow (hp : p.WellFormed) {bs : List (Bounds ℚ)}
    (hlength : bs.length = p.constraintCount) (b : Bounds ℚ) (row : List (ℕ × ℚ)) (z : ℕ → ℚ) :
    AllHold (bs ++ [b])
        (fun i => rowForm (p.entries ++ rowEntries p.constraintCount row) i z) ↔
      AllHold bs (fun i => rowForm p.entries i z) ∧
        b.Holds (row.map fun term => term.2 * z term.1).sum := by
  have hold : AllHold bs (fun i => rowForm (p.entries ++ rowEntries p.constraintCount row) i z) ↔
      AllHold bs fun i => rowForm p.entries i z := by
    refine allHold_congr fun i hi => ?_
    have hne : p.constraintCount ≠ i := by omega
    rw [rowForm_append, rowForm_rowEntries, if_neg hne, add_zero]
  have hlast : ∀ e ∈ p.entries, e.row ≠ p.constraintCount := fun e he => (hp.row_lt e he).ne
  rw [allHold_append, hold, hlength, rowForm_append, rowForm_eq_zero hlast, zero_add,
    rowForm_rowEntries, if_pos rfl]

/-- A new constraint has the coefficients of its row. -/
theorem appendRow_spec (hp : p.WellFormed) {bs : List (Bounds ℚ)}
    (hlength : bs.length = p.constraintCount) {b : Bounds ℚ}
    (hbounded : ∀ b' ∈ bs ++ [b], b' ≠ .free)
    {row : List (ℕ × ℚ)} (hnodup : (row.map Prod.fst).Nodup)
    (hcolumns : ∀ term ∈ row, term.1 < p.variableCount) :
    ∃ index, (row.foldlM (fun q term => q.insert ⟨p.constraintCount, term.1, term.2⟩ false)
        { p with constraintBounds := bs ++ [b] }) = .ok { p with
          constraintBounds := bs ++ [b]
          entries := p.entries ++ rowEntries p.constraintCount row
          index } ∧
      WellFormed { p with
        constraintBounds := bs ++ [b]
        entries := p.entries ++ rowEntries p.constraintCount row
        index } := by
  have hkeys : (rowEntries p.constraintCount row).map Entry.key =
      (row.map Prod.fst).map fun j => (p.constraintCount, j) := by
    unfold rowEntries
    rw [List.map_map, List.map_map]
    rfl
  have hnodup' : ((rowEntries p.constraintCount row).map Entry.key).Nodup := by
    rw [hkeys]
    exact hnodup.map fun j k h => congrArg Prod.snd h
  have hnew : ∀ e ∈ rowEntries p.constraintCount row, e.key ∉ p.keys := by
    intro e he hmem
    obtain ⟨term, -, rfl⟩ := List.mem_map.mp he
    exact absurd (hp.key_lt _ hmem).1 (lt_irrefl _)
  have hindexed : Indexed { p with constraintBounds := bs ++ [b] } := hp.indexed
  obtain ⟨index, hrun, hindexed'⟩ := insertAll hindexed _ hnodup' hnew
  refine ⟨index, ?_, hp.bounds_length, ?_, hbounded, hindexed'⟩
  · rw [rowEntries, List.foldlM_map] at hrun
    exact hrun
  · intro key hkey
    unfold keys at hkey
    rw [List.map_append, List.mem_append] at hkey
    unfold constraintCount
    rw [List.length_append, hlength, List.length_singleton]
    rcases hkey with hold | hself
    · obtain ⟨hrow, hcolumn⟩ := hp.key_lt key hold
      exact ⟨Nat.lt_succ_of_lt hrow, hcolumn⟩
    · rw [hkeys, List.map_map] at hself
      obtain ⟨term, hterm, rfl⟩ := List.mem_map.mp hself
      exact ⟨Nat.lt_succ_self _, hcolumns term hterm⟩

end Problem

end LinearOpt
