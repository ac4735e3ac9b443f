import LinearOpt.Proofs.Canonical.Equivalent

/-!
# The coefficients as a finite map

A problem keeps its coefficients in a list of entries with an index, and shows them by pair, by row
and by column.  Here they are a map of cells: `cells i j` is the coefficient in row `i` and column
`j`, or `none`.

* `coefficient?_eq_some_iff`, `mem_row_iff` and `mem_column_iff` say that all three views show the
  entries.
* `coefficient?_insert` is what one insertion does to every cell, and `coefficient?_ofMatrix` what
  the cells of a matrix are.
* `Recorded` keeps record of the calls that set a coefficient while a problem is built, and
  `Recorded.coefficient?_eq` says that the cells are what a replay of these calls makes of the
  initial ones.
* `Stores` says all that there is to say about the cells, and `stores_recorded` states it of every
  problem that can be built.
-/

namespace LinearOpt

namespace Problem

/-! ## Views -/

section Views

variable {F : Type} {p q : Problem F} {i j : ℕ}

theorem coefficient?_of_index {k : ℕ} {e : Entry F} (hindex : p.index[(i, j)]? = some k)
    (he : p.entries[k]? = some e) : p.coefficient? i j = .ok (some e.value) := by
  unfold coefficient?
  rw [hindex]
  dsimp only
  rw [fetch_eq_ok he]
  rfl

theorem coefficient?_of_not_mem (hp : p.Indexed) (h : (i, j) ∉ p.keys) :
    p.coefficient? i j = .ok none := by
  unfold coefficient?
  rw [hp.getElem?_eq_none_iff.mpr h]
  rfl

theorem coefficient?_congr (hentries : q.entries = p.entries) (hindex : q.index = p.index) :
    q.coefficient? i j = p.coefficient? i j := by
  unfold coefficient?
  rw [hentries, hindex]

/-- The position of an entry is the one that its key is indexed at. -/
theorem index_eq_some_iff (hp : p.Indexed) {k : ℕ} :
    p.index[(i, j)]? = some k ↔ ∃ e, p.entries[k]? = some e ∧ e.row = i ∧ e.column = j := by
  rw [hp.getElem?_iff, keys, List.getElem?_map, Option.map_eq_some_iff]
  simp only [Entry.key, Prod.mk.injEq]

theorem coefficient?_eq_some_iff (hp : p.Indexed) {a : F} :
    p.coefficient? i j = .ok (some a) ↔ ⟨i, j, a⟩ ∈ p.entries := by
  constructor
  · intro h
    cases hindex : p.index[(i, j)]? with
    | none =>
      rw [coefficient?_of_not_mem hp (hp.getElem?_eq_none_iff.mp hindex)] at h
      cases h
    | some k =>
      obtain ⟨e, he, rfl, rfl⟩ := (index_eq_some_iff hp).mp hindex
      rw [coefficient?_of_index hindex he] at h
      cases h
      exact List.mem_of_getElem? he
  · intro h
    obtain ⟨k, he⟩ := List.mem_iff_getElem?.mp h
    exact coefficient?_of_index ((index_eq_some_iff hp).mpr ⟨_, he, rfl, rfl⟩) he

/-- Every coefficient is known, whether it was set or not. -/
theorem exists_coefficient? (hp : p.Indexed) (i j : ℕ) :
    ∃ cell, p.coefficient? i j = .ok cell := by
  by_cases h : (i, j) ∈ p.keys
  · obtain ⟨e, he, hkey⟩ := List.mem_map.mp h
    cases hkey
    exact ⟨some e.value, (coefficient?_eq_some_iff hp).mpr he⟩
  · exact ⟨none, coefficient?_of_not_mem hp h⟩

/-- The order of the entries does not matter. -/
theorem coefficient?_of_perm (hp : p.Indexed) (hq : q.Indexed) (h : p.entries.Perm q.entries)
    (i j : ℕ) : p.coefficient? i j = q.coefficient? i j := by
  obtain ⟨cell, hcell⟩ := exists_coefficient? hp i j
  obtain ⟨cell', hcell'⟩ := exists_coefficient? hq i j
  rw [hcell, hcell', Except.ok.injEq]
  refine Option.ext fun a => ?_
  rw [← Except.ok.injEq (ε := Fault), ← hcell, coefficient?_eq_some_iff hp, h.mem_iff,
    ← coefficient?_eq_some_iff hq, hcell', Except.ok.injEq]

theorem mem_row_iff {a : F} : (j, a) ∈ p.row i ↔ ⟨i, j, a⟩ ∈ p.entries := by
  unfold row
  rw [List.mem_map]
  constructor
  · rintro ⟨e, he, heq⟩
    obtain ⟨hmem, hrow⟩ := List.mem_filter.mp he
    cases heq
    rw [← beq_iff_eq.mp hrow]
    exact hmem
  · exact fun h => ⟨_, List.mem_filter.mpr ⟨h, beq_self_eq_true i⟩, rfl⟩

theorem mem_column_iff {a : F} : (i, a) ∈ p.column j ↔ ⟨i, j, a⟩ ∈ p.entries := by
  unfold column
  rw [List.mem_map]
  constructor
  · rintro ⟨e, he, heq⟩
    obtain ⟨hmem, hcolumn⟩ := List.mem_filter.mp he
    cases heq
    rw [← beq_iff_eq.mp hcolumn]
    exact hmem
  · exact fun h => ⟨_, List.mem_filter.mpr ⟨h, beq_self_eq_true j⟩, rfl⟩

end Views

/-! ## Insertion -/

variable {p q : Problem ℚ} {i j : ℕ}

/-- A call that sets the coefficient of a cell, or adds to it. -/
structure Assignment where
  row : ℕ
  column : ℕ
  value : ℚ
  accumulate : Bool

/-- What the call makes of what the cell holds. -/
def Assignment.merge (a : Assignment) : Option ℚ → ℚ
  | some old => if a.accumulate then old + a.value else a.value
  | none => a.value

def Assignment.entry (a : Assignment) : Entry ℚ := ⟨a.row, a.column, a.value⟩

/-- An insertion never fails.  It changes the value at a key that there is, or appends a new one. -/
theorem insert_eq (hp : p.Indexed) (a : Assignment) :
    (∃ k old, p.index[a.entry.key]? = some k ∧ p.entries[k]? = some old ∧
        p.insert a.entry a.accumulate = .ok { p with
          entries := p.entries.set k { old with value := a.merge (some old.value) } }) ∨
      (a.entry.key ∉ p.keys ∧ p.insert a.entry a.accumulate = .ok { p with
        entries := p.entries ++ [a.entry]
        index := p.index.insert a.entry.key p.entries.length }) := by
  by_cases hkey : a.entry.key ∈ p.keys
  · obtain ⟨k, hk⟩ := List.mem_iff_getElem?.mp hkey
    have hindex := (hp.getElem?_iff a.entry.key k).mpr hk
    obtain ⟨old, hold, -, -⟩ := (index_eq_some_iff hp).mp hindex
    have hmerged : merged a.accumulate old.value a.entry.value =
        .ok (a.merge (some old.value)) := by
      unfold merged Assignment.merge
      cases a.accumulate <;> rfl
    refine Or.inl ⟨k, old, hindex, hold, ?_⟩
    have hrow : p.index[(a.entry.row, a.entry.column)]? = some k := hindex
    unfold insert
    rw [hrow]
    dsimp only
    rw [update_eq_ok (y := { old with value := a.merge (some old.value) }) hold (by
      rw [hmerged]
      rfl)]
    rfl
  · exact Or.inr ⟨hkey, insert_of_not_mem hp hkey a.accumulate⟩

/-- The value at a key is replaced. -/
theorem coefficient?_set (hp : p.Indexed) {key : ℕ × ℕ} {k : ℕ} {old new : Entry ℚ}
    (hindex : p.index[key]? = some k) (hold : p.entries[k]? = some old) {cell : Option ℚ}
    (hcell : p.coefficient? i j = .ok cell) :
    ({ p with entries := p.entries.set k new } : Problem ℚ).coefficient? i j =
      .ok (if key = (i, j) then some new.value else cell) := by
  by_cases hself : key = (i, j)
  · subst hself
    rw [if_pos rfl]
    exact coefficient?_of_index (p := { p with entries := p.entries.set k new }) hindex
      (List.getElem?_set_self (List.getElem?_eq_some_iff.mp hold).1)
  · rw [if_neg hself, ← hcell]
    unfold coefficient?
    dsimp only
    cases hother : p.index[(i, j)]? with
    | none => rfl
    | some l =>
      -- different keys are at different positions
      have hne : k ≠ l := by
        rintro rfl
        rw [hp.getElem?_iff] at hindex hother
        rw [hindex, Option.some.injEq] at hother
        exact hself hother
      dsimp only
      unfold fetch
      rw [List.getElem?_set_ne hne]

/-- A new key is appended. -/
theorem coefficient?_concat (hp : p.Indexed) {e : Entry ℚ} {cell : Option ℚ}
    (hcell : p.coefficient? i j = .ok cell) :
    ({ p with
        entries := p.entries ++ [e]
        index := p.index.insert e.key p.entries.length } : Problem ℚ).coefficient? i j =
      .ok (if e.key = (i, j) then some e.value else cell) := by
  by_cases hself : e.key = (i, j)
  · rw [if_pos hself]
    refine coefficient?_of_index (k := p.entries.length) (e := e) ?_ List.getElem?_concat_length
    rw [← hself, Std.HashMap.getElem?_insert_self]
  · rw [if_neg hself, ← hcell]
    unfold coefficient?
    dsimp only
    rw [Std.HashMap.getElem?_insert, if_neg (by simpa using hself)]
    cases hother : p.index[(i, j)]? with
    | none => rfl
    | some l =>
      obtain ⟨e', he', -, -⟩ := (index_eq_some_iff hp).mp hother
      dsimp only
      rw [fetch_eq_ok he', fetch_eq_ok (by
        rw [List.getElem?_append_left (List.getElem?_eq_some_iff.mp he').1, he'])]

/-- One cell changes, and the others stay. -/
theorem coefficient?_insert (hp : p.Indexed) {a : Assignment}
    (h : p.insert a.entry a.accumulate = .ok q) {cell : Option ℚ}
    (hcell : p.coefficient? i j = .ok cell) :
    q.coefficient? i j = .ok (if a.entry.key = (i, j) then some (a.merge cell) else cell) := by
  rcases insert_eq hp a with ⟨k, old, hindex, hold, hrun⟩ | ⟨hnew, hrun⟩
  · rw [hrun] at h
    cases h
    rw [coefficient?_set hp hindex hold hcell]
    split
    · rename_i hself
      rw [hself] at hindex
      rw [coefficient?_of_index hindex hold] at hcell
      cases hcell
      rfl
    · rfl
  · rw [hrun] at h
    cases h
    rw [coefficient?_concat hp hcell]
    split
    · rename_i hself
      rw [hself] at hnew
      rw [coefficient?_of_not_mem hp hnew] at hcell
      cases hcell
      rfl
    · rfl

/-! ## Problems from matrices -/

/-- What a cell of a matrix leaves in a problem. -/
def matrixCell (a : List (List ℚ)) (i j : ℕ) : Option ℚ :=
  (a[i]?.bind (·[j]?)).filter (· ≠ 0)

/-- The first value of a row goes to its cell, if it is not zero. -/
theorem fillRow_cons_eq_ok {k : ℕ} {value : ℚ} {values : List ℚ} (hp : p.WellFormed)
    (hempty : p.coefficient? i k = .ok none) (h : fillRow i k (value :: values) p = .ok () q) :
    ∃ mid, fillRow i (k + 1) values mid = .ok () q ∧ mid.WellFormed ∧
      mid.constraintBounds = p.constraintBounds ∧
      ∀ i' j, mid.coefficient? i' j = if (i, k) = (i', j)
        then .ok ((some value).filter (· ≠ 0)) else p.coefficient? i' j := by
  unfold fillRow at h
  by_cases hzero : value = 0
  · refine ⟨p, ?_, hp, rfl, fun i' j => ?_⟩
    · simpa [hzero] using h
    · split
      · rename_i hcell
        cases hcell
        rw [hempty, hzero]
        rfl
      · rfl
  · rw [Exact.isZero_eq, if_pos (by simpa using hzero)] at h
    obtain ⟨_, mid, hset, hrest⟩ := edit_bind_eq_ok h
    have hwf := preserves_setCoefficient i k value false p hp
    unfold stateAfter at hwf
    rw [hset] at hwf
    obtain ⟨-, -, hinsert⟩ := setCoefficient_eq_ok hset
    refine ⟨mid, hrest, hwf, ?_, fun i' j => ?_⟩
    · obtain ⟨entries, index, rfl, -⟩ := insert_cases hp.indexed hinsert
      rfl
    · obtain ⟨cell, hcell⟩ := exists_coefficient? hp.indexed i' j
      have hnext := coefficient?_insert hp.indexed (a := ⟨i, k, value, false⟩) hinsert hcell
      rw [hnext, hcell]
      by_cases hself : (i, k) = (i', j)
      · cases hself
        rw [hempty] at hcell
        cases hcell
        have hkept : (some value).filter (· ≠ 0) = some value := by
          rw [Option.filter_some, if_pos (by simpa using hzero)]
        have hkey : (Assignment.mk i k value false).entry.key = (i, k) := rfl
        rw [if_pos rfl, if_pos hkey, hkept]
        rfl
      · rw [if_neg hself, if_neg]
        exact hself

/-- The rest of a row goes to cells that are still empty. -/
theorem coefficient?_fillRow {k : ℕ} {values : List ℚ} (hp : p.WellFormed)
    (hempty : ∀ l ≥ k, p.coefficient? i l = .ok none)
    (h : fillRow i k values p = .ok () q) :
    q.WellFormed ∧ q.constraintBounds = p.constraintBounds ∧
      ∀ i' j, q.coefficient? i' j = if i' = i ∧ k ≤ j
        then .ok ((values[j - k]?).filter (· ≠ 0)) else p.coefficient? i' j := by
  induction values generalizing p k with
  | nil =>
    cases h
    refine ⟨hp, rfl, fun i' j => ?_⟩
    split
    · rename_i hcell
      rw [hcell.1, hempty j hcell.2]
      rfl
    · rfl
  | cons value values ih =>
    obtain ⟨mid, hrest, hmid, hbounds, hcells⟩ := fillRow_cons_eq_ok hp (hempty k le_rfl) h
    have hmidEmpty : ∀ l ≥ k + 1, mid.coefficient? i l = .ok none := by
      intro l hl
      have hne : (i, k) ≠ (i, l) := fun heq => by
        cases heq
        omega
      rw [hcells, if_neg hne, hempty l (by omega)]
    obtain ⟨hwf, hbounds', hcells'⟩ := ih hmid hmidEmpty hrest
    refine ⟨hwf, hbounds'.trans hbounds, fun i' j => ?_⟩
    rw [hcells', hcells]
    by_cases hrow : i' = i
    · rcases Nat.lt_trichotomy j k with hlt | rfl | hgt
      · rw [if_neg (by omega), if_neg (by simp; omega), if_neg (by omega)]
      · rw [if_neg (by omega), if_pos (by rw [hrow]), if_pos ⟨hrow, le_rfl⟩, Nat.sub_self,
          List.getElem?_cons_zero]
      · rw [if_pos ⟨hrow, hgt⟩, if_pos ⟨hrow, hgt.le⟩, show j - k = j - (k + 1) + 1 by omega,
          List.getElem?_cons_succ]
    · rw [if_neg fun h => hrow h.1, if_neg fun h => hrow (congrArg Prod.fst h).symm,
        if_neg fun h => hrow h.1]

/-- Each row goes to a constraint of its own. -/
theorem coefficient?_appendRows {rows : List (List ℚ × ℚ)} {relations : List Relation}
    (hp : p.WellFormed) (h : appendRows rows relations p = .ok () q) (i j : ℕ) :
    q.coefficient? i j = if i < p.constraintCount then p.coefficient? i j
      else .ok ((rows[i - p.constraintCount]?.bind fun row => row.1[j]?).filter (· ≠ 0)) := by
  induction rows generalizing p relations with
  | nil =>
    cases h
    split
    · rfl
    · rename_i hi
      exact coefficient?_of_not_mem hp.indexed fun hkey => hi (hp.key_lt _ hkey).1
  | cons row rows ih =>
    obtain ⟨values, rhs⟩ := row
    obtain ⟨k, first, hadd, hrest⟩ := edit_bind_eq_ok h
    have hfirst := preserves_addConstraint ((relations.head?.getD default).bounds rhs) p hp
    unfold stateAfter at hfirst
    rw [hadd] at hfirst
    obtain ⟨_, mid, hfill, hlater⟩ := edit_bind_eq_ok hrest
    rcases addConstraint_eq ((relations.head?.getD default).bounds rhs) p with
      ⟨-, hrun⟩ | ⟨-, hrun⟩
    · rw [hrun] at hadd
      cases hadd
    · rw [hrun] at hadd
      cases hadd
      have hempty : ∀ l ≥ 0, coefficient? { p with
          constraintBounds := p.constraintBounds ++
            [((relations.head?.getD default).bounds rhs).finite] } p.constraintCount l =
          .ok none := fun l _ =>
        coefficient?_of_not_mem hfirst.indexed fun hkey => (hp.key_lt _ hkey).1.false
      obtain ⟨hmid, hbounds, hcells⟩ := coefficient?_fillRow hfirst hempty hfill
      have hcount : mid.constraintCount = p.constraintCount + 1 := by
        rw [constraintCount, hbounds, List.length_append, List.length_singleton]
        rfl
      rw [ih hmid hlater, hcount, hcells]
      rcases Nat.lt_trichotomy i p.constraintCount with hlt | rfl | hgt
      · rw [if_pos (by omega), if_neg (by omega), if_pos hlt]
        rfl
      · rw [if_pos (by omega), if_pos ⟨rfl, Nat.zero_le j⟩, if_neg (lt_irrefl _), Nat.sub_self,
          List.getElem?_cons_zero, Nat.sub_zero, Option.bind_some]
      · rw [if_neg (by omega), if_neg (by omega),
          show i - p.constraintCount = i - (p.constraintCount + 1) + 1 by omega,
          List.getElem?_cons_succ]

/-- The cells of a matrix are its elements, without the zeros. -/
theorem coefficient?_ofMatrix {objective : Objective} {nonNegative : Bool} {a : List (List ℚ)}
    {b c : List ℚ} {relations : List Relation}
    (h : ofMatrix objective nonNegative a b c relations = .ok p) (i j : ℕ) :
    p.coefficient? i j = .ok (matrixCell a i j) := by
  obtain ⟨_, hshape, h⟩ := bind_eq_ok.mp h
  have hlength : a.length = b.length := by
    by_contra hne
    unfold checkShape at hshape
    rw [if_pos hne] at hshape
    cases hshape
  dsimp only at h
  generalize hstart : ({
      objective
      nonNegativeDefault := nonNegative
      cost := c
      variableBounds := c.map fun _ => if nonNegative then .nonnegative else .free } :
    Problem ℚ) = start at h
  have hwf : start.WellFormed := by
    rw [← hstart]
    exact wellFormed_of_unconstrained objective nonNegative (List.length_map _)
  have hcount : start.constraintCount = 0 := by rw [← hstart]; rfl
  cases hrun : appendRows (a.zip b) relations start with
  | error e q =>
    rw [hrun] at h
    cases h
  | ok _ q =>
    rw [hrun] at h
    cases h
    rw [coefficient?_appendRows hwf hrun, hcount, if_neg (Nat.not_lt_zero i), Nat.sub_zero]
    unfold matrixCell
    have hrow : (a.zip b)[i]?.map Prod.fst = a[i]? := by
      rw [← List.getElem?_map, List.map_fst_zip hlength.le]
    rw [← hrow]
    cases (a.zip b)[i]? <;> rfl

/-! ## The record of the calls -/

/-- What a cell holds after the calls for it, in order. -/
def replay (calls : List Assignment) (i j : ℕ) (initial : Option ℚ) : Option ℚ :=
  (calls.filter fun a => a.row == i && a.column == j).foldl (fun cell a => some (a.merge cell))
    initial

theorem replay_concat (calls : List Assignment) (a : Assignment) (i j : ℕ)
    (initial : Option ℚ) : replay (calls ++ [a]) i j initial =
      if a.entry.key = (i, j) then some (a.merge (replay calls i j initial))
      else replay calls i j initial := by
  unfold replay
  rw [List.filter_append, List.foldl_append]
  have hkey : (a.row == i && a.column == j) = true ↔ a.entry.key = (i, j) := by
    rw [Bool.and_eq_true, beq_iff_eq, beq_iff_eq, Entry.key, Prod.mk.injEq]
    rfl
  by_cases hself : a.entry.key = (i, j)
  · rw [if_pos hself, List.filter_singleton, hkey.mpr hself, cond_true]
    rfl
  · rw [if_neg hself, List.filter_singleton, Bool.eq_false_iff.mpr (mt hkey.mp hself), cond_false]
    rfl

/-- The calls that edit a problem and do not set coefficients. -/
inductive PlainEdit : {α : Type} → Edit (Problem ℚ) α → Prop where
  | addVariables (n : ℕ) (bounds : Bounds ℚ) : PlainEdit (addVariables n bounds)
  | addVariable (bounds : Bounds ℚ) : PlainEdit (addVariable bounds)
  | addVariableGrid (n m : ℕ) (bounds : Bounds ℚ) : PlainEdit (addVariableGrid n m bounds)
  | addConstraint (bounds : Bounds ℚ) : PlainEdit (addConstraint bounds)
  | setCost (j : ℕ) (value : ℚ) (accumulate : Bool) : PlainEdit (setCost j value accumulate)
  | setObjective (objective : Objective) : PlainEdit (setObjective objective)
  | setNonNegativeDefault (value : Bool) : PlainEdit (setNonNegativeDefault value)

theorem PlainEdit.public {α : Type} {e : Edit (Problem ℚ) α} (he : PlainEdit e) :
    PublicEdit e := by
  cases he with
  | addVariables n bounds => exact .addVariables n bounds
  | addVariable bounds => exact .addVariable bounds
  | addVariableGrid n m bounds => exact .addVariableGrid n m bounds
  | addConstraint bounds => exact .addConstraint bounds
  | setCost j value accumulate => exact .setCost j value accumulate
  | setObjective objective => exact .setObjective objective
  | setNonNegativeDefault value => exact .setNonNegativeDefault value

theorem PlainEdit.preserves {α : Type} {e : Edit (Problem ℚ) α} (he : PlainEdit e)
    (entries : List (Entry ℚ)) (index : Std.HashMap (ℕ × ℕ) ℕ) :
    Preserves (fun p : Problem ℚ => p.entries = entries ∧ p.index = index) e := by
  have hvariables : ∀ n bounds, Preserves
      (fun p : Problem ℚ => p.entries = entries ∧ p.index = index)
      (Problem.addVariables n bounds) := fun _ _ => .modifyGet fun _ hp => hp
  cases he with
  | addVariables n bounds => exact hvariables n bounds
  | addVariable bounds =>
    refine .bind (fun _ hp => hp) fun p => ?_
    exact (Preserves.bind (hvariables 1 bounds) fun _ => .pure _).bind fun _ => .pure _
  | addVariableGrid n m bounds => exact .mapM fun _ _ => hvariables m bounds
  | addConstraint bounds =>
    intro p hp
    unfold stateAfter
    rcases addConstraint_eq bounds p with ⟨-, hrun⟩ | ⟨-, hrun⟩
    · rw [hrun]
      exact hp
    · rw [hrun]
      exact hp
  | setCost j value accumulate =>
    rw [setCost_eq]
    refine .atomically fun p q hp h => ?_
    obtain ⟨-, -, h⟩ := bind_eq_ok.mp h
    obtain ⟨cost, -, h⟩ := bind_eq_ok.mp h
    cases h
    exact hp
  | setObjective objective => exact .modifyGet fun _ hp => hp
  | setNonNegativeDefault value => exact .modifyGet fun _ hp => hp

/-- The problem was built from the cells `initial`.  Of the calls since then `calls`, in this order,
set a coefficient, and `canonical` says whether one of the others brought the problem into canonical
form. -/
inductive Recorded : (ℕ → ℕ → Option ℚ) → List Assignment → Bool → Problem ℚ → Prop where
  | empty (objective : Objective) : Recorded (fun _ _ => none) [] false (empty objective)
  | ofMatrix {objective : Objective} {nonNegative : Bool} {a : List (List ℚ)} {b c : List ℚ}
      {relations : List Relation} {p : Problem ℚ}
      (h : ofMatrix objective nonNegative a b c relations = .ok p) :
      Recorded (matrixCell a) [] false p
  | edit {initial : ℕ → ℕ → Option ℚ} {calls : List Assignment} {canonical : Bool} {p : Problem ℚ}
      (hp : Recorded initial calls canonical p) {α : Type} {e : Edit (Problem ℚ) α}
      (he : PlainEdit e) : Recorded initial calls canonical (stateAfter e p)
  | set {initial : ℕ → ℕ → Option ℚ} {calls : List Assignment} {canonical : Bool}
      {p q : Problem ℚ} (hp : Recorded initial calls canonical p) (a : Assignment)
      (h : setCoefficient a.row a.column a.value a.accumulate p = .ok () q) :
      Recorded initial (calls ++ [a]) canonical q
  | refused {initial : ℕ → ℕ → Option ℚ} {calls : List Assignment} {canonical : Bool}
      {p q : Problem ℚ} (hp : Recorded initial calls canonical p) (a : Assignment) {e : Failure}
      (h : setCoefficient a.row a.column a.value a.accumulate p = .error e q) :
      Recorded initial calls canonical q
  | toCanonical {initial : ℕ → ℕ → Option ℚ} {calls : List Assignment} {canonical : Bool}
      {p : Problem ℚ} (hp : Recorded initial calls canonical p) :
      Recorded initial calls true p.toCanonical.1
  | cleared {initial : ℕ → ℕ → Option ℚ} {calls : List Assignment} {canonical : Bool}
      {p : Problem ℚ} (hp : Recorded initial calls canonical p) :
      Recorded (fun _ _ => none) [] false p.cleared

section Recorded

variable {initial : ℕ → ℕ → Option ℚ} {calls : List Assignment} {canonical : Bool}

theorem Recorded.reachable (h : Recorded initial calls canonical p) : p.Reachable := by
  induction h with
  | empty objective => exact .empty objective
  | ofMatrix h => exact .ofMatrix h
  | edit _ he ih => exact .edit he.public ih
  | set _ a h ih =>
    have hreachable := Reachable.edit (.setCoefficient a.row a.column a.value a.accumulate) ih
    unfold stateAfter at hreachable
    rw [h] at hreachable
    exact hreachable
  | refused _ a h ih =>
    rw [setCoefficient_error h]
    exact ih
  | toCanonical _ ih => exact .toCanonical ih
  | cleared _ ih => exact .cleared ih

/-- Every problem that can be built has a record. -/
theorem Reachable.exists_recorded (hp : p.Reachable) :
    ∃ initial calls canonical, Recorded initial calls canonical p := by
  induction hp with
  | empty objective => exact ⟨_, _, _, .empty objective⟩
  | ofMatrix h => exact ⟨_, _, _, .ofMatrix h⟩
  | @edit α e he p _ ih =>
    obtain ⟨initial, calls, canonical, hrecorded⟩ := ih
    cases he with
    | addVariables n bounds => exact ⟨_, _, _, hrecorded.edit (.addVariables n bounds)⟩
    | addVariable bounds => exact ⟨_, _, _, hrecorded.edit (.addVariable bounds)⟩
    | addVariableGrid n m bounds => exact ⟨_, _, _, hrecorded.edit (.addVariableGrid n m bounds)⟩
    | addConstraint bounds => exact ⟨_, _, _, hrecorded.edit (.addConstraint bounds)⟩
    | setCost j value accumulate =>
      exact ⟨_, _, _, hrecorded.edit (.setCost j value accumulate)⟩
    | setObjective objective => exact ⟨_, _, _, hrecorded.edit (.setObjective objective)⟩
    | setNonNegativeDefault value =>
      exact ⟨_, _, _, hrecorded.edit (.setNonNegativeDefault value)⟩
    | setCoefficient i j value accumulate =>
      unfold stateAfter
      cases hrun : setCoefficient i j value accumulate p with
      | ok _ q => exact ⟨_, _, _, hrecorded.set ⟨i, j, value, accumulate⟩ hrun⟩
      | error e q => exact ⟨_, _, _, hrecorded.refused ⟨i, j, value, accumulate⟩ hrun⟩
  | toCanonical _ ih =>
    obtain ⟨initial, calls, canonical, hrecorded⟩ := ih
    exact ⟨_, _, _, hrecorded.toCanonical⟩
  | cleared _ ih =>
    obtain ⟨initial, calls, canonical, hrecorded⟩ := ih
    exact ⟨_, _, _, hrecorded.cleared⟩

/-- Up to the way to canonical form, the cells are those of the replay. -/
theorem Recorded.coefficient?_eq (h : Recorded initial calls canonical p)
    (hcanonical : canonical = false) (i j : ℕ) :
    p.coefficient? i j = .ok (replay calls i j (initial i j)) := by
  induction h with
  | empty objective => exact coefficient?_of_not_mem (wellFormed_empty objective).indexed nofun
  | ofMatrix h => exact coefficient?_ofMatrix h i j
  | @edit initial calls canonical p _ α e he ih =>
    obtain ⟨hentries, hindex⟩ := he.preserves p.entries p.index p ⟨rfl, rfl⟩
    rw [coefficient?_congr hentries hindex]
    exact ih hcanonical
  | set hp a h ih =>
    obtain ⟨-, -, hinsert⟩ := setCoefficient_eq_ok h
    rw [coefficient?_insert hp.reachable.wellFormed.indexed hinsert (ih hcanonical),
      replay_concat]
  | refused _ a h ih =>
    rw [setCoefficient_error h]
    exact ih hcanonical
  | toCanonical _ => cases hcanonical
  | cleared hp => exact coefficient?_of_not_mem (wellFormed_cleared _).indexed nofun

end Recorded

/-! ## All that there is to say -/

/-- The problem is in order, and its coefficients are `cells` in every view. -/
structure Stores (p : Problem ℚ) (cells : ℕ → ℕ → Option ℚ) : Prop where
  bounds_length : p.variableBounds.length = p.cost.length
  bounded : ∀ b ∈ p.constraintBounds, b.lower ≠ none ∨ b.upper ≠ none
  position_lt : ∀ e ∈ p.entries, e.row < p.constraintCount ∧ e.column < p.variableCount
  index_iff : ∀ i j k, p.index[(i, j)]? = some k ↔
    ∃ e : Entry ℚ, p.entries[k]? = some e ∧ e.row = i ∧ e.column = j
  checkDimensions_eq : p.checkDimensions = .ok ()
  coefficient_eq : ∀ i j, p.coefficient? i j = .ok (cells i j)
  mem_row_iff : ∀ i j a, (j, a) ∈ p.row i ↔ cells i j = some a
  mem_column_iff : ∀ i j a, (i, a) ∈ p.column j ↔ cells i j = some a
  nodup_row : ∀ i, ((p.row i).map Prod.fst).Nodup
  nodup_column : ∀ j, ((p.column j).map Prod.fst).Nodup
  activity_eq : ∀ i < p.constraintCount, ∀ x : List ℚ, x.length = p.variableCount →
    p.activity i x =
      .ok (∑ j ∈ Finset.range p.variableCount, (cells i j).getD 0 * x.getD j 0)

theorem WellFormed.stores (hp : p.WellFormed) {cells : ℕ → ℕ → Option ℚ}
    (hcells : ∀ i j, p.coefficient? i j = .ok (cells i j)) : p.Stores cells where
  bounds_length := hp.bounds_length
  bounded b hb := by
    have hfree := hp.bounded b hb
    obtain ⟨lower, upper⟩ := b
    cases lower <;> cases upper <;> simp [Bounds.free] at hfree ⊢
  position_lt e he := ⟨hp.row_lt e he, hp.column_lt e he⟩
  index_iff i j k := index_eq_some_iff hp.indexed
  checkDimensions_eq := hp.checkDimensions_eq
  coefficient_eq := hcells
  mem_row_iff i j a := by
    rw [Problem.mem_row_iff, ← coefficient?_eq_some_iff hp.indexed, hcells, Except.ok.injEq]
  mem_column_iff i j a := by
    rw [Problem.mem_column_iff, ← coefficient?_eq_some_iff hp.indexed, hcells, Except.ok.injEq]
  nodup_row := Problem.nodup_row hp
  nodup_column := Problem.nodup_column hp
  activity_eq i hi x hx := by
    have hcell : ∀ j, coefficientAt p.entries i j = (cells i j).getD 0 := by
      intro j
      obtain ⟨value, hrun, hvalue⟩ := Problem.coefficient?_eq hp i j
      rw [hcells, Except.ok.injEq] at hrun
      rw [hrun, hvalue]
    rw [Problem.activity_eq hp hx hi, rowForm_eq_sum hp.column_lt]
    simp only [hcell]
    rfl

/-- The problems that can be built are those with a record.  Whatever calls built a problem, it is
in order, and its coefficients are a finite map.  Until it is brought into canonical form, this is
the map that a replay of the calls gives. -/
theorem stores_recorded :
    (∀ p : Problem ℚ, p.Reachable ↔
        ∃ initial calls canonical, Recorded initial calls canonical p) ∧
      ∀ {initial : ℕ → ℕ → Option ℚ} {calls : List Assignment} {canonical : Bool} {p : Problem ℚ},
        Recorded initial calls canonical p →
          ∃ cells, p.Stores cells ∧
            (canonical = false → cells = fun i j => replay calls i j (initial i j)) := by
  constructor
  · intro p
    constructor
    · exact fun hp => hp.exists_recorded
    · rintro ⟨initial, calls, canonical, h⟩
      exact h.reachable
  · intro initial calls canonical p h
    have hwf := h.reachable.wellFormed
    choose cells hcells using exists_coefficient? hwf.indexed
    refine ⟨cells, hwf.stores hcells, fun hcanonical => ?_⟩
    funext i j
    have hcell := h.coefficient?_eq hcanonical i j
    rw [hcells, Except.ok.injEq] at hcell
    exact hcell

/-- A call for a constraint and a variable that there are succeeds. -/
theorem exists_setCoefficient (hp : p.Indexed) (a : Assignment) (hi : a.row < p.constraintCount)
    (hj : a.column < p.variableCount) :
    ∃ q, setCoefficient a.row a.column a.value a.accumulate p = .ok () q ∧
      q.constraintCount = p.constraintCount ∧ q.variableCount = p.variableCount := by
  have hrun : ∀ q, p.insert a.entry a.accumulate = .ok q →
      setCoefficient a.row a.column a.value a.accumulate p = .ok () q := by
    intro q hq
    unfold Assignment.entry at hq
    rw [setCoefficient_eq, atomically, checkConstraint_eq hi, checkVariable_eq hj, hq]
    rfl
  rcases insert_eq hp a with ⟨k, old, -, -, hinsert⟩ | ⟨-, hinsert⟩
  · exact ⟨_, hrun _ hinsert, rfl, rfl⟩
  · exact ⟨_, hrun _ hinsert, rfl, rfl⟩

/-- One cell is set and then added to, and a call for a constraint that there is not is refused. -/
theorem stores_recorded_mixed :
    ∃ p, Recorded (fun _ _ => none) [⟨0, 1, 2, false⟩, ⟨0, 1, 3, true⟩] false p ∧
      ∃ cells, p.Stores cells ∧ cells 0 1 = some 5 ∧ cells 1 1 = none := by
  have hvariables : Recorded (fun _ _ => none) [] false (stateAfter (addVariable ⟨some 1, some 4⟩)
      (stateAfter (addVariable ⟨none, some 3⟩)
        (stateAfter (addVariable .free) (empty .maximize)))) :=
    ((Recorded.empty .maximize).edit (.addVariable _)).edit (.addVariable _) |>.edit
      (.addVariable _)
  have hstart : Recorded (fun _ _ => none) [] false Mixed.uncoupled :=
    (hvariables.edit (.addConstraint ⟨some 1, some 5⟩)).edit (.setCost 0 2 false)
  obtain ⟨q, hset, hrows, hcolumns⟩ := exists_setCoefficient hstart.reachable.wellFormed.indexed
    ⟨0, 1, 2, false⟩ (by decide) (by decide)
  have hq := hstart.set _ hset
  obtain ⟨r, hadd, hrows', -⟩ := exists_setCoefficient hq.reachable.wellFormed.indexed
    ⟨0, 1, 3, true⟩ (by rw [hrows]; decide) (by rw [hcolumns]; decide)
  have hrefused : setCoefficient 7 0 1 false r =
      .error (.refused (.dimensionMismatch (.noConstraint 7 r.constraintCount))) r := by
    rw [setCoefficient_eq, atomically, checkConstraint, if_neg (by rw [hrows', hrows]; decide)]
    rfl
  have hr := (hq.set _ hadd).refused ⟨7, 0, 1, false⟩ hrefused
  obtain ⟨cells, hstores, hcells⟩ := stores_recorded.2 hr
  refine ⟨r, hr, cells, hstores, ?_, ?_⟩
  · rw [hcells rfl]
    decide +kernel
  · rw [hcells rfl]
    rfl

end Problem

end LinearOpt
