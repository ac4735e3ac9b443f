import LinearOpt.Proofs.Mps.Bounds
import LinearOpt.Proofs.Problem.Cells

/-!
# What a text lists

The text of a problem lists each cost and each coefficient once, and the order in which the
coefficients were set leaves no trace in it.

* `rowNames` reads the names of rows off the lines of a section.
* `sorted_column` is the one place where the storage of the coefficients comes in.  The entries of a
  column have different rows (`pairwise_sorted_column`), so sorting them leaves the order in which a
  walk through all rows finds them.
* `listing` is that walk.  It knows nothing of entries, only what each coefficient is, and it is
  what the document has for its columns (`columns_document`).
* `Mps.Lists` says of a text, letter by letter, what it has in each section, and how the names of
  rows in one section go with those in another.  `toMps_lists` states it of every problem that can
  be built.
-/

namespace LinearOpt

/-! ## Names -/

namespace Mps

/-- The names of rows in a section. -/
def rowNames (text heading : String) : List String :=
  (sectionWords text heading).filterMap (·[1]?)

/-- The coefficient of a line, none if it holds a cost. -/
def Element.entry? {F : Type} : Element F → Option (Entry F)
  | .cost _ _ => none
  | .coefficient j i value => some ⟨i, j, value⟩

/-- The name of the row that a line belongs to. -/
def Element.rowName {F : Type} : Element F → String
  | .cost _ _ => "OBJ"
  | .coefficient _ i _ => Mps.rowName i

namespace Document

variable {F : Type} [Scalar F] (hnumber : ∀ x : F, IsWord (Scalar.text x)) (d : Document F)

include hnumber

theorem rowNames_rows : rowNames d.text "ROWS" = "OBJ" :: d.rows.map (rowName ·.1) := by
  rw [rowNames, d.sectionWords_rows hnumber]
  change "OBJ" :: (d.rows.map _).filterMap _ = _
  rw [List.filterMap_map, ← List.filterMap_eq_map]
  rfl

theorem rowNames_columns : rowNames d.text "COLUMNS" = d.columns.map Element.rowName := by
  rw [rowNames, d.sectionWords_columns hnumber, List.filterMap_map, ← List.filterMap_eq_map]
  refine List.filterMap_congr fun e _ => ?_
  cases e <;> rfl

theorem rowNames_rhs : rowNames d.text "RHS" = d.rhs.map (rowName ·.1) := by
  rw [rowNames, d.sectionWords_rhs hnumber, List.filterMap_map, ← List.filterMap_eq_map]
  rfl

theorem rowNames_ranges : rowNames d.text "RANGES" = d.ranges.map (rowName ·.1) := by
  rw [rowNames, d.sectionWords_ranges hnumber, List.filterMap_map, ← List.filterMap_eq_map]
  rfl

/-- The lines that do not name the objective are those of the coefficients. -/
theorem coefficientLines_eq (columns : List (Element F)) :
    ((columns.map Element.line).filter fun line => (wordsOf line)[1]? != some "OBJ") =
      (columns.filterMap Element.entry?).map fun e =>
        (Element.coefficient e.column e.row e.value).line := by
  induction columns with
  | nil => rfl
  | cons e columns ih =>
    have hword : (wordsOf e.line)[1]? = some e.rowName := by
      rw [wordsOf_element hnumber]
      cases e <;> rfl
    rw [List.map_cons, List.filter_cons, ih, hword]
    cases e with
    | cost j value => rfl
    | coefficient j i value =>
      have hne : (some (Mps.rowName i) != some "OBJ") = true := by
        simp [rowName_ne_objective]
      exact if_pos hne

end Document

end Mps

/-! ## The walk through all rows -/

namespace Mps

section Walk

variable {α β : Type} {cell : ℕ → Option α} {f : ℕ → α → β} {m : ℕ}

theorem mem_walk_iff {b : β} :
    (b ∈ (List.range m).filterMap fun i => (cell i).map (f i)) ↔
      ∃ i < m, ∃ x, cell i = some x ∧ f i x = b := by
  simp only [List.mem_filterMap, List.mem_range, Option.map_eq_some_iff]

/-- A walk meets things in the order of their positions. -/
theorem pairwise_walk {R : β → β → Prop} (h : ∀ i k, i < k → ∀ x y, R (f i x) (f k y)) :
    ((List.range m).filterMap fun i => (cell i).map (f i)).Pairwise R := by
  refine List.pairwise_lt_range.filterMap _ fun i k hlt a ha b hb => ?_
  obtain ⟨x, -, rfl⟩ := Option.map_eq_some_iff.mp ha
  obtain ⟨y, -, rfl⟩ := Option.map_eq_some_iff.mp hb
  exact h i k hlt x y

end Walk

section Listing

variable {F : Type}

/-- The cost of each variable and after it its coefficients, in the order of the constraints. -/
def listing (cost : List F) (m : ℕ) (cells : ℕ → ℕ → Option F) : List (Element F) :=
  cost.zipIdx.flatMap fun (value, j) =>
    .cost j value :: (List.range m).filterMap fun i => (cells i j).map (.coefficient j i)

theorem listing_congr {cost : List F} {m : ℕ} {cells cells' : ℕ → ℕ → Option F}
    (h : ∀ i < m, ∀ j < cost.length, cells i j = cells' i j) :
    listing cost m cells = listing cost m cells' := by
  refine List.flatMap_congr fun (value, j) hline => ?_
  have hj : j < cost.length := by simpa using List.snd_lt_of_mem_zipIdx hline
  refine congrArg (Element.cost j value :: ·) (List.filterMap_congr fun i hi => ?_)
  rw [h i (List.mem_range.mp hi) j hj]

/-- The coefficients of the walk, column by column. -/
theorem entries_listing (cost : List F) (m : ℕ) (cells : ℕ → ℕ → Option F) :
    (listing cost m cells).filterMap Element.entry? =
      (List.range cost.length).flatMap fun j =>
        (List.range m).filterMap fun i => (cells i j).map (⟨i, j, ·⟩) := by
  have hpositions : List.range cost.length = cost.zipIdx.map Prod.snd := by
    rw [List.zipIdx_map_snd, List.range_eq_range']
  unfold listing
  rw [List.filterMap_flatMap, hpositions, List.flatMap_map]
  refine List.flatMap_congr fun (value, j) _ => ?_
  rw [List.filterMap_cons_none rfl, List.filterMap_filterMap]
  refine List.filterMap_congr fun i _ => ?_
  cases cells i j <;> rfl

end Listing

end Mps

/-! ## Columns -/

namespace Problem

open Mps

variable {F : Type} {p : Problem F} {cells : ℕ → ℕ → Option F}

theorem mem_entries_iff (hp : p.WellFormed)
    (hcells : ∀ i j, p.coefficient? i j = .ok (cells i j)) {i j : ℕ} {value : F} :
    ⟨i, j, value⟩ ∈ p.entries ↔ cells i j = some value := by
  rw [← coefficient?_eq_some_iff hp.indexed, hcells, Except.ok.injEq]

theorem column_perm (hp : p.WellFormed)
    (hcells : ∀ i j, p.coefficient? i j = .ok (cells i j)) (j : ℕ) :
    (p.column j).Perm
      ((List.range p.constraintCount).filterMap fun i => (cells i j).map (i, ·)) := by
  have hnodup : ((List.range p.constraintCount).filterMap fun i =>
      (cells i j).map (i, ·)).Nodup :=
    pairwise_walk fun i k hlt x y heq => hlt.ne (congrArg Prod.fst heq)
  refine (List.perm_ext_iff_of_nodup ((nodup_column hp j).of_map _) hnodup).mpr
    fun (i, value) => ?_
  rw [mem_column_iff, mem_entries_iff hp hcells, mem_walk_iff]
  constructor
  · intro hcell
    exact ⟨i, hp.row_lt _ ((mem_entries_iff hp hcells).mpr hcell), value, hcell, rfl⟩
  · rintro ⟨k, -, x, hcell, heq⟩
    cases heq
    exact hcell

/-- The entries of a column have different rows. -/
theorem pairwise_sorted_column (hp : p.WellFormed) (j : ℕ) :
    ((p.column j).mergeSort fun a b => a.1 ≤ b.1).Pairwise fun a b => a.1 < b.1 := by
  have hle : ((p.column j).mergeSort fun a b => a.1 ≤ b.1).Pairwise
      fun a b => decide (a.1 ≤ b.1) = true :=
    List.pairwise_mergeSort (by simp; omega) (by simp; omega) (p.column j)
  have hne : ((p.column j).mergeSort fun a b => a.1 ≤ b.1).Pairwise fun a b => a.1 ≠ b.1 :=
    List.pairwise_map.mp (((List.mergeSort_perm _ _).map Prod.fst).nodup_iff.mpr
      (nodup_column hp j))
  refine (hle.and hne).imp fun h => ?_
  exact lt_of_le_of_ne (of_decide_eq_true h.1) h.2

/-- The order of the rows is the only one, so it does not matter in which order the entries are
stored. -/
theorem sorted_column (hp : p.WellFormed)
    (hcells : ∀ i j, p.coefficient? i j = .ok (cells i j)) (j : ℕ) :
    (p.column j).mergeSort (fun a b => a.1 ≤ b.1) =
      (List.range p.constraintCount).filterMap fun i => (cells i j).map (i, ·) := by
  have hperm := (List.mergeSort_perm (p.column j) fun a b => a.1 ≤ b.1).trans
    (column_perm hp hcells j)
  exact hperm.eq_of_pairwise (fun a b _ _ hab hba => absurd hab hba.asymm)
    (pairwise_sorted_column hp j) (pairwise_walk fun i k hlt x y => hlt)

variable [Scalar F]

theorem columns_document (hp : p.WellFormed)
    (hcells : ∀ i j, p.coefficient? i j = .ok (cells i j)) :
    p.document.columns = listing p.cost p.constraintCount cells := by
  refine List.flatMap_congr fun (value, j) _ => ?_
  dsimp only
  unfold elements
  rw [sorted_column hp hcells, List.map_filterMap]
  refine congrArg (Element.cost j value :: ·) (List.filterMap_congr fun i _ => ?_)
  cases cells i j <;> rfl

omit [Scalar F] in
/-- Column by column, the walk meets each entry once. -/
theorem entries_perm (hp : p.WellFormed)
    (hcells : ∀ i j, p.coefficient? i j = .ok (cells i j)) :
    ((listing p.cost p.constraintCount cells).filterMap Element.entry?).Perm p.entries := by
  rw [entries_listing]
  have hmem : ∀ (j : ℕ) (e : Entry F),
      (e ∈ (List.range p.constraintCount).filterMap fun i => (cells i j).map (⟨i, j, ·⟩)) ↔
        e ∈ p.entries ∧ e.column = j := by
    intro j e
    rw [mem_walk_iff]
    constructor
    · rintro ⟨i, -, value, hcell, rfl⟩
      exact ⟨(mem_entries_iff hp hcells).mpr hcell, rfl⟩
    · rintro ⟨he, rfl⟩
      exact ⟨e.row, hp.row_lt e he, e.value, (mem_entries_iff hp hcells).mp he, rfl⟩
  refine (List.perm_ext_iff_of_nodup ?_ (hp.indexed.nodup.of_map _)).mpr fun e => ?_
  · refine List.nodup_flatMap.mpr ⟨fun j _ => ?_, ?_⟩
    · exact pairwise_walk fun i k hlt x y heq => hlt.ne (congrArg Entry.row heq)
    · refine List.nodup_range.pairwise_of_forall_ne fun j _ k _ hne e hj hk => hne ?_
      rw [← ((hmem j e).mp hj).2, ((hmem k e).mp hk).2]
  · rw [List.mem_flatMap]
    constructor
    · rintro ⟨j, -, hj⟩
      exact ((hmem j e).mp hj).1
    · exact fun he =>
        ⟨e.column, List.mem_range.mpr (hp.column_lt e he), (hmem e.column e).mpr ⟨he, rfl⟩⟩

/-! ## Rows -/

theorem rows_document (p : Problem F) :
    p.document.rows.map Prod.fst = List.range p.constraintCount := by
  unfold document
  rw [List.map_map, List.range_eq_range', constraintCount, ← List.zipIdx_map_snd]
  rfl

/-- Every constraint has a bound, so every row has a right-hand side. -/
theorem rhs_document (hp : p.WellFormed) :
    p.document.rhs.map Prod.fst = List.range p.constraintCount := by
  unfold document
  rw [List.map_filterMap, List.range_eq_range', constraintCount, ← List.zipIdx_map_snd,
    ← List.filterMap_eq_map]
  refine List.filterMap_congr fun line hline => ?_
  have hfree := Bounds.ne_free_iff.mp (hp.bounded line.1 (List.fst_mem_of_mem_zipIdx hline))
  obtain ⟨⟨lower, upper⟩, i⟩ := line
  cases lower with
  | some l => rfl
  | none =>
    cases upper with
    | some u => rfl
    | none => simp at hfree

/-- Only rows with two different bounds have a width. -/
theorem ranges_document {line : ℕ × F} (hline : line ∈ p.document.ranges) :
    (line.1, .atLeast) ∈ p.document.rows := by
  obtain ⟨⟨b, i⟩, hmem, hwritten⟩ := List.mem_filterMap.mp hline
  obtain ⟨width, hwidth, rfl⟩ := Option.map_eq_some_iff.mp hwritten
  rw [← Bounds.rowType_of_isRange (Bounds.isRange_of_width? hwidth)]
  exact List.mem_map.mpr ⟨(b, i), hmem, rfl⟩

end Problem

/-! ## All that is listed -/

/-- The text lists the problem, whose coefficients are `cells`.

* The sections stand in their order, and those of ranges and bounds are there if they have lines.
* The first row is the objective, and after it each constraint has a row, whose letter says which
  bounds it has.
* Each variable has a line for its cost and after it one for each of its coefficients, in the order
  of the constraints.  These are all the entries of the problem, each of them once.
* Each constraint has one right-hand side, which is its lower bound if it has one.
* A constraint with two different bounds has a line for its width, and its letter is `G`.
* A row that is named in any section is declared once. -/
structure Mps.Lists {F : Type} [Scalar F] (text : String) (p : Problem F)
    (cells : ℕ → ℕ → Option F) : Prop where
  coefficient_eq : ∀ i j, p.coefficient? i j = .ok (cells i j)
  headings_eq : (sectionsOf (linesOf text)).map Prod.fst =
    ["NAME PROG"] ++ (if p.objective = .maximize then ["OBJSENSE"] else []) ++
      ["ROWS", "COLUMNS", "RHS"] ++
      (if sectionLines text "RANGES" = [] then [] else ["RANGES"]) ++
      (if sectionLines text "BOUNDS" = [] then [] else ["BOUNDS"]) ++ ["ENDATA"]
  sense_eq : sectionLines text "OBJSENSE" = if p.objective = .maximize then ["    MAX"] else []
  rows_eq : sectionLines text "ROWS" =
    " N  OBJ" :: p.constraintBounds.zipIdx.map fun (b, i) =>
      (if b.isEquality then " E  ROW" else if b.lower.isSome then " G  ROW" else " L  ROW") ++
        toString (i + 1)
  columns_eq : sectionLines text "COLUMNS" =
    p.cost.zipIdx.flatMap fun (cost, j) =>
      (" X" ++ toString (j + 1) ++ " OBJ " ++ Scalar.text cost) ::
        (List.range p.constraintCount).filterMap fun i => (cells i j).map fun x =>
          " X" ++ toString (j + 1) ++ " ROW" ++ toString (i + 1) ++ " " ++ Scalar.text x
  entries_perm :
    ((sectionLines text "COLUMNS").filter fun line => (wordsOf line)[1]? != some "OBJ").Perm
      (p.entries.map fun e =>
        " X" ++ toString (e.column + 1) ++ " ROW" ++ toString (e.row + 1) ++ " " ++
          Scalar.text e.value)
  rhs_eq : sectionLines text "RHS" =
    p.constraintBounds.zipIdx.filterMap fun (b, i) => (b.lower.or b.upper).map fun x =>
      " RHS ROW" ++ toString (i + 1) ++ " " ++ Scalar.text x
  rhs_once : rowNames text "RHS" =
    (List.range p.constraintCount).map fun i => "ROW" ++ toString (i + 1)
  ranges_eq : sectionLines text "RANGES" =
    p.constraintBounds.zipIdx.filterMap fun (b, i) => b.width?.map fun width =>
      " RNG ROW" ++ toString (i + 1) ++ " " ++ Scalar.text width
  bounds_eq : sectionLines text "BOUNDS" =
    p.variableBounds.zipIdx.flatMap fun (b, j) => (b.lines j).map Bound.line
  declared_once : ∀ heading ∈ ["COLUMNS", "RHS", "RANGES"], ∀ name ∈ rowNames text heading,
    (rowNames text "ROWS").count name = 1
  atLeast_of_range : ∀ name ∈ rowNames text "RANGES", " G  " ++ name ∈ sectionLines text "ROWS"

namespace Problem

open Mps

variable {F : Type} [Scalar F] {p q : Problem F} {cells : ℕ → ℕ → Option F}

/-- The rows that are named are declared, and different rows have different names. -/
theorem declared_once (hnumber : ∀ x : F, IsWord (Scalar.text x)) (hp : p.WellFormed)
    (hcells : ∀ i j, p.coefficient? i j = .ok (cells i j)) :
    ∀ heading ∈ ["COLUMNS", "RHS", "RANGES"], ∀ name ∈ rowNames p.document.text heading,
      (rowNames p.document.text "ROWS").count name = 1 := by
  have hdeclared : rowNames p.document.text "ROWS" =
      "OBJ" :: (List.range p.constraintCount).map rowName := by
    rw [p.document.rowNames_rows hnumber, ← rows_document, List.map_map]
    rfl
  have hnodup : (rowNames p.document.text "ROWS").Nodup := by
    rw [hdeclared, List.nodup_cons]
    refine ⟨fun hmem => ?_, List.nodup_range.map fun i k h => rowName_inj.mp h⟩
    obtain ⟨i, -, hi⟩ := List.mem_map.mp hmem
    exact rowName_ne_objective i hi
  have hrow : ∀ i < p.constraintCount, rowName i ∈ rowNames p.document.text "ROWS" := by
    intro i hi
    rw [hdeclared]
    exact List.mem_cons_of_mem _ (List.mem_map_of_mem (List.mem_range.mpr hi))
  intro heading hheading name hname
  refine List.count_eq_one_of_mem hnodup ?_
  rcases List.mem_cons.mp hheading with rfl | hheading
  · rw [p.document.rowNames_columns hnumber] at hname
    obtain ⟨e, he, rfl⟩ := List.mem_map.mp hname
    cases e with
    | cost j value =>
      rw [hdeclared]
      exact List.mem_cons_self
    | coefficient j i value =>
      have hentry : (⟨i, j, value⟩ : Entry F) ∈ p.document.columns.filterMap Element.entry? :=
        List.mem_filterMap.mpr ⟨_, he, rfl⟩
      rw [columns_document hp hcells] at hentry
      exact hrow i (hp.row_lt _ ((entries_perm hp hcells).mem_iff.mp hentry))
  · rcases List.mem_pair.mp hheading with rfl | rfl
    · rw [p.document.rowNames_rhs hnumber] at hname
      obtain ⟨line, hline, rfl⟩ := List.mem_map.mp hname
      have hmem := List.mem_map_of_mem (f := Prod.fst) hline
      rw [rhs_document hp] at hmem
      exact hrow line.1 (List.mem_range.mp hmem)
    · rw [p.document.rowNames_ranges hnumber] at hname
      obtain ⟨line, hline, rfl⟩ := List.mem_map.mp hname
      have hmem := List.mem_map_of_mem (f := Prod.fst) (ranges_document hline)
      rw [rows_document] at hmem
      exact hrow line.1 (List.mem_range.mp hmem)

theorem lists_document (hnumber : ∀ x : F, IsWord (Scalar.text x)) (hp : p.WellFormed)
    (hcells : ∀ i j, p.coefficient? i j = .ok (cells i j)) :
    Mps.Lists p.document.text p cells where
  coefficient_eq := hcells
  headings_eq := by
    rw [p.document.headings_text hnumber]
    cases hsense : p.objective <;> simp [document, hsense]
  sense_eq := by
    rw [p.document.sectionLines_sense hnumber]
    cases hsense : p.objective <;> simp [document, hsense]
  rows_eq := by
    rw [p.document.sectionLines_rows hnumber]
    unfold document
    rw [List.map_map]
    refine congrArg _ (List.map_congr_left fun (b, i) _ => ?_)
    dsimp only [Function.comp, Bounds.rowType]
    split_ifs <;> rfl
  columns_eq := by
    rw [p.document.sectionLines_columns hnumber, columns_document hp hcells, listing,
      List.map_flatMap]
    refine List.flatMap_congr fun (cost, j) _ => ?_
    rw [List.map_cons, List.map_filterMap]
    refine congrArg _ (List.filterMap_congr fun i _ => ?_)
    rw [Option.map_map]
    rfl
  entries_perm := by
    rw [p.document.sectionLines_columns hnumber, Document.coefficientLines_eq hnumber,
      columns_document hp hcells]
    exact (entries_perm hp hcells).map _
  rhs_eq := by
    rw [p.document.sectionLines_rhs hnumber]
    unfold document
    rw [List.map_filterMap]
    refine List.filterMap_congr fun (b, i) _ => ?_
    rw [Option.map_map]
    rfl
  rhs_once := by
    rw [p.document.rowNames_rhs hnumber, ← rhs_document hp, List.map_map]
    rfl
  ranges_eq := by
    rw [p.document.sectionLines_ranges hnumber]
    unfold document
    rw [List.map_filterMap]
    refine List.filterMap_congr fun (b, i) _ => ?_
    rw [Option.map_map]
    rfl
  bounds_eq := by
    rw [p.document.sectionLines_bounds hnumber]
    unfold document
    rw [List.map_flatMap]
  declared_once := declared_once hnumber hp hcells
  atLeast_of_range name hname := by
    rw [p.document.rowNames_ranges hnumber] at hname
    obtain ⟨line, hline, rfl⟩ := List.mem_map.mp hname
    have hletter : rowLine line.1 .atLeast = " G  " ++ rowName line.1 := rowLine_eq line.1 .atLeast
    rw [p.document.sectionLines_rows hnumber, ← hletter]
    exact List.mem_cons_of_mem _ (List.mem_map.mpr
      ⟨(line.1, .atLeast), ranges_document hline, rfl⟩)

/-- The storage of the coefficients is not in the document. -/
theorem document_congr (hp : p.WellFormed) (hq : q.WellFormed)
    (hobjective : p.objective = q.objective) (hcost : p.cost = q.cost)
    (hvariables : p.variableBounds = q.variableBounds)
    (hconstraints : p.constraintBounds = q.constraintBounds)
    (hcoefficients : ∀ i < p.constraintCount, ∀ j < p.variableCount,
      p.coefficient? i j = q.coefficient? i j) : p.document = q.document := by
  choose cells hcells using exists_coefficient? hp.indexed
  choose cells' hcells' using exists_coefficient? hq.indexed
  have hcolumns : p.document.columns = q.document.columns := by
    rw [columns_document hp hcells, columns_document hq hcells', constraintCount, constraintCount,
      ← hcost, ← hconstraints]
    refine listing_congr fun i hi j hj => ?_
    have hsame := hcoefficients i hi j hj
    rwa [hcells, hcells', Except.ok.injEq] at hsame
  have hrest : q.document = { p.document with columns := q.document.columns } := by
    unfold document
    rw [hobjective, hvariables, hconstraints]
  rw [hrest, ← hcolumns]

/-- Every problem over a rounded type is written, and its text lists each of its coefficients once.
Two problems with the same data have the same text, however their coefficients came about. -/
theorem toMps_lists (hrounded : Scalar.exact F = false)
    (hsub : ∀ x y : F, ∃ z, Scalar.sub x y = .ok z)
    (hnumber : ∀ x : F, IsWord (Scalar.text x)) :
    (∀ {p : Problem F}, p.Reachable →
        ∃ text cells, p.toMps.map Document.text = .ok text ∧ Mps.Lists text p cells) ∧
      ∀ {p q : Problem F}, p.Reachable → q.Reachable → p.objective = q.objective →
        p.cost = q.cost → p.variableBounds = q.variableBounds →
        p.constraintBounds = q.constraintBounds →
        (∀ i < p.constraintCount, ∀ j < p.variableCount,
          p.coefficient? i j = q.coefficient? i j) →
        p.toMps.map Document.text = q.toMps.map Document.text := by
  have hrun : ∀ {p : Problem F}, p.Reachable → p.toMps = .ok p.document := fun hp =>
    toMps_eq hrounded hp.wellFormed fun _ _ lower upper _ _ => hsub upper lower
  constructor
  · intro p hp
    choose cells hcells using exists_coefficient? hp.wellFormed.indexed
    refine ⟨p.document.text, cells, ?_, lists_document hnumber hp.wellFormed hcells⟩
    rw [hrun hp]
    rfl
  · intro p q hp hq hobjective hcost hvariables hconstraints hcoefficients
    rw [hrun hp, hrun hq, document_congr hp.wellFormed hq.wellFormed hobjective hcost hvariables
      hconstraints hcoefficients]

/-! ## Doubles -/

/-- A variable in two constraints, without coefficients. -/
def bare : Problem Float :=
  stateAfter (addConstraint ⟨none, some 4⟩) <| stateAfter (addConstraint ⟨some 1, some 5⟩) <|
    stateAfter (addVariable .nonnegative) (empty .minimize)

theorem reachable_bare : bare.Reachable :=
  .edit (.addConstraint _) (.edit (.addConstraint _) (.edit (.addVariable _) (.empty .minimize)))

/-- The coefficient of one constraint is set before that of the other. -/
def filled (i : ℕ) (x : Float) (k : ℕ) (y : Float) : Problem Float :=
  stateAfter (setCoefficient k 0 y false) (stateAfter (setCoefficient i 0 x false) bare)

theorem reachable_filled (i : ℕ) (x : Float) (k : ℕ) (y : Float) : (filled i x k y).Reachable :=
  .edit (.setCoefficient k 0 y false) (.edit (.setCoefficient i 0 x false) reachable_bare)

theorem exists_filled {i k : ℕ} (hi : i < 2) (hk : k < 2) (hne : i ≠ k) (x y : Float) :
    ∃ index, filled i x k y = { bare with entries := [⟨i, 0, x⟩, ⟨k, 0, y⟩], index } := by
  have hrows : bare.constraintCount = 2 := by decide +kernel
  have hcolumns : bare.variableCount = 1 := by decide +kernel
  have hempty : bare.entries = [] := rfl
  have hfirst := stateAfter_setCoefficient reachable_bare.wellFormed.indexed (i := i) (j := 0)
    (by omega) (by omega) (by simp [keys, hempty]) x false
  have hreachable := Reachable.edit (.setCoefficient i 0 x false) reachable_bare
  unfold filled
  rw [hfirst] at hreachable ⊢
  rw [stateAfter_setCoefficient hreachable.wellFormed.indexed (i := k) (j := 0)
    (show k < bare.constraintCount by omega) (show 0 < bare.variableCount by omega)
    (by simp [keys, hempty, Entry.key, Ne.symm hne]) y false]
  exact ⟨_, rfl⟩

theorem toMps_lists_filled :
    Scalar.exact Float = false ∧ (∀ x y : Float, ∃ z, Scalar.sub x y = .ok z) ∧
      (∀ x : Float, IsWord (Scalar.text x)) ∧
      (filled 1 3 0 2).Reachable ∧ (filled 0 2 1 3).Reachable ∧
      (filled 1 3 0 2).entries ≠ (filled 0 2 1 3).entries ∧
      (∃ text cells, (filled 1 3 0 2).toMps.map Document.text = .ok text ∧
        Mps.Lists text (filled 1 3 0 2) cells ∧
        sectionLines text "COLUMNS" = [" X1 OBJ 0", " X1 ROW1 2", " X1 ROW2 3"]) ∧
      (filled 1 3 0 2).toMps.map Document.text = (filled 0 2 1 3).toMps.map Document.text := by
  have hsub : ∀ x y : Float, ∃ z, Scalar.sub x y = .ok z := fun x y => ⟨x - y, rfl⟩
  have hp := reachable_filled 1 3 0 2
  have hq := reachable_filled 0 2 1 3
  obtain ⟨index, hdown⟩ := exists_filled (i := 1) (k := 0) (by omega) (by omega) (by omega) 3 2
  obtain ⟨index', hup⟩ := exists_filled (i := 0) (k := 1) (by omega) (by omega) (by omega) 2 3
  have hperm : (filled 1 3 0 2).entries.Perm (filled 0 2 1 3).entries := by
    rw [hdown, hup]
    exact .swap _ _ _
  have hnumber : ∀ x : Float, IsWord (Scalar.text x) := Binary64.isWord_text
  refine ⟨rfl, hsub, hnumber, hp, hq, ?_, ?_, (toMps_lists rfl hsub hnumber).2 hp hq ?_ ?_ ?_ ?_
    fun i _ j _ => coefficient?_of_perm hp.wellFormed.indexed hq.wellFormed.indexed hperm i j⟩
  · rw [hdown, hup]
    simp
  · obtain ⟨text, cells, hrun, hlists⟩ := (toMps_lists rfl hsub hnumber).1 hp
    have hcell : ∀ i x, ⟨i, 0, x⟩ ∈ (filled 1 3 0 2).entries → cells i 0 = some x :=
      fun i x => (mem_entries_iff hp.wellFormed hlists.coefficient_eq).mp
    have hfirst := hcell 0 2 (by rw [hdown]; simp)
    have hsecond := hcell 1 3 (by rw [hdown]; simp)
    have hcost : (filled 1 3 0 2).cost = [0] := by
      rw [hdown]
      show bare.cost = [0]
      decide +kernel
    have hcount : (filled 1 3 0 2).constraintCount = 2 := by
      rw [hdown]
      show bare.constraintCount = 2
      decide +kernel
    refine ⟨text, cells, hrun, hlists, ?_⟩
    rw [hlists.columns_eq, hcost, hcount]
    simp only [List.zipIdx_cons, List.zipIdx_nil, List.flatMap_singleton, List.range_succ,
      List.range_zero, List.nil_append, List.cons_append, List.filterMap_cons, List.filterMap_nil,
      hfirst, hsecond, Option.map_some]
    decide +kernel
  all_goals rw [hdown, hup]

end Problem

end LinearOpt
