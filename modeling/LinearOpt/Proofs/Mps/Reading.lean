import LinearOpt.Proofs.Mps.Text
import LinearOpt.Problem.Basic
import Mathlib.Data.EReal.Inv

/-!
# Reading a text

What a text says about its rows and columns, by the conventions of the format.

* `Denotation` is what the numbers of a rounded type stand for, and how their texts are read.
* `Interval` is what bounds come to, with an infinite end where there is no bound.
* `columnInterval?` starts with all values from zero on, and each line for the column changes one
  end or both.
* `rowInterval?` is found from the letter of the row, its right-hand side and its width.

The reader knows nothing of problems and documents.  It finds rows and columns by their names, and
takes the lines of a section in any order and number.
-/

namespace LinearOpt

/-- What the numbers of a type stand for: zero is zero, numbers that compare as equal are the same,
and each number is written as one word, which is read as that number. -/
structure Denotation (F : Type) [Scalar F] where
  value : F → EReal
  read : String → EReal
  value_zero : value Scalar.zero = 0
  value_eq : ∀ {a b : F}, Scalar.eq a b = true → value a = value b
  isWord_text : ∀ x : F, Mps.IsWord (Scalar.text x)
  read_text : ∀ x : F, read (Scalar.text x) = value x

/-! ## Intervals -/

/-- The values from `lower` to `upper`, none if these cross. -/
structure Interval where
  lower : EReal
  upper : EReal

namespace Interval

def values (s : Interval) : Set ℝ := {x | s.lower ≤ x ∧ x ≤ s.upper}

def Crossed (s : Interval) : Prop := s.upper < s.lower

theorem values_eq_empty {s : Interval} (h : s.Crossed) : s.values = ∅ := by
  rw [Set.eq_empty_iff_forall_notMem]
  rintro x ⟨hlower, hupper⟩
  exact absurd (hlower.trans hupper) (not_le.mpr h)

theorem crossed_coe {x y : ℝ} : (⟨x, y⟩ : Interval).Crossed ↔ y < x := EReal.coe_lt_coe_iff

theorem values_coe (x y : ℝ) : (⟨x, y⟩ : Interval).values = Set.Icc x y := by
  ext z
  simp only [values, Set.mem_ofPred_eq, EReal.coe_le_coe_iff, Set.mem_Icc]

end Interval

variable {F : Type} [Scalar F]

noncomputable def Bounds.interval (v : Denotation F) (b : Bounds F) : Interval :=
  ⟨b.lower.elim ⊥ v.value, b.upper.elim ⊤ v.value⟩

/-- The real numbers that bounds admit. -/
noncomputable def Bounds.values (v : Denotation F) (b : Bounds F) : Set ℝ := (b.interval v).values

/-! ## The reader -/

namespace Mps

/-- The lines of a section, word by word. -/
def sectionWords (text heading : String) : List (List String) :=
  (sectionLines text heading).map wordsOf

/-- The type that is meant by a letter. -/
def RowType.ofLetter? : String → Option RowType
  | "E" => some .equal
  | "G" => some .atLeast
  | "L" => some .atMost
  | _ => none

/-- The interval of a row.  A width `r` goes up from the right-hand side of a row of type `atLeast`,
down from that of type `atMost`, and either way from that of type `equal`, as its sign says. -/
noncomputable def RowType.interval (type : RowType) (rhs : EReal) (width : Option EReal) :
    Interval :=
  match type, width with
  | .equal, none => ⟨rhs, rhs⟩
  | .atLeast, none => ⟨rhs, ⊤⟩
  | .atMost, none => ⟨⊥, rhs⟩
  | .atLeast, some r => ⟨rhs, rhs + r.abs⟩
  | .atMost, some r => ⟨rhs - r.abs, rhs⟩
  | .equal, some r => if 0 ≤ r then ⟨rhs, rhs + r.abs⟩ else ⟨rhs - r.abs, rhs⟩

/-- The type of a row, by its line in the section `ROWS`. -/
def rowType? (text name : String) : Option RowType :=
  (sectionWords text "ROWS").findSome? fun
    | [letter, row] => if row = name then RowType.ofLetter? letter else none
    | _ => none

section Numbers

variable (read : String → EReal) (text : String)

/-- The number for a row in the section `RHS` or `RANGES`. -/
def rowNumber? (heading name : String) : Option EReal :=
  (sectionWords text heading).findSome? fun
    | [_, row, number] => if row = name then some (read number) else none
    | _ => none

/-- The interval of a row, if there is such a row.  A row without a right-hand side has zero. -/
noncomputable def rowInterval? (name : String) : Option Interval :=
  (rowType? text name).map fun type =>
    type.interval ((rowNumber? read text "RHS" name).getD 0) (rowNumber? read text "RANGES" name)

noncomputable def rowValues? (name : String) : Option (Set ℝ) :=
  (rowInterval? read text name).map Interval.values

/-- What a line of the section `BOUNDS` makes of the interval of its column. -/
noncomputable def changeBound (s : Interval) : List String → Interval
  | ["FR", _, _] => ⟨⊥, ⊤⟩
  | ["MI", _, _] => { s with lower := ⊥ }
  | ["UP", _, _, number] => { s with upper := read number }
  | ["LO", _, _, number] => { s with lower := read number }
  | ["FX", _, _, number] => ⟨read number, read number⟩
  | _ => s

/-- The interval of a column, if the section `COLUMNS` has lines for it. -/
noncomputable def columnInterval? (name : String) : Option Interval :=
  if (sectionWords text "COLUMNS").any (·.head? == some name) then
    some (((sectionWords text "BOUNDS").filter (·[2]? == some name)).foldl (changeBound read) ⟨0, ⊤⟩)
  else none

noncomputable def columnValues? (name : String) : Option (Set ℝ) :=
  (columnInterval? read text name).map Interval.values

end Numbers

/-! ## Reading a document -/

section Lines

variable {F : Type}

/-- The column that a line is about. -/
def Element.column : Element F → ℕ
  | .cost j _ => j
  | .coefficient j _ _ => j

/-- The column that a line is about. -/
def Bound.column : Bound F → ℕ
  | .free j => j
  | .unboundedBelow j => j
  | .upper j _ => j
  | .lower j _ => j
  | .fixed j _ => j

/-- What a line makes of the interval of its column. -/
noncomputable def Bound.change [Scalar F] (v : Denotation F) (s : Interval) : Bound F → Interval
  | .free _ => ⟨⊥, ⊤⟩
  | .unboundedBelow _ => { s with lower := ⊥ }
  | .upper _ x => { s with upper := v.value x }
  | .lower _ x => { s with lower := v.value x }
  | .fixed _ x => ⟨v.value x, v.value x⟩

variable [Scalar F]

theorem changeBound_words (v : Denotation F) (s : Interval) (b : Bound F) :
    changeBound v.read s b.words = b.change v s := by
  cases b with
  | free j => rfl
  | unboundedBelow j => rfl
  | upper j x | lower j x | fixed j x =>
    rw [Bound.words, Bound.change, ← v.read_text x]
    rfl

theorem Bound.words_getElem? (b : Bound F) : b.words[2]? = some (columnName b.column) := by
  cases b <;> rfl

theorem Element.words_head? (e : Element F) : e.words.head? = some (columnName e.column) := by
  cases e <;> rfl

end Lines

theorem rowName_inj {i k : ℕ} : rowName i = rowName k ↔ i = k := by
  simp [rowName, Nat.repr_inj]

theorem columnName_inj {j l : ℕ} : columnName j = columnName l ↔ j = l := by
  simp [columnName, Nat.repr_inj]

theorem rowName_ne_objective (i : ℕ) : rowName i ≠ "OBJ" := by
  intro h
  have hletters := congrArg String.toList h
  simp [rowName] at hletters

theorem ofLetter?_letter (type : RowType) : RowType.ofLetter? type.letter = some type := by
  cases type <;> rfl

/-- Lines that are found by the name of a row are those for its position. -/
theorem findSome?_rowName {α β : Type} (f : α → β) (table : List (ℕ × α)) (i : ℕ) :
    table.findSome? (fun line => if rowName line.1 = rowName i then some (f line.2) else none) =
      (table.lookup i).map f := by
  induction table with
  | nil => rfl
  | cons line table ih =>
    obtain ⟨k, x⟩ := line
    rw [List.findSome?_cons, List.lookup_cons, ih]
    by_cases h : k = i
    · subst h
      simp
    · simp [rowName_inj, h, beq_false_of_ne (Ne.symm h)]

namespace Document

variable {F : Type} [Scalar F] (d : Document F)

section Words

variable (hnumber : ∀ x : F, IsWord (Scalar.text x))

include hnumber

theorem sectionWords_rows :
    sectionWords d.text "ROWS" = ["N", "OBJ"] :: d.rows.map fun (i, type) =>
      [type.letter, rowName i] := by
  rw [sectionWords, d.sectionLines_rows hnumber, List.map_cons, List.map_map]
  congr 1
  exact List.map_congr_left fun (i, type) _ => wordsOf_rowLine i type

theorem sectionWords_columns : sectionWords d.text "COLUMNS" = d.columns.map Element.words := by
  rw [sectionWords, d.sectionLines_columns hnumber, List.map_map]
  exact List.map_congr_left fun e _ => wordsOf_element hnumber e

theorem sectionWords_rhs :
    sectionWords d.text "RHS" = d.rhs.map fun (i, value) =>
      ["RHS", rowName i, Scalar.text value] := by
  rw [sectionWords, d.sectionLines_rhs hnumber, List.map_map]
  exact List.map_congr_left fun (i, value) _ => wordsOf_rhsLine hnumber i value

theorem sectionWords_ranges :
    sectionWords d.text "RANGES" = d.ranges.map fun (i, width) =>
      ["RNG", rowName i, Scalar.text width] := by
  rw [sectionWords, d.sectionLines_ranges hnumber, List.map_map]
  exact List.map_congr_left fun (i, width) _ => wordsOf_rangeLine hnumber i width

theorem sectionWords_bounds : sectionWords d.text "BOUNDS" = d.bounds.map Bound.words := by
  rw [sectionWords, d.sectionLines_bounds hnumber, List.map_map]
  exact List.map_congr_left fun b _ => wordsOf_bound hnumber b

theorem rowType?_text (i : ℕ) : rowType? d.text (rowName i) = d.rows.lookup i := by
  rw [rowType?, d.sectionWords_rows hnumber, List.findSome?_cons, List.findSome?_map]
  simp only [(rowName_ne_objective i).symm, if_false]
  simp only [Function.comp_def, ofLetter?_letter]
  rw [findSome?_rowName (fun type => type) d.rows i, Option.map_id']

end Words

variable (v : Denotation F)

theorem rowNumber?_rhs (i : ℕ) :
    rowNumber? v.read d.text "RHS" (rowName i) = (d.rhs.lookup i).map v.value := by
  rw [rowNumber?, d.sectionWords_rhs v.isWord_text, List.findSome?_map, ← findSome?_rowName]
  simp only [Function.comp_def, v.read_text]

theorem rowNumber?_ranges (i : ℕ) :
    rowNumber? v.read d.text "RANGES" (rowName i) = (d.ranges.lookup i).map v.value := by
  rw [rowNumber?, d.sectionWords_ranges v.isWord_text, List.findSome?_map, ← findSome?_rowName]
  simp only [Function.comp_def, v.read_text]

theorem rowInterval?_text (i : ℕ) :
    rowInterval? v.read d.text (rowName i) = (d.rows.lookup i).map fun type =>
      type.interval ((d.rhs.lookup i).elim 0 v.value) ((d.ranges.lookup i).map v.value) := by
  rw [rowInterval?, d.rowType?_text v.isWord_text, d.rowNumber?_rhs, d.rowNumber?_ranges]
  cases d.rhs.lookup i <;> rfl

theorem columnInterval?_text {j : ℕ} {e : Element F} (he : e ∈ d.columns) (hj : e.column = j) :
    columnInterval? v.read d.text (columnName j) =
      some ((d.bounds.filter (·.column == j)).foldl (Bound.change v) ⟨0, ⊤⟩) := by
  have hdeclared : (sectionWords d.text "COLUMNS").any (·.head? == some (columnName j)) = true := by
    rw [d.sectionWords_columns v.isWord_text, List.any_map, List.any_eq_true]
    refine ⟨e, he, ?_⟩
    rw [Function.comp_apply, e.words_head?, hj, beq_self_eq_true]
  have hfilter : (sectionWords d.text "BOUNDS").filter (·[2]? == some (columnName j)) =
      (d.bounds.filter (·.column == j)).map Bound.words := by
    rw [d.sectionWords_bounds v.isWord_text, List.filter_map]
    refine congrArg _ (List.filter_congr fun b _ => ?_)
    rw [Function.comp_apply, b.words_getElem?, Bool.eq_iff_iff, beq_iff_eq, beq_iff_eq,
      Option.some.injEq, columnName_inj]
  rw [columnInterval?, if_pos hdeclared, hfilter, List.foldl_map]
  simp only [changeBound_words]

end Document

end Mps

end LinearOpt
