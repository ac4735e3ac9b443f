import LinearOpt.Mps.Document
import Mathlib

/-!
# The text of a document

The text of a document is split into sections, lines and words again.

* `linesOf` and `wordsOf` split at line feeds and blanks.  `wordsOf_append_blank` is the one
  equation about words at a blank, and the words of all lines follow from it.
* `sectionsOf` finds the headings, which are the lines that do not begin with a blank.  It gives
  back any list of sections whose lines were written below one another (`sectionsOf_flatMap`).
* `rowLine`, `Element.line`, `rhsLine`, `rangeLine` and `Bound.line` are the lines of the sections,
  letter by letter.  `Document.sectionsOf_text` says that the text of a document consists of these.

A number type may write its values in any way as long as each value is one word (`IsWord`).
-/

namespace LinearOpt.Mps

/-! ## Splitting -/

section Splitting

variable {c : Char} {cs : List Char}

theorem splitOn_append (left right : List Char) :
    (left ++ c :: right).splitOn c = left.splitOn c ++ right.splitOn c := by
  have hpred : (fun x : Char => x == c) c = true := beq_self_eq_true c
  simp only [List.splitOn_eq_splitOnP]
  exact List.splitOnP_append_cons left right hpred

theorem splitOn_of_notMem (h : c ∉ cs) : cs.splitOn c = [cs] := by
  rw [List.splitOn_eq_splitOnP]
  exact List.splitOnP_eq_singleton fun x hx => beq_false_of_ne (ne_of_mem_of_not_mem hx h)

end Splitting

/-! ## Lines -/

/-- The lines of a text, each of which ends with a line feed. -/
def linesOf (text : String) : List String := (text.toList.splitOn '\n').dropLast.map String.ofList

theorem linesOf_append {line : String} (h : '\n' ∉ line.toList) (rest : String) :
    linesOf (line ++ "\n" ++ rest) = line :: linesOf rest := by
  have hletters : (line ++ "\n" ++ rest).toList = line.toList ++ '\n' :: rest.toList := by
    simp
  unfold linesOf
  rw [hletters, splitOn_append, splitOn_of_notMem h, List.singleton_append,
    List.dropLast_cons_of_ne_nil (List.splitOn_ne_nil _ _), List.map_cons, String.ofList_toList]

/-- Lines that were written with a line feed after each are read back. -/
theorem linesOf_join {lines : List String} (h : ∀ line ∈ lines, '\n' ∉ line.toList) :
    linesOf (String.join (lines.map (· ++ "\n"))) = lines := by
  induction lines with
  | nil => rfl
  | cons line lines ih =>
    rw [List.map_cons, String.join_cons, linesOf_append (h line List.mem_cons_self),
      ih fun l hl => h l (List.mem_cons_of_mem _ hl)]

/-! ## Words -/

/-- The words of a line, which stand between blanks. -/
def wordsOf (line : String) : List String :=
  ((line.toList.splitOn ' ').filter (· ≠ [])).map String.ofList

/-- A text that is one word of one line. -/
structure IsWord (word : String) : Prop where
  ne_empty : word ≠ ""
  no_blank : ' ' ∉ word.toList
  no_newline : '\n' ∉ word.toList

instance (word : String) : Decidable (IsWord word) :=
  decidable_of_iff (word ≠ "" ∧ ' ' ∉ word.toList ∧ '\n' ∉ word.toList)
    ⟨fun ⟨hne, hblank, hnewline⟩ => ⟨hne, hblank, hnewline⟩,
      fun h => ⟨h.ne_empty, h.no_blank, h.no_newline⟩⟩

theorem wordsOf_append_blank (left right : String) :
    wordsOf (left ++ " " ++ right) = wordsOf left ++ wordsOf right := by
  have hletters : (left ++ " " ++ right).toList = left.toList ++ ' ' :: right.toList := by
    simp
  unfold wordsOf
  rw [hletters, splitOn_append, List.filter_append, List.map_append]

theorem wordsOf_word {word : String} (h : IsWord word) : wordsOf word = [word] := by
  unfold wordsOf
  rw [splitOn_of_notMem h.no_blank]
  simp [h.ne_empty]

/-- Words with a blank before each are read back. -/
theorem wordsOf_line {words : List String} (h : ∀ word ∈ words, IsWord word) :
    wordsOf (line words) = words := by
  -- the words that follow what has been read
  suffices hleft : ∀ left, wordsOf (left ++ line words) = wordsOf left ++ words by
    rw [← String.empty_append (s := line words), hleft]
    rfl
  induction words with
  | nil =>
    intro left
    simp [line]
  | cons word words ih =>
    intro left
    have hcons : left ++ line (word :: words) = left ++ " " ++ (word ++ line words) := by
      simp [line, String.append_assoc]
    rw [hcons, wordsOf_append_blank, ih fun w hw => h w (List.mem_cons_of_mem _ hw),
      wordsOf_word (h word List.mem_cons_self), List.singleton_append]

theorem newline_notMem_line {words : List String} (h : ∀ word ∈ words, IsWord word) :
    '\n' ∉ (line words).toList := by
  simp only [line, String.toList_join, List.mem_flatMap, List.mem_map, not_exists, not_and]
  rintro - ⟨word, hword, rfl⟩
  simpa using (h word hword).no_newline

/-! ## Sections -/

/-- Lines of a section begin with a blank, and headings do not. -/
def isDataLine (line : String) : Bool := line.toList.head? == some ' '

/-- The sections among the lines of a file, each with its heading and the lines below it. -/
def sectionsOf : List String → List (String × List String)
  | [] => []
  | line :: lines =>
      if isDataLine line then sectionsOf lines
      else (line, lines.takeWhile isDataLine) :: sectionsOf lines

/-- The lines below a heading, none if there is no such heading. -/
def sectionLines (text heading : String) : List String :=
  ((sectionsOf (linesOf text)).lookup heading).getD []

theorem sectionsOf_append {body : List String} (h : ∀ line ∈ body, isDataLine line = true)
    (rest : List String) : sectionsOf (body ++ rest) = sectionsOf rest := by
  induction body with
  | nil => rfl
  | cons line body ih =>
    rw [List.cons_append, sectionsOf, if_pos (h line List.mem_cons_self),
      ih fun l hl => h l (List.mem_cons_of_mem _ hl)]

/-- Sections that were written below one another are read back. -/
theorem sectionsOf_flatMap {parts : List (String × List String)}
    (hheading : ∀ part ∈ parts, isDataLine part.1 = false)
    (hbody : ∀ part ∈ parts, ∀ line ∈ part.2, isDataLine line = true) :
    sectionsOf (parts.flatMap fun part => part.1 :: part.2) = parts := by
  induction parts with
  | nil => rfl
  | cons part parts ih =>
    obtain ⟨heading, body⟩ := part
    have hrest : (parts.flatMap fun part => part.1 :: part.2).takeWhile isDataLine = [] := by
      cases parts with
      | nil => rfl
      | cons next parts =>
        rw [List.flatMap_cons, List.cons_append, List.takeWhile_cons_of_neg]
        simp [hheading next (by simp)]
    have hlines := hbody (heading, body) List.mem_cons_self
    rw [List.flatMap_cons, List.cons_append, sectionsOf, hheading _ List.mem_cons_self,
      if_neg Bool.false_ne_true, List.takeWhile_append_of_pos hlines, hrest, List.append_nil,
      sectionsOf_append hlines, ih (fun p hp => hheading p (List.mem_cons_of_mem _ hp))
        fun p hp => hbody p (List.mem_cons_of_mem _ hp)]

/-! ## Letter by letter -/

/-- The line of row `i` in the section `ROWS`. -/
def rowLine (i : ℕ) : RowType → String
  | .equal => " E  ROW" ++ toString (i + 1)
  | .atLeast => " G  ROW" ++ toString (i + 1)
  | .atMost => " L  ROW" ++ toString (i + 1)

variable {F : Type} [Scalar F]

def Element.line : Element F → String
  | .cost j value => " X" ++ toString (j + 1) ++ " OBJ " ++ Scalar.text value
  | .coefficient j i value =>
      " X" ++ toString (j + 1) ++ " ROW" ++ toString (i + 1) ++ " " ++ Scalar.text value

def rhsLine (i : ℕ) (value : F) : String :=
  " RHS ROW" ++ toString (i + 1) ++ " " ++ Scalar.text value

def rangeLine (i : ℕ) (width : F) : String :=
  " RNG ROW" ++ toString (i + 1) ++ " " ++ Scalar.text width

def Bound.line : Bound F → String
  | .free j => " FR BND X" ++ toString (j + 1)
  | .unboundedBelow j => " MI BND X" ++ toString (j + 1)
  | .upper j value => " UP BND X" ++ toString (j + 1) ++ " " ++ Scalar.text value
  | .lower j value => " LO BND X" ++ toString (j + 1) ++ " " ++ Scalar.text value
  | .fixed j value => " FX BND X" ++ toString (j + 1) ++ " " ++ Scalar.text value

/-- The sections of a document.  Those of ranges and bounds are only there if they have lines. -/
def Document.sections (d : Document F) : List (String × List String) :=
  ("NAME PROG", []) :: (if d.maximize then [("OBJSENSE", ["    MAX"])] else []) ++
  [("ROWS", " N  OBJ" :: d.rows.map fun (i, type) => rowLine i type),
    ("COLUMNS", d.columns.map Element.line),
    ("RHS", d.rhs.map fun (i, value) => rhsLine i value)] ++
  (if d.ranges = [] then [] else [("RANGES", d.ranges.map fun (i, width) => rangeLine i width)]) ++
  (if d.bounds = [] then [] else [("BOUNDS", d.bounds.map Bound.line)]) ++
  [("ENDATA", [])]

/-! ## Word by word -/

def Element.words : Element F → List String
  | .cost j value => [columnName j, "OBJ", Scalar.text value]
  | .coefficient j i value => [columnName j, rowName i, Scalar.text value]

def Bound.words : Bound F → List String
  | .free j => ["FR", "BND", columnName j]
  | .unboundedBelow j => ["MI", "BND", columnName j]
  | .upper j value => ["UP", "BND", columnName j, Scalar.text value]
  | .lower j value => ["LO", "BND", columnName j, Scalar.text value]
  | .fixed j value => ["FX", "BND", columnName j, Scalar.text value]

omit [Scalar F] in
theorem rowLine_eq (i : ℕ) (type : RowType) :
    rowLine i type = " " ++ type.letter ++ "  " ++ rowName i := by
  cases type <;> simp [← String.toList_inj, rowLine, RowType.letter, rowName]

theorem Element.line_eq (e : Element F) : e.line = Mps.line e.words := by
  cases e <;> simp [← String.toList_inj, Element.line, Element.words, Mps.line, columnName, rowName]

theorem Element.text_eq : (Element.text : Element F → String) = Element.line := by
  funext e
  rw [e.line_eq]
  cases e <;> rfl

theorem rhsLine_eq (i : ℕ) (value : F) :
    rhsLine i value = line ["RHS", rowName i, Scalar.text value] := by
  simp [← String.toList_inj, rhsLine, line, rowName]

theorem rangeLine_eq (i : ℕ) (width : F) :
    rangeLine i width = line ["RNG", rowName i, Scalar.text width] := by
  simp [← String.toList_inj, rangeLine, line, rowName]

theorem Bound.line_eq (b : Bound F) : b.line = Mps.line b.words := by
  cases b <;> simp [← String.toList_inj, Bound.line, Bound.words, Mps.line, columnName]

theorem Bound.text_eq : (Bound.text : Bound F → String) = Bound.line := by
  funext b
  rw [b.line_eq]
  cases b <;> rfl

theorem IsWord.append {left right : String} (hleft : IsWord left) (hright : IsWord right) :
    IsWord (left ++ right) := by
  refine ⟨fun hempty => hleft.ne_empty (String.append_eq_empty_iff.mp hempty).1, ?_, ?_⟩
  · simp [hleft.no_blank, hright.no_blank]
  · simp [hleft.no_newline, hright.no_newline]

theorem isWord_toString (n : ℕ) : IsWord (toString n) := by
  have hdigit : ∀ c ∈ (toString n).toList, c.isDigit = true := by
    intro c hc
    rw [Nat.toString_eq_ofList_toDigits, String.toList_ofList] at hc
    exact Nat.isDigit_of_mem_toDigits (by omega) le_rfl hc
  refine ⟨Nat.repr_ne_empty, fun hblank => ?_, fun hnewline => ?_⟩
  · cases hdigit _ hblank
  · cases hdigit _ hnewline

theorem isWord_rowName (i : ℕ) : IsWord (rowName i) :=
  IsWord.append (by decide) (isWord_toString (i + 1))

theorem isWord_columnName (j : ℕ) : IsWord (columnName j) :=
  IsWord.append (by decide) (isWord_toString (j + 1))

omit [Scalar F] in
theorem isWord_letter (type : RowType) : IsWord type.letter := by
  cases type <;> decide

variable (hnumber : ∀ x : F, IsWord (Scalar.text x))

include hnumber

theorem Element.isWord_of_mem (e : Element F) : ∀ word ∈ e.words, IsWord word := by
  cases e <;> simp [Element.words, isWord_columnName, isWord_rowName, hnumber]
  decide

theorem Bound.isWord_of_mem (b : Bound F) : ∀ word ∈ b.words, IsWord word := by
  have hset : IsWord "BND" := by decide
  cases b <;> simp [Bound.words, isWord_columnName, hnumber, hset] <;> decide

theorem wordsOf_element (e : Element F) : wordsOf e.line = e.words := by
  rw [e.line_eq, wordsOf_line (e.isWord_of_mem hnumber)]

theorem wordsOf_bound (b : Bound F) : wordsOf b.line = b.words := by
  rw [b.line_eq, wordsOf_line (b.isWord_of_mem hnumber)]

/-- The lines of the other two sections of numbers have one set name each. -/
theorem isWord_of_mem_row {set : String} (hset : IsWord set) (i : ℕ) (value : F) :
    ∀ word ∈ [set, rowName i, Scalar.text value], IsWord word := by
  simp [hset, isWord_rowName, hnumber]

theorem wordsOf_rhsLine (i : ℕ) (value : F) :
    wordsOf (rhsLine i value) = ["RHS", rowName i, Scalar.text value] := by
  rw [rhsLine_eq, wordsOf_line (isWord_of_mem_row hnumber (by decide) i value)]

theorem wordsOf_rangeLine (i : ℕ) (width : F) :
    wordsOf (rangeLine i width) = ["RNG", rowName i, Scalar.text width] := by
  rw [rangeLine_eq, wordsOf_line (isWord_of_mem_row hnumber (by decide) i width)]

omit hnumber [Scalar F] in
theorem wordsOf_rowLine (i : ℕ) (type : RowType) :
    wordsOf (rowLine i type) = [type.letter, rowName i] := by
  have hblanks : rowLine i type =
      "" ++ " " ++ (type.letter ++ " " ++ ("" ++ " " ++ rowName i)) := by
    simp [← String.toList_inj, rowLine_eq]
  rw [hblanks, wordsOf_append_blank, wordsOf_append_blank, wordsOf_append_blank,
    wordsOf_word (isWord_letter type), wordsOf_word (isWord_rowName i)]
  rfl

/-! ## Reading the sections -/

/-- A line of a section. -/
structure IsBodyLine (line : String) : Prop where
  isDataLine_eq : isDataLine line = true
  no_newline : '\n' ∉ line.toList

omit hnumber in
theorem isBodyLine_line {words : List String} (hne : words ≠ [])
    (h : ∀ word ∈ words, IsWord word) : IsBodyLine (line words) := by
  obtain ⟨word, rest, rfl⟩ := List.exists_cons_of_ne_nil hne
  exact ⟨by simp [isDataLine, line], newline_notMem_line h⟩

theorem Element.isBodyLine (e : Element F) : IsBodyLine e.line := by
  rw [e.line_eq]
  exact isBodyLine_line (by cases e <;> simp [Element.words]) (e.isWord_of_mem hnumber)

theorem Bound.isBodyLine (b : Bound F) : IsBodyLine b.line := by
  rw [b.line_eq]
  exact isBodyLine_line (by cases b <;> simp [Bound.words]) (b.isWord_of_mem hnumber)

theorem isBodyLine_rhsLine (i : ℕ) (value : F) : IsBodyLine (rhsLine i value) := by
  rw [rhsLine_eq]
  exact isBodyLine_line (by simp) (isWord_of_mem_row hnumber (by decide) i value)

theorem isBodyLine_rangeLine (i : ℕ) (width : F) : IsBodyLine (rangeLine i width) := by
  rw [rangeLine_eq]
  exact isBodyLine_line (by simp) (isWord_of_mem_row hnumber (by decide) i width)

omit hnumber [Scalar F] in
theorem isBodyLine_rowLine (i : ℕ) (type : RowType) : IsBodyLine (rowLine i type) := by
  have hletter := (isWord_letter type).no_newline
  have hname := (isWord_rowName i).no_newline
  rw [rowLine_eq]
  constructor
  · simp [isDataLine]
  · simp [hletter, hname]

/-- A heading. -/
def IsHeading (line : String) : Prop := isDataLine line = false ∧ '\n' ∉ line.toList

instance (line : String) : Decidable (IsHeading line) := instDecidableAnd

/-- A heading with the lines below it. -/
def IsSection (heading : String) (body : List String) : Prop :=
  IsHeading heading ∧ ∀ line ∈ body, IsBodyLine line

omit hnumber [Scalar F] in
/-- What was written as sections is read back. -/
theorem sectionsOf_join {parts : List (String × List String)}
    (h : ∀ part ∈ parts, IsSection part.1 part.2) :
    sectionsOf (linesOf (String.join ((parts.flatMap fun part => part.1 :: part.2).map
      (· ++ "\n")))) = parts := by
  rw [linesOf_join, sectionsOf_flatMap (fun part hpart => (h part hpart).1.1)
    fun part hpart line hline => ((h part hpart).2 line hline).isDataLine_eq]
  intro line hline
  obtain ⟨part, hpart, hmem⟩ := List.mem_flatMap.mp hline
  rcases List.mem_cons.mp hmem with rfl | hbody
  · exact (h part hpart).1.2
  · exact ((h part hpart).2 line hbody).no_newline

namespace Document

omit hnumber in
theorem headed_eq {α : Type} (heading : String) (xs : List α) (f : α → String) :
    headed heading (xs.map f) =
      (if xs = [] then [] else [(heading, xs.map f)]).flatMap fun part => part.1 :: part.2 := by
  cases xs <;> simp [headed]

omit hnumber in
theorem lines_eq (d : Document F) : d.lines = d.sections.flatMap fun part => part.1 :: part.2 := by
  have hsense : (if d.maximize then ["OBJSENSE", "    MAX"] else []) =
      (if d.maximize then [("OBJSENSE", ["    MAX"])] else []).flatMap
        fun part => part.1 :: part.2 := by
    cases d.maximize <;> rfl
  unfold lines sections
  rw [Element.text_eq, Bound.text_eq]
  simp only [hsense, headed_eq, List.flatMap_append, List.flatMap_cons, List.flatMap_nil,
    ← rhsLine_eq, ← rangeLine_eq, ← rowLine_eq, objectiveName]
  simp

theorem isSection_of_mem (d : Document F) :
    ∀ part ∈ d.sections, IsSection part.1 part.2 := by
  have hsense : ∀ line ∈ ["    MAX"], IsBodyLine line :=
    List.forall_mem_singleton.mpr ⟨rfl, by decide⟩
  have hobjective : IsBodyLine " N  OBJ" := ⟨rfl, by decide⟩
  unfold sections
  simp only [List.forall_mem_append, List.forall_mem_cons]
  refine ⟨⟨⟨⟨⟨⟨by decide, List.forall_mem_nil _⟩, ?_⟩, ?_, ?_, ?_, List.forall_mem_nil _⟩, ?_⟩, ?_⟩,
    ⟨by decide, List.forall_mem_nil _⟩, List.forall_mem_nil _⟩
  · split
    · exact List.forall_mem_singleton.mpr ⟨by decide, hsense⟩
    · exact List.forall_mem_nil _
  · exact ⟨by decide, List.forall_mem_cons.mpr ⟨hobjective, List.forall_mem_map.mpr
      fun (i, type) _ => isBodyLine_rowLine i type⟩⟩
  · exact ⟨by decide, List.forall_mem_map.mpr fun e _ => e.isBodyLine hnumber⟩
  · exact ⟨by decide, List.forall_mem_map.mpr fun (i, value) _ =>
      isBodyLine_rhsLine hnumber i value⟩
  · split
    · exact List.forall_mem_nil _
    · exact List.forall_mem_singleton.mpr ⟨show IsHeading "RANGES" by decide,
        List.forall_mem_map.mpr fun (i, width) _ => isBodyLine_rangeLine hnumber i width⟩
  · split
    · exact List.forall_mem_nil _
    · exact List.forall_mem_singleton.mpr ⟨show IsHeading "BOUNDS" by decide,
        List.forall_mem_map.mpr fun b _ => b.isBodyLine hnumber⟩

/-- The text of a document consists of its sections. -/
theorem sectionsOf_text (d : Document F) : sectionsOf (linesOf d.text) = d.sections := by
  unfold text
  rw [lines_eq, sectionsOf_join (d.isSection_of_mem hnumber)]

theorem sectionLines_text (d : Document F) (heading : String) :
    sectionLines d.text heading = (d.sections.lookup heading).getD [] := by
  rw [sectionLines, d.sectionsOf_text hnumber]

theorem sectionLines_rows (d : Document F) :
    sectionLines d.text "ROWS" = " N  OBJ" :: d.rows.map fun (i, type) => rowLine i type := by
  rw [sectionLines_text hnumber, sections]
  cases d.maximize <;> rfl

theorem sectionLines_columns (d : Document F) :
    sectionLines d.text "COLUMNS" = d.columns.map Element.line := by
  rw [sectionLines_text hnumber, sections]
  cases d.maximize <;> rfl

theorem sectionLines_rhs (d : Document F) :
    sectionLines d.text "RHS" = d.rhs.map fun (i, value) => rhsLine i value := by
  rw [sectionLines_text hnumber, sections]
  cases d.maximize <;> rfl

/-- A section that was left out has no lines. -/
theorem sectionLines_ranges (d : Document F) :
    sectionLines d.text "RANGES" = d.ranges.map fun (i, width) => rangeLine i width := by
  rw [sectionLines_text hnumber, sections]
  cases d.maximize <;> cases d.ranges <;> cases d.bounds <;> rfl

theorem sectionLines_bounds (d : Document F) :
    sectionLines d.text "BOUNDS" = d.bounds.map Bound.line := by
  rw [sectionLines_text hnumber, sections]
  cases d.maximize <;> cases d.ranges <;> cases d.bounds <;> rfl

theorem sectionLines_sense (d : Document F) :
    sectionLines d.text "OBJSENSE" = if d.maximize then ["    MAX"] else [] := by
  rw [sectionLines_text hnumber, sections]
  cases d.maximize <;> cases d.ranges <;> cases d.bounds <;> rfl

/-- The sections stand in their order. -/
theorem headings_text (d : Document F) :
    (sectionsOf (linesOf d.text)).map Prod.fst =
      ["NAME PROG"] ++ (if d.maximize then ["OBJSENSE"] else []) ++ ["ROWS", "COLUMNS", "RHS"] ++
        (if sectionLines d.text "RANGES" = [] then [] else ["RANGES"]) ++
        (if sectionLines d.text "BOUNDS" = [] then [] else ["BOUNDS"]) ++ ["ENDATA"] := by
  rw [sectionLines_ranges hnumber, sectionLines_bounds hnumber, d.sectionsOf_text hnumber, sections]
  cases d.maximize <;> cases d.ranges <;> cases d.bounds <;> rfl

end Document

end LinearOpt.Mps
