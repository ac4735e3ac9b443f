import LinearOpt.Scalar

/-!
# Documents in the format of the Mathematical Programming System

A `Document` holds the sections of a file in free format: the sense of the objective, the type of
each row, the elements of each column, the right-hand sides, the ranges and the bounds. Rows and
columns are known by their position; in the text they are named `ROW1`, `ROW2`, … and `X1`, `X2`, ….
Sections without lines are left out, except that `ROWS`, `COLUMNS` and `RHS` always have a heading.
-/

namespace LinearOpt.Mps

/-- How a row stands to its right-hand side. -/
inductive RowType where
  | equal
  | atLeast
  | atMost
  deriving DecidableEq

namespace RowType

def letter : RowType → String
  | equal => "E"
  | atLeast => "G"
  | atMost => "L"

end RowType

/-- A line of the section `COLUMNS`. -/
inductive Element (F : Type) where
  /-- The cost of a column. -/
  | cost (column : Nat) (value : F)
  | coefficient (column row : Nat) (value : F)
  deriving DecidableEq

/-- A line of the section `BOUNDS`. A column without lines ranges from zero upwards. -/
inductive Bound (F : Type) where
  /-- No bound at all. -/
  | free (column : Nat)
  /-- No lower bound. -/
  | unboundedBelow (column : Nat)
  | upper (column : Nat) (value : F)
  | lower (column : Nat) (value : F)
  /-- Both bounds at once. -/
  | fixed (column : Nat) (value : F)
  deriving DecidableEq

structure Document (F : Type) where
  maximize : Bool
  rows : List (Nat × RowType)
  columns : List (Element F)
  rhs : List (Nat × F)
  /-- Widths of the rows that have two different bounds. -/
  ranges : List (Nat × F)
  bounds : List (Bound F)
  deriving DecidableEq

/-! ## Text -/

def rowName (i : Nat) : String := "ROW" ++ toString (i + 1)

def columnName (j : Nat) : String := "X" ++ toString (j + 1)

/-- Name of the row that holds the costs. -/
def objectiveName : String := "OBJ"

variable {F : Type} [Scalar F]

/-- Words with a blank before each. -/
def line (words : List String) : String := String.join (words.map (" " ++ ·))

namespace Element

def text : Element F → String
  | cost column value => line [columnName column, objectiveName, Scalar.text value]
  | coefficient column row value => line [columnName column, rowName row, Scalar.text value]

end Element

namespace Bound

def text : Bound F → String
  | free column => line ["FR", "BND", columnName column]
  | unboundedBelow column => line ["MI", "BND", columnName column]
  | upper column value => line ["UP", "BND", columnName column, Scalar.text value]
  | lower column value => line ["LO", "BND", columnName column, Scalar.text value]
  | fixed column value => line ["FX", "BND", columnName column, Scalar.text value]

end Bound

/-- A heading with its lines. -/
def headed (heading : String) (lines : List String) : List String :=
  if lines.isEmpty then [] else heading :: lines

namespace Document

def lines (d : Document F) : List String :=
  ["NAME PROG"] ++
  (if d.maximize then ["OBJSENSE", "    MAX"] else []) ++
  ["ROWS", " N  " ++ objectiveName] ++
  d.rows.map (fun (i, type) => " " ++ type.letter ++ "  " ++ rowName i) ++
  ["COLUMNS"] ++ d.columns.map Element.text ++
  ["RHS"] ++ d.rhs.map (fun (i, value) => line ["RHS", rowName i, Scalar.text value]) ++
  headed "RANGES" (d.ranges.map fun (i, value) => line ["RNG", rowName i, Scalar.text value]) ++
  headed "BOUNDS" (d.bounds.map Bound.text) ++
  ["ENDATA"]

/-- The file: every line ends with a line feed. -/
def text (d : Document F) : String := String.join (d.lines.map (· ++ "\n"))

end Document

end LinearOpt.Mps
