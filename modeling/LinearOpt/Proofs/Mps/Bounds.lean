import LinearOpt.Mps.Export
import LinearOpt.Proofs.Binary64
import LinearOpt.Proofs.Canonical.Passes

/-!
# What a text says about the bounds of a problem

The text of a problem is read again, and what is read is compared with what the bounds admit.

* `filter_flatMap_zipIdx` and `lookup_filterMap_zipIdx` are about sections that are written position
  by position: the lines for a position are those that were written for it.
* `Bounds.foldl_lines` is about the lines of a variable.  They say what its bounds are, whatever
  these are.
* `Bounds.readInterval` is what is read for a row.  The width of a range has a sign, which the
  format ignores.  So a row says what its bounds are unless these cross
  (`Bounds.readInterval_of_not_crossed`), and if they do, it admits values where they admit none
  (`Bounds.readInterval_of_crossed`).
* `Problem.toMps_eq` is the document of a problem, and `Problem.toMps_reads` says how it reads.
-/

namespace LinearOpt

variable {F : Type} [Scalar F]

/-! ## Lines by position -/

section Lines

variable {α β : Type}

/-- Of lines that are written position by position, those for one position. -/
theorem filter_flatMap_zipIdx {f : α → ℕ → List β} {position : β → ℕ}
    (hposition : ∀ a i, ∀ x ∈ f a i, position x = i) (xs : List α) (j : ℕ) :
    ((xs.zipIdx.flatMap fun (a, i) => f a i).filter (position · == j)) =
      xs[j]?.elim [] fun a => f a j := by
  have hsame : ∀ a i, (f a i).filter (position · == i) = f a i := fun a i =>
    List.filter_eq_self.mpr fun x hx => beq_iff_eq.mpr (hposition a i x hx)
  have hother : ∀ a i l, i ≠ l → (f a i).filter (position · == l) = [] := fun a i l hne =>
    List.filter_eq_nil_iff.mpr fun x hx => by
      rw [hposition a i x hx, beq_iff_eq]
      exact hne
  -- the induction is over the positions from any number on
  suffices h : ∀ k, ((xs.zipIdx k).flatMap fun (a, i) => f a i).filter (position · == j) =
      if k ≤ j then xs[j - k]?.elim [] fun a => f a j else [] by
    simpa using h 0
  induction xs with
  | nil => simp
  | cons a xs ih =>
    intro k
    rw [List.zipIdx_cons, List.flatMap_cons, List.filter_append, ih]
    rcases Nat.lt_trichotomy k j with hlt | rfl | hgt
    · rw [hother a k j (by omega), List.nil_append, if_pos (Nat.succ_le_of_lt hlt), if_pos hlt.le,
        show j - k = j - (k + 1) + 1 by omega, List.getElem?_cons_succ]
    · rw [hsame, if_neg (by omega), if_pos le_rfl, List.append_nil, Nat.sub_self,
        List.getElem?_cons_zero, Option.elim_some]
    · rw [hother a k j (by omega), if_neg (by omega), if_neg (by omega), List.nil_append]

/-- A table is looked up in its lines for the position. -/
theorem lookup_eq_head? (table : List (ℕ × β)) (i : ℕ) :
    table.lookup i = ((table.filter (·.1 == i)).head?).map Prod.snd := by
  induction table with
  | nil => rfl
  | cons line table ih =>
    obtain ⟨k, x⟩ := line
    rw [List.lookup_cons, List.filter_cons, ih, BEq.comm]
    cases k == i <;> rfl

theorem lookup_filterMap_zipIdx (f : α → Option β) (xs : List α) (i : ℕ) :
    (xs.zipIdx.filterMap fun (a, k) => (f a).map (k, ·)).lookup i = xs[i]?.bind f := by
  have hposition : ∀ a (k : ℕ), ∀ line ∈ ((f a).map (k, ·)).toList, line.1 = k := by
    intro a k line hline
    obtain ⟨x, -, rfl⟩ := Option.map_eq_some_iff.mp (Option.mem_toList.mp hline)
    rfl
  rw [lookup_eq_head?, List.filterMap_eq_flatMap_toList, filter_flatMap_zipIdx hposition]
  cases xs[i]? with
  | none => rfl
  | some a =>
    rw [Option.elim_some, Option.bind_some]
    cases f a <;> rfl

theorem lookup_map_zipIdx (f : α → β) (xs : List α) (i : ℕ) :
    (xs.zipIdx.map fun (a, k) => (k, f a)).lookup i = xs[i]?.map f := by
  rw [← List.filterMap_eq_map, Option.map_eq_bind]
  exact lookup_filterMap_zipIdx (some ∘ f) xs i

end Lines

/-! ## Bounds -/

namespace Bounds

open Mps

variable {v : Denotation F} {b : Bounds F}

theorem column_lines (b : Bounds F) (j : ℕ) : ∀ line ∈ b.lines j, line.column = j := by
  obtain ⟨lower, upper⟩ := b
  intro line hline
  cases lower with
  | none =>
    cases upper with
    | none =>
      rw [List.mem_singleton.mp hline]
      rfl
    | some u =>
      rcases List.mem_pair.mp hline with rfl | rfl
      · rfl
      · rfl
  | some l =>
    unfold lines at hline
    dsimp only at hline
    split at hline
    · rw [List.mem_singleton.mp hline]
      rfl
    · rcases List.mem_append.mp hline with hlower | hupper
      · split at hlower
        · cases hlower
        · rw [List.mem_singleton.mp hlower]
          rfl
      · obtain ⟨u, -, rfl⟩ := Option.map_eq_some_iff.mp (Option.mem_toList.mp hupper)
        rfl

/-- A column starts at zero, so a lower bound that is zero needs no line. -/
theorem change_lower (v : Denotation F) (lower : F) (j : ℕ) :
    (if Scalar.isZero lower then [] else [Bound.lower j lower]).foldl (Bound.change v) ⟨0, ⊤⟩ =
      ⟨v.value lower, ⊤⟩ := by
  cases hzero : Scalar.isZero lower with
  | true =>
    rw [v.value_eq hzero, v.value_zero]
    rfl
  | false => rfl

/-- The lines for a variable say what its bounds are, also when these cross. -/
theorem foldl_lines (v : Denotation F) (b : Bounds F) (j : ℕ) :
    (b.lines j).foldl (Bound.change v) ⟨0, ⊤⟩ = b.interval v := by
  obtain ⟨lower, upper⟩ := b
  cases lower with
  | none => cases upper <;> rfl
  | some l =>
    unfold lines
    dsimp only
    split
    · rename_i hequal
      cases upper with
      | none => cases hequal
      | some u =>
        unfold interval
        rw [Option.elim_some, Option.elim_some, ← v.value_eq hequal]
        rfl
    · rw [List.foldl_append, change_lower]
      cases upper <;> rfl

/-- The width of two different bounds, if it can be computed. -/
def width? (b : Bounds F) : Option F :=
  match b.lower, b.upper with
  | some lower, some upper => if b.isRange then (Scalar.sub upper lower).toOption else none
  | _, _ => none

/-- Only two different bounds have a width. -/
theorem isRange_of_width? {width : F} (h : b.width? = some width) : b.isRange = true := by
  obtain ⟨lower, upper⟩ := b
  cases lower with
  | none => cases h
  | some l =>
    cases upper with
    | none => cases h
    | some u =>
      unfold width? at h
      dsimp only at h
      split at h
      · assumption
      · cases h

/-- Nothing is rounded in the width of two different bounds. -/
def ExactWidth (v : Denotation F) (b : Bounds F) : Prop :=
  ∀ lower upper, b = ⟨some lower, some upper⟩ → b.isRange = true →
    ∃ width, Scalar.sub upper lower = .ok width ∧ ∃ x y : ℝ,
      v.value lower = x ∧ v.value upper = y ∧ v.value width = ((y - x : ℝ) : EReal)

/-- The width of two different bounds can be computed, whether rounded or not. -/
def HasWidth (b : Bounds F) : Prop :=
  ∀ lower upper, b = ⟨some lower, some upper⟩ → b.isRange = true →
    ∃ width, Scalar.sub upper lower = .ok width

theorem ExactWidth.hasWidth (h : b.ExactWidth v) : b.HasWidth := by
  intro lower upper hb hrange
  obtain ⟨width, hwidth, -⟩ := h lower upper hb hrange
  exact ⟨width, hwidth⟩

theorem range?_eq (h : b.HasWidth) (i : ℕ) : b.range? i = .ok (b.width?.map (i, ·)) := by
  obtain ⟨lower, upper⟩ := b
  cases lower with
  | none => rfl
  | some l =>
    cases upper with
    | none => rfl
    | some u =>
      unfold range? width?
      dsimp only
      split
      · rename_i hrange
        obtain ⟨width, hwidth⟩ := h l u rfl hrange
        rw [hwidth]
        rfl
      · rfl

/-- A row with two different bounds is named by the lower one. -/
theorem rowType_of_isRange (h : b.isRange = true) : b.rowType = .atLeast := by
  obtain ⟨lower, upper⟩ := b
  cases lower with
  | none => cases h
  | some l =>
    cases upper with
    | none => cases h
    | some u =>
      have hdifferent : ¬Scalar.eq l u = true := by simpa [isRange] using h
      exact (if_neg hdifferent).trans (if_pos rfl)

/-- The interval that is read for a row with these bounds. -/
noncomputable def readInterval (v : Denotation F) (b : Bounds F) : Interval :=
  b.rowType.interval ((b.lower.or b.upper).elim 0 v.value) (b.width?.map v.value)

theorem readInterval_of_not_range (hb : b ≠ .free) (hrange : b.isRange = false) :
    b.readInterval v = b.interval v := by
  obtain ⟨lower, upper⟩ := b
  cases lower with
  | none =>
    cases upper with
    | none => exact absurd rfl hb
    | some u => rfl
  | some l =>
    cases upper with
    | none => rfl
    | some u =>
      have hequal : Scalar.eq l u = true := by simpa [isRange] using hrange
      have htype : (⟨some l, some u⟩ : Bounds F).rowType = .equal := if_pos hequal
      have hwidth : (⟨some l, some u⟩ : Bounds F).width? = none := by
        unfold width?
        rw [hrange]
        rfl
      unfold readInterval interval
      rw [htype, hwidth, Option.elim_some, Option.elim_some, ← v.value_eq hequal]
      rfl

/-- The sign of the width is lost. -/
theorem readInterval_of_range (h : b.ExactWidth v) (hrange : b.isRange = true) :
    ∃ x y : ℝ, b.interval v = ⟨x, y⟩ ∧ b.readInterval v = ⟨x, ((x + |y - x| : ℝ) : EReal)⟩ := by
  obtain ⟨lower, upper⟩ := b
  cases lower with
  | none => cases hrange
  | some l =>
    cases upper with
    | none => cases hrange
    | some u =>
      obtain ⟨width, hrun, x, y, hx, hy, hvalue⟩ := h l u rfl hrange
      have htype := rowType_of_isRange hrange
      have hwidth : (⟨some l, some u⟩ : Bounds F).width? = some width := by
        unfold width?
        dsimp only
        rw [if_pos hrange, hrun]
        rfl
      refine ⟨x, y, ?_, ?_⟩
      · unfold interval
        rw [Option.elim_some, Option.elim_some, hx, hy]
      · unfold readInterval
        rw [htype, hwidth]
        change (⟨v.value l, v.value l + (v.value width).abs⟩ : Interval) = _
        rw [hx, hvalue, EReal.coe_abs, EReal.coe_add]

/-- Bounds that cross are different. -/
theorem isRange_of_crossed (h : (b.interval v).Crossed) : b.isRange = true := by
  obtain ⟨lower, upper⟩ := b
  cases lower with
  | none => exact absurd h not_lt_bot
  | some l =>
    cases upper with
    | none => exact absurd h not_top_lt
    | some u =>
      cases hequal : Scalar.eq l u with
      | false => simp [isRange, hequal]
      | true =>
        have hne : v.value u < v.value l := h
        rw [v.value_eq hequal] at hne
        exact absurd hne (lt_irrefl _)

theorem readInterval_of_not_crossed (hb : b ≠ .free) (h : b.ExactWidth v)
    (hcrossed : ¬(b.interval v).Crossed) : b.readInterval v = b.interval v := by
  cases hrange : b.isRange with
  | false => exact readInterval_of_not_range hb hrange
  | true =>
    obtain ⟨x, y, hinterval, hread⟩ := readInterval_of_range h hrange
    rw [hinterval] at hcrossed ⊢
    have hle : x ≤ y := not_lt.mp fun hlt => hcrossed (Interval.crossed_coe.mpr hlt)
    rw [hread, abs_of_nonneg (sub_nonneg.mpr hle), add_sub_cancel]

/-- Bounds that cross are read as if the upper one were as far above the lower one. -/
theorem readInterval_of_crossed (h : b.ExactWidth v) (hcrossed : (b.interval v).Crossed) :
    ∃ x y : ℝ, y < x ∧ b.interval v = ⟨x, y⟩ ∧
      b.readInterval v = ⟨x, ((x + (x - y) : ℝ) : EReal)⟩ := by
  obtain ⟨x, y, hinterval, hread⟩ := readInterval_of_range h (isRange_of_crossed hcrossed)
  have hlt : y < x := Interval.crossed_coe.mp (hinterval ▸ hcrossed)
  rw [abs_of_neg (sub_neg.mpr hlt), neg_sub] at hread
  exact ⟨x, y, hlt, hinterval, hread⟩

end Bounds

/-! ## The document -/

namespace Problem

open Mps

variable {v : Denotation F} {p : Problem F} {i j : ℕ} {b : Bounds F}

/-- What is written if every width can be computed. -/
def document (p : Problem F) : Document F where
  maximize := p.objective == .maximize
  rows := p.constraintBounds.zipIdx.map fun (b, i) => (i, b.rowType)
  columns := p.cost.zipIdx.flatMap fun (cost, j) => p.elements j cost
  rhs := p.constraintBounds.zipIdx.filterMap fun (b, i) =>
    (b.lower.or b.upper).map fun value => (i, value)
  ranges := p.constraintBounds.zipIdx.filterMap fun (b, i) => b.width?.map fun width => (i, width)
  bounds := p.variableBounds.zipIdx.flatMap fun (b, j) => b.lines j

theorem toMps_eq (hrounded : Scalar.exact F = false) (hp : p.WellFormed)
    (hwidths : ∀ b ∈ p.constraintBounds, b.HasWidth) : p.toMps = .ok p.document := by
  have hranges : p.constraintBounds.zipIdx.mapM (fun (b, i) => (liftM (b.range? i) :
        Except Failure (Option (ℕ × F)))) =
      .ok (p.constraintBounds.zipIdx.map fun (b, i) => b.width?.map (i, ·)) :=
    mapM_eq_ok fun (b, i) hline => by
      dsimp only
      rw [Bounds.range?_eq (hwidths b (List.fst_mem_of_mem_zipIdx hline)) i]
      rfl
  have hfilter : (p.constraintBounds.zipIdx.map fun (b, i) => b.width?.map (i, ·)).filterMap id =
      p.document.ranges := List.filterMap_map
  unfold toMps
  rw [hrounded, hp.checkDimensions_eq]
  dsimp only [Bool.false_eq_true, if_false, liftM_ok_refusal, ok_bind]
  rw [hranges, ok_bind, hfilter]
  rfl

/-- Every variable has a line for its cost. -/
theorem exists_element (hp : p.WellFormed) (hb : p.variableBounds[j]? = some b) :
    ∃ e ∈ p.document.columns, e.column = j := by
  obtain ⟨hj, -⟩ := List.getElem?_eq_some_iff.mp hb
  rw [hp.bounds_length] at hj
  exact ⟨.cost j p.cost[j], List.mem_flatMap.mpr
    ⟨(p.cost[j], j), List.mk_mem_zipIdx_iff_getElem?.mpr (List.getElem?_eq_getElem hj),
      List.mem_cons_self⟩, rfl⟩

theorem columnInterval?_document (hp : p.WellFormed) (hb : p.variableBounds[j]? = some b) :
    columnInterval? v.read p.document.text (columnName j) = some (b.interval v) := by
  obtain ⟨e, he, hcolumn⟩ := exists_element hp hb
  have hlines : p.document.bounds.filter (·.column == j) = b.lines j := by
    change (p.variableBounds.zipIdx.flatMap fun (b, j) => b.lines j).filter _ = _
    rw [filter_flatMap_zipIdx Bounds.column_lines, hb]
    rfl
  rw [p.document.columnInterval?_text v he hcolumn, hlines, b.foldl_lines v j]

theorem rowInterval?_document (hb : p.constraintBounds[i]? = some b) :
    rowInterval? v.read p.document.text (rowName i) = some (b.readInterval v) := by
  have hrow := lookup_map_zipIdx Bounds.rowType p.constraintBounds i
  have hrhs := lookup_filterMap_zipIdx (fun b : Bounds F => b.lower.or b.upper)
    p.constraintBounds i
  have hrange := lookup_filterMap_zipIdx (fun b : Bounds F => b.width?) p.constraintBounds i
  rw [hb] at hrow hrhs hrange
  change p.document.rows.lookup i = _ at hrow
  change p.document.rhs.lookup i = _ at hrhs
  change p.document.ranges.lookup i = _ at hrange
  rw [p.document.rowInterval?_text v, hrow, hrhs, hrange]
  rfl

end Problem

/-! ## Reading it -/

/-- What a text says of the bounds of a problem.  Of constraints whose bounds cross, it says
something else: these admit nothing, and their rows do. -/
structure Mps.ReadsAs (text : String) (v : Denotation F) (p : Problem F) : Prop where
  columnValues_eq : ∀ j b, p.variableBounds[j]? = some b →
    columnValues? v.read text ("X" ++ toString (j + 1)) = some (b.values v)
  rowValues_eq_iff : ∀ i b, p.constraintBounds[i]? = some b →
    (rowValues? v.read text ("ROW" ++ toString (i + 1)) = some (b.values v) ↔
      ¬(b.interval v).Crossed)
  rowValues_crossed : ∀ i b, p.constraintBounds[i]? = some b → (b.interval v).Crossed →
    ∃ x y : ℝ, b.interval v = ⟨x, y⟩ ∧
      rowValues? v.read text ("ROW" ++ toString (i + 1)) = some (Set.Icc x (x + (x - y)))

namespace Problem

open Mps

variable {v : Denotation F} {p : Problem F}

theorem readsAs_document (hp : p.WellFormed)
    (hwidths : ∀ b ∈ p.constraintBounds, b.ExactWidth v) : ReadsAs p.document.text v p := by
  have hcrossed : ∀ i b, p.constraintBounds[i]? = some b → (b.interval v).Crossed →
      ∃ x y : ℝ, y < x ∧ b.interval v = ⟨x, y⟩ ∧
        rowValues? v.read p.document.text (rowName i) = some (Set.Icc x (x + (x - y))) := by
    intro i b hb hcross
    obtain ⟨x, y, hlt, hinterval, hread⟩ :=
      Bounds.readInterval_of_crossed (hwidths b (List.mem_of_getElem? hb)) hcross
    refine ⟨x, y, hlt, hinterval, ?_⟩
    rw [rowValues?, rowInterval?_document hb, hread, Option.map_some, Interval.values_coe]
  refine ⟨fun j b hb => ?_, fun i b hb => ⟨fun hread hcross => ?_, fun hcross => ?_⟩,
    fun i b hb hcross => ?_⟩
  · exact congrArg (Option.map Interval.values) (columnInterval?_document hp hb)
  · -- the row admits at least the lower bound
    obtain ⟨x, y, hlt, -, hvalues⟩ := hcrossed i b hb hcross
    have heq := hvalues.symm.trans hread
    rw [Bounds.values, Interval.values_eq_empty hcross, Option.some.injEq] at heq
    have hmem : x ∈ Set.Icc x (x + (x - y)) := ⟨le_rfl, by linarith⟩
    rw [heq] at hmem
    exact hmem
  · have hmem := List.mem_of_getElem? hb
    have hread := rowInterval?_document (v := v) hb
    rw [Bounds.readInterval_of_not_crossed (hp.bounded b hmem) (hwidths b hmem) hcross] at hread
    exact congrArg (Option.map Interval.values) hread
  · obtain ⟨x, y, -, hinterval, hvalues⟩ := hcrossed i b hb hcross
    exact ⟨x, y, hinterval, hvalues⟩

/-- Every problem over a rounded type can be written, and its text is read as what the problem is,
except for constraints whose bounds cross. -/
theorem toMps_reads (v : Denotation F) (hrounded : Scalar.exact F = false) (hp : p.Reachable)
    (hwidths : ∀ b ∈ p.constraintBounds, b.ExactWidth v) :
    ∃ text, p.toMps.map Document.text = .ok text ∧ ReadsAs text v p := by
  have hrun := toMps_eq hrounded hp.wellFormed fun b hb => (hwidths b hb).hasWidth
  refine ⟨p.document.text, ?_, readsAs_document hp.wellFormed hwidths⟩
  rw [hrun]
  rfl

/-! ## Doubles -/

open Binary64

theorem interval_five_one : Bounds.interval denotation ⟨some 5, some 1⟩ = ⟨(5 : ℝ), (1 : ℝ)⟩ := by
  rw [← value_one, ← value_five]
  rfl

theorem crossed_five_one : (Bounds.interval denotation ⟨some 5, some 1⟩).Crossed := by
  rw [interval_five_one, Interval.crossed_coe]
  norm_num

theorem exactWidth_one_five : Bounds.ExactWidth denotation ⟨some 1, some 5⟩ := by
  rintro lower upper ⟨⟩ -
  have hunpack : (5 - 1 : Float).toModel.unpack = .finite .positive (2 ^ 52) (-50) (by decide) :=
    rfl
  exact ⟨5 - 1, rfl, 1, 5, value_one, value_five,
    value_of_unpack hunpack (by norm_num [Float.Model.UnpackedFloat.Sign.apply])⟩

theorem exactWidth_five_one : Bounds.ExactWidth denotation ⟨some 5, some 1⟩ := by
  rintro lower upper ⟨⟩ -
  have hunpack : (1 - 5 : Float).toModel.unpack = .finite .negative (2 ^ 52) (-50) (by decide) :=
    rfl
  exact ⟨1 - 5, rfl, 5, 1, value_five, value_one,
    value_of_unpack hunpack (by norm_num [Float.Model.UnpackedFloat.Sign.apply])⟩

/-- A variable whose bounds cross, and a range. -/
def ranged : Problem Float :=
  stateAfter (addConstraint ⟨some 1, some 5⟩) <|
    stateAfter (addVariable ⟨some 5, some 1⟩) (empty .minimize)

theorem toMps_reads_ranged :
    Scalar.exact Float = false ∧ ranged.Reachable ∧
      (∀ b ∈ ranged.constraintBounds, b.ExactWidth denotation) ∧
      ∃ text, ranged.toMps.map Document.text = .ok text ∧
        columnValues? denotation.read text "X1" = some ∅ ∧
        rowValues? denotation.read text "ROW1" = some (Set.Icc 1 5) := by
  have hreachable : ranged.Reachable :=
    .edit (.addConstraint _) (.edit (.addVariable _) (.empty .minimize))
  have hvariable : ranged.variableBounds = [⟨some 5, some 1⟩] := by decide +kernel
  have hconstraint : ranged.constraintBounds = [⟨some 1, some 5⟩] := by decide +kernel
  have hwidths : ∀ b ∈ ranged.constraintBounds, b.ExactWidth denotation := by
    rw [hconstraint]
    exact List.forall_mem_singleton.mpr exactWidth_one_five
  refine ⟨rfl, hreachable, hwidths, ?_⟩
  obtain ⟨text, hrun, hreads⟩ := toMps_reads denotation rfl hreachable hwidths
  refine ⟨text, hrun, ?_, ?_⟩
  · refine (hreads.columnValues_eq 0 ⟨some 5, some 1⟩ (by rw [hvariable]; rfl)).trans ?_
    exact congrArg some (Interval.values_eq_empty crossed_five_one)
  · have hinterval : Bounds.interval denotation ⟨some 1, some 5⟩ = ⟨(1 : ℝ), (5 : ℝ)⟩ := by
      rw [← value_one, ← value_five]
      rfl
    have hcrossed : ¬(Bounds.interval denotation ⟨some 1, some 5⟩).Crossed := by
      rw [hinterval, Interval.crossed_coe]
      norm_num
    have hread := (hreads.rowValues_eq_iff 0 ⟨some 1, some 5⟩ (by rw [hconstraint]; rfl)).mpr
      hcrossed
    rw [Bounds.values, hinterval, Interval.values_coe] at hread
    exact hread

/-- A constraint that nothing satisfies. -/
def crossing : Problem Float :=
  stateAfter (addConstraint ⟨some 5, some 1⟩) (empty .minimize)

/-- Its row admits all values from five to nine. -/
theorem toMps_reads_crossing :
    crossing.Reachable ∧ (∀ b ∈ crossing.constraintBounds, b.ExactWidth denotation) ∧
      ∃ text, crossing.toMps.map Document.text = .ok text ∧
        text = "NAME PROG\nROWS\n N  OBJ\n G  ROW1\nCOLUMNS\nRHS\n RHS ROW1 5\n" ++
          "RANGES\n RNG ROW1 -4\nENDATA\n" ∧
        crossing.constraintBounds.map (Bounds.values denotation) = [∅] ∧
        rowValues? denotation.read text "ROW1" = some (Set.Icc 5 9) := by
  have hreachable : crossing.Reachable := .edit (.addConstraint _) (.empty .minimize)
  have hconstraint : crossing.constraintBounds = [⟨some 5, some 1⟩] := by decide +kernel
  have hwidths : ∀ b ∈ crossing.constraintBounds, b.ExactWidth denotation := by
    rw [hconstraint]
    exact List.forall_mem_singleton.mpr exactWidth_five_one
  have hrun := toMps_eq rfl hreachable.wellFormed fun b hb => (hwidths b hb).hasWidth
  refine ⟨hreachable, hwidths, crossing.document.text, ?_, by decide +kernel, ?_, ?_⟩
  · rw [hrun]
    rfl
  · rw [hconstraint, List.map_singleton, Bounds.values, Interval.values_eq_empty crossed_five_one]
  · obtain ⟨x, y, hxy, hrow⟩ := (readsAs_document hreachable.wellFormed hwidths).rowValues_crossed
      0 ⟨some 5, some 1⟩ (by rw [hconstraint]; rfl) crossed_five_one
    rw [interval_five_one, Interval.mk.injEq, EReal.coe_eq_coe_iff, EReal.coe_eq_coe_iff] at hxy
    refine hrow.trans ?_
    rw [← hxy.1, ← hxy.2]
    norm_num

end Problem

end LinearOpt
