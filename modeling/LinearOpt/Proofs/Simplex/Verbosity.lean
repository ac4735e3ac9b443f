import LinearOpt.Proofs.Canonical.Passes
import LinearOpt.Proofs.Refinement.Bounded
import LinearOpt.Simplex.TwoPhase

/-!
# What a level of verbosity changes

A level decides what is reported.  What is reported at the verbose level has to be computed first,
with the number type of the problem, and a computation can fail.

`Observes P x y` says that the run `y` ends as `x` does and reports the same and possibly more, or
that `y` fails with an error in `P`.  The levels of the method only occur in `detail` and in two other
places, so `Observes.gate` and the rules for blocks carry it through the method, one lemma for each
loop and phase.

* `sumProducts_eq_overflow` says that over bounded rationals a cost can only overflow.
* `Problem.twoPhase_observes` compares two levels over any number type.
* `Problem.twoPhase_verbosity` says that over the rationals a level only observes, and that over
  bounded rationals the verbose level can overflow besides.  It does on `Problem.huge`.
-/

namespace LinearOpt

variable {F α β : Type}

/-! ## Levels -/

theorem Verbosity.le_trans {a b c : Verbosity} (h : a ≤ b) (h' : b ≤ c) : a ≤ c :=
  Nat.le_trans (n := a.rank) (m := b.rank) (k := c.rank) h h'

/-! ## Two runs -/

/-- The second run ends as the first one does and reports the same, possibly with more in between.
Or it fails with an error in `P`. -/
def Observes (P : Failure → Prop) (x y : Logged F α) : Prop :=
  (y.outcome = x.outcome ∧ x.events.Sublist y.events) ∨ ∃ e, y.outcome = .error e ∧ P e

namespace Observes

variable {P : Failure → Prop} {x y : Logged F α} {f g : α → Logged F β}

theorem refl (x : Logged F α) : Observes P x x := Or.inl ⟨rfl, List.Sublist.refl _⟩

theorem bind (h : Observes P x y) (hfg : ∀ a, x.outcome = .ok a → Observes P (f a) (g a)) :
    Observes P (x >>= f) (y >>= g) := by
  rcases h with ⟨houtcome, hevents⟩ | ⟨e, hfail, he⟩
  · cases hx : x.outcome with
    | ok a =>
      rw [Logged.bind_of_ok hx, Logged.bind_of_ok (houtcome.trans hx)]
      rcases hfg a hx with ⟨houtcome', hevents'⟩ | ⟨e, hfail, he⟩
      · exact Or.inl ⟨houtcome', hevents.append hevents'⟩
      · exact Or.inr ⟨e, hfail, he⟩
    | error e =>
      rw [Logged.bind_of_error hx, Logged.bind_of_error (houtcome.trans hx)]
      exact Or.inl ⟨rfl, hevents⟩
  · rw [Logged.bind_of_error hfail]
    exact Or.inr ⟨e, rfl, he⟩

/-- What follows on a common first part. -/
theorem bind_same (hfg : ∀ a, x.outcome = .ok a → Observes P (f a) (g a)) :
    Observes P (x >>= f) (x >>= g) :=
  (refl x).bind hfg

variable {l₁ l₂ : Verbosity}

/-- A part that is only run from some level on. -/
theorem gate (hle : l₁ ≤ l₂) (level : Verbosity) {part : Logged F Unit}
    (hpart : ¬level ≤ l₁ → level ≤ l₂ →
      part.outcome = .ok () ∨ ∃ e, part.outcome = .error e ∧ P e) :
    Observes P (if level ≤ l₁ then part else pure ()) (if level ≤ l₂ then part else pure ()) := by
  by_cases h₁ : level ≤ l₁
  · rw [if_pos h₁, if_pos (Verbosity.le_trans h₁ hle)]
    exact refl part
  · rw [if_neg h₁]
    by_cases h₂ : level ≤ l₂
    · rw [if_pos h₂]
      rcases hpart h₁ h₂ with hok | hfail
      · exact Or.inl ⟨hok, List.nil_sublist _⟩
      · exact Or.inr hfail
    · rw [if_neg h₂]
      exact refl _

/-- A report from some level on, and what follows on it. -/
theorem report_bind (hle : l₁ ≤ l₂) (level : Verbosity) (event : Event F)
    {f g : Unit → Logged F β} (hfg : Observes P (f ()) (g ())) :
    Observes P (if level ≤ l₁ then Logged.report event >>= f else f ())
      (if level ≤ l₂ then Logged.report event >>= g else g ()) := by
  have hblock : ∀ (l : Verbosity) (k : Unit → Logged F β),
      (if level ≤ l then Logged.report event >>= k else k ()) =
        (if level ≤ l then Logged.report event else pure ()) >>= k := by
    intro l k
    split
    · rfl
    · rw [pure_bind]
  rw [hblock, hblock]
  exact (gate hle level fun _ _ => Or.inl rfl).bind fun _ _ => hfg

end Observes

/-! ## Pivoting -/

namespace Tableau

variable [Scalar F] {P : Failure → Prop} {l₁ l₂ : Verbosity}

theorem betterRatio_cases {best next : Option (ℕ × F)} {i : ℕ} {value coefficient : F}
    (h : betterRatio best i value coefficient = .ok next) :
    next = best ∨ ∃ ratio, next = some (i, ratio) := by
  unfold betterRatio at h
  split at h
  · obtain ⟨ratio, -, h⟩ := bind_eq_ok.mp h
    cases best with
    | none =>
      cases h
      exact Or.inr ⟨ratio, rfl⟩
    | some pair =>
      dsimp only at h
      split at h
      · cases h
        exact Or.inr ⟨ratio, rfl⟩
      · cases h
        exact Or.inl rfl
  · cases h
    exact Or.inl rfl

/-- A row that is selected is one of the rows. -/
theorem selectRow_lt {t : Tableau F} {coefficients : List F} {r : ℕ}
    (h : t.selectRow coefficients = .ok (some r)) : r < t.rowCount := by
  obtain ⟨-, -, h⟩ := bind_eq_ok.mp h
  obtain ⟨best, hbest, h⟩ := bind_eq_ok.mp h
  have hlt : ∀ row ∈ (t.rows.zip coefficients).zipIdx, row.2 < t.rowCount := by
    intro row hrow
    have hget := List.snd_lt_of_mem_zipIdx hrow
    rw [List.length_zip] at hget
    exact hget.trans_le (Nat.min_le_left _ _)
  have hkept : ∀ i ratio, best = some (i, ratio) → i < t.rowCount := by
    refine foldlM_induct (P := fun best => ∀ i ratio, best = some (i, ratio) → i < t.rowCount)
      ?_ (fun best row hrow next hbefore hnext => ?_) hbest
    · intro i ratio heq
      cases heq
    · rcases betterRatio_cases hnext with rfl | ⟨ratio, rfl⟩
      · exact hbefore
      · intro i ratio' heq
        cases heq
        exact hlt row hrow
  cases best with
  | none => cases h
  | some pair =>
    cases h
    exact hkept pair.1 pair.2 rfl

theorem nextStep_row_lt {t : Tableau F} {j r : ℕ} {cost : F} {coefficients : List F}
    (h : t.nextStep = .ok (.pivot j cost r coefficients)) : r < t.rowCount := by
  obtain ⟨column, -, h⟩ := bind_eq_ok.mp h
  cases column with
  | none => cases h
  | some pair =>
    obtain ⟨_, -, h⟩ := bind_eq_ok.mp h
    obtain ⟨row, hrow, h⟩ := bind_eq_ok.mp h
    cases row with
    | none => cases h
    | some r' =>
      cases h
      exact selectRow_lt hrow

/-- A cost is a sum of products, and there are as many costs as values. -/
theorem objectiveValue_cases (t : Tableau F) :
    ∃ pairs, t.objectiveValue = Scalar.sumProducts pairs := by
  refine ⟨(t.rows.map (·.cost)).zip (t.rows.map (·.value)), ?_⟩
  unfold objectiveValue Scalar.dot
  rw [require_eq_ok (by simp), ok_bind]

section Runs

/-- What is computed in order to be reported fails with errors in `P` only. -/
def ReportsFail (F : Type) [Scalar F] (P : Failure → Prop) (l₁ l₂ : Verbosity) : Prop :=
  ¬Verbosity.verbose ≤ l₁ → Verbosity.verbose ≤ l₂ →
    ∀ (pairs : List (F × F)) e, Scalar.sumProducts pairs = .error e → P (.fault e)

variable (hle : l₁ ≤ l₂) (hfail : ReportsFail F P l₁ l₂)

include hle hfail

theorem reportEnd_observes (t : Tableau F) (termination : Termination) (pivots : ℕ) :
    Observes P (reportEnd l₁ t termination pivots) (reportEnd l₂ t termination pivots) := by
  unfold reportEnd detail
  refine .gate hle .verbose fun h₁ h₂ => ?_
  obtain ⟨pairs, hpairs⟩ := objectiveValue_cases t
  rw [hpairs]
  cases hsum : Scalar.sumProducts pairs with
  | ok value => exact Or.inl rfl
  | error e => exact Or.inr ⟨.fault e, rfl, hfail h₁ h₂ pairs e hsum⟩

theorem iterate_observes (fuel pivots : ℕ) (t : Tableau F) :
    Observes P (t.iterate l₁ fuel pivots) (t.iterate l₂ fuel pivots) := by
  induction fuel generalizing pivots t with
  | zero => exact .refl _
  | succ fuel ih =>
    unfold iterate
    refine .bind_same fun _ _ => .bind_same fun step hstep => ?_
    cases step with
    | optimal => exact (reportEnd_observes hle hfail t _ pivots).bind fun _ _ => .refl _
    | unbounded j cost =>
      exact (reportEnd_observes hle hfail t _ pivots).bind fun _ _ => .refl _
    | pivot j cost r coefficients =>
      -- the row was selected, so its basic column can be read
      have hr := nextStep_row_lt (liftM_eq_ok.mp hstep)
      have hcolumn : t.basicColumn r = .ok t.rows[r].column := by
        unfold basicColumn
        rw [fetch_eq_ok (List.getElem?_eq_getElem hr)]
        rfl
      refine .bind ?_ fun _ _ => .bind_same fun next _ => ih (pivots + 1) next
      unfold detail
      refine .gate hle .verbose fun _ _ => Or.inl ?_
      rw [hcolumn]
      rfl

theorem phaseOne_observes (fuel : ℕ) (t : Tableau F) :
    Observes P (t.phaseOne l₁ fuel) (t.phaseOne l₂ fuel) :=
  (iterate_observes hle hfail fuel 0 t).bind fun _ _ => .refl _

theorem phaseTwo_observes (fuel : ℕ) (t : Tableau F) :
    Observes P (t.phaseTwo l₁ fuel) (t.phaseTwo l₂ fuel) :=
  (iterate_observes hle hfail fuel 0 t).bind fun _ _ => .refl _

theorem solve_observes (fuel : ℕ) (c : CanonicalForm F) :
    Observes P (c.solve l₁ fuel) (c.solve l₂ fuel) := by
  unfold CanonicalForm.solve
  refine .bind_same fun first _ => ?_
  refine (phaseOne_observes hle hfail fuel first).bind fun run _ => ?_
  rcases run with ⟨redundant | _ | _, last⟩
  · refine .bind ?_ fun _ _ => .bind_same fun later _ => ?_
    · unfold detail
      exact .gate hle .verbose fun _ _ => Or.inl rfl
    · exact (phaseTwo_observes hle hfail fuel later).bind fun _ _ => .refl _
  · exact .refl _
  · exact .report_bind hle .error _ (.refl _)

end Runs

end Tableau

namespace Problem

/-- Two levels over any number type. -/
theorem twoPhase_observes [Scalar F] {P : Failure → Prop} {l₁ l₂ : Verbosity} (hle : l₁ ≤ l₂)
    (hfail : Tableau.ReportsFail F P l₁ l₂) (p : Problem F) (configuration : Configuration)
    (fuel : ℕ) :
    Observes P (twoPhase fuel p { configuration with verbosity := l₁ })
      (twoPhase fuel p { configuration with verbosity := l₂ }) := by
  unfold twoPhase
  dsimp only
  split
  · exact .refl _
  · split
    · exact .refl _
    · refine .bind_same fun canonical _ => ?_
      refine (Tableau.solve_observes hle hfail fuel canonical).bind fun outcome _ => ?_
      exact .report_bind hle .normal _ (.refl _)

end Problem

/-! ## Rationals -/

/-- Sums of products over bounded rationals fail in one way. -/
theorem sumProducts_eq_overflow {w : Width} {pairs : List (Bounded w × Bounded w)} {e : Fault}
    (h : Scalar.sumProducts pairs = .error e) : e = .overflow := by
  have hagrees : Agrees Bounded.val (Scalar.sumProducts pairs)
      (Scalar.sumProducts (pairs.map (Prod.map Bounded.val Bounded.val))) :=
    Bounded.refines_val.sumProducts rfl
  rw [h, Exact.sumProducts_eq] at hagrees
  rcases hagrees with hover | hmap
  · cases hover
    rfl
  · cases hmap

namespace Problem

variable {l₁ l₂ : Verbosity}

theorem twoPhase_verbosity_exact (hle : l₁ ≤ l₂) (p : Problem ℚ) (configuration : Configuration)
    (fuel : ℕ) :
    (twoPhase fuel p { configuration with verbosity := l₂ }).outcome =
        (twoPhase fuel p { configuration with verbosity := l₁ }).outcome ∧
      (twoPhase fuel p { configuration with verbosity := l₁ }).events.Sublist
        (twoPhase fuel p { configuration with verbosity := l₂ }).events := by
  have hfail : Tableau.ReportsFail ℚ (fun _ => False) l₁ l₂ := by
    intro _ _ pairs e hsum
    rw [Exact.sumProducts_eq] at hsum
    cases hsum
  rcases twoPhase_observes hle hfail p configuration fuel with hsame | ⟨_, _, hfalse⟩
  · exact hsame
  · exact hfalse.elim

theorem twoPhase_verbosity_bounded (hle : l₁ ≤ l₂) {w : Width} (p : Problem (Bounded w))
    (configuration : Configuration) (fuel : ℕ) :
    ((twoPhase fuel p { configuration with verbosity := l₂ }).outcome =
        (twoPhase fuel p { configuration with verbosity := l₁ }).outcome ∧
      (twoPhase fuel p { configuration with verbosity := l₁ }).events.Sublist
        (twoPhase fuel p { configuration with verbosity := l₂ }).events) ∨
      l₁ ≠ .verbose ∧ l₂ = .verbose ∧
        (twoPhase fuel p { configuration with verbosity := l₂ }).outcome =
          .error (.fault .overflow) := by
  have hfail : Tableau.ReportsFail (Bounded w)
      (fun e => l₁ ≠ .verbose ∧ l₂ = .verbose ∧ e = .fault .overflow) l₁ l₂ := by
    intro h₁ h₂ pairs e hsum
    refine ⟨?_, ?_, congrArg Failure.fault (sumProducts_eq_overflow hsum)⟩
    · rintro rfl
      exact h₁ (Nat.le_refl _)
    · cases l₂ with
      | verbose => rfl
      | off => exact absurd h₂ (by decide)
      | error => exact absurd h₂ (by decide)
      | normal => exact absurd h₂ (by decide)
  rcases twoPhase_observes hle hfail p configuration fuel with
    hsame | ⟨e, houtcome, hneither, hverbose, rfl⟩
  · exact Or.inl hsame
  · exact Or.inr ⟨hneither, hverbose, houtcome⟩

/-- A level only observes, but for one thing: over bounded rationals the verbose level can overflow
where the levels below it do not. -/
theorem twoPhase_verbosity (hle : l₁ ≤ l₂) (configuration : Configuration) (fuel : ℕ) :
    (∀ p : Problem ℚ,
      (twoPhase fuel p { configuration with verbosity := l₂ }).outcome =
          (twoPhase fuel p { configuration with verbosity := l₁ }).outcome ∧
        (twoPhase fuel p { configuration with verbosity := l₁ }).events.Sublist
          (twoPhase fuel p { configuration with verbosity := l₂ }).events) ∧
    ∀ (w : Width) (p : Problem (Bounded w)),
      ((twoPhase fuel p { configuration with verbosity := l₂ }).outcome =
          (twoPhase fuel p { configuration with verbosity := l₁ }).outcome ∧
        (twoPhase fuel p { configuration with verbosity := l₁ }).events.Sublist
          (twoPhase fuel p { configuration with verbosity := l₂ }).events) ∨
        l₁ ≠ .verbose ∧ l₂ = .verbose ∧
          (twoPhase fuel p { configuration with verbosity := l₂ }).outcome =
            .error (.fault .overflow) :=
  ⟨fun p => twoPhase_verbosity_exact hle p configuration fuel,
    fun _ p => twoPhase_verbosity_bounded hle p configuration fuel⟩

def largest : Bounded .w32 := ⟨2147483647, by decide, by decide⟩

/-- Two equations without coefficients.  They cannot hold, and their artificial variables are as
large as a word can be. -/
def huge : Problem (Bounded .w32) where
  objective := .minimize
  cost := [Bounded.one]
  variableBounds := [.nonnegative]
  constraintBounds := [⟨some largest, some largest⟩, ⟨some largest, some largest⟩]

theorem reachable_huge : huge.Reachable :=
  .edit (.addConstraint ⟨some largest, some largest⟩)
    (.edit (.addConstraint ⟨some largest, some largest⟩)
      (.edit (.setCost 0 Bounded.one false)
        (.edit (.addVariable .nonnegative) (.empty .minimize))))

theorem twoPhase_verbosity_huge_quiet :
    (Verbosity.off ≤ Verbosity.normal) ∧
      (twoPhase 1 huge { verbosity := .normal }).outcome =
        (twoPhase 1 huge { verbosity := .off }).outcome := by
  have hle : Verbosity.off ≤ Verbosity.normal := by decide
  refine ⟨hle, ?_⟩
  rcases (twoPhase_verbosity hle {} 1).2 .w32 huge with ⟨hsame, -⟩ | ⟨-, hverbose, -⟩
  · exact hsame
  · cases hverbose

/-- The sum of the artificial variables does not fit, and only the verbose level computes it. -/
theorem twoPhase_verbosity_huge :
    huge.Reachable ∧
      (twoPhase 1 huge { verbosity := .normal }).outcome = .ok .infeasible ∧
      (twoPhase 1 huge { verbosity := .verbose }).outcome = .error (.fault .overflow) ∧
      ¬(twoPhase 1 huge { verbosity := .normal }).events.Sublist
        (twoPhase 1 huge { verbosity := .verbose }).events :=
  ⟨reachable_huge, by decide +kernel, by decide +kernel, by decide +kernel⟩

end Problem

end LinearOpt
