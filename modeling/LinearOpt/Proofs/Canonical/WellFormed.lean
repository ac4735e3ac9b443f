import LinearOpt.Canonical.Form
import LinearOpt.Proofs.Problem.WellFormed

/-!
# Passes keep problems well-formed

Over any number type, a pass that returns a problem returns a well-formed one, whatever was rounded
on the way.  Whether it returns is another matter, which the exact problems settle.

There is one lemma for each pass.  A pass that inserts coefficients does so at constraints and
variables that there are (`WellFormed.insertAll`), and all other passes keep the keys of the
coefficients (`WellFormed.of_keys_eq`).  `wellFormed_toCanonical` is the way as a whole, also where
it ends with a failure.
-/

namespace LinearOpt

variable {F : Type} [Scalar F]

/-! ## Bounds that stay -/

namespace Bounds

theorem loweredBy_ne_free {b c : Bounds F} {amount : F} (hb : b ≠ .free)
    (h : b.loweredBy amount = .ok c) : c ≠ .free := by
  obtain ⟨lower, hlower, h⟩ := bind_eq_ok.mp h
  obtain ⟨upper, hupper, h⟩ := bind_eq_ok.mp h
  cases h
  rwa [ne_free_iff, isSome_of_mapM hlower, isSome_of_mapM hupper, ← ne_free_iff]

theorem negated_ne_free {b c : Bounds F} (hb : b ≠ .free) (h : b.negated = .ok c) : c ≠ .free := by
  obtain ⟨lower, hlower, h⟩ := bind_eq_ok.mp h
  obtain ⟨upper, hupper, h⟩ := bind_eq_ok.mp h
  cases h
  rwa [ne_free_iff, isSome_of_mapM hlower, isSome_of_mapM hupper, or_comm, ← ne_free_iff]

end Bounds

namespace Problem

variable {p q : Problem F} {i j : ℕ}

/-! ## Insertions -/

theorem length_lt_concat {α : Type} (xs : List α) (x : α) : xs.length < (xs ++ [x]).length := by
  rw [List.length_append, List.length_singleton]
  exact Nat.lt_succ_self _

/-- Insertions where there are constraints and variables. -/
theorem WellFormed.insertAll {α : Type} {f : α → Entry F} {xs : List α} (hp : p.WellFormed)
    (hxs : ∀ x ∈ xs, (f x).row < p.constraintCount ∧ (f x).column < p.variableCount)
    (h : xs.foldlM (fun r x => r.insert (f x) false) p = .ok q) : q.WellFormed := by
  refine (foldlM_induct (P := fun r => r.WellFormed ∧ r.constraintCount = p.constraintCount ∧
    r.variableCount = p.variableCount) ⟨hp, rfl, rfl⟩ (fun r x hx s hr hs => ?_) h).1
  obtain ⟨hwf, hrows, hcolumns⟩ := hr
  obtain ⟨hrow, hcolumn⟩ := hxs x hx
  obtain ⟨hs, hrows', hcolumns'⟩ := hwf.insert (hrows ▸ hrow) (hcolumns ▸ hcolumn) hs
  exact ⟨hs, hrows'.trans hrows, hcolumns'.trans hcolumns⟩

theorem wellFormed_appendColumn (hp : p.WellFormed) {cost : F} {column : List (ℕ × F)}
    (hcolumn : ∀ term ∈ column, term.1 < p.constraintCount)
    (h : p.appendColumn cost column = .ok q) : q.WellFormed := by
  have hcount : ∀ key ∈ p.keys, key.1 < p.constraintCount ∧ key.2 < p.variableCount + 1 :=
    fun key hkey => ⟨(hp.key_lt key hkey).1, Nat.lt_succ_of_lt (hp.key_lt key hkey).2⟩
  have hvariable : WellFormed { p with
      cost := p.cost ++ [cost]
      variableBounds := p.variableBounds ++ [.nonnegative] } := by
    refine ⟨?_, ?_, hp.bounded, hp.indexed⟩
    · simp only [List.length_append, List.length_singleton, hp.bounds_length]
    · simpa [keys, constraintCount, variableCount] using hcount
  unfold appendColumn at h
  exact hvariable.insertAll (f := fun term => ⟨term.1, p.variableCount, term.2⟩)
    (fun term hterm => ⟨hcolumn term hterm, length_lt_concat _ _⟩) h

/-! ## Variables -/

theorem wellFormed_minimized (hp : p.WellFormed) (h : p.minimized = .ok q) : q.WellFormed := by
  unfold minimized at h
  split at h
  · cases h
    exact hp
  · obtain ⟨cost, hcost, h⟩ := bind_eq_ok.mp h
    cases h
    exact hp.of_keys_eq rfl rfl (forall₂_of_mapM hcost).length_eq.symm rfl rfl hp.bounded

theorem wellFormed_moveConstant (hp : p.WellFormed) {x : F} (h : p.moveConstant j x = .ok q) :
    q.WellFormed ∧ q.constraintCount = p.constraintCount ∧ q.variableCount = p.variableCount := by
  obtain ⟨bounds, hbounds, h⟩ := bind_eq_ok.mp h
  cases h
  have hkept : bounds.length = p.constraintBounds.length ∧ ∀ b ∈ bounds, b ≠ .free := by
    refine foldlM_induct (P := fun bs : List (Bounds F) =>
      bs.length = p.constraintBounds.length ∧ ∀ b ∈ bs, b ≠ .free) ⟨rfl, hp.bounded⟩
      (fun bs term _ bs' hbs hstep => ?_) hbounds
    obtain ⟨amount, -, hstep⟩ := bind_eq_ok.mp hstep
    obtain ⟨b, b', hb, hlowered, rfl⟩ := exists_of_update hstep
    refine ⟨List.length_set.trans hbs.1, fun c hc => ?_⟩
    rcases List.mem_or_eq_of_mem_set hc with hold | rfl
    · exact hbs.2 c hold
    · exact Bounds.loweredBy_ne_free (hbs.2 b (List.mem_of_getElem? hb)) hlowered
  exact ⟨hp.of_keys_eq rfl rfl rfl rfl hkept.1 hkept.2, hkept.1, rfl⟩

theorem wellFormed_negateColumn (hp : p.WellFormed) (h : p.negateColumn j = .ok q) :
    q.WellFormed := by
  obtain ⟨cost, hcost, h⟩ := bind_eq_ok.mp h
  obtain ⟨entries, hentries, h⟩ := bind_eq_ok.mp h
  cases h
  refine hp.of_keys_eq rfl (keys_of_mapM (fun e e' he => ?_) hentries) (length_update hcost) rfl rfl
    hp.bounded
  split at he
  · obtain ⟨value, -, he⟩ := bind_eq_ok.mp he
    cases he
    rfl
  · cases he
    rfl

theorem wellFormed_splitVariable (hp : p.WellFormed) {r : Recovery F}
    (h : p.splitVariable j = .ok (q, r)) : q.WellFormed := by
  obtain ⟨column, hcolumn, h⟩ := bind_eq_ok.mp h
  obtain ⟨old, -, h⟩ := bind_eq_ok.mp h
  obtain ⟨cost, -, h⟩ := bind_eq_ok.mp h
  obtain ⟨q', hq, h⟩ := bind_eq_ok.mp h
  cases h
  refine wellFormed_appendColumn hp (fun term hterm => ?_) hq
  obtain ⟨old, hold, hneg⟩ := exists_of_mem_mapM hcolumn hterm
  obtain ⟨value, -, hneg⟩ := bind_eq_ok.mp hneg
  cases hneg
  exact (row_lt_of_mem_column hp hold : old.1 < p.constraintCount)

theorem wellFormed_reflectVariable (hp : p.WellFormed) {upper : F} {r : Recovery F}
    (h : p.reflectVariable j upper = .ok (q, r)) : q.WellFormed := by
  obtain ⟨moved, hmoved, h⟩ := bind_eq_ok.mp h
  obtain ⟨q', hq, h⟩ := bind_eq_ok.mp h
  obtain ⟨scale, -, h⟩ := bind_eq_ok.mp h
  cases h
  exact wellFormed_negateColumn (wellFormed_moveConstant hp hmoved).1 hq

theorem wellFormed_shiftVariable (hp : p.WellFormed) (hj : j < p.variableCount) {lower : F}
    {upper : Option F} {r : Recovery F} (h : p.shiftVariable j lower upper = .ok (q, r)) :
    q.WellFormed := by
  -- the new constraint does not depend on whether the old ones were moved
  have hbound : ∀ moved : Problem F, moved.WellFormed → moved.variableCount = p.variableCount →
      ∀ upper, (do
        let width ← Scalar.sub upper lower
        let q' ← Problem.insert
          { moved with constraintBounds := moved.constraintBounds ++ [⟨none, some width⟩] }
          ⟨moved.constraintCount, j, Scalar.one⟩ false
        return (q', ⟨none, Scalar.one, lower⟩) : Except Fault (Problem F × Recovery F)) =
        .ok (q, r) → q.WellFormed := by
    intro moved hmoved hcount upper h
    obtain ⟨width, -, h⟩ := bind_eq_ok.mp h
    obtain ⟨q', hq, h⟩ := bind_eq_ok.mp h
    cases h
    have hbounded := hmoved.appendConstraint (b := ⟨none, some width⟩) nofun
    refine (hbounded.insert ?_ ?_ hq).1
    · exact length_lt_concat _ _
    · exact hj.trans_eq hcount.symm
  unfold shiftVariable at h
  cases upper with
  | none =>
    dsimp only at h
    split at h
    · cases h
      exact hp
    · obtain ⟨moved, hmoved, h⟩ := bind_eq_ok.mp h
      cases h
      exact (wellFormed_moveConstant hp hmoved).1
  | some upper =>
    dsimp only at h
    split at h
    · exact hbound p hp rfl upper h
    · obtain ⟨moved, hmoved, h⟩ := bind_eq_ok.mp h
      obtain ⟨hwf, -, hcount⟩ := wellFormed_moveConstant hp hmoved
      exact hbound moved hwf hcount upper h

theorem wellFormed_normalizeVariable (hp : p.WellFormed) {r : Recovery F}
    (h : p.normalizeVariable j = .ok (q, r)) : q.WellFormed := by
  obtain ⟨bounds, hbounds, h⟩ := bind_eq_ok.mp h
  have hj : j < p.variableCount := by
    have hlt := lt_length_of_fetch hbounds
    rwa [hp.bounds_length] at hlt
  have hset : WellFormed { p with variableBounds := p.variableBounds.set j .nonnegative } :=
    hp.of_keys_eq rfl rfl rfl List.length_set rfl hp.bounded
  dsimp only at h
  split at h
  · exact wellFormed_splitVariable hset h
  · exact wellFormed_reflectVariable hset h
  · exact wellFormed_shiftVariable hset hj h

theorem wellFormed_normalizeEach {js : List ℕ} {rs : List (Recovery F)} (hp : p.WellFormed)
    (h : p.normalizeEach js = .ok (q, rs)) : q.WellFormed := by
  induction js generalizing p rs with
  | nil =>
    cases h
    exact hp
  | cons j js ih =>
    obtain ⟨⟨mid, r⟩, hmid, h⟩ := bind_eq_ok.mp h
    obtain ⟨⟨last, rs'⟩, hlast, h⟩ := bind_eq_ok.mp h
    cases h
    exact ih (wellFormed_normalizeVariable hp hmid) hlast

/-! ## Constraints -/

/-- Both bounds of a range are there, so both halves of it have one. -/
theorem WellFormed.splitConstraint (hp : p.WellFormed) {b : Bounds F} (hrange : b.isRange = true)
    (i : ℕ) : WellFormed { p with
      constraintBounds := p.constraintBounds.set i ⟨b.lower, none⟩ ++ [⟨none, b.upper⟩] } := by
  obtain ⟨lower, upper⟩ := b
  cases lower with
  | none => cases hrange
  | some lower =>
    cases upper with
    | none => cases hrange
    | some upper =>
      have hlower := hp.setConstraint i (b := ⟨some lower, none⟩) nofun
      exact hlower.appendConstraint (b := ⟨none, some upper⟩) nofun

theorem wellFormed_splitRange (hp : p.WellFormed) {n : ℕ} (h : p.splitRange i = .ok (q, n)) :
    q.WellFormed := by
  obtain ⟨b, -, h⟩ := bind_eq_ok.mp h
  split at h
  · rename_i hrange
    obtain ⟨q', hq, h⟩ := bind_eq_ok.mp h
    cases h
    refine (hp.splitConstraint hrange i).insertAll
      (f := fun term => ⟨p.constraintCount, term.1, term.2⟩)
      (fun term hterm => ⟨?_, column_lt_of_mem_row hp hterm⟩) hq
    have hlt := length_lt_concat (p.constraintBounds.set i ⟨b.lower, none⟩) ⟨none, b.upper⟩
    rwa [List.length_set] at hlt
  · cases h
    exact hp

theorem wellFormed_splitEach {is : List ℕ} {n : ℕ} (hp : p.WellFormed)
    (h : p.splitEach is = .ok (q, n)) : q.WellFormed := by
  induction is generalizing p n with
  | nil =>
    cases h
    exact hp
  | cons i is ih =>
    obtain ⟨⟨mid, here⟩, hmid, h⟩ := bind_eq_ok.mp h
    obtain ⟨⟨last, later⟩, hlast, h⟩ := bind_eq_ok.mp h
    cases h
    exact ih (wellFormed_splitRange hp hmid) hlast

theorem wellFormed_withSlack (hp : p.WellFormed) (hi : i < p.constraintCount)
    {value coefficient : F} (h : p.withSlack i value coefficient = .ok q) : q.WellFormed := by
  refine wellFormed_appendColumn (hp.setConstraint i (b := ⟨some value, some value⟩) nofun)
    (fun term hterm => ?_) h
  rw [List.mem_singleton.mp hterm, constraintCount, List.length_set]
  exact hi

theorem wellFormed_addSlack (hp : p.WellFormed) {n : ℕ} (h : p.addSlack i = .ok (q, n)) :
    q.WellFormed := by
  obtain ⟨⟨lower, upper⟩, hbounds, h⟩ := bind_eq_ok.mp h
  have hi : i < p.constraintCount := lt_length_of_fetch (liftM_eq_ok.mp hbounds)
  cases lower with
  | some lower =>
    cases upper with
    | some upper =>
      cases h
      exact hp
    | none =>
      obtain ⟨coefficient, -, h⟩ := bind_eq_ok.mp h
      obtain ⟨q', hq, h⟩ := bind_eq_ok.mp h
      cases h
      exact wellFormed_withSlack hp hi (liftM_eq_ok.mp hq)
  | none =>
    cases upper with
    | some upper =>
      obtain ⟨q', hq, h⟩ := bind_eq_ok.mp h
      cases h
      exact wellFormed_withSlack hp hi (liftM_eq_ok.mp hq)
    | none => cases h

/-- Also where the pass stops at a constraint. -/
theorem wellFormed_slackEach (is : List ℕ) (hp : p.WellFormed) :
    (p.slackEach is).1.WellFormed := by
  induction is generalizing p with
  | nil => exact hp
  | cons i is ih =>
    unfold slackEach
    split
    · exact hp
    · rename_i hstep
      exact ih (wellFormed_addSlack hp hstep)

theorem wellFormed_withNonnegativeValues (hp : p.WellFormed)
    (h : p.withNonnegativeValues = .ok q) : q.WellFormed := by
  obtain ⟨bounds, hbounds, h⟩ := bind_eq_ok.mp h
  obtain ⟨entries, hentries, h⟩ := bind_eq_ok.mp h
  cases h
  have hkeys : entries.map Entry.key = p.keys := by
    refine keys_of_mapM (fun e e' he => ?_) hentries
    obtain ⟨negative, -, he⟩ := bind_eq_ok.mp he
    split at he
    · obtain ⟨value, -, he⟩ := bind_eq_ok.mp he
      cases he
      rfl
    · cases he
      rfl
  refine hp.of_keys_eq rfl hkeys rfl rfl (forall₂_of_mapM hbounds).length_eq.symm fun c hc => ?_
  obtain ⟨b, hb, hneg⟩ := exists_of_mem_mapM hbounds hc
  split at hneg
  · exact Bounds.negated_ne_free (hp.bounded b hb) hneg
  · cases hneg
    exact hp.bounded _ hb

/-! ## The way as a whole -/

theorem wellFormed_normalize (hp : p.WellFormed)
    {passes : Except Failure (List (Recovery F) × ℕ × ℕ)} (h : p.normalize = .ok (q, passes)) :
    q.WellFormed := by
  obtain ⟨p₁, h₁, h⟩ := bind_eq_ok.mp h
  obtain ⟨⟨p₂, recoveries⟩, h₂, h⟩ := bind_eq_ok.mp h
  obtain ⟨⟨p₃, ranges⟩, h₃, h⟩ := bind_eq_ok.mp h
  have hranges : p₃.WellFormed := wellFormed_splitEach
    (wellFormed_normalizeEach (wellFormed_minimized hp h₁) h₂) h₃
  have hslacks : p₃.addSlacks.1.WellFormed := wellFormed_slackEach _ hranges
  dsimp only at h
  split at h
  · rename_i hrun
    cases h
    rw [hrun] at hslacks
    exact hslacks
  · rename_i hrun
    rw [hrun] at hslacks
    obtain ⟨p₅, h₅, h⟩ := bind_eq_ok.mp h
    cases h
    have hlast := wellFormed_withNonnegativeValues hslacks h₅
    exact hlast.of_keys_eq rfl rfl rfl rfl rfl hlast.bounded

theorem wellFormed_toCanonical (hp : p.WellFormed) : p.toCanonical.1.WellFormed := by
  unfold toCanonical
  split
  · exact hp
  · split
    · exact hp
    · split
      · exact hp
      · exact wellFormed_normalize hp ‹_›
      · exact wellFormed_normalize hp ‹_›

end Problem

end LinearOpt
