import LinearOpt.Proofs.Refinement.Bounded
import LinearOpt.Proofs.Refinement.Solve
import LinearOpt.Proofs.Simplex.Failures

/-!
# Bounded rationals overflow or solve exactly

Over rationals of bounded size the two phase method either overflows, or it does what it does over
all rationals: it makes the same exchanges and returns the same values.  In particular no check
fails and there is no division by zero, since there is none in the exact run:
`Problem.twoPhase_overflows_or_exact`.
-/

namespace LinearOpt.Problem

/-! ## Well-formedness -/

theorem map_keys {F G : Type} (v : F → G) (p : Problem F) : (p.map v).keys = p.keys := by
  unfold keys
  exact List.map_map

/-- Numbers are no part of what is well-formed. -/
theorem WellFormed.map {F G : Type} {p : Problem F} (hp : p.WellFormed) (v : F → G) :
    (p.map v).WellFormed where
  bounds_length := by
    rw [Problem.map, List.length_map, List.length_map]
    exact hp.bounds_length
  key_lt := by
    rw [map_keys, map_constraintCount, map_variableCount]
    exact hp.key_lt
  bounded := by
    refine List.forall_mem_map.mpr fun b hb => ?_
    rw [Bounds.ne_free_iff, Bounds.map, Option.isSome_map, Option.isSome_map, ← Bounds.ne_free_iff]
    exact hp.bounded b hb
  indexed := by
    unfold Indexed
    rw [map_keys]
    exact hp.indexed

variable {w : Width} {p : Problem (Bounded w)}

/-! ## Runs -/

/-- The run on `p` ends as that on the exact problem does: with the same status or refusal and the
same values, without any fault, and after the same exchanges, which are the only ones that either
run can make. -/
structure EndsAsExact (p : Problem (Bounded w)) (configuration : Configuration) (fuel : ℕ) :
    Prop where
  outcome_eq : (twoPhase fuel p configuration).outcome.map (Outcome.map (List.map Bounded.val)) =
    (twoPhase fuel (p.map Bounded.val) configuration).outcome
  no_fault : ∀ fault, (twoPhase fuel p configuration).outcome ≠ .error (.fault fault)
  same_exchanges : ∀ outcome, (twoPhase fuel p configuration).outcome = .ok outcome →
    ∃ es, (∀ es' outcome', p.Makes es' outcome' ↔ es' = es ∧ outcome' = outcome) ∧
      ∀ es' outcome', (p.map Bounded.val).Makes es' outcome' ↔
        es' = es ∧ outcome' = outcome.map (List.map Bounded.val)

variable {configuration : Configuration}

/-- On every problem over bounded rationals that can be built, the method overflows, or it does what
it does exactly. -/
theorem twoPhase_overflows_or_exact (hp : p.Reachable)
    (hmethod : configuration.method = .primalSimplex) (hpresolve : configuration.presolve = false)
    (fuel : ℕ) :
    (twoPhase fuel p configuration).outcome = .error (.fault .overflow) ∨
      p.EndsAsExact configuration fuel := by
  rcases twoPhase_agrees Bounded.refines_val hmethod hpresolve fuel p with hover | hmap
  · exact Or.inl hover
  · refine Or.inr ⟨hmap, fun fault hfault => ?_, fun outcome houtcome => ?_⟩
    · -- a fault here would be one of the exact run, and that has none
      have hexact := hp.wellFormed.map Bounded.val
      rw [hfault] at hmap
      exact (hexact.failsOrderly configuration fuel).no_fault fault hmap.symm
    · obtain ⟨es, hes⟩ := exists_makes hmethod hpresolve houtcome
      exact ⟨es, fun _ _ => hes.makes_iff, fun _ _ => (hes.map Bounded.refines_val).makes_iff⟩

/-- As large as possible, but at most one. -/
def capped (w : Width) : Problem (Bounded w) where
  objective := .maximize
  cost := [Bounded.one]
  variableBounds := [⟨none, some Bounded.one⟩]

theorem reachable_capped (w : Width) : (capped w).Reachable :=
  .edit (.setCost 0 Bounded.one false)
    (.edit (.addVariable ⟨none, some Bounded.one⟩) (.empty .maximize))

theorem twoPhase_overflows_or_exact_capped : (capped .w32).EndsAsExact {} 2 :=
  (twoPhase_overflows_or_exact (reachable_capped .w32) rfl rfl 2).resolve_left (by decide +kernel)

/-- The least word has no negative, so the cost of a maximisation can overflow. -/
example : (twoPhase 2
    (⟨.maximize, true, [⟨-2147483648, by decide, by decide⟩], [.nonnegative], [], [], ∅, false⟩ :
      Problem (Bounded .w32)) {}).outcome = .error (.fault .overflow) := by
  decide +kernel

end LinearOpt.Problem
