import LinearOpt.Logged
import Mathlib.Data.List.Forall2
import Mathlib.Data.List.OfFn

/-!
# Computations that succeed

What a `do` block over `Except` or `Logged` comes to when its parts succeed.  A proof about an
operation states the value that the operation returns, `x = .ok a`, and these lemmas carry such
equations through the binds, the lifts and the traversals of the code.

* `ok_bind`, `pure_eq_ok` and `liftM_ok` are the steps of a block.
* `require_eq_ok`, `fetch_eq_ok` and `update_eq_ok` are the three ways to fault.
* `mapM_eq_ok`, `mapM_ofFn`, `foldlM_eq_ok` and `forM_eq_ok` are the loops.
* `forall₂_of_mapM` and `foldlM_induct` go the other way, from a loop that succeeds to its steps,
  and `mapM_cases` is for a loop that may fail.
* `update_ofFn` and the like are for lists of the values of a function on a finite range.
* `Logged.outcome_bind` forgets the events of a logged computation, so that its outcome is again a
  block over `Except`.

`Alike` compares two computations: both return related values, or both fail in the same way.
-/

namespace LinearOpt

variable {α β γ ε : Type}

/-! ## Blocks -/

@[simp] theorem ok_bind (a : α) (f : α → Except ε β) : (Except.ok a >>= f) = f a := rfl

@[simp] theorem error_bind (e : ε) (f : α → Except ε β) :
    (Except.error e >>= f) = Except.error e := rfl

@[simp] theorem pure_eq_ok (a : α) : (pure a : Except ε α) = .ok a := rfl

@[simp] theorem liftM_ok (a : α) :
    (liftM (Except.ok a : Except Fault α) : Except Failure α) = .ok a := rfl

@[simp] theorem liftM_ok_refusal (a : α) :
    (liftM (Except.ok a : Except ProblemError α) : Except Failure α) = .ok a := rfl

/-- A block that succeeds does so through its first part. -/
theorem bind_eq_ok {x : Except ε α} {f : α → Except ε β} {b : β} :
    (x >>= f) = .ok b ↔ ∃ a, x = .ok a ∧ f a = .ok b := by
  cases x with
  | ok a => simp
  | error e => simp

theorem liftM_eq_ok {x : Except Fault α} {a : α} :
    (liftM x : Except Failure α) = .ok a ↔ x = .ok a := by
  cases x with
  | ok b => simp
  | error e => exact ⟨nofun, nofun⟩

/-! ## The three ways to fault -/

@[simp] theorem require_true : require true = .ok () := rfl

theorem require_eq_ok {condition : Bool} (h : condition = true) : require condition = .ok () := by
  rw [h, require_true]

theorem eq_true_of_require {condition : Bool} {a : Unit} (h : require condition = .ok a) :
    condition = true := by
  cases condition with
  | true => rfl
  | false => cases h

theorem fetch_eq_ok {xs : List α} {i : Nat} {x : α} (h : xs[i]? = some x) :
    fetch xs i = .ok x := by
  rw [fetch, h]

theorem fetch_eq_ok_iff {xs : List α} {i : Nat} {x : α} :
    fetch xs i = .ok x ↔ xs[i]? = some x := by
  unfold fetch
  cases xs[i]? with
  | none => simp
  | some y => simp

theorem lt_length_of_fetch {xs : List α} {i : Nat} {x : α} (h : fetch xs i = .ok x) :
    i < xs.length :=
  (List.getElem?_eq_some_iff.mp (fetch_eq_ok_iff.mp h)).1

theorem update_eq_ok {xs : List α} {i : Nat} {f : α → Except Fault α} {x y : α}
    (hx : xs[i]? = some x) (hf : f x = .ok y) : update xs i f = .ok (xs.set i y) := by
  rw [update, fetch_eq_ok hx]
  simp [hf]

theorem exists_of_update {xs ys : List α} {i : Nat} {f : α → Except Fault α}
    (h : update xs i f = .ok ys) : ∃ x y, xs[i]? = some x ∧ f x = .ok y ∧ ys = xs.set i y := by
  obtain ⟨x, hx, h⟩ := bind_eq_ok.mp h
  obtain ⟨y, hy, h⟩ := bind_eq_ok.mp h
  cases h
  exact ⟨x, y, fetch_eq_ok_iff.mp hx, hy, rfl⟩

theorem length_update {xs ys : List α} {i : Nat} {f : α → Except Fault α}
    (h : update xs i f = .ok ys) : ys.length = xs.length := by
  obtain ⟨x, y, -, -, rfl⟩ := exists_of_update h
  exact List.length_set

/-! ## Loops -/

/-- A traversal whose steps all succeed is a `map`. -/
theorem mapM_eq_ok {f : α → Except ε β} {g : α → β} {xs : List α}
    (h : ∀ x ∈ xs, f x = .ok (g x)) : xs.mapM f = .ok (xs.map g) := by
  induction xs with
  | nil => rfl
  | cons x xs ih =>
    rw [List.mapM_cons, h x (by simp), ih fun y hy => h y (by simp [hy])]
    rfl

/-- The same for the values of a function on a finite range. -/
theorem mapM_ofFn {n : ℕ} {f : α → Except ε β} {x : Fin n → α} {y : Fin n → β}
    (h : ∀ i, f (x i) = .ok (y i)) : (List.ofFn x).mapM f = .ok (List.ofFn y) := by
  induction n with
  | zero => rfl
  | succ n ih =>
    rw [List.ofFn_succ, List.ofFn_succ, List.mapM_cons, h 0, ih fun i => h i.succ]
    rfl

/-- A loop whose steps all succeed is a `foldl`. -/
theorem foldlM_eq_ok {f : β → α → Except ε β} {g : β → α → β} {xs : List α} (b : β)
    (h : ∀ b, ∀ x ∈ xs, f b x = .ok (g b x)) : xs.foldlM f b = .ok (xs.foldl g b) := by
  induction xs generalizing b with
  | nil => rfl
  | cons x xs ih =>
    rw [List.foldlM_cons, h b x (by simp), ok_bind, List.foldl_cons]
    exact ih (g b x) fun b y hy => h b y (by simp [hy])

/-- A traversal that succeeds has done so at each element. -/
theorem forall₂_of_mapM {f : α → Except ε β} {xs : List α} {ys : List β}
    (h : xs.mapM f = .ok ys) : List.Forall₂ (fun x y => f x = .ok y) xs ys := by
  induction xs generalizing ys with
  | nil =>
    cases h
    exact .nil
  | cons x xs ih =>
    rw [List.mapM_cons] at h
    obtain ⟨y, hy, h⟩ := bind_eq_ok.mp h
    obtain ⟨ys, hys, h⟩ := bind_eq_ok.mp h
    cases h
    exact .cons hy (ih hys)

/-- Each result of a traversal is that of an element. -/
theorem exists_of_mem_mapM {f : α → Except ε β} {xs : List α} {ys : List β}
    (h : xs.mapM f = .ok ys) {y : β} (hy : y ∈ ys) : ∃ x ∈ xs, f x = .ok y := by
  have hall := forall₂_of_mapM h
  obtain ⟨k, rfl⟩ := List.mem_iff_get.mp hy
  have hk : k.val < xs.length := k.isLt.trans_eq hall.length_eq.symm
  exact ⟨xs.get ⟨k, hk⟩, List.get_mem xs _, hall.get hk k.isLt⟩

/-- A traversal succeeds at every element, or it fails as it does at one of them. -/
theorem mapM_cases (f : α → Except ε β) (xs : List α) :
    (∀ x ∈ xs, ∃ y, f x = .ok y) ∨ ∃ x ∈ xs, ∃ e, f x = .error e ∧ xs.mapM f = .error e := by
  induction xs with
  | nil => exact Or.inl nofun
  | cons x xs ih =>
    rw [List.mapM_cons]
    cases hx : f x with
    | error e => exact Or.inr ⟨x, List.mem_cons_self, e, hx, rfl⟩
    | ok y =>
      rcases ih with hall | ⟨x', hx', e, herror, hrun⟩
      · exact Or.inl (List.forall_mem_cons.mpr ⟨⟨y, hx⟩, hall⟩)
      · refine Or.inr ⟨x', List.mem_cons_of_mem x hx', e, herror, ?_⟩
        rw [ok_bind, hrun, error_bind]

theorem isSome_of_mapM {f : α → Except ε β} {x : Option α} {y : Option β}
    (h : x.mapM f = .ok y) : y.isSome = x.isSome := by
  cases x with
  | none =>
    cases h
    rfl
  | some a =>
    obtain ⟨b, -, h⟩ := bind_eq_ok.mp h
    cases h
    rfl

/-- A loop that succeeds keeps what each of its steps keeps. -/
theorem foldlM_induct {P : β → Prop} {f : β → α → Except ε β} {xs : List α} {b c : β} (hb : P b)
    (hstep : ∀ b, ∀ x ∈ xs, ∀ c, P b → f b x = .ok c → P c) (h : xs.foldlM f b = .ok c) :
    P c := by
  induction xs generalizing b with
  | nil =>
    cases h
    exact hb
  | cons x xs ih =>
    rw [List.foldlM_cons] at h
    obtain ⟨next, hnext, h⟩ := bind_eq_ok.mp h
    refine ih (hstep b x List.mem_cons_self next hb hnext) (fun b y hy => ?_) h
    exact hstep b y (List.mem_cons_of_mem x hy)

/-- A loop of checks that all succeed. -/
theorem forM_eq_ok {f : α → Except ε Unit} {xs : List α} (h : ∀ x ∈ xs, f x = .ok ()) :
    xs.forM f = .ok () := by
  induction xs with
  | nil => rfl
  | cons x xs ih =>
    rw [List.forM_eq_forM, List.forM_cons, h x List.mem_cons_self, ok_bind, ← List.forM_eq_forM]
    exact ih fun y hy => h y (List.mem_cons_of_mem x hy)

/-- A list is the list of the values of a function. -/
theorem exists_eq_ofFn {n : ℕ} {xs : List α} (h : xs.length = n) :
    ∃ x : Fin n → α, xs = List.ofFn x := by
  subst h
  exact ⟨xs.get, (List.ofFn_get xs).symm⟩

theorem range_eq_ofFn (n : ℕ) : List.range n = List.ofFn fun i : Fin n => i.val := by
  apply List.ext_getElem
  · simp
  · intro i hi _
    simp

theorem zipIdx_ofFn {n : ℕ} (x : Fin n → α) :
    (List.ofFn x).zipIdx = List.ofFn fun i : Fin n => (x i, i.val) := by
  apply List.ext_getElem
  · simp
  · intro i hi _
    simp

theorem zip_ofFn {n : ℕ} (x : Fin n → α) (y : Fin n → β) :
    (List.ofFn x).zip (List.ofFn y) = List.ofFn fun i => (x i, y i) := by
  apply List.ext_getElem
  · simp
  · intro i hi _
    simp

theorem getElem?_ofFn_eq_some_iff {n : ℕ} {x : Fin n → α} {k : ℕ} {a : α} :
    (List.ofFn x)[k]? = some a ↔ ∃ i : Fin n, i.val = k ∧ x i = a := by
  rw [List.getElem?_eq_some_iff]
  constructor
  · intro h
    obtain ⟨hk, ha⟩ := h
    rw [List.length_ofFn] at hk
    exact ⟨⟨k, hk⟩, rfl, by simpa using ha⟩
  · intro h
    obtain ⟨i, rfl, rfl⟩ := h
    exact ⟨by simp, by simp⟩

theorem getElem?_ofFn_val {n : ℕ} (x : Fin n → α) (i : Fin n) :
    (List.ofFn x)[i.val]? = some (x i) :=
  getElem?_ofFn_eq_some_iff.mpr ⟨i, rfl, rfl⟩

theorem update_ofFn {n : ℕ} {x : Fin n → α} {i : Fin n} {f : α → Except Fault α} {y : α}
    (h : f (x i) = .ok y) :
    update (List.ofFn x) i f = .ok (List.ofFn (Function.update x i y)) := by
  rw [update_eq_ok (getElem?_ofFn_val x i) h]
  congr 1
  apply List.ext_getElem
  · simp
  · intro k hk _
    rw [List.getElem_set, List.getElem_ofFn, List.getElem_ofFn, Function.update_apply]
    simp only [Fin.ext_iff, eq_comm]

/-! ## Two computations -/

/-- Both computations return, and what they return is related, or both fail in the same way. -/
inductive Alike (R : α → β → Prop) : Except ε α → Except ε β → Prop
  | ok {a : α} {b : β} (h : R a b) : Alike R (.ok a) (.ok b)
  | error (e : ε) : Alike R (.error e) (.error e)

namespace Alike

variable {α' β' : Type} {R : α → β → Prop} {S : α' → β' → Prop}

theorem bind {x : Except ε α} {y : Except ε β} {f : α → Except ε α'} {g : β → Except ε β'}
    (h : Alike R x y) (hfg : ∀ a b, R a b → Alike S (f a) (g b)) :
    Alike S (x >>= f) (y >>= g) := by
  cases h with
  | ok h => exact hfg _ _ h
  | error e => exact .error e

/-- The two blocks have their first part in common. -/
theorem bind_same {x : Except ε γ} {f : γ → Except ε α'} {g : γ → Except ε β'}
    (hfg : ∀ c, x = .ok c → Alike S (f c) (g c)) : Alike S (x >>= f) (x >>= g) := by
  cases hx : x with
  | ok c => exact hfg c hx
  | error e => exact .error e

theorem lift {x : Except Fault α} {y : Except Fault β} (h : Alike R x y) :
    Alike R (liftM x : Except Failure α) (liftM y) := by
  cases h with
  | ok h => exact .ok h
  | error e => exact .error _

/-- What the first computation returns has its counterpart. -/
theorem exists_of_ok {a : α} {y : Except ε β} (h : Alike R (.ok a : Except ε α) y) :
    ∃ b, y = .ok b ∧ R a b := by
  cases h with
  | ok h => exact ⟨_, rfl, h⟩

end Alike

namespace Logged

variable {F : Type}

@[simp] theorem outcome_pure (a : α) : (pure a : Logged F α).outcome = .ok a := rfl

@[simp] theorem outcome_report (event : Event F) : (report event).outcome = .ok () := rfl

@[simp] theorem outcome_liftM (x : Except Failure α) : (liftM x : Logged F α).outcome = x := rfl

@[simp] theorem outcome_liftM_ok (a : α) :
    (liftM (Except.ok a : Except Fault α) : Logged F α).outcome = .ok a := rfl

/-- The outcome of a block does not depend on the events. -/
@[simp] theorem outcome_bind (x : Logged F α) (f : α → Logged F β) :
    (x >>= f).outcome = x.outcome >>= fun a => (f a).outcome := by
  cases hx : x.outcome with
  | ok a => rw [bind_of_ok hx, ok_bind]
  | error e => rw [bind_of_error hx, error_bind]

end Logged

end LinearOpt
