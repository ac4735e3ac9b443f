import LinearOpt.Proofs.Computation

/-!
# Agreement up to overflow

The same code run over two number types.  The first run may overflow.  Otherwise both end in the
same way, and what the second one returns is the image of what the first one returns: `Agrees`.

* `Agrees.bind`, `Agrees.mapM`, `Agrees.foldlM`, `Agrees.update` and the like carry agreement
  through the blocks and loops of the code, one rule for each form.
* `Refines` says that a number type agrees with another one in its operations, and decides as it
  does. `Refines.sumProducts` and `Refines.dot` are the two sums.
* `map_bind`, `map_update` and `map_foldlM` are for code without arithmetic, which cannot overflow.
-/

namespace LinearOpt

variable {α α' β β' ε : Type}

/-! ## Code without arithmetic -/

theorem map_bind {x : Except ε α} {y : Except ε α'} {k : α → Except ε β} {k' : α' → Except ε β'}
    {f : α → α'} {g : β → β'} (hx : x.map f = y) (hk : ∀ a, (k a).map g = k' (f a)) :
    (x >>= k).map g = y >>= k' := by
  subst hx
  cases x with
  | ok a => exact hk a
  | error e => rfl

theorem map_bind_same {x : Except ε α} {k : α → Except ε β} {k' : α → Except ε β'} {g : β → β'}
    (hk : ∀ a, (k a).map g = k' a) : (x >>= k).map g = x >>= k' := by
  cases x with
  | ok a => exact hk a
  | error e => rfl

theorem map_lift (f : α → α') (x : Except Fault α) :
    (liftM x : Except Failure α).map f = liftM (x.map f) := by
  cases x <;> rfl

theorem map_fetch (f : α → α') (xs : List α) (i : ℕ) :
    (fetch xs i).map f = fetch (xs.map f) i := by
  unfold fetch
  rw [List.getElem?_map]
  cases xs[i]? <;> rfl

theorem map_update {s : α → Except Fault α} {s' : α' → Except Fault α'} {f : α → α'}
    (h : ∀ x, (s x).map f = s' (f x)) (xs : List α) (i : ℕ) :
    (update xs i s).map (List.map f) = update (xs.map f) i s' := by
  unfold update
  refine map_bind (map_fetch f xs i) fun x => map_bind (h x) fun y => ?_
  rw [← List.map_set]
  rfl

theorem map_foldlM {s : β → α → Except ε β} {s' : β' → α' → Except ε β'} {f : α → α'}
    {g : β → β'} (h : ∀ b x, (s b x).map g = s' (g b) (f x)) (xs : List α) (b : β) :
    (xs.foldlM s b).map g = (xs.map f).foldlM s' (g b) := by
  induction xs generalizing b with
  | nil => rfl
  | cons x xs ih =>
    rw [List.foldlM_cons, List.map_cons, List.foldlM_cons]
    exact map_bind (h b x) ih

/-! ## Agreement -/

/-- Kinds of errors, one of which is an overflow. -/
class Overflowing (ε : Type) where
  overflow : ε

instance : Overflowing Fault := ⟨.overflow⟩

instance : Overflowing Failure := ⟨.fault .overflow⟩

/-- The first computation overflows, or it ends as the second one does, and its value is mapped to
that of the second one. -/
def Agrees [Overflowing ε] (f : α → α') (x : Except ε α) (y : Except ε α') : Prop :=
  x = .error Overflowing.overflow ∨ x.map f = y

namespace Agrees

section Blocks

variable [Overflowing ε] {f : α → α'} {g : β → β'} {x : Except ε α} {y : Except ε α'}

theorem of_map (h : x.map f = y) : Agrees f x y := Or.inr h

theorem ok {a : α} {a' : α'} (h : f a = a') : Agrees f (.ok a : Except ε α) (.ok a') :=
  Or.inr (congrArg Except.ok h)

theorem error (e : ε) : Agrees f (.error e) (.error e) := Or.inr rfl

theorem refl (x : Except ε α) : Agrees id x x := by
  cases x with
  | ok a => exact ok rfl
  | error e => exact error e

/-- What the first computation returns, the second one returns too. -/
theorem eq_ok (h : Agrees f x y) {a : α} (hx : x = .ok a) : y = .ok (f a) := by
  subst hx
  rcases h with h | h
  · cases h
  · exact h.symm

theorem bind {k : α → Except ε β} {k' : α' → Except ε β'} (h : Agrees f x y)
    (hk : ∀ a, Agrees g (k a) (k' (f a))) : Agrees g (x >>= k) (y >>= k') := by
  rcases h with rfl | rfl
  · exact Or.inl rfl
  · cases x with
    | ok a => exact hk a
    | error e => exact error e

/-- A block whose last part is a plain value. -/
theorem map {k : α → β} {k' : α' → β'} (h : Agrees f x y) (hk : ∀ a, g (k a) = k' (f a)) :
    Agrees g (x >>= fun a => pure (k a)) (y >>= fun a => pure (k' a)) :=
  h.bind fun a => ok (hk a)

end Blocks

section Loops

variable [Overflowing ε] {f : α → α'} {g : β → β'}

theorem mapM {s : α → Except ε β} {s' : α' → Except ε β'} {xs : List α} {ys : List α'}
    (hys : ys = xs.map f) (h : ∀ x, Agrees g (s x) (s' (f x))) :
    Agrees (List.map g) (xs.mapM s) (ys.mapM s') := by
  subst hys
  induction xs with
  | nil => exact ok rfl
  | cons x xs ih =>
    rw [List.mapM_cons, List.map_cons, List.mapM_cons]
    exact (h x).bind fun y => ih.map fun ys => rfl

theorem foldlM {s : β → α → Except ε β} {s' : β' → α' → Except ε β'} {xs : List α} {ys : List α'}
    (hys : ys = xs.map f) (h : ∀ b x, Agrees g (s b x) (s' (g b) (f x))) (b : β) :
    Agrees g (xs.foldlM s b) (ys.foldlM s' (g b)) := by
  subst hys
  induction xs generalizing b with
  | nil => exact ok rfl
  | cons x xs ih =>
    rw [List.foldlM_cons, List.map_cons, List.foldlM_cons]
    exact (h b x).bind ih

theorem option_mapM {s : α → Except ε β} {s' : α' → Except ε β'} (o : Option α)
    (h : ∀ x, Agrees g (s x) (s' (f x))) :
    Agrees (Option.map g) (o.mapM s) ((o.map f).mapM s') := by
  cases o with
  | none => exact ok rfl
  | some x => exact (h x).map fun y => rfl

end Loops

theorem require {condition condition' : Bool} (h : condition' = condition) :
    Agrees id (require condition) (LinearOpt.require condition') := by
  rw [h]
  exact refl _

theorem fetch (f : α → α') (xs : List α) (i : ℕ) :
    Agrees f (fetch xs i) (LinearOpt.fetch (xs.map f) i) :=
  Or.inr (map_fetch f xs i)

theorem update {s : α → Except Fault α} {s' : α' → Except Fault α'} {f : α → α'}
    (h : ∀ x, Agrees f (s x) (s' (f x))) (xs : List α) (i : ℕ) :
    Agrees (List.map f) (update xs i s) (LinearOpt.update (xs.map f) i s') :=
  (fetch f xs i).bind fun x => (h x).map fun _ => List.map_set

/-- A faulty computation overflows in the operation that it is part of. -/
theorem lift {f : α → α'} {x : Except Fault α} {y : Except Fault α'} (h : Agrees f x y) :
    Agrees f (liftM x : Except Failure α) (liftM y : Except Failure α') := by
  rcases h with rfl | rfl
  · exact Or.inl rfl
  · exact of_map (map_lift f x)

section Logs

variable {F G : Type} {f : α → α'} {g : β → β'}

theorem logged_bind {x : Logged F α} {y : Logged G α'} {k : α → Logged F β} {k' : α' → Logged G β'}
    (h : Agrees f x.outcome y.outcome) (hk : ∀ a, Agrees g (k a).outcome (k' (f a)).outcome) :
    Agrees g (x >>= k).outcome (y >>= k').outcome := by
  rw [Logged.outcome_bind, Logged.outcome_bind]
  exact h.bind hk

theorem logged_lift {x : Except Fault α} {y : Except Fault α'} (h : Agrees f x y) :
    Agrees f (liftM x : Logged F α).outcome (liftM y : Logged G α').outcome :=
  h.lift

end Logs

end Agrees

/-! ## Number types that agree -/

/-- The map `v` keeps zero and one and all decisions, and the operations agree with their images.
Negative one does not overflow. -/
structure Refines {F G : Type} [Scalar F] [Scalar G] (v : F → G) : Prop where
  zero_eq : v Scalar.zero = Scalar.zero
  one_eq : v Scalar.one = Scalar.one
  add (x y : F) : Agrees v (Scalar.add x y) (Scalar.add (v x) (v y))
  sub (x y : F) : Agrees v (Scalar.sub x y) (Scalar.sub (v x) (v y))
  mul (x y : F) : Agrees v (Scalar.mul x y) (Scalar.mul (v x) (v y))
  div (x y : F) : Agrees v (Scalar.div x y) (Scalar.div (v x) (v y))
  neg (x : F) : Agrees v (Scalar.neg x) (Scalar.neg (v x))
  neg_one : (Scalar.neg Scalar.one).map v = Scalar.neg Scalar.one
  lt_eq (x y : F) : Scalar.lt (v x) (v y) = Scalar.lt x y
  eq_eq (x y : F) : Scalar.eq (v x) (v y) = Scalar.eq x y

namespace Refines

variable {F G : Type} [Scalar F] [Scalar G] {v : F → G} (hv : Refines v)

include hv

theorem isZero_eq (x : F) : Scalar.isZero (v x) = Scalar.isZero x := by
  rw [Scalar.isZero, ← hv.zero_eq, hv.eq_eq, Scalar.isZero]

theorem lt_zero_eq (x : F) : Scalar.lt (v x) Scalar.zero = Scalar.lt x Scalar.zero := by
  rw [← hv.zero_eq, hv.lt_eq]

theorem zero_lt_eq (x : F) : Scalar.lt Scalar.zero (v x) = Scalar.lt Scalar.zero x := by
  rw [← hv.zero_eq, hv.lt_eq]

theorem nonzero_eq (x : F) : Scalar.nonzero (v x) = Scalar.nonzero x := by
  rw [Scalar.nonzero, hv.lt_zero_eq, hv.zero_lt_eq, Scalar.nonzero]

theorem sumProducts {pairs : List (F × F)} {images : List (G × G)}
    (h : images = pairs.map (Prod.map v v)) :
    Agrees v (Scalar.sumProducts pairs) (Scalar.sumProducts images) := by
  unfold Scalar.sumProducts
  rw [← hv.zero_eq]
  refine .foldlM h (fun total pair => ?_) _
  exact (hv.mul pair.1 pair.2).bind (hv.add total)

theorem dot (left right : List F) :
    Agrees v (Scalar.dot left right) (Scalar.dot (left.map v) (right.map v)) := by
  refine (Agrees.require ?_).bind fun _ => hv.sumProducts ?_
  · rw [List.length_map, List.length_map]
  · rw [List.zip_map]

end Refines

end LinearOpt
