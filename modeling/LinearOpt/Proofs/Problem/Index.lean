import LinearOpt.Proofs.Computation
import LinearOpt.Problem.Edit
import Mathlib.Data.List.Nodup

/-!
# The index of the coefficients

A problem stores its coefficients in a list and finds them through an index.  `Indexes` says that an
index is that of a list of keys: it maps each key to its position, and nothing else.  So the keys of
an indexed list are distinct (`Indexes.nodup`).

* `insert_of_not_mem` and `insertAll` append coefficients with new keys.
* `insert_cases` is what any insertion does.

Nothing here depends on the number type.
-/

namespace LinearOpt

variable {F : Type}

/-- What a coefficient is found by. -/
def Entry.key (e : Entry F) : ℕ × ℕ := (e.row, e.column)

structure Indexes (index : Std.HashMap (ℕ × ℕ) ℕ) (keys : List (ℕ × ℕ)) : Prop where
  getElem?_iff : ∀ (key : ℕ × ℕ) (k : ℕ), index[key]? = some k ↔ keys[k]? = some key
  size_eq : index.size = keys.length

namespace Indexes

variable {index : Std.HashMap (ℕ × ℕ) ℕ} {keys : List (ℕ × ℕ)}

theorem empty : Indexes ∅ [] where
  getElem?_iff key k := by simp
  size_eq := rfl

theorem getElem?_eq_none_iff (h : Indexes index keys) {key : ℕ × ℕ} :
    index[key]? = none ↔ key ∉ keys := by
  constructor
  · intro hnone hmem
    obtain ⟨k, hk⟩ := List.mem_iff_getElem?.mp hmem
    rw [(h.getElem?_iff key k).mpr hk] at hnone
    cases hnone
  · intro hmem
    cases hsome : index[key]? with
    | none => rfl
    | some k =>
      exact absurd (List.mem_iff_getElem?.mpr ⟨k, (h.getElem?_iff key k).mp hsome⟩) hmem

/-- A key that occurred twice would have two positions. -/
theorem nodup (h : Indexes index keys) : keys.Nodup := by
  rw [List.nodup_iff_injective_get]
  intro i k hik
  have hi := (h.getElem?_iff (keys.get i) i).mpr (List.getElem?_eq_getElem i.isLt)
  have hk := (h.getElem?_iff (keys.get i) k).mpr (by
    rw [hik]
    exact List.getElem?_eq_getElem k.isLt)
  rw [hi] at hk
  exact Fin.ext (Option.some.inj hk)

theorem insert (h : Indexes index keys) {key : ℕ × ℕ} (hkey : key ∉ keys) :
    Indexes (index.insert key keys.length) (keys ++ [key]) where
  getElem?_iff other k := by
    rw [Std.HashMap.getElem?_insert]
    by_cases hother : key = other
    · subst hother
      rw [beq_self_eq_true, if_pos rfl, Option.some.injEq]
      constructor
      · rintro rfl
        exact List.getElem?_concat_length
      · intro hk
        rcases Nat.lt_trichotomy k keys.length with hlt | heq | hgt
        · rw [List.getElem?_append_left hlt] at hk
          exact absurd (List.mem_of_getElem? hk) hkey
        · exact heq.symm
        · rw [List.getElem?_eq_none (by rw [List.length_append, List.length_singleton]; omega)] at hk
          cases hk
    · rw [if_neg (by simpa using hother), h.getElem?_iff]
      rcases Nat.lt_trichotomy k keys.length with hlt | heq | hgt
      · rw [List.getElem?_append_left hlt]
      · subst heq
        rw [List.getElem?_concat_length, List.getElem?_eq_none (le_refl _)]
        simp [hother]
      · rw [List.getElem?_eq_none (by omega),
          List.getElem?_eq_none (by rw [List.length_append, List.length_singleton]; omega)]
  size_eq := by
    have hnone := h.getElem?_eq_none_iff.mpr hkey
    have hcontains : key ∉ index := by
      intro hmem
      rw [Std.HashMap.getElem?_eq_some_getElem hmem] at hnone
      cases hnone
    rw [Std.HashMap.size_insert, if_neg hcontains, h.size_eq, List.length_append,
      List.length_singleton]

end Indexes

namespace Problem

def keys (p : Problem F) : List (ℕ × ℕ) := p.entries.map Entry.key

/-- The index is that of the coefficients. -/
def Indexed (p : Problem F) : Prop := Indexes p.index p.keys

variable {p : Problem F}

/-- A traversal of the coefficients that keeps their keys. -/
theorem keys_of_mapM {f : Entry F → Except Fault (Entry F)} {es : List (Entry F)}
    (hf : ∀ e e', f e = .ok e' → e'.key = e.key) (h : p.entries.mapM f = .ok es) :
    es.map Entry.key = p.keys := by
  have hkeys : List.Forall₂ (fun e e' => e'.key = e.key) p.entries es :=
    (forall₂_of_mapM h).imp hf
  unfold keys
  rw [← List.forall₂_eq_eq_eq, List.forall₂_map_left_iff, List.forall₂_map_right_iff]
  exact hkeys.flip

theorem indexed_append (hp : p.Indexed) {e : Entry F} (he : e.key ∉ p.keys) :
    Indexed { p with
      entries := p.entries ++ [e]
      index := p.index.insert e.key p.entries.length } := by
  have h := Indexes.insert hp he
  rw [keys, List.length_map] at h
  unfold Indexed keys
  rw [List.map_append]
  exact h

variable [Scalar F]

theorem insert_of_not_mem (hp : p.Indexed) {e : Entry F} (he : e.key ∉ p.keys)
    (accumulate : Bool) :
    p.insert e accumulate = .ok { p with
      entries := p.entries ++ [e]
      index := p.index.insert e.key p.entries.length } := by
  have hnone : p.index[(e.row, e.column)]? = none := hp.getElem?_eq_none_iff.mpr he
  unfold insert
  rw [hnone]
  rfl

/-- Coefficients with distinct new keys are appended in order. -/
theorem insertAll (hp : p.Indexed) (new : List (Entry F)) (hnodup : (new.map Entry.key).Nodup)
    (hnew : ∀ e ∈ new, e.key ∉ p.keys) :
    ∃ index, (new.foldlM (fun q e => q.insert e false) p) =
        .ok { p with entries := p.entries ++ new, index } ∧
      Indexed { p with entries := p.entries ++ new, index } := by
  induction new generalizing p with
  | nil =>
    refine ⟨p.index, ?_, ?_⟩
    · rw [List.append_nil]
      rfl
    · rw [List.append_nil]
      exact hp
  | cons e new ih =>
    rw [List.map_cons, List.nodup_cons] at hnodup
    have he := hnew e List.mem_cons_self
    have hrest : ∀ e' ∈ new, e'.key ∉ (p.entries ++ [e]).map Entry.key := by
      intro e' he' hmem
      rw [List.map_append, List.mem_append] at hmem
      rcases hmem with hold | hself
      · exact hnew e' (List.mem_cons_of_mem e he') hold
      · rw [List.map_singleton, List.mem_singleton] at hself
        rw [← hself] at hnodup
        exact hnodup.1 (List.mem_map_of_mem he')
    obtain ⟨index, hfold, hindexed⟩ := ih (indexed_append hp he) hnodup.2 hrest
    refine ⟨index, ?_, ?_⟩
    · rw [List.foldlM_cons, insert_of_not_mem hp he, ok_bind, hfold]
      simp only [List.append_assoc, List.singleton_append]
    · simpa only [List.append_assoc, List.singleton_append] using hindexed

/-- An insertion keeps the index right, and adds no key but that of the entry. -/
theorem insert_cases (hp : p.Indexed) {e : Entry F} {accumulate : Bool} {q : Problem F}
    (h : p.insert e accumulate = .ok q) :
    ∃ entries index, q = { p with entries, index } ∧ q.Indexed ∧
      ∀ key ∈ q.keys, key = e.key ∨ key ∈ p.keys := by
  by_cases he : e.key ∈ p.keys
  · obtain ⟨k, hk⟩ := List.mem_iff_getElem?.mp he
    have hindex : p.index[(e.row, e.column)]? = some k := (hp.getElem?_iff e.key k).mpr hk
    unfold insert at h
    rw [hindex] at h
    obtain ⟨entries, hentries, hq⟩ := bind_eq_ok.mp h
    obtain ⟨old, new, hold, hnew, rfl⟩ := exists_of_update hentries
    obtain ⟨value, -, hvalue⟩ := bind_eq_ok.mp hnew
    cases hvalue
    cases hq
    -- only a value was replaced, so the keys are the same
    have hkeys : (p.entries.set k { old with value := value }).map Entry.key = p.keys := by
      obtain ⟨hlt, hget⟩ := List.getElem?_eq_some_iff.mp hold
      have hlt' : k < (p.entries.map Entry.key).length := by simpa using hlt
      have hkey : Entry.key { old with value := value } = (p.entries.map Entry.key)[k] := by
        rw [List.getElem_map, hget]
        rfl
      rw [List.map_set, hkey, List.set_getElem_self]
      rfl
    refine ⟨_, p.index, rfl, ?_, ?_⟩
    · unfold Indexed keys
      rw [hkeys]
      exact hp
    · intro key hmem
      unfold keys at hmem
      rw [hkeys] at hmem
      exact Or.inr hmem
  · rw [insert_of_not_mem hp he] at h
    cases h
    refine ⟨_, _, rfl, indexed_append hp he, ?_⟩
    intro key hmem
    unfold keys at hmem
    rw [List.map_append, List.mem_append, List.map_singleton, List.mem_singleton] at hmem
    exact hmem.symm

end Problem

end LinearOpt
