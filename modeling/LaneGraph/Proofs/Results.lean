import Mathlib.Data.List.Forall2

/-!
# Results of computations

A sequence of computations succeeds if each of its parts does, and what a list of
computations gives is what the single ones give.
-/

namespace LaneGraph

variable {ε α β : Type}

/-- A computation that succeeds is one whose first part does. -/
theorem bind_eq_ok {x : Except ε α} {f : α → Except ε β} {b : β} :
    (x >>= f) = .ok b ↔ ∃ a, x = .ok a ∧ f a = .ok b := by
  cases x with
  | error e => exact ⟨fun h => (nomatch h), fun ⟨_, h, _⟩ => (nomatch h)⟩
  | ok a =>
    exact ⟨fun h => ⟨a, rfl, h⟩, fun ⟨_, h, hf⟩ => by cases h; exact hf⟩

variable {f : α → Except ε β} {xs : List α} {ys : List β}

/-- Computations for a list succeed with the results of the single ones. -/
theorem mapM_eq_ok_iff :
    xs.mapM f = .ok ys ↔ List.Forall₂ (fun x y => f x = .ok y) xs ys := by
  induction xs generalizing ys with
  | nil =>
    rw [List.forall₂_nil_left_iff]
    exact ⟨fun h => by cases h; rfl, fun h => by rw [h]; rfl⟩
  | cons x xs ih =>
    rw [List.mapM_cons, List.forall₂_cons_left_iff, bind_eq_ok]
    constructor
    · rintro ⟨y, hy, h⟩
      obtain ⟨rest, hrest, h⟩ := bind_eq_ok.mp h
      cases h
      exact ⟨y, rest, hy, ih.mp hrest, rfl⟩
    · rintro ⟨y, rest, hy, hrest, rfl⟩
      exact ⟨y, hy, bind_eq_ok.mpr ⟨rest, ih.mpr hrest, rfl⟩⟩

/-- Where computations for a list all succeed, each of them does. -/
theorem mapM_eq_ok_get (h : xs.mapM f = .ok ys) {k : Nat} {x : α} (hx : xs[k]? = some x) :
    ∃ y, f x = .ok y ∧ ys[k]? = some y := by
  have hall := mapM_eq_ok_iff.mp h
  obtain ⟨hk, rfl⟩ := List.getElem?_eq_some_iff.mp hx
  have hk' : k < ys.length := hall.length_eq ▸ hk
  exact ⟨ys[k], hall.get hk hk', List.getElem?_eq_getElem hk'⟩

/-- As many results as computations. -/
theorem length_of_mapM_eq_ok (h : xs.mapM f = .ok ys) : ys.length = xs.length :=
  (mapM_eq_ok_iff.mp h).length_eq.symm

/-- A list of questions that all have answers has a list of answers. -/
theorem mapM_total (h : ∀ x ∈ xs, ∃ y, f x = .ok y) : ∃ ys, xs.mapM f = .ok ys := by
  induction xs with
  | nil => exact ⟨[], rfl⟩
  | cons x xs ih =>
    obtain ⟨y, hy⟩ := h x List.mem_cons_self
    obtain ⟨ys, hys⟩ := ih fun z hz => h z (List.mem_cons_of_mem _ hz)
    exact ⟨y :: ys, mapM_eq_ok_iff.mpr (.cons hy (mapM_eq_ok_iff.mp hys))⟩

/-- Computations that agree for every element of a list agree for the list. -/
theorem mapM_congr_of_mem {m : Type → Type} [Monad m] [LawfulMonad m] {f f' : α → m β}
    (h : ∀ x ∈ xs, f x = f' x) : xs.mapM f = xs.mapM f' := by
  induction xs with
  | nil => rfl
  | cons x rest ih =>
    rw [List.mapM_cons, List.mapM_cons, h x List.mem_cons_self,
      ih fun y hy => h y (List.mem_cons_of_mem _ hy)]

/-- A computation gives a result with a property, or fails for a cause with a property. -/
structure Returns (cause : ε → Prop) (post : α → Prop) (x : Except ε α) : Prop where
  ok : ∀ a, x = .ok a → post a
  error : ∀ e, x = .error e → cause e

namespace Returns

variable {cause : ε → Prop} {post : α → Prop} {post' : β → Prop}

/-- A result. -/
theorem of_ok {a : α} (h : post a) : Returns cause post (.ok a) where
  ok _ heq := by
    cases heq
    exact h
  error _ heq := (nomatch heq)

/-- A failure. -/
theorem of_error {e : ε} (h : cause e) : Returns cause post (.error e) where
  ok _ heq := (nomatch heq)
  error _ heq := by
    cases heq
    exact h

/-- Nothing is asked of the result. -/
theorem of_cause {x : Except ε α} (h : ∀ e, x = .error e → cause e) :
    Returns cause (fun _ => True) x := ⟨fun _ _ => trivial, h⟩

/-- A computation that goes on with its result. -/
theorem bind {x : Except ε α} {f : α → Except ε β} (hx : Returns cause post x)
    (hf : ∀ a, post a → Returns cause post' (f a)) : Returns cause post' (x >>= f) := by
  cases x with
  | error e => exact of_error (hx.error e rfl)
  | ok a => exact hf a (hx.ok a rfl)

/-- Less may be asked of the cause. -/
theorem mono {x : Except ε α} {weaker : ε → Prop} (h : Returns cause post x)
    (himp : ∀ e, cause e → weaker e) : Returns weaker post x :=
  ⟨h.ok, fun e he => himp e (h.error e he)⟩

/-- Computations for the entries of a list. -/
theorem mapM (hf : ∀ x ∈ xs, Returns cause (fun _ => True) (f x)) :
    Returns cause (fun _ => True) (xs.mapM f) := by
  induction xs with
  | nil => exact of_ok trivial
  | cons x rest ih =>
    rw [List.mapM_cons]
    exact (hf x List.mem_cons_self).bind fun _ _ =>
      (ih fun y hy => hf y (List.mem_cons_of_mem _ hy)).bind fun _ _ => of_ok trivial

end Returns

end LaneGraph
