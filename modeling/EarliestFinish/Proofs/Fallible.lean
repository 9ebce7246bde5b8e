import Mathlib.Tactic

/-!
# Computations that may fail

When a computation in two steps gives a result and when it fails, and when a map that may fail
gives a list.
-/

namespace EarliestFinish

variable {ε β γ : Type} {x : Except ε β} {f : β → Except ε γ}

theorem bind_ok_iff {c : γ} : x >>= f = .ok c ↔ ∃ b, x = .ok b ∧ f b = .ok c := by
  cases x with
  | error e =>
    constructor
    · intro h
      cases h
    · rintro ⟨_, h, -⟩
      cases h
  | ok b =>
    constructor
    · exact fun h => ⟨b, rfl, h⟩
    · rintro ⟨_, h, hf⟩
      cases h
      exact hf

theorem bind_error_iff {e : ε} :
    x >>= f = .error e ↔ x = .error e ∨ ∃ b, x = .ok b ∧ f b = .error e := by
  cases x with
  | error e' =>
    constructor
    · intro h
      cases h
      exact Or.inl rfl
    · rintro (h | ⟨_, h, -⟩)
      · cases h
        rfl
      · cases h
  | ok b =>
    constructor
    · exact fun h => Or.inr ⟨b, rfl, h⟩
    · rintro (h | ⟨_, h, hf⟩)
      · cases h
      · cases h
        exact hf

/-- A map that may fail gives a list if it gives every element of it. -/
theorem mapM_ok_iff {xs : List β} {ys : List γ} :
    xs.mapM f = .ok ys ↔ List.Forall₂ (fun x y => f x = .ok y) xs ys := by
  induction xs generalizing ys with
  | nil =>
    rw [List.forall₂_nil_left_iff]
    exact ⟨fun h => (Except.ok.inj h).symm, fun h => h ▸ rfl⟩
  | cons x xs ih =>
    simp only [List.mapM_cons, bind_ok_iff, ih, List.forall₂_cons_left_iff]
    constructor
    · rintro ⟨y, hy, zs, hzs, h⟩
      exact ⟨y, zs, hy, hzs, (Except.ok.inj h).symm⟩
    · rintro ⟨y, zs, hy, hzs, rfl⟩
      exact ⟨y, hy, zs, hzs, rfl⟩

/-- A map that fails nowhere gives a list. -/
theorem exists_mapM_ok {xs : List β} (h : ∀ x ∈ xs, ∃ y, f x = .ok y) :
    ∃ ys, xs.mapM f = .ok ys := by
  induction xs with
  | nil => exact ⟨[], rfl⟩
  | cons x xs ih =>
    obtain ⟨y, hy⟩ := h x List.mem_cons_self
    obtain ⟨ys, hys⟩ := ih fun z hz => h z (List.mem_cons_of_mem _ hz)
    refine ⟨y :: ys, ?_⟩
    rw [List.mapM_cons]
    exact bind_ok_iff.2 ⟨y, hy, bind_ok_iff.2 ⟨ys, hys, rfl⟩⟩

/-- If the results of one computation are those of another, changed, then so are the lists of them. -/
theorem mapM_map {δ : Type} {g : γ → δ} {f' : β → Except ε δ} {xs : List β}
    (h : ∀ x ∈ xs, f' x = g <$> f x) : xs.mapM f' = List.map g <$> xs.mapM f := by
  induction xs with
  | nil => rfl
  | cons x xs ih =>
    obtain ⟨hx, hxs⟩ := List.forall_mem_cons.1 h
    rw [List.mapM_cons, List.mapM_cons, ih hxs, hx]
    cases f x with
    | error e => rfl
    | ok y => cases xs.mapM f <;> rfl

/-- A map that is defined everywhere gives a list, element by element. -/
theorem exists_mapM_some {g : β → Option γ} {R : β → γ → Prop} {xs : List β}
    (h : ∀ x ∈ xs, ∃ y, g x = some y ∧ R x y) :
    ∃ ys, xs.mapM g = some ys ∧ List.Forall₂ R xs ys := by
  induction xs with
  | nil => exact ⟨[], rfl, .nil⟩
  | cons x xs ih =>
    obtain ⟨y, hy, hR⟩ := h x List.mem_cons_self
    obtain ⟨ys, hys, hRs⟩ := ih fun z hz => h z (List.mem_cons_of_mem _ hz)
    exact ⟨y :: ys, by simp [List.mapM_cons, hy, hys], .cons hR hRs⟩

end EarliestFinish
