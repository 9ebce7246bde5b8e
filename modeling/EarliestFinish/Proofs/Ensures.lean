import EarliestFinish.Planning
import Mathlib.Tactic

/-!
# What a planning computation ensures

`x.Ensures s E Q` says that `x`, started in the session `s`, gives a result and a session of which
`Q` holds, or comes upon an obstacle of which `E` holds. The rules follow the way in which
computations are put together; `Planning.ensures_mapM` goes through a list with an invariant that
may speak of what is still to come.
-/

namespace EarliestFinish

namespace Planning

variable {α β γ : Type} {s s' : Session α} {E : Obstacle α → Prop}

/-- What a computation ensures of its result and the session after it, or else of its obstacle. -/
def Ensures (x : Planning α β) (s : Session α) (E : Obstacle α → Prop)
    (Q : β → Session α → Prop) : Prop :=
  match x.runIn s with
  | (.ok b, s') => Q b s'
  | (.error o, _) => E o

theorem ensures_pure {b : β} {Q : β → Session α → Prop} (h : Q b s) :
    Ensures (pure b) s E Q := h

theorem ensures_note {e : Entry α} {Q : Unit → Session α → Prop}
    (h : Q () { s with journal := s.journal.push e }) : Ensures (note e) s E Q := h

theorem ensures_outcome {x : Except (Obstacle α) β} {Q : β → Session α → Prop}
    (hok : ∀ b, x = .ok b → Q b s) (herror : ∀ o, x = .error o → E o) :
    Ensures (liftM x) s E Q := by
  cases x with
  | ok b => exact hok b rfl
  | error o => exact herror o rfl

theorem ensures_lift {x : Except (Fault α) β} {Q : β → Session α → Prop}
    (hok : ∀ b, x = .ok b → Q b s) (herror : ∀ f, x = .error f → E f) :
    Ensures (liftM x) s E Q := by
  cases x with
  | ok b => exact hok b rfl
  | error f => exact herror f rfl

theorem runIn_bind (x : Planning α β) (f : β → Planning α γ) (s : Session α) :
    (x >>= f).runIn s = match x.runIn s with
      | (.ok b, s') => (f b).runIn s'
      | (.error e, s') => (.error e, s') := by
  unfold runIn
  rw [ExceptT.run_bind, StateT.run_bind]
  change (match x.run.run s with | (r, s') => _) = _
  rcases x.run.run s with ⟨b | e, s'⟩ <;> rfl

theorem runIn_bind_ok {x : Planning α β} {f : β → Planning α γ} {c : γ}
    (h : (x >>= f).runIn s = (.ok c, s')) :
    ∃ b s₁, x.runIn s = (.ok b, s₁) ∧ (f b).runIn s₁ = (.ok c, s') := by
  rw [runIn_bind] at h
  rcases hx : x.runIn s with ⟨b | b, s₁⟩
  · rw [hx] at h
    cases h
  · rw [hx] at h
    exact ⟨b, s₁, rfl, h⟩

theorem runIn_bind_error {x : Planning α β} {f : β → Planning α γ} {o : Obstacle α}
    (h : (x >>= f).runIn s = (.error o, s')) :
    x.runIn s = (.error o, s') ∨
      ∃ b s₁, x.runIn s = (.ok b, s₁) ∧ (f b).runIn s₁ = (.error o, s') := by
  rw [runIn_bind] at h
  rcases hx : x.runIn s with ⟨b | b, s₁⟩
  · rw [hx] at h
    cases h
    exact Or.inl rfl
  · rw [hx] at h
    exact Or.inr ⟨b, s₁, rfl, h⟩

theorem runIn_lift (x : Except (Fault α) β) (s : Session α) :
    (liftM x : Planning α β).runIn s = (ended x, s) := rfl

theorem exists_runIn_of_map {x : Planning α β} {g : β → γ} {c : γ}
    (h : (x.runIn s).1.toOption.map g = some c) : ∃ b s', x.runIn s = (.ok b, s') ∧ g b = c := by
  rcases hx : x.runIn s with ⟨e | b, s'⟩
  · rw [hx] at h
    cases h
  · rw [hx] at h
    exact ⟨b, s', rfl, Option.some.inj h⟩

theorem runIn_lift_bind_ok {x : Except (Fault α) β} {f : β → Planning α γ} {c : γ}
    (h : (liftM x >>= f).runIn s = (.ok c, s')) :
    ∃ b, x = .ok b ∧ (f b).runIn s = (.ok c, s') := by
  obtain ⟨b, s₁, hx, h⟩ := runIn_bind_ok h
  obtain ⟨hb, rfl⟩ := Prod.mk.inj ((runIn_lift x s).symm.trans hx)
  exact ⟨b, ended_eq_ok_iff.1 hb, h⟩

theorem runIn_lift_bind_error {x : Except (Fault α) β} {f : β → Planning α γ} {o : Obstacle α}
    (h : (liftM x >>= f).runIn s = (.error o, s')) :
    (∃ e, x = .error e ∧ o = .fault e ∧ s = s') ∨
      ∃ b, x = .ok b ∧ (f b).runIn s = (.error o, s') := by
  rcases runIn_bind_error h with h | ⟨b, s₁, hx, h⟩
  · obtain ⟨ho, hs⟩ := Prod.mk.inj ((runIn_lift x s).symm.trans h)
    obtain ⟨e, he, hoe⟩ := ended_eq_error_iff.1 ho
    exact Or.inl ⟨e, he, hoe, hs⟩
  · obtain ⟨hb, rfl⟩ := Prod.mk.inj ((runIn_lift x s).symm.trans hx)
    exact Or.inr ⟨b, ended_eq_ok_iff.1 hb, h⟩

theorem Ensures.ok {x : Planning α β} {Q : β → Session α → Prop} {b : β} (h : x.Ensures s E Q)
    (hr : x.runIn s = (.ok b, s')) : Q b s' := by
  rw [Ensures, hr] at h
  exact h

theorem Ensures.error {x : Planning α β} {Q : β → Session α → Prop} {o : Obstacle α}
    (h : x.Ensures s E Q) (hr : x.runIn s = (.error o, s')) : E o := by
  rw [Ensures, hr] at h
  exact h

theorem ensures_bind {x : Planning α β} {f : β → Planning α γ} {Q : γ → Session α → Prop}
    (h : x.Ensures s E fun b s' => (f b).Ensures s' E Q) : (x >>= f).Ensures s E Q := by
  unfold Ensures at h ⊢
  rw [runIn_bind]
  rcases hx : x.runIn s with ⟨b | e, s'⟩
  · rw [hx] at h
    exact h
  · rw [hx] at h
    exact h

theorem Ensures.mono {x : Planning α β} {E' : Obstacle α → Prop} {Q Q' : β → Session α → Prop}
    (h : x.Ensures s E Q) (hE : ∀ o, E o → E' o) (hQ : ∀ b s', Q b s' → Q' b s') :
    x.Ensures s E' Q' := by
  unfold Ensures at h ⊢
  rcases hx : x.runIn s with ⟨b | e, s'⟩
  · rw [hx] at h
    exact hE _ h
  · rw [hx] at h
    exact hQ _ _ h

/-- Going through a list: `I` holds at every point of the elements that are still to come. -/
theorem ensures_mapM {f : β → Planning α γ} {R : β → γ → Prop} {I : List β → Session α → Prop}
    (hstep : ∀ x xs s, I (x :: xs) s → (f x).Ensures s E fun y s' => R x y ∧ I xs s')
    (xs : List β) (s : Session α) (h : I xs s) :
    (xs.mapM f).Ensures s E fun ys s' => List.Forall₂ R xs ys ∧ I [] s' := by
  induction xs generalizing s with
  | nil => exact ⟨.nil, h⟩
  | cons x xs ih =>
    rw [List.mapM_cons]
    refine ensures_bind ((hstep x xs s h).mono (fun _ hf => hf) fun y s₁ hy => ?_)
    refine ensures_bind ((ih s₁ hy.2).mono (fun _ hf => hf) fun ys s₂ hys => ?_)
    exact ensures_pure ⟨.cons hy.1 hys.1, hys.2⟩

end Planning

end EarliestFinish
