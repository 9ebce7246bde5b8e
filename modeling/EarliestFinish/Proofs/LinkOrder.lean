import EarliestFinish.Workflow
import Mathlib.Tactic

/-!
# Lists in the order of links

A list is *link-ordered* if everything in it comes behind all that it links to. The walk over the
child links leaves the tasks in such an order of their child links, and the priority order is one
of their parent links.

* `LinkOrdered.not_dangling`, `LinkOrdered.not_circular`: if all tasks of a workflow can be put in
  link order, then no link leaves the workflow and no links form a cycle;
* `LinkOrdered.not_cycle`: links between some tasks in link order do not form a cycle;
* `Workflow.exists_cycle_of_blocked`: tasks that all wait for one another contain a cycle.
-/

namespace EarliestFinish

/-- A list in which everything comes behind all that it links to. -/
def LinkOrdered (links : Int → List Int) (xs : List Int) : Prop :=
  ∀ before t after, xs = before ++ t :: after → ∀ l ∈ links t, l ∈ before

namespace LinkOrdered

variable {links : Int → List Int} {xs : List Int} {t l : Int}

theorem nil (links : Int → List Int) : LinkOrdered links [] := by
  intro before t after h
  simp at h

/-- An element whose links are all there can come last. -/
theorem concat (h : LinkOrdered links xs) (ht : ∀ l ∈ links t, l ∈ xs) :
    LinkOrdered links (xs ++ [t]) := by
  intro before u after he l hl
  rcases List.eq_nil_or_concat after with rfl | ⟨after, v, rfl⟩
  · obtain ⟨rfl, hu⟩ := List.append_inj' he rfl
    obtain rfl : t = u := by simpa using hu
    exact ht l hl
  · have he : xs ++ [t] = (before ++ u :: after) ++ [v] := by simpa using he
    obtain ⟨rfl, -⟩ := List.append_inj' he rfl
    exact h before u after rfl l hl

theorem mem (h : LinkOrdered links xs) (ht : t ∈ xs) (hl : l ∈ links t) : l ∈ xs := by
  obtain ⟨before, after, rfl⟩ := List.append_of_mem ht
  exact List.mem_append_left _ (h before t after rfl l hl)

theorem idxOf_lt (h : LinkOrdered links xs) (ht : t ∈ xs) (hl : l ∈ links t) :
    xs.idxOf l < xs.idxOf t := by
  obtain ⟨before, after, rfl, hnot⟩ := List.eq_append_cons_of_mem ht
  have hb := h before t after rfl l hl
  rw [List.idxOf_append, if_pos hb, List.idxOf_append, if_neg hnot]
  have := List.idxOf_lt_length_of_mem hb
  omega

/-- A fact that passes from the links of an element to the element holds of the whole list. -/
theorem induction {P : Int → Prop} (h : LinkOrdered links xs)
    (hstep : ∀ t ∈ xs, (∀ l ∈ links t, P l) → P t) (ht : t ∈ xs) : P t := by
  induction hn : xs.idxOf t using Nat.strong_induction_on generalizing t with
  | _ n ih =>
    refine hstep t ht fun l hl => ?_
    exact ih _ (hn ▸ h.idxOf_lt ht hl) (h.mem ht hl) rfl

end LinkOrdered

namespace Workflow

variable {α : Type} {w : Workflow α} {links : Int → List Int} {xs : List Int} {t : Int}

/-- A link of a task. -/
def Links (w : Workflow α) (links : Int → List Int) (t l : Int) : Prop := w.Holds t ∧ l ∈ links t

/-- Some link leads out of the workflow. -/
def Dangling (w : Workflow α) (links : Int → List Int) : Prop :=
  ∃ t l, w.Links links t l ∧ ¬ w.Holds l

/-- Some links lead from a task back to it. -/
def Circular (w : Workflow α) (links : Int → List Int) : Prop :=
  ∃ t, Relation.TransGen (w.Links links) t t

/-- A child link or a parent link leads out of the workflow, or links of one kind form a cycle. -/
def Malformed (w : Workflow α) : Prop :=
  w.Dangling w.childrenOf ∨ w.Dangling w.parentsOf ∨
    w.Circular w.childrenOf ∨ w.Circular w.parentsOf

/-- Whether a workflow is malformed depends on how many tasks it has and on which links. -/
theorem malformed_congr {w w' : Workflow α} (hholds : ∀ t, w'.Holds t ↔ w.Holds t)
    (hchildren : ∀ t l, l ∈ w'.childrenOf t ↔ l ∈ w.childrenOf t)
    (hparents : ∀ t l, l ∈ w'.parentsOf t ↔ l ∈ w.parentsOf t) : w'.Malformed ↔ w.Malformed := by
  have hlinks {links links' : Int → List Int} (h : ∀ t l, l ∈ links' t ↔ l ∈ links t) :
      w'.Links links' = w.Links links := by
    funext t l
    rw [Links, Links, hholds, h]
  simp only [Malformed, Dangling, Circular, hlinks hchildren, hlinks hparents, hholds]

theorem mem_positions : t ∈ w.positions ↔ w.Holds t := by
  simp only [positions, List.mem_map, List.mem_range, Holds]
  constructor
  · rintro ⟨k, hk, rfl⟩
    exact ⟨Int.natCast_nonneg k, Int.ofNat_lt.2 hk⟩
  · rintro ⟨h0, hn⟩
    exact ⟨t.toNat, by omega, Int.toNat_of_nonneg h0⟩

theorem positions_nodup (w : Workflow α) : w.positions.Nodup :=
  List.nodup_range.map fun _ _ h => Int.ofNat.inj h

/-- The child links task by task. -/
theorem edges_eq (w : Workflow α) :
    w.edges = w.positions.flatMap fun t => (w.childrenOf t).map fun c => (t, c) := by
  rw [edges, List.flatMap_def, List.flatMap_def]
  refine congrArg List.flatten (List.ext_getElem (by simp [positions, size]) fun k _ hk => ?_)
  have hlt : k < w.size := by simpa [positions] using hk
  have htask : w.task? k = some w.tasks[k] := by
    rw [task?_natCast w hlt, List.getElem?_eq_getElem hlt]
  simp [positions, childrenOf, htask]
  rfl

theorem mem_edges {p c : Int} : (p, c) ∈ w.edges ↔ w.Links w.childrenOf p c := by
  simp [edges_eq, Links, mem_positions]

theorem holds_of_perm (hp : xs.Perm w.positions) (ht : t ∈ xs) : w.Holds t :=
  mem_positions.1 (hp.mem_iff.1 ht)

theorem mem_of_perm (hp : xs.Perm w.positions) (ht : w.Holds t) : t ∈ xs :=
  hp.mem_iff.2 (mem_positions.2 ht)

/-- If each of some tasks links to another one of them, then there is a cycle. -/
theorem exists_cycle_of_blocked (hne : xs ≠ [])
    (h : ∀ t ∈ xs, w.Holds t ∧ ∃ l ∈ links t, l ∈ xs) :
    ∃ t ∈ xs, Relation.TransGen (w.Links links) t t := by
  by_contra hcirc
  let r : {t // t ∈ xs} → {t // t ∈ xs} → Prop := fun l t => w.Links links t l
  have hr : ∀ {a b}, Relation.TransGen r a b → Relation.TransGen (w.Links links) b a := by
    intro a b hab
    induction hab with
    | single h => exact .single h
    | tail _ h ih => exact .head h ih
  have hwf : WellFounded (Relation.TransGen r) := by
    have : Finite {t // t ∈ xs} := xs.finite_toSet.to_subtype
    have : Std.Irrefl (Relation.TransGen r) := ⟨fun a ha => hcirc ⟨a, a.2, hr ha⟩⟩
    exact Finite.wellFounded_of_trans_of_irrefl _
  -- a task that none of the others is linked from cannot exist
  obtain ⟨t₀, ht₀⟩ := List.exists_mem_of_ne_nil xs hne
  obtain ⟨⟨t, ht⟩, -, hmin⟩ := hwf.has_min Set.univ ⟨⟨t₀, ht₀⟩, trivial⟩
  obtain ⟨hold, l, hl, hlx⟩ := h t ht
  exact hmin ⟨l, hlx⟩ trivial (.single ⟨hold, hl⟩)

end Workflow

namespace LinkOrdered

variable {α : Type} {w : Workflow α} {links : Int → List Int} {xs : List Int} {t : Int}

theorem not_dangling (h : LinkOrdered links xs) (hp : xs.Perm w.positions) :
    ¬ w.Dangling links := by
  rintro ⟨t, l, ⟨ht, hl⟩, hout⟩
  exact hout (Workflow.holds_of_perm hp (h.mem (Workflow.mem_of_perm hp ht) hl))

/-- Along links one stays in the list. -/
theorem mem_of_reaches {u : Int} (h : LinkOrdered links xs) (ht : t ∈ xs)
    (hu : Relation.ReflTransGen (w.Links links) t u) : u ∈ xs := by
  induction hu with
  | refl => exact ht
  | tail _ hl ih => exact h.mem ih hl.2

/-- Links do not lead from an element of the list back to it. -/
theorem not_cycle (h : LinkOrdered links xs) (ht : t ∈ xs) :
    ¬ Relation.TransGen (w.Links links) t t := by
  intro hcycle
  -- along links the place in the list goes down
  have hdown : ∀ {u}, Relation.TransGen (w.Links links) t u → u ∈ xs ∧ xs.idxOf u < xs.idxOf t := by
    intro u hu
    induction hu with
    | single hl => exact ⟨h.mem ht hl.2, h.idxOf_lt ht hl.2⟩
    | tail _ hl ih => exact ⟨h.mem ih.1 hl.2, (h.idxOf_lt ih.1 hl.2).trans ih.2⟩
  exact (hdown hcycle).2.false

theorem not_circular (h : LinkOrdered links xs) (hp : xs.Perm w.positions) :
    ¬ w.Circular links := by
  rintro ⟨t, hcycle⟩
  obtain ⟨l, hlink, -⟩ := Relation.TransGen.head'_iff.1 hcycle
  exact h.not_cycle (Workflow.mem_of_perm hp hlink.1) hcycle

end LinkOrdered

end EarliestFinish
