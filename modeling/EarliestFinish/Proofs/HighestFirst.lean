import EarliestFinish.Proofs.RankOrder

/-!
# The highest available task first

The gate never lists the tasks that could come out. It looks through those that are held, in the
order in which they came in, and lets in the next task when all of them are blocked. If the ranks
can be compared, it chooses all the same the *available* task that comes first by rank: one that is
not out and whose parents are.

* `Gate.Leading` is the invariant of a gate before which some tasks are waiting. The tasks that are
  held and those that are waiting stand in rank order, so the first one held that may go precedes
  all others that may go, and if no task that is held may go, the next one comes in
  (`Gate.Leading.release`, `Gate.Leading.receive`).
* `HighestFirst.eq`: only one order chooses like this. So where the rank order has all parents
  first, it is the priority order.
* `HighestFirst.descending`: if no parent has a lower rank than its child, the ranks do not rise
  along such an order.
* `priorityOrder_highestFirst` puts the results together, for a list of some of the tasks and for
  ranks that need not be exact.
-/

namespace EarliestFinish

open Quantity

section Order

variable {α : Type} [Quantity α] {parents : Int → List Int} {ranks : Table Int α}
  {order out rest : List Int} {t : Int}

theorem pairwise_of_splits {R : Int → Int → Prop} {xs : List Int}
    (h : ∀ before t after, xs = before ++ t :: after → ∀ u ∈ after, R t u) : xs.Pairwise R := by
  induction xs with
  | nil => exact .nil
  | cons x xs ih =>
    refine .cons (h [] x xs rfl) (ih fun before t after he => h (x :: before) t after ?_)
    rw [he, List.cons_append]

theorem rel_of_split {R : Int → Int → Prop} {before after : List Int}
    (h : (before ++ t :: after).Pairwise R) {u : Int} (hu : u ∈ after) : R t u :=
  (List.pairwise_cons.1 (List.pairwise_append.1 h).2.1).1 u hu

/-- In a list without repetitions, an element and those behind it are new. -/
theorem new_of_nodup {before after : List Int} (hn : (before ++ t :: after).Nodup) :
    t ∉ before ∧ ∀ u ∈ after, u ≠ t ∧ u ∉ before := by
  obtain ⟨-, hback, hdisjoint⟩ := List.nodup_append'.1 hn
  refine ⟨fun ht => hdisjoint ht List.mem_cons_self, fun u hu => ⟨?_, fun hb => ?_⟩⟩
  · rintro rfl
    exact (List.nodup_cons.1 hback).1 hu
  · exact hdisjoint hb (List.mem_cons_of_mem t hu)

/-- A listed task is not out, but all its parents are. -/
def Available (parents : Int → List Int) (ranks : Table Int α) (out : List Int) (t : Int) : Prop :=
  t ∈ ranks.keys ∧ t ∉ out ∧ ∀ p ∈ parents t, p ∈ out

/-- Every task is available when its turn comes, and precedes all others that are. -/
def HighestFirst (parents : Int → List Int) (ranks : Table Int α) (order : List Int) : Prop :=
  ∀ before t after, order = before ++ t :: after →
    Available parents ranks before t ∧
      ∀ u, Available parents ranks before u → u ≠ t → Precedes ranks t u

namespace HighestFirst

theorem nil : HighestFirst parents ranks [] := by
  intro before t after h
  simp at h

/-- The first of the available tasks can come next. -/
theorem concat (h : HighestFirst parents ranks out) (ht : Available parents ranks out t)
    (hfirst : ∀ u, Available parents ranks out u → u ≠ t → Precedes ranks t u) :
    HighestFirst parents ranks (out ++ [t]) := by
  intro before u after he
  rcases List.eq_nil_or_concat after with rfl | ⟨after, v, rfl⟩
  · obtain ⟨rfl, hu⟩ := List.append_inj' he rfl
    obtain rfl : t = u := by simpa using hu
    exact ⟨ht, hfirst⟩
  · have he : out ++ [t] = (before ++ u :: after) ++ [v] := by simpa using he
    obtain ⟨rfl, -⟩ := List.append_inj' he rfl
    exact h before u after rfl

/-- Tasks that are in rank order behind all their parents are the highest available ones. -/
theorem of_sorted (hkeys : order.Perm ranks.keys) (hn : order.Nodup)
    (hsorted : order.Pairwise (Precedes ranks)) (hlinks : LinkOrdered parents order) :
    HighestFirst parents ranks order := by
  rintro before t after rfl
  have hkey : t ∈ ranks.keys := hkeys.mem_iff.1 (by simp)
  refine ⟨⟨hkey, (new_of_nodup hn).1, hlinks before t after rfl⟩, fun u hu hne => ?_⟩
  have hmem : u ∈ before ++ t :: after := hkeys.mem_iff.2 hu.1
  have hafter : u ∈ after :=
    (List.mem_cons.1 ((List.mem_append.1 hmem).resolve_left hu.2.1)).resolve_left hne
  exact rel_of_split hsorted hafter

variable [Ordered α]

/-- Ranks that do not rise from a parent to its child do not rise along the order either. -/
theorem descending (h : HighestFirst parents ranks order) (hkeys : order.Perm ranks.keys)
    (hn : order.Nodup) (hparents : ∀ t ∈ order, ∀ p ∈ parents t, RanksAtLeast ranks p t) :
    order.Pairwise (RanksAtLeast ranks) := by
  have hlinks : LinkOrdered parents order := fun before t after hsplit =>
    (h before t after hsplit).1.2.2
  refine pairwise_of_splits fun before t after hsplit u hu => ?_
  obtain ⟨-, hfirst⟩ := h before t after hsplit
  have hnew := (new_of_nodup (hsplit ▸ hn)).2
  have hmem : u ∈ order := by simp [hsplit, hu]
  revert hu
  -- a later task is available itself, or one of its parents comes later, or is the task in front
  refine hlinks.induction (P := fun u => u ∈ after → RanksAtLeast ranks t u) ?_ hmem
  intro u hu ih hafter
  by_cases hready : ∀ p ∈ parents u, p ∈ before
  · obtain ⟨hne, hout⟩ := hnew u hafter
    exact (hfirst u ⟨hkeys.mem_iff.1 hu, hout, hready⟩ hne).ranksAtLeast
  · push Not at hready
    obtain ⟨p, hp, hout⟩ := hready
    have hpu := hparents u hu p hp
    have hmem : p ∈ before ++ t :: after := hsplit ▸ hlinks.mem hu hp
    rcases List.mem_cons.1 ((List.mem_append.1 hmem).resolve_left hout) with rfl | hlater
    · exact hpu
    · exact (ih p hp hlater).trans hpu

theorem eq_of_append (before : List Int) {xs ys : List Int}
    (hx : HighestFirst parents ranks (before ++ xs))
    (hy : HighestFirst parents ranks (before ++ ys)) (hlength : xs.length = ys.length) :
    xs = ys := by
  induction xs generalizing before ys with
  | nil => exact (List.length_eq_zero_iff.1 hlength.symm).symm
  | cons t xs ih =>
    cases ys with
    | nil => simp at hlength
    | cons u ys =>
      obtain ⟨ht, htfirst⟩ := hx before t xs rfl
      obtain ⟨hu, hufirst⟩ := hy before u ys rfl
      -- of two different tasks, each would precede the other
      obtain rfl : t = u := by
        by_contra hne
        exact (htfirst u hu (Ne.symm hne)).asymm (hufirst t ht hne)
      rw [ih (before ++ [t]) (by simpa using hx) (by simpa using hy) (by simpa using hlength)]

/-- There is only one such order of the listed tasks. -/
theorem eq {xs ys : List Int} (hx : HighestFirst parents ranks xs)
    (hy : HighestFirst parents ranks ys) (hp : xs.Perm ys) : xs = ys :=
  eq_of_append [] hx hy hp.length_eq

end HighestFirst

/-! ## The gate -/

namespace Gate

variable {g : Gate}

/-- What holds of a gate before which some tasks are waiting: each listed task is out, held or
waiting, those that are held and those that are waiting are in rank order, and those that are out
came out highest first. -/
structure Leading (parents : Int → List Int) (ranks : Table Int α) (rest : List Int) (g : Gate) :
    Prop where
  tasks : (g.out ++ g.held ++ rest).Perm ranks.keys
  sorted : (g.held ++ rest).Pairwise (Precedes ranks)
  order : HighestFirst parents ranks g.out

namespace Leading

theorem mem_of_available (h : g.Leading parents ranks rest) (ht : Available parents ranks g.out t) :
    t ∈ g.held ++ rest := by
  have hmem := h.tasks.mem_iff.2 ht.1
  rw [List.append_assoc] at hmem
  exact (List.mem_append.1 hmem).resolve_left ht.2.1

/-- The first task that may go, of those that are held, goes. -/
theorem let_out (hn : ranks.keys.Nodup) (h : g.Leading parents ranks rest)
    (ht : g.held.find? (clears parents g.out) = some t) :
    Leading parents ranks rest ⟨g.held.erase t, g.out ++ [t]⟩ := by
  have hmem := List.mem_of_find?_eq_some ht
  have hclear : ∀ p ∈ parents t, p ∈ g.out := clears_iff.1 (List.find?_some ht)
  obtain ⟨-, front, back, hheld, hfront⟩ := List.find?_eq_some_iff_append.1 ht
  have hnodup := h.tasks.nodup_iff.2 hn
  rw [List.append_assoc] at hnodup
  have hnew : t ∉ g.out := by
    intro hout
    exact (List.disjoint_of_nodup_append hnodup) hout (List.mem_append_left _ hmem)
  have hkey : t ∈ ranks.keys := h.tasks.mem_iff.1 (by simp [hmem])
  constructor
  · refine .trans ?_ h.tasks
    rw [List.append_assoc g.out]
    exact ((List.perm_cons_erase hmem).symm.append_left g.out).append_right rest
  · exact h.sorted.sublist (List.erase_sublist.append_right rest)
  · refine h.order.concat ⟨hkey, hnew, hclear⟩ fun u hu hne => ?_
    -- what stands before the task that goes is blocked, and the rest stands behind it
    have hsorted := h.sorted
    have hu' := h.mem_of_available hu
    rw [hheld, List.append_assoc] at hsorted hu'
    have hbehind : u ∈ back ++ rest := by
      rcases List.mem_append.1 hu' with hf | hb
      · have hblocked := hfront u hf
        rw [Bool.not_eq_true', ← Bool.not_eq_true, clears_iff] at hblocked
        exact absurd hu.2.2 hblocked
      · exact (List.mem_cons.1 hb).resolve_left hne
    exact rel_of_split hsorted hbehind

theorem release (hn : ranks.keys.Nodup) (h : g.Leading parents ranks rest) :
    (g.release parents).Leading parents ranks rest := by
  fun_induction Gate.release parents g with
  | case1 g t hfind ih => exact ih (h.let_out hn hfind)
  | case2 g hfind => exact h

/-- The next task comes in. -/
theorem receive (hn : ranks.keys.Nodup) (h : g.Leading parents ranks (t :: rest)) :
    (g.receive parents t).Leading parents ranks rest := by
  refine release hn ⟨?_, ?_, h.order⟩
  · simpa using h.tasks
  · simpa using h.sorted

theorem foldl_receive (hn : ranks.keys.Nodup) (h : g.Leading parents ranks rest) :
    (rest.foldl (Gate.receive parents) g).Leading parents ranks [] := by
  induction rest generalizing g with
  | nil => exact h
  | cons t rest ih => exact ih (h.receive hn)

end Leading

end Gate

end Order

/-! ## The priority order -/

variable {α : Type} [Quantity α] [Ordered α] {w : Workflow α} {ranks : Table Int α}

theorem highestFirst_of_ok (hn : ranks.keys.Nodup) (hc : ∀ x ∈ ranks.values, x ≤ x)
    {order : List Int} (h : priorityOrder w ranks = .ok order) :
    HighestFirst w.parentsOf ranks order := by
  have hstart : Gate.Leading w.parentsOf ranks (rankOrder ranks) {} := by
    refine ⟨?_, ?_, .nil⟩
    · simpa using rankOrder_perm ranks
    · simpa using rankOrder_precedes hn hc
  rw [priorityOrder_eq h]
  exact (hstart.foldl_receive hn).order

/-- Tasks with comparable ranks are put in order unless their parent links withhold one of them, and
always the highest one comes next whose parents are all out. Where the rank order has all parents
first, it stays as it is. -/
theorem priorityOrder_highestFirst (hn : ranks.keys.Nodup) (hold : ∀ t ∈ ranks.keys, w.Holds t)
    (hc : ∀ x ∈ ranks.values, x ≤ x) :
    ((∃ f, priorityOrder w ranks = .error f ∧ f.kind = .malformedGraph) ↔
        w.Withholds ranks.keys) ∧
      (¬ w.Withholds ranks.keys → ∃ order, priorityOrder w ranks = .ok order ∧
        order.Perm ranks.keys ∧ HighestFirst w.parentsOf ranks order) ∧
      (LinkOrdered w.parentsOf (rankOrder ranks) →
        priorityOrder w ranks = .ok (rankOrder ranks)) := by
  have hfree {xs : List Int} (hp : xs.Perm ranks.keys) (hlinks : LinkOrdered w.parentsOf xs) :
      ¬ w.Withholds ranks.keys := by
    rw [← Workflow.withholds_congr fun _ => hp.mem_iff]
    exact Workflow.not_withholds hlinks fun t ht => hold t (hp.mem_iff.1 ht)
  refine ⟨⟨?_, fun hwithheld => ?_⟩, fun hnot => ?_, fun hlinks => ?_⟩
  · rintro ⟨f, hf, -⟩
    exact (priorityOrder_refused hold hf).2
  · cases h : priorityOrder w ranks with
    | ok order =>
      obtain ⟨hp, hlinks⟩ := priorityOrder_sound h
      exact absurd hwithheld (hfree hp hlinks)
    | error f => exact ⟨f, rfl, (priorityOrder_refused hold h).1⟩
  · obtain ⟨order, horder⟩ := exists_priorityOrder hold hnot
    exact ⟨order, horder, (priorityOrder_sound horder).1, highestFirst_of_ok hn hc horder⟩
  · have hp := rankOrder_perm ranks
    obtain ⟨order, horder⟩ := exists_priorityOrder hold (hfree hp hlinks)
    have hsame : HighestFirst w.parentsOf ranks (rankOrder ranks) :=
      .of_sorted hp (hp.nodup_iff.2 hn) (rankOrder_precedes hn hc) hlinks
    have hperm := hp.trans (priorityOrder_sound horder).1.symm
    rw [horder, hsame.eq (highestFirst_of_ok hn hc horder) hperm]

namespace Sample

/-- Two pairs of tasks, in each of which the later one waits for the other. -/
def pairs : Workflow Float where
  tasks := [
    { label := .text "report", length := 1, parents := [3] },
    { label := .text "load", length := 1 },
    { label := .text "clean", length := 1, parents := [1] },
    { label := .text "train", length := 1 }]

/-- The ranks of all four, one of them infinite; two of them are zeros of different sign. -/
def pairRanks : Table Int Float := ⟨[(2, 5), (0, 1.0 / 0.0), (1, -0.0), (3, 0.0)]⟩

/-- The rank of a single task. -/
def reportRank : Table Int Float := ⟨[(0, 1)]⟩

end Sample

/-- The second pair goes first, though the first task has the highest rank; without the last task,
the first one waits for ever. -/
theorem priorityOrder_highestFirst_pairs :
    priorityOrder Sample.pairs Sample.pairRanks = .ok [1, 2, 3, 0] ∧
      HighestFirst Sample.pairs.parentsOf Sample.pairRanks [1, 2, 3, 0] ∧
      ∃ f, priorityOrder Sample.pairs Sample.reportRank = .error f ∧ f.kind = .malformedGraph := by
  have hrun : (priorityOrder Sample.pairs Sample.pairRanks).toOption = some [1, 2, 3, 0] := by
    decide +kernel
  have hold : ∀ t ∈ Sample.pairRanks.keys, Sample.pairs.Holds t := by decide
  have hold' : ∀ t ∈ Sample.reportRank.keys, Sample.pairs.Holds t := by decide
  obtain ⟨hwithheld, hok, -⟩ := priorityOrder_highestFirst (by decide) hold (by decide +kernel)
  have hfree : ¬ Sample.pairs.Withholds Sample.pairRanks.keys := by
    intro h
    obtain ⟨f, hf, -⟩ := hwithheld.2 h
    rw [hf] at hrun
    cases hrun
  obtain ⟨order, horder, -, hhighest⟩ := hok hfree
  rw [horder] at hrun
  obtain rfl : order = [1, 2, 3, 0] := Option.some.inj hrun
  refine ⟨horder, hhighest, ?_⟩
  refine (priorityOrder_highestFirst (by decide) hold' (by decide +kernel)).1.2
    (Or.inr ⟨0, by decide, 3, ?_, Or.inl (by decide)⟩)
  exact .single ⟨by decide, by decide⟩

end EarliestFinish
