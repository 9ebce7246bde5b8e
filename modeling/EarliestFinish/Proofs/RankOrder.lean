import EarliestFinish.Proofs.Gate
import EarliestFinish.Proofs.StableOrder

/-!
# The rank order

If all ranks can be compared, the rank order has the tasks by descending rank and, where ranks are
equal, by ascending number (`rankOrder_precedes`). In exact quantities `RanksBefore` says the same
with an equation. There is only one such order, so it depends on the ranks of the tasks and not on
the order in which they are in their table (`rankOrder_congr`).

The order comes from two sorts, each of which keeps the order of what it finds equal.
-/

namespace EarliestFinish

/-! ## Tables with the same values -/

namespace Table

variable {κ ν : Type} [DecidableEq κ] {t t' : Table κ ν} {k : κ}

theorem mem_keys_iff : k ∈ t.keys ↔ ∃ v, t.get? k = some v :=
  ⟨exists_get?, fun ⟨v, hv⟩ => List.mem_map.2 ⟨(k, v), mem_entries_of_get? hv, rfl⟩⟩

theorem keys_perm (hn : t.keys.Nodup) (hn' : t'.keys.Nodup) (h : ∀ k, t'.get? k = t.get? k) :
    t'.keys.Perm t.keys := by
  refine (List.perm_ext_iff_of_nodup hn' hn).2 fun k => ?_
  rw [mem_keys_iff, mem_keys_iff, h]

/-- Tables that hold the same values hold the same pairs. -/
theorem entries_perm (hn : t.keys.Nodup) (hn' : t'.keys.Nodup) (h : ∀ k, t'.get? k = t.get? k) :
    t'.entries.Perm t.entries := by
  refine (List.perm_ext_iff_of_nodup hn'.of_map hn.of_map).2 fun ⟨k, v⟩ => ?_
  constructor
  · exact fun hk => mem_entries_of_get? ((h k).symm.trans (get?_of_mem hn' hk))
  · exact fun hk => mem_entries_of_get? ((h k).trans (get?_of_mem hn hk))

end Table

/-! ## Tasks by rank -/

section Comparable

open Quantity

variable {α : Type} {ranks : Table Int α}

/-- Sorted by task, the entries of a table have the tasks in ascending order. -/
theorem sortBy_tasks_pairwise (hn : ranks.keys.Nodup) :
    (sortBy Prod.fst ranks.entries).Pairwise fun e f => e.1 < f.1 := by
  have hdistinct : ranks.entries.Pairwise fun e f => e.1 ≠ f.1 := List.pairwise_map.1 hn
  have hweak : Sorting.Weak (fun e f : Int × α => decide (e.1 < f.1)) ranks.entries := by
    constructor <;> intros <;> simp_all <;> omega
  rw [sortBy_eq_insertion fun e _ => Int.le_refl e.1]
  refine (Sorting.insertion_inTurn hweak hdistinct).imp fun {e f} h => ?_
  simp only [Sorting.InTurn, decide_eq_false_iff_not] at h
  omega

variable [Quantity α]

/-- A task has a higher rank than another, or neither rank is higher and it has a lower number. -/
def Precedes (ranks : Table Int α) (t u : Int) : Prop :=
  ∃ x y, ranks.get? t = some x ∧ ranks.get? u = some y ∧ (y < x ∨ x ≤ y ∧ y ≤ x ∧ t < u)

/-- A task has at least the rank of another. -/
def RanksAtLeast (ranks : Table Int α) (t u : Int) : Prop :=
  ∃ x y, ranks.get? t = some x ∧ ranks.get? u = some y ∧ y ≤ x

variable [Ordered α]

theorem RanksAtLeast.trans {t u v : Int} (h : RanksAtLeast ranks t u)
    (h' : RanksAtLeast ranks u v) : RanksAtLeast ranks t v := by
  obtain ⟨x, y, hx, hy, hle⟩ := h
  obtain ⟨y', z, hy', hz, hle'⟩ := h'
  obtain rfl := Option.some.inj (hy.symm.trans hy')
  exact ⟨x, z, hx, hz, Ordered.trans hle' hle⟩

theorem Precedes.ranksAtLeast {t u : Int} (h : Precedes ranks t u) : RanksAtLeast ranks t u := by
  obtain ⟨x, y, hx, hy, h⟩ := h
  exact ⟨x, y, hx, hy, h.elim le_of_lt fun h => h.2.1⟩

theorem Precedes.asymm {t u : Int} (h : Precedes ranks t u) : ¬ Precedes ranks u t := by
  rintro ⟨y', x', hy', hx', h'⟩
  obtain ⟨x, y, hx, hy, h⟩ := h
  obtain rfl := Option.some.inj (hx.symm.trans hx')
  obtain rfl := Option.some.inj (hy.symm.trans hy')
  simp only [Ordered.lt_iff] at h h'
  rcases h with h | ⟨hxy, hyx, htu⟩ <;> rcases h' with h' | ⟨hyx', hxy', hut⟩
  · exact h.2 h'.1
  · exact h.2 hxy'
  · exact h'.2 hyx
  · omega

/-- The rank order has the tasks in order of their ranks. -/
theorem rankOrder_precedes (hn : ranks.keys.Nodup) (hc : ∀ x ∈ ranks.values, x ≤ x) :
    (rankOrder ranks).Pairwise (Precedes ranks) := by
  -- first the tasks in ascending order, and so in descending order from behind
  have hback : (sortBy Prod.fst ranks.entries).reverse.Pairwise fun e f => f.1 < e.1 :=
    List.pairwise_reverse.2 (sortBy_tasks_pairwise hn)
  have hentries : ∀ e ∈ (sortBy Prod.fst ranks.entries).reverse, e.2 ≤ e.2 := by
    intro e he
    have hmem : e ∈ ranks.entries := (sortBy_perm ..).mem_iff.1 (List.mem_reverse.1 he)
    exact hc e.2 (List.mem_map_of_mem hmem)
  have hranks : (sortByDescending Prod.snd (sortBy Prod.fst ranks.entries)).Pairwise fun e f =>
      Sorting.InTurn (fun e f => decide (e.2 < f.2)) (fun e f => f.1 < e.1) f e := by
    rw [sortByDescending, List.pairwise_reverse]
    exact sortBy_inTurn hentries hback
  have hmem : ∀ e ∈ sortByDescending Prod.snd (sortBy Prod.fst ranks.entries),
      e ∈ ranks.entries := fun e he =>
    (sortBy_perm ..).mem_iff.1 ((sortByDescending_perm ..).mem_iff.1 he)
  refine List.pairwise_map.2 (hranks.imp_of_mem fun {e f} he hf h => ?_)
  have hself (e : Int × α) (he : e ∈ ranks.entries) : e.2 ≤ e.2 := hc e.2 (List.mem_map_of_mem he)
  have hself_e := hself e (hmem e he)
  have hself_f := hself f (hmem f hf)
  refine ⟨_, _, Table.get?_of_mem hn (hmem e he), Table.get?_of_mem hn (hmem f hf), ?_⟩
  obtain ⟨hnot, htie⟩ := h
  simp only [decide_eq_false_iff_not] at hnot htie
  by_cases hlt : f.2 < e.2
  · exact Or.inl hlt
  · exact Or.inr ⟨(not_lt_iff hself_f hself_e).1 hlt, (not_lt_iff hself_e hself_f).1 hnot, htie hlt⟩

end Comparable

variable {ranks ranks' : Table Int Rat}

/-- A task has a higher rank than another, or the same rank and a lower number. -/
def RanksBefore (ranks : Table Int Rat) (t u : Int) : Prop :=
  ∃ x y, ranks.get? t = some x ∧ ranks.get? u = some y ∧ (y < x ∨ x = y ∧ t < u)

theorem precedes_iff (t u : Int) : Precedes ranks t u ↔ RanksBefore ranks t u := by
  simp only [Precedes, RanksBefore, ← and_assoc, le_antisymm_iff]

theorem RanksBefore.asymm {t u : Int} (h : RanksBefore ranks t u) : ¬ RanksBefore ranks u t := by
  rw [← precedes_iff] at h ⊢
  exact h.asymm

/-- In exact quantities too. -/
theorem rankOrder_pairwise (hn : ranks.keys.Nodup) :
    (rankOrder ranks).Pairwise (RanksBefore ranks) :=
  (rankOrder_precedes hn fun x _ => le_refl x).imp fun {t u} => (precedes_iff t u).1

/-- The rank order depends on which tasks have ranks and how these compare. -/
theorem rankOrder_eq (hn : ranks.keys.Nodup) (hkeys : ranks'.keys.Perm ranks.keys)
    (hsame : RanksBefore ranks' = RanksBefore ranks) : rankOrder ranks' = rankOrder ranks := by
  have hsorted' := rankOrder_pairwise (hkeys.nodup_iff.2 hn)
  rw [hsame] at hsorted'
  have hperm := (rankOrder_perm ranks').trans (hkeys.trans (rankOrder_perm ranks).symm)
  exact hperm.eq_of_pairwise (fun t u _ _ htu hut => absurd hut htu.asymm) hsorted'
    (rankOrder_pairwise hn)

/-- The rank order depends on the ranks of the tasks only. -/
theorem rankOrder_congr (hn : ranks.keys.Nodup) (hn' : ranks'.keys.Nodup)
    (h : ∀ t, ranks'.get? t = ranks.get? t) : rankOrder ranks' = rankOrder ranks := by
  refine rankOrder_eq hn (Table.keys_perm hn hn' h) ?_
  funext t u
  rw [RanksBefore, RanksBefore, h, h]

end EarliestFinish
