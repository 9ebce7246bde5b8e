import EarliestFinish.Proofs.Construction
import EarliestFinish.Proofs.CriticalPath
import EarliestFinish.Proofs.HighestFirst

/-!
# Tasks are held back among equals

If no cost is negative, a parent has at least the rank of each child, and as much more as the
transfer takes and its own cost is (`transfer_add_rank_le`). So a task that is held back for its
parents waits for one of exactly its own rank: the priority order has the ranks in the same order as
the rank order, and the two differ in the places of tasks with equal ranks only
(`priorityOrder_ties`). For this the ranks, which come from the child links, and the gate, which
goes by the parent links, must be about the same dependencies, as they are in every workflow that is
built by commands.
-/

namespace EarliestFinish

open Quantity Workflow

/-- No duration and no transfer time is negative. -/
structure CostTable.Nonneg (c : CostTable Rat) : Prop where
  durations : ∀ row ∈ c.durations, ∀ x ∈ row, 0 ≤ x
  transfer : ∀ x ∈ c.transfer.values, 0 ≤ x

namespace CostTable.Nonneg

variable {c : CostTable Rat}

theorem averageCost (h : c.Nonneg) (t : Int) : 0 ≤ c.averageCost t := by
  refine mean_nonneg fun x hx => ?_
  cases hrow : (position? c.estimates.length t).bind (c.estimates[·]?) with
  | none => simp [CostTable.rowOf, hrow, CostTable.fill] at hx
  | some row =>
    obtain ⟨k, -, hk⟩ := Option.bind_eq_some_iff.1 hrow
    rw [CostTable.rowOf, hrow, Option.getD_some] at hx
    exact h.durations _ (List.mem_map_of_mem (List.mem_of_getElem? hk)) x hx

theorem transferCost (h : c.Nonneg) (parent child : Int) : 0 ≤ c.transferCost parent child := by
  unfold CostTable.transferCost
  cases hx : c.transfer.get? (parent, child) with
  | none => exact le_rfl
  | some x => exact h.transfer x (List.mem_map_of_mem (Table.mem_entries_of_get? hx))

end CostTable.Nonneg

variable {w : Workflow Rat} {c : CostTable Rat} {ranks : Table Int Rat} {order : List Int}
  {parent child t u : Int}

/-- The rank of a parent is at least the transfer time to a child plus the rank of the child. -/
theorem transfer_add_rank_le (hc : c.Nonneg) (h : upwardRanks w c = .ok ranks)
    (hlink : w.Links w.childrenOf parent child) :
    ∃ x y, ranks.get? parent = some x ∧ ranks.get? child = some y ∧
      c.transferCost parent child + y ≤ x := by
  obtain ⟨hparent, hchild⟩ := hlink
  obtain ⟨most, ⟨-, hmost⟩, hrank⟩ := rank_of_children h hparent (List.ne_nil_of_mem hchild)
  have hy := upwardRanks_eq_rankOf h (holds_child h hparent hchild)
  have hterm : c.transferCost parent child + Walk.rankOf w c ranks child ≤ most :=
    hmost ⟨child, hchild, _, hy, rfl⟩
  have hcost := hc.averageCost parent
  exact ⟨_, _, hrank, hy, by linarith⟩

theorem ranksAtLeast_of_links (hc : c.Nonneg) (h : upwardRanks w c = .ok ranks)
    (hlink : w.Links w.childrenOf parent child) : RanksAtLeast ranks parent child := by
  obtain ⟨x, y, hx, hy, hle⟩ := transfer_add_rank_le hc h hlink
  have htransfer := hc.transferCost parent child
  exact ⟨x, y, hx, hy, by linarith⟩

/-- There are ranks and an order for every workflow that is not malformed. -/
theorem exists_ranks_order (hcovers : ∀ t, w.Holds t → c.covers t = true) (h : ¬ w.Malformed) :
    ∃ ranks order, upwardRanks w c = .ok ranks ∧ priorityOrder w ranks = .ok order := by
  have hchildren : ¬ (w.Dangling w.childrenOf ∨ w.Circular w.childrenOf) := by
    rintro (hdangling | hcircular)
    · exact h (Or.inl hdangling)
    · exact h (Or.inr (Or.inr (Or.inl hcircular)))
  have hparents : ¬ (w.Dangling w.parentsOf ∨ w.Circular w.parentsOf) := by
    rintro (hdangling | hcircular)
    · exact h (Or.inr (Or.inl hdangling))
    · exact h (Or.inr (Or.inr (Or.inr hcircular)))
  cases hranks : upwardRanks w c with
  | error f => exact absurd (upwardRanks_error hcovers hranks).2 hchildren
  | ok ranks =>
    obtain ⟨hperm, -⟩ := upwardRanks_ok hranks
    cases horder : priorityOrder w ranks with
    | error f => exact absurd (priorityOrder_error hperm horder).2 hparents
    | ok order => exact ⟨ranks, order, rfl, horder⟩

/-- Along the priority order the ranks do not rise. -/
theorem priorityOrder_descending (hm : w.Mirrored) (hc : c.Nonneg)
    (hranks : upwardRanks w c = .ok ranks) (horder : priorityOrder w ranks = .ok order) :
    order.Pairwise (RanksAtLeast ranks) := by
  obtain ⟨hperm, -⟩ := priorityOrder_sound horder
  have hn := ranks_nodup hranks
  have hhighest := highestFirst_of_ok hn (fun x _ => le_refl x) horder
  refine hhighest.descending hperm (hperm.nodup_iff.2 hn) fun t ht p hp => ?_
  have ht : w.Holds t := Workflow.holds_of_perm (hperm.trans (upwardRanks_ok hranks).1) ht
  exact ranksAtLeast_of_links hc hranks ((hm p t).2 ⟨ht, hp⟩)

theorem map_get?_eq {xs ys : List Int} (hp : xs.Perm ys) (hx : xs.Pairwise (RanksAtLeast ranks))
    (hy : ys.Pairwise (RanksAtLeast ranks)) : xs.map ranks.get? = ys.map ranks.get? := by
  let R (a b : Option Rat) : Prop := ∃ x y, a = some x ∧ b = some y ∧ y ≤ x
  have hx : (xs.map ranks.get?).Pairwise R := List.pairwise_map.2 hx
  have hy : (ys.map ranks.get?).Pairwise R := List.pairwise_map.2 hy
  refine (hp.map ranks.get?).eq_of_pairwise ?_ hx hy
  rintro a b - - ⟨x, y, rfl, rfl, hyx⟩ ⟨y', x', hy', hx', hxy⟩
  obtain rfl := Option.some.inj hy'
  obtain rfl := Option.some.inj hx'
  rw [le_antisymm hxy hyx]

/-- In a workflow that is built by commands and has no cycle, no child has more than the rank of its
parent less the transfer time. The priority order has the ranks in descending order: it is the rank
order, but for the places of tasks with equal ranks. -/
theorem priorityOrder_ties (commands : List (Command Rat))
    (hacyclic : ¬ (build commands).Circular (build commands).childrenOf)
    (hcovers : ∀ t, (build commands).Holds t → c.covers t = true) (hc : c.Nonneg) :
    ∃ ranks order, upwardRanks (build commands) c = .ok ranks ∧
      priorityOrder (build commands) ranks = .ok order ∧
      (∀ e ∈ (build commands).edges, ∃ x y, ranks.get? e.1 = some x ∧ ranks.get? e.2 = some y ∧
        c.transferCost e.1 e.2 + y ≤ x) ∧
      order.Pairwise (RanksAtLeast ranks) ∧
      order.Perm (rankOrder ranks) ∧
      order.map ranks.get? = (rankOrder ranks).map ranks.get? := by
  have hmirrored := mirrored_build commands
  obtain ⟨ranks, order, hranks, horder⟩ :=
    exists_ranks_order hcovers (hmirrored.not_malformed hacyclic)
  have hdescending := priorityOrder_descending hmirrored hc hranks horder
  have hperm : order.Perm (rankOrder ranks) :=
    (priorityOrder_sound horder).1.trans (rankOrder_perm ranks).symm
  have hsorted := (rankOrder_precedes (ranks_nodup hranks) fun x _ => le_refl x).imp
    Precedes.ranksAtLeast
  refine ⟨ranks, order, hranks, horder, fun e he => ?_, hdescending, hperm,
    map_get?_eq hperm hdescending hsorted⟩
  exact transfer_add_rank_le hc hranks (mem_edges.1 he)

namespace Sample

/-- The second task comes before the first. -/
def lateParent : List (Command Rat) :=
  [.task { label := .text "report", length := 0 }, .task { label := .text "load", length := 0 },
    .task { label := .text "train", length := 5 }, .dependency 1 0]

/-- Only the third task takes time. -/
def idleCosts : CostTable Rat where
  estimates := [[some 0, some 0], [some 0, some 0], [some 4, some 6]]
  transfer := ⟨[((1, 0), 0)]⟩
  averageBandwidth := 1
  infeasibleCost := 60

end Sample

/-- Two tasks with rank zero change places, and the third one, with a higher rank, stays in
front. -/
theorem priorityOrder_ties_lateParent :
    ∃ ranks order, upwardRanks (build Sample.lateParent) Sample.idleCosts = .ok ranks ∧
      priorityOrder (build Sample.lateParent) ranks = .ok order ∧ order = [2, 1, 0] ∧
      rankOrder ranks = [2, 0, 1] ∧
      order.map ranks.get? = (rankOrder ranks).map ranks.get? := by
  have hacyclic : ¬ (build Sample.lateParent).Circular (build Sample.lateParent).childrenOf := by
    have horder : LinkOrdered (build Sample.lateParent).childrenOf [0, 1, 2] :=
      (((LinkOrdered.nil _).concat (t := 0) (by decide)).concat (t := 1) (by decide)).concat
        (by decide)
    exact horder.not_circular (by decide)
  have hcovers : ∀ t, (build Sample.lateParent).Holds t → Sample.idleCosts.covers t = true := by
    rintro t ⟨h0, hn⟩
    change t < 3 at hn
    interval_cases t <;> rfl
  obtain ⟨ranks, order, hranks, horder, -, -, -, hsame⟩ :=
    priorityOrder_ties Sample.lateParent hacyclic hcovers ⟨by decide +kernel, by decide +kernel⟩
  have hvalues : ((upwardRanks (build Sample.lateParent) Sample.idleCosts).toOption.map fun ranks =>
      (rankOrder ranks, (priorityOrder (build Sample.lateParent) ranks).toOption)) =
        some ([2, 0, 1], some [2, 1, 0]) := by decide +kernel
  rw [hranks, Except.toOption, Option.map_some, horder] at hvalues
  obtain ⟨hplain, hheld⟩ := Prod.mk.inj (Option.some.inj hvalues)
  exact ⟨ranks, order, hranks, horder, Option.some.inj hheld, hplain, hsame⟩

end EarliestFinish
