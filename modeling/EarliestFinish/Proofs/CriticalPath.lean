import EarliestFinish.Proofs.Comparison
import EarliestFinish.Proofs.Exact
import EarliestFinish.Proofs.Transfer
import EarliestFinish.Proofs.Walk

/-!
# Ranks are lengths of critical paths

A task gets its rank when all its children have theirs, and no rank changes later, whichever root
the walk comes from. So at the end every rank is the average cost of its task plus what the most
demanding child adds (`upwardRanks_eq_rankOf`). In exact quantities this makes the rank of a task
the length of the longest path of child links from it to a task without children.

* `Workflow.Descent` and `CostTable.pathLength` say what such a path is and how long it is;
* `rank_isGreatest` is the main step, by induction along the link order, and
  `upwardRanks_criticalPath` puts the results together;
* `Renumbering` says how two workflows have the same edges and the same costs, whatever the
  numbers of the tasks and the order and repetition of the links. Then they have the same ranks:
  `Renumbering.upwardRanks`.
-/

namespace EarliestFinish

open Quantity

/-! ## The equation of the ranks -/

namespace Walk

variable {α : Type} [Quantity α] {w : Workflow α} {c : CostTable α} {walk next : Walk α}
  {ranks : Table Int α} {t u : Int} {x : α}

/-- Every rank so far is what the ranks of the children make it, and its task has a row of costs. -/
structure Ranked (w : Workflow α) (c : CostTable α) (walk : Walk α) : Prop where
  rank : ∀ t x, walk.ranks.get? t = some x → x = rankOf w c walk.ranks t
  covered : ∀ t ∈ walk.ranks.keys, c.covers t = true

theorem ranked_start (w : Workflow α) (c : CostTable α) : (start w).Ranked w c where
  rank t x h := by cases h
  covered t h := by cases h

/-- The rank of a task does not depend on those of tasks that are not its children. -/
theorem rankOf_insert (h : t ∉ w.childrenOf u) :
    rankOf w c (ranks.insert t x) u = rankOf w c ranks u := by
  unfold rankOf
  congr 2
  refine List.map_congr_left fun child hchild => ?_
  have hne : t ≠ child := fun he => h (he ▸ hchild)
  rw [Table.get?_insert, if_neg hne]

/-- A step leaves the ranks alone or gives the innermost task its rank. -/
theorem ranks_step (h : walk.step w c = .onward next) :
    next.ranks = walk.ranks ∨ ∃ t outer, walk.stack = ⟨t, []⟩ :: outer ∧ c.covers t = true ∧
      next.ranks = walk.ranks.insert t (rankOf w c walk.ranks t) := by
  cases moves_of_step h with
  | root => exact Or.inl rfl
  | leave hs hc => exact Or.inr ⟨_, _, hs, hc, rfl⟩
  | enter => exact Or.inl rfl
  | pass => exact Or.inl rfl

theorem Ranked.step (hr : walk.Ranked w c) (hs : walk.Sound w)
    (h : walk.step w c = .onward next) : next.Ranked w c := by
  rcases ranks_step h with hranks | ⟨t, outer, hstack, hcovers, hranks⟩
  · constructor
    · rw [hranks]
      exact hr.rank
    · rw [hranks]
      exact hr.covered
  -- a task that is left was not ranked, so no ranked task has it for a child, nor it itself
  have hnew : t ∉ walk.ranks.keys := hs.not_mem_keys (by simp [active, hstack])
  have hlooked : Looked w walk.ranks.keys (⟨t, []⟩ :: outer) := hstack ▸ hs.looked
  have hself : t ∉ w.childrenOf t := fun hmem => hnew (by simpa using hlooked.1 t hmem)
  constructor
  · intro u x hx
    rw [hranks, Table.get?_insert] at hx
    rw [hranks]
    split at hx
    · next htu =>
      subst htu
      rw [rankOf_insert hself]
      exact (Option.some.inj hx).symm
    · have hu : u ∈ walk.ranks.keys := List.mem_map_of_mem (Table.mem_entries_of_get? hx)
      rw [rankOf_insert fun hmem => hnew (hs.order.mem hu hmem)]
      exact hr.rank u x hx
  · rw [hranks, Table.keys_insert, if_neg hnew]
    intro u hu
    rcases List.mem_append.1 hu with hu | hu
    · exact hr.covered u hu
    · obtain rfl := List.mem_singleton.1 hu
      exact hcovers

theorem Ranked.run (hr : walk.Ranked w c) (hs : walk.Sound w)
    (h : walk.run w c = .ok ranks) :
    (∀ t x, ranks.get? t = some x → x = rankOf w c ranks t) ∧
      ∀ t ∈ ranks.keys, c.covers t = true := by
  fun_induction Walk.run w c walk with
  | case1 walk next hstep ih => exact ih (hr.step hs hstep) (hs.onward hstep) h
  | case2 walk ranks' hstep =>
    obtain ⟨rfl, -⟩ := hs.done hstep
    cases h
    exact ⟨hr.rank, hr.covered⟩
  | case3 walk f hstep => cases h

end Walk

section AnyQuantity

variable {α : Type} [Quantity α] {w : Workflow α} {c : CostTable α} {ranks : Table Int α} {t : Int}

/-- At the end, every task has the rank that the ranks of its children make. -/
theorem upwardRanks_eq_rankOf (h : upwardRanks w c = .ok ranks) (ht : w.Holds t) :
    ranks.get? t = some (Walk.rankOf w c ranks t) := by
  have hmem : t ∈ ranks.keys := Workflow.mem_of_perm (upwardRanks_ok h).1 ht
  obtain ⟨x, hx⟩ := Table.exists_get? hmem
  rw [hx, ((Walk.ranked_start w c).run (Walk.sound_start w) h).1 t x hx]

/-- There are ranks only if every task has a row of costs. -/
theorem covers_of_upwardRanks (h : upwardRanks w c = .ok ranks) (ht : w.Holds t) :
    c.covers t = true :=
  ((Walk.ranked_start w c).run (Walk.sound_start w) h).2 t
    (Workflow.mem_of_perm (upwardRanks_ok h).1 ht)

theorem holds_child {child : Int} (h : upwardRanks w c = .ok ranks) (ht : w.Holds t)
    (hchild : child ∈ w.childrenOf t) : w.Holds child := by
  obtain ⟨hperm, horder⟩ := upwardRanks_ok h
  exact Workflow.holds_of_perm hperm (horder.mem (Workflow.mem_of_perm hperm ht) hchild)

/-- What passes from the children of a task to the task holds of all tasks. -/
theorem upwardRanks_induction {P : Int → Prop} (h : upwardRanks w c = .ok ranks)
    (hstep : ∀ t, w.Holds t → (∀ child ∈ w.childrenOf t, P child) → P t) (ht : w.Holds t) :
    P t := by
  obtain ⟨hperm, horder⟩ := upwardRanks_ok h
  exact horder.induction (fun t ht => hstep t (Workflow.holds_of_perm hperm ht))
    (Workflow.mem_of_perm hperm ht)

end AnyQuantity

/-! ## Paths -/

/-- A path of child links from a task to a task without children. -/
inductive Workflow.Descent {α : Type} (w : Workflow α) : Int → List Int → Prop
  | sink {t : Int} (h : w.childrenOf t = []) : w.Descent t [t]
  | step {t child : Int} {path : List Int} (hlink : child ∈ w.childrenOf t)
      (hpath : w.Descent child path) : w.Descent t (t :: path)

/-- The length of a path: the average costs of its tasks and the transfer times of its links. -/
def CostTable.pathLength (c : CostTable Rat) (path : List Int) : Rat :=
  (path.map c.averageCost).sum + (List.zipWith c.transferCost path path.tail).sum

/-- The lengths of the paths from a task. -/
def CostTable.pathLengths (c : CostTable Rat) (w : Workflow Rat) (t : Int) : Set Rat :=
  {x | ∃ path, w.Descent t path ∧ c.pathLength path = x}

variable {w w' : Workflow Rat} {c c' : CostTable Rat} {ranks : Table Int Rat} {t child : Int}
  {path : List Int}

theorem CostTable.pathLength_singleton (c : CostTable Rat) (t : Int) :
    c.pathLength [t] = c.averageCost t := by
  simp [pathLength]

theorem Workflow.Descent.exists_cons (h : w.Descent t path) : ∃ rest, path = t :: rest := by
  cases h with
  | sink => exact ⟨[], rfl⟩
  | step => exact ⟨_, rfl⟩

/-- A link in front of a path adds a task and a transfer. -/
theorem Workflow.Descent.pathLength_cons (h : w.Descent child path) :
    c.pathLength (t :: path) =
      c.averageCost t + (c.transferCost t child + c.pathLength path) := by
  obtain ⟨rest, rfl⟩ := h.exists_cons
  simp only [CostTable.pathLength, List.map_cons, List.sum_cons, List.tail_cons,
    List.zipWith_cons_cons]
  ring

theorem rank_of_sink (h : upwardRanks w c = .ok ranks) (ht : w.Holds t)
    (hsink : w.childrenOf t = []) : ranks.get? t = some (c.averageCost t) := by
  rw [upwardRanks_eq_rankOf h ht, Walk.rankOf, hsink]
  exact congrArg some (add_zero _)

/-- What the children of a task add to its rank, each for itself. -/
def childTerms (w : Workflow Rat) (c : CostTable Rat) (ranks : Table Int Rat) (t : Int) : Set Rat :=
  {x | ∃ child ∈ w.childrenOf t, ∃ r, ranks.get? child = some r ∧ c.transferCost t child + r = x}

theorem rank_of_children (h : upwardRanks w c = .ok ranks) (ht : w.Holds t)
    (hne : w.childrenOf t ≠ []) :
    ∃ x, IsGreatest (childTerms w c ranks t) x ∧ ranks.get? t = some (c.averageCost t + x) := by
  have hmem (x : Rat) : x ∈ childTerms w c ranks t ↔ x ∈ (w.childrenOf t).map fun child =>
      c.transferCost t child + (ranks.get? child).getD 0 := by
    simp only [childTerms, Set.mem_ofPred_eq, List.mem_map]
    refine exists_congr fun child => and_congr_right fun hchild => ?_
    rw [upwardRanks_eq_rankOf h (holds_child h ht hchild)]
    simp
  refine ⟨_, ⟨?_, fun x hx => ?_⟩, upwardRanks_eq_rankOf h ht⟩
  · exact (hmem _).2 (largestOr_mem 0 (mt List.map_eq_nil_iff.1 hne))
  · exact le_largestOr 0 ((hmem x).1 hx)

/-- The rank of a task is the length of a longest path from it. -/
theorem rank_isGreatest (h : upwardRanks w c = .ok ranks) (ht : w.Holds t) :
    ∃ x, ranks.get? t = some x ∧ IsGreatest (c.pathLengths w t) x := by
  refine upwardRanks_induction (P := fun t => ∃ x, ranks.get? t = some x ∧
    IsGreatest (c.pathLengths w t) x) h (fun t ht ih => ?_) ht
  by_cases hsink : w.childrenOf t = []
  -- nothing but the task itself is a path from a task without children
  · refine ⟨_, rank_of_sink h ht hsink, ⟨[t], .sink hsink, c.pathLength_singleton t⟩, ?_⟩
    rintro y ⟨path, hpath, rfl⟩
    cases hpath with
    | sink => rw [c.pathLength_singleton]
    | step hlink => simp [hsink] at hlink
  · obtain ⟨x, ⟨⟨child, hchild, r, hr, hx⟩, hgreatest⟩, hrank⟩ := rank_of_children h ht hsink
    refine ⟨_, hrank, ?_, ?_⟩
    · obtain ⟨r', hr', ⟨path, hpath, hlength⟩, -⟩ := ih child hchild
      obtain rfl := Option.some.inj (hr.symm.trans hr')
      exact ⟨t :: path, .step hchild hpath, by rw [hpath.pathLength_cons, hlength, hx]⟩
    · rintro y ⟨path, hpath, rfl⟩
      cases hpath with
      | sink hnone => exact absurd hnone hsink
      | @step _ next rest hlink hrest =>
        obtain ⟨r', hr', -, hbound⟩ := ih next hlink
        have hlength : c.pathLength rest ≤ r' := hbound ⟨rest, hrest, rfl⟩
        have hterm : c.transferCost t next + r' ≤ x := hgreatest ⟨next, hlink, r', hr', rfl⟩
        rw [hrest.pathLength_cons]
        linarith

/-! ## The numbers of the tasks -/

/-- Two workflows have the same set of edges and the same costs, but for the numbers of the tasks.
Nothing is said of the order in which links are listed or of how often. -/
structure Renumbering (f : Int → Int) (w : Workflow Rat) (c : CostTable Rat) (w' : Workflow Rat)
    (c' : CostTable Rat) : Prop where
  tasks : Set.BijOn f {t | w.Holds t} {t | w'.Holds t}
  edges : {e | e ∈ w'.edges} = Prod.map f f '' {e | e ∈ w.edges}
  covers : ∀ t, w.Holds t → c'.covers (f t) = c.covers t
  averageCost : ∀ t, w.Holds t → c'.averageCost (f t) = c.averageCost t
  transferCost : ∀ e ∈ w.edges, c'.transferCost (f e.1) (f e.2) = c.transferCost e.1 e.2

namespace Renumbering

variable {f : Int → Int} {xs : List Int}

theorem mem_childrenOf (hf : Renumbering f w c w' c') (ht : w.Holds t) {l : Int} :
    l ∈ w'.childrenOf (f t) ↔ ∃ child ∈ w.childrenOf t, f child = l := by
  have hedge : (f t, l) ∈ w'.edges ↔ (f t, l) ∈ Prod.map f f '' {e | e ∈ w.edges} := by
    rw [← hf.edges]
    exact Iff.rfl
  have hlink : (f t, l) ∈ w'.edges ↔ l ∈ w'.childrenOf (f t) :=
    Workflow.mem_edges.trans (and_iff_right (hf.tasks.mapsTo ht))
  rw [← hlink, hedge]
  constructor
  · rintro ⟨⟨u, child⟩, he, heq⟩
    obtain ⟨hut, rfl⟩ := Prod.mk.inj heq
    obtain ⟨hu, hchild⟩ := Workflow.mem_edges.1 he
    obtain rfl := hf.tasks.injOn hu ht hut
    exact ⟨child, hchild, rfl⟩
  · rintro ⟨child, hchild, rfl⟩
    exact ⟨(t, child), Workflow.mem_edges.2 ⟨ht, hchild⟩, rfl⟩

theorem transfer_link (hf : Renumbering f w c w' c') (ht : w.Holds t)
    (hchild : child ∈ w.childrenOf t) :
    c'.transferCost (f t) (f child) = c.transferCost t child :=
  hf.transferCost (t, child) (Workflow.mem_edges.2 ⟨ht, hchild⟩)

theorem perm (hf : Renumbering f w c w' c') (h : xs.Perm w.positions) :
    (xs.map f).Perm w'.positions := by
  have hinj : ∀ t ∈ xs, ∀ u ∈ xs, f t = f u → t = u := fun t ht u hu =>
    hf.tasks.injOn (Workflow.holds_of_perm h ht) (Workflow.holds_of_perm h hu)
  refine (List.perm_ext_iff_of_nodup ?_ w'.positions_nodup).2 fun l => ?_
  · exact (h.nodup_iff.2 w.positions_nodup).map_on hinj
  · rw [Workflow.mem_positions, List.mem_map]
    constructor
    · rintro ⟨t, ht, rfl⟩
      exact hf.tasks.mapsTo (Workflow.holds_of_perm h ht)
    · intro hl
      obtain ⟨t, ht, rfl⟩ := hf.tasks.surjOn hl
      exact ⟨t, Workflow.mem_of_perm h ht, rfl⟩

theorem linkOrdered (hf : Renumbering f w c w' c') (hold : ∀ t ∈ xs, w.Holds t)
    (h : LinkOrdered w.childrenOf xs) : LinkOrdered w'.childrenOf (xs.map f) := by
  intro before l after hsplit l' hl'
  obtain ⟨front, back, rfl, rfl, hback⟩ := List.map_eq_append_iff.1 hsplit
  obtain ⟨t, back, rfl, rfl, -⟩ := List.map_eq_cons_iff.1 hback
  obtain ⟨child, hchild, rfl⟩ := (hf.mem_childrenOf (hold t (by simp))).1 hl'
  exact List.mem_map_of_mem (h front t back rfl child hchild)

/-- The ranks of the one workflow are those of the other. -/
theorem upwardRanks (hf : Renumbering f w c w' c') (h : upwardRanks w c = .ok ranks) :
    ∃ ranks', EarliestFinish.upwardRanks w' c' = .ok ranks' ∧
      ∀ t, w.Holds t → ranks'.get? (f t) = ranks.get? t := by
  obtain ⟨hperm, horder⟩ := upwardRanks_ok h
  have hold : ∀ t ∈ ranks.keys, w.Holds t := fun t => Workflow.holds_of_perm hperm
  have hperm' := hf.perm hperm
  have horder' := hf.linkOrdered hold horder
  have hcovers : ∀ l, w'.Holds l → c'.covers l = true := by
    intro l hl
    obtain ⟨t, ht, rfl⟩ := hf.tasks.surjOn hl
    rw [hf.covers t ht, covers_of_upwardRanks h ht]
  cases h' : EarliestFinish.upwardRanks w' c' with
  | error fault =>
    rcases (upwardRanks_error hcovers h').2 with hdangling | hcircular
    · exact absurd hdangling (horder'.not_dangling hperm')
    · exact absurd hcircular (horder'.not_circular hperm')
  | ok ranks' =>
    refine ⟨ranks', rfl, fun t ht => ?_⟩
    refine upwardRanks_induction (P := fun t => ranks'.get? (f t) = ranks.get? t) h
      (fun t ht ih => ?_) ht
    have ht' : w'.Holds (f t) := hf.tasks.mapsTo ht
    by_cases hsink : w.childrenOf t = []
    · have hsink' : w'.childrenOf (f t) = [] := by
        refine List.eq_nil_iff_forall_not_mem.2 fun l hl => ?_
        obtain ⟨child, hchild, -⟩ := (hf.mem_childrenOf ht).1 hl
        simp [hsink] at hchild
      rw [rank_of_sink h ht hsink, rank_of_sink h' ht' hsink', hf.averageCost t ht]
    · have hsink' : w'.childrenOf (f t) ≠ [] := by
        obtain ⟨child, hchild⟩ := List.exists_mem_of_ne_nil _ hsink
        exact List.ne_nil_of_mem ((hf.mem_childrenOf ht).2 ⟨child, hchild, rfl⟩)
      -- both ranks add the greatest of the same terms
      have hterms : childTerms w' c' ranks' (f t) = childTerms w c ranks t := by
        ext x
        constructor
        · rintro ⟨l, hl, r, hr, rfl⟩
          obtain ⟨child, hchild, rfl⟩ := (hf.mem_childrenOf ht).1 hl
          rw [ih child hchild] at hr
          exact ⟨child, hchild, r, hr, by rw [hf.transfer_link ht hchild]⟩
        · rintro ⟨child, hchild, r, hr, rfl⟩
          refine ⟨f child, (hf.mem_childrenOf ht).2 ⟨child, hchild, rfl⟩, r, ?_, ?_⟩
          · rw [ih child hchild, hr]
          · rw [hf.transfer_link ht hchild]
      obtain ⟨x, hx, hrank⟩ := rank_of_children h ht hsink
      obtain ⟨x', hx', hrank'⟩ := rank_of_children h' ht' hsink'
      rw [hterms] at hx'
      rw [hrank, hrank', hx.unique hx', hf.averageCost t ht]

end Renumbering

/-- The rank of a task is the length of a longest path from it, which is the average cost of the
task and the most that one of its children adds, and it is the same in every numbering. -/
theorem upwardRanks_criticalPath (h : upwardRanks w c = .ok ranks) :
    ranks.keys.Perm w.positions ∧
      (∀ t, w.Holds t → ∃ x, ranks.get? t = some x ∧ IsGreatest (c.pathLengths w t) x ∧
        (w.childrenOf t = [] → x = c.averageCost t) ∧
        (w.childrenOf t ≠ [] →
          ∃ y, IsGreatest (childTerms w c ranks t) y ∧ x = c.averageCost t + y)) ∧
      ∀ f w' c', Renumbering f w c w' c' → ∃ ranks', upwardRanks w' c' = .ok ranks' ∧
        ∀ t, w.Holds t → ranks'.get? (f t) = ranks.get? t := by
  refine ⟨(upwardRanks_ok h).1, fun t ht => ?_, fun f w' c' hf => hf.upwardRanks h⟩
  obtain ⟨x, hx, hgreatest⟩ := rank_isGreatest h ht
  refine ⟨x, hx, hgreatest, fun hsink => ?_, fun hne => ?_⟩
  · exact Option.some.inj (hx.symm.trans (rank_of_sink h ht hsink))
  · obtain ⟨y, hy, hrank⟩ := rank_of_children h ht hne
    exact ⟨y, hy, Option.some.inj (hx.symm.trans hrank)⟩

namespace Sample

/-- Two ways lead from the first task to the last. -/
def diamond : Workflow Rat where
  tasks := [
    { label := .text "load", length := 1, children := [1, 2] },
    { label := .text "clean", length := 1, children := [3] },
    { label := .text "train", length := 1, children := [3] },
    { label := .text "report", length := 1 }]

/-- The diamond with its tasks in the opposite order and some links listed again. -/
def turnedDiamond : Workflow Rat where
  tasks := [
    { label := .text "report", length := 1 },
    { label := .text "train", length := 1, children := [0, 0] },
    { label := .text "clean", length := 1, children := [0] },
    { label := .text "load", length := 1, children := [1, 2, 1] }]

/-- Costs for the diamond; a transfer may even save time. -/
def diamondCosts : CostTable Rat where
  estimates := [[some 2, some 4], [some 7, some 1], [some 1, some 1], [some 2, none]]
  transfer := ⟨[((0, 1), -1), ((0, 2), 5), ((1, 3), 2), ((2, 3), 1 / 2)]⟩
  averageBandwidth := 1
  infeasibleCost := 4

def turnedCosts : CostTable Rat where
  estimates := [[some 2, none], [some 1, some 1], [some 7, some 1], [some 2, some 4]]
  transfer := ⟨[((2, 0), 2), ((1, 0), 1 / 2), ((3, 1), 5), ((3, 2), -1)]⟩
  averageBandwidth := 1
  infeasibleCost := 4

theorem edges_diamond : diamond.edges = [(0, 1), (0, 2), (1, 3), (2, 3)] := rfl

theorem edges_turnedDiamond :
    turnedDiamond.edges = [(1, 0), (1, 0), (2, 0), (3, 1), (3, 2), (3, 1)] := rfl

theorem renumbering_diamond :
    Renumbering (fun t => 3 - t) diamond diamondCosts turnedDiamond turnedCosts where
  tasks := by
    have hturn : ∀ t, diamond.Holds t → turnedDiamond.Holds (3 - t) ∧ diamond.Holds (3 - t) := by
      intro t ⟨h0, hn⟩
      change t < 4 at hn
      refine ⟨⟨by omega, ?_⟩, by omega, ?_⟩ <;> change 3 - t < 4 <;> omega
    refine ⟨fun t ht => (hturn t ht).1, fun t _ u _ htu => ?_, fun t ht => ⟨3 - t, ?_, ?_⟩⟩
    · exact sub_right_injective htu
    · exact (hturn t ht).2
    · exact sub_sub_cancel 3 t
  edges := by
    ext ⟨p, child⟩
    rw [edges_diamond, edges_turnedDiamond]
    simp only [Set.mem_image, Set.mem_ofPred_eq, List.mem_cons, List.not_mem_nil, or_false,
      exists_eq_or_imp, exists_eq_left, Prod.map, Prod.mk.injEq]
    omega
  covers := by
    intro t ⟨h0, hn⟩
    change t < 4 at hn
    interval_cases t <;> rfl
  averageCost := by
    intro t ⟨h0, hn⟩
    change t < 4 at hn
    interval_cases t <;> decide +kernel
  transferCost := by
    rw [edges_diamond]
    decide +kernel

end Sample

/-- In the diamond, the longest path leads over the second of its children, in either numbering. -/
theorem upwardRanks_criticalPath_diamond :
    ∃ ranks ranks', upwardRanks Sample.diamond Sample.diamondCosts = .ok ranks ∧
      upwardRanks Sample.turnedDiamond Sample.turnedCosts = .ok ranks' ∧
      IsGreatest (Sample.diamondCosts.pathLengths Sample.diamond 0) (25 / 2) ∧
      ranks'.get? 3 = some (25 / 2) := by
  have hrank : (upwardRanks Sample.diamond Sample.diamondCosts).toOption.map (·.get? 0) =
      some (some (25 / 2)) := by decide +kernel
  cases h : upwardRanks Sample.diamond Sample.diamondCosts with
  | error f =>
    rw [h] at hrank
    cases hrank
  | ok ranks =>
    rw [h] at hrank
    have hfirst : ranks.get? 0 = some (25 / 2) := Option.some.inj hrank
    have hholds : Sample.diamond.Holds 0 := by decide
    obtain ⟨-, hlongest, hnumbering⟩ := upwardRanks_criticalPath h
    obtain ⟨x, hx, hgreatest, -⟩ := hlongest 0 hholds
    obtain rfl := Option.some.inj (hx.symm.trans hfirst)
    obtain ⟨ranks', h', hsame⟩ := hnumbering _ _ _ Sample.renumbering_diamond
    exact ⟨ranks, ranks', rfl, h', hgreatest, (hsame 0 hholds).trans hfirst⟩

end EarliestFinish
