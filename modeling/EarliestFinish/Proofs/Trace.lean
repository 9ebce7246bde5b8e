import EarliestFinish.Proofs.CriticalPath

/-!
# What a walk does on its way

The walk over the child links stops for every workflow, whatever its links. A trace lists its states
up to the last one, and from the states one reads off which tasks it enters, which places of the
child lists it looks at and which ranks it uses.

* Every step takes what it enters from the tasks that have not been entered, and what it looks at
  from the places that are still ahead (`Moves.unseen`, `Moves.ahead`). So over a trace no task is
  entered twice and no place is looked at twice (`Trace.entries`, `Trace.looks`).
* `upwardRanks_exact`: the walk is as long as the tasks and the edges allow, it is refused exactly
  the workflows with a child link that leads out of them or with a cycle of child links, and every
  rank that it uses is there.

Nothing is assumed of the numbers.
-/

namespace EarliestFinish

/-- The place, in the child list of its task, of the child that a frame looks at next. -/
def Frame.place {α : Type} (w : Workflow α) (f : Frame) : Nat :=
  (w.childrenOf f.task).length - f.pending.length

/-- The places that a frame has still to look at. -/
def Frame.places {α : Type} (w : Workflow α) (f : Frame) : List (Int × Nat) :=
  (List.range' (f.place w) f.pending.length).map (f.task, ·)

namespace Walk

variable {α : Type} {w : Workflow α} {walk next : Walk α} {walks : List (Walk α)}

/-- The task that is entered between two states, if one is. -/
def entered? (walk next : Walk α) : Option Int :=
  if walk.stack.length < next.stack.length then next.stack.head?.map Frame.task else none

/-- The tasks that are entered along a list of states. -/
def entries : List (Walk α) → List Int
  | walk :: next :: walks => (entered? walk next).toList ++ entries (next :: walks)
  | _ => []

/-- The task and the place of the child that is looked at in a state, if one is. -/
def looking? (w : Workflow α) (walk : Walk α) : Option (Int × Nat) :=
  match walk.stack with
  | ⟨t, child :: pending⟩ :: _ => some (t, Frame.place w ⟨t, child :: pending⟩)
  | _ => none

/-- The places that are looked at along a list of states. -/
def looks (w : Workflow α) (walks : List (Walk α)) : List (Int × Nat) :=
  walks.flatMap fun walk => (looking? w walk).toList

/-- The places that are still to be looked at: those of the tasks in progress and those of the tasks
that have not been entered. -/
def ahead (w : Workflow α) (walk : Walk α) : List (Int × Nat) :=
  (walk.stack ++ walk.unseen.map (enter w)).flatMap (Frame.places w)

/-- Every task in progress has the end of its child list before it. -/
def Tidy (w : Workflow α) (walk : Walk α) : Prop :=
  ∀ f ∈ walk.stack, f.pending <:+ w.childrenOf f.task

/-- What holds of the states of a walk as a whole. -/
structure Frugal (w : Workflow α) (walks : List (Walk α)) : Prop where
  length_le : walks.length ≤ 2 * w.size + w.edges.length + 1
  entries_nodup : (entries walks).Nodup
  entries_hold : ∀ t ∈ entries walks, w.Holds t
  looks_nodup : (looks w walks).Nodup
  /-- What is looked at in a state is the child at the place that is counted. -/
  looks_child : ∀ walk ∈ walks, ∀ t child pending outer,
    walk.stack = ⟨t, child :: pending⟩ :: outer →
      ∃ i, looking? w walk = some (t, i) ∧ (w.childrenOf t)[i]? = some child
  /-- A task that is left has the ranks of all its children to read. -/
  reads : ∀ walk ∈ walks, ∀ t outer, walk.stack = ⟨t, []⟩ :: outer →
    ∀ child ∈ w.childrenOf t, child ∈ walk.ranks.keys

/-! ## The steps -/

theorem places_cons {t child : Int} {pending : List Int}
    (h : (child :: pending) <:+ w.childrenOf t) :
    Frame.places w ⟨t, child :: pending⟩ =
      (t, Frame.place w ⟨t, child :: pending⟩) :: Frame.places w ⟨t, pending⟩ := by
  have hlength : pending.length + 1 ≤ (w.childrenOf t).length := h.length_le
  have hplace : (w.childrenOf t).length - (pending.length + 1) + 1 =
      (w.childrenOf t).length - pending.length := by omega
  simp only [Frame.places, Frame.place, List.length_cons, List.range'_succ, List.map_cons, hplace]

/-- What is looked at in a state is the child at the place that is counted. -/
theorem Tidy.child (ht : walk.Tidy w) {t child : Int} {pending : List Int} {outer : List Frame}
    (hs : walk.stack = ⟨t, child :: pending⟩ :: outer) :
    ∃ i, looking? w walk = some (t, i) ∧ (w.childrenOf t)[i]? = some child := by
  have hsuffix : (child :: pending) <:+ w.childrenOf t := ht ⟨t, child :: pending⟩ (by simp [hs])
  refine ⟨Frame.place w ⟨t, child :: pending⟩, by simp [looking?, hs], ?_⟩
  rw [Frame.place, ← List.head?_drop, ← List.suffix_iff_eq_drop.1 hsuffix, List.head?_cons]

theorem looking?_sublist_ahead (ht : walk.Tidy w) :
    (looking? w walk).toList.Sublist (walk.ahead w) := by
  unfold looking?
  split
  · next t child pending outer hs =>
    have hplaces := places_cons (ht ⟨t, child :: pending⟩ (by simp [hs]))
    simp [ahead, hs, hplaces]
  · exact List.nil_sublist _

/-! ## The walk from its start -/

section Start

variable (w : Workflow α)

theorem tidy_start : (start w).Tidy w := by simp [Tidy, start]

theorem length_edges :
    w.edges.length = (w.positions.map fun t => (w.childrenOf t).length).sum := by
  rw [Workflow.edges_eq, List.length_flatMap]
  simp

theorem tally_eq_sum {β : Type} (count : β → Nat) (xs : List β) :
    tally count xs = (xs.map count).sum := by
  induction xs with
  | nil => rfl
  | cons x xs ih => rw [tally, ih, List.map_cons, List.sum_cons]

/-- A walk is to enter and leave every task and to look at every edge. -/
theorem work_start : (start w).work w = 2 * w.size + w.edges.length := by
  have hsize : w.positions.length = w.size := by simp [Workflow.positions]
  simp only [work, start, tally_eq_sum, List.sum_map_add, ← length_edges, List.map_const',
    List.sum_replicate, hsize, smul_eq_mul, List.map_nil, List.sum_nil]
  omega

theorem ahead_start_nodup : ((start w).ahead w).Nodup := by
  have hahead : (start w).ahead w = w.positions.flatMap fun t => Frame.places w (enter w t) := by
    simp [ahead, start, List.flatMap_map]
  rw [hahead, List.nodup_flatMap]
  constructor
  · intro t _
    exact (List.nodup_range' 1).map fun _ _ h => (Prod.mk.inj h).2
  · refine w.positions_nodup.imp fun {t u} hne => ?_
    rintro ⟨v, i⟩ ht hu
    simp only [Frame.places, enter, List.mem_map, Prod.mk.injEq] at ht hu
    obtain ⟨_, -, htv, -⟩ := ht
    obtain ⟨_, -, huv, -⟩ := hu
    exact hne (htv.trans huv.symm)

end Start

variable [Quantity α] {c : CostTable α}

/-- What is entered was still to be entered. -/
theorem Moves.unseen (h : Moves w c walk next) :
    ((entered? walk next).toList ++ next.unseen).Perm walk.unseen := by
  cases h with
  | root hs hu => simp [entered?, hs, hu, Walk.enter]
  | leave hs => simp [entered?, hs]
  | enter hs hu => simpa [entered?, hs, Walk.enter] using (List.perm_cons_erase hu).symm
  | pass hs => simp [entered?, hs]

/-- What is looked at was still to be looked at. -/
theorem Moves.ahead (h : Moves w c walk next) (ht : walk.Tidy w) :
    ((looking? w walk).toList ++ next.ahead w).Perm (walk.ahead w) := by
  cases h with
  | root hs hu => simp [looking?, Walk.ahead, hs, hu]
  | leave hs => simp [looking?, Walk.ahead, hs, Frame.places]
  | @enter t child pending outer hs hu =>
    have hplaces := places_cons (ht ⟨t, child :: pending⟩ (by simp [hs]))
    -- the new frame comes from among the tasks that have not been entered
    have hunseen : (Walk.enter w child :: (⟨t, pending⟩ :: outer) ++
        (walk.unseen.erase child).map (Walk.enter w)).Perm
          ((⟨t, pending⟩ :: outer) ++ walk.unseen.map (Walk.enter w)) :=
      List.perm_middle.symm.trans (((List.perm_cons_erase hu).map _).symm.append_left _)
    have hahead := hunseen.flatMap_right (Frame.places w)
    simp only [looking?, Walk.ahead, hs, Option.toList_some, List.cons_append, List.nil_append,
      List.flatMap_cons, hplaces] at hahead ⊢
    exact hahead.cons _
  | @pass t child pending outer hs hu =>
    have hplaces := places_cons (ht ⟨t, child :: pending⟩ (by simp [hs]))
    simp [looking?, Walk.ahead, hs, hplaces]

theorem Moves.tidy (h : Moves w c walk next) (ht : walk.Tidy w) : next.Tidy w := by
  cases h with
  | root hs hu => simp [Tidy, Walk.enter]
  | leave hs => exact fun f hf => ht f (by simp [hs, hf])
  | @enter t child pending outer hs hu =>
    rw [Tidy, hs] at ht
    simp only [Tidy, List.forall_mem_cons] at ht ⊢
    exact ⟨List.suffix_rfl, (List.suffix_cons child pending).trans ht.1, ht.2⟩
  | @pass t child pending outer hs hu =>
    rw [Tidy, hs] at ht
    simp only [Tidy, List.forall_mem_cons] at ht ⊢
    exact ⟨(List.suffix_cons child pending).trans ht.1, ht.2⟩

/-! ## The runs -/

/-- The states of a walk from one of them to the last, and what the walk comes to. -/
inductive Trace (w : Workflow α) (c : CostTable α) :
    Walk α → List (Walk α) → Except (Fault α) (Table Int α) → Prop
  | done {walk : Walk α} {ranks : Table Int α} (h : walk.step w c = .done ranks) :
    Trace w c walk [walk] (.ok ranks)
  | stuck {walk : Walk α} {f : Fault α} (h : walk.step w c = .stuck f) :
    Trace w c walk [walk] (.error f)
  | onward {walk next : Walk α} {walks : List (Walk α)} {result : Except (Fault α) (Table Int α)}
      (h : walk.step w c = .onward next) (rest : Trace w c next walks result) :
    Trace w c walk (walk :: walks) result

/-- Every walk stops. -/
theorem exists_trace (w : Workflow α) (c : CostTable α) (walk : Walk α) :
    ∃ walks, Trace w c walk walks (walk.run w c) := by
  fun_induction run w c walk with
  | case1 walk next h ih =>
    obtain ⟨walks, hwalks⟩ := ih
    exact ⟨walk :: walks, .onward h hwalks⟩
  | case2 walk ranks h => exact ⟨[walk], .done h⟩
  | case3 walk f h => exact ⟨[walk], .stuck h⟩

namespace Trace

variable {result : Except (Fault α) (Table Int α)}

theorem eq_cons (h : Trace w c walk walks result) : ∃ rest, walks = walk :: rest := by
  cases h <;> exact ⟨_, rfl⟩

/-- What holds at first and is kept by every step holds in every state. -/
theorem induction {P : Walk α → Prop} (h : Trace w c walk walks result) (hfirst : P walk)
    (hstep : ∀ walk next, walk.step w c = .onward next → P walk → P next) :
    ∀ walk ∈ walks, P walk := by
  induction h with
  | done | stuck => simpa using hfirst
  | onward hnext _ ih => exact List.forall_mem_cons.2 ⟨hfirst, ih (hstep _ _ hnext hfirst)⟩

theorem length_le (h : Trace w c walk walks result) : walks.length ≤ walk.work w + 1 := by
  induction h with
  | done | stuck => simp
  | onward hnext _ ih =>
    have := work_step_lt hnext
    rw [List.length_cons]
    omega

/-- What is entered on the way was to be entered at first, as often as that. -/
theorem entries (h : Trace w c walk walks result) : (entries walks).Subperm walk.unseen := by
  induction h with
  | done | stuck => exact List.nil_subperm
  | onward hnext rest ih =>
    obtain ⟨later, rfl⟩ := rest.eq_cons
    exact ((List.subperm_append_left _).2 ih).trans (moves_of_step hnext).unseen.subperm

/-- What is looked at on the way was to be looked at, as often as that. -/
theorem looks (h : Trace w c walk walks result) (ht : walk.Tidy w) :
    (looks w walks).Subperm (walk.ahead w) := by
  induction h with
  | done | stuck => simpa [Walk.looks] using (looking?_sublist_ahead ht).subperm
  | onward hnext rest ih =>
    have hmoves := moves_of_step hnext
    exact ((List.subperm_append_left _).2 (ih (hmoves.tidy ht))).trans (hmoves.ahead ht).subperm

end Trace

/-! ## The walk as a whole -/

theorem Trace.frugal {result : Except (Fault α) (Table Int α)}
    (h : Trace w c (start w) walks result) : Frugal w walks where
  length_le := work_start w ▸ h.length_le
  entries_nodup := by
    obtain ⟨entered, hperm, hsublist⟩ := h.entries
    exact hperm.nodup_iff.1 (w.positions_nodup.sublist hsublist)
  entries_hold t ht := Workflow.mem_positions.1 (h.entries.subset ht)
  looks_nodup := by
    obtain ⟨looked, hperm, hsublist⟩ := h.looks (tidy_start w)
    exact hperm.nodup_iff.1 ((ahead_start_nodup w).sublist hsublist)
  looks_child := by
    have htidy := h.induction (tidy_start w) fun _ _ hstep ht => (moves_of_step hstep).tidy ht
    exact fun walk hwalk t child pending outer hs => (htidy walk hwalk).child hs
  reads := by
    have hsound := h.induction (sound_start w) fun _ _ hstep hs => hs.onward hstep
    intro walk hwalk t outer hs child hchild
    have hlooked := (hsound walk hwalk).looked
    rw [hs] at hlooked
    simpa using hlooked.1 child hchild

end Walk

variable {α : Type} [Quantity α] {w : Workflow α} {c : CostTable α}

/-- The walk over the child links stops on every workflow and wastes nothing on the way. It finds a
fault exactly where a child link leads out of the workflow or child links form a cycle; otherwise
exactly the tasks of the workflow get ranks. -/
theorem upwardRanks_exact (hc : ∀ t, w.Holds t → c.covers t = true) :
    (∃ walks, (Walk.start w).Trace w c walks (upwardRanks w c) ∧ Walk.Frugal w walks) ∧
      ((∃ f, upwardRanks w c = .error f ∧ f.kind = .malformedGraph) ↔
        w.Dangling w.childrenOf ∨ w.Circular w.childrenOf) ∧
      (¬ (w.Dangling w.childrenOf ∨ w.Circular w.childrenOf) →
        ∃ ranks, upwardRanks w c = .ok ranks ∧ ranks.keys.Perm w.positions) := by
  have hok {ranks : Table Int α} (h : upwardRanks w c = .ok ranks) :
      ¬ (w.Dangling w.childrenOf ∨ w.Circular w.childrenOf) := by
    obtain ⟨hperm, horder⟩ := upwardRanks_ok h
    exact not_or.2 ⟨horder.not_dangling hperm, horder.not_circular hperm⟩
  refine ⟨?_, ⟨?_, fun hlinks => ?_⟩, fun hlinks => ?_⟩
  · obtain ⟨walks, htrace⟩ := Walk.exists_trace w c (Walk.start w)
    exact ⟨walks, htrace, htrace.frugal⟩
  · rintro ⟨f, hf, -⟩
    exact (upwardRanks_error hc hf).2
  · cases h : upwardRanks w c with
    | error f => exact ⟨f, rfl, (upwardRanks_error hc h).1⟩
    | ok ranks => exact absurd hlinks (hok h)
  · cases h : upwardRanks w c with
    | error f => exact absurd (upwardRanks_error hc h).2 hlinks
    | ok ranks => exact ⟨ranks, rfl, (upwardRanks_ok h).1⟩

namespace Sample

/-- The diamond with a link from its last task back to its first. -/
def loopedDiamond : Workflow Rat where
  tasks := [
    { label := .text "load", length := 1, children := [1, 2] },
    { label := .text "clean", length := 1, children := [3] },
    { label := .text "train", length := 1, children := [3] },
    { label := .text "report", length := 1, children := [0] }]

theorem circular_loopedDiamond : loopedDiamond.Circular loopedDiamond.childrenOf := by
  have hlink : ∀ e ∈ [((0 : Int), (1 : Int)), (1, 3), (3, 0)],
      loopedDiamond.Links loopedDiamond.childrenOf e.1 e.2 := by
    unfold Workflow.Links
    decide
  refine ⟨0, .head (hlink (0, 1) ?_) (.head (hlink (1, 3) ?_) (.single (hlink (3, 0) ?_)))⟩ <;>
    decide

end Sample

/-- Two ways that meet are no cycle; a link back makes one of them. -/
theorem upwardRanks_exact_diamond :
    (∃ ranks, upwardRanks Sample.diamond Sample.diamondCosts = .ok ranks ∧
        ranks.keys.Perm [0, 1, 2, 3]) ∧
      (∃ walks result, (Walk.start Sample.diamond).Trace Sample.diamond Sample.diamondCosts walks
        result ∧ walks.length ≤ 13) ∧
      ∃ f, upwardRanks Sample.loopedDiamond Sample.diamondCosts = .error f ∧
        f.kind = .malformedGraph := by
  have hcovers : ∀ t : Int, 0 ≤ t ∧ t < 4 → Sample.diamondCosts.covers t = true := by
    rintro t ⟨h0, hn⟩
    interval_cases t <;> rfl
  obtain ⟨⟨walks, htrace, hfrugal⟩, hiff, hranks⟩ :=
    upwardRanks_exact (w := Sample.diamond) (c := Sample.diamondCosts) hcovers
  have hok : (upwardRanks Sample.diamond Sample.diamondCosts).toOption.isSome = true := by
    decide +kernel
  refine ⟨hranks fun hlinks => ?_, ⟨walks, _, htrace, hfrugal.length_le⟩, ?_⟩
  · obtain ⟨f, hf, -⟩ := hiff.2 hlinks
    rw [hf] at hok
    cases hok
  · exact (upwardRanks_exact (w := Sample.loopedDiamond) (c := Sample.diamondCosts) hcovers).2.1.2
      (Or.inr Sample.circular_loopedDiamond)

end EarliestFinish
