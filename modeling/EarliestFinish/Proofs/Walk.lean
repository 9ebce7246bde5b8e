import EarliestFinish.Proofs.LinkOrder
import EarliestFinish.UpwardRank
import Mathlib.Tactic

/-!
# The walk over the child links

The tasks in progress form a path of child links, from the innermost task outwards, and every child
that a task in progress has looked at has its rank or stands further inside. So a child that is in
progress closes a cycle, and a task that is left finds all its children ranked.

* `Walk.Sound` is this invariant, and `Walk.Sound.step` what a step makes of it;
* `Walk.Moves` are the four ways in which a step leads onward;
* `upwardRanks_ok` and `upwardRanks_error`: the ranks come out in the order of the child links, one
  for every task, unless a child link leaves the workflow or the child links form a cycle.

Nothing is assumed of the numbers.
-/

namespace EarliestFinish

variable {α : Type} {w : Workflow α}

namespace Walk

variable {walk : Walk α} {t child : Int} {pending unseen : List Int} {outer : List Frame}

/-- Every child of a task in progress is still to be looked at, is known, or stands further
inside. -/
def Looked (w : Workflow α) : List Int → List Frame → Prop
  | _, [] => True
  | known, f :: outer =>
    (∀ l ∈ w.childrenOf f.task, l ∈ f.pending ∨ l ∈ known) ∧ Looked w (f.task :: known) outer

/-- The tasks in progress, innermost first. -/
def active (walk : Walk α) : List Int := walk.stack.map Frame.task

/-- What holds at every point of a walk. -/
structure Sound (w : Workflow α) (walk : Walk α) : Prop where
  tasks : (walk.ranks.keys ++ walk.active ++ walk.unseen).Perm w.positions
  path : walk.active.IsChain fun inner outer => w.Links w.childrenOf outer inner
  pending : ∀ f ∈ walk.stack, ∀ l ∈ f.pending, l ∈ w.childrenOf f.task
  looked : Looked w walk.ranks.keys walk.stack
  order : LinkOrdered w.childrenOf walk.ranks.keys

theorem Looked.mono {known known' : List Int} {stack : List Frame} (h : Looked w known stack)
    (hk : ∀ l ∈ known, l ∈ known') : Looked w known' stack := by
  induction stack generalizing known known' with
  | nil => trivial
  | cons f outer ih =>
    refine ⟨fun l hl => (h.1 l hl).imp_right (hk l), ih h.2 fun l hl => ?_⟩
    rcases List.mem_cons.1 hl with rfl | hl
    · exact List.mem_cons_self
    · exact List.mem_cons_of_mem _ (hk l hl)

theorem sound_start (w : Workflow α) : (start w).Sound w where
  tasks := by simp [start, active, Table.keys]
  path := by simp [start, active]
  pending := by simp [start]
  looked := trivial
  order := .nil _

theorem mem_active_iff : walk.inProgress t = true ↔ t ∈ walk.active := by
  simp [inProgress, active]

namespace Sound

theorem holds (h : walk.Sound w) (ht : t ∈ walk.active) : w.Holds t :=
  Workflow.holds_of_perm h.tasks (by simp [ht])

theorem not_mem_keys (h : walk.Sound w) (ht : t ∈ walk.active) : t ∉ walk.ranks.keys := by
  have hn := h.tasks.nodup_iff.2 w.positions_nodup
  rw [List.append_assoc] at hn
  exact fun hk => (List.disjoint_of_nodup_append hn) hk (List.mem_append_left _ ht)

/-- Every task in progress leads by child links to the innermost one. -/
theorem reaches {rest : List Int} (h : walk.Sound w) (hs : walk.active = t :: rest) {u : Int}
    (hu : u ∈ walk.active) : Relation.ReflTransGen (w.Links w.childrenOf) u t := by
  refine h.path.induction (Relation.ReflTransGen (w.Links w.childrenOf) · t) _
    (fun x y hxy hx => .head hxy hx) (fun hne => ?_) u hu
  simp only [hs, List.head_cons, Relation.ReflTransGen.refl]

/-- Entering the first task that has not been entered. -/
theorem root (h : walk.Sound w) (hs : walk.stack = []) (hu : walk.unseen = t :: unseen) :
    ({ walk with unseen, stack := [enter w t] } : Walk α).Sound w where
  tasks := by
    have := h.tasks
    simpa [active, hs, hu, enter] using this
  path := by simp [active]
  pending := by simp [enter]
  looked := ⟨fun l hl => Or.inl hl, trivial⟩
  order := h.order

/-- Leaving the innermost task. -/
theorem leave (h : walk.Sound w) (hs : walk.stack = ⟨t, []⟩ :: outer) (x : α) :
    ({ walk with stack := outer, ranks := walk.ranks.insert t x } : Walk α).Sound w := by
  have hkeys : (walk.ranks.insert t x).keys = walk.ranks.keys ++ [t] := by
    rw [Table.keys_insert, if_neg (h.not_mem_keys (by simp [active, hs]))]
  obtain ⟨hchildren, houter⟩ : Looked w walk.ranks.keys (⟨t, []⟩ :: outer) := hs ▸ h.looked
  refine ⟨?_, ?_, ?_, ?_, ?_⟩
  · simpa [hkeys, active, hs] using h.tasks
  · have := h.path
    simp only [active, hs, List.map_cons] at this
    exact this.tail
  · exact fun f hf => h.pending f (by simp [hs, hf])
  · rw [hkeys]
    exact houter.mono (by simp [or_comm])
  · rw [hkeys]
    exact h.order.concat fun l hl => by simpa using hchildren l hl

/-- Entering a child of the innermost task. -/
theorem enter (h : walk.Sound w) (hs : walk.stack = ⟨t, child :: pending⟩ :: outer)
    (hc : child ∈ walk.unseen) :
    ({ walk with
        unseen := walk.unseen.erase child
        stack := enter w child :: ⟨t, pending⟩ :: outer } : Walk α).Sound w := by
  obtain ⟨hchildren, houter⟩ : Looked w walk.ranks.keys (⟨t, child :: pending⟩ :: outer) :=
    hs ▸ h.looked
  have hpending := h.pending
  rw [hs] at hpending
  have hlink : child ∈ w.childrenOf t := hpending _ List.mem_cons_self child List.mem_cons_self
  refine ⟨?_, ?_, ?_, ?_, h.order⟩
  · have hperm := h.tasks
    simp only [active, hs, List.map_cons] at hperm
    refine .trans ?_ hperm
    simp only [active, Walk.enter, List.map_cons, List.append_assoc]
    refine List.Perm.append_left _ ?_
    exact List.perm_middle.symm.trans ((List.perm_cons_erase hc).symm.append_left _)
  · have := h.path
    simp only [active, hs, List.map_cons] at this
    simp only [active, Walk.enter, List.map_cons]
    exact List.isChain_cons_cons.2 ⟨⟨h.holds (by simp [active, hs]), hlink⟩, this⟩
  · intro f hf l hl
    rcases List.mem_cons.1 hf with rfl | hf
    · exact hl
    rcases List.mem_cons.1 hf with rfl | hf
    · exact hpending _ List.mem_cons_self l (List.mem_cons_of_mem _ hl)
    · exact hpending f (List.mem_cons_of_mem _ hf) l hl
  · refine ⟨fun l hl => Or.inl hl, fun l hl => ?_, houter.mono (by simp +contextual)⟩
    have := hchildren l hl
    simp only [List.mem_cons, Walk.enter] at this ⊢
    tauto

/-- Passing over a child that has its rank. -/
theorem pass (h : walk.Sound w) (hs : walk.stack = ⟨t, child :: pending⟩ :: outer)
    (hc : child ∈ walk.ranks.keys) :
    ({ walk with stack := ⟨t, pending⟩ :: outer } : Walk α).Sound w := by
  obtain ⟨hchildren, houter⟩ : Looked w walk.ranks.keys (⟨t, child :: pending⟩ :: outer) :=
    hs ▸ h.looked
  have hpending := h.pending
  rw [hs] at hpending
  refine ⟨?_, ?_, ?_, ?_, h.order⟩
  · simpa [active, hs] using h.tasks
  · simpa [active, hs] using h.path
  · intro f hf l hl
    rcases List.mem_cons.1 hf with rfl | hf
    · exact hpending _ List.mem_cons_self l (List.mem_cons_of_mem _ hl)
    · exact hpending f (List.mem_cons_of_mem _ hf) l hl
  · refine ⟨fun l hl => ?_, houter⟩
    rcases hchildren l hl with hl | hl
    · rcases List.mem_cons.1 hl with rfl | hl
      · exact Or.inr hc
      · exact Or.inl hl
    · exact Or.inr hl

/-- A known child that is neither in progress nor still to be entered has its rank. -/
theorem mem_keys (h : walk.Sound w) (hw : w.Holds child) (hp : ¬ walk.inProgress child = true)
    (hu : child ∉ walk.unseen) : child ∈ walk.ranks.keys := by
  have := Workflow.mem_of_perm h.tasks hw
  simp only [List.mem_append] at this
  rcases this with (hk | ha) | hu'
  · exact hk
  · exact absurd (mem_active_iff.2 ha) hp
  · exact absurd hu' hu

/-- What a step may lead to: a sound walk, the ranks of all tasks, a task that the cost table does
not cover, or a fault in the child links. -/
def Foreseen (w : Workflow α) (c : CostTable α) (walk : Walk α) : Outcome α → Prop
  | .onward next => next.Sound w
  | .done ranks => ranks = walk.ranks ∧ walk.active = [] ∧ walk.unseen = []
  | .stuck f => (∃ t, w.Holds t ∧ ¬ c.covers t = true) ∨
      f.kind = .malformedGraph ∧ (w.Dangling w.childrenOf ∨ w.Circular w.childrenOf)

variable [Quantity α] {c : CostTable α}

theorem step (h : walk.Sound w) : Foreseen w c walk (walk.step w c) := by
  unfold Walk.step
  split
  · next hs =>
    split
    · next hu => exact ⟨rfl, by simp [active, hs], hu⟩
    · next t unseen hu => exact h.root hs hu
  · next t outer hs =>
    split
    · exact h.leave hs _
    · next hc => exact Or.inl ⟨t, h.holds (by simp [active, hs]), hc⟩
  · next t child pending outer hs =>
    have hactive : walk.active = t :: outer.map Frame.task := by simp [active, hs]
    have hlink : w.Links w.childrenOf t child :=
      ⟨h.holds (by simp [hactive]), h.pending ⟨t, child :: pending⟩ (by simp [hs]) child (by simp)⟩
    split
    · next hout => exact Or.inr ⟨rfl, Or.inl ⟨t, child, hlink, hout⟩⟩
    · next hin =>
      rw [not_not] at hin
      split
      · next hp =>
        exact Or.inr ⟨rfl, Or.inr ⟨t, .head' hlink (h.reaches hactive (mem_active_iff.1 hp))⟩⟩
      · next hp =>
        split
        · next hu => exact h.enter hs hu
        · next hu => exact h.pass hs (h.mem_keys hin hp hu)

theorem onward (h : walk.Sound w) {next : Walk α} (hs : walk.step w c = .onward next) :
    next.Sound w := by
  have := h.step (c := c)
  rwa [hs] at this

theorem done (h : walk.Sound w) {ranks : Table Int α} (hs : walk.step w c = .done ranks) :
    ranks = walk.ranks ∧ walk.active = [] ∧ walk.unseen = [] := by
  have := h.step (c := c)
  rwa [hs] at this

theorem stuck (h : walk.Sound w) {f : Fault α} (hs : walk.step w c = .stuck f) :
    (∃ t, w.Holds t ∧ ¬ c.covers t = true) ∨
      f.kind = .malformedGraph ∧ (w.Dangling w.childrenOf ∨ w.Circular w.childrenOf) := by
  have := h.step (c := c)
  rwa [hs] at this

end Sound

variable [Quantity α] {c : CostTable α}

/-- What a step onward does: it enters the first task, leaves the innermost one, enters a child of
it, or passes over one. -/
inductive Moves (w : Workflow α) (c : CostTable α) (walk : Walk α) : Walk α → Prop
  | root {t : Int} {unseen : List Int} (hs : walk.stack = []) (hu : walk.unseen = t :: unseen) :
    Moves w c walk { walk with unseen, stack := [enter w t] }
  | leave {t : Int} {outer : List Frame} (hs : walk.stack = ⟨t, []⟩ :: outer)
      (hc : c.covers t = true) :
    Moves w c walk
      { walk with stack := outer, ranks := walk.ranks.insert t (rankOf w c walk.ranks t) }
  | enter {t child : Int} {pending : List Int} {outer : List Frame}
      (hs : walk.stack = ⟨t, child :: pending⟩ :: outer) (hu : child ∈ walk.unseen) :
    Moves w c walk
      { walk with
        unseen := walk.unseen.erase child
        stack := enter w child :: ⟨t, pending⟩ :: outer }
  | pass {t child : Int} {pending : List Int} {outer : List Frame}
      (hs : walk.stack = ⟨t, child :: pending⟩ :: outer) (hu : child ∉ walk.unseen) :
    Moves w c walk { walk with stack := ⟨t, pending⟩ :: outer }

theorem moves_of_step {next : Walk α} (h : walk.step w c = .onward next) : Moves w c walk next := by
  unfold step at h
  split at h
  · next hs =>
    split at h
    · cases h
    · next hu =>
      cases h
      exact .root hs hu
  · next hs =>
    split at h
    · next hc =>
      cases h
      exact .leave hs hc
    · cases h
  · next hs =>
    split at h
    · cases h
    · split at h
      · cases h
      · split at h
        · next hu =>
          cases h
          exact .enter hs hu
        · next hu =>
          cases h
          exact .pass hs hu

/-- A walk that has come to its end. -/
theorem run_ok (h : walk.Sound w) {ranks : Table Int α} (hr : walk.run w c = .ok ranks) :
    ranks.keys.Perm w.positions ∧ LinkOrdered w.childrenOf ranks.keys := by
  fun_induction run w c walk with
  | case1 walk next hs ih => exact ih (h.onward hs) hr
  | case2 walk ranks' hs =>
    obtain ⟨rfl, ha, hu⟩ := h.done hs
    cases hr
    have := h.tasks
    rw [ha, hu, List.append_nil, List.append_nil] at this
    exact ⟨this, h.order⟩
  | case3 walk f hs => cases hr

/-- A walk that has met a fault. -/
theorem run_error (h : walk.Sound w) (hc : ∀ t, w.Holds t → c.covers t = true) {f : Fault α}
    (hr : walk.run w c = .error f) :
    f.kind = .malformedGraph ∧ (w.Dangling w.childrenOf ∨ w.Circular w.childrenOf) := by
  fun_induction run w c walk with
  | case1 walk next hs ih => exact ih (h.onward hs) hr
  | case2 walk ranks hs => cases hr
  | case3 walk f' hs =>
    cases hr
    exact (h.stuck hs).resolve_left fun ⟨t, ht, hnot⟩ => hnot (hc t ht)

end Walk

variable [Quantity α] {c : CostTable α}

/-- There is a rank for every task, and the ranks came in the order of the child links. -/
theorem upwardRanks_ok {ranks : Table Int α} (h : upwardRanks w c = .ok ranks) :
    ranks.keys.Perm w.positions ∧ LinkOrdered w.childrenOf ranks.keys :=
  Walk.run_ok (Walk.sound_start w) h

theorem ranks_nodup {ranks : Table Int α} (h : upwardRanks w c = .ok ranks) : ranks.keys.Nodup :=
  (upwardRanks_ok h).1.nodup_iff.2 w.positions_nodup

/-- Nothing but the tasks has a rank. -/
theorem rank_eq_none {ranks : Table Int α} {t : Int} (h : upwardRanks w c = .ok ranks)
    (ht : ¬ w.Holds t) : ranks.get? t = none := by
  refine Option.eq_none_iff_forall_ne_some.2 fun x hx => ht ?_
  exact Workflow.holds_of_perm (upwardRanks_ok h).1
    (List.mem_map_of_mem (Table.mem_entries_of_get? hx))

/-- Ranks are refused only to a workflow whose child links leave it or form a cycle. -/
theorem upwardRanks_error (hc : ∀ t, w.Holds t → c.covers t = true) {f : Fault α}
    (h : upwardRanks w c = .error f) :
    f.kind = .malformedGraph ∧ (w.Dangling w.childrenOf ∨ w.Circular w.childrenOf) :=
  Walk.run_error (Walk.sound_start w) hc h

end EarliestFinish
