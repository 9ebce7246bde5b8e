import EarliestFinish.Proofs.Fallible
import EarliestFinish.Proofs.LinkOrder
import EarliestFinish.Proofs.Slot
import EarliestFinish.Allocation

/-!
# The choice of a machine

What one placement does. A task has a ready time on every machine if its parents have events, and
in exact quantities this is the earliest time by which all parents have arrived. The task goes to
the candidate whose offer has the least score, the first of several: `place_choice`.
-/

namespace EarliestFinish

section AnyQuantity

variable {α : Type} [Quantity α] {w : Workflow α} {c : CostTable α} {weights : Weights α}
  {scheduled : Table Int (Event α)} {t machine : Int} {a b : Allocation α}

theorem exists_latestArrival {parents : List Int} (ready : α)
    (h : ∀ p ∈ parents, w.Holds p ∧ ∃ e, scheduled.get? p = some e) :
    ∃ x, latestArrival w c scheduled t machine ready parents = .ok x := by
  induction parents generalizing ready with
  | nil => exact ⟨ready, rfl⟩
  | cons p parents ih =>
    obtain ⟨⟨hp, e, he⟩, hrest⟩ := List.forall_mem_cons.1 h
    rw [latestArrival, if_pos hp, he]
    exact ih _ hrest

theorem latestArrival_congr {scheduled' : Table Int (Event α)} {parents : List Int} (ready : α)
    (h : ∀ p ∈ parents, scheduled.get? p = scheduled'.get? p) :
    latestArrival w c scheduled t machine ready parents =
      latestArrival w c scheduled' t machine ready parents := by
  induction parents generalizing ready with
  | nil => rfl
  | cons p parents ih =>
    obtain ⟨hp, hrest⟩ := List.forall_mem_cons.1 h
    rw [latestArrival, latestArrival, hp]
    split
    · split
      · exact ih _ hrest
      · rfl
    · rfl

theorem readyTime_eq (ht : w.Holds t) :
    readyTime w c scheduled t machine =
      latestArrival w c scheduled t machine 0 (w.parentsOf t) := by
  obtain ⟨task, -, htask⟩ := Workflow.exists_task ht
  rw [readyTime, Workflow.task_of_task? htask, Workflow.parentsOf, htask]
  rfl

/-- When a task is ready depends on the events of its parents only. -/
theorem readyTime_congr {scheduled' : Table Int (Event α)} (ht : w.Holds t)
    (h : ∀ p ∈ w.parentsOf t, scheduled.get? p = scheduled'.get? p) :
    readyTime w c scheduled t machine = readyTime w c scheduled' t machine := by
  rw [readyTime_eq ht, readyTime_eq ht]
  exact latestArrival_congr 0 h

/-- A task is ready at some time if all its parents have events. -/
theorem exists_readyTime (ht : w.Holds t)
    (h : ∀ p ∈ w.parentsOf t, w.Holds p ∧ ∃ e, scheduled.get? p = some e) :
    ∃ x, readyTime w c scheduled t machine = .ok x := by
  rw [readyTime_eq ht]
  exact exists_latestArrival 0 h

/-! ### The best offer -/

theorem exists_foldl_betterOffer (o : Offer α) (offers : List (Offer α)) :
    ∃ o' ∈ o :: offers, offers.foldl betterOffer (some o) = some o' := by
  induction offers generalizing o with
  | nil => exact ⟨o, List.mem_singleton_self o, rfl⟩
  | cons next offers ih =>
    rw [List.foldl_cons, betterOffer]
    split
    · obtain ⟨o', ho', h⟩ := ih next
      exact ⟨o', List.mem_cons_of_mem _ ho', h⟩
    · obtain ⟨o', ho', h⟩ := ih o
      exact ⟨o', by simp only [List.mem_cons] at ho' ⊢; tauto, h⟩

/-- The best offer is one of those that were made. -/
theorem bestOffer_mem {offers : List (Offer α)} {o : Offer α} (h : bestOffer offers = some o) :
    o ∈ offers := by
  unfold bestOffer at h
  induction offers with
  | nil => cases h
  | cons first offers ih =>
    rw [List.foldl_cons, betterOffer] at h
    split at h
    · obtain ⟨o', ho', h'⟩ := exists_foldl_betterOffer first offers
      obtain rfl := Option.some.inj (h'.symm.trans h)
      exact ho'
    · exact List.mem_cons_of_mem _ (ih h)

/-- There is no best offer exactly if no offer has a score below the top. -/
theorem bestOffer_eq_none_iff {offers : List (Offer α)} :
    bestOffer offers = none ↔ ∀ o ∈ offers, Quantity.belowTop o.score = false := by
  unfold bestOffer
  induction offers with
  | nil => simp
  | cons first offers ih =>
    rw [List.foldl_cons, betterOffer, List.forall_mem_cons]
    split
    · next htop =>
      obtain ⟨o', -, h⟩ := exists_foldl_betterOffer first offers
      simp [h, htop]
    · next htop => simpa [htop] using ih

namespace Allocation

theorem offer_ok {m : Nat} {o : Offer α} (h : a.offer w c weights t m = .ok o) :
    ∃ ready, readyTime w c (scheduleOf a.placements) t m = .ok ready ∧
      o = ⟨m, ready,
        weights.score (((a.lane m).query ready (c.duration t m)).finish) (a.load m)⟩ := by
  obtain ⟨ready, hready, h⟩ := bind_ok_iff.1 h
  exact ⟨ready, hready, (Except.ok.inj h).symm⟩

/-- What a placement makes of the offers. -/
theorem place_of_offers {offers : List (Offer α)}
    (h : (a.candidates c t).mapM (a.offer w c weights t) = .ok offers) :
    a.place w c weights t = .ok
      (match bestOffer offers with
      | some o => a.commit t o.machine o.ready (c.duration t o.machine) (some o.score)
      | none =>
        a.commit t (a.lanes.length - 1) 0 (c.duration t (a.lanes.length - 1 : Nat)) none) := by
  refine bind_ok_iff.2 ⟨offers, h, ?_⟩
  cases bestOffer offers <;> rfl

/-- A task is committed to some machine. -/
theorem place_ok (h : a.place w c weights t = .ok b) :
    ∃ m ready score, b = a.commit t m ready (c.duration t m) score := by
  obtain ⟨offers, -, h⟩ := bind_ok_iff.1 h
  split at h
  · exact ⟨_, _, _, (Except.ok.inj h).symm⟩
  · exact ⟨_, _, _, (Except.ok.inj h).symm⟩

theorem offers_machines {ms : List Nat} {offers : List (Offer α)}
    (h : List.Forall₂ (fun m o => a.offer w c weights t m = .ok o) ms offers) :
    offers.map Offer.machine = ms ∧ ∀ o ∈ offers, a.offer w c weights t o.machine = .ok o := by
  induction h with
  | nil => simp
  | cons ho _ ih =>
    obtain ⟨ready, -, rfl⟩ := offer_ok ho
    exact ⟨by rw [List.map_cons, ih.1], List.forall_mem_cons.2 ⟨ho, ih.2⟩⟩

/-- A task is committed to a machine that has made an offer, if some offer has a score below the
top; if none has, the last machine gets the task as if it were ready at zero. -/
theorem place_cases (h : a.place w c weights t = .ok b) :
    (∃ m ∈ a.candidates c t, ∃ o, a.offer w c weights t m = .ok o ∧
      b = a.commit t m o.ready (c.duration t m) (some o.score) ∧
      ∃ k ∈ a.candidates c t, ∃ o', a.offer w c weights t k = .ok o' ∧
        Quantity.belowTop o'.score = true) ∨
    (∀ k ∈ a.candidates c t, ∃ o, a.offer w c weights t k = .ok o ∧
      Quantity.belowTop o.score = false) ∧
      b = a.commit t (a.lanes.length - 1) 0 (c.duration t (a.lanes.length - 1 : Nat)) none := by
  obtain ⟨offers, hoffers, h⟩ := bind_ok_iff.1 h
  obtain ⟨hmap, hoffer⟩ := offers_machines (mapM_ok_iff.1 hoffers)
  have hcandidate : ∀ o ∈ offers, o.machine ∈ a.candidates c t := fun o ho =>
    hmap ▸ List.mem_map_of_mem ho
  split at h
  · next o hbest =>
    have ho := bestOffer_mem hbest
    refine Or.inl ⟨o.machine, hcandidate o ho, o, hoffer o ho, (Except.ok.inj h).symm, ?_⟩
    have hsome : ¬ ∀ o' ∈ offers, Quantity.belowTop o'.score = false := by
      rw [← bestOffer_eq_none_iff, hbest]
      exact Option.some_ne_none o
    simp only [not_forall, Bool.not_eq_false] at hsome
    obtain ⟨o', ho', htop⟩ := hsome
    exact ⟨o'.machine, hcandidate o' ho', o', hoffer o' ho', htop⟩
  · next hbest =>
    refine Or.inr ⟨fun k hk => ?_, (Except.ok.inj h).symm⟩
    rw [← hmap] at hk
    obtain ⟨o, ho, rfl⟩ := List.mem_map.1 hk
    exact ⟨o, hoffer o ho, bestOffer_eq_none_iff.1 hbest o ho⟩

/-- A task has its place if it is ready at some time on every machine. -/
theorem exists_place
    (h : ∀ m : Nat, ∃ x, readyTime w c (scheduleOf a.placements) t m = .ok x) :
    ∃ b, a.place w c weights t = .ok b := by
  have hoffer (m : Nat) : ∃ o, a.offer w c weights t m = .ok o := by
    obtain ⟨x, hx⟩ := h m
    exact ⟨_, bind_ok_iff.2 ⟨x, hx, rfl⟩⟩
  obtain ⟨offers, hoffers⟩ := exists_mapM_ok fun m (_ : m ∈ a.candidates c t) => hoffer m
  cases hbest : bestOffer offers with
  | some o => exact ⟨_, bind_ok_iff.2 ⟨offers, hoffers, by rw [hbest]; rfl⟩⟩
  | none => exact ⟨_, bind_ok_iff.2 ⟨offers, hoffers, by rw [hbest]; rfl⟩⟩

end Allocation

end AnyQuantity

/-! ## Exact quantities -/

variable {w : Workflow Rat} {c : CostTable Rat} {weights : Weights Rat}
  {scheduled : Table Int (Event Rat)} {t machine : Int} {a b : Allocation Rat} {ready x : Rat}

/-- The parents of a task that have events have arrived on a machine by some time. -/
def ArrivedBy (c : CostTable Rat) (scheduled : Table Int (Event Rat)) (t machine : Int) (x : Rat)
    (parents : List Int) : Prop :=
  ∀ p ∈ parents, ∃ e, scheduled.get? p = some e ∧ arrival c t p machine e ≤ x

theorem latestArrival_le_iff {parents : List Int}
    (h : latestArrival w c scheduled t machine ready parents = .ok x) {y : Rat} :
    x ≤ y ↔ ready ≤ y ∧ ArrivedBy c scheduled t machine y parents := by
  -- over the parents, with the latest arrival so far
  induction parents generalizing ready with
  | nil =>
    cases h
    simp [ArrivedBy]
  | cons p parents ih =>
    rw [latestArrival] at h
    split at h
    · split at h
      · next e he =>
        rw [ih h, Quantity.larger_eq_max, max_le_iff, and_assoc]
        simp [ArrivedBy, he]
      · cases h
    · cases h

/-- A task is ready at the earliest time by which its parents have arrived. -/
theorem readyTime_le_iff (ht : w.Holds t) (h : readyTime w c scheduled t machine = .ok x)
    {y : Rat} : x ≤ y ↔ 0 ≤ y ∧ ArrivedBy c scheduled t machine y (w.parentsOf t) := by
  rw [readyTime_eq ht] at h
  exact latestArrival_le_iff h

/-- An offer that no earlier one matches and no later one beats. -/
def FirstLeast (o : Offer Rat) (offers : List (Offer Rat)) : Prop :=
  ∃ before after, offers = before ++ o :: after ∧
    (∀ o' ∈ before, o.score < o'.score) ∧ ∀ o' ∈ after, o.score ≤ o'.score

theorem FirstLeast.le {o o' : Offer Rat} {offers : List (Offer Rat)} (h : FirstLeast o offers)
    (ho' : o' ∈ offers) : o.score ≤ o'.score := by
  obtain ⟨before, after, rfl, hbefore, hafter⟩ := h
  rcases List.mem_append.1 ho' with ho' | ho'
  · exact (hbefore o' ho').le
  · rcases List.mem_cons.1 ho' with rfl | ho'
    · exact le_rfl
    · exact hafter o' ho'

theorem betterOffer_firstLeast {o : Offer Rat} {seen : List (Offer Rat)}
    (h : FirstLeast o seen) (next : Offer Rat) :
    ∃ o', betterOffer (some o) next = some o' ∧ FirstLeast o' (seen ++ [next]) := by
  rw [betterOffer]
  split
  · next hlt =>
    refine ⟨next, rfl, seen, [], rfl, fun o' ho' => ?_, by simp⟩
    exact lt_of_lt_of_le hlt (h.le ho')
  · next hle =>
    obtain ⟨before, after, rfl, hbefore, hafter⟩ := h
    refine ⟨o, rfl, before, after ++ [next], by simp, hbefore, fun o' ho' => ?_⟩
    rcases List.mem_append.1 ho' with ho' | ho'
    · exact hafter o' ho'
    · obtain rfl := List.mem_singleton.1 ho'
      exact not_lt.1 hle

theorem foldl_betterOffer {o : Offer Rat} {seen offers : List (Offer Rat)}
    (h : FirstLeast o seen) :
    ∃ o', offers.foldl betterOffer (some o) = some o' ∧ FirstLeast o' (seen ++ offers) := by
  induction offers generalizing o seen with
  | nil => exact ⟨o, rfl, by rwa [List.append_nil]⟩
  | cons next offers ih =>
    obtain ⟨o', ho', hseen⟩ := betterOffer_firstLeast h next
    rw [List.foldl_cons, ho']
    simpa using ih hseen

/-- Of some offers, the first one of the least score is the best. -/
theorem bestOffer_firstLeast {offers : List (Offer Rat)} (h : offers ≠ []) :
    ∃ o, bestOffer offers = some o ∧ FirstLeast o offers := by
  cases offers with
  | nil => exact absurd rfl h
  | cons o offers => exact foldl_betterOffer ⟨[], [], rfl, by simp, by simp⟩

/-- A change of offers that keeps the order of scores keeps the best offer. -/
theorem bestOffer_map {f : Offer Rat → Offer Rat}
    (hf : ∀ o b : Offer Rat, (f o).score < (f b).score ↔ o.score < b.score)
    (offers : List (Offer Rat)) : bestOffer (offers.map f) = (bestOffer offers).map f := by
  have hbetter (best : Option (Offer Rat)) (o : Offer Rat) :
      betterOffer (best.map f) (f o) = (betterOffer best o).map f := by
    cases best with
    | none => rfl
    | some b =>
      rw [Option.map_some, betterOffer, betterOffer, apply_ite (Option.map f)]
      exact if_congr (hf o b) rfl rfl
  have hfold (best : Option (Offer Rat)) :
      (offers.map f).foldl betterOffer (best.map f) = (offers.foldl betterOffer best).map f := by
    induction offers generalizing best with
    | nil => rfl
    | cons o offers ih => rw [List.map_cons, List.foldl_cons, List.foldl_cons, hbetter, ih]
  exact hfold none

namespace Allocation

theorem candidates_pairwise (a : Allocation Rat) (c : CostTable Rat) (t : Int) :
    (a.candidates c t).Pairwise (· < ·) :=
  List.pairwise_lt_range.filter _

/-- A task goes to the candidate that offers the least score, the first of several. -/
theorem place_choice (hne : a.candidates c t ≠ []) (h : a.place w c weights t = .ok b) :
    ∃ m ∈ a.candidates c t, ∃ o, a.offer w c weights t m = .ok o ∧
      b = a.commit t m o.ready (c.duration t m) (some o.score) ∧
      ∀ k ∈ a.candidates c t, ∃ o', a.offer w c weights t k = .ok o' ∧
        o.score ≤ o'.score ∧ (k < m → o.score < o'.score) := by
  obtain ⟨offers, hoffers, h⟩ := bind_ok_iff.1 h
  obtain ⟨hmap, hoffer⟩ := offers_machines (mapM_ok_iff.1 hoffers)
  have hoffersne : offers ≠ [] := by
    rintro rfl
    exact hne hmap.symm
  obtain ⟨o, hbest, hfirst⟩ := bestOffer_firstLeast hoffersne
  rw [hbest] at h
  obtain ⟨before, after, hsplit, hbefore, hafter⟩ := id hfirst
  have ho : o ∈ offers := by simp [hsplit]
  refine ⟨o.machine, hmap ▸ List.mem_map_of_mem ho, o, hoffer o ho, (Except.ok.inj h).symm,
    fun k hk => ?_⟩
  rw [← hmap] at hk
  obtain ⟨o', ho', rfl⟩ := List.mem_map.1 hk
  refine ⟨o', hoffer o' ho', hfirst.le ho', fun hlt => ?_⟩
  -- the candidates stand in ascending order, so a lower one makes its offer before
  have hsorted := candidates_pairwise a c t
  rw [← hmap, hsplit, List.map_append, List.map_cons, List.pairwise_append,
    List.pairwise_cons] at hsorted
  rw [hsplit, List.mem_append, List.mem_cons] at ho'
  rcases ho' with ho' | rfl | ho'
  · exact hbefore o' ho'
  · exact absurd hlt (lt_irrefl _)
  · exact absurd hlt (hsorted.2.1.1 _ (List.mem_map_of_mem ho')).not_gt

end Allocation

end EarliestFinish
