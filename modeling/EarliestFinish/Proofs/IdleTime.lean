import EarliestFinish.Metrics
import EarliestFinish.Proofs.Slot
import EarliestFinish.Proofs.StableOrder

/-!
# Idle time

The idle time of a machine adds up the gaps between neighbours of a list that was sorted by the
starts. In exact quantities, and for events that share no time, it is the makespan less the busy
time, plus the length of the events that are *overlooked* (`Idle.ofEvents_eq`). An event is
overlooked if an event that takes no time and starts with it is listed behind it: the sort leaves
the two in this order, and the gap that follows is taken to begin where the second one ends.

Nothing is overlooked in the order of time. So the order in which events are listed makes no
difference except for those that start together (`idle_relisted`), and for those it does
(`not_idle_relisted`).
-/

namespace EarliestFinish

/-! ## Events that share no time -/

namespace Event

/-- One of two events is over when the other starts. -/
def Apart (e f : Event Rat) : Prop := e.finish ≤ f.start ∨ f.finish ≤ e.start

/-- An event starts with another one and is over before it. -/
def Hides (f e : Event Rat) : Prop := f.start = e.start ∧ f.finish < e.finish

instance (f e : Event Rat) : Decidable (f.Hides e) :=
  inferInstanceAs (Decidable (f.start = e.start ∧ f.finish < e.finish))

end Event

namespace Lane

variable {events events' : List (Event Rat)}

/-- Events that follow one another in time, from zero on. -/
structure Timed (events : List (Event Rat)) : Prop where
  fromZero : ∀ e ∈ events, 0 ≤ e.start
  inOrder : InOrder events

/-- Events that follow one another in time, from zero on, once they are put into order. -/
def Arrangeable (events : List (Event Rat)) : Prop := ∃ timed, timed.Perm events ∧ Timed timed

/-- Events that share no time, in any order. -/
structure Separate (events : List (Event Rat)) : Prop where
  forward : ∀ e ∈ events, e.start ≤ e.finish
  apart : events.Pairwise Event.Apart

/-- Events that start together are in the order of their ends. -/
def ByEnds (events : List (Event Rat)) : Prop := events.Pairwise fun e f => ¬ f.Hides e

theorem InOrder.separate (h : InOrder events) : Separate events where
  forward := h.forward
  apart := h.pairwise.imp Or.inl

theorem Separate.perm (h : Separate events) (hp : events.Perm events') : Separate events' where
  forward e he := h.forward e (hp.mem_iff.2 he)
  apart := (hp.pairwise_iff fun {_ _} => Or.symm).1 h.apart

theorem Separate.tail {e : Event Rat} (h : Separate (e :: events)) : Separate events where
  forward := (List.forall_mem_cons.1 h.forward).2
  apart := (List.pairwise_cons.1 h.apart).2

theorem Arrangeable.separate (h : Arrangeable events) : Separate events := by
  obtain ⟨timed, hp, htimed⟩ := h
  exact htimed.inOrder.separate.perm hp

theorem InOrder.byEnds (h : InOrder events) : ByEnds events := by
  refine h.pairwise.imp_of_mem ?_
  rintro e f - hf hle ⟨hstart, hfinish⟩
  have := h.forward f hf
  linarith

theorem busyTime_perm (hp : events.Perm events') : busyTime events = busyTime events' := by
  rw [busyTime_eq_sum, busyTime_eq_sum]
  exact (hp.map Event.length).sum_eq

end Lane

/-! ## Overlooked events -/

namespace Idle

open Lane

variable {events later : List (Event Rat)} {a b e : Event Rat} {makespan : Rat}

/-- The length of an event if one of those listed behind it hides it. -/
def hidden (e : Event Rat) (later : List (Event Rat)) : Rat :=
  if ∃ f ∈ later, f.Hides e then e.length else 0

/-- The total length of the events that are hidden by one that is listed behind them. -/
def overlooked : List (Event Rat) → Rat
  | [] => 0
  | e :: later => hidden e later + overlooked later

/-- Only what takes time can be hidden. -/
theorem hidden_eq_zero_iff (hlater : ∀ f ∈ later, f.start ≤ f.finish) :
    hidden e later = 0 ↔ ∀ f ∈ later, ¬ f.Hides e := by
  unfold hidden
  split
  · next hex =>
    obtain ⟨f, hf, hides⟩ := hex
    have hpos : 0 < e.length := by
      have := hlater f hf
      have hlength : e.length = e.finish - e.start := rfl
      have := hides.1
      have := hides.2
      linarith
    exact ⟨fun h => absurd h hpos.ne', fun h => absurd hides (h f hf)⟩
  · next hnone => simpa using hnone

theorem overlooked_cons (e : Event Rat) (later : List (Event Rat)) :
    overlooked (e :: later) = hidden e later + overlooked later := rfl

theorem hidden_nonneg (he : e.start ≤ e.finish) : 0 ≤ hidden e later := by
  unfold hidden
  split
  · exact sub_nonneg.2 he
  · exact le_refl 0

theorem overlooked_nonneg (h : ∀ e ∈ events, e.start ≤ e.finish) : 0 ≤ overlooked events := by
  induction events with
  | nil => exact le_refl 0
  | cons e later ih =>
    obtain ⟨he, hlater⟩ := List.forall_mem_cons.1 h
    exact add_nonneg (hidden_nonneg he) (ih hlater)

/-- Nothing is overlooked exactly if events that start together are in the order of their ends. -/
theorem overlooked_eq_zero_iff (h : ∀ e ∈ events, e.start ≤ e.finish) :
    overlooked events = 0 ↔ ByEnds events := by
  induction events with
  | nil => exact ⟨fun _ => .nil, fun _ => rfl⟩
  | cons e later ih =>
    obtain ⟨he, hlater⟩ := List.forall_mem_cons.1 h
    show hidden e later + overlooked later = 0 ↔ (e :: later).Pairwise fun e f => ¬ f.Hides e
    rw [add_eq_zero_iff_of_nonneg (hidden_nonneg he) (overlooked_nonneg hlater),
      hidden_eq_zero_iff hlater, ih hlater, List.pairwise_cons]
    rfl

theorem hidden_congr {later' : List (Event Rat)} (hp : later.Perm later') :
    hidden e later = hidden e later' := by
  simp only [hidden, hp.mem_iff]

/-- An event is not hidden by one with another start. -/
theorem hidden_cons_of_ne (h : b.start ≠ e.start) : hidden e (b :: later) = hidden e later := by
  have hnot : ¬ b.Hides e := fun hides => h hides.1
  simp [hidden, hnot]

/-- What moves an event to its place among sorted events passes those with other starts only. -/
theorem overlooked_place (e : Event Rat) (later : List (Event Rat)) :
    overlooked (Sorting.place (fun e f => decide (e.start < f.start)) e later) =
      overlooked (e :: later) := by
  induction later with
  | nil => rfl
  | cons b later ih =>
    rw [Sorting.place]
    split
    · next hbelow =>
      have hlt : b.start < e.start := of_decide_eq_true hbelow
      rw [overlooked_cons, ih, hidden_congr (Sorting.place_perm _ e later),
        hidden_cons_of_ne hlt.ne', overlooked_cons, overlooked_cons, hidden_cons_of_ne hlt.ne,
        overlooked_cons]
      exact add_left_comm ..
    · rfl

/-- Sorting by start does not change what is overlooked. -/
theorem overlooked_sortBy (events : List (Event Rat)) :
    overlooked (sortBy Event.start events) = overlooked events := by
  rw [sortBy_eq_insertion fun e _ => le_refl e.start]
  induction events with
  | nil => rfl
  | cons e later ih =>
    show overlooked (Sorting.place _ e (Sorting.insertion _ later)) = overlooked (e :: later)
    rw [overlooked_place, overlooked_cons, overlooked_cons, ih,
      hidden_congr (Sorting.insertion_perm _ later)]

/-! ## Gaps -/

/-- What counts between neighbours is the time from the end of the first to the start of the second,
and if the first is hidden, from its start. -/
theorem gap_eq (h : Separate (a :: b :: later))
    (hsorted : (a :: b :: later).Pairwise fun e f => e.start ≤ f.start) :
    Quantity.larger 0 (b.start - a.finish) = b.start - a.finish + hidden a (b :: later) := by
  obtain ⟨-, hb⟩ := List.forall_mem_cons.1 h.forward
  obtain ⟨hab, hbs⟩ := List.pairwise_cons.1 hsorted
  rw [Quantity.larger_eq_max]
  by_cases hle : a.finish ≤ b.start
  · have hnone : hidden a (b :: later) = 0 := by
      refine (hidden_eq_zero_iff hb).2 ?_
      rintro f hf ⟨-, hfinish⟩
      have hforward := hb f hf
      have hbf : b.start ≤ f.start := by
        rcases List.mem_cons.1 hf with rfl | hf
        · exact le_refl _
        · exact (List.pairwise_cons.1 hbs).1 f hf
      linarith
    rw [hnone, max_eq_right (sub_nonneg.2 hle), add_zero]
  · -- the second event starts with the first and takes no time
    have hbefore : b.finish ≤ a.start :=
      ((List.pairwise_cons.1 h.apart).1 b List.mem_cons_self).resolve_left hle
    have hstart : a.start ≤ b.start := hab b List.mem_cons_self
    have hforward : b.start ≤ b.finish := hb b List.mem_cons_self
    have heq : b.start = a.start := by linarith
    have hides : ∃ f ∈ b :: later, f.Hides a := ⟨b, List.mem_cons_self, heq, by linarith⟩
    rw [hidden, if_pos hides, max_eq_left (by linarith), Event.length]
    linarith

/-- The gaps behind the first event, by induction from each event to the next. -/
theorem addGaps_eq (h : Separate (a :: later))
    (hsorted : (a :: later).Pairwise fun e f => e.start ≤ f.start)
    (hM : ∀ e ∈ a :: later, e.finish ≤ makespan) (idle : Rat) :
    addGaps makespan idle (a :: later) =
      idle + (makespan - a.start) - busyTime (a :: later) + overlooked (a :: later) := by
  induction later generalizing a idle with
  | nil =>
    have hlast : a.finish ≤ makespan := hM a List.mem_cons_self
    rw [addGaps, Quantity.larger_eq_max, max_eq_right (sub_nonneg.2 hlast), busyTime_eq_sum]
    simp only [overlooked, hidden, Event.length, List.map_cons, List.map_nil, List.sum_singleton,
      List.not_mem_nil, false_and, exists_false, if_false]
    ring
  | cons b later ih =>
    have hrest := ih h.tail (List.pairwise_cons.1 hsorted).2 (List.forall_mem_cons.1 hM).2
      (idle + Quantity.larger 0 (b.start - a.finish))
    have hbusy : busyTime (a :: b :: later) = a.length + busyTime (b :: later) := by
      simp [busyTime_eq_sum]
    rw [addGaps, hrest, gap_eq h hsorted, hbusy, overlooked_cons a, Event.length]
    ring

/-- The idle time of a machine whose events share no time. -/
theorem ofEvents_eq (h : Separate events) (hM : ∀ e ∈ events, e.finish ≤ makespan) :
    ofEvents makespan events = makespan - busyTime events + overlooked events := by
  have hp := sortBy_perm Event.start events
  have hsorted : (sortBy Event.start events).Pairwise fun e f => e.start ≤ f.start := by
    have hany : events.Pairwise fun _ _ => True := List.pairwise_of_forall fun _ _ => trivial
    refine (sortBy_inTurn (fun e _ => le_refl e.start) hany).imp fun {e f} hturn => ?_
    exact not_lt.1 (of_decide_eq_false hturn.1)
  rw [← overlooked_sortBy, ← busyTime_perm hp, ofEvents]
  cases hs : sortBy Event.start events with
  | nil =>
    show makespan = makespan - busyTime [] + overlooked []
    simp [busyTime_eq_sum, overlooked]
  | cons first later =>
    rw [hs] at hp hsorted
    have hgaps := addGaps_eq (h.perm hp.symm) hsorted (fun e he => hM e (hp.mem_iff.1 he))
      first.start
    show addGaps makespan first.start (first :: later) = _
    linarith

end Idle

/-! ## Rosters -/

namespace Roster

open Lane Idle

variable {r r' : Roster Rat} {events : List (Event Rat)}

theorem finish_le_makespan (h : events ∈ r.values) : ∀ e ∈ events, e.finish ≤ r.makespan := by
  intro e he
  apply Quantity.le_largestOr
  exact List.mem_map_of_mem (List.mem_flatten_of_mem h he)

/-- The idle time of every machine, if no two events of a machine share time. -/
theorem perMachine_eq (h : ∀ events ∈ r.values, Separate events) :
    r.idle.perMachine = r.entries.map fun (m, events) =>
      (m, r.makespan - busyTime events + overlooked events) := by
  refine List.map_congr_left fun (m, events) hp => ?_
  have hmem : events ∈ r.values := List.mem_map_of_mem hp
  show (m, ofEvents r.makespan events) = _
  rw [ofEvents_eq (h events hmem) (finish_le_makespan hmem)]

theorem idle_total_eq_sum (r : Roster Rat) :
    r.idle.total = (r.idle.perMachine.map Prod.snd).sum :=
  Quantity.running_eq_sum _

/-- The idle time of all machines, if no two events of a machine share time. -/
theorem total_eq (h : ∀ events ∈ r.values, Separate events) :
    r.idle.total = r.entries.length * r.makespan - (r.values.map busyTime).sum +
      (r.values.map overlooked).sum := by
  rw [idle_total_eq_sum, perMachine_eq h, Table.values]
  induction r.entries with
  | nil => simp
  | cons p ps ih =>
    simp only [List.map_cons, List.sum_cons, List.length_cons, ih]
    push_cast
    ring

/-! ## Other orders of the events -/

/-- The same machines with their events in any order. -/
def Relisted (r r' : Roster Rat) : Prop :=
  List.Forall₂ (fun p q => q.1 = p.1 ∧ q.2.Perm p.2) r.entries r'.entries

theorem Relisted.lanes (h : r.Relisted r') :
    List.Forall₂ (fun lane lane' => lane'.Perm lane) r.values r'.values := by
  show List.Forall₂ _ (r.entries.map Prod.snd) (r'.entries.map Prod.snd)
  rw [List.forall₂_map_left_iff, List.forall₂_map_right_iff]
  exact h.imp fun _ _ hpq => hpq.2

theorem Relisted.events_perm (h : r.Relisted r') : r'.events.Perm r.events := by
  have hlanes := h.lanes
  show r'.values.flatten.Perm r.values.flatten
  generalize r.values = lanes, r'.values = lanes' at hlanes
  induction hlanes with
  | nil => exact .refl _
  | cons hperm _ ih => exact hperm.append ih

theorem Relisted.makespan_eq (h : r.Relisted r') : r'.makespan = r.makespan := by
  have hfinish := h.events_perm.map Event.finish
  apply le_antisymm
  · exact Quantity.largestOr_le_of_perm hfinish fun _ _ => le_refl _
  · exact Quantity.largestOr_le_of_perm hfinish.symm fun _ _ => le_refl _

theorem Relisted.separate (h : r.Relisted r') (hr : ∀ events ∈ r.values, Separate events) :
    ∀ events ∈ r'.values, Separate events := by
  have hlanes := h.lanes
  generalize r.values = lanes, r'.values = lanes' at hlanes hr
  induction hlanes with
  | nil => simp
  | cons hperm _ ih =>
    obtain ⟨hlane, hrest⟩ := List.forall_mem_cons.1 hr
    exact List.forall_mem_cons.2 ⟨hlane.perm hperm.symm, ih hrest⟩

theorem Relisted.busyTimes_eq (h : r.Relisted r') :
    r'.values.map busyTime = r.values.map busyTime := by
  have hlanes := h.lanes
  generalize r.values = lanes, r'.values = lanes' at hlanes
  induction hlanes with
  | nil => rfl
  | cons hperm _ ih => rw [List.map_cons, List.map_cons, ih, busyTime_perm hperm]

/-- The total idle time changes by what is overlooked in one order and not in the other. -/
theorem Relisted.total_eq (h : r.Relisted r') (hr : ∀ events ∈ r.values, Separate events) :
    r'.idle.total + (r.values.map overlooked).sum =
      r.idle.total + (r'.values.map overlooked).sum := by
  have hlength : r'.entries.length = r.entries.length := (List.Forall₂.length_eq h).symm
  rw [Roster.total_eq hr, Roster.total_eq (h.separate hr), h.makespan_eq, h.busyTimes_eq, hlength]
  ring

/-- The idle times of the machines are the same exactly if the same is overlooked on each. -/
theorem Relisted.perMachine_eq_iff (h : r.Relisted r')
    (hr : ∀ events ∈ r.values, Separate events) :
    r'.idle.perMachine = r.idle.perMachine ↔
      r'.values.map overlooked = r.values.map overlooked := by
  rw [perMachine_eq hr, perMachine_eq (h.separate hr), h.makespan_eq, Table.values, Table.values]
  unfold Relisted at h
  generalize r.entries = ps, r'.entries = qs at h
  induction h with
  | nil => simp
  | cons hpq _ ih =>
    simp only [List.map_cons, List.cons.injEq, ih, Prod.mk.injEq, hpq.1, busyTime_perm hpq.2,
      true_and, add_right_inj]

theorem idle_eq_iff :
    r'.idle = r.idle ↔ r'.makespan = r.makespan ∧ r'.idle.perMachine = r.idle.perMachine := by
  constructor
  · intro h
    exact ⟨congrArg Idle.makespan h, congrArg Idle.perMachine h⟩
  · rintro ⟨hmakespan, hmachines⟩
    show Idle.mk r'.makespan (Quantity.running (r'.idle.perMachine.map Prod.snd))
        r'.idle.perMachine =
      Idle.mk r.makespan (Quantity.running (r.idle.perMachine.map Prod.snd)) r.idle.perMachine
    rw [hmakespan, hmachines]

theorem overlooked_eq_replicate_iff (h : ∀ events ∈ r.values, Separate events) :
    r.values.map overlooked = List.replicate r.entries.length 0 ↔
      ∀ events ∈ r.values, ByEnds events := by
  have hlength : (r.values.map overlooked).length = r.entries.length := by simp [Table.values]
  rw [List.eq_replicate_iff, and_iff_right hlength, List.forall_mem_map]
  exact forall₂_congr fun events hmem => overlooked_eq_zero_iff (h events hmem).forward

/-- If the events of a machine can be put into the order of time, their order changes the idle times
as far as what is overlooked changes. As long as those that start together stay in the order of
their ends, it makes no difference. -/
theorem idle_relisted (h : ∀ events ∈ r.values, Arrangeable events) (hr : r.Relisted r') :
    r'.idle.makespan = r.idle.makespan ∧
      r'.idle.perMachine = r'.entries.map (fun (m, events) =>
        (m, r.idle.makespan - busyTime events + overlooked events)) ∧
      r'.idle.total + (r.values.map overlooked).sum =
        r.idle.total + (r'.values.map overlooked).sum ∧
      (r'.idle = r.idle ↔ r'.values.map overlooked = r.values.map overlooked) ∧
      ((∀ events ∈ r.values, ByEnds events) →
        (r'.idle = r.idle ↔ ∀ events ∈ r'.values, ByEnds events)) := by
  have hseparate : ∀ events ∈ r.values, Separate events := fun events he => (h events he).separate
  have hseparate' := hr.separate hseparate
  have hsame : r'.idle = r.idle ↔ r'.values.map overlooked = r.values.map overlooked := by
    rw [idle_eq_iff, hr.perMachine_eq_iff hseparate]
    exact and_iff_right hr.makespan_eq
  refine ⟨hr.makespan_eq, ?_, hr.total_eq hseparate, hsame, fun hends => ?_⟩
  · rw [perMachine_eq hseparate', hr.makespan_eq]
    rfl
  · rw [hsame, (overlooked_eq_replicate_iff hseparate).2 hends, List.Forall₂.length_eq hr]
    exact overlooked_eq_replicate_iff hseparate'

end Roster

namespace Sample

/-- Three machines, one of them with a gap between tasks that take no time and others, and one
without events. -/
def gapped : Roster Rat :=
  ⟨[(3, [⟨0, 0, 0, 3⟩, ⟨1, 0, 2, 3⟩, ⟨2, 3, 3, 3⟩, ⟨3, 3, 5, 3⟩]), (1, [⟨4, 0, 4, 1⟩]), (2, [])]⟩

/-- The same in another order, with the tasks that take no time before those that start with
them. -/
def regapped : Roster Rat :=
  ⟨[(3, [⟨2, 3, 3, 3⟩, ⟨3, 3, 5, 3⟩, ⟨0, 0, 0, 3⟩, ⟨1, 0, 2, 3⟩]), (1, [⟨4, 0, 4, 1⟩]), (2, [])]⟩

/-- A task that takes no time, and one that starts with it and takes five. -/
def headed : Roster Rat := ⟨[(0, [⟨0, 0, 0, 0⟩, ⟨1, 0, 5, 0⟩])]⟩

/-- The two tasks the other way round. -/
def turned : Roster Rat := ⟨[(0, [⟨1, 0, 5, 0⟩, ⟨0, 0, 0, 0⟩])]⟩

theorem timed_gapped : ∀ events ∈ gapped.values, Lane.Timed events := by
  have hlanes : ∀ events ∈ gapped.values, (∀ e ∈ events, 0 ≤ e.start) ∧
      (∀ e ∈ events, e.start ≤ e.finish) ∧ events.IsChain fun e f => e.finish ≤ f.start := by
    decide +kernel
  intro events he
  obtain ⟨hzero, hforward, hchain⟩ := hlanes events he
  exact ⟨hzero, hforward, hchain⟩

theorem relisted_gapped : gapped.Relisted regapped := by
  refine .cons ⟨rfl, ?_⟩ (.cons ⟨rfl, .refl _⟩ (.cons ⟨rfl, .refl _⟩ .nil))
  exact @List.perm_append_comm _ [_, _] [_, _]

end Sample

namespace Roster

open Lane Idle

/-- Tasks that start together stay in the order of their ends, and the idle times stay the same. -/
theorem idle_relisted_gapped :
    (∀ events ∈ Sample.gapped.values, Arrangeable events) ∧
      Sample.gapped.Relisted Sample.regapped ∧
      Sample.regapped.idle.perMachine = [(3, 1), (1, 1), (2, 5)] ∧
      Sample.regapped.idle = Sample.gapped.idle := by
  have harrangeable : ∀ events ∈ Sample.gapped.values, Arrangeable events := fun events he =>
    ⟨events, .refl _, Sample.timed_gapped events he⟩
  have hends : ∀ events ∈ Sample.gapped.values, ByEnds events := fun events he =>
    (Sample.timed_gapped events he).inOrder.byEnds
  have hends' : ∀ events ∈ Sample.regapped.values, events.Pairwise fun e f => ¬ f.Hides e := by
    decide +kernel
  obtain ⟨-, -, -, -, hsame⟩ := idle_relisted harrangeable Sample.relisted_gapped
  exact ⟨harrangeable, Sample.relisted_gapped, by decide +kernel, (hsame hends).2 hends'⟩

/-- With the task that takes no time behind the one that starts with it, the machine counts as idle
while that one runs. -/
theorem not_idle_relisted :
    (∀ events ∈ Sample.headed.values, Arrangeable events) ∧
      Sample.headed.Relisted Sample.turned ∧
      Sample.headed.idle.perMachine = [(0, 0)] ∧ Sample.headed.idle.total = 0 ∧
      Sample.turned.idle.perMachine = [(0, 5)] ∧ Sample.turned.idle.total = 5 := by
  refine ⟨?_, .cons ⟨rfl, .swap _ _ []⟩ .nil, by decide +kernel, by decide +kernel,
    by decide +kernel, by decide +kernel⟩
  show ∀ events ∈ [_], Arrangeable events
  rw [List.forall_mem_singleton]
  exact ⟨_, .refl _, by decide +kernel, by decide +kernel, by decide +kernel⟩

end Roster

end EarliestFinish
