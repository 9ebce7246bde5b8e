import EarliestFinish.Lane
import EarliestFinish.Proofs.Comparison
import EarliestFinish.Proofs.Exact

/-!
# The slot of a task in a lane

A task fits into a lane from a start if it can run from there between two neighbouring events,
before the first or behind the last. In exact quantities the search finds the earliest such start
from which the task is ready:

* `findSlot_sound`: the slot lies in a gap, and not before the task is ready;
* `findSlot_isLeast`: no earlier start will do, if the events are in order;
* `InOrder.commit`: a lane in order stays in order.
-/

namespace EarliestFinish
namespace Lane

section Definitions

variable {α : Type} [Quantity α]

/-- Events that follow one another in time. -/
structure InOrder (events : List (Event α)) : Prop where
  forward : ∀ e ∈ events, e.start ≤ e.finish
  apart : events.IsChain fun e f => e.finish ≤ f.start

/-- A task can run from a start for a duration behind some events and ahead of others. -/
structure Gap (duration start : α) (earlier later : List (Event α)) : Prop where
  behind : ∀ e ∈ earlier.getLast?, e.finish ≤ start
  ahead : ∀ e ∈ later.head?, start + duration ≤ e.start

/-- A task can run from a start for a duration somewhere between some events. -/
def Fits (events : List (Event α)) (duration start : α) : Prop :=
  ∃ earlier later, earlier ++ later = events ∧ Gap duration start earlier later

/-- A slot lies in a gap, and not before a task is ready. -/
def Sound (events : List (Event α)) (ready duration : α) (s : Slot α) : Prop :=
  ready ≤ s.start ∧ ∃ earlier later, earlier ++ later = events ∧
    earlier.length = s.position ∧ Gap duration s.start earlier later

end Definitions

/-! ## The place in the list -/

section AnyQuantity

variable {α : Type} [Quantity α] {ready duration : α}

theorem searchBack_position_le {limit : Nat} {rev : List (Event α)} {best : Slot α}
    (hrev : rev.length ≤ limit) (hbest : best.position ≤ limit) :
    (searchBack ready duration rev best).position ≤ limit := by
  fun_induction searchBack ready duration rev best with
  | case1 best current previous earlier here hready hfit =>
    simp only [here, List.length_cons] at hrev ⊢
    omega
  | case2 best current previous earlier hready hfit => exact hbest
  | case3 best current previous earlier here hready ih =>
    simp only [here, List.length_cons] at hrev ih
    refine ih (by omega) ?_
    split
    · exact (Nat.le_succ _).trans hrev
    · exact hbest
  | case4 => exact hbest

/-- A slot is not behind the end of its lane. -/
theorem findSlot_position_le (ready duration : α) (events : List (Event α)) :
    (findSlot ready duration events).position ≤ events.length := by
  match events with
  | [] => exact Nat.zero_le _
  | [only] =>
    rw [findSlot]
    split
    · exact le_rfl
    · split
      · exact Nat.zero_le _
      · exact le_rfl
  | first :: second :: later =>
    rw [findSlot]
    split
    · exact Nat.zero_le _
    · exact searchBack_position_le (by simp) le_rfl

/-- A commit adds the event of the task to the lane and changes nothing else. -/
theorem perm_commit (lane : Lane α) (task : Int) (ready duration : α) :
    (lane.commit task ready duration).events.Perm
      (lane.offer task ready duration :: lane.events) :=
  List.perm_insertIdx _ _ (findSlot_position_le ..)

/-! ## The time at which it begins -/

open Quantity

variable [Ordered α]

theorem not_searchBack_start_lt {rev : List (Event α)} {best : Slot α}
    (hbest : ¬ best.start < ready) : ¬ (searchBack ready duration rev best).start < ready := by
  fun_induction searchBack ready duration rev best with
  | case1 best current previous earlier here hready hfit => exact not_lt_self ready
  | case2 best current previous earlier hready hfit => exact hbest
  | case3 best current previous earlier here hready ih =>
    refine ih ?_
    split
    · exact hready
    · exact hbest
  | case4 => exact hbest

/-- A slot does not begin before the task is ready. -/
theorem not_findSlot_start_lt (ready duration : α) (events : List (Event α)) :
    ¬ (findSlot ready duration events).start < ready := by
  match events with
  | [] => exact not_lt_self ready
  | [only] =>
    rw [findSlot]
    split
    · exact not_lt_self ready
    · next hlate =>
      split
      · exact not_lt_self ready
      · exact fun h => hlate (le_of_lt h)
  | first :: second :: later =>
    rw [findSlot]
    split
    · exact not_lt_self ready
    · refine not_searchBack_start_lt ?_
      dsimp only [larger]
      split
      · next h => exact not_lt_of_lt h
      · exact not_lt_self ready

end AnyQuantity

variable {ready duration x : Rat} {events later back : List (Event Rat)} {best : Slot Rat}

/-! ## Order -/

theorem InOrder.pairwise (h : InOrder events) :
    events.Pairwise fun e f => e.finish ≤ f.start := by
  obtain ⟨hforward, hapart⟩ := h
  induction events with
  | nil => exact .nil
  | cons e es ih =>
    have htail := ih (fun f hf => hforward f (List.mem_cons_of_mem _ hf)) hapart.tail
    refine List.pairwise_cons.2 ⟨fun f hf => ?_, htail⟩
    cases es with
    | nil => cases hf
    | cons g es =>
      have hnext : e.finish ≤ g.start := (List.isChain_cons_cons.1 hapart).1
      rcases List.mem_cons.1 hf with rfl | hf
      · exact hnext
      · have hg := hforward g (by simp)
        have hlater := (List.pairwise_cons.1 htail).1 f hf
        linarith

theorem InOrder.next {earlier : List (Event Rat)} {previous current : Event Rat}
    (h : InOrder (earlier ++ previous :: current :: later)) : previous.finish ≤ current.start :=
  (List.isChain_cons_cons.1 (List.isChain_append.1 h.apart).2.1).1

/-- An event put into a gap. -/
theorem InOrder.insert {earlier : List (Event Rat)} {e : Event Rat}
    (h : InOrder (earlier ++ later)) (he : e.start ≤ e.finish)
    (hgap : Gap (e.finish - e.start) e.start earlier later) :
    InOrder (earlier ++ e :: later) := by
  obtain ⟨hearlier, hlater, -⟩ := List.isChain_append.1 h.apart
  refine ⟨fun f hf => ?_, List.isChain_append.2 ⟨hearlier, ?_, ?_⟩⟩
  · rcases List.mem_append.1 hf with hf | hf
    · exact h.forward f (List.mem_append_left _ hf)
    · rcases List.mem_cons.1 hf with rfl | hf
      · exact he
      · exact h.forward f (List.mem_append_right _ hf)
  · refine List.isChain_cons.2 ⟨fun f hf => ?_, hlater⟩
    have := hgap.ahead f hf
    linarith
  · rintro f hf g hg
    cases hg
    exact hgap.behind f hf

/-! ## The search -/

theorem gap_between {earlier : List (Event Rat)} {previous current : Event Rat}
    (hbehind : previous.finish ≤ x) (hahead : x + duration ≤ current.start) :
    Gap duration x (earlier ++ [previous]) (current :: later) where
  behind e he := by
    obtain rfl : previous = e := by simpa using he
    exact hbehind
  ahead e he := by
    obtain rfl : current = e := by simpa using he
    exact hahead

theorem searchBack_sound {rev : List (Event Rat)}
    (hbest : Sound (rev.reverse ++ later) ready duration best) :
    Sound (rev.reverse ++ later) ready duration (searchBack ready duration rev best) := by
  induction rev generalizing later best with
  | nil => exact hbest
  | cons current rev ih =>
    cases rev with
    | nil => exact hbest
    | cons previous earlier =>
      have hsplit : (current :: previous :: earlier).reverse ++ later =
          (previous :: earlier).reverse ++ current :: later := by simp
      have hslot (x : Rat) (hx : ready ≤ x) (hbehind : previous.finish ≤ x)
          (hahead : x + duration ≤ current.start) :
          Sound ((previous :: earlier).reverse ++ current :: later) ready duration
            ⟨earlier.length + 1, x⟩ := by
        refine ⟨hx, (previous :: earlier).reverse, current :: later, rfl, by simp, ?_⟩
        rw [List.reverse_cons]
        exact gap_between hbehind hahead
      rw [hsplit] at hbest ⊢
      rw [searchBack]
      split
      · next hready =>
        split
        · next hfit => exact hslot ready le_rfl hready.le hfit
        · exact hbest
      · next hready =>
        apply ih
        split
        · next hfit => exact hslot previous.finish (not_lt.1 hready) le_rfl hfit
        · exact hbest

/-- Every gap from which the task is ready, if its rest is no longer than some limit, begins no
earlier than a time. -/
def Bounds (events : List (Event Rat)) (ready duration : Rat) (limit : Nat) (x : Rat) : Prop :=
  ∀ start front back, front ++ back = events → back.length ≤ limit →
    Gap duration start front back → ready ≤ start → x ≤ start

/-- What begins no later than an event of a list, counted by what is left. -/
theorem start_le_finish {xs : List (Event Rat)} {e f : Event Rat} {front fs : List (Event Rat)}
    (horder : InOrder (xs ++ e :: later)) (hsplit : front ++ f :: fs = xs ++ e :: later)
    (hlength : later.length ≤ fs.length) : f.start ≤ e.finish := by
  have hmem : f ∈ xs ∨ f = e := by
    rcases List.append_eq_append_iff.1 hsplit with ⟨as, hxs, hback⟩ | ⟨bs, -, hback⟩
    · cases as with
      | nil => exact Or.inr (List.cons.inj hback).1
      | cons a as =>
        obtain ⟨rfl, -⟩ := List.cons.inj hback
        exact Or.inl (hxs ▸ List.mem_append_right _ List.mem_cons_self)
    · cases bs with
      | nil => exact Or.inr (List.cons.inj hback).1.symm
      | cons b bs =>
        have := congrArg List.length hback
        simp only [List.length_cons, List.length_append] at this
        omega
  have he := horder.forward e (by simp)
  rcases hmem with hf | rfl
  · have hbefore := (List.pairwise_append.1 horder.pairwise).2.2 f hf e List.mem_cons_self
    have := horder.forward f (List.mem_append_left _ hf)
    linarith
  · exact he

/-- No gap before an event that is over when the task is ready holds the task. -/
theorem not_gap_before {xs front : List (Event Rat)} {e : Event Rat}
    (horder : InOrder (xs ++ e :: later)) (hd : 0 ≤ duration) (hready : e.finish < x)
    (hsplit : front ++ back = xs ++ e :: later) (hlength : later.length < back.length) :
    ¬ Gap duration x front back := by
  intro hgap
  cases back with
  | nil => cases hlength
  | cons f fs =>
    have hahead := hgap.ahead f rfl
    have hf := start_le_finish horder hsplit (Nat.le_of_lt_succ hlength)
    linarith

/-- A gap whose rest begins with an event lies between it and the event before it. -/
theorem Gap.between {earlier front : List (Event Rat)} {previous current : Event Rat}
    (h : Gap duration x front back) (hsplit : front ++ back = earlier ++ previous :: current :: later)
    (hlength : back.length = later.length + 1) :
    previous.finish ≤ x ∧ x + duration ≤ current.start := by
  have hsplit' : front ++ back = (earlier ++ [previous]) ++ current :: later := by
    simpa using hsplit
  obtain ⟨rfl, rfl⟩ := List.append_inj' hsplit' hlength
  exact ⟨h.behind previous (by simp), h.ahead current rfl⟩

/-- When the task is ready behind an event, but has no room before the next one, the time that
bounds the gaps from there on bounds all gaps. -/
theorem Bounds.of_ready {earlier : List (Event Rat)} {previous current : Event Rat}
    (h : Bounds (earlier ++ previous :: current :: later) ready duration later.length x)
    (horder : InOrder (earlier ++ previous :: current :: later)) (hd : 0 ≤ duration)
    (hready : previous.finish < ready) (hfit : ¬ ready + duration ≤ current.start) (limit : Nat) :
    Bounds (earlier ++ previous :: current :: later) ready duration limit x := by
  intro start front back hsplit _ hgap hstart
  rcases lt_trichotomy back.length (later.length + 1) with hlt | heq | hgt
  · exact h start front back hsplit (Nat.le_of_lt_succ hlt) hgap hstart
  · have hahead := (hgap.between hsplit heq).2
    exact absurd (by linarith) hfit
  · exact absurd hgap (not_gap_before horder hd (lt_of_lt_of_le hready hstart) hsplit hgt)

/-- The gap before an event, if the task fits there, bounds one gap more. -/
theorem Bounds.between {earlier : List (Event Rat)} {previous current : Event Rat}
    (h : Bounds (earlier ++ previous :: current :: later) ready duration later.length x)
    (horder : InOrder (earlier ++ previous :: current :: later)) (hx : current.finish ≤ x) :
    Bounds (earlier ++ previous :: current :: later) ready duration (later.length + 1)
      (if previous.finish + duration ≤ current.start then previous.finish else x) := by
  have hnext : previous.finish ≤ current.start := horder.next
  have hforward : current.start ≤ current.finish := horder.forward current (by simp)
  intro start front back hsplit hlength hgap hstart
  rcases lt_or_eq_of_le hlength with hlt | heq
  · have hbound := h start front back hsplit (Nat.le_of_lt_succ hlt) hgap hstart
    split
    · linarith
    · exact hbound
  · obtain ⟨hbehind, hahead⟩ := hgap.between hsplit heq
    rw [if_pos (by linarith)]
    exact hbehind

/-- Where the search ends bounds all gaps that it has gone through. -/
theorem searchBack_bounds (best : Slot Rat) {rev : List (Event Rat)}
    (horder : InOrder (rev.reverse ++ later)) (hd : 0 ≤ duration)
    (hhead : ∀ e ∈ rev.head?, e.finish ≤ best.start)
    (hbest : Bounds (rev.reverse ++ later) ready duration later.length best.start) :
    Bounds (rev.reverse ++ later) ready duration (rev.length - 1 + later.length)
      (searchBack ready duration rev best).start := by
  induction rev generalizing later best with
  | nil => simpa [searchBack] using hbest
  | cons current rev ih =>
    cases rev with
    | nil => simpa [searchBack] using hbest
    | cons previous earlier =>
      have hsplit : (current :: previous :: earlier).reverse ++ later =
          earlier.reverse ++ previous :: current :: later := by simp
      have hcurrent : current.finish ≤ best.start := hhead current rfl
      rw [hsplit] at horder hbest ⊢
      rw [searchBack]
      split
      -- the search ends here, and earlier gaps close before the task is ready
      · next hready =>
        split
        · next hfit => exact fun _ _ _ _ _ _ hstart => hstart
        · next hfit => exact hbest.of_ready horder hd hready hfit _
      · next hready =>
        have hsplit' : earlier.reverse ++ previous :: current :: later =
            (previous :: earlier).reverse ++ current :: later := by simp
        have hlimit : (current :: previous :: earlier).length - 1 + later.length =
            (previous :: earlier).length - 1 + (current :: later).length := by
          simp only [List.length_cons]
          omega
        have hprevious : previous.finish ≤ current.finish :=
          horder.next.trans (horder.forward current (by simp))
        have hbounds := hbest.between horder hcurrent
        -- the search goes on with a window that also bounds the gap just passed
        rw [hsplit'] at horder hbounds ⊢
        rw [hlimit]
        refine ih _ horder (fun e he => ?_) ?_
        · obtain rfl : previous = e := by simpa using he
          split
          · exact le_rfl
          · exact hprevious.trans hcurrent
        · rw [apply_ite Slot.start]
          exact hbounds

/-! ## The slot -/

theorem sound_behind {last : Event Rat} (h : events.getLast? = some last)
    (hx : Quantity.larger ready last.finish = x) :
    Sound events ready duration ⟨events.length, x⟩ := by
  rw [Quantity.larger_eq_max] at hx
  subst hx
  refine ⟨le_max_left .., events, [], List.append_nil _, rfl, fun e he => ?_, by simp⟩
  obtain rfl : last = e := by simpa [h] using he
  exact le_max_right ..

theorem sound_before (h : ∀ e ∈ events.head?, ready + duration ≤ e.start) :
    Sound events ready duration ⟨0, ready⟩ :=
  ⟨le_rfl, [], events, rfl, rfl, by simp, h⟩

/-- The slot of a task lies in a gap, and not before the task is ready. -/
theorem findSlot_sound (ready duration : Rat) (events : List (Event Rat)) :
    Sound events ready duration (findSlot ready duration events) := by
  match events with
  | [] => exact sound_before (by simp)
  | [only] =>
    have hlast : [only].getLast? = some only := rfl
    rw [findSlot]
    split
    · next hready =>
      exact sound_behind hlast (by rw [Quantity.larger_eq_max, max_eq_left hready])
    · next hready =>
      split
      · next hfit => exact sound_before (by simpa using hfit)
      · exact sound_behind hlast
          (by rw [Quantity.larger_eq_max, max_eq_right (not_le.1 hready).le])
  | first :: second :: later =>
    rw [findSlot]
    split
    · next hfit => exact sound_before (by simpa using hfit)
    · have hrev : first :: second :: later = (first :: second :: later).reverse.reverse ++ [] := by
        rw [List.reverse_reverse, List.append_nil]
      have hlast : (first :: second :: later).getLast? =
          some ((second :: later).getLast (by simp)) := by
        rw [List.getLast?_cons_cons, List.getLast?_eq_getLast_of_ne_nil]
      have hbehind : Sound (first :: second :: later) ready duration _ := sound_behind hlast rfl
      rw [hrev] at hbehind
      have := searchBack_sound hbehind
      rwa [← hrev] at this

/-- Behind the last event, and from the time at which it is over, a task can always run. -/
theorem bounds_behind {last : Event Rat} (h : events.getLast? = some last) :
    Bounds events ready duration 0 (Quantity.larger ready last.finish) := by
  intro start front back hs hl hgap hx
  obtain rfl : back = [] := List.length_eq_zero_iff.1 (Nat.le_zero.1 hl)
  rw [List.append_nil] at hs
  subst hs
  rw [Quantity.larger_eq_max]
  exact max_le hx (hgap.behind last h)

/-- No start at which the task is ready and fits into the lane is earlier than its slot. -/
theorem findSlot_le (horder : InOrder events) (hd : 0 ≤ duration) (hx : ready ≤ x)
    (hfits : Fits events duration x) : (findSlot ready duration events).start ≤ x := by
  obtain ⟨front, back, hs, hgap⟩ := hfits
  match events with
  | [] => exact hx
  | [only] =>
    rw [findSlot]
    split
    · exact hx
    · split
      · exact hx
      · next hfit =>
        cases front with
        | nil =>
          have hahead := hgap.ahead only (by rw [← List.nil_append back, hs]; rfl)
          exact absurd (by linarith) hfit
        | cons e front =>
          obtain ⟨rfl, hnil⟩ := List.cons.inj hs
          obtain ⟨rfl, rfl⟩ := List.append_eq_nil_iff.1 hnil
          exact hgap.behind e rfl
  | first :: second :: later =>
    have hlast : (first :: second :: later).getLast? =
        some ((second :: later).getLast (by simp)) := by
      rw [List.getLast?_cons_cons, List.getLast?_eq_getLast_of_ne_nil]
    have hrev : (first :: second :: later).reverse.reverse ++ [] = first :: second :: later := by
      rw [List.reverse_reverse, List.append_nil]
    rw [findSlot]
    split
    · exact hx
    · next hfirst =>
      have hbounds := searchBack_bounds
        ⟨later.length + 2, Quantity.larger ready ((second :: later).getLast (by simp)).finish⟩
        (hrev ▸ horder) hd
        (fun e he => by
          rw [List.head?_reverse, hlast] at he
          cases he
          rw [Quantity.larger_eq_max]
          exact le_max_right ..)
        (hrev ▸ bounds_behind hlast)
      rw [hrev] at hbounds
      cases front with
      | nil =>
        have hahead := hgap.ahead first (by rw [← List.nil_append back, hs]; rfl)
        exact absurd (by linarith) hfirst
      | cons e front =>
        have hl := congrArg List.length hs
        simp only [List.length_append, List.length_cons] at hl
        exact hbounds x (e :: front) back hs (by simp; omega) hgap hx

/-- The slot of a task begins at the earliest time at which the task is ready and fits. -/
theorem findSlot_isLeast (horder : InOrder events) (hd : 0 ≤ duration) :
    IsLeast {x | ready ≤ x ∧ Fits events duration x} (findSlot ready duration events).start := by
  obtain ⟨hready, earlier, later, hs, -, hgap⟩ := findSlot_sound ready duration events
  exact ⟨⟨hready, earlier, later, hs, hgap⟩, fun x hx => findSlot_le horder hd hx.1 hx.2⟩

/-! ## The lane -/

variable {lane : Lane Rat} {task : Int}

theorem insertIdx_length {β : Type} (xs ys : List β) (x : β) :
    (xs ++ ys).insertIdx xs.length x = xs ++ x :: ys := by
  induction xs with
  | nil => rfl
  | cons y xs ih => rw [List.cons_append, List.length_cons, List.insertIdx_succ_cons, ih]; rfl

/-- An event goes into a lane between those that are over before it and those that start later. -/
theorem events_commit (lane : Lane Rat) (task : Int) (ready duration : Rat) :
    ∃ earlier later, earlier ++ later = lane.events ∧
      Gap duration (lane.offer task ready duration).start earlier later ∧
      (lane.commit task ready duration).events =
        earlier ++ lane.offer task ready duration :: later := by
  obtain ⟨-, earlier, later, hs, hp, hgap⟩ := findSlot_sound ready duration lane.events
  refine ⟨earlier, later, hs, hgap, ?_⟩
  rw [commit, slot, ← hp, ← hs]
  exact insertIdx_length ..

theorem busyTime_eq_sum {K : Type} [Quantity.Exact K] (events : List (Event K)) :
    busyTime events = (events.map Event.length).sum :=
  Quantity.running_eq_sum _

theorem busyTime_nonneg {K : Type} [Quantity.Exact K] {events : List (Event K)}
    (h : ∀ e ∈ events, e.start ≤ e.finish) : 0 ≤ busyTime events := by
  rw [busyTime_eq_sum]
  refine List.sum_nonneg (List.forall_mem_map.2 fun e he => ?_)
  exact sub_nonneg.2 (h e he)

theorem length_offer (lane : Lane Rat) (task : Int) (ready duration : Rat) :
    (lane.offer task ready duration).length = duration :=
  add_sub_cancel_left _ _

/-- A machine is busy for as long as the task takes, on top of what it does already. -/
theorem busyTime_commit (lane : Lane Rat) (task : Int) (ready duration : Rat) :
    busyTime (lane.commit task ready duration).events = busyTime lane.events + duration := by
  have := ((perm_commit lane task ready duration).map Event.length).sum_eq
  rw [List.map_cons, List.sum_cons, length_offer] at this
  rw [busyTime_eq_sum, busyTime_eq_sum, this, add_comm]

/-- A lane stays in order. -/
theorem inOrder_commit (h : InOrder lane.events) (hd : 0 ≤ duration) :
    InOrder (lane.commit task ready duration).events := by
  obtain ⟨earlier, later, hs, hgap, hcommit⟩ := events_commit lane task ready duration
  rw [hcommit]
  rw [← hs] at h
  have hfinish : (lane.offer task ready duration).finish =
      (lane.offer task ready duration).start + duration := rfl
  refine h.insert (by linarith) ?_
  rwa [hfinish, add_sub_cancel_left]

end Lane
end EarliestFinish
