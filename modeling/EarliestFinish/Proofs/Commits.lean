import EarliestFinish.Proofs.Slot

/-!
# Lanes over any run of commits

A lane is filled by requests: a task that is ready at some time and takes some duration asks for a
place, and gets the slot that the search finds. `Lane.fill` is the lane after some requests, from an
empty one.

* One commit puts one event between the others and leaves these as they are (`inserts_commit`). The
  event is what was asked for, and a query beforehand shows it (`serves_offer`).
* So the events stay in order, and those that are there stay there: `inOrder_commitAll` and
  `sublist_commitAll`, by induction over the requests.

`fill_timeline` puts this together for every point of a run. Ties need no care: a task may take no
time, be ready when an event is over, or fill a gap to the end.
-/

namespace EarliestFinish
namespace Lane

section Definitions

variable {α : Type} [Quantity α]

/-- What a task asks of a lane. -/
structure Request (α : Type) where
  task : Int
  ready : α
  duration : α

/-- The lane after some requests, one after the other. -/
def commitAll (lane : Lane α) (requests : List (Request α)) : Lane α :=
  requests.foldl (fun lane r => lane.commit r.task r.ready r.duration) lane

/-- The lane of a machine after some requests. -/
def fill (machine : Int) (requests : List (Request α)) : Lane α :=
  (⟨machine, []⟩ : Lane α).commitAll requests

/-- A lane has one event more than another, and the others unchanged and in their order. -/
def Inserts (lane next : Lane α) (e : Event α) : Prop :=
  ∃ earlier later, earlier ++ later = lane.events ∧ next.events = earlier ++ e :: later

/-- An event is what a lane has for a request: it is for the task on the machine, it does not start
before the task is ready, it takes the duration, and a query shows its window. -/
structure Serves (lane : Lane α) (r : Request α) (e : Event α) : Prop where
  task : e.task = r.task
  machine : e.machine = lane.machine
  ready : r.ready ≤ e.start
  finish : e.finish = e.start + r.duration
  start_query : (lane.query r.ready r.duration).start = e.start
  finish_query : (lane.query r.ready r.duration).finish = e.finish

theorem commitAll_cons (lane : Lane α) (r : Request α) (requests : List (Request α)) :
    lane.commitAll (r :: requests) =
      (lane.commit r.task r.ready r.duration).commitAll requests := rfl

theorem commitAll_append (lane : Lane α) (before after : List (Request α)) :
    lane.commitAll (before ++ after) = (lane.commitAll before).commitAll after :=
  List.foldl_append

theorem fill_append (machine : Int) (before after : List (Request α)) :
    fill machine (before ++ after) = (fill machine before).commitAll after :=
  commitAll_append ..

theorem sublist_commit (lane : Lane α) (task : Int) (ready duration : α) :
    lane.events.Sublist (lane.commit task ready duration).events :=
  List.sublist_insertIdx ..

/-- The events of a lane stay there. -/
theorem sublist_commitAll (lane : Lane α) (requests : List (Request α)) :
    lane.events.Sublist (lane.commitAll requests).events := by
  induction requests generalizing lane with
  | nil => exact List.Sublist.refl _
  | cons r requests ih =>
    rw [commitAll_cons]
    exact (sublist_commit lane r.task r.ready r.duration).trans (ih _)

end Definitions

variable {lane : Lane Rat} {requests : List (Request Rat)}

/-- One commit puts in the event of its task. -/
theorem inserts_commit (lane : Lane Rat) (r : Request Rat) :
    lane.Inserts (lane.commit r.task r.ready r.duration)
      (lane.offer r.task r.ready r.duration) := by
  obtain ⟨earlier, later, hsplit, -, hcommit⟩ :=
    events_commit lane r.task r.ready r.duration
  exact ⟨earlier, later, hsplit, hcommit⟩

theorem serves_offer (lane : Lane Rat) (r : Request Rat) :
    lane.Serves r (lane.offer r.task r.ready r.duration) where
  task := rfl
  machine := rfl
  ready := (findSlot_sound r.ready r.duration lane.events).1
  finish := rfl
  start_query := rfl
  finish_query := rfl

/-- The events of a lane stay in order. -/
theorem inOrder_commitAll (h : InOrder lane.events) (hd : ∀ r ∈ requests, 0 ≤ r.duration) :
    InOrder (lane.commitAll requests).events := by
  induction requests generalizing lane with
  | nil => exact h
  | cons r requests ih =>
    obtain ⟨hr, hrest⟩ := List.forall_mem_cons.1 hd
    rw [commitAll_cons]
    exact ih (inOrder_commit h hr) hrest

theorem inOrder_fill (machine : Int) (hd : ∀ r ∈ requests, 0 ≤ r.duration) :
    InOrder (fill machine requests).events :=
  inOrder_commitAll ⟨by simp, by simp⟩ hd

/-- At every point of a run the events are in order and are still there at its end. Every request
puts in one event, which is what it asked for and what a query showed before. And whatever the
events of a lane are, a slot lies in it and does not begin before the task is ready. -/
theorem fill_timeline (hd : ∀ r ∈ requests, 0 ≤ r.duration) (machine : Int) :
    (∀ before after, requests = before ++ after →
      InOrder (fill machine before).events ∧
        (fill machine before).events.Sublist (fill machine requests).events) ∧
    (∀ before r after, requests = before ++ r :: after →
      ∃ e, (fill machine before).Serves r e ∧
        (fill machine before).Inserts (fill machine (before ++ [r])) e) ∧
    ∀ (events : List (Event Rat)) (ready duration : Rat),
      (findSlot ready duration events).position ≤ events.length ∧
        ready ≤ (findSlot ready duration events).start := by
  refine ⟨?_, ?_, fun events ready duration => ⟨?_, ?_⟩⟩
  · rintro before after rfl
    refine ⟨inOrder_fill machine fun r hr => hd r (List.mem_append_left _ hr), ?_⟩
    rw [fill_append]
    exact sublist_commitAll ..
  · intro before r after _
    refine ⟨_, serves_offer (fill machine before) r, ?_⟩
    rw [fill_append]
    exact inserts_commit (fill machine before) r
  · exact findSlot_position_le ready duration events
  · exact (findSlot_sound ready duration events).1

end Lane

namespace Sample

/-- A task in the middle, one that takes no time at its end, one that fills the gap before it to the
end, and one that takes no time and is ready where two events meet. -/
def touching : List (Lane.Request Rat) := [⟨0, 4, 2⟩, ⟨1, 6, 0⟩, ⟨2, 1, 3⟩, ⟨3, 4, 0⟩]

end Sample

namespace Lane

/-- The lane of the touching events. -/
theorem fill_timeline_touching :
    (fill 0 Sample.touching).events =
        [⟨2, 1, 4, 0⟩, ⟨3, 4, 4, 0⟩, ⟨0, 4, 6, 0⟩, ⟨1, 6, 6, 0⟩] ∧
      InOrder (fill 0 Sample.touching).events ∧
      ∃ e, (fill 0 (Sample.touching.take 3)).Serves ⟨3, 4, 0⟩ e ∧
        (fill 0 (Sample.touching.take 3)).Inserts (fill 0 Sample.touching) e := by
  have hd : ∀ r ∈ Sample.touching, 0 ≤ r.duration := by decide +kernel
  obtain ⟨horder, hserves, -⟩ := fill_timeline hd 0
  refine ⟨by decide +kernel, (horder _ [] (List.append_nil _).symm).1, ?_⟩
  exact hserves (Sample.touching.take 3) ⟨3, 4, 0⟩ [] rfl

end Lane
end EarliestFinish
