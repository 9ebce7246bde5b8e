import EarliestFinish.Proofs.Slot
import Mathlib.Data.List.MinMax

/-!
# The earliest fit

A task may go into any gap of a lane that is long enough for it. `Lane.Admissible` says by position
which slots lie in such a gap, and `Lane.exhaustive` looks for the earliest of them the long way: it
goes through all gaps, takes the earliest window of each (`Lane.windows`) and the first of those
with the least start.

The search from the back stops at the first pair of events whose earlier one is over before the
task is ready, so it leaves gaps out. Where the events are in order it loses nothing by that:
`findSlot_earliestFit` says that its slot is admissible, that no admissible slot is earlier, and
that it begins when the one of the exhaustive search does. The two may have different positions,
around an event that takes no time.
-/

namespace EarliestFinish
namespace Lane

/-! ## Admissible slots -/

section Definitions

variable {α : Type} [Quantity α]

/-- A slot in which a task can run: the task is ready, the event before the position is over, and
the task is over before the event at the position. -/
structure Admissible (events : List (Event α)) (ready duration : α) (s : Slot α) : Prop where
  position : s.position ≤ events.length
  ready : ready ≤ s.start
  behind : ∀ k e, s.position = k + 1 → events[k]? = some e → e.finish ≤ s.start
  ahead : ∀ e, events[s.position]? = some e → s.start + duration ≤ e.start

/-- The earliest time at which a task can run behind the event before a position. -/
def opening (ready : α) (events : List (Event α)) : Nat → α
  | 0 => ready
  | k + 1 =>
    match events[k]? with
    | some e => Quantity.larger ready e.finish
    | none => ready

/-- Whether a task is over before the event at the position of a slot, if there is one. -/
def closesIn (events : List (Event α)) (duration : α) (s : Slot α) : Bool :=
  match events[s.position]? with
  | some e => s.start + duration ≤ e.start
  | none => true

/-- The earliest window of every gap that holds a task. -/
def windows (ready duration : α) (events : List (Event α)) : List (Slot α) :=
  ((List.range (events.length + 1)).map fun k => ⟨k, opening ready events k⟩).filter
    (closesIn events duration)

end Definitions

variable {ready duration x : Rat} {events : List (Event Rat)} {s : Slot Rat} {k : Nat}

/-- The first window of the least start, looked for in all gaps. -/
def exhaustive (ready duration : Rat) (events : List (Event Rat)) : Option (Slot Rat) :=
  (windows ready duration events).argmin Slot.start

/-- A slot is admissible if it lies in a gap between two parts of the list of events. -/
theorem admissible_iff_sound : Admissible events ready duration s ↔ Sound events ready duration s := by
  constructor
  · intro h
    refine ⟨h.ready, events.take s.position, events.drop s.position, List.take_append_drop .., ?_, ?_⟩
    · exact List.length_take_of_le h.position
    constructor
    case behind =>
      intro e he
      cases hp : s.position with
      | zero => simp [hp] at he
      | succ k =>
        have hk : k < events.length := by have := h.position; omega
        have hlast : events[k]? = some e := by
          simpa [hp, List.getLast?_take, List.getElem?_eq_getElem hk] using he
        exact h.behind k e hp hlast
    case ahead =>
      intro e he
      rw [List.head?_drop] at he
      exact h.ahead e he
  · rintro ⟨hready, earlier, later, rfl, hposition, hgap⟩
    refine ⟨?_, hready, fun k e hk he => ?_, fun e he => ?_⟩
    · rw [← hposition, List.length_append]
      exact Nat.le_add_right ..
    · refine hgap.behind e ?_
      rw [List.getElem?_append_left (by omega)] at he
      rw [Option.mem_def, List.getLast?_eq_getElem?, ← he, hposition, hk, Nat.add_sub_cancel]
    · refine hgap.ahead e ?_
      rw [List.getElem?_append_right hposition.le, hposition, Nat.sub_self] at he
      rw [Option.mem_def, List.head?_eq_getElem?, he]

theorem Admissible.fits (h : Admissible events ready duration s) :
    Fits events duration s.start := by
  obtain ⟨-, earlier, later, hsplit, -, hgap⟩ := admissible_iff_sound.1 h
  exact ⟨earlier, later, hsplit, hgap⟩

/-! ## The exhaustive search -/

theorem opening_le_iff : opening ready events k ≤ x ↔
    ready ≤ x ∧ ∀ j e, k = j + 1 → events[j]? = some e → e.finish ≤ x := by
  cases k with
  | zero => simp [opening]
  | succ k =>
    have hnext : (∀ j e, k + 1 = j + 1 → events[j]? = some e → e.finish ≤ x) ↔
        ∀ e, events[k]? = some e → e.finish ≤ x := by
      refine ⟨fun h e => h k e rfl, fun h j e hj he => h e ?_⟩
      rwa [Nat.succ.inj hj]
    rw [opening, hnext]
    cases events[k]? <;> simp [Quantity.larger_eq_max]

theorem closesIn_iff : closesIn events duration s = true ↔
    ∀ e, events[s.position]? = some e → s.start + duration ≤ e.start := by
  unfold closesIn
  cases events[s.position]? <;> simp

/-- The windows are the admissible slots that begin as early as their gap allows. -/
theorem mem_windows_iff : s ∈ windows ready duration events ↔
    Admissible events ready duration s ∧ s.start = opening ready events s.position := by
  rw [windows, List.mem_filter, closesIn_iff, List.mem_map]
  constructor
  · rintro ⟨⟨k, hk, rfl⟩, hahead⟩
    obtain ⟨hready, hbehind⟩ := opening_le_iff.1 (le_refl (opening ready events k))
    exact ⟨⟨Nat.le_of_lt_succ (List.mem_range.1 hk), hready, hbehind, hahead⟩, rfl⟩
  · rintro ⟨h, hstart⟩
    refine ⟨⟨s.position, List.mem_range.2 (Nat.lt_succ_of_le h.position), ?_⟩, h.ahead⟩
    rw [← hstart]

/-- In the gap of an admissible slot there is a window that begins no later. -/
theorem Admissible.exists_window (h : Admissible events ready duration s) :
    ∃ s' ∈ windows ready duration events, s'.start ≤ s.start := by
  have hle : opening ready events s.position ≤ s.start :=
    opening_le_iff.2 ⟨h.ready, h.behind⟩
  obtain ⟨hready, hbehind⟩ := opening_le_iff.1 (le_refl (opening ready events s.position))
  refine ⟨⟨s.position, opening ready events s.position⟩, mem_windows_iff.2 ⟨?_, rfl⟩, hle⟩
  refine ⟨h.position, hready, hbehind, fun e he => ?_⟩
  have := h.ahead e he
  dsimp only
  linarith

/-- The exhaustive search finds an admissible slot than which no other is earlier, whether or not
the events are in order. -/
theorem exhaustive_isLeast (ready duration : Rat) (events : List (Event Rat)) :
    ∃ s, exhaustive ready duration events = some s ∧ Admissible events ready duration s ∧
      ∀ s', Admissible events ready duration s' → s.start ≤ s'.start := by
  cases hs : exhaustive ready duration events with
  | none =>
    -- behind the last event there is always a window
    have hsound := findSlot_sound ready duration events
    obtain ⟨s', hs', -⟩ := (admissible_iff_sound.2 hsound).exists_window
    rw [exhaustive, List.argmin_eq_none] at hs
    simp [hs] at hs'
  | some s =>
    refine ⟨s, rfl, (mem_windows_iff.1 (List.argmin_mem hs)).1, fun s' h => ?_⟩
    obtain ⟨window, hmem, hle⟩ := h.exists_window
    exact (List.le_of_mem_argmin hmem hs).trans hle

/-! ## The search from the back -/

/-- The search from the back finds the earliest fit, though it does not go through all gaps. -/
theorem findSlot_earliestFit (horder : InOrder events) (hd : 0 ≤ duration) (ready : Rat) :
    Admissible events ready duration (findSlot ready duration events) ∧
      (∀ s, Admissible events ready duration s →
        (findSlot ready duration events).start ≤ s.start) ∧
      ∃ s, exhaustive ready duration events = some s ∧
        s.start = (findSlot ready duration events).start := by
  have hadmissible : Admissible events ready duration (findSlot ready duration events) :=
    admissible_iff_sound.2 (findSlot_sound ready duration events)
  have hleast (s : Slot Rat) (h : Admissible events ready duration s) :
      (findSlot ready duration events).start ≤ s.start := findSlot_le horder hd h.ready h.fits
  obtain ⟨s, hs, hslot, hbound⟩ := exhaustive_isLeast ready duration events
  exact ⟨hadmissible, hleast, s, hs, le_antisymm (hbound _ hadmissible) (hleast s hslot)⟩

end Lane

namespace Sample

/-- A lane with a gap of one, an event that takes no time, and a gap of two. -/
def gaps : List (Event Rat) := [⟨0, 0, 3, 0⟩, ⟨1, 4, 4, 0⟩, ⟨2, 4, 6, 0⟩, ⟨3, 8, 9, 0⟩]

theorem inOrder_gaps : Lane.InOrder gaps where
  forward := by decide +kernel
  apart := by decide +kernel

end Sample

namespace Lane

/-- A task of length two that is ready at one goes into the last of the gaps. -/
theorem findSlot_earliestFit_gaps :
    InOrder Sample.gaps ∧ findSlot 1 2 Sample.gaps = ⟨3, 6⟩ ∧
      (∀ s, Admissible Sample.gaps 1 2 s → 6 ≤ s.start) ∧
      ∃ s, exhaustive 1 2 Sample.gaps = some s ∧ s.start = 6 := by
  have hslot : findSlot 1 2 Sample.gaps = ⟨3, 6⟩ := by decide +kernel
  obtain ⟨-, hleast, hexhaustive⟩ :=
    findSlot_earliestFit Sample.inOrder_gaps (by norm_num : (0 : Rat) ≤ 2) 1
  rw [hslot] at hleast hexhaustive
  exact ⟨Sample.inOrder_gaps, hslot, hleast, hexhaustive⟩

end Lane
end EarliestFinish
