import EarliestFinish.CostTable
import EarliestFinish.Proofs.Fallible
import EarliestFinish.Proofs.LinkOrder

/-!
# The transfer times of a workflow

There is a table of transfer times exactly if no child link leads out of the workflow. It has every
edge once, with the time that its files take (`transferTable_get?`). Exact transfer times are never
negative, whatever the file sizes and bandwidths.
-/

namespace EarliestFinish

namespace Workflow

variable {α : Type} {w : Workflow α}

theorem task?_of_task {i : Int} {t : Task α} (h : w.task i = .ok t) : w.task? i = some t := by
  unfold task elementAt at h
  split at h
  · next u hu =>
    cases h
    exact hu
  · cases h

/-- If the tasks of two workflows are related one by one, then at every position there are two
related tasks or none. -/
theorem task?_related {R : Task α → Task α → Prop} {w' : Workflow α}
    (h : List.Forall₂ R w.tasks w'.tasks) (i : Int) :
    (w.task? i = none ∧ w'.task? i = none) ∨
      ∃ u u', w.task? i = some u ∧ w'.task? i = some u' ∧ R u u' := by
  have hlength := List.Forall₂.length_eq h
  unfold task? size
  rw [hlength]
  cases position? w'.tasks.length i with
  | none => exact Or.inl ⟨rfl, rfl⟩
  | some k =>
    by_cases hk : k < w.tasks.length
    · have hk' : k < w'.tasks.length := hlength ▸ hk
      refine Or.inr ⟨_, _, List.getElem?_eq_getElem hk, List.getElem?_eq_getElem hk', ?_⟩
      exact h.get hk hk'
    · have hk' : ¬ k < w'.tasks.length := hlength ▸ hk
      exact Or.inl ⟨List.getElem?_eq_none (not_lt.1 hk), List.getElem?_eq_none (not_lt.1 hk')⟩

end Workflow

variable {α : Type} [Quantity α] {w : Workflow α} {bandwidth : α} {known t : Table (Int × Int) α}
  {edges : List (Int × Int)}

theorem addTransfers_ok (h : addTransfers w bandwidth known edges = .ok t) :
    ∀ e ∈ edges, w.Holds e.2 := by
  induction edges generalizing known with
  | nil => simp
  | cons e edges ih =>
    obtain ⟨p, c⟩ := e
    rw [addTransfers] at h
    split at h
    · next hc =>
      obtain ⟨_, -, h⟩ := bind_ok_iff.1 h
      obtain ⟨_, -, h⟩ := bind_ok_iff.1 h
      exact List.forall_mem_cons.2 ⟨hc, ih h⟩
    · cases h

theorem addTransfers_error {f : Fault α} (hp : ∀ e ∈ edges, w.Holds e.1)
    (h : addTransfers w bandwidth known edges = .error f) :
    f.kind = .malformedGraph ∧ ∃ e ∈ edges, ¬ w.Holds e.2 := by
  induction edges generalizing known with
  | nil => cases h
  | cons e edges ih =>
    obtain ⟨p, c⟩ := e
    obtain ⟨hpw, hrest⟩ := List.forall_mem_cons.1 hp
    rw [addTransfers] at h
    split at h
    · next hc =>
      obtain ⟨tp, -, hp⟩ := Workflow.exists_task hpw
      obtain ⟨tc, -, hc⟩ := Workflow.exists_task hc
      rw [Workflow.task_of_task? hp, Workflow.task_of_task? hc] at h
      obtain ⟨hk, e, he, hout⟩ := ih hrest h
      exact ⟨hk, e, List.mem_cons_of_mem _ he, hout⟩
    · next hc =>
      cases h
      exact ⟨rfl, (p, c), List.mem_cons_self, hc⟩

theorem transferTable_ok (h : transferTable w bandwidth = .ok t) :
    ¬ w.Dangling w.childrenOf := by
  rintro ⟨p, c, hlink, hout⟩
  exact hout (addTransfers_ok h (p, c) (Workflow.mem_edges.2 hlink))

theorem transferTable_error {f : Fault α} (h : transferTable w bandwidth = .error f) :
    f.kind = .malformedGraph ∧ w.Dangling w.childrenOf := by
  obtain ⟨hk, ⟨p, c⟩, he, hout⟩ :=
    addTransfers_error (fun _ he => (Workflow.mem_edges.1 he).1) h
  exact ⟨hk, p, c, Workflow.mem_edges.1 he, hout⟩

/-- The time that the files of an edge take. -/
def edgeTime (w : Workflow α) (bandwidth : α) (e : Int × Int) : α :=
  match w.task? e.1, w.task? e.2 with
  | some parent, some child => transferTime bandwidth (sharedSize parent child)
  | _, _ => 0

theorem addTransfers_get? (h : addTransfers w bandwidth known edges = .ok t) (e : Int × Int) :
    t.get? e = if e ∈ edges then some (edgeTime w bandwidth e) else known.get? e := by
  induction edges generalizing known with
  | nil =>
    cases h
    rfl
  | cons first edges ih =>
    obtain ⟨p, c⟩ := first
    rw [addTransfers] at h
    split at h
    · obtain ⟨parent, hparent, h⟩ := bind_ok_iff.1 h
      obtain ⟨child, hchild, h⟩ := bind_ok_iff.1 h
      have htime : edgeTime w bandwidth (p, c) =
          transferTime bandwidth (sharedSize parent child) := by
        rw [edgeTime, Workflow.task?_of_task hparent, Workflow.task?_of_task hchild]
      rw [ih h, Table.get?_insert, ← htime]
      by_cases hfirst : (p, c) = e
      · subst hfirst
        simp
      · simp [hfirst, Ne.symm hfirst]
    · cases h

theorem addTransfers_nodup (hn : known.keys.Nodup)
    (h : addTransfers w bandwidth known edges = .ok t) : t.keys.Nodup := by
  induction edges generalizing known with
  | nil =>
    cases h
    exact hn
  | cons first edges ih =>
    obtain ⟨p, c⟩ := first
    rw [addTransfers] at h
    split at h
    · obtain ⟨_, -, h⟩ := bind_ok_iff.1 h
      obtain ⟨_, -, h⟩ := bind_ok_iff.1 h
      refine ih ?_ h
      rw [Table.keys_insert]
      split
      · exact hn
      · next hnew => exact hn.append (List.nodup_singleton _) (by simpa using hnew)
    · cases h

/-- The table of a workflow has its edges, each with its time. -/
theorem transferTable_get? (h : transferTable w bandwidth = .ok t) (e : Int × Int) :
    t.get? e = if e ∈ w.edges then some (edgeTime w bandwidth e) else none :=
  addTransfers_get? h e

theorem transferTable_nodup (h : transferTable w bandwidth = .ok t) : t.keys.Nodup := by
  refine addTransfers_nodup ?_ h
  exact List.nodup_nil

section Exact

variable {w : Workflow Rat} {bandwidth size : Rat} {known t : Table (Int × Int) Rat}

theorem transferTime_nonneg (bandwidth size : Rat) : 0 ≤ transferTime bandwidth size := by
  unfold transferTime
  split
  · next h => exact div_nonneg h.1.le h.2.le
  · exact le_refl (0 : Rat)

theorem addTransfers_nonneg (hk : ∀ e ∈ known.entries, 0 ≤ e.2)
    (h : addTransfers w bandwidth known edges = .ok t) : ∀ e ∈ t.entries, 0 ≤ e.2 := by
  induction edges generalizing known with
  | nil =>
    cases h
    exact hk
  | cons e edges ih =>
    obtain ⟨p, c⟩ := e
    rw [addTransfers] at h
    split at h
    · obtain ⟨_, -, h⟩ := bind_ok_iff.1 h
      obtain ⟨_, -, h⟩ := bind_ok_iff.1 h
      refine ih (fun e he => ?_) h
      rcases Table.mem_entries_insert he with rfl | he
      · exact transferTime_nonneg ..
      · exact hk e he
    · cases h

/-- No transfer takes a negative time. -/
theorem transferTable_nonneg (h : transferTable w bandwidth = .ok t) : ∀ e ∈ t.entries, 0 ≤ e.2 :=
  addTransfers_nonneg (by simp) h

end Exact

end EarliestFinish
