import EarliestFinish.Proofs.Outcome
import EarliestFinish.Proofs.Transfer

/-!
# Shared files and the transfer table

A transfer moves the files that one task writes and another one reads. Files are matched by name,
and the two sides count differently: a file counts as often as its writer lists it, and it does not
matter how often its reader does (`Task.sharedFiles`).

`Workflow.Transfers` says which table belongs to a workflow: every edge once, in the order in which
the edges first come, and with the time that its files take. `Planning.transferTimes_exact` says
that this table is what comes out unless a child link dangles, and that the order of files and
repeated inputs make no difference to it.
-/

namespace EarliestFinish

variable {α : Type}

/-! ## Files in another order -/

/-- The files that one task writes and another one reads. -/
def Task.sharedFiles (parent child : Task α) : List (File α) :=
  parent.files.filter fun f =>
    f.role = .output ∧ ∃ g ∈ child.files, g.role = .input ∧ g.name = f.name

/-- The total size of the files that one task writes and another one reads. -/
def Task.sharedBytes (parent child : Task Rat) : Rat :=
  ((parent.sharedFiles child).map File.size).sum

/-- The same task with its files in another order and some of its inputs listed again. -/
structure Task.Refiled (t t' : Task α) : Prop where
  same : t' = { t with files := t'.files }
  files : ∃ again,
    (∀ f ∈ again, f.role = .input ∧ ∃ g ∈ t.files, g.role = .input ∧ g.name = f.name) ∧
    t'.files.Perm (t.files ++ again)

/-- The same workflow with the files of its tasks in another order and some inputs listed again. -/
def Workflow.Refiled (w w' : Workflow α) : Prop := List.Forall₂ Task.Refiled w.tasks w'.tasks

namespace Task.Refiled

variable {t t' u u' : Task α}

theorem reads_iff (h : t.Refiled t') (name : String) :
    (∃ g ∈ t'.files, g.role = .input ∧ g.name = name) ↔
      ∃ g ∈ t.files, g.role = .input ∧ g.name = name := by
  obtain ⟨again, hagain, hperm⟩ := h.files
  constructor
  · rintro ⟨g, hg, hrole, rfl⟩
    rcases List.mem_append.1 (hperm.mem_iff.1 hg) with hg | hg
    · exact ⟨g, hg, hrole, rfl⟩
    · exact (hagain g hg).2
  · rintro ⟨g, hg, hrole, rfl⟩
    exact ⟨g, hperm.mem_iff.2 (List.mem_append_left _ hg), hrole, rfl⟩

theorem sharedFiles_perm (ht : t.Refiled t') (hu : u.Refiled u') :
    (t'.sharedFiles u').Perm (t.sharedFiles u) := by
  obtain ⟨again, hagain, hperm⟩ := ht.files
  simp only [sharedFiles, hu.reads_iff]
  refine (hperm.filter _).trans (.of_eq ?_)
  rw [List.filter_append, List.append_right_eq_self, List.filter_eq_nil_iff]
  -- what is listed again is read and not written
  intro f hf
  simp [(hagain f hf).1]

end Task.Refiled

theorem sharedSize_eq (parent child : Task Rat) :
    sharedSize parent child = parent.sharedBytes child := by
  rw [sharedSize, Quantity.running_eq_sum, Task.sharedBytes, Task.sharedFiles, Task.outputs,
    List.filter_filter]
  congr 3
  funext f
  have hnames : f.name ∈ child.inputs.map File.name ↔
      ∃ g ∈ child.files, g.role = .input ∧ g.name = f.name := by
    simp [Task.inputs, and_assoc]
  simp only [hnames]
  rw [Bool.decide_and, Bool.and_comm]

namespace Workflow.Refiled

variable {w w' : Workflow α} (h : w.Refiled w')
include h

theorem size_eq : w'.size = w.size := (List.Forall₂.length_eq h).symm

theorem holds_iff (i : Int) : w'.Holds i ↔ w.Holds i := by
  rw [Holds, Holds, size_eq h]

theorem edges_eq : w'.edges = w.edges := by
  rw [Workflow.edges_eq, Workflow.edges_eq, positions, positions, size_eq h]
  refine congrArg (List.flatMap · _) (funext fun t => ?_)
  have hchildren : w'.childrenOf t = w.childrenOf t := by
    unfold childrenOf
    rcases task?_related h t with ⟨hu, hu'⟩ | ⟨u, u', hu, hu', hrel⟩
    · rw [hu, hu']
    · rw [hu, hu', hrel.same]
  rw [hchildren]

theorem labelOf_eq (i : Int) : w'.labelOf i = w.labelOf i := by
  unfold labelOf
  rcases task?_related h i with ⟨hu, hu'⟩ | ⟨u, u', hu, hu', hrel⟩
  · rw [hu, hu']
  · rw [hu, hu', hrel.same]

end Workflow.Refiled

/-! ## The keys of the table -/

section Keys

variable [Quantity α] {w : Workflow α} {bandwidth : α} {known t : Table (Int × Int) α}
  {edges : List (Int × Int)}

/-- Edges that are new come behind the known ones, each once. -/
theorem addTransfers_keys (h : addTransfers w bandwidth known edges = .ok t) :
    t.keys = known.keys ++ (edges.removeAll known.keys).eraseDups := by
  induction edges generalizing known with
  | nil =>
    cases h
    simp [List.removeAll]
  | cons e edges ih =>
    obtain ⟨p, c⟩ := e
    rw [addTransfers] at h
    split at h
    · obtain ⟨_, -, h⟩ := bind_ok_iff.1 h
      obtain ⟨_, -, h⟩ := bind_ok_iff.1 h
      rw [ih h, Table.keys_insert]
      by_cases hknown : (p, c) ∈ known.keys
      · simp [hknown, List.removeAll]
      · have hrest : edges.removeAll (known.keys ++ [(p, c)]) =
            (edges.removeAll known.keys).filter fun e => !e == (p, c) := by
          simp only [List.removeAll, List.filter_filter]
          congr 1
          funext e
          by_cases he : e = (p, c) <;> simp [he]
        have hfirst : ((p, c) :: edges).removeAll known.keys =
            (p, c) :: edges.removeAll known.keys := by
          simp [List.removeAll, hknown]
        rw [if_neg hknown, hrest, hfirst, List.eraseDups_cons, List.append_assoc]
        rfl
    · cases h

end Keys

/-! ## The transfer table -/

section Exact

variable {w w' : Workflow Rat} {bandwidth : Rat} {known t : Table (Int × Int) Rat}
  {edges : List (Int × Int)}

/-- The transfer times of a workflow. -/
structure Workflow.Transfers (w : Workflow Rat) (bandwidth : Rat) (t : Table (Int × Int) Rat) :
    Prop where
  /-- Every edge has one place, in the order in which the edges first come. -/
  keys : t.keys = w.edges.eraseDups
  nonneg : ∀ x ∈ t.values, 0 ≤ x
  /-- An edge takes the time of its files, if there is anything to move and to move it by. -/
  time : ∀ p c, (p, c) ∈ w.edges → ∃ parent child, w.task? p = some parent ∧
    w.task? c = some child ∧ t.get? (p, c) = some (
      if 0 < parent.sharedBytes child ∧ 0 < bandwidth then parent.sharedBytes child / bandwidth
      else 0)
  /-- Where there is no edge, nothing is moved. -/
  elsewhere : ∀ costs : CostTable Rat, costs.transfer = t → ∀ p c, (p, c) ∉ w.edges →
    costs.transferCost p c = 0

theorem transfers_of_transferTable (h : transferTable w bandwidth = .ok t) :
    w.Transfers bandwidth t := by
  have hget := transferTable_get? h
  constructor
  case keys =>
    rw [addTransfers_keys h]
    simp [Table.keys, List.removeAll]
  case nonneg =>
    intro x hx
    obtain ⟨e, he, rfl⟩ := List.mem_map.1 hx
    exact transferTable_nonneg h e he
  case time =>
    intro p c he
    obtain ⟨parent, -, hparent⟩ := Workflow.exists_task (Workflow.mem_edges.1 he).1
    obtain ⟨child, -, hchild⟩ := Workflow.exists_task (addTransfers_ok h _ he)
    refine ⟨parent, child, hparent, hchild, ?_⟩
    rw [hget, if_pos he, edgeTime, hparent, hchild, ← sharedSize_eq]
    rfl
  case elsewhere =>
    rintro costs rfl p c he
    rw [CostTable.transferCost, hget, if_neg he]
    rfl

theorem addTransfers_refiled (h : w.Refiled w') (hp : ∀ e ∈ edges, w.Holds e.1) :
    addTransfers w' bandwidth known edges = addTransfers w bandwidth known edges := by
  induction edges generalizing known with
  | nil => rfl
  | cons e edges ih =>
    obtain ⟨p, c⟩ := e
    obtain ⟨hparent, hrest⟩ := List.forall_mem_cons.1 hp
    have hfiles (i : Int) (hi : w.Holds i) :
        ∃ t t', w.task i = .ok t ∧ w'.task i = .ok t' ∧ t.Refiled t' := by
      obtain ⟨t, -, ht⟩ := Workflow.exists_task hi
      rcases Workflow.task?_related h i with ⟨hnone, -⟩ | ⟨u, u', hu, hu', hrel⟩
      · cases hnone.symm.trans ht
      · exact ⟨u, u', Workflow.task_of_task? hu, Workflow.task_of_task? hu', hrel⟩
    rw [addTransfers, addTransfers]
    by_cases hc : w.Holds c
    · obtain ⟨t, t', ht, ht', hparent⟩ := hfiles p hparent
      obtain ⟨u, u', hu, hu', hchild⟩ := hfiles c hc
      have hsize : sharedSize t' u' = sharedSize t u := by
        rw [sharedSize_eq, sharedSize_eq]
        exact ((hparent.sharedFiles_perm hchild).map File.size).sum_eq
      rw [if_pos hc, if_pos ((h.holds_iff c).2 hc), ht, ht', hu, hu']
      change addTransfers w' _ (known.insert _ (transferTime _ (sharedSize t' u'))) edges =
        addTransfers w _ (known.insert _ (transferTime _ (sharedSize t u))) edges
      rw [hsize, ih hrest]
    · rw [if_neg hc, if_neg (mt (h.holds_iff c).1 hc), h.labelOf_eq]

/-- The order of files and repeated inputs make no difference to the transfer table. -/
theorem transferTable_refiled (h : w.Refiled w') :
    transferTable w' bandwidth = transferTable w bandwidth := by
  rw [transferTable, transferTable, h.edges_eq]
  exact addTransfers_refiled h fun e he => (Workflow.mem_edges.1 he).1

end Exact

namespace Planning

variable {w : Workflow Rat} {bandwidth : Rat} {σ σ' : Session Rat}
  {result : Except (Obstacle Rat) (Table (Int × Int) Rat)}

/-- The transfer times fail exactly if a child link dangles, and else they are those of the edges.
They stay the same if files are listed in another order or inputs are listed again. -/
theorem transferTimes_exact (h : (transferTimes w bandwidth).runIn σ = (result, σ')) :
    ((∃ o, result = .error o) ↔ ∃ e ∈ w.edges, ¬ w.Holds e.2) ∧
      (∀ o, result = .error o → ∃ f : Fault Rat, o = f ∧ f.kind = .malformedGraph) ∧
      (∀ t, result = .ok t → w.Transfers bandwidth t) ∧
      ∀ w', w.Refiled w' → ((transferTimes w' bandwidth).runIn σ).1 = result := by
  have hresult (w : Workflow Rat) :
      ((transferTimes w bandwidth).runIn σ).1 = ended (transferTable w bandwidth) := by
    obtain ⟨_, hrun, -⟩ := quiet_transferTimes w bandwidth σ
    rw [hrun]
  obtain rfl : ended (transferTable w bandwidth) = result := by rw [← hresult, h]
  refine ⟨⟨?_, ?_⟩, fun o ho => ?_, fun t ht => transfers_of_transferTable (ended_eq_ok_iff.1 ht),
    fun w' hw' => (hresult w').trans (congrArg ended (transferTable_refiled hw'))⟩
  · rintro ⟨o, ho⟩
    obtain ⟨f, hf, -⟩ := ended_eq_error_iff.1 ho
    obtain ⟨-, p, c, hlink, hout⟩ := transferTable_error hf
    exact ⟨(p, c), Workflow.mem_edges.2 hlink, hout⟩
  · rintro ⟨⟨p, c⟩, he, hout⟩
    cases ht : transferTable w bandwidth with
    | error f => exact ⟨f, rfl⟩
    | ok t => exact absurd ⟨p, c, Workflow.mem_edges.1 he, hout⟩ (transferTable_ok ht)
  · obtain ⟨f, hf, rfl⟩ := ended_eq_error_iff.1 ho
    exact ⟨f, rfl, (transferTable_error hf).1⟩

end Planning

namespace Sample

/-- A task that lists one of its outputs twice, a task that reads it and is linked to twice, and one
that reads something else. -/
def parcels : Workflow Rat where
  tasks := [
    { label := .number 0, length := 1, children := [2, 1, 1],
      files := [⟨"x", 3, .output⟩, ⟨"y", -2, .output⟩, ⟨"x", 3, .output⟩] },
    { label := .number 1, length := 1, files := [⟨"x", 3, .input⟩, ⟨"z", 5, .input⟩] },
    { label := .number 2, length := 1, files := [⟨"y", 2, .input⟩] }]

/-- The same with other orders of files, and with an input that is listed again. -/
def repacked : Workflow Rat where
  tasks := [
    { label := .number 0, length := 1, children := [2, 1, 1],
      files := [⟨"x", 3, .output⟩, ⟨"x", 3, .output⟩, ⟨"y", -2, .output⟩] },
    { label := .number 1, length := 1,
      files := [⟨"x", 3, .input⟩, ⟨"z", 5, .input⟩, ⟨"x", 3, .input⟩] },
    { label := .number 2, length := 1, files := [⟨"y", 2, .input⟩] }]

theorem refiled_parcels : parcels.Refiled repacked := by
  refine .cons ⟨rfl, [], by simp, ?_⟩ (.cons ⟨rfl, [⟨"x", 3, .input⟩], ?_, .refl _⟩ (.cons ?_ .nil))
  · exact (List.Perm.swap _ _ []).cons _
  · simp
  · exact ⟨rfl, [], by simp, .refl _⟩

end Sample

namespace Planning

/-- The shared output counts twice, the edge once, and a size below zero for nothing. -/
theorem transferTimes_exact_parcels :
    ∃ t σ', (transferTimes Sample.parcels 2).runIn {} = (.ok t, σ') ∧
      t.entries = [((0, 2), 0), ((0, 1), 3)] ∧ Sample.parcels.Transfers 2 t ∧
      ((transferTimes Sample.repacked 2).runIn {}).1 = .ok t := by
  obtain ⟨t, σ', hrun, hentries⟩ := exists_runIn_of_map
    (show ((transferTimes Sample.parcels 2).runIn {}).1.toOption.map Table.entries =
      some [((0, 2), 0), ((0, 1), 3)] by decide +kernel)
  obtain ⟨-, -, htransfers, hrefiled⟩ := transferTimes_exact hrun
  exact ⟨t, σ', hrun, hentries, htransfers t rfl, hrefiled _ Sample.refiled_parcels⟩

end Planning

end EarliestFinish
