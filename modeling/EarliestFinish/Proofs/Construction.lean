import EarliestFinish.Proofs.Fallible
import EarliestFinish.Proofs.LinkOrder

/-!
# The construction of workflows

A workflow is put together by commands: a task is added at the end, or a dependency between two
tasks is declared. A declaration that is refused changes nothing.

`Workflow.build_eq` says what a list of commands comes to. The workflow has the tasks that were
added, in their order. The children of a task are those of its accepted pairs, in the order in which
they were first accepted, and so are its parents: `Workflow.ofLinks` is this workflow as a function
of the tasks and the accepted pairs. The proof goes command by command (`perform_ofLinks`).

So the child links and the parent links of such a workflow say the same (`Workflow.mirrored_build`),
and it is malformed only if its dependencies form a cycle.
-/

namespace EarliestFinish

variable {α : Type}

/-- A command in the construction of a workflow. -/
inductive Command (α : Type)
  | task (t : Task α)
  | dependency (parent child : Int)

/-- The tasks among some commands. -/
def tasksOf (commands : List (Command α)) : List (Task α) :=
  commands.filterMap fun
    | .task t => some t
    | .dependency .. => none

namespace Workflow

/-- The workflow after a command. -/
def perform (w : Workflow α) : Command α → Workflow α
  | .task t => w.add t
  | .dependency parent child =>
    match w.connect parent child with
    | .ok w' => w'
    | .error _ => w

/-- The workflow that some commands build. -/
def build (commands : List (Command α)) : Workflow α := commands.foldl perform {}

/-- The pair of a command, if it declares a dependency that is accepted. -/
def acceptedPair (w : Workflow α) : Command α → List (Int × Int)
  | .task _ => []
  | .dependency parent child =>
    match w.connect parent child with
    | .ok _ => [(parent, child)]
    | .error _ => []

/-- The accepted pairs of some commands, in their order and with repetitions. -/
def acceptedPairs : Workflow α → List (Command α) → List (Int × Int)
  | _, [] => []
  | w, command :: commands =>
    w.acceptedPair command ++ acceptedPairs (w.perform command) commands

/-- The children of a task in some pairs, in the order in which they first come. -/
def childrenIn (pairs : List (Int × Int)) (t : Int) : List Int :=
  ((pairs.filter fun e => e.1 = t).map Prod.snd).foldl withLink []

/-- The parents of a task in some pairs, in the order in which they first come. -/
def parentsIn (pairs : List (Int × Int)) (t : Int) : List Int :=
  ((pairs.filter fun e => e.2 = t).map Prod.fst).foldl withLink []

/-- A task with the links that it has in some pairs. -/
def linkTask (pairs : List (Int × Int)) (k : Nat) (t : Task α) : Task α :=
  { t with parents := parentsIn pairs k, children := childrenIn pairs k }

/-- The workflow of some tasks with the links between them that are in some pairs. -/
def ofLinks (tasks : List (Task α)) (pairs : List (Int × Int)) : Workflow α :=
  ⟨tasks.mapIdx (linkTask pairs)⟩

/-! ## Links in the order in which they first come -/

section Links

variable {links : List Int} {xs : List Int} {i j t : Int} {pairs : List (Int × Int)}

theorem mem_withLink : i ∈ withLink links j ↔ i ∈ links ∨ i = j := by
  unfold withLink
  split
  · next h =>
    refine ⟨Or.inl, fun hi => hi.elim id ?_⟩
    rintro rfl
    exact h
  · simp

theorem nodup_withLink (h : links.Nodup) : (withLink links j).Nodup := by
  unfold withLink
  split
  · exact h
  · next hj => exact h.append (List.nodup_singleton j) (by simpa using hj)

theorem mem_foldl_withLink : i ∈ xs.foldl withLink links ↔ i ∈ links ∨ i ∈ xs := by
  induction xs generalizing links with
  | nil => simp
  | cons x xs ih => rw [List.foldl_cons, ih, mem_withLink, List.mem_cons, or_assoc]

theorem nodup_foldl_withLink (h : links.Nodup) : (xs.foldl withLink links).Nodup := by
  induction xs generalizing links with
  | nil => exact h
  | cons x xs ih => exact ih (nodup_withLink h)

theorem mem_childrenIn : i ∈ childrenIn pairs t ↔ (t, i) ∈ pairs := by
  simp [childrenIn, mem_foldl_withLink]

theorem mem_parentsIn : i ∈ parentsIn pairs t ↔ (i, t) ∈ pairs := by
  simp [parentsIn, mem_foldl_withLink]

theorem childrenIn_nodup (pairs : List (Int × Int)) (t : Int) : (childrenIn pairs t).Nodup :=
  nodup_foldl_withLink List.nodup_nil

theorem parentsIn_nodup (pairs : List (Int × Int)) (t : Int) : (parentsIn pairs t).Nodup :=
  nodup_foldl_withLink List.nodup_nil

theorem childrenIn_concat (pairs : List (Int × Int)) (i j t : Int) :
    childrenIn (pairs ++ [(i, j)]) t =
      if i = t then withLink (childrenIn pairs t) j else childrenIn pairs t := by
  split <;> simp_all [childrenIn]

theorem parentsIn_concat (pairs : List (Int × Int)) (i j t : Int) :
    parentsIn (pairs ++ [(i, j)]) t =
      if j = t then withLink (parentsIn pairs t) i else parentsIn pairs t := by
  split <;> simp_all [parentsIn]

end Links

/-! ## One command -/

section Command

theorem changeAt_natCast {β : Type} {xs : List β} {k : Nat} (hk : k < xs.length) (f : β → β) :
    changeAt xs k f = (.ok (xs.modify k f) : Except (Fault α) (List β)) := by
  rw [changeAt, position?_natCast hk]

variable {tasks : List (Task α)} {pairs : List (Int × Int)} {parent child : Int} {w w' : Workflow α}

/-- All pairs are between two tasks of a workflow. -/
def Between (w : Workflow α) (pairs : List (Int × Int)) : Prop :=
  ∀ e ∈ pairs, w.Holds e.1 ∧ w.Holds e.2 ∧ e.1 ≠ e.2

theorem size_ofLinks (tasks : List (Task α)) (pairs : List (Int × Int)) :
    (ofLinks tasks pairs).size = tasks.length :=
  List.length_mapIdx

/-- A dependency between two tasks is recorded on both sides. -/
theorem connect_eq (hparent : w.Holds parent) (hchild : w.Holds child) (hne : parent ≠ child) :
    w.connect parent child =
      .ok ⟨(w.tasks.modify parent.toNat fun t => { t with children := withLink t.children child }
        ).modify child.toNat fun t => { t with parents := withLink t.parents parent }⟩ := by
  obtain ⟨p, hp, rfl⟩ := exists_natCast hparent
  obtain ⟨c, hc, rfl⟩ := exists_natCast hchild
  unfold connect
  rw [if_pos ⟨hparent, hchild⟩, if_neg hne]
  refine bind_ok_iff.2 ⟨_, changeAt_natCast hp _, bind_ok_iff.2 ⟨_, changeAt_natCast ?_ _, rfl⟩⟩
  rwa [List.length_modify]

/-- A dependency that is not between two tasks is refused. -/
theorem connect_error (h : ¬ (w.Holds parent ∧ w.Holds child ∧ parent ≠ child)) :
    ∃ f, w.connect parent child = .error f ∧ f.kind = .malformedGraph := by
  unfold connect
  split
  · next hold =>
    obtain rfl : parent = child := by tauto
    obtain ⟨t, -, ht⟩ := exists_task hold.1
    rw [if_pos rfl, task_of_task? ht]
    exact ⟨_, rfl, rfl⟩
  · exact ⟨_, rfl, rfl⟩

theorem add_ofLinks (h : (ofLinks tasks pairs).Between pairs) (t : Task α) :
    (ofLinks tasks pairs).add t = ofLinks (tasks ++ [t]) pairs := by
  have hnone (i : Int) (hi : ∀ e ∈ pairs, e.1 ≠ i ∧ e.2 ≠ i) :
      childrenIn pairs i = [] ∧ parentsIn pairs i = [] := by
    constructor <;> refine List.eq_nil_iff_forall_not_mem.2 fun j hj => ?_
    · exact (hi _ (mem_childrenIn.1 hj)).1 rfl
    · exact (hi _ (mem_parentsIn.1 hj)).2 rfl
  -- no pair has to do with the place behind the last task
  have hlast := hnone tasks.length fun e he => by
    obtain ⟨h1, h2, -⟩ := h e he
    rw [Holds, size_ofLinks] at h1 h2
    omega
  rw [add, ofLinks, ofLinks, List.mapIdx_concat, linkTask, hlast.1, hlast.2]

theorem connect_ofLinks (hparent : (ofLinks tasks pairs).Holds parent)
    (hchild : (ofLinks tasks pairs).Holds child) (hne : parent ≠ child) :
    (ofLinks tasks pairs).connect parent child =
      .ok (ofLinks tasks (pairs ++ [(parent, child)])) := by
  rw [connect_eq hparent hchild hne]
  obtain ⟨p, -, rfl⟩ := exists_natCast hparent
  obtain ⟨c, -, rfl⟩ := exists_natCast hchild
  refine congrArg Except.ok (congrArg Workflow.mk (List.ext_getElem (by simp [ofLinks]) ?_))
  intro k hk hk'
  simp only [ofLinks, Int.toNat_natCast, List.getElem_modify, List.getElem_mapIdx, linkTask,
    childrenIn_concat, parentsIn_concat, Nat.cast_inj]
  -- the position is that of the parent, that of the child or neither
  by_cases hkp : p = k <;> by_cases hkc : c = k <;> simp [hkp, hkc]

/-- What a command does to a workflow that is given by its tasks and its accepted pairs. -/
theorem perform_ofLinks (h : (ofLinks tasks pairs).Between pairs) (command : Command α) :
    (ofLinks tasks pairs).perform command =
        ofLinks (tasks ++ tasksOf [command])
          (pairs ++ (ofLinks tasks pairs).acceptedPair command) ∧
      (ofLinks (tasks ++ tasksOf [command]) (pairs ++ (ofLinks tasks pairs).acceptedPair command)
        ).Between (pairs ++ (ofLinks tasks pairs).acceptedPair command) := by
  cases command with
  | task t =>
    have hpairs : (ofLinks tasks pairs).acceptedPair (.task t) = [] := rfl
    have htasks : tasksOf [Command.task t] = [t] := rfl
    rw [hpairs, htasks, List.append_nil]
    refine ⟨add_ofLinks h t, fun e he => ?_⟩
    have := h e he
    simp only [Holds, size_ofLinks, List.length_append, List.length_singleton] at this ⊢
    omega
  | dependency parent child =>
    have htasks : tasksOf [(Command.dependency parent child : Command α)] = [] := rfl
    rw [htasks, List.append_nil]
    unfold acceptedPair perform
    by_cases hok : (ofLinks tasks pairs).Holds parent ∧ (ofLinks tasks pairs).Holds child ∧
        parent ≠ child
    · dsimp only
      rw [connect_ofLinks hok.1 hok.2.1 hok.2.2]
      refine ⟨rfl, fun e he => ?_⟩
      rcases List.mem_append.1 he with he | he
      · have := h e he
        simp only [Holds, size_ofLinks] at this ⊢
        exact this
      · obtain rfl := List.mem_singleton.1 he
        simp only [Holds, size_ofLinks] at hok ⊢
        exact hok
    · obtain ⟨f, hf, -⟩ := connect_error hok
      dsimp only
      rw [hf, List.append_nil]
      exact ⟨rfl, h⟩

theorem foldl_perform (h : (ofLinks tasks pairs).Between pairs) (commands : List (Command α)) :
    commands.foldl perform (ofLinks tasks pairs) =
        ofLinks (tasks ++ tasksOf commands)
          (pairs ++ acceptedPairs (ofLinks tasks pairs) commands) ∧
      (ofLinks (tasks ++ tasksOf commands) (pairs ++ acceptedPairs (ofLinks tasks pairs) commands)
        ).Between (pairs ++ acceptedPairs (ofLinks tasks pairs) commands) := by
  induction commands generalizing tasks pairs with
  | nil => simpa [tasksOf, acceptedPairs] using h
  | cons command commands ih =>
    obtain ⟨hstep, hbetween⟩ := perform_ofLinks h command
    have hsplit : tasksOf (command :: commands) = tasksOf [command] ++ tasksOf commands :=
      List.filterMap_append (l := [command])
    rw [List.foldl_cons, acceptedPairs, hsplit, hstep, ← List.append_assoc, ← List.append_assoc]
    exact ih hbetween

/-- The workflow that some commands build has the tasks that were added and the links of the pairs
that were accepted. -/
theorem build_eq (commands : List (Command α)) :
    build commands = ofLinks (tasksOf commands) (acceptedPairs {} commands) ∧
      (build commands).Between (acceptedPairs {} commands) := by
  have hempty : (ofLinks [] [] : Workflow α).Between [] := by simp [Between]
  obtain ⟨hbuild, hbetween⟩ := foldl_perform hempty commands
  have hbuild : build commands = ofLinks (tasksOf commands) (acceptedPairs {} commands) := hbuild
  rw [hbuild]
  exact ⟨rfl, hbetween⟩

end Command

/-! ## The links of a built workflow -/

section Mirrored

variable {w : Workflow α} {tasks : List (Task α)} {pairs : List (Int × Int)} {t parent child : Int}

/-- Every child link has its parent link, and every parent link its child link. -/
def Mirrored (w : Workflow α) : Prop :=
  ∀ parent child, w.Links w.childrenOf parent child ↔ w.Links w.parentsOf child parent

theorem exists_task_ofLinks (ht : (ofLinks tasks pairs).Holds t) :
    ∃ task, (ofLinks tasks pairs).task? t = some task ∧ task.parents = parentsIn pairs t ∧
      task.children = childrenIn pairs t := by
  obtain ⟨k, hk, rfl⟩ := exists_natCast ht
  rw [task?_natCast _ hk]
  rw [size_ofLinks] at hk
  refine ⟨linkTask pairs k tasks[k], ?_, rfl, rfl⟩
  simp [ofLinks, hk]

theorem childrenOf_ofLinks (ht : (ofLinks tasks pairs).Holds t) :
    (ofLinks tasks pairs).childrenOf t = childrenIn pairs t := by
  obtain ⟨task, htask, -, hchildren⟩ := exists_task_ofLinks ht
  rw [childrenOf, htask]
  exact hchildren

theorem parentsOf_ofLinks (ht : (ofLinks tasks pairs).Holds t) :
    (ofLinks tasks pairs).parentsOf t = parentsIn pairs t := by
  obtain ⟨task, htask, hparents, -⟩ := exists_task_ofLinks ht
  rw [parentsOf, htask]
  exact hparents

/-- A workflow that is built by commands has both sides of every link. -/
theorem mirrored_build (commands : List (Command α)) : (build commands).Mirrored := by
  obtain ⟨hbuild, hbetween⟩ := build_eq commands
  rw [hbuild] at hbetween ⊢
  intro parent child
  constructor
  · rintro ⟨hparent, hlink⟩
    rw [childrenOf_ofLinks hparent, mem_childrenIn] at hlink
    have hchild := (hbetween _ hlink).2.1
    exact ⟨hchild, by rwa [parentsOf_ofLinks hchild, mem_parentsIn]⟩
  · rintro ⟨hchild, hlink⟩
    rw [parentsOf_ofLinks hchild, mem_parentsIn] at hlink
    have hparent := (hbetween _ hlink).1
    exact ⟨hparent, by rwa [childrenOf_ofLinks hparent, mem_childrenIn]⟩

/-- With both sides of every link, a workflow is malformed only if its child links form a cycle. -/
theorem Mirrored.not_malformed (h : w.Mirrored) (hacyclic : ¬ w.Circular w.childrenOf) :
    ¬ w.Malformed := by
  rintro (⟨parent, child, hlink, hout⟩ | ⟨child, parent, hlink, hout⟩ | hcircular | ⟨t, hcycle⟩)
  · exact hout ((h parent child).1 hlink).1
  · exact hout ((h parent child).2 hlink).1
  · exact hacyclic hcircular
  -- against the parent links, the cycle is one of child links
  · have hchildren : Relation.TransGen (Function.swap (w.Links w.childrenOf)) t t :=
      Relation.TransGen.mono (fun _ _ hlink => (h _ _).2 hlink) _ _ hcycle
    exact hacyclic ⟨t, hchildren.swap⟩

end Mirrored

end Workflow

end EarliestFinish
