import EarliestFinish.Proofs.Construction

/-!
# Declared dependencies

A dependency is recorded in two lists that belong to two tasks. Each list is looked at and changed on
its own, and what has been changed before a fault stays changed: `Workflow.declare` does it in this
way, in place. All checks come before the first change, so a refused declaration leaves the workflow
as it was (`declareIn_eq`).

`Workflow.Records` says how the accepted pairs show in a workflow: on both sides, once, and in the
order in which they were first accepted. `Workflow.build_records` states it for every list of
commands, with what the next declaration does. It rests on the form of a built workflow as a
function of its tasks and its accepted pairs.
-/

namespace EarliestFinish

variable {α : Type}

namespace Workflow

/-! ## Declaring in place -/

/-- A computation that changes a workflow in place. -/
abbrev Editing (α : Type) := ExceptT (Fault α) (StateM (Workflow α))

/-- Changes a task in place. -/
def editTask (i : Int) (f : Task α → Task α) : Editing α Unit := do
  let w ← get
  let tasks ← (changeAt w.tasks i f : Except (Fault α) (List (Task α)))
  set (⟨tasks⟩ : Workflow α)

/-- Declares a dependency in place, first with the parent and then with the child. -/
def declare (parent child : Int) : Editing α Unit := do
  let w ← get
  if w.Holds parent ∧ w.Holds child then
    if parent = child then
      throw (.selfDependency (← w.task parent).label)
    editTask parent fun t => { t with children := withLink t.children child }
    editTask child fun t => { t with parents := withLink t.parents parent }
  else throw (.unknownDependency parent child)

/-- What comes of a declaration, and the workflow after it. -/
def declareIn (w : Workflow α) (parent child : Int) : Except (Fault α) Unit × Workflow α :=
  (declare parent child).run.run w

theorem editTask_run (w : Workflow α) {k : Nat} (hk : k < w.size) (f : Task α → Task α) :
    (editTask (k : Int) f).run.run w = (.ok (), ⟨w.tasks.modify k f⟩) := by
  have hchange : changeAt w.tasks k f = (.ok (w.tasks.modify k f) : Except (Fault α) _) :=
    changeAt_natCast hk f
  change (liftM (changeAt w.tasks k f : Except (Fault α) _) >>= fun tasks =>
    (set (⟨tasks⟩ : Workflow α) : Editing α Unit)).run.run w = _
  rw [hchange]
  rfl

/-- Declaring in place comes to the same as declaring at once. -/
theorem declareIn_eq (w : Workflow α) (parent child : Int) :
    w.declareIn parent child = match w.connect parent child with
      | .ok w' => (.ok (), w')
      | .error f => (.error f, w) := by
  change (if w.Holds parent ∧ w.Holds child then _ else _ : Editing α Unit).run.run w = _
  by_cases hold : w.Holds parent ∧ w.Holds child
  · rw [if_pos hold]
    by_cases hself : parent = child
    · subst hself
      obtain ⟨t, -, ht⟩ := exists_task hold.1
      rw [if_pos rfl, connect, if_pos hold, if_pos rfl, task_of_task? ht]
      rfl
    · rw [if_neg hself, connect_eq hold.1 hold.2 hself]
      obtain ⟨p, hp, rfl⟩ := exists_natCast hold.1
      obtain ⟨c, hc, rfl⟩ := exists_natCast hold.2
      -- the first change keeps the number of tasks, so the second one finds its task
      rw [ExceptT.run_bind, StateT.run_bind, editTask_run w hp]
      refine editTask_run _ (k := c) ?_ _
      simpa [size] using hc
  · rw [if_neg hold, connect, if_neg hold]
    rfl

theorem declareIn_ok {w : Workflow α} {parent child : Int} (hparent : w.Holds parent)
    (hchild : w.Holds child) (hne : parent ≠ child) :
    w.declareIn parent child = (.ok (), w.perform (.dependency parent child)) := by
  rw [declareIn_eq, perform, connect_eq hparent hchild hne]

/-- A declaration that is not between two tasks is refused and changes nothing. -/
theorem declareIn_refused {w : Workflow α} {parent child : Int}
    (h : ¬ (w.Holds parent ∧ w.Holds child ∧ parent ≠ child)) :
    ∃ f, w.declareIn parent child = (.error f, w) ∧ f.kind = .malformedGraph ∧
      w.perform (.dependency parent child) = w := by
  obtain ⟨f, hf, hkind⟩ := connect_error h
  refine ⟨f, ?_, hkind, ?_⟩
  · rw [declareIn_eq, hf]
  · rw [perform, hf]

theorem build_concat (commands : List (Command α)) (command : Command α) :
    build (commands ++ [command]) = (build commands).perform command := by
  simp [build]

/-! ## The order of the links -/

section Order

variable {pairs : List (Int × Int)} {e f : Int × Int} {t : Int}

/-- A pair comes before another one: its parent has a lower number, or its parent is the same and
it was accepted first. -/
def Before (pairs : List (Int × Int)) (e f : Int × Int) : Prop :=
  e.1 < f.1 ∨ e.1 = f.1 ∧ pairs.idxOf e < pairs.idxOf f

theorem Before.ne (h : Before pairs e f) : e ≠ f := by
  rintro rfl
  rcases h with h | ⟨-, h⟩
  · exact lt_irrefl _ h
  · exact lt_irrefl _ h

/-- The children of a task are in the order in which their pairs first come. -/
theorem childrenIn_pairwise (pairs : List (Int × Int)) (t : Int) :
    (childrenIn pairs t).Pairwise fun i j => pairs.idxOf (t, i) < pairs.idxOf (t, j) := by
  induction pairs using List.reverseRecOn with
  | nil => exact List.Pairwise.nil
  | append_singleton pairs e ih =>
    obtain ⟨p, c⟩ := e
    have hold : ∀ i ∈ childrenIn pairs t,
        (pairs ++ [(p, c)]).idxOf (t, i) = pairs.idxOf (t, i) := by
      intro i hi
      exact List.idxOf_append_of_mem (mem_childrenIn.1 hi)
    have hkept : (childrenIn pairs t).Pairwise fun i j =>
        (pairs ++ [(p, c)]).idxOf (t, i) < (pairs ++ [(p, c)]).idxOf (t, j) := by
      refine ih.imp_of_mem fun {i j} hi hj h => ?_
      rwa [hold i hi, hold j hj]
    rw [childrenIn_concat]
    split
    · next hp =>
      subst hp
      unfold withLink
      split
      · exact hkept
      · next hnew =>
        -- a new child comes behind the others, since its pair is the last one
        refine List.pairwise_append.2 ⟨hkept, List.pairwise_singleton .., fun i hi j hj => ?_⟩
        obtain rfl := List.mem_singleton.1 hj
        have hlast : (p, j) ∉ pairs := fun h => hnew (mem_childrenIn.2 h)
        rw [hold i hi, List.idxOf_append_of_notMem hlast]
        have := List.idxOf_lt_length_of_mem (mem_childrenIn.1 hi)
        omega
    · exact hkept

variable {tasks : List (Task α)}

theorem mem_edges_ofLinks (h : (ofLinks tasks pairs).Between pairs) :
    e ∈ (ofLinks tasks pairs).edges ↔ e ∈ pairs := by
  obtain ⟨p, c⟩ := e
  rw [mem_edges]
  constructor
  · rintro ⟨hp, hc⟩
    rwa [childrenOf_ofLinks hp, mem_childrenIn] at hc
  · intro he
    have hp := (h _ he).1
    refine ⟨hp, ?_⟩
    rwa [childrenOf_ofLinks hp, mem_childrenIn]

theorem edges_ofLinks_pairwise (tasks : List (Task α)) (pairs : List (Int × Int)) :
    (ofLinks tasks pairs).edges.Pairwise (Before pairs) := by
  rw [edges_eq, List.pairwise_flatMap]
  constructor
  · intro t ht
    rw [childrenOf_ofLinks (mem_positions.1 ht), List.pairwise_map]
    exact (childrenIn_pairwise pairs t).imp fun h => Or.inr ⟨rfl, h⟩
  · have hpositions : (ofLinks tasks pairs).positions.Pairwise (· < ·) := by
      rw [positions, List.pairwise_map]
      exact List.pairwise_lt_range.imp fun h => Int.ofNat_lt.2 h
    refine hpositions.imp fun {t u} htu e he f hf => Or.inl ?_
    obtain ⟨_, -, rfl⟩ := List.mem_map.1 he
    obtain ⟨_, -, rfl⟩ := List.mem_map.1 hf
    exact htu

/-- A pair that is there already adds nothing. -/
theorem ofLinks_repeated (h : e ∈ pairs) :
    ofLinks tasks (pairs ++ [e]) = ofLinks tasks pairs := by
  obtain ⟨p, c⟩ := e
  have hlinks : linkTask (α := α) (pairs ++ [(p, c)]) = linkTask pairs := by
    funext k t
    have hchild : c ∈ childrenIn pairs p := mem_childrenIn.2 h
    have hparent : p ∈ parentsIn pairs c := mem_parentsIn.2 h
    simp only [linkTask, childrenIn_concat, parentsIn_concat, withLink]
    congr 1
    · split
      · next hc => rw [← hc, if_pos hparent]
      · rfl
    · split
      · next hp => rw [← hp, if_pos hchild]
      · rfl
  rw [ofLinks, ofLinks, hlinks]

end Order

/-! ## What is recorded -/

/-- How the accepted pairs show in a workflow. -/
structure Records (w : Workflow α) (pairs : List (Int × Int)) : Prop where
  /-- A task is a child of another one exactly if that is its parent. -/
  mirrored : ∀ parent child, w.Holds parent → w.Holds child →
    (child ∈ w.childrenOf parent ↔ parent ∈ w.parentsOf child)
  /-- No list has a link twice. -/
  once : ∀ t ∈ w.tasks, t.children.Nodup ∧ t.parents.Nodup
  /-- Every link leads to another task. -/
  between : ∀ t, w.Holds t → ∀ l, l ∈ w.childrenOf t ∨ l ∈ w.parentsOf t → w.Holds l ∧ l ≠ t
  /-- The edges are the accepted pairs. -/
  mem_edges_iff : ∀ e, e ∈ w.edges ↔ e ∈ pairs
  edges_nodup : w.edges.Nodup
  /-- The edges go by parent and then by first acceptance. -/
  edges_ordered : w.edges.Pairwise (Before pairs)

theorem records_build (commands : List (Command α)) :
    (build commands).Records (acceptedPairs {} commands) := by
  have hmirrored := mirrored_build commands
  obtain ⟨hbuild, hbetween⟩ := build_eq commands
  rw [hbuild] at hmirrored hbetween ⊢
  have hordered := edges_ofLinks_pairwise (tasksOf commands) (acceptedPairs {} commands)
  constructor
  case mirrored =>
    intro parent child hparent hchild
    have h := hmirrored parent child
    exact ⟨fun hc => (h.1 ⟨hparent, hc⟩).2, fun hp => (h.2 ⟨hchild, hp⟩).2⟩
  case once =>
    intro t ht
    obtain ⟨k, hk, rfl⟩ := List.mem_mapIdx.1 ht
    exact ⟨childrenIn_nodup .., parentsIn_nodup ..⟩
  case between =>
    intro t ht l hl
    rw [childrenOf_ofLinks ht, parentsOf_ofLinks ht, mem_childrenIn, mem_parentsIn] at hl
    rcases hl with hl | hl
    · exact ⟨(hbetween _ hl).2.1, Ne.symm (hbetween _ hl).2.2⟩
    · exact ⟨(hbetween _ hl).1, (hbetween _ hl).2.2⟩
  case mem_edges_iff => exact fun e => mem_edges_ofLinks hbetween
  case edges_nodup => exact hordered.imp fun h => h.ne
  case edges_ordered => exact hordered

/-- A pair that was accepted is accepted again and changes nothing. -/
theorem connect_accepted {commands : List (Command α)} {parent child : Int}
    (h : (parent, child) ∈ acceptedPairs {} commands) :
    (build commands).connect parent child = .ok (build commands) := by
  obtain ⟨hbuild, hbetween⟩ := build_eq commands
  rw [hbuild] at hbetween ⊢
  obtain ⟨hparent, hchild, hne⟩ := hbetween _ h
  rw [connect_ofLinks hparent hchild hne, ofLinks_repeated h]

/-- A workflow that was built by any commands records the pairs that it accepted. The next
declaration leads to the workflow with one more command. It is refused, and changes nothing, exactly
if it is not between two tasks, and it changes nothing either if its pair was accepted before. -/
theorem build_records (commands : List (Command α)) :
    (build commands).Records (acceptedPairs {} commands) ∧
      ∀ parent child result next, (build commands).declareIn parent child = (result, next) →
        next = build (commands ++ [.dependency parent child]) ∧
        ((∃ f, result = .error f) ↔ ¬ ((build commands).Holds parent ∧
          (build commands).Holds child ∧ parent ≠ child)) ∧
        (∀ f, result = .error f → f.kind = .malformedGraph ∧ next = build commands) ∧
        ((parent, child) ∈ acceptedPairs {} commands →
          result = .ok () ∧ next = build commands) := by
  refine ⟨records_build commands, fun parent child result next hrun => ?_⟩
  rw [build_concat]
  by_cases hok : (build commands).Holds parent ∧ (build commands).Holds child ∧ parent ≠ child
  · rw [declareIn_ok hok.1 hok.2.1 hok.2.2] at hrun
    obtain ⟨rfl, rfl⟩ := Prod.mk.inj hrun
    refine ⟨rfl, by simp [hok], by simp, fun haccepted => ⟨rfl, ?_⟩⟩
    rw [perform, connect_accepted haccepted]
  · obtain ⟨f, hf, hkind, hkept⟩ := declareIn_refused hok
    rw [hf] at hrun
    obtain ⟨rfl, rfl⟩ := Prod.mk.inj hrun
    refine ⟨hkept.symm, by simp [hok], ?_, fun haccepted => ?_⟩
    · rintro _ ⟨⟩
      exact ⟨hkind, rfl⟩
    · exact absurd ((build_eq commands).2 _ haccepted) hok

end Workflow

namespace Sample

/-- Three tasks, and declarations among which one is repeated and three are refused. -/
def declared : List (Command Rat) :=
  [.task { label := .number 0, length := 1 }, .task { label := .number 1, length := 1 },
    .dependency 0 2, .task { label := .number 2, length := 1 }, .dependency 0 2,
    .dependency 2 1, .dependency (-1) 0, .dependency 0 1, .dependency 1 1, .dependency 0 2]

end Sample

namespace Workflow

/-- The links of the three tasks, with a declaration from the end of the list, which is refused, and
one that is repeated. -/
theorem build_records_declared :
    acceptedPairs {} Sample.declared = [(0, 2), (2, 1), (0, 1), (0, 2)] ∧
      (build Sample.declared).edges = [(0, 2), (0, 1), (2, 1)] ∧
      (build Sample.declared).Records [(0, 2), (2, 1), (0, 1), (0, 2)] ∧
      (∃ f, (build Sample.declared).declareIn (-1) 0 = (.error f, build Sample.declared) ∧
        f.kind = .malformedGraph) ∧
      (build Sample.declared).declareIn 2 1 = (.ok (), build Sample.declared) := by
  have haccepted : acceptedPairs {} Sample.declared = [(0, 2), (2, 1), (0, 1), (0, 2)] := by
    decide +kernel
  obtain ⟨hrecords, hnext⟩ := build_records Sample.declared
  refine ⟨haccepted, by decide +kernel, haccepted ▸ hrecords, ?_, ?_⟩
  · rcases hrun : (build Sample.declared).declareIn (-1) 0 with ⟨result, next⟩
    obtain ⟨-, hrefused, hkept, -⟩ := hnext (-1) 0 result next hrun
    obtain ⟨f, rfl⟩ := hrefused.2 (by decide)
    obtain ⟨hkind, rfl⟩ := hkept f rfl
    exact ⟨f, rfl, hkind⟩
  · rcases hrun : (build Sample.declared).declareIn 2 1 with ⟨result, next⟩
    obtain ⟨-, -, -, hrepeated⟩ := hnext 2 1 result next hrun
    obtain ⟨rfl, rfl⟩ := hrepeated (by rw [haccepted]; decide)
    rfl

end Workflow

end EarliestFinish
