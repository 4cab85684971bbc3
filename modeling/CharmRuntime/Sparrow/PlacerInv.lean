import CharmRuntime.Sparrow.TaskPlacer

/-!
# Sparrow.PlacerInv

What the task placers keep while reservations are redeemed. `todo` are the tasks that are still to
be returned; a call takes one reservation away and at most one task (`Hands`).

No order of the calls strands a task. An unlaunched constrained task stands, for some node monitor,
among the first `n` of its list, where `n` is the number of reservations that this node monitor
still holds: each call there passes at least one member of the list, and passes none that is not
launched (`ConstrainedTaskPlacer.Inv.covered`). As to the other tasks, as long as one of them is
left every call returns a task, and there are at least as many reservations as tasks
(`ConstrainedTaskPlacer.Inv.enough`).
-/

namespace CharmRuntime.Sparrow

open Lib List

/-- At most one of the tasks to do is handed out, and one that is `allowed`. -/
inductive Hands (Inv : List TTaskLaunchSpec → Prop) (allowed : TTaskLaunchSpec → Prop)
    (todo : List TTaskLaunchSpec) :
    List TTaskLaunchSpec → Prop
  | nothing : Inv todo → Hands Inv allowed todo []
  | task {spec : TTaskLaunchSpec} {todo' : List TTaskLaunchSpec} :
      allowed spec → todo.Perm (spec :: todo') → Inv todo' → Hands Inv allowed todo [spec]

/-- `allowed spec node`: the task may run on the node monitor. -/
abbrev Allowed := TTaskLaunchSpec → THostPort → Prop

variable {allowed : Allowed} {todo : List TTaskLaunchSpec} {node : THostPort}

theorem Hands.length_sub_nonneg {Inv : List TTaskLaunchSpec → Prop} {ok : TTaskLaunchSpec → Prop}
    {spec : TTaskLaunchSpec}
    (h : Hands Inv ok todo [spec]) : 0 ≤ (todo.length : Int) - 1 := by
  cases h with
  | task _ hperm _ =>
    rw [hperm.length_eq]
    exact Int.le_of_lt_add_one (by simp)

/-! ### Requests without constraints -/

namespace UnconstrainedTaskPlacer

structure Inv (allowed : Allowed) (p : UnconstrainedTaskPlacer) (todo : List TTaskLaunchSpec) :
    Prop where
  unlaunched : p.unlaunchedTasks = todo
  anywhere : ∀ spec ∈ todo, ∀ node, allowed spec node
  enough : todo.length ≤ (p.outstandingReservations.tokens id).length
  positive : p.outstandingReservations.Positive

variable {p : UnconstrainedTaskPlacer}

theorem assignTask_spec (h : p.Inv allowed todo)
    (hnode : node ∈ p.outstandingReservations.tokens id) :
    (p.outstandingReservations.tokens id).Perm
      (node :: (p.assignTask node).2.outstandingReservations.tokens id) ∧
      (p.assignTask node).2.cancelled = p.cancelled ∧
      Hands ((p.assignTask node).2.Inv allowed) (allowed · node) todo (p.assignTask node).1 := by
  obtain ⟨n, hn, hpos⟩ := HashMap.mem_tokens.mp hnode
  have htokens := HashMap.tokens_takeOne hn hpos
  have hpositive := h.positive.takeOne hn
  have hlength := htokens.length_eq
  have henough := h.enough
  obtain rfl := h.unlaunched
  cases htasks : p.unlaunchedTasks with
  | nil =>
    have heq : p.assignTask node =
        ([], { p with outstandingReservations := p.outstandingReservations.takeOne node n }) := by
      simp only [assignTask, hn, htasks]
    rw [heq]
    exact ⟨htokens, rfl, .nothing ⟨htasks, by simp, Nat.zero_le _, hpositive⟩⟩
  | cons spec rest =>
    have heq : p.assignTask node = ([spec], { p with
            unlaunchedTasks := rest
            outstandingReservations := p.outstandingReservations.takeOne node n }) := by
      simp only [assignTask, hn, htasks]
    rw [heq]
    rw [htasks] at henough
    have hall := h.anywhere
    rw [htasks] at hall
    refine ⟨htokens, rfl, .task (hall spec mem_cons_self node) (.refl _) ⟨rfl, ?_, ?_, hpositive⟩⟩
    · exact fun s hs => hall s (mem_cons_of_mem spec hs)
    · exact Nat.le_of_succ_le_succ (henough.trans_eq hlength)

end UnconstrainedTaskPlacer

/-! ### Requests with constraints -/

namespace ConstrainedTaskPlacer

/-- The constrained tasks that are left for a node monitor. -/
def tasksAt (m : HashMap THostPort (List TTaskLaunchSpec)) (node : THostPort) :
    List TTaskLaunchSpec :=
  (m.lookup node).getD []

theorem tasksAt_insert {m : HashMap THostPort (List TTaskLaunchSpec)} {l : List TTaskLaunchSpec}
    (node' : THostPort) :
    tasksAt (m.insert node l) node' = if node' = node then l else tasksAt m node' := by
  by_cases hnode : node' = node
  · subst hnode
    simp [tasksAt]
  · simp [tasksAt, hnode]

/-- `pinned` are the constrained tasks of the request. -/
structure Inv (allowed : Allowed) (pinned : List TTaskLaunchSpec) (p : ConstrainedTaskPlacer)
    (todo : List TTaskLaunchSpec) : Prop where
  nodup : pinned.Nodup
  todo_perm :
    todo.Perm (pinned.filter (· ∉ p.launchedConstrainedTasks) ++ p.unlaunchedUnconstrainedTasks)
  remaining : p.numRemainingTasks = todo.length
  listed : ∀ node, ∀ spec ∈ tasksAt p.unlaunchedConstrainedTasks node, spec ∈ pinned ∧
    allowed spec node
  anywhere : ∀ spec ∈ p.unlaunchedUnconstrainedTasks, ∀ node, allowed spec node
  covered : ∀ spec ∈ pinned, spec ∉ p.launchedConstrainedTasks → ∃ node,
    spec ∈ (tasksAt p.unlaunchedConstrainedTasks node).take
      ((p.outstandingReservations.tokens id).count node)
  enough : p.unlaunchedUnconstrainedTasks = [] ∨
    todo.length ≤ (p.outstandingReservations.tokens id).length
  positive : p.outstandingReservations.Positive

theorem firstUnlaunched_spec (launched : Finset TTaskLaunchSpec) (l : List TTaskLaunchSpec) :
    (firstUnlaunched launched l = (none, []) ∧ ∀ s ∈ l, s ∈ launched) ∨
      ∃ pre spec rest, firstUnlaunched launched l = (some spec, rest) ∧ spec ∉ launched ∧
        l = pre ++ spec :: rest ∧ ∀ s ∈ pre, s ∈ launched := by
  induction l with
  | nil => exact .inl ⟨rfl, fun s hs => absurd hs not_mem_nil⟩
  | cons a l ih =>
    by_cases ha : a ∈ launched
    · have heq : firstUnlaunched launched (a :: l) = firstUnlaunched launched l := by
        rw [firstUnlaunched, if_pos ha]
      rw [heq]
      obtain ⟨hnone, hall⟩ | ⟨pre, spec, rest, hsome, hspec, rfl, hpre⟩ := ih
      · refine .inl ⟨hnone, fun s hs => ?_⟩
        obtain rfl | hs := mem_cons.mp hs
        exacts [ha, hall s hs]
      · refine .inr ⟨a :: pre, spec, rest, hsome, hspec, rfl, fun s hs => ?_⟩
        obtain rfl | hs := mem_cons.mp hs
        exacts [ha, hpre s hs]
    · refine .inr ⟨[], a, l, ?_, ha, rfl, fun s hs => absurd hs not_mem_nil⟩
      rw [firstUnlaunched, if_neg ha]

variable {n : Nat} {m' : HashMap THostPort (List TTaskLaunchSpec)} {o' : HashMap THostPort Nat}
  {rest : List TTaskLaunchSpec} {spec : TTaskLaunchSpec}

theorem mem_take_rest {α : Type} {pre rest : List α} {a s : α} (h : s ∈ (pre ++ a :: rest).take n)
    (hpre : s ∉ pre) (ha : s ≠ a) : s ∈ rest.take (n - 1) := by
  rw [take_append, mem_append] at h
  obtain h | h := h
  · exact absurd (mem_of_mem_take h) hpre
  · cases hk : n - pre.length with
    | zero => simp [hk] at h
    | succ k =>
      rw [hk, take_succ_cons, mem_cons] at h
      have hle : k ≤ n - 1 := by omega
      exact take_subset_take_left rest hle (h.resolve_left ha)

variable {pinned : List TTaskLaunchSpec} {p : ConstrainedTaskPlacer}

/-- The lists after a call, of which `rest` is that of the node monitor. -/
def Passed (m m' : HashMap THostPort (List TTaskLaunchSpec)) (node : THostPort)
    (rest : List TTaskLaunchSpec) : Prop :=
  ∀ node', tasksAt m' node' = if node' = node then rest else tasksAt m node'

theorem getConstrainedTask_spec (p : ConstrainedTaskPlacer) (node : THostPort) : ∃ m',
      (p.getConstrainedTask node = (none, { p with unlaunchedConstrainedTasks := m' }) ∧
        Passed p.unlaunchedConstrainedTasks m' node [] ∧
        ∀ s ∈ tasksAt p.unlaunchedConstrainedTasks node, s ∈ p.launchedConstrainedTasks) ∨
      ∃ pre spec rest, p.getConstrainedTask node =
      (some spec, { p with unlaunchedConstrainedTasks := m' }) ∧
        spec ∉ p.launchedConstrainedTasks ∧ Passed p.unlaunchedConstrainedTasks m' node rest ∧
        tasksAt p.unlaunchedConstrainedTasks node = pre ++ spec :: rest ∧
        ∀ s ∈ pre, s ∈ p.launchedConstrainedTasks := by
  cases hlist : p.unlaunchedConstrainedTasks.lookup node with
  | none =>
    have hnil : tasksAt p.unlaunchedConstrainedTasks node = [] := by
      rw [tasksAt, hlist]
      rfl
    refine ⟨p.unlaunchedConstrainedTasks, .inl ⟨?_, fun node' => ?_, ?_⟩⟩
    · simp only [getConstrainedTask, hlist]
    · split
      · next h => rw [h, hnil]
      · rfl
    · simp [hnil]
  | some l =>
    have hl : tasksAt p.unlaunchedConstrainedTasks node = l := by
      rw [tasksAt, hlist]
      rfl
    rw [hl]
    obtain ⟨hnone, hall⟩ | ⟨pre, spec, rest, hsome, hspec, hsplit, hpre⟩ :=
      firstUnlaunched_spec p.launchedConstrainedTasks l
    · refine ⟨p.unlaunchedConstrainedTasks.insert node [], .inl ⟨?_, tasksAt_insert, hall⟩⟩
      simp only [getConstrainedTask, hlist, hnone]
    · refine ⟨p.unlaunchedConstrainedTasks.insert node rest,
        .inr ⟨pre, spec, rest, ?_, hspec, tasksAt_insert, hsplit, hpre⟩⟩
      simp only [getConstrainedTask, hlist, hsome]

theorem Inv.covered_passed (h : p.Inv allowed pinned todo)
    (hpassed : Passed p.unlaunchedConstrainedTasks m' node rest)
    (htokens : (p.outstandingReservations.tokens id).Perm (node :: o'.tokens id))
    (hspec : spec ∈ pinned)
    (hnot : spec ∉ p.launchedConstrainedTasks)
    (hrest : ∀ n, spec ∈ (tasksAt p.unlaunchedConstrainedTasks node).take n →
      spec ∈ rest.take (n - 1)) :
    ∃ node, spec ∈ (tasksAt m' node).take ((o'.tokens id).count node) := by
  obtain ⟨node', hmem⟩ := h.covered spec hspec hnot
  refine ⟨node', ?_⟩
  have hcount := htokens.count_eq node'
  rw [count_cons] at hcount
  rw [hpassed node']
  by_cases hnode : node' = node
  · subst hnode
    rw [if_pos rfl]
    rw [if_pos (beq_self_eq_true node')] at hcount
    rw [hcount] at hmem
    exact hrest _ hmem
  · rw [if_neg hnode]
    rw [if_neg (by simpa using Ne.symm hnode)] at hcount
    rwa [hcount] at hmem

theorem Inv.listed_passed (h : p.Inv allowed pinned todo)
    (hpassed : Passed p.unlaunchedConstrainedTasks m' node rest)
    (hrest : rest ⊆ tasksAt p.unlaunchedConstrainedTasks node) (node' : THostPort) :
    ∀ spec ∈ tasksAt m' node', spec ∈ pinned ∧ allowed spec node' := by
  intro spec hspec
  rw [hpassed node'] at hspec
  split at hspec
  · next hnode =>
      subst hnode
      exact h.listed _ _ (hrest hspec)
  · exact h.listed _ _ hspec

theorem filter_launch {launched : Finset TTaskLaunchSpec} (hnodup : pinned.Nodup)
    (hspec : spec ∈ pinned) (hnot : spec ∉ launched) :
    (pinned.filter (· ∉ launched)).Perm (spec :: pinned.filter (· ∉ insert spec launched)) := by
  have hnew : spec ∉ pinned.filter (· ∉ insert spec launched) := by simp
  refine (perm_ext_iff_of_nodup (hnodup.filter _) (nodup_cons.mpr ⟨hnew, hnodup.filter _⟩)).mpr
    fun s => ?_
  by_cases hs : s = spec
  · subst hs
    simp [hspec, hnot]
  · simp [hs]

theorem Inv.launch (h : p.Inv allowed pinned todo)
    {pre : List TTaskLaunchSpec} (hn : p.outstandingReservations.lookup node = some n)
    (hpassed : Passed p.unlaunchedConstrainedTasks m' node rest)
    (hsplit : tasksAt p.unlaunchedConstrainedTasks node = pre ++ spec :: rest)
    (hpre : ∀ s ∈ pre, s ∈ p.launchedConstrainedTasks) (hspec : spec ∉ p.launchedConstrainedTasks) :
    Hands (Inv allowed pinned { p with
        launchedConstrainedTasks := insert spec p.launchedConstrainedTasks
        unlaunchedConstrainedTasks := m'
        outstandingReservations := p.outstandingReservations.takeOne node n
        numRemainingTasks := p.numRemainingTasks - 1 }) (allowed · node) todo [spec] := by
  have htokens := HashMap.tokens_takeOne hn (h.positive _ _ hn)
  have hmem : spec ∈ tasksAt p.unlaunchedConstrainedTasks node := by
    rw [hsplit]
    exact mem_append_right pre mem_cons_self
  obtain ⟨hpinned, hallowed⟩ := h.listed node spec hmem
  have hperm : todo.Perm (spec :: (pinned.filter (· ∉ insert spec p.launchedConstrainedTasks) ++
      p.unlaunchedUnconstrainedTasks)) :=
    h.todo_perm.trans ((filter_launch h.nodup hpinned hspec).append_right _)
  have hlength := hperm.length_eq
  have htokensLength := htokens.length_eq
  refine .task hallowed hperm ⟨h.nodup, .refl _, ?_, ?_, h.anywhere, ?_, ?_, h.positive.takeOne hn⟩
  · show p.numRemainingTasks - 1 = _
    rw [h.remaining, hlength]
    simp
  · refine h.listed_passed hpassed fun s hs => ?_
    rw [hsplit]
    exact mem_append_right pre (mem_cons_of_mem spec hs)
  · intro s hs hnot
    have hne : s ≠ spec := fun heq => hnot (heq ▸ Finset.mem_insert_self _ _)
    have hold : s ∉ p.launchedConstrainedTasks := fun hold => hnot (Finset.mem_insert_of_mem hold)
    refine h.covered_passed hpassed htokens hs hold fun k hk => ?_
    rw [hsplit] at hk
    exact mem_take_rest hk (fun hmem => hold (hpre s hmem)) hne
  · refine h.enough.imp_right fun henough => ?_
    rw [hlength, htokensLength] at henough
    exact Nat.le_of_succ_le_succ henough

theorem Inv.covered_pass (h : p.Inv allowed pinned todo)
    (hpassed : Passed p.unlaunchedConstrainedTasks m' node [])
    (hall : ∀ s ∈ tasksAt p.unlaunchedConstrainedTasks node, s ∈ p.launchedConstrainedTasks)
    (htokens : (p.outstandingReservations.tokens id).Perm (node :: o'.tokens id)) :
    ∀ s ∈ pinned, s ∉ p.launchedConstrainedTasks →
    ∃ node, s ∈ (tasksAt m' node).take ((o'.tokens id).count node) :=
  fun s hs hnot => h.covered_passed hpassed htokens hs hnot fun _ hk =>
    absurd (hall s (mem_of_mem_take hk)) hnot

theorem Inv.launch_unconstrained (h : p.Inv allowed pinned todo)
    (hn : p.outstandingReservations.lookup node = some n)
    (hpassed : Passed p.unlaunchedConstrainedTasks m' node [])
    (hall : ∀ s ∈ tasksAt p.unlaunchedConstrainedTasks node, s ∈ p.launchedConstrainedTasks)
    (hfree : p.unlaunchedUnconstrainedTasks = spec :: rest) :
    Hands (Inv allowed pinned { p with
        unlaunchedConstrainedTasks := m'
        outstandingReservations := p.outstandingReservations.takeOne node n
        numRemainingTasks := p.numRemainingTasks - 1
        unlaunchedUnconstrainedTasks := rest }) (allowed · node) todo [spec] := by
  have htokens := HashMap.tokens_takeOne hn (h.positive _ _ hn)
  have hanywhere := h.anywhere
  have henough := h.enough
  have hperm := h.todo_perm
  rw [hfree] at hanywhere henough hperm
  have hperm' := hperm.trans perm_middle
  have hlength := hperm'.length_eq
  have htokensLength := htokens.length_eq
  refine .task (hanywhere spec mem_cons_self node) hperm'
    ⟨h.nodup, .refl _, ?_, h.listed_passed hpassed (nil_subset _), ?_,
    h.covered_pass hpassed hall htokens,
      .inr ?_, h.positive.takeOne hn⟩
  · show p.numRemainingTasks - 1 = _
    rw [h.remaining, hlength]
    simp
  · exact fun s hs => hanywhere s (mem_cons_of_mem spec hs)
  · have henough := henough.resolve_left (cons_ne_nil _ _)
    rw [hlength, htokensLength] at henough
    exact Nat.le_of_succ_le_succ henough

theorem Inv.idle (h : p.Inv allowed pinned todo)
    (hn : p.outstandingReservations.lookup node = some n)
    (hpassed : Passed p.unlaunchedConstrainedTasks m' node [])
    (hall : ∀ s ∈ tasksAt p.unlaunchedConstrainedTasks node, s ∈ p.launchedConstrainedTasks)
    (hfree : p.unlaunchedUnconstrainedTasks = []) :
    Inv allowed pinned { p with
        unlaunchedConstrainedTasks := m'
        outstandingReservations := p.outstandingReservations.takeOne node n
        numRemainingTasks := p.numRemainingTasks } todo where
  nodup := h.nodup
  todo_perm := h.todo_perm
  remaining := h.remaining
  listed := h.listed_passed hpassed (nil_subset _)
  anywhere := h.anywhere
  covered := h.covered_pass hpassed hall (HashMap.tokens_takeOne hn (h.positive _ _ hn))
  enough := .inl hfree
  positive := h.positive.takeOne hn

theorem assignTask_spec (h : p.Inv allowed pinned todo)
    (hnode : node ∈ p.outstandingReservations.tokens id) :
    ∃ specs p', p.assignTask node = .ok (specs, p') ∧
      (p.outstandingReservations.tokens id).Perm (node :: p'.outstandingReservations.tokens id) ∧
      p'.cancelled = p.cancelled ∧ Hands (p'.Inv allowed pinned) (allowed · node) todo specs := by
  obtain ⟨n, hn, hpos⟩ := HashMap.mem_tokens.mp hnode
  have htokens := HashMap.tokens_takeOne hn hpos
  obtain ⟨m', ⟨hget, hpassed, hall⟩ | ⟨pre, spec, rest, hget, hspec, hpassed, hsplit, hpre⟩⟩ :=
    getConstrainedTask_spec
      { p with outstandingReservations := p.outstandingReservations.takeOne node n } node
  · cases hfree : p.unlaunchedUnconstrainedTasks with
    | nil =>
      refine ⟨[], { p with
          unlaunchedConstrainedTasks := m'
          outstandingReservations := p.outstandingReservations.takeOne node n
          numRemainingTasks := p.numRemainingTasks },
        ?_, htokens, rfl, .nothing (h.idle hn hpassed hall hfree)⟩
      have hle : 0 ≤ p.numRemainingTasks := h.remaining ▸ Int.natCast_nonneg _
      simp only [assignTask, hn, hget]
      simp only [getUnconstrainedTask, hfree, length_nil, Nat.cast_zero, sub_zero, if_pos hle]
    | cons spec rest =>
      have hhands := h.launch_unconstrained hn hpassed hall hfree
      refine ⟨[spec], { p with
          unlaunchedConstrainedTasks := m'
          outstandingReservations := p.outstandingReservations.takeOne node n
          numRemainingTasks := p.numRemainingTasks - 1
          unlaunchedUnconstrainedTasks := rest },
        ?_, htokens, rfl, hhands⟩
      have hle : 0 ≤ p.numRemainingTasks - 1 := h.remaining ▸ hhands.length_sub_nonneg
      simp only [assignTask, hn, hget]
      simp only [getUnconstrainedTask, hfree, length_singleton, Nat.cast_one, if_pos hle]
  · have hhands := h.launch hn hpassed hsplit hpre hspec
    refine ⟨[spec], { p with
        launchedConstrainedTasks := insert spec p.launchedConstrainedTasks
        unlaunchedConstrainedTasks := m'
        outstandingReservations := p.outstandingReservations.takeOne node n
        numRemainingTasks := p.numRemainingTasks - 1 },
      ?_, htokens, rfl, hhands⟩
    have hle : 0 ≤ p.numRemainingTasks - 1 := h.remaining ▸ hhands.length_sub_nonneg
    simp only [assignTask, hn, hget, length_singleton, Nat.cast_one, if_pos hle]

end ConstrainedTaskPlacer

/-! ### Both -/

namespace TaskPlacer

def Inv (allowed : Allowed) (pinned : List TTaskLaunchSpec) :
    TaskPlacer → List TTaskLaunchSpec → Prop
  | .unconstrained p, todo => p.Inv allowed todo
  | .constrained p, todo => p.Inv allowed pinned todo

variable {pinned : List TTaskLaunchSpec} {p : TaskPlacer}

theorem assignTask_spec (h : p.Inv allowed pinned todo)
    (hnode : node ∈ p.outstandingReservations.tokens id) :
    ∃ specs p', p.assignTask node = .ok (specs, p') ∧
      (p.outstandingReservations.tokens id).Perm (node :: p'.outstandingReservations.tokens id) ∧
      p'.cancelled = p.cancelled ∧ Hands (p'.Inv allowed pinned) (allowed · node) todo specs := by
  cases p with
  | unconstrained p =>
    obtain ⟨htokens, hcancelled, hhands⟩ := UnconstrainedTaskPlacer.assignTask_spec h hnode
    exact ⟨_, .unconstrained (p.assignTask node).2, rfl, htokens, hcancelled, hhands⟩
  | constrained p =>
    obtain ⟨specs, p', heq, htokens, hcancelled, hhands⟩ :=
      ConstrainedTaskPlacer.assignTask_spec h hnode
    exact ⟨specs, .constrained p', by simp only [assignTask, heq], htokens, hcancelled, hhands⟩

theorem Inv.allTasksPlaced (h : p.Inv allowed pinned todo) :
    p.allTasksPlaced = true ↔ todo = [] := by
  cases p with
  | unconstrained p =>
    rw [← h.unlaunched]
    exact isEmpty_iff
  | constrained p =>
    have hremaining := h.remaining
    simp [allTasksPlaced, ConstrainedTaskPlacer.allTasksPlaced, hremaining]

theorem Inv.positive (h : p.Inv allowed pinned todo) : p.outstandingReservations.Positive := by
  cases p with
  | unconstrained p => exact UnconstrainedTaskPlacer.Inv.positive h
  | constrained p => exact ConstrainedTaskPlacer.Inv.positive h

theorem Inv.setCancelled (h : p.Inv allowed pinned todo) :
    p.setCancelled.Inv allowed pinned todo := by
  cases p with
  | unconstrained p => exact ⟨h.unlaunched, h.anywhere, h.enough, h.positive⟩
  | constrained p =>
    exact ⟨h.nodup, h.todo_perm, h.remaining, h.listed, h.anywhere, h.covered, h.enough, h.positive⟩

@[simp] theorem setCancelled_outstandingReservations :
    p.setCancelled.outstandingReservations = p.outstandingReservations := by
  cases p <;> rfl

@[simp] theorem setCancelled_cancelled : p.setCancelled.cancelled = true := by
  cases p <;> rfl

/-- **No task is stranded.** Without reservations there is nothing to do. -/
theorem Inv.todo_eq_nil (h : p.Inv allowed pinned todo)
    (hnone : p.outstandingReservations.tokens id = []) :
    todo = [] := by
  cases p with
  | unconstrained p =>
    have henough := UnconstrainedTaskPlacer.Inv.enough h
    rw [show p.outstandingReservations.tokens id = [] from hnone] at henough
    exact length_eq_zero_iff.mp (Nat.le_zero.mp henough)
  | constrained p =>
    have hnone : p.outstandingReservations.tokens id = [] := hnone
    obtain hfree | henough := ConstrainedTaskPlacer.Inv.enough h
    · have hpinned : pinned.filter (· ∉ p.launchedConstrainedTasks) = [] := by
        refine filter_eq_nil_iff.mpr fun spec hspec hnot => ?_
        obtain ⟨node, hmem⟩ := h.covered spec hspec (of_decide_eq_true hnot)
        rw [hnone, count_nil] at hmem
        exact not_mem_nil hmem
      have hperm := h.todo_perm
      rw [hpinned, hfree] at hperm
      exact hperm.eq_nil
    · rw [hnone] at henough
      exact length_eq_zero_iff.mp (Nat.le_zero.mp henough)

end TaskPlacer

end CharmRuntime.Sparrow
