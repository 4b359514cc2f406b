import WindowForest.Proofs.Hierarchy.Alteration
import WindowForest.Proofs.Hierarchy.Displays

/-!
# The tables beside the forest

The records of a hierarchy are spread over several tables, and no table is computed from
another one. Creation fills them one after the other. Removal clears them node by node,
and which of the numbers is freed then depends on the kind that is still recorded for
the node. The invariant is that the directories of displays and tasks list exactly the
containers that have such a number (`Directory`), and that hooks belong to containers
(`Records.Registered`). Neither depends on the links, so whatever a tree does, it is
enough that the records keep the invariant with each single change that they are told.
-/

set_option autoImplicit false

namespace WindowForest

/-! ## Directories -/

/-- The number that a display is listed under. -/
def Kind.displayId? : Kind → Option DisplayId
  | display id => some id
  | stack => none
  | task _ _ => none
  | activity _ => none

/-- The number that a task is listed under. -/
def Kind.taskId? : Kind → Option TaskId
  | display _ => none
  | stack => none
  | task id _ => some id
  | activity _ => none

/-- The number that a display is listed under is its own. -/
theorem Kind.displayId?_eq_some_iff {kind : Kind} {id : DisplayId} :
    kind.displayId? = some id ↔ kind = .display id := by
  cases kind <;> simp [displayId?]

/-- The number that a task is listed under is its own, whosever task it is. -/
theorem Kind.taskId?_eq_some_iff {kind : Kind} {id : TaskId} :
    kind.taskId? = some id ↔ ∃ user, kind = .task id user := by
  cases kind <;> simp [taskId?]

section Directory

variable {what : Numbered} {number : Kind → Option (Id what)} {kinds : Key → Option Kind}
  {listed : Std.ExtTreeMap (Id what) Key} {node : Key} {kind : Kind} {id : Id what}

/-- Under every number stands the container that has this number, and nothing if there is none. -/
def Directory (number : Kind → Option (Id what)) (kinds : Key → Option Kind)
    (listed : Std.ExtTreeMap (Id what) Key) : Prop :=
  ∀ id k, listed[id]? = some k ↔ (kinds k).bind number = some id

namespace Directory

/-- A container with a number that was free is listed under it. -/
theorem insert (h : Directory number kinds listed) (hfree : id ∉ listed)
    (hnew : kinds node = none) (hnumber : number kind = some id) :
    Directory number (Function.update kinds node (some kind)) (listed.insert id node) := by
  intro i k
  rw [Std.ExtTreeMap.getElem?_insert]
  by_cases hk : k = node
  · have hout : listed[i]? ≠ some node := by
      rw [ne_eq, h i node, hnew]
      exact nofun
    rw [hk, Function.update_self, Option.bind_some, hnumber]
    by_cases hi : id = i
    · simp [hi]
    · simp [hi, hout]
  · rw [Function.update_of_ne hk, ← h i k]
    by_cases hi : id = i
    · subst hi
      have hnone : listed[id]? = none := Std.ExtTreeMap.getElem?_eq_none hfree
      simp [hnone, Ne.symm hk]
    · simp [hi]

/-- The number of a container that is gone is free again. -/
theorem erase (h : Directory number kinds listed) (hnumber : (kinds node).bind number = some id) :
    Directory number (Function.update kinds node none) (listed.erase id) := by
  intro i k
  rw [Std.ExtTreeMap.getElem?_erase]
  by_cases hk : k = node
  · rw [hk, Function.update_self, Option.bind_none]
    by_cases hi : id = i
    · simp [hi]
    · have hout : listed[i]? ≠ some node := by
        rw [ne_eq, h i node, hnumber, Option.some.injEq]
        exact hi
      simp [hi, hout]
  · rw [Function.update_of_ne hk, ← h i k]
    by_cases hi : id = i
    · subst hi
      have hnode : listed[id]? = some node := (h id node).2 hnumber
      simp [hnode, Ne.symm hk]
    · simp [hi]

/-- What has no number may come and go unnoticed. -/
theorem update (h : Directory number kinds listed) (hold : (kinds node).bind number = none)
    {kind : Option Kind} (hnew : kind.bind number = none) :
    Directory number (Function.update kinds node kind) listed := by
  intro i k
  rw [h i k]
  by_cases hk : k = node
  · rw [hk, Function.update_self, hold, hnew]
  · rw [Function.update_of_ne hk]

/-- A new container is listed if its kind has a number, which has to be free. -/
theorem enlist (h : Directory number kinds listed)
    (hfree : ∀ id, number kind = some id → id ∉ listed) (hnew : kinds node = none) :
    Directory number (Function.update kinds node (some kind))
      ((number kind).elim listed (listed.insert · node)) := by
  cases hnumber : number kind with
  | none => exact h.update (by rw [hnew]; rfl) hnumber
  | some id => exact h.insert (hfree id hnumber) hnew hnumber

/-- A container that goes is struck off the list if its kind has a number. -/
theorem delist (h : Directory number kinds listed) (node : Key) :
    Directory number (Function.update kinds node none)
      (((kinds node).bind number).elim listed listed.erase) := by
  cases hnumber : (kinds node).bind number with
  | none => exact h.update hnumber rfl
  | some id => exact h.erase hnumber

end Directory

end Directory

/-! ## Registered records -/

variable {η : Type}

namespace Records

variable {r : Records η} {node : Key} {c : Container}

/-- What is recorded to be under a key. -/
def kindOf (r : Records η) (k : Key) : Option Kind := (r.containers[k]?).map Container.kind

/-- The tables of displays, tasks and hooks fit to the table of containers. -/
structure Registered (r : Records η) : Prop where
  displays : Directory Kind.displayId? r.kindOf r.displays
  tasks : Directory Kind.taskId? r.kindOf r.tasks
  hooks : ∀ k ∈ r.hooks, k ∈ r.containers

/-- A container that is entered is of its kind from then on. -/
theorem kindOf_insert (node : Key) (c : Container) :
    ({ r with containers := r.containers.insert node c } : Records η).kindOf =
      Function.update r.kindOf node (some c.kind) := by
  funext k
  by_cases hk : k = node
  · simp [kindOf, hk]
  · simp [kindOf, hk, Ne.symm hk, Std.ExtTreeMap.getElem?_insert]

/-- A container that is struck off has no kind from then on. -/
theorem kindOf_erase (node : Key) :
    ({ r with containers := r.containers.erase node } : Records η).kindOf =
      Function.update r.kindOf node none := by
  funext k
  by_cases hk : k = node
  · simp [kindOf, hk]
  · simp [kindOf, hk, Ne.symm hk, Std.ExtTreeMap.getElem?_erase]

/-- Empty tables fit together. -/
theorem registered_empty : ({} : Records η).Registered := by
  have hkind : ∀ k, ({} : Records η).kindOf k = none := fun k => by simp [kindOf]
  refine ⟨?_, ?_, ?_⟩
  · intro id k
    rw [hkind, show ({} : Records η).displays[id]? = none from Std.ExtTreeMap.getElem?_empty]
    exact iff_of_false nofun nofun
  · intro id k
    rw [hkind, show ({} : Records η).tasks[id]? = none from Std.ExtTreeMap.getElem?_empty]
    exact iff_of_false nofun nofun
  · intro k hk
    exact absurd hk Std.ExtTreeMap.not_mem_empty

/-! ### Entering and dropping containers -/

/-- Only a display is entered among the displays. -/
theorem displays_list (r : Records η) (node : Key) (kind : Kind) :
    (r.list node kind).displays = kind.displayId?.elim r.displays (r.displays.insert · node) := by
  cases kind <;> rfl

/-- Only a task is entered among the tasks. -/
theorem tasks_list (r : Records η) (node : Key) (kind : Kind) :
    (r.list node kind).tasks = kind.taskId?.elim r.tasks (r.tasks.insert · node) := by
  cases kind <;> rfl

/-- A kind is unlisted if nothing is listed under the number that it has. -/
theorem unlisted_iff {kind : Kind} :
    r.Unlisted kind ↔ (∀ id, kind.displayId? = some id → id ∉ r.displays) ∧
      ∀ id, kind.taskId? = some id → id ∉ r.tasks := by
  cases kind <;> simp [Unlisted, Kind.displayId?, Kind.taskId?]

/-- With a display goes its entry among the displays. -/
theorem displays_drop (r : Records η) (node : Key) :
    (r.drop node).displays =
      ((r.kindOf node).bind Kind.displayId?).elim r.displays r.displays.erase := by
  unfold drop kindOf
  cases hc : r.containers[node]? with
  | none => simp [hc]
  | some c =>
    simp only [hc]
    unfold unlist
    cases hkind : c.kind <;> simp [hkind, Kind.displayId?]

/-- With a task goes its entry among the tasks. -/
theorem tasks_drop (r : Records η) (node : Key) :
    (r.drop node).tasks = ((r.kindOf node).bind Kind.taskId?).elim r.tasks r.tasks.erase := by
  unfold drop kindOf
  cases hc : r.containers[node]? with
  | none => simp [hc]
  | some c =>
    simp only [hc]
    unfold unlist
    cases hkind : c.kind <;> simp [hkind, Kind.taskId?]

namespace Registered

variable (h : r.Registered)

include h

/-- A container is entered under its number, which nothing else may have. -/
theorem enter (hnew : node ∉ r.containers) (hfree : r.Unlisted c.kind) :
    ({ r with containers := r.containers.insert node c }.list node c.kind).Registered := by
  have hnone : r.kindOf node = none := by
    rw [kindOf, Std.ExtTreeMap.getElem?_eq_none hnew]
    rfl
  have hkinds : ({ r with containers := r.containers.insert node c }.list node c.kind).kindOf =
      Function.update r.kindOf node (some c.kind) := by
    rw [← kindOf_insert]
    funext k
    rw [kindOf, containers_list]
    rfl
  obtain ⟨hdisplays, htasks⟩ := unlisted_iff.1 hfree
  refine ⟨?_, ?_, ?_⟩
  · rw [hkinds, displays_list]
    exact h.displays.enlist hdisplays hnone
  · rw [hkinds, tasks_list]
    exact h.tasks.enlist htasks hnone
  · rw [hooks_list, containers_list]
    intro k hk
    rw [Std.ExtTreeMap.mem_insert]
    exact .inr (h.hooks k hk)

/-- With a container goes its entry. -/
theorem drop (node : Key) : (r.drop node).Registered := by
  have hkinds : (r.drop node).kindOf = Function.update r.kindOf node none := by
    rw [← kindOf_erase]
    funext k
    rw [kindOf, containers_drop]
    rfl
  refine ⟨?_, ?_, ?_⟩
  · rw [hkinds, displays_drop]
    exact h.displays.delist node
  · rw [hkinds, tasks_drop]
    exact h.tasks.delist node
  · rw [hooks_drop, containers_drop]
    intro k hk
    rw [Std.ExtTreeMap.mem_erase] at hk ⊢
    exact ⟨hk.1, h.hooks k hk.2⟩

/-- Whatever the records are told, they stay registered. -/
theorem notice (f : Forest) (e : Event) : (Observer.notice r f e).Registered := by
  by_cases he : e.change = .removed
  · obtain ⟨change, node⟩ := e
    obtain rfl : change = .removed := he
    have hfocus : ({ r with focus := Observer.notice r.focus f ⟨.removed, node⟩ } :
        Records η).Registered := ⟨h.displays, h.tasks, h.hooks⟩
    exact hfocus.drop node
  · rw [notice_of_ne r f e he]
    exact ⟨h.displays, h.tasks, h.hooks⟩

end Registered

end Records

/-! ## Hierarchies in order -/

namespace Hierarchy

variable {h h' : Hierarchy η} {j k : Key} {id : DisplayId}

/-- Forest and records of a hierarchy are in step in every respect. -/
structure InOrder (h : Hierarchy η) : Prop where
  arranged : h.Arranged
  registered : h.records.Registered
  focused : h.records.focus.Valid h.forest

/-- The hierarchy without containers is in order. -/
theorem inOrder_empty (settings : Settings) : (empty settings : Hierarchy η).InOrder where
  arranged := arranged_empty settings
  registered := Records.registered_empty
  focused := Focus.valid_empty _

/-- A change of containers that keeps all kinds concerns no other table. -/
theorem registered_updateContainer (hr : h.records.Registered) (node : Key)
    {g : Container → Container} (hg : ∀ c, (g c).kind = c.kind) :
    (h.updateContainer node g).records.Registered := by
  have hkinds : (h.updateContainer node g).records.kindOf = h.records.kindOf :=
    funext (kindOf_updateContainer hg node)
  refine ⟨?_, ?_, ?_⟩
  · rw [hkinds]
    exact hr.displays
  · rw [hkinds]
    exact hr.tasks
  · intro k hk
    exact Std.ExtTreeMap.mem_modify.2 (hr.hooks k hk)

/-- An alteration of an arranged hierarchy keeps its tables fitting together. -/
theorem Arranged.registered_alteration (ha : h.Arranged) (hr : h.records.Registered)
    (halt : Alteration h h') : h'.records.Registered := by
  have hnotice := fun (r : Records η) f e (hr : r.Registered) => hr.notice f e
  cases halt with
  | created c hfree =>
    have hnew : h.forest.nextKey ∉ h.records.containers := by
      rw [← decide_eq_true_iff (p := _ ∈ _)]
      exact fun hmem => ha.wellFormed.sound.nextKey_notMem ((ha.live_iff _).1 hmem)
    exact hr.enter hnew hfree
  | updated node g hg => exact registered_updateContainer hr node hg
  | hooked hooks hhooks =>
    refine ⟨hr.displays, hr.tasks, ?_⟩
    intro k hk
    rcases hhooks k hk with hmem | hlive
    · exact hr.hooks k hmem
    · exact of_decide_eq_true hlive
  | selected node => exact ⟨hr.displays, hr.tasks, hr.hooks⟩
  -- A tree changes the records only by telling them what happens.
  | @placed node parent pos _ => exact Tree.place_keeps hnotice hr node parent pos
  | @ordered node parent pos _ => exact Tree.place_keeps hnotice hr node parent pos
  | uprooted node => exact Tree.uproot_keeps hnotice hr node
  | pruned node => exact Tree.remove_keeps hnotice hr node

namespace InOrder

variable (ho : h.InOrder)

include ho

/-- An alteration keeps a hierarchy in order. -/
theorem alteration (halt : Alteration h h') : h'.InOrder where
  arranged := ho.arranged.alteration halt
  registered := ho.arranged.registered_alteration ho.registered halt
  focused := ho.arranged.valid_alteration ho.focused halt

/-- Alterations one after the other keep a hierarchy in order. -/
theorem altered (halt : h.Altered h') : h'.InOrder := by
  induction halt with
  | refl => exact ho
  | tail _ halt ih => exact ih.alteration halt

/-- What has a hook is live. -/
theorem mem_of_hook (hk : k ∈ h.records.hooks) : k ∈ h.forest := by
  have hcontained := ho.registered.hooks k hk
  rw [← ho.arranged.live_iff]
  exact decide_eq_true hcontained

/-- The table of displays leads from a number to the display with that number. -/
theorem display?_eq_some_iff : h.display? id = some k ↔ h.kindOf k = some (.display id) := by
  rw [display?, ho.registered.displays id k]
  show (h.kindOf k).bind _ = _ ↔ _
  simp [Option.bind_eq_some_iff, Kind.displayId?_eq_some_iff]

/-- The table of tasks leads from a number to the task with that number. -/
theorem task?_eq_some_iff {id : TaskId} :
    h.task? id = some k ↔ ∃ user, h.kindOf k = some (.task id user) := by
  rw [task?, ho.registered.tasks id k]
  show (h.kindOf k).bind _ = _ ↔ _
  simp [Option.bind_eq_some_iff, Kind.taskId?_eq_some_iff]

end InOrder

/-- Every hierarchy that can come about is in order. -/
theorem Reachable.inOrder [Hook η] {settings : Settings} (hr : Reachable settings h) :
    h.InOrder := by
  induction hr with
  | empty => exact inOrder_empty settings
  | step c _ ih => exact ih.altered (altered_apply _ c)

/-! ## Tables that are in step -/

/-- A display is on itself. -/
theorem Arranged.displayOf_of_isDisplay (ha : h.Arranged) (hk : h.isDisplay k) :
    h.displayOf k = some k := by
  obtain ⟨id, hid⟩ := isDisplay_iff.1 hk
  have hroot : h.forest.IsRootOf k k :=
    ⟨ha.mem_of_kindOf hid, ha.parent_of_isDisplay hk, Forest.within_refl _ k⟩
  exact ha.displayOf_eq_some_iff.2 ⟨hk, hroot⟩

/-- A display is on itself, and so has its own number. -/
theorem Arranged.displayIdOf_of_kindOf (ha : h.Arranged) (hk : h.kindOf k = some (.display id)) :
    h.displayIdOf k = some id := by
  rw [displayIdOf, ha.displayOf_of_isDisplay (isDisplay_iff.2 ⟨id, hk⟩), Option.bind_some, hk]
  rfl

/-- What has the number of a task is a task with that number. -/
theorem taskIdOf_eq_some_iff {id : TaskId} :
    h.taskIdOf k = some id ↔ ∃ user, h.kindOf k = some (.task id user) := by
  unfold taskIdOf
  cases h.kindOf k with
  | none => simp
  | some kind => cases kind <;> simp

/-- As long as a container is there, it stays of the kind that it is of. -/
theorem Arranged.kindOf_run [Hook η] (ha : h.Arranged) (commands : List (Command η))
    (hk : h.contains k) (hk' : (h.run commands).contains k) :
    (h.run commands).kindOf k = h.kindOf k := by
  have ha' := ha.altered (altered_run h commands)
  rcases (ha.later_run commands).fate k ((ha.live_iff k).1 hk) with ⟨-, hkind⟩ | hstale
  · exact hkind
  · exact absurd ((ha'.live_iff k).1 hk') (ha'.wellFormed.sound.notMem_of_stale hstale)

/-- Every table is about the containers that are in the forest, and tells of them what holds. -/
structure InStep [Hook η] (h : Hierarchy η) : Prop where
  containers : ∀ k, h.contains k ↔ k ∈ h.forest
  hooks : ∀ k ∈ h.records.hooks, k ∈ h.forest
  pointers : ∀ k ∈ h.records.focus.pointers, k ∈ h.forest
  /-- The table of displays leads from a number to the live display with that number. -/
  displays : ∀ id k,
    h.display? id = some k ↔ k ∈ h.forest ∧ h.kindOf k = some (.display id)
  /-- The table of tasks leads from a number to the live task with that number. -/
  tasks : ∀ id k,
    h.task? id = some k ↔ k ∈ h.forest ∧ ∃ user, h.kindOf k = some (.task id user)
  displays_apart : ∀ id j k,
    h.kindOf j = some (.display id) → h.kindOf k = some (.display id) → j = k
  tasks_apart : ∀ id j k user user',
    h.kindOf j = some (.task id user) → h.kindOf k = some (.task id user') → j = k
  /-- Looking up displays by numbers and numbers of displays undo each other. -/
  display_inverse : ∀ id k, h.display? id = some k ↔ h.isDisplay k ∧ h.displayIdOf k = some id
  task_inverse : ∀ id k, h.task? id = some k ↔ h.taskIdOf k = some id
  /-- Nothing that is done to a container while it lives changes what it is. -/
  steady : ∀ commands k, h.contains k → (h.run commands).contains k →
    (h.run commands).kindOf k = h.kindOf k ∧ (h.run commands).taskIdOf k = h.taskIdOf k ∧
      (h.run commands).userIdOf k = h.userIdOf k

/-- In a hierarchy in order the tables are in step with the forest. -/
theorem inStep_of_inOrder [Hook η] (ho : h.InOrder) : h.InStep where
  containers := ho.arranged.live_iff
  hooks _ := ho.mem_of_hook
  pointers k hk := by
    obtain ⟨c, hc⟩ := Option.isSome_iff_exists.1 (Focus.mem_pointers_iff.1 hk)
    exact ho.arranged.wellFormed.rooted.parent_mem (ho.focused k c hc)
  displays id k := by
    rw [ho.display?_eq_some_iff]
    exact ⟨fun hk => ⟨ho.arranged.mem_of_kindOf hk, hk⟩, And.right⟩
  tasks id k := by
    rw [ho.task?_eq_some_iff]
    exact ⟨fun ⟨user, hk⟩ => ⟨ho.arranged.mem_of_kindOf hk, user, hk⟩, And.right⟩
  displays_apart id j k hj hk := by
    rw [← ho.display?_eq_some_iff] at hj hk
    exact Option.mem_unique hj hk
  tasks_apart id j k user user' hj hk := by
    have hj' := ho.task?_eq_some_iff.2 ⟨user, hj⟩
    have hk' := ho.task?_eq_some_iff.2 ⟨user', hk⟩
    exact Option.mem_unique hj' hk'
  display_inverse id k := by
    rw [ho.display?_eq_some_iff]
    constructor
    · intro hk
      exact ⟨isDisplay_iff.2 ⟨id, hk⟩, ho.arranged.displayIdOf_of_kindOf hk⟩
    · rintro ⟨hdisplay, hid⟩
      obtain ⟨id', hk⟩ := isDisplay_iff.1 hdisplay
      rw [ho.arranged.displayIdOf_of_kindOf hk] at hid
      rwa [← Option.some.inj hid]
  task_inverse id k := by rw [ho.task?_eq_some_iff, taskIdOf_eq_some_iff]
  steady commands k hk hk' := by
    have hkind := ho.arranged.kindOf_run commands hk hk'
    refine ⟨hkind, ?_, ?_⟩
    · rw [taskIdOf, hkind]
      rfl
    · rw [userIdOf, hkind]
      rfl

/-- Whatever commands were given, carried out or refused, the tables are in step with the forest. -/
theorem Reachable.inStep [Hook η] {settings : Settings} (hr : Reachable settings h) : h.InStep :=
  inStep_of_inOrder hr.inOrder

/-- Once the second display and the task are removed, their numbers are free. -/
theorem inStep_furnished :
    Reachable {} furnished ∧ furnished.InStep ∧ furnished.display? ⟨1⟩ = some ⟨2, 1⟩ ∧
      furnished.task? ⟨7⟩ = some ⟨4, 1⟩ ∧
      (furnished.run [.removeNow ⟨2, 1⟩, .removeNow ⟨4, 1⟩]).display? ⟨1⟩ = none ∧
      (furnished.run [.removeNow ⟨2, 1⟩, .removeNow ⟨4, 1⟩]).task? ⟨7⟩ = none := by
  have hr := reachable_furnished
  exact ⟨hr, hr.inStep, by decide, by decide, by decide, by decide⟩

end Hierarchy

end WindowForest
