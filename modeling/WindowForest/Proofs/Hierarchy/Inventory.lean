import WindowForest.Hierarchy.Query
import WindowForest.Proofs.Hierarchy.Verdict

/-!
# What the queries list

A query that lists containers lists all those that it asks for, each once, and no others
(`Reachable.inventory`).

The tasks of a display are gathered from the lists of children, two levels down. Since
every kind holds only the next one, tasks are found on that level and nowhere else, so
they are the tasks in the preorder of the display. The tasks of a user and the displays
are gathered from the tables of numbers. These are in order of the numbers here, but any
other list of the entries that is sorted by number gives the same answer, because no
number occurs twice.
-/

set_option autoImplicit false

namespace WindowForest

/-- Tasks are the kinds on the third level. -/
theorem Kind.isTask_iff_depth {kind : Kind} : kind.isTask ↔ kind.depth = 2 := by
  cases kind <;> simp [isTask, depth]

/-- A task is what has the number of a task and of its user. -/
theorem Kind.isTask_iff {kind : Kind} : kind.isTask ↔ ∃ id user, kind = .task id user := by
  cases kind <;> simp [isTask]

/-! ## Entries of tables, in any order -/

section Entries

variable {what : Numbered} {table : Std.ExtTreeMap (Id what) Key}
  {entries sorted : List (Id what × Key)}

/-- The entries of a table are listed, in some order. -/
structure Enumerates (entries : List (Id what × Key)) (table : Std.ExtTreeMap (Id what) Key) :
    Prop where
  nodup : entries.Nodup
  mem_iff : ∀ id k, (id, k) ∈ entries ↔ table[id]? = some k

/-- The second list results from sorting the first one by number. -/
structure SortedByNumber (entries sorted : List (Id what × Key)) : Prop where
  perm : sorted.Perm entries
  ordered : sorted.Pairwise fun a b => a.1.number ≤ b.1.number

/-- The table itself lists its entries in strictly increasing order of the numbers. -/
theorem increasing_toList (table : Std.ExtTreeMap (Id what) Key) :
    table.toList.Pairwise fun a b => a.1.number < b.1.number := by
  have hordered := table.ordered_keys_toList
  apply hordered.imp
  intro a b hlt
  have hcompare : compare a.1.number b.1.number = .lt := hlt
  exact Std.compare_eq_lt.1 hcompare

/-- The table itself lists its entries. -/
theorem enumerates_toList (table : Std.ExtTreeMap (Id what) Key) :
    Enumerates table.toList table where
  nodup := by
    refine (increasing_toList table).imp ?_
    rintro e _ hlt rfl
    exact UInt32.lt_irrefl _ hlt
  mem_iff _ _ := Std.ExtTreeMap.mem_toList_iff_getElem?_eq_some

/-- Whatever the order in which the entries are gone through, to select some of them and to sort
those by number leads to the same list. -/
theorem Enumerates.eq_of_sorted (hentries : Enumerates entries table) (p : Id what × Key → Bool)
    (hsorted : SortedByNumber (entries.filter p) sorted) : sorted = table.toList.filter p := by
  have htable := enumerates_toList table
  have hperm : entries.Perm table.toList := by
    rw [List.perm_ext_iff_of_nodup hentries.nodup htable.nodup]
    rintro ⟨id, k⟩
    rw [hentries.mem_iff, htable.mem_iff]
  have hordered : (table.toList.filter p).Pairwise fun a b => a.1.number ≤ b.1.number :=
    ((increasing_toList table).filter p).imp fun hlt => UInt32.le_of_lt hlt
  apply List.Perm.eq_of_pairwise _ hsorted.ordered hordered (hsorted.perm.trans (hperm.filter p))
  -- Two entries with the same number are the same entry.
  rintro ⟨id, k⟩ ⟨id', k'⟩ hmem hmem' hle hle'
  obtain rfl : id = id' := by
    cases id
    cases id'
    exact congrArg Id.mk (UInt32.le_antisymm hle hle')
  have hk := (hentries.mem_iff id k).1 (List.mem_of_mem_filter (hsorted.perm.mem_iff.1 hmem))
  have hk' := (htable.mem_iff id k').1 (List.mem_of_mem_filter hmem')
  rw [Option.mem_unique hk hk']

end Entries

namespace Hierarchy

variable {η : Type} {h : Hierarchy η} {d s t k : Key} {user : UserId}

/-- Whether a key names a task. -/
def isTask (h : Hierarchy η) (k : Key) : Bool := (h.kindOf k).any Kind.isTask

/-- A key names a task if its container is of the kind of tasks. -/
theorem isTask_iff : h.isTask k ↔ ∃ id user, h.kindOf k = some (.task id user) := by
  unfold isTask
  cases h.kindOf k with
  | none => simp
  | some kind => simpa using Kind.isTask_iff

/-- What has the number of a task is a task. -/
theorem isSome_taskIdOf : (h.taskIdOf k).isSome ↔ h.isTask k := by
  rw [Option.isSome_iff_exists, isTask_iff]
  exact exists_congr fun id => taskIdOf_eq_some_iff

/-- What belongs to a user is a task of that user. -/
theorem userIdOf_eq_some_iff :
    h.userIdOf k = some user ↔ ∃ id, h.kindOf k = some (.task id user) := by
  unfold userIdOf
  cases h.kindOf k with
  | none => simp
  | some kind => cases kind <;> simp

/-! ## Tasks by display -/

namespace Arranged

variable (ha : h.Arranged)

include ha

/-- The kind of a child is one level below that of its parent. -/
theorem depth_of_parent {kind : Kind} (hkind : h.kindOf k = some kind) {c : Key}
    (hp : h.forest.parent c = some k) :
    ∃ kind', h.kindOf c = some kind' ∧ kind'.depth = kind.depth + 1 := by
  obtain ⟨a, b, hk, hc, hfits⟩ := ha.fits c k hp
  obtain rfl := Option.mem_unique hkind hk
  exact ⟨b, hc, Kind.canContain_iff.1 hfits⟩

/-- Below a task there are no further tasks. -/
theorem filter_preorder_task (ht : h.isTask t) : (h.forest.preorder t).filter h.isTask = [t] := by
  obtain ⟨id, user, hkind⟩ := isTask_iff.1 ht
  have hbelow : ((h.forest.children t).flatMap h.forest.preorder).filter h.isTask = [] := by
    rw [List.filter_eq_nil_iff]
    intro x hx htask
    obtain ⟨c, hc, hbelow⟩ := List.mem_flatMap.1 hx
    have hp := ha.wellFormed.mem_children_iff.1 hc
    have hw := (ha.wellFormed.mem_preorder_iff.1 hbelow).2
    -- All below a child of a task is at least one level deeper than tasks are.
    obtain ⟨kind, hkindc, hdepth⟩ := ha.depth_of_parent hkind hp
    obtain ⟨id', user', hkindx⟩ := isTask_iff.1 htask
    have hle := ha.depth_le_of_within hw hkindc hkindx
    simp only [Kind.depth] at hdepth hle
    omega
  rw [ha.wellFormed.preorder_eq (ha.mem_of_kindOf hkind), List.filter_cons_of_pos ht, hbelow]

/-- The tasks below a stack are its children. -/
theorem filter_preorder_stack (hs : h.kindOf s = some .stack) :
    (h.forest.preorder s).filter h.isTask = h.forest.children s := by
  have hself : ¬ h.isTask s := by simp [isTask, hs, Kind.isTask]
  rw [ha.wellFormed.preorder_eq (ha.mem_of_kindOf hs), List.filter_cons_of_neg hself,
    List.filter_flatMap]
  have hchild : ∀ t ∈ h.forest.children s, (h.forest.preorder t).filter h.isTask = [t] := by
    intro t ht
    obtain ⟨kind, hkind, hdepth⟩ :=
      ha.depth_of_parent hs (ha.wellFormed.mem_children_iff.1 ht)
    have htask : h.isTask t := by
      rw [isTask, hkind, Option.any_some, Kind.isTask_iff_depth, hdepth]
      rfl
    exact ha.filter_preorder_task htask
  rw [List.flatMap_congr hchild, List.flatMap_singleton']

/-- The tasks of a display are those in its preorder. -/
theorem tasksOnDisplay_eq (hd : h.isDisplay d) :
    h.tasksOnDisplay d = (h.forest.preorder d).filter h.isTask := by
  obtain ⟨id, hkind⟩ := isDisplay_iff.1 hd
  have hself : ¬ h.isTask d := by simp [isTask, hkind, Kind.isTask]
  have hstack : ∀ s ∈ h.forest.children d, h.kindOf s = some .stack := by
    intro s hs
    obtain ⟨kind, hkinds, hdepth⟩ :=
      ha.depth_of_parent hkind (ha.wellFormed.mem_children_iff.1 hs)
    rw [hkinds]
    cases kind <;> simp [Kind.depth] at hdepth ⊢
  have hlist : (h.forest.preorder d).filter h.isTask =
      (h.forest.children d).flatMap h.forest.children := by
    rw [ha.wellFormed.preorder_eq (ha.mem_of_kindOf hkind), List.filter_cons_of_neg hself,
      List.filter_flatMap]
    exact List.flatMap_congr fun s hs => ha.filter_preorder_stack (hstack s hs)
  rw [tasksOnDisplay, stacksOf, if_pos hd, ← hlist, List.filter_filter]
  apply List.filter_congr
  intro k _
  exact Bool.and_self _

omit ha in
/-- What is no display has neither stacks nor tasks. -/
theorem tasksOnDisplay_of_not_display (hd : ¬ h.isDisplay d) :
    h.stacksOf d = [] ∧ h.tasksOnDisplay d = [] := by
  have hstacks : h.stacksOf d = [] := if_neg hd
  exact ⟨hstacks, by rw [tasksOnDisplay, hstacks]; rfl⟩

/-- A display lists the tasks that belong to it. -/
theorem mem_tasksOnDisplay_iff :
    t ∈ h.tasksOnDisplay d ↔ h.isTask t ∧ h.displayOf t = some d := by
  by_cases hd : h.isDisplay d
  · have hroot := ha.parent_of_isDisplay hd
    obtain ⟨id, hkind⟩ := isDisplay_iff.1 hd
    have hmem := ha.mem_of_kindOf hkind
    rw [ha.tasksOnDisplay_eq hd, List.mem_filter, ha.wellFormed.mem_preorder_iff,
      ha.displayOf_eq_some_iff]
    constructor
    · rintro ⟨⟨-, hw⟩, htask⟩
      exact ⟨htask, hd, hmem, hroot, hw⟩
    · rintro ⟨htask, -, -, -, hw⟩
      exact ⟨⟨hmem, hw⟩, htask⟩
  · rw [(tasksOnDisplay_of_not_display hd).2]
    refine iff_of_false List.not_mem_nil ?_
    rintro ⟨-, hdisplay⟩
    exact hd (ha.displayOf_eq_some_iff.1 hdisplay).1

/-- A display lists no task twice. -/
theorem nodup_tasksOnDisplay (d : Key) : (h.tasksOnDisplay d).Nodup := by
  by_cases hd : h.isDisplay d
  · rw [ha.tasksOnDisplay_eq hd]
    exact (ha.wellFormed.nodup_preorder d).filter _
  · rw [(tasksOnDisplay_of_not_display hd).2]
    exact List.nodup_nil

end Arranged

/-! ## Tasks and displays by number -/

namespace InOrder

variable (ho : h.InOrder)

include ho

/-- The displays are listed with their numbers. -/
theorem mem_displays_list_iff {id : DisplayId} :
    (id, k) ∈ h.displays ↔ h.kindOf k = some (.display id) := by
  have hlisted := (enumerates_toList h.records.displays).mem_iff id k
  exact hlisted.trans ho.display?_eq_some_iff

/-- For a user the tasks of that user are listed. -/
theorem mem_tasksForUser_iff :
    k ∈ h.tasksForUser user ↔ ∃ id, h.kindOf k = some (.task id user) := by
  simp only [tasksForUser, List.mem_map, List.mem_filter, decide_eq_true_eq, Prod.exists,
    exists_eq_right, (enumerates_toList h.records.tasks).mem_iff, userIdOf_eq_some_iff]
  constructor
  · rintro ⟨-, -, hkind⟩
    exact hkind
  · rintro ⟨id, hkind⟩
    exact ⟨id, ho.task?_eq_some_iff.2 ⟨user, hkind⟩, id, hkind⟩

/-- The tasks of a user come in strictly increasing order of their numbers. -/
theorem increasing_tasksForUser (user : UserId) :
    (h.tasksForUser user).Pairwise fun a b => ∃ i j, h.taskIdOf a = some i ∧
      h.taskIdOf b = some j ∧ i.number < j.number := by
  have hnumber : ∀ e ∈ h.records.tasks.toList, h.taskIdOf e.2 = some e.1 := by
    rintro ⟨id, k⟩ hmem
    rw [taskIdOf_eq_some_iff, ← ho.task?_eq_some_iff]
    exact ((enumerates_toList h.records.tasks).mem_iff id k).1 hmem
  refine List.pairwise_map.2 (List.Pairwise.filter _ ?_)
  exact (increasing_toList h.records.tasks).imp_of_mem fun ha hb hlt =>
    ⟨_, _, hnumber _ ha, hnumber _ hb, hlt⟩

end InOrder

/-! ## All queries -/

/-- The lists that queries give are those of the containers asked for. -/
structure Inventory (h : Hierarchy η) : Prop where
  /-- The tasks of a display come in the order of its preorder. -/
  tasksOnDisplay : ∀ d, h.isDisplay d →
    h.tasksOnDisplay d = (h.forest.preorder d).filter h.isTask
  tasksOnDisplay_nodup : ∀ d, (h.tasksOnDisplay d).Nodup
  mem_tasksOnDisplay : ∀ d t, t ∈ h.tasksOnDisplay d ↔ h.isTask t ∧ h.displayOf t = some d
  /-- A task that is on a display is listed for that one alone, and any other task for none. -/
  on_one : ∀ t d, h.isTask t → h.displayOf t = some d → ∃! d', t ∈ h.tasksOnDisplay d'
  on_none : ∀ t, h.displayOf t = none → ∀ d, t ∉ h.tasksOnDisplay d
  mem_tasksForUser : ∀ user k,
    k ∈ h.tasksForUser user ↔ ∃ id, h.kindOf k = some (.task id user)
  tasksForUser_nodup : ∀ user, (h.tasksForUser user).Nodup
  tasksForUser_increasing : ∀ user, (h.tasksForUser user).Pairwise fun a b =>
    ∃ i j, h.taskIdOf a = some i ∧ h.taskIdOf b = some j ∧ i.number < j.number
  mem_displays : ∀ id k, (id, k) ∈ h.displays ↔ h.kindOf k = some (.display id)
  displays_nodup : (h.displays.map Prod.snd).Nodup
  displays_increasing : h.displays.Pairwise fun a b => a.1.number < b.1.number
  /-- In whatever order the displays are gone through, once sorted they are in the same order. -/
  displays_any_order : ∀ entries sorted, Enumerates entries h.records.displays →
    SortedByNumber entries sorted → sorted = h.displays
  /-- The same goes for the tasks, among which those of the user are selected. -/
  tasks_any_order : ∀ user entries sorted, Enumerates entries h.records.tasks →
    SortedByNumber (entries.filter fun e => h.userIdOf e.2 = some user) sorted →
    sorted.map Prod.snd = h.tasksForUser user
  /-- What is no live display has no stacks and no tasks. -/
  no_display : ∀ k, ¬ h.isDisplay k → h.stacksOf k = [] ∧ h.tasksOnDisplay k = []
  /-- What is no live task has no activities. -/
  no_task : ∀ k, ¬ h.isTask k → h.activitiesOf k = []

/-- In a hierarchy in order the queries list what they are asked for. -/
theorem inventory_of_inOrder (ho : h.InOrder) : h.Inventory where
  tasksOnDisplay _ := ho.arranged.tasksOnDisplay_eq
  tasksOnDisplay_nodup := ho.arranged.nodup_tasksOnDisplay
  mem_tasksOnDisplay _ _ := ho.arranged.mem_tasksOnDisplay_iff
  on_one t d htask hd := by
    refine ⟨d, ho.arranged.mem_tasksOnDisplay_iff.2 ⟨htask, hd⟩, fun d' hd' => ?_⟩
    exact Option.mem_unique (ho.arranged.mem_tasksOnDisplay_iff.1 hd').2 hd
  on_none t hnone d ht := by
    rw [ho.arranged.mem_tasksOnDisplay_iff, hnone] at ht
    cases ht.2
  mem_tasksForUser _ _ := ho.mem_tasksForUser_iff
  tasksForUser_nodup user := by
    refine (ho.increasing_tasksForUser user).imp ?_
    rintro k _ ⟨i, j, hi, hj, hlt⟩ rfl
    obtain rfl := Option.mem_unique hi hj
    exact UInt32.lt_irrefl _ hlt
  tasksForUser_increasing := ho.increasing_tasksForUser
  mem_displays _ _ := ho.mem_displays_list_iff
  displays_nodup := by
    refine List.pairwise_map.2 ((increasing_toList h.records.displays).imp_of_mem ?_)
    rintro ⟨id, k⟩ ⟨id', k'⟩ hmem hmem' hlt rfl
    have hkind := ho.mem_displays_list_iff.1 hmem
    rw [ho.mem_displays_list_iff.1 hmem'] at hkind
    cases hkind
    exact UInt32.lt_irrefl _ hlt
  displays_increasing := increasing_toList h.records.displays
  displays_any_order entries sorted hentries hsorted := by
    have hall : ∀ l : List (DisplayId × Key), l.filter (fun _ => true) = l := fun l =>
      List.filter_eq_self.2 fun _ _ => rfl
    have heq := hentries.eq_of_sorted (fun _ => true) (by rwa [hall])
    rwa [hall] at heq
  tasks_any_order user entries sorted hentries hsorted :=
    congrArg (List.map Prod.snd) (hentries.eq_of_sorted _ hsorted)
  no_display _ := Arranged.tasksOnDisplay_of_not_display
  no_task k hk := if_neg (isSome_taskIdOf.not.2 hk)

/-- In every reachable hierarchy, the queries list what they are asked for. -/
theorem Reachable.inventory [Hook η] {settings : Settings} (hr : Reachable settings h) :
    h.Inventory :=
  inventory_of_inOrder hr.inOrder

/-- The user has a task on a display and one that is attached to nothing, which was created later
but has the lower number. -/
theorem inventory_furnished :
    ∃ h : Hierarchy Voter, Reachable {} h ∧ h.Inventory ∧
      h.tasksOnDisplay ⟨1, 1⟩ = [⟨4, 1⟩] ∧ h.tasksOnDisplay ⟨2, 1⟩ = [] ∧
      h.tasksForUser ⟨0⟩ = [⟨5, 1⟩, ⟨4, 1⟩] ∧ h.displayOf ⟨5, 1⟩ = none ∧
      h.displays = [(⟨0⟩, ⟨1, 1⟩), (⟨1⟩, ⟨2, 1⟩)] ∧ h.tasksOnDisplay ⟨3, 1⟩ = [] := by
  have hr := reachable_furnished.run [.createTask ⟨3⟩ ⟨0⟩]
  exact ⟨_, hr, hr.inventory, by decide, by decide, by decide, by decide, by decide, by decide⟩

end Hierarchy

end WindowForest
