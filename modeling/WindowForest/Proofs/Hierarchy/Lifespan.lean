import WindowForest.Proofs.Hierarchy.Verdict

/-!
# From creation to removal

A slot that was given back is used again, so a new container may stand where one was
removed. That no trace of the old one is left is a matter of two facts. The key of the new
one is neither live nor stale, so it is different from every key that was ever given out
(`Arranged.fresh_of_mem_births`). And a key that has become stale stays so, while every
look-up of a key that is not in the forest comes back empty, because forest and records
are in step (`InOrder.gone`).
-/

set_option autoImplicit false

namespace WindowForest

variable {η α : Type}

/-! ## Creations along a run -/

/-- The key of the container that a command created. -/
def Outcome.created? (o : Outcome η Answer) : Option Key :=
  match o.result with
  | .ok (.created k) => some k
  | _ => none

/-- A command created a container if it is answered with the key. -/
theorem Outcome.created?_eq_some_iff {o : Outcome η Answer} {k : Key} :
    o.created? = some k ↔ o.result = .ok (.created k) := by
  unfold created?
  split
  · next j hj => simp [hj]
  · next hnot => simpa using hnot k

/-- What is recorded for a new container: no more than the kind, unless it is a display. -/
structure Container.Blank (c : Container) : Prop where
  pending : c.pending = false
  overrideBounds : c.overrideBounds = none
  requests : ¬ c.kind.isDisplay → c.requestedBounds = {} ∧ c.requestedMode = .undefined

/-- A container of which only the kind is known is blank. -/
theorem Container.blank_kind (kind : Kind) : Blank { kind } := ⟨rfl, rfl, fun _ => ⟨rfl, rfl⟩⟩

/-- Being blank is about requests only. -/
theorem Container.Blank.of_request {c d : Container} (hd : d.Blank)
    (heq : c.request = d.request) : c.Blank := by
  have hkind : c.kind = d.kind :=
    (congrArg Container.kind heq :)
  have hmode : c.requestedMode = d.requestedMode :=
    (congrArg Container.requestedMode heq :)
  have hbounds : c.requestedBounds = d.requestedBounds :=
    (congrArg Container.requestedBounds heq :)
  have hpending : c.pending = d.pending :=
    (congrArg Container.pending heq :)
  have hoverride : c.overrideBounds = d.overrideBounds :=
    (congrArg Container.overrideBounds heq :)
  refine ⟨hpending.trans hd.pending, hoverride.trans hd.overrideBounds, ?_⟩
  rw [hkind, hmode, hbounds]
  exact hd.requests

namespace Hierarchy

variable {h h' : Hierarchy η} {k : Key}

/-- What is answered with something else than a key has created nothing. -/
theorem map_ne_created {g : α → Answer} (hg : ∀ a, g a ≠ .created k) (o : Outcome η α) :
    (o.map g).result ≠ .ok (.created k) := by
  obtain ⟨hierarchy, result, calls⟩ := o
  cases result with
  | error e => exact nofun
  | ok a => exact fun hk => hg a (Except.ok.inj hk)

/-- What is answered with a key has given that key. -/
theorem result_of_map_created {o : Outcome η Key}
    (hk : (o.map Answer.created).result = .ok (.created k)) : o.result = .ok k := by
  obtain ⟨hierarchy, result, calls⟩ := o
  cases result with
  | error e => cases hk
  | ok j =>
    cases hk
    rfl

/-- One hierarchy comes out of another one by making a blank container. -/
inductive Bears (h : Hierarchy η) (k : Key) : Hierarchy η → Prop
  | created (c : Container) : c.Blank → k = h.forest.nextKey → Bears h k (h.create c)
  | displayed (c : Container) :
    c.Blank → k = h.forest.nextKey → Bears h k ((h.create c).layOut k)

/-- A display that is not refused gets the next key, and is laid out at once. -/
theorem createDisplay_of_ok {id : DisplayId} {bounds : Rect}
    (hk : (h.createDisplay id bounds).result = .ok k) :
    k = h.forest.nextKey ∧ (h.createDisplay id bounds).hierarchy =
      (h.create { kind := .display id, requestedMode := h.settings.defaultMode,
                  requestedBounds := bounds }).layOut k := by
  unfold createDisplay at hk ⊢
  by_cases htaken : id ∈ h.records.displays
  · rw [if_pos htaken] at hk
    cases hk
  · rw [if_neg htaken] at hk ⊢
    obtain rfl : h.forest.nextKey = k := Except.ok.inj hk
    exact ⟨rfl, rfl⟩

/-- A task that is not refused gets the next key. -/
theorem createTask_of_ok {id : TaskId} {user : UserId}
    (hk : (h.createTask id user).result = .ok k) :
    k = h.forest.nextKey ∧
      (h.createTask id user).hierarchy = h.create { kind := .task id user } := by
  unfold createTask at hk ⊢
  by_cases htaken : id ∈ h.records.tasks
  · rw [if_pos htaken] at hk
    cases hk
  · rw [if_neg htaken] at hk ⊢
    obtain rfl : h.forest.nextKey = k := Except.ok.inj hk
    exact ⟨rfl, rfl⟩

/-- Creating a display that is not refused makes a blank container. -/
theorem bears_of_createDisplay {id : DisplayId} {bounds : Rect}
    (hk : (h.createDisplay id bounds).result = .ok k) :
    h.Bears k (h.createDisplay id bounds).hierarchy := by
  obtain ⟨hnext, hsame⟩ := createDisplay_of_ok hk
  rw [hsame]
  exact .displayed _ ⟨rfl, rfl, fun hno => absurd rfl hno⟩ hnext

/-- Creating a task that is not refused makes a blank container. -/
theorem bears_of_createTask {id : TaskId} {user : UserId}
    (hk : (h.createTask id user).result = .ok k) :
    h.Bears k (h.createTask id user).hierarchy := by
  obtain ⟨hnext, hsame⟩ := createTask_of_ok hk
  rw [hsame]
  exact .created _ (Container.blank_kind (.task id user)) hnext

/-- Whatever command answers with a key has made a blank container under it. -/
theorem bears_of_created [Hook η] {c : Command η} (hk : (h.apply c).result = .ok (.created k)) :
    h.Bears k (h.apply c).hierarchy := by
  have hunit := map_ne_created (η := η) (k := k) (g := Answer.ofUnit) fun _ => nofun
  have hremoval := map_ne_created (η := η) (k := k) (g := Answer.ofRemoval)
    fun removal => by cases removal <;> exact nofun
  cases c with
  | createDisplay id bounds => exact bears_of_createDisplay (result_of_map_created hk)
  | createDefaultDisplay id => exact bears_of_createDisplay (result_of_map_created hk)
  | createStack =>
    obtain rfl : h.forest.nextKey = k := Except.ok.inj (result_of_map_created hk)
    exact .created _ (Container.blank_kind .stack) rfl
  | createTask id user => exact bears_of_createTask (result_of_map_created hk)
  | createActivity name =>
    obtain rfl : h.forest.nextKey = k := Except.ok.inj (result_of_map_created hk)
    exact .created _ (Container.blank_kind (.activity name)) rfl
  | setHook node hook => exact absurd hk (hunit _)
  | attach node parent pos => exact absurd hk (hunit _)
  | detach node => exact absurd hk (hunit _)
  | reparent node target pos activate => exact absurd hk (hunit _)
  | position node pos => exact absurd hk (hunit _)
  | remove node => exact absurd hk (hremoval _)
  | removeNow node => exact absurd hk (hunit _)
  | setBounds node bounds => exact absurd hk (hunit _)
  | setOverride node bounds => exact absurd hk (hunit _)
  | setMode node mode => exact absurd hk (hunit _)

/-- The keys of the containers that the commands create, in the order of creation. -/
def births [Hook η] (h : Hierarchy η) : List (Command η) → List Key
  | [] => []
  | c :: rest => (h.apply c).created?.toList ++ (h.apply c).hierarchy.births rest

namespace Bears

variable (hb : h.Bears k h')

include hb

/-- A birth takes the next key, and is a new node and nothing else in the forest. -/
theorem forest : k = h.forest.nextKey ∧ h'.forest = h.forest.sprout := by
  cases hb with
  | created c _ hk => exact ⟨hk, rfl⟩
  | displayed c _ hk => exact ⟨hk, forest_layOut _ _⟩

/-- What was born is live. -/
theorem mem : k ∈ h'.forest := by
  obtain ⟨hk, hforest⟩ := hb.forest
  rw [hforest, Forest.mem_sprout]
  exact .inl hk

/-- A birth installs no hook. -/
theorem hooks : h'.records.hooks = h.records.hooks := by
  cases hb with
  | created c _ _ => exact Records.hooks_list _ _ _
  | displayed c _ _ =>
    rw [hooks_layOut]
    exact Records.hooks_list _ _ _

/-- What is recorded for the new container is blank. -/
theorem blank : ∃ c, h'.container? k = some c ∧ c.Blank := by
  have hnew : ∀ c, k = h.forest.nextKey → (h.create c).container? k = some c := by
    rintro c rfl
    rw [container?_create, if_pos rfl]
  cases hb with
  | created c hblank hk => exact ⟨c, hnew c hk, hblank⟩
  | displayed c hblank hk =>
    have hrequest := requestOf_layOut (h.create c) k k
    rw [requestOf, requestOf, hnew c hk, Option.map_some, Option.map_eq_some_iff] at hrequest
    obtain ⟨d, hd, heq⟩ := hrequest
    exact ⟨d, hd, hblank.of_request heq⟩

end Bears

namespace Arranged

/-- No key is given out that names a container or once named one. -/
theorem fresh_of_mem_births [Hook η] (ha : h.Arranged) {commands : List (Command η)}
    (hk : k ∈ h.births commands) : k ∉ h.forest ∧ ¬ Store.Stale h.forest k := by
  induction commands generalizing h with
  | nil => cases hk
  | cons c rest ih =>
    rcases List.mem_append.1 hk with hnow | hrest
    · rw [Option.mem_toList, Outcome.created?_eq_some_iff] at hnow
      rw [(bears_of_created hnow).forest.1]
      exact ⟨ha.wellFormed.sound.nextKey_notMem, ha.wellFormed.sound.nextKey_not_stale⟩
    · -- Were the key live or stale now, it would be so after the command, too.
      have hlater := ha.later_apply c
      obtain ⟨hdead, hfresh⟩ := ih (ha.altered (altered_apply h c)) hrest
      refine ⟨?_, fun hstale => hfresh (hlater.stale k hstale)⟩
      intro hmem
      rcases hlater.fate k hmem with ⟨hmem', -⟩ | hstale
      · exact hdead hmem'
      · exact hfresh hstale

/-- No key is given out twice. -/
theorem nodup_births [Hook η] (ha : h.Arranged) (commands : List (Command η)) :
    (h.births commands).Nodup := by
  induction commands generalizing h with
  | nil => exact List.nodup_nil
  | cons c rest ih =>
    have ha' := ha.altered (altered_apply h c)
    refine List.nodup_append.2 ⟨?_, ih ha', ?_⟩
    · cases (h.apply c).created? <;> simp
    · rintro j hnow k hrest rfl
      rw [Option.mem_toList, Outcome.created?_eq_some_iff] at hnow
      exact (ha'.fresh_of_mem_births hrest).1 (bears_of_created hnow).mem

/-- A container that was removed is missing ever after. -/
theorem notMem_of_removed [Hook η] (ha : h.Arranged) (between after : List (Command η))
    (hk : h.contains k) (hremoved : ¬ (h.run between).contains k) :
    k ∉ ((h.run between).run after).forest := by
  have ha' := ha.altered (altered_run h between)
  have ha'' := ha'.altered (altered_run (h.run between) after)
  rcases (ha.later_run between).fate k ((ha.live_iff k).1 hk) with ⟨hmem, -⟩ | hstale
  · exact absurd ((ha'.live_iff k).2 hmem) hremoved
  · exact ha''.wellFormed.sound.notMem_of_stale ((ha'.later_run after).stale k hstale)

end Arranged

end Hierarchy

/-! ## Containers that are gone -/

/-- No link leads from the key, and no walk starts at it. -/
structure Forest.Absent (f : Forest) (k : Key) : Prop where
  notMem : k ∉ f
  parent : f.parent k = none
  index : f.indexInParent k = none
  children : f.children k = []
  childCount : f.childCount k = 0
  childAt : ∀ pos, f.childAt k pos = none
  last : f.last k = none
  ancestors : f.ancestors k = []
  preorder : f.preorder k = []
  postorder : f.postorder k = []

/-- No walk and no link tells of a key that is not live. -/
theorem Forest.absent_of_notMem {f : Forest} {k : Key} (hf : f.WellFormed) (hk : k ∉ f) :
    f.Absent k := by
  have hlinks : f.get? k = none := Store.get?_eq_none hk
  have hparent : f.parent k = none := parent_of_notMem hk
  have hchildren : f.children k = [] := hf.children_of_notMem hk
  exact
    { notMem := hk
      parent := hparent
      index := by rw [indexInParent, hparent]; rfl
      children := hchildren
      childCount := by rw [childCount, hchildren]; rfl
      childAt := fun pos => by rw [childAt, hchildren]; rfl
      last := by rw [last, hlinks]; rfl
      ancestors := ancestors_of_notMem hk
      preorder := WellFormed.preorder_of_notMem hk
      postorder := by simp [postorder, only, hk] }

/-- The container that a command is about, and that has to be there for it. -/
def Command.node? : Command η → Option Key
  | createDisplay _ _ | createDefaultDisplay _ | createStack | createTask _ _
  | createActivity _ => none
  | setHook node _ | attach node _ _ | detach node | reparent node _ _ _ | position node _
  | remove node | removeNow node | setBounds node _ | setOverride node _ | setMode node _ =>
    some node

/-- The container that a command is to put another one under. -/
def Command.target? : Command η → Option Key
  | attach _ parent _ => some parent
  | reparent _ target _ _ => some target
  | _ => none

namespace Hierarchy

variable {h h' : Hierarchy η} {k : Key}

/-- Nothing is recorded for the key, and so nothing is answered that goes by what is recorded. -/
structure Unrecorded (h : Hierarchy η) (k : Key) : Prop where
  contains : h.contains k = false
  container? : h.container? k = none
  kind : h.kindOf k = none
  bounds : h.boundsOf k = none
  mode : h.modeOf k = none
  pending : h.isPending k = false
  display : h.displayOf k = none ∧ h.displayIdOf k = none
  task : h.taskIdOf k = none ∧ h.userIdOf k = none
  stacksOf : h.stacksOf k = [] ∧ h.stackCount k = 0
  tasksOnDisplay : h.tasksOnDisplay k = []
  activitiesOf : h.activitiesOf k = []

/-- No record tells of a key that is not live. -/
theorem unrecorded_of_notMem (hk : k ∉ h.forest) (hnone : h.container? k = none) :
    h.Unrecorded k := by
  have hdead : ¬ h.contains k := by simp [contains_iff, hnone]
  have hkind : h.kindOf k = none := by rw [kindOf, hnone]; rfl
  have hdisplay : h.displayOf k = none := Arranged.displayOf_of_notMem hk
  have htask : h.taskIdOf k = none := by rw [taskIdOf, hkind]; rfl
  have hstacks : h.stacksOf k = [] := by simp [stacksOf, isDisplay, hkind]
  exact
    { contains := by simpa using hdead
      container? := hnone
      kind := hkind
      bounds := by rw [boundsOf, hnone]; rfl
      mode := if_neg hdead
      pending := by rw [isPending, hnone]; rfl
      display := ⟨hdisplay, by rw [displayIdOf, hdisplay]; rfl⟩
      task := ⟨htask, by rw [userIdOf, hkind]; rfl⟩
      stacksOf := ⟨hstacks, by rw [stackCount, hstacks]; rfl⟩
      tasksOnDisplay := by rw [Hierarchy.tasksOnDisplay, hstacks]; rfl
      activitiesOf := by rw [Hierarchy.activitiesOf, htask]; rfl }

/-- Nothing is known of the container, and nothing can be done to it or with it. -/
structure Gone [Hook η] (h : Hierarchy η) (k : Key) : Prop where
  absent : h.forest.Absent k
  unrecorded : h.Unrecorded k
  lastActive : h.lastActive k = none
  active : h.active k = k
  /-- It is not found by any number. -/
  unlisted : (∀ id, h.display? id ≠ some k) ∧ ∀ id, h.task? id ≠ some k
  /-- Commands about it are refused as out of place. -/
  refused : ∀ c : Command η, c.node? = some k → FailsWith .invalidOperation (h.apply c).result
  /-- Nothing is put under it. -/
  target : ∀ c : Command η, c.target? = some k → ∀ a, (h.apply c).result ≠ .ok a

/-- Every command about a container that is gone is out of place. -/
theorem outOfPlace_of_dead {c : Command η} (hc : c.node? = some k) (hk : ¬ h.contains k) :
    h.OutOfPlace c := by
  cases c <;> cases hc
  case attach | detach | position | setMode => exact .inl hk
  all_goals exact hk

/-- Every command that is to put something under a container that is gone has a bad argument. -/
theorem badArgument_of_dead {c : Command η} (hc : c.target? = some k) (hk : ¬ h.contains k) :
    h.BadArgument c := by
  cases c <;> cases hc <;> exact .inl hk

/-- The search for the active node stops at once where there is no pointer. -/
theorem active_of_lastActive (hk : h.lastActive k = none) : h.active k = k := by
  have hstep : h.records.focus.lastActive k = none := hk
  rw [active, Focus.active, follow_succ, hstep, follow_none]
  rfl

/-- The links, the tables and the checks agree on what is not there. -/
theorem InOrder.gone [Hook η] (ho : h.InOrder) (hk : k ∉ h.forest) : h.Gone k := by
  have hf := ho.arranged.wellFormed
  have hunrecorded := unrecorded_of_notMem hk (ho.arranged.container?_of_notMem hk)
  have hdead : ¬ h.contains k := by simp [hunrecorded.contains]
  have hactive : h.lastActive k = none := (ho.focused.upheld hf).removed k hk
  constructor
  case absent => exact Forest.absent_of_notMem hf hk
  case unrecorded => exact hunrecorded
  case lastActive => exact hactive
  case active => exact active_of_lastActive hactive
  case unlisted =>
    constructor
    · intro id hid
      rw [ho.display?_eq_some_iff, hunrecorded.kind] at hid
      cases hid
    · intro id hid
      obtain ⟨user, hkind⟩ := ho.task?_eq_some_iff.1 hid
      rw [hunrecorded.kind] at hkind
      cases hkind
  case refused =>
    intro c hc
    rw [(ho.judged_apply c).ruling.failsWith_invalidOperation_iff]
    exact outOfPlace_of_dead hc hdead
  case target =>
    intro c hc a ha
    have hgood := (ho.judged_apply c).ruling.exists_ok_iff.1 ⟨a, ha⟩
    exact hgood.2 (badArgument_of_dead hc hdead)

/-! ## Containers that are new -/

/-- The container is there and stands alone, and nothing was done to it yet. -/
structure Newborn (h : Hierarchy η) (k : Key) : Prop where
  live : h.contains k
  parent : h.forest.parent k = none
  children : h.forest.children k = []
  hook : k ∉ h.records.hooks
  lastActive : h.lastActive k = none
  active : h.active k = k
  record : ∃ c, h.container? k = some c ∧ c.Blank

/-- A container that was just born stands alone, and nothing was done to it yet. -/
theorem InOrder.newborn (ho : h.InOrder) (ho' : h'.InOrder) (hb : h.Bears k h') :
    h'.Newborn k := by
  obtain ⟨hk, hforest⟩ := hb.forest
  have hf := ho.arranged.wellFormed
  have hnew : k ∉ h.forest := hk ▸ hf.sound.nextKey_notMem
  have hchildren : h'.forest.children k = [] := by
    rw [hforest, hf.children_sprout, hf.children_of_notMem hnew]
  have hactive : h'.lastActive k = none :=
    (ho'.focused.upheld ho'.arranged.wellFormed).childless k hchildren
  exact
    { live := (ho'.arranged.live_iff k).2 hb.mem
      parent := by rw [hforest, hf.parent_sprout, Forest.parent_of_notMem hnew]
      children := hchildren
      hook := by
        rw [hb.hooks]
        exact fun hhook => hnew (ho.mem_of_hook hhook)
      lastActive := hactive
      active := active_of_lastActive hactive
      record := hb.blank }

/-! ## Lifespans -/

/-- Keys are not used twice, removal is for good, and what is created has no past. -/
structure Lifespans [Hook η] (h : Hierarchy η) : Prop where
  distinct : ∀ commands, (h.births commands).Nodup
  /-- What is created later is different from all that is or was there before. -/
  fresh : ∀ before commands k,
    h.contains k → k ∉ (h.run before).births commands
  /-- What was there and has been removed is gone in all that comes after. -/
  gone : ∀ between after k, h.contains k → ¬ (h.run between).contains k →
    ((h.run between).run after).Gone k
  newborn : ∀ c k, (h.apply c).result = .ok (.created k) → (h.apply c).hierarchy.Newborn k

/-- In a hierarchy in order keys are not used twice and removal is for good. -/
theorem lifespans_of_inOrder [Hook η] (ho : h.InOrder) : h.Lifespans where
  distinct := ho.arranged.nodup_births
  fresh before commands k hk hborn := by
    have ha' := ho.arranged.altered (altered_run h before)
    obtain ⟨hdead, hfresh⟩ := ha'.fresh_of_mem_births hborn
    rcases (ho.arranged.later_run before).fate k ((ho.arranged.live_iff k).1 hk) with
      ⟨hmem, -⟩ | hstale
    · exact hdead hmem
    · exact hfresh hstale
  gone between after k hk hremoved := by
    have ho' := (ho.altered (altered_run h between)).altered (altered_run _ after)
    exact ho'.gone (ho.arranged.notMem_of_removed between after hk hremoved)
  newborn c k hk := ho.newborn (ho.altered (altered_apply h c)) (bears_of_created hk)

/-- Whatever commands were given and will be given, a removed container never comes back. -/
theorem Reachable.lifespans [Hook η] {settings : Settings} (hr : Reachable settings h) :
    h.Lifespans :=
  lifespans_of_inOrder hr.inOrder

/-- The slots of a stack and the task in it are used again, last in first out. -/
theorem lifespans_furnished :
    Reachable {} furnished ∧ furnished.Lifespans ∧ furnished.contains ⟨4, 1⟩ ∧
      ¬ (furnished.run [.removeNow ⟨3, 1⟩]).contains ⟨4, 1⟩ ∧
      (furnished.run [.removeNow ⟨3, 1⟩]).births [.createTask ⟨7⟩ ⟨1⟩, .createStack] =
        [⟨3, 3⟩, ⟨4, 3⟩] := by
  have hr := reachable_furnished
  exact ⟨hr, hr.lifespans, by decide, by decide, by decide⟩

end Hierarchy

end WindowForest
