import WindowForest.Proofs.Hierarchy.Registry

/-!
# Which commands are refused

For every command there is a condition under which it is out of place, and one under
which its arguments are bad. The first one is always looked at first. The conditions are
stated here in terms of what can be seen of a hierarchy (`OutOfPlace`, `BadArgument`),
without regard to the order of the checks and to the tables that they consult. The
verdict on a command is decided by its two conditions and nothing else
(`InOrder.judged_apply`), and a refused command leaves everything as it was.

In particular nothing is said of a container that is to come under itself. Such a
container would have to hold one of its own or a lower level, so it is refused for its
kind already.
-/

set_option autoImplicit false

namespace WindowForest

variable {η α β : Type}

/-! ## Rulings -/

/-- The verdict on an operation as two conditions decide it: it is out of place where the first one
holds, and has a bad argument where only the second one does. -/
inductive Ruling (misplaced bad : Prop) : Except Error α → Prop
  | outOfPlace {e : Error} :
    misplaced → e.fault = .invalidOperation → Ruling misplaced bad (.error e)
  | badArgument {e : Error} :
    ¬ misplaced → bad → e.fault = .invalidArgument → Ruling misplaced bad (.error e)
  | accepted (a : α) : ¬ misplaced → ¬ bad → Ruling misplaced bad (.ok a)

/-- The operation was refused for a fault of this sort. -/
def FailsWith (f : Fault) (result : Except Error α) : Prop :=
  ∃ e, result = .error e ∧ e.fault = f

/-- An operation that is refused fails with the fault that it is refused for. -/
theorem failsWith_error_iff {f : Fault} {e : Error} :
    FailsWith f (.error e : Except Error α) ↔ e.fault = f := by
  constructor
  · rintro ⟨e', he, hfault⟩
    rw [Except.error.inj he, hfault]
  · intro hfault
    exact ⟨e, rfl, hfault⟩

/-- An operation that is carried out does not fail. -/
theorem not_failsWith_ok {f : Fault} {a : α} : ¬ FailsWith f (.ok a : Except Error α) := by
  rintro ⟨e, he, -⟩
  cases he

namespace Ruling

variable {misplaced misplaced' bad bad' : Prop} {result : Except Error α}

/-- The verdict depends only on whether the two conditions hold. -/
theorem congr (hr : Ruling misplaced bad result) (hmisplaced : misplaced ↔ misplaced')
    (hbad : bad ↔ bad') : Ruling misplaced' bad' result := by
  rw [← hmisplaced, ← hbad]
  exact hr

/-- What is made of an answer makes no difference to the verdict. -/
theorem map (hr : Ruling misplaced bad result) (g : α → β) :
    Ruling misplaced bad (result.map g) := by
  cases hr with
  | outOfPlace hmisplaced hfault => exact .outOfPlace hmisplaced hfault
  | badArgument hright hbad hfault => exact .badArgument hright hbad hfault
  | accepted a hright hgood => exact .accepted (g a) hright hgood

/-- An operation fails as an invalid one exactly where it is out of place. -/
theorem failsWith_invalidOperation_iff (hr : Ruling misplaced bad result) :
    FailsWith .invalidOperation result ↔ misplaced := by
  cases hr with
  | outOfPlace hmisplaced hfault =>
    rw [failsWith_error_iff, hfault]
    exact iff_of_true rfl hmisplaced
  | badArgument hright _ hfault =>
    rw [failsWith_error_iff, hfault]
    exact iff_of_false nofun hright
  | accepted a hright _ => exact iff_of_false not_failsWith_ok hright

/-- An operation fails for its arguments exactly where it is in place and they are bad. -/
theorem failsWith_invalidArgument_iff (hr : Ruling misplaced bad result) :
    FailsWith .invalidArgument result ↔ ¬ misplaced ∧ bad := by
  cases hr with
  | outOfPlace hmisplaced hfault =>
    rw [failsWith_error_iff, hfault]
    exact iff_of_false nofun fun h => h.1 hmisplaced
  | badArgument hright hbad hfault =>
    rw [failsWith_error_iff, hfault]
    exact iff_of_true rfl ⟨hright, hbad⟩
  | accepted a _ hgood => exact iff_of_false not_failsWith_ok fun h => hgood h.2

/-- An operation is carried out exactly where neither condition holds. -/
theorem exists_ok_iff (hr : Ruling misplaced bad result) :
    (∃ a, result = .ok a) ↔ ¬ misplaced ∧ ¬ bad := by
  cases hr with
  | outOfPlace hmisplaced _ => exact iff_of_false nofun fun h => h.1 hmisplaced
  | badArgument _ hbad _ => exact iff_of_false nofun fun h => h.2 hbad
  | accepted a hright hgood => exact iff_of_true ⟨a, rfl⟩ ⟨hright, hgood⟩

end Ruling

/-! ## What makes a command fail -/

namespace Hierarchy

variable {h : Hierarchy η} {node parent target k : Key}

/-- Both containers are there, and the first one does not hold containers of the kind of the
second. -/
def Misfit (h : Hierarchy η) (parent node : Key) : Prop :=
  ∃ a b, h.kindOf parent = some a ∧ h.kindOf node = some b ∧ ¬ a.canContain b

/-- The container that the command is about is not there, or not in a state for it. -/
def OutOfPlace (h : Hierarchy η) : Command η → Prop
  | .createDisplay _ _ | .createDefaultDisplay _ | .createStack | .createTask _ _
  | .createActivity _ => False
  | .setHook node _ | .reparent node _ _ _ | .remove node | .removeNow node | .setBounds node _
  | .setOverride node _ => ¬ h.contains node
  | .attach node _ _ => ¬ h.contains node ∨ h.forest.parent node ≠ none
  | .detach node => ¬ h.contains node ∨ h.forest.parent node ≠ none ∧ h.isPending node
  | .position node _ => ¬ h.contains node ∨ h.forest.parent node = none
  | .setMode node mode =>
    ¬ h.contains node ∨ mode = .freeform ∧ ¬ h.settings.freeformEnabled

/-- The command names something that it cannot be carried out with. -/
def BadArgument (h : Hierarchy η) : Command η → Prop
  | .createDisplay id _ | .createDefaultDisplay id => ∃ k, h.kindOf k = some (.display id)
  | .createTask id _ => ∃ k user, h.kindOf k = some (.task id user)
  | .attach node parent _ => ¬ h.contains parent ∨ h.Misfit parent node
  | .reparent node target _ _ =>
    ¬ h.contains target ∨ h.forest.parent node = some target ∨ h.displayOf target = none ∨
      h.Misfit target node
  | .createStack | .createActivity _ | .setHook _ _ | .detach _ | .position _ _ | .remove _
  | .removeNow _ | .setBounds _ _ | .setOverride _ _ | .setMode _ _ => False

/-- The outcome of an operation is as the two conditions decide it, and nothing comes of it if it is
refused. -/
structure Judged (h : Hierarchy η) (misplaced bad : Prop) (o : Outcome η α) : Prop where
  ruling : Ruling misplaced bad o.result
  refused : ∀ e, o.result = .error e → o = h.refuse e

namespace Judged

variable {misplaced bad : Prop}

/-- What is made of an answer makes no difference to the judgement. -/
theorem map {o : Outcome η α} (hj : h.Judged misplaced bad o) (g : α → β) :
    h.Judged misplaced bad (o.map g) where
  ruling := hj.ruling.map g
  refused e he := by
    obtain ⟨hierarchy, result, calls⟩ := o
    cases result with
    | error e' =>
      obtain rfl : e' = e := Except.error.inj he
      have heq : (⟨hierarchy, .error e', calls⟩ : Outcome η α) = h.refuse e' := hj.refused e' rfl
      rw [heq]
      rfl
    | ok a => cases he

/-- An operation that is refused is judged by the verdict on it. -/
theorem refuse {e : Error} (hr : Ruling misplaced bad (.error e : Except Error α)) :
    h.Judged misplaced bad (h.refuse e : Outcome η α) where
  ruling := hr
  refused e' he := by rw [Except.error.inj he]

/-- An operation that is carried out where neither condition holds is judged right. -/
theorem carriedOut {o : Outcome η α} (hright : ¬ misplaced) (hgood : ¬ bad)
    (ho : ∃ a, o.result = .ok a) : h.Judged misplaced bad o := by
  obtain ⟨a, ha⟩ := ho
  refine ⟨?_, ?_⟩
  · rw [ha]
    exact .accepted a hright hgood
  · intro e he
    rw [ha] at he
    cases he

/-- What is carried out whenever its check passes is judged by the check. -/
theorem guarded {check : Except Error Unit} {act : Outcome η α}
    (hr : Ruling misplaced bad check) (hact : ∃ a, act.result = .ok a) :
    h.Judged misplaced bad (h.guarded check act) := by
  cases hr with
  | outOfPlace hmisplaced hfault => exact refuse (.outOfPlace hmisplaced hfault)
  | badArgument hright hbad hfault => exact refuse (.badArgument hright hbad hfault)
  | accepted _ hright hgood => exact carriedOut hright hgood hact

end Judged

/-! ## The checks -/

/-- Whether a container is there decides on the check that it is. -/
theorem ruling_checkLive : Ruling (¬ h.contains node) False (h.checkLive node) := by
  by_cases hnode : h.contains node
  · rw [checkLive_of_contains hnode]
    exact .accepted () (not_not.2 hnode) id
  · rw [checkLive_of_not_contains hnode]
    exact .outOfPlace hnode rfl

/-- What is checked only of containers that are there. -/
theorem ruling_live {misplaced bad : Prop} {rest : Except Error Unit}
    (hlive : h.contains node → Ruling misplaced bad rest) :
    Ruling (¬ h.contains node ∨ misplaced) bad
      (match h.checkLive node with
        | .error e => .error e
        | .ok () => rest) := by
  by_cases hnode : h.contains node
  · rw [checkLive_of_contains hnode]
    exact (hlive hnode).congr (by simp [hnode]) Iff.rfl
  · rw [checkLive_of_not_contains hnode]
    exact .outOfPlace (.inl hnode) rfl

/-- A mode is out of place on a container that is gone, and the freeform one also where it is
disabled. -/
theorem ruling_checkMode {mode : Mode} :
    Ruling (¬ h.contains node ∨ mode = .freeform ∧ ¬ h.settings.freeformEnabled) False
      (h.checkMode node mode) := by
  unfold checkMode
  by_cases hfree : mode = .freeform ∧ ¬ h.settings.freeformEnabled
  · rw [if_pos hfree]
    exact .outOfPlace (.inr hfree) rfl
  · rw [if_neg hfree]
    exact ruling_checkLive.congr (by simp only [hfree, or_false]) Iff.rfl

/-- Detaching is out of place for a container that is gone, and for one that waits under its parent
to be removed. -/
theorem ruling_checkDetach :
    Ruling (¬ h.contains node ∨ h.forest.parent node ≠ none ∧ h.isPending node) False
      (h.checkDetach node) := by
  apply ruling_live
  intro _
  cases hp : h.forest.parent node with
  | none => exact .accepted () (fun hboth => hboth.1 rfl) id
  | some parent =>
    by_cases hpending : h.isPending node
    · simp only [if_pos hpending]
      exact .outOfPlace ⟨nofun, hpending⟩ rfl
    · simp only [if_neg hpending]
      exact .accepted () (fun hboth => hpending hboth.2) id

/-- Positioning is out of place for a container that is gone or has no parent. -/
theorem ruling_checkPosition :
    Ruling (¬ h.contains node ∨ h.forest.parent node = none) False (h.checkPosition node) := by
  apply ruling_live
  intro _
  by_cases hp : h.forest.parent node = none
  · rw [if_pos hp]
    exact .outOfPlace hp rfl
  · rw [if_neg hp]
    exact .accepted () hp id

namespace Arranged

variable (ha : h.Arranged)

include ha

/-- Levels do not go up on the way down. -/
theorem depth_le_of_within {a b : Key} (hw : h.forest.Within a b) {kind kind' : Kind}
    (hkind : h.kindOf a = some kind) (hkind' : h.kindOf b = some kind') :
    kind.depth ≤ kind'.depth := by
  induction hw generalizing kind' with
  | refl =>
    obtain rfl := Option.mem_unique hkind hkind'
    exact le_rfl
  | @tail p c _ hp ih =>
    obtain ⟨x, y, hx, hy, hxy⟩ := ha.fits c p hp
    obtain rfl := Option.mem_unique hy hkind'
    have hdepth := Kind.canContain_iff.1 hxy
    have hle := ih hx
    omega

/-- Whatever may hold a container by its kind does not lie below that container. -/
theorem apart_of_canContain {a b : Kind} (hparent : h.kindOf parent = some a)
    (hnode : h.kindOf node = some b) (hab : a.canContain b) :
    ¬ h.forest.isAncestor node parent := by
  intro habove
  have hw := (ha.wellFormed.rooted.isAncestor_iff.1 habove).2
  have hle := ha.depth_le_of_within hw hnode hparent
  have hdepth := Kind.canContain_iff.1 hab
  omega

/-- A placement has a bad argument where the parent is gone or does not hold containers of the kind.
-/
theorem ruling_checkPlacement (hnode : h.contains node) :
    Ruling False (¬ h.contains parent ∨ h.Misfit parent node) (h.checkPlacement node parent) := by
  obtain ⟨b, hb⟩ := Option.isSome_iff_exists.1 (isSome_kindOf.2 hnode)
  unfold checkPlacement
  cases hparent : h.kindOf parent with
  | none =>
    have hdead : ¬ h.contains parent := by simp [← isSome_kindOf, hparent]
    exact .badArgument id (.inl hdead) rfl
  | some a =>
    have hlive : h.contains parent := isSome_kindOf.1 (by simp [hparent])
    by_cases habove : h.forest.isAncestor node parent
    · -- This check comes before that of the kinds, which would have failed as well.
      have hmisfit : h.Misfit parent node :=
        ⟨a, b, hparent, hb, fun hab => ha.apart_of_canContain hparent hb hab habove⟩
      simp only [if_pos habove]
      exact .badArgument id (.inr hmisfit) rfl
    · simp only [if_neg habove, hb]
      by_cases hab : a.canContain b
      · simp only [if_pos hab]
        refine .accepted () id ?_
        rintro (hdead | ⟨a', b', ha', hb', hmisfit⟩)
        · exact hdead hlive
        · obtain rfl := Option.mem_unique hparent ha'
          obtain rfl := Option.mem_unique hb hb'
          exact hmisfit hab
      · simp only [if_neg hab]
        exact .badArgument id (.inr ⟨a, b, hparent, hb, hab⟩) rfl

/-- Attaching is out of place for a container that is gone or has a parent. -/
theorem ruling_checkAttach :
    Ruling (¬ h.contains node ∨ h.forest.parent node ≠ none)
      (¬ h.contains parent ∨ h.Misfit parent node) (h.checkAttach node parent) := by
  apply ruling_live
  intro hnode
  cases hp : h.forest.parent node with
  | none => exact (ha.ruling_checkPlacement hnode).congr (by simp) Iff.rfl
  | some current => exact .outOfPlace nofun rfl

/-- Reparenting has a bad argument where the target is gone, is the parent already, is on no
display, or does not hold containers of the kind. -/
theorem ruling_checkReparent :
    Ruling (¬ h.contains node)
      (¬ h.contains target ∨ h.forest.parent node = some target ∨ h.displayOf target = none ∨
        h.Misfit target node) (h.checkReparent node target) := by
  rw [← or_false (¬ _)]
  apply ruling_live
  intro hnode
  by_cases htarget : h.contains target
  · rw [if_neg (not_not.2 htarget)]
    by_cases hp : h.forest.parent node = some target
    · rw [if_pos hp]
      exact .badArgument id (.inr (.inl hp)) rfl
    · rw [if_neg hp]
      by_cases hdisplay : h.displayOf target = none
      · rw [if_pos hdisplay]
        exact .badArgument id (.inr (.inr (.inl hdisplay))) rfl
      · rw [if_neg hdisplay]
        exact (ha.ruling_checkPlacement hnode).congr Iff.rfl (by simp [htarget, hp, hdisplay])
  · rw [if_pos htarget]
    exact .badArgument id (.inl htarget) rfl

end Arranged

/-! ## The commands -/

namespace InOrder

variable (ho : h.InOrder)

include ho

/-- A number is listed among the displays if there is a display with it. -/
theorem mem_displays_iff {id : DisplayId} :
    id ∈ h.records.displays ↔ ∃ k, h.kindOf k = some (.display id) := by
  rw [Std.ExtTreeMap.mem_iff_isSome_getElem?, Option.isSome_iff_exists]
  exact exists_congr fun k => ho.display?_eq_some_iff

/-- A number is listed among the tasks if there is a task with it. -/
theorem mem_tasks_iff {id : TaskId} :
    id ∈ h.records.tasks ↔ ∃ k user, h.kindOf k = some (.task id user) := by
  rw [Std.ExtTreeMap.mem_iff_isSome_getElem?, Option.isSome_iff_exists]
  exact exists_congr fun k => ho.task?_eq_some_iff

/-- Creating a display has a bad argument where its number is taken. -/
theorem judged_createDisplay (id : DisplayId) (bounds : Rect) :
    h.Judged False (∃ k, h.kindOf k = some (.display id)) (h.createDisplay id bounds) := by
  rw [← ho.mem_displays_iff]
  unfold createDisplay
  by_cases htaken : id ∈ h.records.displays
  · rw [if_pos htaken]
    exact .refuse (.badArgument not_false htaken rfl)
  · rw [if_neg htaken]
    exact .carriedOut not_false htaken ⟨_, rfl⟩

/-- Creating a task has a bad argument where its number is taken. -/
theorem judged_createTask (id : TaskId) (user : UserId) :
    h.Judged False (∃ k user, h.kindOf k = some (.task id user)) (h.createTask id user) := by
  rw [← ho.mem_tasks_iff]
  unfold createTask
  by_cases htaken : id ∈ h.records.tasks
  · rw [if_pos htaken]
    exact .refuse (.badArgument not_false htaken rfl)
  · rw [if_neg htaken]
    exact .carriedOut not_false htaken ⟨_, rfl⟩

omit ho in
/-- Detaching is judged by its check. -/
theorem judged_detach (node : Key) :
    h.Judged (¬ h.contains node ∨ h.forest.parent node ≠ none ∧ h.isPending node) False
      (h.detach node) := by
  refine .guarded ruling_checkDetach ?_
  cases h.forest.parent node with
  | none => exact ⟨(), rfl⟩
  | some parent => exact ⟨(), rfl⟩

omit ho in
/-- Positioning is judged by its check. -/
theorem judged_position (node : Key) (pos : Nat) :
    h.Judged (¬ h.contains node ∨ h.forest.parent node = none) False (h.position node pos) := by
  refine .guarded ruling_checkPosition ?_
  cases h.forest.parent node with
  | none => exact ⟨(), rfl⟩
  | some parent => exact ⟨(), rfl⟩

omit ho in
/-- Removing is out of place for a container that is gone. -/
theorem judged_remove [Hook η] (node : Key) :
    h.Judged (¬ h.contains node) False (h.remove node) := by
  refine .guarded ruling_checkLive ?_
  dsimp only
  split
  · exact ⟨.deferred, rfl⟩
  · exact ⟨.removed, rfl⟩

/-- The two conditions decide on every command. -/
theorem judged_apply [Hook η] (c : Command η) :
    h.Judged (h.OutOfPlace c) (h.BadArgument c) (h.apply c) := by
  have ha := ho.arranged
  cases c with
  | createDisplay id bounds => exact (ho.judged_createDisplay id bounds).map _
  | createDefaultDisplay id => exact (ho.judged_createDisplay id _).map _
  | createStack => exact .carriedOut id id ⟨_, rfl⟩
  | createTask id user => exact (ho.judged_createTask id user).map _
  | createActivity name => exact .carriedOut id id ⟨_, rfl⟩
  | setHook node hook => exact (Judged.guarded ruling_checkLive ⟨(), rfl⟩).map _
  | attach node parent pos => exact (Judged.guarded ha.ruling_checkAttach ⟨(), rfl⟩).map _
  | detach node => exact (judged_detach node).map _
  | reparent node target pos activate =>
    exact (Judged.guarded ha.ruling_checkReparent ⟨(), rfl⟩).map _
  | position node pos => exact (judged_position node pos).map _
  | remove node => exact (judged_remove node).map _
  | removeNow node => exact (Judged.guarded ruling_checkLive ⟨(), rfl⟩).map _
  | setBounds node bounds => exact (Judged.guarded ruling_checkLive ⟨(), rfl⟩).map _
  | setOverride node bounds => exact (Judged.guarded ruling_checkLive ⟨(), rfl⟩).map _
  | setMode node mode => exact (Judged.guarded ruling_checkMode ⟨(), rfl⟩).map _

end InOrder

/-- Every command fails if and only if it has to, for the right fault, and then without a trace. -/
structure Verdicts [Hook η] (h : Hierarchy η) : Prop where
  outOfPlace : ∀ c, FailsWith .invalidOperation (h.apply c).result ↔ h.OutOfPlace c
  badArgument : ∀ c,
    FailsWith .invalidArgument (h.apply c).result ↔ ¬ h.OutOfPlace c ∧ h.BadArgument c
  carriedOut : ∀ c, (∃ a, (h.apply c).result = .ok a) ↔ ¬ h.OutOfPlace c ∧ ¬ h.BadArgument c
  /-- A refused command changes nothing and calls no hook. -/
  refused : ∀ c e, (h.apply c).result = .error e →
    (h.apply c).hierarchy = h ∧ (h.apply c).calls = []
  /-- No container that may hold another one by its kind lies below that one. -/
  apart : ∀ node target a b, h.kindOf target = some a → h.kindOf node = some b →
    a.canContain b → ¬ h.forest.isAncestor node target

/-- In a hierarchy in order every command is judged by its conditions. -/
theorem verdicts_of_inOrder [Hook η] (ho : h.InOrder) : h.Verdicts where
  outOfPlace c := (ho.judged_apply c).ruling.failsWith_invalidOperation_iff
  badArgument c := (ho.judged_apply c).ruling.failsWith_invalidArgument_iff
  carriedOut c := (ho.judged_apply c).ruling.exists_ok_iff
  refused c e he := by
    rw [(ho.judged_apply c).refused e he]
    exact ⟨rfl, rfl⟩
  apart _ _ _ _ := ho.arranged.apart_of_canContain

/-- Whatever commands were given before, the next one is refused exactly where it has to be. -/
theorem Reachable.verdicts [Hook η] {settings : Settings} (hr : Reachable settings h) :
    h.Verdicts :=
  verdicts_of_inOrder hr.inOrder

/-- The stack cannot go into the task that it holds, because tasks hold no stacks. -/
theorem verdicts_furnished :
    Reachable {} furnished ∧ furnished.Verdicts ∧
      (furnished.apply (.reparent ⟨3, 1⟩ ⟨4, 1⟩ 0 false)).result =
        .error (.ownSubtree ⟨3, 1⟩) ∧
      furnished.Misfit ⟨4, 1⟩ ⟨3, 1⟩ ∧
      (furnished.apply (.attach ⟨4, 1⟩ ⟨9, 1⟩ 0)).result =
        .error (.attachedAlready ⟨4, 1⟩ ⟨3, 1⟩) := by
  have hr := reachable_furnished
  have hmisfit : furnished.Misfit ⟨4, 1⟩ ⟨3, 1⟩ :=
    ⟨.task ⟨7⟩ ⟨0⟩, .stack, by decide, by decide, by decide⟩
  exact ⟨hr, hr.verdicts, by decide, hmisfit, by decide⟩

end Hierarchy

end WindowForest
