import WindowForest.Proofs.Hierarchy.Bounds
import WindowForest.Proofs.Hierarchy.Effect

/-!
# What the settings promise

Settings are checked once, before there is any hierarchy (`Settings.issues`), and never
again. What the check buys is that freeform windowing stays away where it is disabled.
There are two ways in for it. The command that sets a mode is guarded. The creation of a
display is not, and relies on the settings having no issues. Every other container starts
without a mode of its own, so the invariant is about the modes that are set
(`InOrder.requestedModeOf_apply`). The modes in effect are found among those.
-/

set_option autoImplicit false

namespace WindowForest

/-! ## Settings without issues -/

namespace Settings

/-- The settings can be kept: the sizes are positive, the default mode is one that a display can
have, and it is not the one that is disabled. -/
structure Usable (s : Settings) : Prop where
  width : 0 < s.defaultWidth
  height : 0 < s.defaultHeight
  defined : s.defaultMode ≠ .undefined
  enabled : ¬ (s.defaultMode = .freeform ∧ s.freeformEnabled = false)

/-- There are no issues with settings exactly if they are usable. -/
theorem issues_eq_nil_iff_usable {s : Settings} : s.issues = [] ↔ s.Usable := by
  have hsize : ¬ (s.defaultWidth ≤ 0 ∨ s.defaultHeight ≤ 0) ↔
      0 < s.defaultWidth ∧ 0 < s.defaultHeight := by
    rw [not_or, Int32.not_le, Int32.not_le]
  have hissues : s.issues = [] ↔ ¬ (s.defaultWidth ≤ 0 ∨ s.defaultHeight ≤ 0) ∧
      s.defaultMode ≠ .undefined ∧ ¬ (s.defaultMode = .freeform ∧ s.freeformEnabled = false) := by
    simp [issues, Mode.isUndefined, and_assoc]
  rw [hissues, hsize]
  constructor
  · rintro ⟨⟨hwidth, hheight⟩, hdefined, henabled⟩
    exact ⟨hwidth, hheight, hdefined, henabled⟩
  · rintro ⟨hwidth, hheight, hdefined, henabled⟩
    exact ⟨⟨hwidth, hheight⟩, hdefined, henabled⟩

namespace Usable

variable {s : Settings} (hs : s.Usable)

include hs

/-- The default bounds have an inside. -/
theorem defaultBounds_not_isEmpty : ¬ s.defaultBounds.isEmpty := by
  have hwidth : ¬ s.defaultWidth ≤ 0 := Int32.not_le.2 hs.width
  have hheight : ¬ s.defaultHeight ≤ 0 := Int32.not_le.2 hs.height
  simp [defaultBounds, Rect.ofSize, Rect.isEmpty, hwidth, hheight]

/-- If displays start in the freeform mode, it is enabled. -/
theorem freeformEnabled_of_default (hmode : s.defaultMode = .freeform) :
    s.freeformEnabled = true := by
  by_contra hoff
  exact hs.enabled ⟨hmode, Bool.eq_false_of_not_eq_true hoff⟩

end Usable

end Settings

/-- Of all commands, only the one that sets a mode changes the mode that is asked for. -/
theorem Command.requestedMode_revise {η : Type} (c : Command η) (a : Answer) (r : Container) :
    (c.revise a r).requestedMode = r.requestedMode ∨
      ∃ node, c = .setMode node (c.revise a r).requestedMode := by
  cases c with
  | setMode node mode => exact .inr ⟨node, rfl⟩
  | remove node => cases a <;> exact .inl rfl
  | _ => exact .inl rfl

namespace Hierarchy

variable {η : Type} {h h' : Hierarchy η} {k : Key} {c : Command η} {a : Answer}

/-! ## The settings stay -/

/-- No alteration changes the settings. -/
theorem settings_altered (halt : h.Altered h') : h'.settings = h.settings := by
  induction halt with
  | refl => rfl
  | tail _ halt ih =>
    rw [← ih]
    cases halt <;> rfl

/-- A hierarchy keeps the settings that it started with. -/
theorem Reachable.settings_eq [Hook η] {settings : Settings} (hr : Reachable settings h) :
    h.settings = settings := by
  induction hr with
  | empty => rfl
  | step c _ ih => exact (settings_altered (altered_apply _ c)).trans ih

/-! ## New containers -/

/-- A new container asks for what its record says. -/
theorem requestOf_create (h : Hierarchy η) (r : Container) :
    (h.create r).requestOf h.forest.nextKey = some r.request := by
  rw [requestOf, container?_create, if_pos rfl]
  rfl

/-- A new container asks for the mode in its record. -/
theorem requestedModeOf_create (h : Hierarchy η) (r : Container) :
    (h.create r).requestedModeOf h.forest.nextKey = some r.requestedMode := by
  rw [requestedModeOf_eq_map_requestOf, requestOf_create]
  rfl

/-- What a new display asks for. -/
theorem requestOf_createDisplay {id : DisplayId} {bounds : Rect}
    (hk : (h.createDisplay id bounds).result = .ok k) :
    (h.createDisplay id bounds).hierarchy.requestOf k =
      some { kind := .display id, requestedMode := h.settings.defaultMode,
             requestedBounds := bounds } := by
  obtain ⟨rfl, hsame⟩ := createDisplay_of_ok hk
  rw [hsame, requestOf_layOut, requestOf_create]
  rfl

/-- A new display asks for the default mode. -/
theorem requestedModeOf_createDisplay {id : DisplayId} {bounds : Rect}
    (hk : (h.createDisplay id bounds).result = .ok k) :
    (h.createDisplay id bounds).hierarchy.requestedModeOf k = some h.settings.defaultMode := by
  rw [requestedModeOf_eq_map_requestOf, requestOf_createDisplay hk]
  rfl

/-- A new task asks for no mode of its own. -/
theorem requestedModeOf_createTask {id : TaskId} {user : UserId}
    (hk : (h.createTask id user).result = .ok k) :
    (h.createTask id user).hierarchy.requestedModeOf k = some .undefined := by
  obtain ⟨rfl, hsame⟩ := createTask_of_ok hk
  rw [hsame, requestedModeOf_create]

variable [Hook η]

/-- A new container has no mode of its own, or the default mode if it is a display. -/
theorem requestedModeOf_created (hk : (h.apply c).result = .ok (.created k)) :
    (h.apply c).hierarchy.requestedModeOf k = some .undefined ∨
      (h.apply c).hierarchy.requestedModeOf k = some h.settings.defaultMode := by
  have hnode : c.node? = none := by
    have heffect := effect_apply hk
    generalize (h.apply c).hierarchy = h' at heffect
    cases heffect with
    | created hnode _ => exact hnode
  cases c with
  | createDisplay id bounds =>
    exact .inr (requestedModeOf_createDisplay (result_of_map_created hk))
  | createDefaultDisplay id =>
    exact .inr (requestedModeOf_createDisplay (result_of_map_created hk))
  | createStack =>
    obtain rfl : h.forest.nextKey = k := Except.ok.inj (result_of_map_created hk)
    exact .inl (requestedModeOf_create h { kind := .stack })
  | createTask id user =>
    exact .inl (requestedModeOf_createTask (result_of_map_created hk))
  | createActivity name =>
    obtain rfl : h.forest.nextKey = k := Except.ok.inj (result_of_map_created hk)
    exact .inl (requestedModeOf_create h { kind := .activity name })
  | _ => cases hnode

/-! ## Where modes come from -/

namespace InOrder

variable (ho : h.InOrder)

include ho

/-- The freeform mode can be set only if it is enabled. -/
theorem enabled_of_setMode {node : Key}
    (hok : (h.apply (.setMode node .freeform)).result = .ok a) :
    h.settings.freeformEnabled = true := by
  have hright := ((ho.judged_apply (.setMode node .freeform)).ruling.exists_ok_iff.1 ⟨a, hok⟩).1
  by_contra hoff
  exact hright (.inr ⟨rfl, hoff⟩)

/-- The mode that is set on a container was set on it before, or the command sets it, or the
container is new. -/
theorem requestedModeOf_apply (c : Command η) {m : Mode}
    (hm : (h.apply c).hierarchy.requestedModeOf k = some m) :
    h.requestedModeOf k = some m ∨ (∃ node a, c = .setMode node m ∧ (h.apply c).result = .ok a) ∨
      m = .undefined ∨ m = h.settings.defaultMode := by
  rcases ho.effect_or_refused c with ⟨a, hok, heffect⟩ | ⟨-, hsame⟩
  swap
  · rw [hsame] at hm
    exact .inl hm
  have hlive' : (h.apply c).hierarchy.contains k := by
    obtain ⟨r, hr, -⟩ := Option.map_eq_some_iff.1 hm
    rw [contains_iff, hr]
    rfl
  rcases ho.arranged.contains_of_effect (ho.apply c).arranged heffect hlive' with hlive | rfl
  · have hrequest := ho.arranged.requestOf_effect heffect hlive hlive'
    rw [requestedModeOf_eq_map_requestOf] at hm ⊢
    by_cases hnode : c.node? = some k
    · -- Of the commands about this container, only the setter touches its mode.
      rw [if_pos hnode] at hrequest
      rw [hrequest, Option.map_map] at hm
      obtain ⟨r, hr, hmode⟩ := Option.map_eq_some_iff.1 hm
      rcases c.requestedMode_revise a r with hkept | ⟨node, hc⟩
      · refine .inl ?_
        rw [hr, Option.map_some, ← hkept]
        exact congrArg some hmode
      · rw [show (c.revise a r).requestedMode = m from hmode] at hc
        exact .inr (.inl ⟨node, a, hc, hok⟩)
    · rw [if_neg hnode] at hrequest
      exact .inl (hrequest ▸ hm)
  · rcases requestedModeOf_created hok with hnew | hnew
    · exact .inr (.inr (.inl (Option.mem_unique hm hnew)))
    · exact .inr (.inr (.inr (Option.mem_unique hm hnew)))

end InOrder

/-- Under usable settings, freeform windowing is asked for only where it is enabled. -/
theorem Reachable.enabled_of_requested {settings : Settings} (hr : Reachable settings h)
    (hs : settings.Usable) (hk : h.requestedModeOf k = some .freeform) :
    settings.freeformEnabled = true := by
  induction hr generalizing k with
  | empty =>
    obtain ⟨r, hnone, -⟩ := Option.map_eq_some_iff.1 hk
    rw [show (Hierarchy.empty settings : Hierarchy η).container? k = none from
      Std.ExtTreeMap.getElem?_empty] at hnone
    cases hnone
  | @step h c hr ih =>
    rcases hr.inOrder.requestedModeOf_apply c hk with hold | ⟨node, a, rfl, hok⟩ | hmode | hmode
    · exact ih hold
    · exact hr.settings_eq ▸ hr.inOrder.enabled_of_setMode hok
    · cases hmode
    · rw [hr.settings_eq] at hmode
      exact hs.freeformEnabled_of_default hmode.symm

/-- Freeform windowing is in effect only where it is enabled. -/
theorem Reachable.enabled_of_modeOf {settings : Settings} (hr : Reachable settings h)
    (hs : settings.Usable) (hk : h.modeOf k = some .freeform) :
    settings.freeformEnabled = true := by
  have hlive : h.contains k := by
    by_contra hdead
    rw [modeOf, if_neg hdead] at hk
    cases hk
  obtain ⟨m, hm, hchain⟩ := hr.arranged.modeOf_from_chain ((hr.arranged.live_iff k).1 hlive)
  obtain rfl : m = .freeform := Option.mem_unique hm hk
  -- The mode in effect is set on an ancestor, or it is fullscreen because none is set.
  rcases hchain with ⟨a, -, hrequested⟩ | ⟨-, hfullscreen⟩
  · exact hr.enabled_of_requested hs hrequested
  · cases hfullscreen

/-! ## Displays of the default size -/

/-- A display of the default size, as it is when it has just been created. -/
structure DefaultDisplay (h : Hierarchy η) (settings : Settings) (id : DisplayId) (k : Key) :
    Prop where
  kind : h.kindOf k = some (.display id)
  mode : h.modeOf k = some settings.defaultMode
  /-- The bounds in effect have an inside, and start at the origin. -/
  bounds : ∃ b, h.boundsOf k = some b ∧ ¬ b.isEmpty ∧ b.topLeft = ⟨0, 0⟩

/-- Under usable settings, a display that is created without bounds is as the settings say. -/
theorem Reachable.defaultDisplay {settings : Settings} (hr : Reachable settings h)
    (hs : settings.Usable) {id : DisplayId}
    (hk : (h.apply (.createDefaultDisplay id)).result = .ok (.created k)) :
    (h.apply (.createDefaultDisplay id)).hierarchy.DefaultDisplay settings id k := by
  have hr' : Reachable settings (h.apply (.createDefaultDisplay id)).hierarchy := hr.step _
  have hnewborn := hr.inOrder.newborn hr'.inOrder (bears_of_created hk)
  have hrequest : (h.apply (.createDefaultDisplay id)).hierarchy.requestOf k =
      some { kind := .display id, requestedMode := h.settings.defaultMode,
             requestedBounds := h.settings.defaultBounds } :=
    requestOf_createDisplay (result_of_map_created hk)
  generalize (h.apply (.createDefaultDisplay id)).hierarchy = h' at hr' hrequest hnewborn ⊢
  rw [hr.settings_eq] at hrequest
  obtain ⟨r, hr₀, hfields⟩ := Option.map_eq_some_iff.1 hrequest
  have hkind : r.kind = .display id := (congrArg Container.kind hfields :)
  have hmode : r.requestedMode = settings.defaultMode :=
    (congrArg Container.requestedMode hfields :)
  have hbounds : r.requestedBounds = settings.defaultBounds :=
    (congrArg Container.requestedBounds hfields :)
  refine ⟨?_, ?_, settings.defaultBounds, ?_, hs.defaultBounds_not_isEmpty, rfl⟩
  · rw [kindOf_of_container? hr₀, hkind]
  · rw [hr'.arranged.modeOf_of_own hr₀ (hmode ▸ hs.defined), hmode]
  · rw [boundsOf, hr₀, Option.map_some, bounds_of_root (hr'.settled k) hr₀ hnewborn.parent, hbounds]

/-! ## Settings that are kept -/

/-- What a hierarchy has to do to keep to its settings. -/
structure Keeps (h : Hierarchy η) (settings : Settings) : Prop where
  /-- A display that is created without bounds is in the default mode, and not empty. -/
  display : ∀ id k, (h.apply (.createDefaultDisplay id)).result = .ok (.created k) →
    (h.apply (.createDefaultDisplay id)).hierarchy.DefaultDisplay settings id k
  /-- No container asks for a mode that is disabled. -/
  requested : settings.freeformEnabled = false → ∀ k c, h.container? k = some c →
    c.requestedMode ≠ .freeform
  /-- No container is in a mode that is disabled. -/
  resolved : settings.freeformEnabled = false → ∀ k, h.modeOf k ≠ some .freeform

/-- Settings have no issues exactly if they are usable, and whatever commands are given under such
settings, they are kept. -/
theorem settings_kept (settings : Settings) :
    (settings.issues = [] ↔ settings.Usable) ∧
      (settings.issues = [] → ∀ h : Hierarchy η, Reachable settings h → h.Keeps settings) := by
  refine ⟨Settings.issues_eq_nil_iff_usable, ?_⟩
  intro hissues h hr
  have hs := Settings.issues_eq_nil_iff_usable.1 hissues
  refine ⟨fun id k hk => hr.defaultDisplay hs hk, ?_, ?_⟩
  · intro hoff k c hc hmode
    have hrequested : h.requestedModeOf k = some .freeform := by
      rw [requestedModeOf_of_container hc, hmode]
    exact Bool.false_ne_true (hoff.symm.trans (hr.enabled_of_requested hs hrequested))
  · intro hoff k hmode
    exact Bool.false_ne_true (hoff.symm.trans (hr.enabled_of_modeOf hs hmode))

/-- Where the default mode is pinned and freeform windowing is disabled, a stack is refused the
freeform mode, and is pinned as soon as it comes under a display. -/
theorem settings_kept_pinned :
    let settings : Settings := { defaultMode := .pinned, freeformEnabled := false }
    let h : Hierarchy Voter := (empty settings).run
      [.createDefaultDisplay ⟨0⟩, .createStack, .setMode ⟨2, 1⟩ .freeform,
        .attach ⟨2, 1⟩ ⟨1, 1⟩ 0]
    settings.issues = [] ∧ Reachable settings h ∧ h.Keeps settings ∧
      (h.apply (.setMode ⟨2, 1⟩ .freeform)).result = .error .freeformDisabled ∧
      h.modeOf ⟨2, 1⟩ = some .pinned ∧
      (h.apply (.createDefaultDisplay ⟨1⟩)).result = .ok (.created ⟨3, 1⟩) := by
  intro settings h
  have hissues : settings.issues = [] := by decide
  have hr : Reachable settings h := Reachable.empty.run _
  exact ⟨hissues, hr, (settings_kept settings).2 hissues h hr, by decide, by decide, by decide⟩

end Hierarchy

end WindowForest
