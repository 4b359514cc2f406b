import WindowForest.Proofs.Hierarchy.Determined
import WindowForest.Proofs.Hierarchy.Effect
import WindowForest.Proofs.Hierarchy.Signals

/-!
# Building and configuring

Four commands put a hierarchy together: containers are attached, and bounds, modes and
override rectangles are set. Such a command is refused, or it does one of three things to
what determines a hierarchy (`Built`): it moves a root under a parent, it changes what is
asked of one container, or neither. All that it looks at is whether containers are there,
of what kinds they are, and whether the attached one has a parent, so one building command
can change the verdict on another one only if both attach the same container.

None of them takes a container from a display. So over any number of building commands a
hook is called at most once for a new display, and whether it is can be seen from the
displays in the beginning and in the end (`Reachable.arrivals_build`).
-/

set_option autoImplicit false

namespace WindowForest

variable {η α : Type}

/-! ## The commands -/

/-- The commands by which hierarchies are put together and configured. -/
inductive Command.Builds : Command η → Prop
  | attach (node parent : Key) (pos : Nat) : Builds (.attach node parent pos)
  | setBounds (node : Key) (bounds : Rect) : Builds (.setBounds node bounds)
  | setMode (node : Key) (mode : Mode) : Builds (.setMode node mode)
  | setOverride (node : Key) (bounds : Option Rect) : Builds (.setOverride node bounds)

/-- Two building commands get in each other's way: they attach the same container or attach to the
same parent, or they set the same thing of the same container. -/
def Command.Conflicts : Command η → Command η → Prop
  | .attach node parent _, .attach node' parent' _ => node = node' ∨ parent = parent'
  | .setBounds node _, .setBounds node' _ => node = node'
  | .setMode node _, .setMode node' _ => node = node'
  | .setOverride node _, .setOverride node' _ => node = node'
  | _, _ => False

/-- Commands get in each other's way both or neither. -/
theorem Command.not_conflicts_symm {c d : Command η} (hfree : ¬ c.Conflicts d) :
    ¬ d.Conflicts c := by
  intro hconflict
  apply hfree
  cases d <;> cases c <;> first
    | exact hconflict.elim
    | exact Or.imp Eq.symm Eq.symm hconflict
    | exact Eq.symm hconflict

/-- What a building command makes of the links. -/
def Command.relink : Command η → Forest → Forest
  | .attach node parent pos, f => f.move node parent pos
  | _, f => f

/-- A building command makes no key live and none dead. -/
theorem Command.mem_relink {c : Command η} {f : Forest} {k : Key} : k ∈ c.relink f ↔ k ∈ f := by
  cases c with
  | attach node parent pos => exact Forest.mem_move
  | _ => exact Iff.rfl

/-- The sort of error that an operation was refused with, if it was. -/
def faultOf : Except Error α → Option Fault
  | .ok _ => none
  | .error e => some e.fault

/-- The verdict is the same where the two conditions that decide it are. -/
theorem Ruling.faultOf_eq {misplaced bad : Prop} {result result' : Except Error α}
    (hr : Ruling misplaced bad result) (hr' : Ruling misplaced bad result') :
    faultOf result = faultOf result' := by
  cases hr with
  | outOfPlace hmisplaced hfault =>
    cases hr' with
    | outOfPlace _ hfault' => exact congrArg some (hfault.trans hfault'.symm)
    | badArgument hright _ _ => exact absurd hmisplaced hright
    | accepted _ hright _ => exact absurd hmisplaced hright
  | badArgument hright hbad hfault =>
    cases hr' with
    | outOfPlace hmisplaced _ => exact absurd hmisplaced hright
    | badArgument _ _ hfault' => exact congrArg some (hfault.trans hfault'.symm)
    | accepted _ _ hgood => exact absurd hbad hgood
  | accepted _ hright hgood =>
    cases hr' with
    | outOfPlace hmisplaced _ => exact absurd hmisplaced hright
    | badArgument _ hbad _ => exact absurd hbad hgood
    | accepted _ _ _ => rfl

/-- No command changes the kind of a container. -/
theorem Command.kind_revise (c : Command η) (a : Answer) (r : Container) :
    (c.revise a r).kind = r.kind := by
  cases c with
  | remove node => cases a <;> rfl
  | _ => rfl

/-- What two building commands ask of the same container, they may ask in either order. -/
theorem Command.revise_comm {c d : Command η} (hc : c.Builds) (hd : d.Builds)
    (hfree : ¬ c.Conflicts d) (hsame : c.node? = d.node?) (a b : Answer) (r : Container) :
    c.revise a (d.revise b r) = d.revise b (c.revise a r) := by
  cases hc <;> cases hd <;> first
    | rfl
    | exact absurd (Option.some.inj hsame) hfree

namespace Hierarchy

variable {h h' : Hierarchy η} {node parent k : Key} {c d : Command η} {a : Answer}

/-! ## What a building command does -/

/-- What a building command makes of the parts that determine a hierarchy. -/
structure Built (h : Hierarchy η) (c : Command η) (h' : Hierarchy η) : Prop where
  forest : h'.forest = c.relink h.forest
  request : ∀ k, h'.requestOf k =
    if c.node? = some k then (h.requestOf k).map (c.revise .done) else h.requestOf k
  besides : h'.besides = h.besides
  movable : ∀ node parent pos, c = .attach node parent pos → h.forest.Movable node parent

/-- A root can be moved to where it may go. -/
theorem Arranged.movable (ha : h.Arranged) (hroot : h.forest.parent node = none)
    (hfits : h.Placeable node parent) : h.forest.Movable node parent := by
  obtain ⟨a, b, hparent, hnode, -⟩ := hfits.fits
  exact ⟨ha.mem_of_kindOf hnode, ha.mem_of_kindOf hparent, hroot,
    ha.not_within_of_placeable hfits⟩

/-- A building command that is carried out relinks the forest and changes nothing besides the links
and the containers. -/
theorem Effect.relinked [Hook η] (heffect : h.Effect c a h') (hc : c.Builds) :
    a = .done ∧ h'.forest = c.relink h.forest ∧ h'.besides = h.besides := by
  cases heffect with
  | created hnode _ => cases hc <;> cases hnode
  | attached pos hroot _ =>
    refine ⟨rfl, ?_, ?_⟩
    · rw [forest_layOut, forest_place]
      rfl
    · rw [besides_layOut, besides_place_of_root hroot]
  | bounded bounds _ => exact ⟨rfl, forest_layOut _ _, besides_layOut _ _⟩
  | overridden bounds _ => exact ⟨rfl, rfl, rfl⟩
  | moded mode _ => exact ⟨rfl, forest_layOut _ _, besides_layOut _ _⟩
  | _ => cases hc

/-- A building command that is carried out does what building commands do. -/
theorem Effect.built [Hook η] (heffect : h.Effect c a h') (ha : h.Arranged) (ha' : h'.Arranged)
    (hc : c.Builds) : h.Built c h' := by
  obtain ⟨rfl, hforest, hbesides⟩ := heffect.relinked hc
  refine ⟨hforest, ?_, hbesides, ?_⟩
  · intro k
    have hlive : h'.contains k ↔ h.contains k := by
      rw [ha'.live_iff, ha.live_iff, hforest, Command.mem_relink]
    by_cases hk : h.contains k
    · exact ha.requestOf_effect heffect hk (hlive.2 hk)
    · have hnone : ∀ h : Hierarchy η, ¬ h.contains k → h.requestOf k = none := by
        intro h hdead
        rwa [contains_iff, Option.not_isSome_iff_eq_none, ← Option.map_eq_none_iff] at hdead
      rw [hnone h hk, hnone h' fun hk' => hk (hlive.1 hk'), Option.map_none, ite_self]
  · rintro node parent pos rfl
    cases heffect with
    | attached _ hroot hfits => exact ha.movable hroot hfits

namespace Built

variable (hb : h.Built c h')

include hb

/-- A building command changes no kind. -/
theorem kindOf (k : Key) : h'.kindOf k = h.kindOf k := by
  rw [kindOf_eq_map_requestOf, kindOf_eq_map_requestOf, hb.request]
  by_cases hnode : c.node? = some k
  · rw [if_pos hnode, Option.map_map]
    apply Option.map_congr
    intro r _
    exact c.kind_revise .done r
  · rw [if_neg hnode]

/-- A building command makes no container and removes none. -/
theorem contains (k : Key) : h'.contains k = h.contains k := by
  rw [Bool.eq_iff_iff, ← isSome_kindOf, ← isSome_kindOf, hb.kindOf]

/-- A building command changes nothing in what fits together. -/
theorem misfit_iff : h'.Misfit parent node ↔ h.Misfit parent node := by
  unfold Misfit
  rw [hb.kindOf, hb.kindOf]

/-- Only the attached container gets another parent. -/
theorem parent_of_ne (hmoved : c.moved ≠ some k) :
    h'.forest.parent k = h.forest.parent k := by
  rw [hb.forest]
  cases c with
  | attach node p pos =>
    have hm := hb.movable node p pos rfl
    have hne : k ≠ node := fun heq => hmoved (congrArg some heq.symm)
    show (h.forest.move node p pos).parent k = _
    rw [Forest.parent_move hm.live hm.target hm.apart, if_neg hne]
  | _ => rfl

/-- A building command changes no condition that decides on another one that it does not conflict
with. -/
theorem conditions (hc : c.Builds) (hd : d.Builds) (hfree : ¬ c.Conflicts d) :
    (h'.OutOfPlace d ↔ h.OutOfPlace d) ∧ (h'.BadArgument d ↔ h.BadArgument d) := by
  cases hd with
  | attach node p pos =>
    have hmoved : c.moved ≠ some node := by
      cases hc with
      | attach node' p' pos' => exact fun heq => hfree (.inl (Option.some.inj heq))
      | _ => exact nofun
    refine ⟨?_, ?_⟩
    · show (¬ h'.contains node ∨ h'.forest.parent node ≠ none) ↔ _
      rw [hb.contains, hb.parent_of_ne hmoved]
      rfl
    · show (¬ h'.contains p ∨ h'.Misfit p node) ↔ _
      rw [hb.contains, hb.misfit_iff]
      rfl
  | setBounds node bounds =>
    refine ⟨?_, Iff.rfl⟩
    show (¬ h'.contains node) ↔ _
    rw [hb.contains]
    rfl
  | setMode node mode =>
    refine ⟨?_, Iff.rfl⟩
    show (¬ h'.contains node ∨ mode = .freeform ∧ ¬ h'.settings.freeformEnabled) ↔ _
    rw [hb.contains, settings_of_besides hb.besides]
    rfl
  | setOverride node bounds =>
    refine ⟨?_, Iff.rfl⟩
    show (¬ h'.contains node) ↔ _
    rw [hb.contains]
    rfl

end Built

/-! ## Verdicts -/

section

variable [Hook η] {settings : Settings}

/-- A building command is carried out, or it is refused and changes nothing. -/
theorem InOrder.built_or_refused (ho : h.InOrder) (hc : c.Builds) :
    faultOf (h.apply c).result = none ∧ h.Built c (h.apply c).hierarchy ∨
      faultOf (h.apply c).result ≠ none ∧ (h.apply c).hierarchy = h := by
  rcases ho.effect_or_refused c with ⟨a, hok, heffect⟩ | ⟨⟨e, herror⟩, hsame⟩
  · exact .inl ⟨by rw [hok]; rfl, heffect.built ho.arranged (ho.apply c).arranged hc⟩
  · exact .inr ⟨by rw [herror]; exact nofun, hsame⟩

/-- A building command changes nothing besides the links and the containers. -/
theorem InOrder.besides_build (ho : h.InOrder) (hc : c.Builds) :
    (h.apply c).hierarchy.besides = h.besides := by
  rcases ho.built_or_refused hc with ⟨-, hbuilt⟩ | ⟨-, hsame⟩
  · exact hbuilt.besides
  · rw [hsame]

/-- After a building command the same containers are there. -/
theorem InOrder.contains_build (ho : h.InOrder) (hc : c.Builds) (k : Key) :
    (h.apply c).hierarchy.contains k = h.contains k := by
  rcases ho.built_or_refused hc with ⟨-, hbuilt⟩ | ⟨-, hsame⟩
  · exact hbuilt.contains k
  · rw [hsame]

/-- The verdict on a building command is the same after another one that it does not conflict
with. -/
theorem Reachable.faultOf_apply (hr : Reachable settings h) (hc : c.Builds) (hd : d.Builds)
    (hfree : ¬ c.Conflicts d) :
    faultOf ((h.apply c).hierarchy.apply d).result = faultOf (h.apply d).result := by
  rcases hr.inOrder.built_or_refused hc with ⟨-, hbuilt⟩ | ⟨-, hsame⟩
  · obtain ⟨hplace, hargument⟩ := hbuilt.conditions hc hd hfree
    have hafter := ((hr.step c).inOrder.judged_apply d).ruling
    exact (hafter.congr hplace hargument).faultOf_eq (hr.inOrder.judged_apply d).ruling
  · rw [hsame]

end

/-! ## Reports -/

/-- Hooks are called for a new display only where one is installed. -/
theorem Transition.hook_of_arrival {moved : Option Key} {calls : List Call}
    (ht : h.Transition moved h' calls) {display : Key} (hmem : (k, display) ∈ arrivals calls) :
    k ∈ h'.records.hooks := by
  cases ht with
  | adjusted _ hsilent =>
    rw [hsilent] at hmem
    cases hmem
  | @placed m node parent pos _ _ _ =>
    unfold moveCalls at hmem
    cases hd : (m.layOut node).displayOf node with
    | none =>
      rw [hd] at hmem
      cases hmem
    | some d =>
      rw [hd] at hmem
      dsimp only at hmem
      split at hmem
      · cases hmem
      · rw [arrivals_displayCalls] at hmem
        obtain ⟨j, hj, heq⟩ := List.mem_map.1 hmem
        cases heq
        exact of_decide_eq_true (List.mem_filter.1 hj).2
  | @removed m votes l _ hvotes =>
    rw [arrivals_append, hvotes, arrivals_removeEach] at hmem
    cases hmem
  | _ => cases hmem

section

variable [Hook η] {settings : Settings}

/-- A building command takes no container from its display. -/
theorem Reachable.displayOf_build (hr : Reachable settings h) (hc : c.Builds) {display : Key}
    (hk : h.displayOf k = some display) : (h.apply c).hierarchy.displayOf k = some display := by
  rcases hr.inOrder.effect_or_refused c with ⟨a, -, heffect⟩ | ⟨-, hsame⟩
  swap
  · rw [hsame]
    exact hk
  have hbuilt := heffect.built hr.arranged (hr.step c).arranged hc
  generalize (h.apply c).hierarchy = h' at heffect hbuilt
  have hkeep : h'.forest = h.forest → h'.displayOf k = some display := by
    intro hforest
    rw [displayOf_congr hforest hbuilt.kindOf, hk]
  cases heffect with
  | created hnode _ => cases hc <;> cases hnode
  | @attached node parent pos hroot hfits =>
    rw [displayOf_layOut]
    have hadj : (h.place node parent pos).Adjusted (h.place node parent pos) := .refl _
    rcases hr.arranged.displayOf_placed hfits hadj k with
      ⟨-, -, hbefore⟩ | ⟨-, hstay⟩
    · -- Were the attached root on a display, it would be one, and displays are not attached.
      have hm := hr.arranged.movable hroot hfits
      have hplaced : (h.place node parent pos).forest.parent node = some parent := by
        rw [hr.arranged.parent_place hfits, if_pos rfl]
      have hnot : ¬ h.isDisplay node := by
        have hafter := (hr.arranged.place_of_placeable hfits pos).not_isDisplay_of_parent hplaced
        rwa [isDisplay, kindOf_place] at hafter
      rw [hbefore, hr.arranged.displayOf_of_root hm.live hroot, if_neg hnot] at hk
      cases hk
    · rw [hstay, hk]
  | bounded bounds _ => exact hkeep (forest_layOut _ _)
  | overridden bounds _ => exact hkeep rfl
  | moded mode _ => exact hkeep (forest_layOut _ _)
  | _ => cases hc

/-- The call that a change of display gives rise to, where a container came to its first one. -/
def news (k : Key) : Option Key → Option Key → List (Key × Key)
  | none, some display => [(k, display)]
  | _, _ => []

/-- A container that stays on its display has its news once. -/
theorem news_append {x y z : Option Key} (hxy : ∀ d, x = some d → y = some d)
    (hyz : ∀ d, y = some d → z = some d) : news k x y ++ news k y z = news k x z := by
  cases x with
  | some d =>
    rw [hxy d rfl]
    rfl
  | none =>
    cases y with
    | none => rfl
    | some d =>
      rw [hyz d rfl]
      rfl

/-- What a building command reports of a container can be seen from its displays. -/
theorem Reachable.arrivals_build (hr : Reachable settings h) (hc : c.Builds) (k : Key) :
    (arrivals (h.apply c).calls).filter (·.1 = k) =
      if k ∈ h.records.hooks then
        news k (h.displayOf k) ((h.apply c).hierarchy.displayOf k)
      else [] := by
  have hreports := hr.arranged.reports_transition (transition_apply h c)
  by_cases hhook : k ∈ h.records.hooks
  · have hlive : h.contains k := (hr.arranged.live_iff k).2 (hr.inOrder.mem_of_hook hhook)
    have hlive' : (h.apply c).hierarchy.contains k :=
      (hr.inOrder.contains_build hc k).trans hlive
    rw [if_pos hhook]
    cases hbefore : h.displayOf k with
    | some d =>
      have hafter := hr.displayOf_build hc hbefore
      rw [hreports.silent k hlive hlive']
      · rfl
      · intro d' hd'
        rw [hafter] at hd'
        exact hbefore.trans hd'
    | none =>
      cases hafter : (h.apply c).hierarchy.displayOf k with
      | none =>
        rw [hreports.silent k hlive hlive']
        · rfl
        · intro d' hd'
          rw [hafter] at hd'
          cases hd'
      | some d =>
        rw [hreports.once k d hlive hlive' (.inl hhook) hafter (by rw [hbefore]; exact nofun)]
        rfl
  · rw [if_neg hhook, List.filter_eq_nil_iff]
    rintro ⟨j, d⟩ hmem hj
    obtain rfl : j = k := of_decide_eq_true hj
    have hinstalled := (transition_apply h c).hook_of_arrival hmem
    rw [hooks_of_besides (hr.inOrder.besides_build hc)] at hinstalled
    exact hhook hinstalled

end

end Hierarchy

end WindowForest
