import WindowForest.Proofs.Hierarchy.Displacement
import WindowForest.Proofs.Hierarchy.Succession

/-!
# There and back again

A container that was detached or moved can be put back to where it was, and then the
hierarchy is the one that it was before, except for the pointer of the parent that the
container had left (`Reachable.returns`).

In the forest, the way there does not matter, because of two shifts only the last one
counts, and a shift to where the node is changes nothing. The records follow: a settled
hierarchy is determined by its links and by what is asked of its containers. The pointer
of the other parent on the way is not lost, because it did not lead to the container
before, and a container that arrives draws no pointer to itself.
-/

set_option autoImplicit false

namespace WindowForest

variable {η : Type}

/-- What a command that displaces a container does to a record has no bearing on the layout. -/
theorem Command.incidental_revise {c : Command η} {k : Key} (hc : c.displaced? = some k)
    (a : Answer) : Container.Incidental (c.revise a) := by
  cases c <;>
    first
    | exact Container.incidental_id
    | exact Container.incidental_pending false
    | cases hc

/-- What a command that displaces a container does to a record does not depend on the layout. -/
theorem Command.request_revise {c : Command η} {k : Key} (hc : c.displaced? = some k) (a : Answer)
    (r : Container) : (c.revise a r).request = c.revise a r.request := by
  cases c <;> first | rfl | cases hc

/-- The container that leaves its parent is the one that is displaced. -/
theorem Command.eq_of_leaver {c : Command η} {a : Answer} {n node : Key}
    (hc : c.displaced? = some node) (hn : c.leaver? a = some n) : n = node := by
  have hnode : some n = some node :=
    (Command.node?_of_leaver hn).symm.trans (Command.node?_of_displaced hc)
  exact Option.some.inj hnode

namespace Hierarchy

variable {h h' h'' : Hierarchy η} {node p q k : Key} {c c' : Command η} {a a' : Answer} {i : Nat}

/-- A hierarchy is as it was before, apart from the pointer of `parent` and from what `g` changes in
the record of `node`. -/
structure Restored (h : Hierarchy η) (node parent : Key) (g : Container → Container)
    (h' : Hierarchy η) : Prop where
  forest : h'.forest = h.forest
  container : ∀ k, h'.container? k =
    if node = k then (h.container? k).map g else h.container? k
  mode : ∀ k, h'.modeOf k = h.modeOf k
  hooks : h'.records.hooks = h.records.hooks
  lastActive : ∀ k, k ≠ parent → h'.lastActive k = h.lastActive k

/-! ## What the two ways have in common -/

/-- A command that displaces a container has nothing to tell. -/
theorem Effect.answer_of_displaced [Hook η] (heffect : h.Effect c a h')
    (hc : c.displaced? = some node) : a = .done := by
  cases heffect with
  | created hnone _ =>
    rw [Command.node?_of_displaced hc] at hnone
    cases hnone
  | deferred _ => cases hc
  | removed _ => cases hc
  | hooked _ _ => rfl
  | attached _ _ _ => rfl
  | loose _ => rfl
  | detached _ _ => rfl
  | reparented _ _ _ _ => rfl
  | positioned _ _ => rfl
  | removedNow => rfl
  | bounded _ _ => rfl
  | overridden _ _ => rfl
  | moded _ _ => rfl

namespace Displaced

variable (hd : h.Displaced c node h')

include hd

/-- Every container is of the same kind as before. -/
theorem kindOf (k : Key) : h'.kindOf k = h.kindOf k := by
  have hkind : ∀ h : Hierarchy η, h.kindOf k = (h.termsOf k).map Container.kind := by
    intro h
    rw [Hierarchy.kindOf, termsOf, Option.map_map]
    rfl
  rw [hkind, hkind, hd.terms]

/-- What is not below the container stays on its display. -/
theorem displayOf_beside (ha : h.Arranged) (ha' : h'.Arranged) (hk : ¬ h.forest.Within node k) :
    h'.displayOf k = h.displayOf k := by
  have hlive : k ∈ h'.forest ↔ k ∈ h.forest := by rw [hd.forest, Forest.mem_shift]
  have hparents : ∀ b, h.forest.Within b k → h'.forest.parent b = h.forest.parent b := by
    intro b hb
    refine hd.parent_of_ne ?_
    rintro rfl
    exact hk hb
  have hchain : h'.forest.ancestors k = h.forest.ancestors k :=
    ha.wellFormed.rooted.ancestors_congr ha'.wellFormed.rooted hlive hparents
  have hdisplay : h'.isDisplay = h.isDisplay := by
    funext j
    rw [isDisplay, isDisplay, hd.kindOf]
  rw [displayOf, displayOf, hchain, hdisplay]

/-- The container is back in its place, and with it all others are. -/
theorem forest_back (ha : h.Arranged) (hd' : h'.Displaced c' node h'')
    (hp : h.forest.parent node = some p) (hi : h.forest.indexInParent node = some i)
    (hback : h'.destination c' = some (p, i)) : h''.forest = h.forest :=
  calc h''.forest = h'.forest.shift node (some (p, i)) := by rw [hd'.forest, hback]
    _ = (h.forest.shift node (h.destination c)).shift node (some (p, i)) := by rw [hd.forest]
    _ = h.forest.shift node (some (p, i)) :=
        ha.wellFormed.shift_shift hd.place (ha.wellFormed.admits_parent hp i)
    _ = h.forest := ha.wellFormed.shift_self hp hi

end Displaced

namespace InOrder

variable [Hook η] (ho : h.InOrder)

include ho

/-- Without activation, only a parent that the container leaves has its pointer passed on, and only
if it led to the container. -/
theorem lastActive_of_displaced (hc : c.displaced? = some node) (hactive : c.activated? = none)
    (hok : (h.apply c).result = .ok a)
    (hstays : h.forest.parent node = some k → h.lastActive k ≠ some node) :
    (h.apply c).hierarchy.lastActive k = h.lastActive k := by
  have ho' := ho.apply c
  have hcontains := (ho.displaced hc hok).contains ho.arranged ho'.arranged k
  by_cases hk : h.contains k
  · have hshift := (effect_apply hok).shift ho.arranged fun n hn => ho.contains_of_ok hn hok
    refine hshift.of_not_left ho'.arranged.wellFormed.rooted (hcontains.trans hk) ?_ ?_
    · rintro ⟨n, hn, -⟩
      rw [hactive] at hn
      cases hn
    · intro n hn
      obtain rfl := Command.eq_of_leaver hc hn
      exact hstays
  · -- No pointer starts at a key that is not there.
    have hk' : ¬ (h.apply c).hierarchy.contains k := by rwa [hcontains]
    rw [ho.arranged.live_iff] at hk
    rw [ho'.arranged.live_iff] at hk'
    rw [(ho.gone hk).lastActive, (ho'.gone hk').lastActive]

/-- A displacement that is in place and has good arguments is carried out. -/
theorem apply_of_right (hc : c.displaced? = some node) (hright : ¬ h.OutOfPlace c)
    (hgood : ¬ h.BadArgument c) : (h.apply c).result = .ok .done := by
  obtain ⟨a, hok⟩ := (ho.judged_apply c).ruling.exists_ok_iff.2 ⟨hright, hgood⟩
  rw [hok, (effect_apply hok).answer_of_displaced hc]

end InOrder

/-- If a container is displaced twice and comes back to its place, everything is restored. -/
theorem Reachable.restored [Hook η] {settings : Settings} (hr : Reachable settings h)
    (hp : h.forest.parent node = some p) (hi : h.forest.indexInParent node = some i)
    (hc : c.displaced? = some node) (hc' : c'.displaced? = some node)
    (hactive : c.activated? = none) (hactive' : c'.activated? = none)
    (hok : (h.apply c).result = .ok a) (hok' : ((h.apply c).hierarchy.apply c').result = .ok a')
    (hback : (h.apply c).hierarchy.destination c' = some (p, i))
    (hrevise : ∀ r, c'.revise a' (c.revise a r) = c'.revise a' r) :
    h.Restored node p (c'.revise a') (h.run [c, c']) := by
  have ho := hr.inOrder
  have ho' := (hr.step c).inOrder
  have hd := ho.displaced hc hok
  have hd' := ho'.displaced hc' hok'
  have hforest : (h.run [c, c']).forest = h.forest :=
    hd.forest_back ho.arranged hd' hp hi hback
  -- The hierarchy that is to be reached, up to the pointers.
  have hadjusted := Adjusted.updateContainer h node (Command.incidental_revise hc' a')
  have hrequest : ∀ k, (h.run [c, c']).requestOf k =
      (h.updateContainer node (c'.revise a')).requestOf k := by
    intro k
    rw [requestOf_updateContainer (c'.revise a') (Command.request_revise hc' a')]
    show ((h.apply c).hierarchy.apply c').hierarchy.requestOf k = _
    rw [(effect_apply hok').requestOf_displaced ho'.arranged ((hr.step c).step c').arranged hc',
      (effect_apply hok).requestOf_displaced ho.arranged ho'.arranged hc,
      Command.node?_of_displaced hc, Command.node?_of_displaced hc']
    split
    · rw [Option.map_map]
      exact Option.map_congr fun r _ => hrevise r
    · rfl
  have hcontainer := containers_eq_of_settled (ho.arranged.adjusted hadjusted)
    (fun k => hadjusted.settled (hr.settled k)) (hr.run [c, c']).settled hforest hrequest
  refine ⟨hforest, ?_, ?_, hd'.hooks.trans hd.hooks, ?_⟩
  · intro k
    rw [hcontainer, container?_updateContainer]
  · intro k
    rw [modeOf_of_requestOf (h := h.updateContainer node (c'.revise a')) hforest hrequest,
      hadjusted.modeOf]
  · intro k hk
    -- A pointer that leads to the container is that of `p`, and stays so until it has come back.
    have hout : h.lastActive k ≠ some node := by
      intro hlast
      have hparent := ho.focused k node hlast
      rw [hp] at hparent
      exact hk (Option.some.inj hparent.symm)
    have hfirst := ho.lastActive_of_displaced hc hactive hok fun _ => hout
    exact (ho'.lastActive_of_displaced hc' hactive' hok' fun _ => hfirst ▸ hout).trans hfirst

/-! ## Three ways back -/

/-- Wherever a container is, it fits under the parent that it had. -/
theorem Displaced.not_misfit (hd : h.Displaced c node h') (ha : h.Arranged)
    (hp : h.forest.parent node = some p) : ¬ h'.Misfit p node := by
  rintro ⟨b, b', hb, hb', hmisfit⟩
  obtain ⟨kind, kind', hkind, hkind', hfits⟩ := ha.fits node p hp
  rw [hd.kindOf] at hb hb'
  obtain rfl := Option.mem_unique hkind hb
  obtain rfl := Option.mem_unique hkind' hb'
  exact hmisfit hfits

namespace InOrder

variable [Hook η] (ho : h.InOrder) (hp : h.forest.parent node = some p)

include ho hp

omit [Hook η] in
/-- What has a parent is there. -/
theorem contains_of_parent : h.contains node := by
  rw [ho.arranged.live_iff]
  exact Forest.mem_of_parent hp

omit [Hook η] in
/-- A parent is there. -/
theorem contains_parent : h.contains p := by
  rw [ho.arranged.live_iff]
  exact ho.arranged.wellFormed.rooted.parent_mem hp

/-- What does not wait to be removed can be detached. -/
theorem detach_ok (hfree : ¬ h.isPending node) :
    (h.apply (.detach node)).result = .ok .done := by
  have hlive := ho.contains_of_parent hp
  exact ho.apply_of_right rfl (by simp [OutOfPlace, hlive, hfree]) (by simp [BadArgument])

/-- What was detached can be attached to the parent that it had. -/
theorem attach_ok (hok : (h.apply (.detach node)).result = .ok a) (i : Nat) :
    ((h.apply (.detach node)).hierarchy.apply (.attach node p i)).result = .ok .done := by
  have hd := ho.displaced (c := .detach node) rfl hok
  have hcontains := hd.contains ho.arranged (ho.apply _).arranged
  have hlive := ho.contains_of_parent hp
  have hplive := ho.contains_parent hp
  have hroot : (h.apply (.detach node)).hierarchy.forest.parent node = none := by
    rw [hd.parent, if_pos rfl]
    rfl
  exact (ho.apply _).apply_of_right rfl (by simp [OutOfPlace, hcontains, hlive, hroot])
    (by simp [BadArgument, hcontains, hplive, hd.not_misfit ho.arranged hp])

/-- What was moved to another parent can be moved back, if the parent that it had is on a
display. -/
theorem reparent_ok (hdisplay : h.displayOf p ≠ none) {pos : Nat} {activate : Bool}
    (hok : (h.apply (.reparent node q pos activate)).result = .ok a) (i : Nat) :
    ((h.apply (.reparent node q pos activate)).hierarchy.apply
      (.reparent node p i false)).result = .ok .done := by
  have hd := ho.displaced (c := .reparent node q pos activate) rfl hok
  have hcontains := hd.contains ho.arranged (ho.apply _).arranged
  have hlive := ho.contains_of_parent hp
  have hplive := ho.contains_parent hp
  have hnew : h.forest.parent node ≠ some q := by
    intro heq
    have hgood := ((ho.judged_apply _).ruling.exists_ok_iff.1 ⟨a, hok⟩).2
    exact hgood (.inr (.inl heq))
  have hleft : (h.apply (.reparent node q pos activate)).hierarchy.forest.parent node ≠
      some p := by
    rw [(hd.comesTo ho.arranged rfl).1, ← hp]
    exact hnew.symm
  have hstays := hd.displayOf_beside ho.arranged (ho.apply _).arranged
    (ho.arranged.wellFormed.rooted.not_within_parent hp)
  exact (ho.apply _).apply_of_right rfl (by simp [OutOfPlace, hcontains, hlive])
    (by simp [BadArgument, hcontains, hplive, hleft, hstays, hdisplay,
      hd.not_misfit ho.arranged hp])

/-- Among its siblings, a container can be moved anywhere. -/
theorem position_ok (pos : Nat) : (h.apply (.position node pos)).result = .ok .done := by
  have hlive := ho.contains_of_parent hp
  exact ho.apply_of_right rfl (by simp [OutOfPlace, hlive, hp]) (by simp [BadArgument])

/-- What was moved among its siblings is still under its parent. -/
theorem parent_of_position (pos : Nat) :
    (h.apply (.position node pos)).hierarchy.forest.parent node = some p := by
  have hok := ho.position_ok hp pos
  obtain ⟨p', hp', hto⟩ := ho.destination_of_position hok
  obtain rfl := Option.mem_unique hp hp'
  exact ((ho.displaced (c := .position node pos) rfl hok).comesTo ho.arranged hto).1

end InOrder

/-- A container can be put back to the place `i` under `p`, from wherever it has gone. -/
structure Returns [Hook η] (h : Hierarchy η) (node p : Key) (i : Nat) : Prop where
  /-- A container that does not wait to be removed can be detached and attached again. -/
  detached : ¬ h.isPending node →
    (h.apply (.detach node)).result = .ok .done ∧
      ((h.apply (.detach node)).hierarchy.apply (.attach node p i)).result = .ok .done ∧
      h.Restored node p id (h.run [.detach node, .attach node p i])
  /-- Under a display, a container that was moved to another parent can be moved back. It does not
  wait to be removed any more. -/
  reparented : h.displayOf p ≠ none → ∀ q pos,
    (h.apply (.reparent node q pos false)).result = .ok .done →
    ((h.apply (.reparent node q pos false)).hierarchy.apply
        (.reparent node p i false)).result = .ok .done ∧
      h.Restored node p (fun c => { c with pending := false })
        (h.run [.reparent node q pos false, .reparent node p i false])
  /-- Among its siblings, a container can be moved anywhere and back. -/
  positioned : ∀ pos,
    (h.apply (.position node pos)).result = .ok .done ∧
      ((h.apply (.position node pos)).hierarchy.apply (.position node i)).result = .ok .done ∧
      h.Restored node p id (h.run [.position node pos, .position node i])

/-- In every reachable hierarchy, a container that has left its place can be put back there, and
with it everything is as it was before. -/
theorem Reachable.returns [Hook η] {settings : Settings} (hr : Reachable settings h)
    (hp : h.forest.parent node = some p) (hi : h.forest.indexInParent node = some i) :
    h.Returns node p i := by
  have ho := hr.inOrder
  constructor
  case detached =>
    intro hfree
    have hok := ho.detach_ok hp hfree
    have hok' := ho.attach_ok hp hok i
    exact ⟨hok, hok', hr.restored hp hi rfl rfl rfl rfl hok hok' rfl fun _ => rfl⟩
  case reparented =>
    intro hdisplay q pos hok
    have hok' := ho.reparent_ok hp hdisplay hok i
    exact ⟨hok', hr.restored hp hi rfl rfl rfl rfl hok hok' rfl fun _ => rfl⟩
  case positioned =>
    intro pos
    have hok := ho.position_ok hp pos
    have hp' := ho.parent_of_position hp pos
    have hok' := (ho.apply (.position node pos)).position_ok hp' i
    have hback : (h.apply (.position node pos)).hierarchy.destination
        (.position node i : Command η) = some (p, i) := by
      rw [destination, hp']
      rfl
    exact ⟨hok, hok', hr.restored hp hi rfl rfl rfl rfl hok hok' hback fun _ => rfl⟩

/-- The middle one of three tasks, which was the last active one, is put back after a visit to
another stack. The pointer of its stack leads to the task behind it now. -/
theorem returns_furnished :
    ∃ h : Hierarchy Voter, Reachable {} h ∧
      h.forest.children ⟨3, 1⟩ = [⟨4, 1⟩, ⟨5, 1⟩, ⟨6, 1⟩] ∧ h.lastActive ⟨3, 1⟩ = some ⟨5, 1⟩ ∧
      h.forest.parent ⟨5, 1⟩ = some ⟨3, 1⟩ ∧ h.forest.indexInParent ⟨5, 1⟩ = some 1 ∧
      h.Returns ⟨5, 1⟩ ⟨3, 1⟩ 1 ∧ h.displayOf ⟨3, 1⟩ = some ⟨1, 1⟩ ∧
      (h.apply (.reparent ⟨5, 1⟩ ⟨7, 1⟩ 0 false)).result = .ok .done ∧
      (h.run [.reparent ⟨5, 1⟩ ⟨7, 1⟩ 0 false]).forest.children ⟨3, 1⟩ = [⟨4, 1⟩, ⟨6, 1⟩] ∧
      (h.run [.reparent ⟨5, 1⟩ ⟨7, 1⟩ 0 false, .reparent ⟨5, 1⟩ ⟨3, 1⟩ 1 false]).lastActive
        ⟨3, 1⟩ = some ⟨6, 1⟩ := by
  have hr := reachable_furnished.run
    [.createTask ⟨8⟩ ⟨0⟩, .createTask ⟨9⟩ ⟨0⟩, .attach ⟨6, 1⟩ ⟨3, 1⟩ 1, .createStack,
      .attach ⟨7, 1⟩ ⟨2, 1⟩ 0, .reparent ⟨5, 1⟩ ⟨3, 1⟩ 1 true]
  exact ⟨_, hr, by decide +kernel, by decide +kernel, by decide +kernel, by decide +kernel,
    hr.returns (by decide +kernel) (by decide +kernel), by decide +kernel, by decide +kernel,
    by decide +kernel, by decide +kernel⟩

end Hierarchy

end WindowForest
