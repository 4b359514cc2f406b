import WindowForest.Proofs.Hierarchy.Displacement
import WindowForest.Proofs.Hierarchy.Teardown

/-!
# Shields

A container that is placed at bounds of its own, under a mode of its own, is a shield for
all below it. Commands about other containers may set bounds and modes above it or remove
what is beside it, and the shield itself may be attached, detached and moved. As long as
the shield is there, it and all below it keep their modes, their bounds and their surfaces
(`Reachable.shielded`).

The step is an instance of `Arranged.sameLook_of_terms`, with the tree below the shield as
the set of containers: what is asked of them does not change, and the way up from each of
them leads through the same parents to the shield. Both stay true after the step, so the
law holds for any number of commands.
-/

set_option autoImplicit false

namespace WindowForest.Hierarchy

variable {η : Type} {h h' : Hierarchy η} {s k n : Key} {c : Command η} {a : Answer}

/-- A command is about no container of the tree below `s`, or else it attaches, detaches or moves
`s` as a whole. -/
def Aside (h : Hierarchy η) (s : Key) (c : Command η) : Prop :=
  c.displaced? = some s ∨ ∀ n, c.node? = some n → ¬ h.forest.Within s n

/-- A tree that is taken down leaves what is not in it. -/
theorem Arranged.mem_removeEach_postorder (ha : h.Arranged) (n k : Key) :
    k ∈ (h.removeEach (h.forest.postorder n)).1.forest ↔
      k ∈ h.forest ∧ ¬ (n ∈ h.forest ∧ h.forest.Within n k) := by
  rw [ha.mem_removeEach (ha.wellFormed.leavesFirst_postorder n), ha.wellFormed.mem_postorder_iff]

/-- If a container is removed, so is all below the container that the command is about, and that
one is neither attached nor detached nor moved. -/
theorem Arranged.exists_removed [Hook η] (ha : h.Arranged) (ha' : h'.Arranged)
    (heffect : h.Effect c a h') (hk : h.contains k) (hgone : ¬ h'.contains k) :
    ∃ n, c.node? = some n ∧ c.displaced? = none ∧ h.forest.Within n k ∧
      ∀ j, h.forest.Within n j → ¬ h'.contains j := by
  have hmem := (ha.live_iff k).1 hk
  rw [ha'.live_iff] at hgone
  -- Removals take away a whole tree, and no other effect takes anything away.
  have hremoved : ∀ {n : Key}, (∀ j, j ∈ h'.forest ↔
      j ∈ h.forest ∧ ¬ (n ∈ h.forest ∧ h.forest.Within n j)) →
      h.forest.Within n k ∧ ∀ j, h.forest.Within n j → ¬ h'.contains j := by
    intro n hleft
    obtain ⟨hn, hw⟩ := not_not.1 fun hout => hgone ((hleft k).2 ⟨hmem, hout⟩)
    exact ⟨hw, fun j hj hlive => ((hleft j).1 ((ha'.live_iff j).1 hlive)).2 ⟨hn, hj⟩⟩
  have hkept : (k ∈ h'.forest ↔ k ∈ h.forest) → False := fun hiff => hgone (hiff.2 hmem)
  cases heffect with
  | removed _ =>
    obtain ⟨hw, hall⟩ := hremoved ((ha.asked _).mem_removeEach_postorder _)
    exact ⟨_, rfl, rfl, hw, hall⟩
  | removedNow =>
    obtain ⟨hw, hall⟩ := hremoved (ha.mem_removeEach_postorder _)
    exact ⟨_, rfl, rfl, hw, hall⟩
  | created _ hb =>
    rw [hb.forest.2, Forest.mem_sprout] at hgone
    exact absurd (.inr hmem) hgone
  | hooked hook _ => exact absurd hmem hgone
  | attached pos _ _ =>
    exact (hkept (by rw [forest_layOut, forest_place, Forest.mem_move])).elim
  | loose _ => exact absurd hmem hgone
  | detached _ _ => exact (hkept (by rw [forest_layOut, forest_uproot, Forest.mem_unlink])).elim
  | reparented pos activate _ _ =>
    exact (hkept (by rw [forest_layOut, forest_relocated, Forest.mem_move])).elim
  | positioned pos _ => exact (hkept (by rw [forest_place, Forest.mem_move])).elim
  | deferred _ => exact absurd hmem hgone
  | bounded bounds _ => exact (hkept (by rw [forest_layOut]; rfl)).elim
  | overridden bounds _ => exact absurd hmem hgone
  | moded mode _ => exact (hkept (by rw [forest_layOut]; rfl)).elim

/-! ## Below a container that a command passes by -/

section

variable [Hook η] (ha : h.Arranged) (ha' : h'.Arranged) (heffect : h.Effect c a h')
  (haside : h.Aside s c) (hs : h.contains s) (hs' : h'.contains s) (hk : h.forest.Within s k)

include ha hs hk in
omit [Hook η] in
/-- What is below a container that is there is there itself. -/
theorem Arranged.contains_below : h.contains k := by
  rw [ha.live_iff] at hs ⊢
  exact hk.mem hs

include haside hk in
omit [Hook η] in
/-- The only container in the tree that such a command can be about is its top. -/
theorem Aside.eq_top (hn : c.node? = some k) : c.displaced? = some s ∧ k = s := by
  rcases haside with hc | hout
  · exact ⟨hc, Option.mem_unique hn (Command.node?_of_displaced hc)⟩
  · exact absurd hk (hout k hn)

include ha ha' heffect haside hs hs' hk

/-- With its top, the whole tree stays. -/
theorem Effect.contains_below : h'.contains k := by
  by_contra hgone
  obtain ⟨n, hn, hstill, hnk, hall⟩ :=
    ha.exists_removed ha' heffect (ha.contains_below hs hk) hgone
  -- Either the top goes too, or the command is about a container of the tree other than its top.
  rcases Forest.within_total hnk hk with hns | hsn
  · exact hall s hns hs'
  · obtain ⟨hc, -⟩ := haside.eq_top hsn hn
    rw [hstill] at hc
    cases hc

/-- What is asked of the containers in the tree stays, apart from incidental fields. -/
theorem Effect.terms_below : h'.termsOf k = h.termsOf k := by
  have hlive := ha.contains_below hs hk
  have hlive' := heffect.contains_below ha ha' haside hs hs' hk
  exact termsOf_of_revised (ha.requestOf_effect heffect hlive hlive') fun hn =>
    (haside.eq_top hk hn).1

/-- Below the top, everybody keeps the same parent. -/
theorem Effect.parent_below (hne : k ≠ s) : h'.forest.parent k = h.forest.parent k := by
  refine ha.parent_effect heffect (heffect.contains_below ha ha' haside hs hs' hk) ?_ ?_
  · intro hmoved
    exact hne (haside.eq_top hk (Command.node?_of_moved hmoved)).2
  · rintro rfl
    exact hne (haside.eq_top hk rfl).2

/-- What is below the top stays below it. -/
theorem Effect.within_below : h'.forest.Within s k := by
  induction hk with
  | refl => exact Forest.within_refl _ s
  | @tail p k hp hkp ih =>
    by_cases hne : k = s
    · rw [hne]
      exact Forest.within_refl _ s
    · exact ih.child
        ((heffect.parent_below ha ha' haside hs hs' (hp.tail hkp) hne).trans hkp)

end

/-- A shield is there. -/
theorem Shields.contains (hshields : h.Shields s) : h.contains s := by
  obtain ⟨c, hc, -⟩ := hshields
  exact contains_iff.2 (hc ▸ rfl)

/-- The tree below a shield after a command: the shield is still one, what was below it still is,
and nobody there looks different. -/
structure Sheltered (h h' : Hierarchy η) (s : Key) : Prop where
  shields : h'.Shields s
  within : ∀ k, h.forest.Within s k → h'.forest.Within s k
  look : ∀ k, h.forest.Within s k → SameLook h h' k

namespace Sheltered

/-- Without a command, the tree below a shield stays as it is. -/
theorem refl (hs : h.Shields s) : Sheltered h h s := by
  refine ⟨hs, ?_, ?_⟩
  · intro k hk
    exact hk
  · intro k _
    exact SameLook.refl h k

/-- A tree that is sheltered twice in a row is sheltered from first to last. -/
theorem trans {h'' : Hierarchy η} (hl : Sheltered h h' s) (hl' : Sheltered h' h'' s) :
    Sheltered h h'' s where
  shields := hl'.shields
  within k hk := hl'.within k (hl.within k hk)
  look k hk := (hl.look k hk).trans (hl'.look k (hl.within k hk))

end Sheltered

/-! ## One command, and any number of them -/

variable [Hook η] {settings : Settings}

/-- One command that passes by a shield leaves the tree below it sheltered. -/
theorem Reachable.sheltered_apply (hr : Reachable settings h) (hs : h.Shields s)
    (haside : h.Aside s c) (hstays : (h.apply c).hierarchy.contains s) :
    Sheltered h (h.apply c).hierarchy s := by
  rcases hr.inOrder.effect_or_refused c with ⟨a, -, heffect⟩ | ⟨-, hsame⟩
  swap
  · rw [hsame]
    exact .refl hs
  have ha := hr.arranged
  have ha' := (hr.step c).arranged
  have hterms : ∀ k, h.forest.Within s k → (h.apply c).hierarchy.termsOf k = h.termsOf k := by
    intro k hk
    exact heffect.terms_below ha ha' haside hs.contains hstays hk
  -- The look of a container follows from its own terms, or from the look of its parent.
  have hfrom : ∀ k, h.forest.Within s k → h.Shields k ∨
      (h.apply c).hierarchy.forest.parent k = h.forest.parent k ∧
        ∀ p, h.forest.parent k = some p → h.forest.Within s p := by
    intro k hk
    by_cases hne : k = s
    · exact .inl (hne ▸ hs)
    · refine .inr ⟨heffect.parent_below ha ha' haside hs.contains hstays hk hne, ?_⟩
      intro p hp
      rcases Forest.within_iff.1 hk with heq | ⟨q, hq, hw⟩
      · exact absurd heq hne
      · obtain rfl := Option.mem_unique hp hq
        exact hw
  constructor
  case shields => exact hs.of_terms (hterms s (Forest.within_refl _ s))
  case within =>
    intro k hk
    exact heffect.within_below ha ha' haside hs.contains hstays hk
  case look =>
    intro k hk
    exact ha.sameLook_of_terms ha' hr.settled (hr.step c).settled (P := h.forest.Within s) hterms
      hfrom hk

/-- Each command passes by the tree below `s`, and `s` stays. -/
def LeftAside (h : Hierarchy η) (s : Key) : List (Command η) → Prop
  | [] => True
  | c :: rest =>
    h.Aside s c ∧ (h.apply c).hierarchy.contains s ∧ (h.apply c).hierarchy.LeftAside s rest

/-- Any number of commands that pass by a shield leave the tree below it sheltered. -/
theorem Reachable.sheltered_run (hr : Reachable settings h) (hs : h.Shields s)
    {commands : List (Command η)} (haside : h.LeftAside s commands) :
    Sheltered h (h.run commands) s := by
  induction commands generalizing h with
  | nil => exact .refl hs
  | cons c rest ih =>
    obtain ⟨hfirst, hstays, hrest⟩ := haside
    have hstep := hr.sheltered_apply hs hfirst hstays
    exact hstep.trans (ih (hr.step c) hstep.shields hrest)

/-- A shield protects the tree below it from all commands that pass by that tree. -/
structure Shielded (h : Hierarchy η) (s : Key) : Prop where
  /-- After one command, whether or not it is carried out, the shield and all below it look as
  before. -/
  step : ∀ c, h.Aside s c → (h.apply c).hierarchy.contains s →
    ∀ k, h.forest.Within s k → SameLook h (h.apply c).hierarchy k
  /-- The same holds after any number of commands. -/
  run : ∀ commands, h.LeftAside s commands →
    ∀ k, h.forest.Within s k → SameLook h (h.run commands) k

/-- In every reachable hierarchy, containers at bounds of their own, under modes of their own, are
shields. -/
theorem Reachable.shielded (hr : Reachable settings h) (hs : h.Shields s) : h.Shielded s where
  step _ haside hstays := (hr.sheltered_apply hs haside hstays).look
  run _ haside := (hr.sheltered_run hs haside).look

omit [Hook η] in
/-- The stack in freeform shields its task while its display changes, and while it goes over to the
other display and is detached there. -/
theorem shielded_furnished :
    let commands : List (Command Voter) :=
      [.setBounds ⟨1, 1⟩ ⟨5, 5, 9, 9⟩, .setMode ⟨1, 1⟩ .pinned, .reparent ⟨3, 1⟩ ⟨2, 1⟩ 0 true,
        .detach ⟨3, 1⟩]
    Reachable {} furnished ∧ furnished.Shields ⟨3, 1⟩ ∧ furnished.Shielded ⟨3, 1⟩ ∧
      furnished.LeftAside ⟨3, 1⟩ commands ∧ furnished.forest.Within ⟨3, 1⟩ ⟨4, 1⟩ ∧
      furnished.boundsOf ⟨4, 1⟩ = some ⟨10, 20, 60, 40⟩ ∧
      (furnished.run commands).boundsOf ⟨1, 1⟩ = some ⟨5, 5, 9, 9⟩ ∧
      (furnished.run commands).forest.parent ⟨3, 1⟩ = none ∧
      (furnished.run commands).boundsOf ⟨4, 1⟩ = some ⟨10, 20, 60, 40⟩ := by
  intro commands
  have hshields : furnished.Shields ⟨3, 1⟩ := ⟨_, by rfl, by decide, by decide⟩
  have haside : furnished.LeftAside ⟨3, 1⟩ commands := by
    refine ⟨.inr ?_, by decide, .inr ?_, by decide, .inl rfl, by decide +kernel, .inl rfl,
      by decide +kernel, trivial⟩
    · rintro n ⟨⟩
      exact Forest.not_within_of_root (by decide) (by decide)
    · rintro n ⟨⟩
      exact Forest.not_within_of_root (by decide) (by decide)
  exact ⟨reachable_furnished, hshields, Reachable.shielded reachable_furnished hshields, haside,
    Forest.within_of_parent (by decide), by decide, by decide +kernel, by decide +kernel,
    by decide +kernel⟩

end WindowForest.Hierarchy
