import WindowForest.Proofs.Hierarchy.Chains
import WindowForest.Proofs.Hierarchy.Displays

/-!
# Reports of a change of display

A move compares the displays of the moved container before and after, and on the
strength of that alone it calls the hooks of everything below it. This is right
for each of them, because a tree is on one display as a whole: what lies below the
moved container was on the same display as that container before, and is so again
afterwards. Whatever lies elsewhere stays where it was. The other transitions call
no hook with such a report, and bring no container to a display.
-/

set_option autoImplicit false

namespace WindowForest

variable {η : Type}

namespace Hierarchy

variable {h h' m : Hierarchy η} {node parent k d : Key} {calls : List Call}

/-- The calls report the changes of display between two hierarchies. Here `order` lists what lies
below the container that was moved. -/
structure Reports (h h' : Hierarchy η) (order : List Key) (calls : List Call) : Prop where
  /-- A hook is called once if its container came to a display that it was not on before. -/
  once : ∀ k d, h.contains k → h'.contains k →
    (k ∈ h.records.hooks ∨ k ∈ h'.records.hooks) →
    h'.displayOf k = some d → h.displayOf k ≠ some d →
    (arrivals calls).filter (·.1 = k) = [(k, d)]
  /-- Otherwise it is not called. -/
  silent : ∀ k, h.contains k → h'.contains k →
    (∀ d, h'.displayOf k = some d → h.displayOf k = some d) →
    (arrivals calls).filter (·.1 = k) = []
  /-- The hooks are called in order. -/
  ordered : ((arrivals calls).map Prod.fst).Sublist order
  /-- The forest that a hook gets to see is the one that results. -/
  seen : ∀ k d f, .displayChanged k d f ∈ calls → f = h'.forest

/-! ## Transitions that report nothing -/

/-- Calls that report no change of display have no such call among them. -/
theorem not_mem_of_arrivals {f : Forest} (hcalls : arrivals calls = []) :
    .displayChanged k d f ∉ calls := by
  intro hmem
  have harrival : (k, d) ∈ arrivals calls := List.mem_filterMap.2 ⟨_, hmem, rfl⟩
  rw [hcalls] at harrival
  cases harrival

/-- Nothing has to be reported where no container comes to another display. -/
theorem Reports.of_silence (hcalls : arrivals calls = []) (order : List Key)
    (hsame : ∀ k d, h.contains k → h'.contains k →
      h'.displayOf k = some d → h.displayOf k = some d) : h.Reports h' order calls where
  once k d hk hk' _ hd hne := absurd (hsame k d hk hk' hd) hne
  silent k _ _ _ := by rw [hcalls]; rfl
  ordered := by rw [hcalls]; exact List.nil_sublist order
  seen k d f hmem := absurd hmem (not_mem_of_arrivals hcalls)

/-- Laying out a tree puts nothing on another display. -/
theorem displayOf_layOut (h : Hierarchy η) (top k : Key) :
    (h.layOut top).displayOf k = h.displayOf k := by
  have hforest := forest_layOut h top
  have hkind := kindOf_layOut h top
  exact displayOf_congr hforest hkind k

/-- Removing containers one after the other reports no change of display. -/
theorem arrivals_removeEach (h : Hierarchy η) (l : List Key) :
    arrivals (h.removeEach l).2 = [] := by
  induction l generalizing h with
  | nil => rfl
  | cons k l ih =>
    show arrivals (h.removalCalls k ++ ((h.prune k).removeEach l).2) = []
    rw [arrivals_append, ih, List.append_nil]
    unfold removalCalls
    split <;> rfl

namespace Arranged

variable (ha : h.Arranged)

include ha

/-- A container that is left by a removal was there before, and is on the same display. -/
theorem displayOf_prune (hk : (h.prune node).contains k) :
    h.contains k ∧ (h.prune node).displayOf k = h.displayOf k := by
  have hmem := ((ha.prune node).live_iff k).1 hk
  rw [forest_prune, ha.wellFormed.mem_prune_iff] at hmem
  exact ⟨(ha.live_iff k).2 hmem.1,
    ha.displayOf_of_chain (ha.prune node) (ha.sameChain_prune hmem.2)⟩

omit ha in
/-- Containers that are left by removals one after the other were there before, and are on the same
display. -/
theorem displayOf_removeEach (ha : h.Arranged) {l : List Key}
    (hk : (h.removeEach l).1.contains k) :
    h.contains k ∧ (h.removeEach l).1.displayOf k = h.displayOf k := by
  induction l generalizing h with
  | nil => exact ⟨hk, rfl⟩
  | cons j l ih =>
    obtain ⟨hlive, hsame⟩ := ih (ha.prune j) hk
    obtain ⟨hlive', hsame'⟩ := ha.displayOf_prune hlive
    exact ⟨hlive', hsame.trans hsame'⟩

/-- A new container puts no other one on another display. -/
theorem displayOf_insertContainer (c : Container) (hk : h.contains k) :
    (h.insertContainer c).2.displayOf k = h.displayOf k := by
  refine ha.displayOf_of_chain (ha.insertContainer c) (ha.sameChain_insertContainer c ?_)
  rintro rfl
  exact ha.wellFormed.sound.nextKey_notMem ((ha.live_iff _).1 hk)

/-- What is taken from its parent comes to no display. -/
theorem displayOf_of_uproot (hp : h.forest.parent node = some parent)
    (hd : (h.uproot node).displayOf k = some d) : h.displayOf k = some d := by
  have hmem := Forest.mem_of_parent hp
  by_cases hw : h.forest.Within node k
  · have hroot : (h.uproot node).forest.IsRootOf node k := by
      refine ⟨?_, ?_, ?_⟩
      · rwa [forest_uproot, Forest.mem_unlink]
      · rw [forest_uproot, Forest.parent_unlink, if_pos rfl]
      · rwa [forest_uproot, Forest.within_unlink_iff]
    have hdisplay : ¬ (h.uproot node).isDisplay node := by
      rw [isDisplay, kindOf_uproot]
      exact ha.not_isDisplay_of_parent hp
    rw [(ha.uproot node).displayOf_of_isRootOf hroot, if_neg hdisplay] at hd
    cases hd
  · rwa [← ha.displayOf_of_chain (ha.uproot node) (sameChain_uproot hw)]

end Arranged

/-! ## Moves -/

/-- Where a moved container came to a display that it was not on, the hooks below it are called. -/
theorem moveCalls_of_change {before : Option Key} (hd : h.displayOf node = some d)
    (hne : before ≠ some d) : h.moveCalls node before = h.displayCalls node d := by
  unfold moveCalls
  rw [hd]
  exact if_neg hne

/-- Where a moved container came to no display that it was not on, no hook is called. -/
theorem moveCalls_of_same {before : Option Key}
    (hsame : ∀ d, h.displayOf node = some d → before = some d) :
    h.moveCalls node before = [] := by
  unfold moveCalls
  cases hd : h.displayOf node with
  | none => rfl
  | some d => exact if_pos (hsame d hd)

/-- The containers whose hooks are called once a tree came to a display. -/
def hooked (h : Hierarchy η) (top : Key) : List Key :=
  (h.forest.preorder top).filter (· ∈ h.records.hooks)

/-- For a tree that came to a display, each container with a hook reports that display, in preorder.
-/
theorem arrivals_displayCalls (h : Hierarchy η) (top display : Key) :
    arrivals (h.displayCalls top display) = (h.hooked top).map fun k => (k, display) := by
  unfold displayCalls hooked arrivals
  rw [List.filterMap_map]
  exact congrFun List.filterMap_eq_map' _

/-- Each of these hooks is called exactly once. -/
theorem filter_arrivals_displayCalls (hf : h.forest.WellFormed) (top display k : Key) :
    (arrivals (h.displayCalls top display)).filter (·.1 = k) =
      if k ∈ h.hooked top then [(k, display)] else [] := by
  have hnodup : (h.hooked top).Nodup := (hf.nodup_preorder top).filter _
  rw [arrivals_displayCalls, List.filter_map]
  show ((h.hooked top).filter (· = k)).map _ = _
  rw [List.filter_eq]
  split
  · next hk => rw [List.count_eq_one_of_mem hnodup hk]; rfl
  · next hk => rw [List.count_eq_zero_of_not_mem hk]; rfl

/-- The hooks that are called are those of the containers in the tree. -/
theorem mem_hooked_iff (hf : h.forest.WellFormed) {top : Key} :
    k ∈ h.hooked top ↔ (top ∈ h.forest ∧ h.forest.Within top k) ∧ k ∈ h.records.hooks := by
  rw [hooked, List.mem_filter, hf.mem_preorder_iff, decide_eq_true_iff]

/-- A hook that is called for a display gets to see the forest as it is. -/
theorem seen_of_mem_displayCalls {top display : Key} {f : Forest}
    (hmem : .displayChanged k d f ∈ h.displayCalls top display) : f = h.forest := by
  obtain ⟨j, -, hj⟩ := List.mem_map.1 hmem
  cases hj
  rfl

/-- What a move makes of displays: the moved tree comes to the display of its top as a whole, and
everything else stays where it is. -/
theorem Arranged.displayOf_placed (ha : h.Arranged) {pos : Nat} (hfits : h.Placeable node parent)
    (hadj : (h.place node parent pos).Adjusted m) (k : Key) :
    h.forest.Within node k ∧ m.displayOf k = m.displayOf node ∧
        h.displayOf k = h.displayOf node ∨
      ¬ h.forest.Within node k ∧ m.displayOf k = h.displayOf k := by
  have ha' := ha.place_of_placeable hfits pos
  by_cases hw : h.forest.Within node k
  · have hw' : m.forest.Within node k := by rwa [hadj.forest, ha.within_place hfits]
    exact .inl ⟨hw, (ha'.adjusted hadj).displayOf_of_within hw', ha.displayOf_of_within hw⟩
  · have hchain := ha.sameChain_place hfits pos hw
    exact .inr ⟨hw, (hadj.displayOf k).trans (ha.displayOf_of_chain ha' hchain)⟩

/-- After a move, the hooks are called that have to be called, and no others. -/
theorem Arranged.reports_placed (ha : h.Arranged) {pos : Nat} (hfits : h.Placeable node parent)
    (hhooks : m.records.hooks = h.records.hooks) (hadj : (h.place node parent pos).Adjusted m) :
    h.Reports (m.layOut node) ((m.layOut node).forest.preorder node)
      ((m.layOut node).moveCalls node (h.displayOf node)) := by
  have ha' := ((ha.place_of_placeable hfits pos).adjusted hadj).layOut node
  have hsplit := ha.displayOf_placed hfits hadj
  simp only [← displayOf_layOut m node] at hsplit
  -- What is below the moved container changes its display if and only if that container does.
  by_cases hchange : ∃ d, (m.layOut node).displayOf node = some d ∧ h.displayOf node ≠ some d
  · obtain ⟨d, hd, hne⟩ := hchange
    rw [moveCalls_of_change hd hne]
    have hmem : ∀ k, k ∈ (m.layOut node).hooked node ↔
        (node ∈ m.forest ∧ h.forest.Within node k) ∧ k ∈ m.records.hooks := by
      intro k
      rw [mem_hooked_iff ha'.wellFormed, forest_layOut, hooks_layOut, hadj.forest,
        ha.within_place hfits]
    have hlive : node ∈ m.forest := by
      have hroot := (ha'.displayOf_eq_some_iff.1 hd).2
      simpa using hroot.2.2.mem hroot.1
    constructor
    case once =>
      intro k d' _ _ hhook hd' hne'
      rcases hsplit k with ⟨hw, hafter, -⟩ | ⟨-, hstay⟩
      · have hhook' : k ∈ m.records.hooks := by
          rwa [hooks_layOut, hhooks, or_self, ← hhooks] at hhook
        rw [filter_arrivals_displayCalls ha'.wellFormed, if_pos ((hmem k).2 ⟨⟨hlive, hw⟩, hhook'⟩)]
        rw [hafter, hd] at hd'
        rw [Option.some.inj hd']
      · exact absurd (hstay ▸ hd') hne'
    case silent =>
      intro k _ _ hsame
      rw [filter_arrivals_displayCalls ha'.wellFormed, if_neg]
      intro hhooked
      rcases hsplit k with ⟨-, hafter, hbefore⟩ | ⟨hw, -⟩
      · exact hne (hbefore ▸ hsame d (hafter.trans hd))
      · exact hw ((hmem k).1 hhooked).1.2
    case ordered =>
      rw [arrivals_displayCalls, List.map_map]
      show (((m.layOut node).hooked node).map id).Sublist _
      rw [List.map_id]
      exact List.filter_sublist
    case seen =>
      intro k d f hcall
      exact seen_of_mem_displayCalls hcall
  · have hsame : ∀ d, (m.layOut node).displayOf node = some d → h.displayOf node = some d := by
      intro d hd
      by_contra hne
      exact hchange ⟨d, hd, hne⟩
    rw [moveCalls_of_same hsame]
    apply Reports.of_silence rfl _
    intro k d _ _ hd
    rcases hsplit k with ⟨-, hafter, hbefore⟩ | ⟨-, hstay⟩
    · rw [hbefore]
      exact hsame d (hafter ▸ hd)
    · rwa [← hstay]

/-! ## Every command -/

/-- The hooks that a transition calls are those of the containers that it brings to a display. -/
theorem Arranged.reports_transition (ha : h.Arranged) {moved : Option Key}
    (ht : h.Transition moved h' calls) :
    h.Reports h' (moved.elim [] h'.forest.preorder) calls := by
  cases ht with
  | adjusted hadj hcalls =>
    refine .of_silence hcalls _ ?_
    intro k d _ _ hd
    rwa [hadj.displayOf] at hd
  | created kind hadj =>
    refine .of_silence rfl _ ?_
    intro k d hk _ hd
    rwa [hadj.displayOf, ha.displayOf_insertContainer _ hk] at hd
  | displayed c hadj =>
    refine .of_silence rfl _ ?_
    intro k d hk _ hd
    rwa [displayOf_layOut, hadj.displayOf, ha.displayOf_insertContainer _ hk] at hd
  | placed pos hfits hhooks hadj => exact ha.reports_placed hfits hhooks hadj
  | ordered pos hp =>
    refine .of_silence rfl _ ?_
    intro k d _ _ hd
    rwa [ha.displayOf_of_chain (ha.place_again hp pos) (ha.sameChain_place_again hp pos k)] at hd
  | uprooted hp =>
    refine .of_silence rfl _ ?_
    intro k d _ _ hd
    rw [displayOf_layOut] at hd
    exact ha.displayOf_of_uproot hp hd
  | @asked node g _ hg =>
    have hsame : ∀ k, (h.updateContainer node g).displayOf k = h.displayOf k :=
      displayOf_congr rfl (kindOf_updateContainer hg node)
    refine .of_silence rfl _ ?_
    intro k d _ _ hd
    rwa [displayOf_layOut, hsame] at hd
  | @removed m votes l hadj hvotes =>
    have hcalls : arrivals (votes ++ (m.removeEach l).2) = [] := by
      rw [arrivals_append, hvotes, arrivals_removeEach]
      rfl
    refine .of_silence hcalls _ ?_
    intro k d _ hk hd
    rwa [((ha.adjusted hadj).displayOf_removeEach hk).2, hadj.displayOf] at hd

/-- Whatever command is given to whatever hierarchy, exactly those changes of display are reported
that take place. -/
theorem Reachable.reports [Hook η] {settings : Settings} (hr : Reachable settings h)
    (c : Command η) :
    h.Reports (h.apply c).hierarchy (c.moved.elim [] (h.apply c).hierarchy.forest.preorder)
      (h.apply c).calls :=
  hr.arranged.reports_transition (transition_apply h c)

/-- When the stack comes to the other display, the task in it reports that. -/
theorem reports_furnished :
    Reachable {} furnished ∧
      furnished.Reports (furnished.apply (.reparent ⟨3, 1⟩ ⟨2, 1⟩ 0 false)).hierarchy
        ((furnished.apply (.reparent ⟨3, 1⟩ ⟨2, 1⟩ 0 false)).hierarchy.forest.preorder ⟨3, 1⟩)
        (furnished.apply (.reparent ⟨3, 1⟩ ⟨2, 1⟩ 0 false)).calls ∧
      arrivals (furnished.apply (.reparent ⟨3, 1⟩ ⟨2, 1⟩ 0 false)).calls =
        [(⟨4, 1⟩, ⟨2, 1⟩)] := by
  have hr := reachable_furnished
  exact ⟨hr, hr.reports (.reparent ⟨3, 1⟩ ⟨2, 1⟩ 0 false), by decide⟩

end Hierarchy

end WindowForest
