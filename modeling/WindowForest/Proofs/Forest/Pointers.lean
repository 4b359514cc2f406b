import WindowForest.Forest.Focus
import WindowForest.Forest.Journal
import WindowForest.Proofs.Forest.Run

/-!
# Pointers to active children

A focus is kept outside of the forest that it is about, and nothing but the events
of the tree keeps the two together. The invariant is that every pointer leads from a
node to a child of it (`Focus.Valid`). The critical moment is when a node leaves its
parent. The event comes while the node is still linked, and the focus mends the
pointer in advance: afterwards the pointers are valid for the forest in which the node
is unlinked already (`Valid.leave`). A removal then erases nodes one by one, each of
them together with its pointer.

Valid pointers lead down a tree, so following them comes to an end, below the node at
which it starts (`Valid.exists_path`). The main statement, `pointers_upheld`, is about
runs in which the focus is also changed from outside, and told of events that never
happened.
-/

set_option autoImplicit false

namespace WindowForest

namespace Focus

variable {s : Focus} {f : Forest} {c k node p : Key}

/-- Pointing a node at a child changes that pointer only. -/
theorem lastActive_point (s : Focus) (p c k : Key) :
    (s.point p c).lastActive k = if p = k then some c else s.lastActive k := by
  unfold lastActive point
  rw [Std.ExtTreeMap.getElem?_insert]
  simp

/-- Forgetting a node erases its pointer only. -/
theorem lastActive_forget (s : Focus) (p k : Key) :
    (s.forget p).lastActive k = if p = k then none else s.lastActive k := by
  unfold lastActive forget
  rw [Std.ExtTreeMap.getElem?_erase]
  simp

/-- Only the pointer of the parent is passed on, and only if it leads to the node that leaves. -/
theorem lastActive_leave (s : Focus) (f : Forest) (node k : Key) :
    (s.leave f node).lastActive k =
      if f.parent node = some k ∧ s.lastActive k = some node then (f.next node).or (f.prev node)
      else s.lastActive k := by
  unfold leave
  cases hp : f.parent node with
  | none => simp
  | some p =>
    dsimp only
    by_cases hactive : s.lastActive p = some node
    · rw [if_pos hactive]
      by_cases hk : p = k
      · subst hk
        rw [if_pos ⟨rfl, hactive⟩]
        cases (f.next node).or (f.prev node) with
        | none => exact (lastActive_forget s p p).trans (if_pos rfl)
        | some heir => exact (lastActive_point s p heir p).trans (if_pos rfl)
      · rw [if_neg fun h => hk (Option.some.inj h.1)]
        cases (f.next node).or (f.prev node) with
        | none => exact (lastActive_forget s p k).trans (if_neg hk)
        | some heir => exact (lastActive_point s p heir k).trans (if_neg hk)
    · rw [if_neg hactive, if_neg]
      rintro ⟨hk, hk'⟩
      rw [Option.some.inj hk] at hactive
      exact hactive hk'

/-- The pointers are kept for the nodes that have one. -/
theorem mem_pointers_iff : k ∈ s.pointers ↔ (s.lastActive k).isSome := by
  unfold lastActive
  exact Std.ExtTreeMap.mem_iff_isSome_getElem?

/-- Every pointer leads from a node to one of its children. -/
def Valid (s : Focus) (f : Forest) : Prop := ∀ p c, s.lastActive p = some c → f.parent c = some p

/-- No pointers are valid pointers. -/
theorem valid_empty (f : Forest) : (∅ : Focus).Valid f := by
  intro p c hc
  rw [lastActive, show (∅ : Focus).pointers[p]? = none from Std.ExtTreeMap.getElem?_empty] at hc
  cases hc

namespace Valid

/-- A pointer from a parent to a child of it is a valid one. -/
theorem point (h : s.Valid f) (hc : f.parent c = some p) : (s.point p c).Valid f := by
  intro q d hd
  rw [lastActive_point] at hd
  split at hd
  · next hq => rw [← Option.some.inj hd, ← hq, hc]
  · exact h q d hd

/-- Fewer pointers are still valid. -/
theorem forget (h : s.Valid f) (p : Key) : (s.forget p).Valid f := by
  intro q c hc
  rw [lastActive_forget] at hc
  split at hc
  · cases hc
  · exact h q c hc

/-- Making a node active points parents to their children. -/
theorem select (h : s.Valid f) (node : Key) : (s.select f node).Valid f := by
  unfold Focus.select
  generalize f.ancestors node = chain
  induction chain generalizing s with
  | nil => exact h
  | cons k chain ih =>
    rw [List.foldl_cons]
    apply ih
    cases hp : f.parent k with
    | none => exact h
    | some p => exact h.point hp

/-- Only the parent of a node points to it. -/
theorem ne_of_pointer (h : s.Valid f) (hp : f.parent node = some p)
    (hnode : s.lastActive p ≠ some node) {q : Key} (hq : s.lastActive q = some c) : c ≠ node := by
  rintro rfl
  obtain rfl := Option.mem_unique hp (h q c hq)
  exact hnode hq

end Valid

/-- What a parent points to after its active child has left is one of the other children. -/
theorem mem_of_heir (hf : f.WellFormed) (hp : f.parent node = some p) {heir : Key}
    (hheir : (f.next node).or (f.prev node) = some heir) :
    (f.unlink node).parent heir = some p := by
  obtain ⟨a, b, hcut, herase⟩ := hf.exists_cut hp
  obtain ⟨hprev, hnext⟩ := hf.threads.siblings hcut
  rw [hprev, hnext, Option.or_eq_some_iff] at hheir
  rw [← (hf.unlink node).mem_children_iff, hf.children_unlink, herase, List.mem_append]
  rcases hheir with hhead | ⟨-, hlast⟩
  · exact .inr (List.mem_of_head? hhead)
  · exact .inl (List.mem_of_getLast? hlast)

/-- When a node is about to leave its parent, the pointers become valid for the forest in which it
has left. -/
theorem Valid.leave (hf : f.WellFormed) (h : s.Valid f) (node : Key) :
    (s.leave f node).Valid (f.unlink node) := by
  unfold Focus.leave
  cases hp : f.parent node with
  | none =>
    rw [Forest.unlink_of_root hp]
    exact h
  | some p =>
    -- Pointers to other nodes do not notice that this one leaves.
    have hrest : ∀ q c, s.lastActive q = some c → c ≠ node →
        (f.unlink node).parent c = some q := by
      intro q c hc hne
      rw [Forest.parent_unlink_of_ne hne]
      exact h q c hc
    dsimp only
    by_cases hactive : s.lastActive p = some node
    · have hother : ∀ q c, p ≠ q → s.lastActive q = some c → (f.unlink node).parent c = some q := by
        intro q c hq hc
        refine hrest q c hc ?_
        rintro rfl
        exact hq (Option.mem_unique hp (h q c hc))
      rw [if_pos hactive]
      cases hheir : (f.next node).or (f.prev node) with
      | none =>
        intro q c hc
        rw [lastActive_forget] at hc
        split at hc
        · cases hc
        · next hq => exact hother q c hq hc
      | some heir =>
        intro q c hc
        rw [lastActive_point] at hc
        split at hc
        · next hq =>
          rw [← Option.some.inj hc, ← hq]
          exact mem_of_heir hf hp hheir
        · next hq => exact hother q c hq hc
    · rw [if_neg hactive]
      intro q c hc
      exact hrest q c hc (h.ne_of_pointer hp hactive hc)

/-- A node comes under another one only after it has left its own parent. -/
theorem Valid.move (h : s.Valid (f.unlink node)) (hbelow : node ∈ f → ¬ f.Within node p)
    (pos : Nat) : s.Valid (f.move node p pos) := by
  intro q c hc
  have hparent := h q c hc
  by_cases hboth : node ∈ f ∧ p ∈ f
  · obtain ⟨hmem, hlive⟩ := hboth
    rw [Forest.parent_unlink] at hparent
    rw [Forest.parent_move hmem hlive (hbelow hmem)]
    split at hparent
    · cases hparent
    · next hne => rwa [if_neg hne]
  · rwa [Forest.move_of_missing (by tauto)]

/-- Pointers that are valid without the link to the parent are valid with it. -/
theorem Valid.of_unlink (h : s.Valid (f.unlink node)) : s.Valid f := by
  intro p c hc
  have hparent := h p c hc
  rw [Forest.parent_unlink] at hparent
  split at hparent
  · cases hparent
  · exact hparent

/-- Whatever the focus is told, rightly or not, its pointers stay valid. -/
theorem Valid.notice (hf : f.WellFormed) (h : s.Valid f) (e : Event) :
    (Observer.notice s f e).Valid f := by
  obtain ⟨change, node⟩ := e
  cases change with
  | added => exact h
  | attached => exact h
  | detaching => exact (h.leave hf node).of_unlink
  | removed => exact h.forget node

/-! ## Following the pointers -/

/-- From any key the pointers lead down to an end. -/
theorem Valid.exists_path (hf : f.WellFormed) (h : s.Valid f) (r : Key) :
    ∃ path, Trail s.lastActive (some r) path none ∧ ∀ k ∈ path, f.Within r k := by
  induction r using hf.rooted.descend with
  | node r ih =>
    cases hr : s.lastActive r with
    | none =>
      refine ⟨[r], ⟨rfl, hr⟩, ?_⟩
      intro k hk
      rw [List.mem_singleton.1 hk]
      exact Forest.within_refl f r
    | some c =>
      have hc := h r c hr
      obtain ⟨path, hpath, hbelow⟩ := ih c hc
      refine ⟨r :: path, ⟨rfl, hr.symm ▸ hpath⟩, ?_⟩
      intro k hk
      rcases List.mem_cons.1 hk with rfl | hk
      · exact Forest.within_refl f k
      · exact (Forest.within_of_parent hc).trans (hbelow k hk)

/-- The search for the active node goes all the way along a path that comes to an end. -/
theorem getLast?_path {r : Key} {path : List Key} (hpath : Trail s.lastActive (some r) path none) :
    path.getLast? = some (s.active r) := by
  have hkeys : path.dropLast.length ≤ s.pointers.size := by
    refine Store.length_le_tableSize (hpath.nodup.sublist path.dropLast_sublist) ?_
    intro k hk
    exact mem_pointers_iff.2 (hpath.isSome_of_mem_dropLast hk)
  have hlength : path.length ≤ s.pointers.size + 1 := by
    rw [List.length_dropLast] at hkeys
    omega
  unfold active
  rw [hpath.follow_eq hlength]
  cases path with
  | nil => cases hpath
  | cons k path => simp [List.getLast?_cons]

/-- A focus is upheld in a forest when all that it points out is there. -/
structure Upheld (s : Focus) (f : Forest) : Prop where
  /-- A pointer leads from a live node to a live child of it. -/
  pointer : ∀ p c, s.lastActive p = some c → p ∈ f ∧ c ∈ f ∧ f.parent c = some p
  removed : ∀ k, k ∉ f → s.lastActive k = none
  childless : ∀ k, f.children k = [] → s.lastActive k = none
  /-- The search for the active node comes to an end, and gives the end of the path. -/
  search : ∀ r, ∃ path, Trail s.lastActive (some r) path none ∧ path.getLast? = some (s.active r)
  /-- The active node has no pointer. -/
  active_end : ∀ r, s.lastActive (s.active r) = none
  /-- It is the key that the search starts from, or a live node below. -/
  active_below : ∀ r, s.active r = r ∨ s.active r ∈ f ∧ f.Within r (s.active r)

/-- Valid pointers point out what is there. -/
theorem Valid.upheld (hf : f.WellFormed) (h : s.Valid f) : s.Upheld f where
  pointer p c hc := by
    have hp := h p c hc
    exact ⟨hf.rooted.parent_mem hp, Forest.mem_of_parent hp, hp⟩
  removed k hk := by
    rw [← Option.not_isSome_iff_eq_none, Option.isSome_iff_exists]
    rintro ⟨c, hc⟩
    exact hk (hf.rooted.parent_mem (h k c hc))
  childless k hk := by
    rw [← Option.not_isSome_iff_eq_none, Option.isSome_iff_exists]
    rintro ⟨c, hc⟩
    have hmem := hf.mem_children_iff.2 (h k c hc)
    simp [hk] at hmem
  search r := by
    obtain ⟨path, hpath, -⟩ := h.exists_path hf r
    exact ⟨path, hpath, getLast?_path hpath⟩
  active_end r := by
    obtain ⟨path, hpath, -⟩ := h.exists_path hf r
    exact hpath.step_getLast? (getLast?_path hpath)
  active_below r := by
    obtain ⟨path, hpath, hbelow⟩ := h.exists_path hf r
    have hwithin := hbelow _ (List.mem_of_getLast? (getLast?_path hpath))
    rcases Forest.within_iff.1 hwithin with heq | ⟨p, hp, -⟩
    · exact .inl heq
    · exact .inr ⟨Forest.mem_of_parent hp, hwithin⟩

end Focus

/-! ## Trees that keep a focus -/

/-- Observers that keep a focus, and pass on to it whatever they are told. -/
class KeepsFocus (σ : Type) [Observer σ] where
  focus : σ → Focus
  focus_notice : ∀ (s : σ) (f : Forest) (e : Event),
    focus (Observer.notice s f e) = Observer.notice (focus s) f e

instance : KeepsFocus Focus where
  focus s := s
  focus_notice _ _ _ := rfl

instance {σ τ : Type} [Observer σ] [Observer τ] [KeepsFocus τ] : KeepsFocus (σ × τ) where
  focus s := KeepsFocus.focus s.2
  focus_notice s f e := KeepsFocus.focus_notice s.2 f e

namespace Tree

variable {σ : Type} [Observer σ] [KeepsFocus σ] {t u : Tree σ} {node p : Key}

/-- The focus that the observer of a tree keeps. -/
def focus (t : Tree σ) : Focus := KeepsFocus.focus t.observer

/-- The focus is told what the observer is told. -/
theorem focus_notify (t : Tree σ) (change : Change) (node : Key) :
    (t.notify change node).focus = Observer.notice t.focus t.forest ⟨change, node⟩ :=
  KeepsFocus.focus_notice t.observer t.forest ⟨change, node⟩

/-- A new node leaves the focus as it is. -/
theorem focus_create (t : Tree σ) : t.create.2.focus = t.focus :=
  KeepsFocus.focus_notice t.observer _ _

/-- Of a node that is uprooted the focus is told that it leaves. -/
theorem focus_uproot (t : Tree σ) (node : Key) :
    (t.uproot node).focus = t.focus.leave t.forest node := by
  unfold uproot
  cases hp : t.forest.parent node with
  | none =>
    unfold Focus.leave
    rw [hp]
  | some p => exact focus_notify t .detaching node

/-- Only a node that comes under another parent than before is said to leave. -/
theorem focus_place (t : Tree σ) (node parent : Key) (pos : Nat) :
    (t.place node parent pos).focus =
      if t.forest.parent node = some parent then t.focus else t.focus.leave t.forest node := by
  unfold place
  cases hp : t.forest.parent node with
  | none =>
    unfold Focus.leave
    rw [hp]
    exact KeepsFocus.focus_notice t.observer _ _
  | some old =>
    dsimp only
    by_cases hold : old = parent
    · rw [if_pos hold, if_pos (congrArg some hold)]
      rfl
    · rw [if_neg hold, if_neg (by simpa using hold)]
      rw [focus_notify]
      exact focus_notify t .detaching node

/-- With erased nodes go their pointers. -/
theorem lastActive_foldl_erase (t : Tree σ) (l : List Key) (k : Key) :
    (l.foldl erase t).focus.lastActive k = if k ∈ l then none else t.focus.lastActive k := by
  induction l generalizing t with
  | nil => simp
  | cons j l ih =>
    have herase : (t.erase j).focus = t.focus.forget j := KeepsFocus.focus_notice t.observer _ _
    rw [List.foldl_cons, ih, herase, Focus.lastActive_forget]
    by_cases hj : j = k
    · simp [hj]
    · simp [hj, Ne.symm hj]

/-- With a node go the pointers of all below it. -/
theorem lastActive_remove (t : Tree σ) (node k : Key) :
    (t.remove node).focus.lastActive k =
      if k ∈ (t.forest.unlink node).preorder node then none
      else (t.focus.leave t.forest node).lastActive k := by
  unfold remove
  rw [lastActive_foldl_erase, forest_uproot, focus_uproot]

/-! ## Steps keep pointers valid -/

section Valid

variable (ht : t.forest.WellFormed) (h : t.focus.Valid t.forest)

include ht h

/-- A new node keeps the pointers valid. -/
theorem valid_create : t.create.2.focus.Valid t.create.2.forest := by
  rw [focus_create, forest_create]
  intro p c hc
  rw [ht.parent_sprout]
  exact h p c hc

/-- Uprooting keeps the pointers valid. -/
theorem valid_uproot (node : Key) : (t.uproot node).focus.Valid (t.uproot node).forest := by
  rw [focus_uproot, forest_uproot]
  exact h.leave ht node

/-- Placing keeps the pointers valid. -/
theorem valid_place (apart : node ∈ t.forest → ¬ t.forest.Within node p) (pos : Nat) :
    (t.place node p pos).focus.Valid (t.place node p pos).forest := by
  rw [focus_place, forest_place]
  by_cases hp : t.forest.parent node = some p
  · -- Among the children of its parent a node moves unnoticed, and no parent changes.
    rw [if_pos hp]
    intro q c hc
    rw [Forest.parent_move (Forest.mem_of_parent hp) (ht.rooted.parent_mem hp)
      (ht.rooted.not_within_parent hp)]
    split
    · next hc' => rw [← hp, ← hc', h q c hc]
    · exact h q c hc
  · rw [if_neg hp]
    exact (h.leave ht node).move apart pos

/-- Removing keeps the pointers valid. -/
theorem valid_remove (node : Key) : (t.remove node).focus.Valid (t.remove node).forest := by
  rw [forest_remove]
  intro p c hc
  rw [lastActive_remove] at hc
  split at hc
  · cases hc
  · next hout =>
    -- Neither the parent nor the child is pruned, since a pruned tree hangs on nothing else.
    have hparent := h.leave ht node p c hc
    have hout' : c ∉ (t.forest.unlink node).preorder node := fun hmem =>
      hout ((ht.pruned_closed hparent).2 hmem)
    exact (Forest.bind_get?_prune Links.parent hout').trans hparent

/-- One step of a run keeps the pointers valid. -/
theorem Step.valid {e : Edit} (step : Step t e u) : u.focus.Valid u.forest := by
  cases step with
  | create => exact valid_create ht h
  | place node parent pos apart => exact valid_place ht h apart pos
  | uproot node => exact valid_uproot ht h node
  | remove node => exact valid_remove ht h node

end Valid

/-! ## Runs -/

/-- One step of a run in which the focus is not left to the tree alone. -/
inductive Stir : Tree σ → Tree σ → Prop
  | edit {t u : Tree σ} {e : Edit} : Step t e u → Stir t u
  /-- Some node is made active. -/
  | select (t : Tree σ) (node : Key) (observer : σ)
      (hfocus : KeepsFocus.focus observer = t.focus.select t.forest node) :
      Stir t { t with observer }
  /-- The focus is told of a change that does not happen. -/
  | stray (t : Tree σ) (e : Event) (observer : σ)
      (hfocus : KeepsFocus.focus observer = Observer.notice t.focus t.forest e) :
      Stir t { t with observer }

/-- Whatever else is done to the focus or told to it, the pointers stay valid. -/
theorem Stir.valid (stir : Stir t u) (ht : t.forest.WellFormed) (h : t.focus.Valid t.forest) :
    u.forest.WellFormed ∧ u.focus.Valid u.forest := by
  cases stir with
  | edit step => exact ⟨step.wellFormed ht, step.valid ht h⟩
  | select node observer hfocus =>
    refine ⟨ht, ?_⟩
    show (KeepsFocus.focus observer).Valid t.forest
    rw [hfocus]
    exact h.select node
  | stray e observer hfocus =>
    refine ⟨ht, ?_⟩
    show (KeepsFocus.focus observer).Valid t.forest
    rw [hfocus]
    exact h.notice ht e

/-- Whatever is done to a tree and to the focus that it keeps, in whatever order, the pointers lead
from parents to children, and the active node is found below the node it is sought for. -/
theorem pointers_upheld {observer : σ} (hempty : KeepsFocus.focus observer = ∅)
    (run : Relation.ReflTransGen Stir { observer } t) : t.focus.Upheld t.forest := by
  have hboth : t.forest.WellFormed ∧ t.focus.Valid t.forest := by
    induction run with
    | refl =>
      refine ⟨Forest.wellFormed_empty, ?_⟩
      show (KeepsFocus.focus observer).Valid ∅
      rw [hempty]
      exact Focus.valid_empty ∅
    | tail _ stir ih => exact stir.valid ih.1 ih.2
  exact hboth.2.upheld hboth.1

/-- The active one of two siblings is removed, after a false report about the other one, which then
takes its place. -/
theorem pointers_upheld_succeeded :
    ∃ t : Tree (Journal × Focus),
      KeepsFocus.focus (({}, ∅) : Journal × Focus) = ∅ ∧
      Relation.ReflTransGen Stir { observer := ({}, ∅) } t ∧ t.focus.Upheld t.forest ∧
      ⟨3, 1⟩ ∉ t.forest ∧ t.focus.lastActive ⟨1, 1⟩ = some ⟨2, 1⟩ ∧
      t.focus.active ⟨1, 1⟩ = ⟨2, 1⟩ := by
  have first : Relation.ReflTransGen Stir ({ observer := ({}, ∅) } : Tree (Journal × Focus))
    { observer := ({}, ∅) } := .refl
  have run := first
    |>.tail (.edit (.create _)) |>.tail (.edit (.create _)) |>.tail (.edit (.create _))
    |>.tail (.edit (.place_root _ ⟨2, 1⟩ ⟨1, 1⟩ 0 (by decide) (by decide)))
    |>.tail (.edit (.place_root _ ⟨3, 1⟩ ⟨1, 1⟩ 0 (by decide) (by decide)))
    |>.tail (.select _ ⟨3, 1⟩ ({}, (∅ : Focus).point ⟨1, 1⟩ ⟨3, 1⟩) rfl)
    |>.tail (.stray _ ⟨.detaching, ⟨2, 1⟩⟩ ({}, (∅ : Focus).point ⟨1, 1⟩ ⟨3, 1⟩) rfl)
    |>.tail (.edit (.remove _ ⟨3, 1⟩))
  exact ⟨_, rfl, run, pointers_upheld rfl run, by decide, by decide, by decide⟩

end Tree

end WindowForest
