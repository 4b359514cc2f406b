import WindowForest.Proofs.Forest.Growth

/-!
# Runs over a tree

A run creates, places, uproots and removes nodes, in any order, under any keys
and at any positions, live or not. The one thing that a run does not do is to
place a live node under itself or under a node below it. Whatever the observer
makes of it, the forest stays well-formed (`Run.wellFormed`).
-/

set_option autoImplicit false

namespace WindowForest

/-- What is done to a tree in one step of a run. -/
inductive Edit where
  /-- A node is made, and gets this key. -/
  | create (node : Key)
  | place (node parent : Key) (pos : Nat)
  | uproot (node : Key)
  | remove (node : Key)
deriving DecidableEq, Repr, Inhabited

namespace Tree

variable {σ : Type} [Observer σ] {t u : Tree σ}

/-- One step of a run. -/
inductive Step : Tree σ → Edit → Tree σ → Prop
  | create (t : Tree σ) : Step t (.create t.create.1) t.create.2
  | place (t : Tree σ) (node parent : Key) (pos : Nat)
      (apart : node ∈ t.forest → ¬ t.forest.Within node parent) :
      Step t (.place node parent pos) (t.place node parent pos)
  | uproot (t : Tree σ) (node : Key) : Step t (.uproot node) (t.uproot node)
  | remove (t : Tree σ) (node : Key) : Step t (.remove node) (t.remove node)

/-- A run, with what it does from the first step to the last. -/
inductive Run (start : Tree σ) : List Edit → Tree σ → Prop
  | start : Run start [] start
  | step {edits : List Edit} {e : Edit} {t u : Tree σ} :
    Run start edits t → Step t e u → Run start (edits ++ [e]) u

/-- Under a root, any other node can be placed. -/
theorem Step.place_root (t : Tree σ) (node parent : Key) (pos : Nat)
    (hroot : t.forest.parent parent = none) (hne : node ≠ parent) :
    Step t (.place node parent pos) (t.place node parent pos) := by
  apply Step.place
  intro _
  exact Forest.not_within_of_root hroot hne

/-! ## What the operations make of the forest -/

/-- A created node sprouts. -/
theorem forest_create (t : Tree σ) : t.create.2.forest = t.forest.sprout := rfl

/-- A placed node is moved, whatever is told of it. -/
theorem forest_place (t : Tree σ) (node parent : Key) (pos : Nat) :
    (t.place node parent pos).forest = t.forest.move node parent pos := by
  unfold place
  split
  · rfl
  · split <;> rfl

/-- An uprooted node is unlinked, and a root was so before. -/
theorem forest_uproot (t : Tree σ) (node : Key) :
    (t.uproot node).forest = t.forest.unlink node := by
  unfold uproot
  cases hp : t.forest.parent node with
  | none => exact (Forest.unlink_of_root hp).symm
  | some p => rfl

/-- Under another parent than its own, a node is placed in the way in which a root is: nobody is
told more or less if it is uprooted first. -/
theorem place_uproot {node parent : Key} (hnew : t.forest.parent node ≠ some parent) (pos : Nat) :
    (t.uproot node).place node parent pos = t.place node parent pos := by
  have hroot : (t.uproot node).forest.parent node = none := by
    rw [forest_uproot, Forest.parent_unlink, if_pos rfl]
  cases hp : t.forest.parent node with
  | none =>
    unfold uproot
    rw [hp]
  | some old =>
    have hold : old ≠ parent := fun heq => hnew (hp.trans (congrArg some heq))
    have huproot : t.uproot node =
        { t.notify .detaching node with forest := t.forest.unlink node } := by
      unfold uproot
      rw [hp]
      rfl
    unfold place
    rw [hroot, hp, forest_uproot, Forest.move_unlink, huproot]
    exact (if_neg hold).symm

/-- Erasing nodes in a row erases their keys. -/
theorem forest_foldl_erase (t : Tree σ) (l : List Key) :
    (l.foldl erase t).forest = l.foldl Store.erase t.forest := by
  induction l generalizing t with
  | nil => rfl
  | cons k l ih => exact ih (t.erase k)

/-- With a removed node goes the tree below it. -/
theorem forest_remove (t : Tree σ) (node : Key) :
    (t.remove node).forest = t.forest.prune node := by
  unfold remove Forest.prune
  rw [forest_foldl_erase, forest_uproot]

/-! ## What the operations leave to the observer -/

section

variable {P : σ → Prop} (hP : ∀ s f e, P s → P (Observer.notice s f e)) (h : P t.observer)

include hP h

/-- What an observer keeps whatever it is told, it keeps through every operation. -/
theorem uproot_keeps (node : Key) : P (t.uproot node).observer := by
  unfold uproot
  cases t.forest.parent node with
  | none => exact h
  | some p => exact hP _ _ _ h

/-- Whoever is told of a placement keeps what no event changes. -/
theorem place_keeps (node parent : Key) (pos : Nat) : P (t.place node parent pos).observer := by
  unfold place
  cases t.forest.parent node with
  | none => exact hP _ _ _ h
  | some old =>
    dsimp only
    split
    · exact h
    · exact hP _ _ _ (hP _ _ _ h)

/-- Whoever is told of erased nodes keeps what no event changes. -/
theorem foldl_erase_keeps (l : List Key) : P (l.foldl erase t).observer := by
  induction l generalizing t with
  | nil => exact h
  | cons k l ih => exact ih (t := t.erase k) (hP _ _ _ h)

/-- Whoever is told of a removal keeps what no event changes. -/
theorem remove_keeps (node : Key) : P (t.remove node).observer := by
  have huproot : P (t.uproot node).observer := uproot_keeps hP h node
  exact foldl_erase_keeps hP huproot _

end

/-! ## Trees seen through another observer -/

/-- The tree with what its observer has noted translated. -/
def map {τ : Type} (φ : σ → τ) (t : Tree σ) : Tree τ := ⟨t.forest, φ t.observer⟩

section

variable {τ : Type} [Observer τ] {φ : σ → τ}
  (hφ : ∀ s f e, φ (Observer.notice s f e) = Observer.notice (φ s) f e)

include hφ

/-- Telling and translating may be exchanged. -/
theorem map_notify (t : Tree σ) (change : Change) (node : Key) :
    (t.map φ).notify change node = (t.notify change node).map φ := by
  unfold notify map
  rw [hφ]

/-- What an observer notes of a node that is uprooted is the same translated. -/
theorem map_uproot (t : Tree σ) (node : Key) :
    (t.map φ).uproot node = (t.uproot node).map φ := by
  unfold uproot
  rw [show (t.map φ).forest = t.forest from rfl]
  cases t.forest.parent node with
  | none => rfl
  | some p =>
    dsimp only
    rw [map_notify hφ]
    rfl

/-- What an observer notes of erased nodes is the same translated. -/
theorem map_foldl_erase (t : Tree σ) (l : List Key) :
    l.foldl erase (t.map φ) = (l.foldl erase t).map φ := by
  induction l generalizing t with
  | nil => rfl
  | cons k l ih =>
    have herase : (t.map φ).erase k = (t.erase k).map φ :=
      map_notify hφ { t with forest := t.forest.erase k } .removed k
    rw [List.foldl_cons, List.foldl_cons, herase, ih]

/-- What an observer notes of a removal is the same after the translation as before it. -/
theorem map_remove (t : Tree σ) (node : Key) :
    (t.map φ).remove node = (t.remove node).map φ := by
  unfold remove
  rw [map_uproot hφ, ← map_foldl_erase hφ]
  rfl

end

/-! ## Well-formed runs -/

/-- One step of a run keeps the forest well-formed. -/
theorem Step.wellFormed {e : Edit} (h : Step t e u) (ht : t.forest.WellFormed) :
    u.forest.WellFormed := by
  cases h with
  | create =>
    rw [forest_create]
    exact ht.sprout
  | place node parent pos apart =>
    rw [forest_place]
    exact ht.move apart pos
  | uproot node =>
    rw [forest_uproot]
    exact ht.unlink node
  | remove node =>
    rw [forest_remove]
    exact ht.prune node

/-- A run keeps the forest well-formed. -/
theorem Run.wellFormed {start : Tree σ} {edits : List Edit} (run : Run start edits t)
    (h : start.forest.WellFormed) : t.forest.WellFormed := by
  induction run with
  | start => exact h
  | step _ hstep ih => exact hstep.wellFormed ih

end Tree

/-- The forest without nodes is well-formed. -/
theorem Forest.wellFormed_empty : Forest.WellFormed ∅ := by
  have hfield : ∀ (field : Links → Option Key) (k : Key),
      (Store.get? (∅ : Forest) k).bind field = none := by
    intro field k
    rw [Store.get?_empty]
    rfl
  have hparent : ∀ k p, ¬ Forest.parent ∅ k = some p := by
    intro k p hp
    rw [Forest.parent, hfield] at hp
    cases hp
  have hthreads : Forest.Threads ∅ fun _ => [] :=
    { nodup := fun _ => List.nodup_nil
      mem_iff := by
        intro p k
        exact iff_of_false (by simp) (hparent k p)
      right := by
        intro p a b hcut
        obtain ⟨rfl, rfl⟩ := List.append_eq_nil_iff.1 hcut.symm
        exact hfield Links.first p
      left := by
        intro p a b hcut
        obtain ⟨rfl, rfl⟩ := List.append_eq_nil_iff.1 hcut.symm
        exact hfield Links.last p
      alone := fun {k} _ => ⟨hfield Links.prev k, hfield Links.next k⟩ }
  exact hthreads.wellFormed Store.sound_empty
    ⟨fun hp => absurd hp (hparent _ _), ⟨fun k => ⟨k, fun p hp => absurd hp (hparent k p)⟩⟩⟩

end WindowForest
