import WindowForest.Forest.Tree
import WindowForest.Proofs.Forest.Relinking

/-!
# Moving

A move takes a node out of the list that it stands in and puts it to a position
of the list of its new parent, counted without the node itself
(`WellFormed.children_move`). Well-formed forests stay well-formed, whatever is
moved and wherever it goes, as long as no node goes under one below itself.
-/

set_option autoImplicit false

namespace WindowForest.Forest

variable {f : Forest} {k node p : Key}

/-- Cutting a list at a position and putting a node into the gap is insertion at the position. -/
theorem take_append_drop_eq_insertIdx (l : List Key) (pos : Nat) (node : Key) :
    l.take pos ++ node :: l.drop pos = l.insertIdx (min pos l.length) node := by
  induction l generalizing pos with
  | nil => simp
  | cons k l ih =>
    cases pos with
    | zero => simp
    | succ pos =>
      rw [List.take_succ_cons, List.drop_succ_cons, List.cons_append, ih, List.length_cons,
        Nat.succ_min_succ, List.insertIdx_succ_cons]

/-- A move changes no liveness. -/
@[simp] theorem mem_move {pos : Nat} : k ∈ f.move node p pos ↔ k ∈ f := by
  simp [move]

/-- Where one of the two is missing, a node is only taken from its old place. -/
theorem move_of_missing {pos : Nat} (h : node ∉ f ∨ p ∉ f) :
    f.move node p pos = f.unlink node := by
  rw [move, link_of_missing]
  simpa using Or.inr h

/-- A move takes the node from its old place first, so that may as well have been done before. -/
theorem move_unlink (pos : Nat) : (f.unlink node).move node p pos = f.move node p pos := by
  have hroot : (f.unlink node).parent node = none := by rw [parent_unlink, if_pos rfl]
  rw [move, unlink_of_root hroot]
  rfl

/-- A node that is not within the tree of another one is not that one. -/
theorem ne_of_not_within (hbelow : ¬ f.Within node p) : node ≠ p := by
  rintro rfl
  exact hbelow (within_refl f node)

/-- A move gives the node its new parent, and leaves the parents of all others as they are. -/
theorem parent_move (hmem : node ∈ f) (hlive : p ∈ f) (hbelow : ¬ f.Within node p) (pos : Nat)
    (k : Key) : (f.move node p pos).parent k = if k = node then some p else f.parent k := by
  rw [move, parent_link (ne_of_not_within hbelow) (mem_unlink.2 hmem) (mem_unlink.2 hlive),
    parent_unlink]
  by_cases hk : k = node
  · rw [if_pos hk, if_pos hk]
  · rw [if_neg hk, if_neg hk, if_neg hk]

/-- What is below a node stays below it when the node is taken from its parent. -/
theorem within_unlink_iff {k : Key} : (f.unlink node).Within node k ↔ f.Within node k := by
  apply within_relinked_iff
  intro c hc
  exact parent_unlink_of_ne hc

namespace WellFormed

variable (h : f.WellFormed)

include h

/-- A well-formed forest stays so when a node is taken out of its list. -/
theorem unlink (node : Key) : (f.unlink node).WellFormed := by
  cases hp : f.parent node with
  | none =>
    rw [unlink_of_root hp]
    exact h
  | some p =>
    obtain ⟨a, b, hcut, -⟩ := h.exists_cut hp
    exact (h.threads.unlink (h.rooted.parent_mem hp) hcut).wellFormed (sound_unlink h.sound)
      (h.rooted.unlink node)

/-- Unlinking takes a node out of the list that it stands in. -/
theorem children_unlink (node q : Key) :
    (f.unlink node).children q = (f.children q).erase node := by
  cases hp : f.parent node with
  | none =>
    rw [unlink_of_root hp, List.erase_of_not_mem]
    rw [h.mem_children_iff, hp]
    simp
  | some p =>
    obtain ⟨a, b, hcut, herase⟩ := h.exists_cut hp
    rw [(h.threads.unlink (h.rooted.parent_mem hp) hcut).children_eq]
    by_cases hq : q = p
    · rw [hq, Function.update_self, herase]
    · rw [Function.update_of_ne hq, List.erase_of_not_mem]
      rw [h.mem_children_iff, hp]
      simpa using Ne.symm hq

/-- The lists of children that the links thread after a move. -/
theorem threads_move (hmem : node ∈ f) (hlive : p ∈ f) (hbelow : ¬ f.Within node p) (pos : Nat) :
    (f.move node p pos).Threads (Function.update (fun q => (f.children q).erase node) p
      (((f.children p).erase node).insertIdx (min pos ((f.children p).erase node).length)
        node)) := by
  have hchildren : (f.unlink node).children = fun q => (f.children q).erase node :=
    funext fun q => h.children_unlink node q
  have hthreads := (h.unlink node).threads
  rw [hchildren] at hthreads
  have hroot : (f.unlink node).parent node = none := by simp [parent_unlink]
  have hlink := hthreads.link (ne_of_not_within hbelow) (mem_unlink.2 hmem)
    (mem_unlink.2 hlive) hroot (a := ((f.children p).erase node).take pos)
    (b := ((f.children p).erase node).drop pos) (List.take_append_drop _ _).symm
  rw [take_append_drop_eq_insertIdx, List.head?_drop] at hlink
  rw [Forest.move, childAt, hchildren]
  exact hlink

/-- A move puts the node to its position among the other children of its new parent. -/
theorem children_move (hmem : node ∈ f) (hlive : p ∈ f) (hbelow : ¬ f.Within node p) (pos : Nat)
    (q : Key) :
    (f.move node p pos).children q =
      if q = p then ((f.children p).erase node).insertIdx
        (min pos ((f.children p).erase node).length) node
      else (f.children q).erase node := by
  rw [(h.threads_move hmem hlive hbelow pos).children_eq]
  by_cases hq : q = p
  · rw [if_pos hq, hq, Function.update_self]
  · rw [if_neg hq, Function.update_of_ne hq]

/-- A well-formed forest stays so when a node is moved under one that is not below it. -/
theorem move (hbelow : node ∈ f → ¬ f.Within node p) (pos : Nat) :
    (f.move node p pos).WellFormed := by
  by_cases hboth : node ∈ f ∧ p ∈ f
  · obtain ⟨hmem, hlive⟩ := hboth
    have hapart : ¬ (f.unlink node).Within node p := fun hw =>
      hbelow hmem (within_unlink_iff.1 hw)
    have hrooted : (f.move node p pos).Rooted :=
      (h.unlink node).rooted.link (ne_of_not_within hapart) (mem_unlink.2 hmem)
        (mem_unlink.2 hlive) hapart
    exact (h.threads_move hmem hlive (hbelow hmem) pos).wellFormed
      (sound_link (sound_unlink h.sound)) hrooted
  · rw [move_of_missing (by tauto)]
    exact h.unlink node

end WellFormed

end WindowForest.Forest
