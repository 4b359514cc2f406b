import WindowForest.Proofs.Forest.Determined
import WindowForest.Proofs.Forest.Outline

/-!
# Shifting a node

A node is shifted when it is moved to a place, under some parent and at some position
there, or taken out of any list. Both ways leave the order of all other nodes alone
(`WellFormed.others_shift`), so a forest after a shift depends only on the lists without
the shifted node and on the place that it went to. Two laws follow. Of several shifts of
a node only the last one counts (`WellFormed.shift_shift`), and a shift to the place
where the node is changes nothing (`WellFormed.shift_self`).
-/

set_option autoImplicit false

namespace WindowForest.Forest

variable {f f' : Forest} {k node p q : Key} {pos i : Nat} {place place' : Option (Key × Nat)}

/-- The children of `p` apart from `node`, in order. -/
def others (f : Forest) (p node : Key) : List Key := (f.children p).filter (· ≠ node)

/-- Moves a node to a place, given by a parent and a position there, or takes it from its parent
where no place is given. -/
def shift (f : Forest) (node : Key) : Option (Key × Nat) → Forest
  | some (p, pos) => f.move node p pos
  | none => f.unlink node

/-- A node may go to a place if it and the parent there are live, and the parent is not below it. -/
def Admits (f : Forest) (node : Key) (place : Option (Key × Nat)) : Prop :=
  ∀ p pos, place = some (p, pos) → node ∈ f ∧ p ∈ f ∧ ¬ f.Within node p

/-- Every node may be taken from its parent. -/
theorem admits_none (f : Forest) (node : Key) : f.Admits node none := by
  rintro p pos ⟨⟩

/-- What it takes for a node to go under a parent, spelled out. -/
theorem admits_some_iff :
    f.Admits node (some (p, pos)) ↔ node ∈ f ∧ p ∈ f ∧ ¬ f.Within node p := by
  constructor
  · exact fun hplace => hplace p pos rfl
  · rintro hall _ _ ⟨⟩
    exact hall

/-- What is left of a list when a node is filtered out does not depend on where it stood. -/
theorem filter_insertIdx {l : List Key} (hout : node ∉ l) (pos : Nat) :
    (l.insertIdx (min pos l.length) node).filter (· ≠ node) = l := by
  have hkeep : ∀ m : List Key, (∀ x ∈ m, x ∈ l) → m.filter (· ≠ node) = m := fun m hm =>
    List.filter_eq_self.2 fun x hx => decide_eq_true fun e => hout (e ▸ hm x hx)
  rw [← take_append_drop_eq_insertIdx, List.filter_append, List.filter_cons_of_neg (by simp),
    hkeep _ fun x => List.mem_of_mem_take, hkeep _ fun x => List.mem_of_mem_drop,
    List.take_append_drop]

/-- A node is not among the others. -/
theorem notMem_others : node ∉ f.others p node := by simp [others]

/-- Nobody is missing among the other children of a key that is not the parent. -/
theorem others_of_not_parent (h : f.WellFormed) (hp : f.parent node ≠ some p) :
    f.others p node = f.children p := by
  apply List.filter_eq_self.2
  intro x hx
  apply decide_eq_true
  rintro rfl
  exact hp (h.mem_children_iff.1 hx)

/-- A shift changes no liveness. -/
@[simp] theorem mem_shift : k ∈ f.shift node place ↔ k ∈ f := by
  cases place with
  | none => exact mem_unlink
  | some place => exact mem_move

/-- A shift uses up no slot. -/
theorem unused_shift : (f.shift node place).unused = f.unused := by
  cases place with
  | none => exact unused_unlink f node
  | some place => exact unused_move

/-- A shift gives back no slot. -/
theorem freed_shift : (f.shift node place).freed = f.freed := by
  cases place with
  | none => exact freed_unlink f node
  | some place => exact freed_move

/-- A shift gives the node the parent of its place, or none, and leaves all other parents. -/
theorem parent_shift (hplace : f.Admits node place) (k : Key) :
    (f.shift node place).parent k = if k = node then place.map Prod.fst else f.parent k := by
  match place with
  | none =>
    rw [shift, parent_unlink]
    rfl
  | some (p, pos) =>
    obtain ⟨hmem, hlive, hbelow⟩ := admits_some_iff.1 hplace
    rw [shift, parent_move hmem hlive hbelow]
    rfl

/-- What lies below a node goes with it. -/
theorem within_shift_iff (hplace : f.Admits node place) :
    (f.shift node place).Within node k ↔ f.Within node k := by
  apply within_relinked_iff
  intro c hc
  rw [parent_shift hplace, if_neg hc]

/-- Where a node may go does not depend on where it is. -/
theorem Admits.shift (hplace : f.Admits node place) (hplace' : f.Admits node place') :
    (f.shift node place).Admits node place' := by
  intro p pos he
  obtain ⟨hmem, hlive, hbelow⟩ := hplace' p pos he
  exact ⟨mem_shift.2 hmem, mem_shift.2 hlive, fun hw => hbelow ((within_shift_iff hplace).1 hw)⟩

namespace WellFormed

variable (h : f.WellFormed)

include h

/-- The other children of a node are the list without its first mention. -/
theorem others_eq_erase (p node : Key) : f.others p node = (f.children p).erase node := by
  rw [(h.nodup_children p).erase_eq_filter, others]
  exact List.filter_congr fun x _ => Bool.eq_iff_iff.2 (by simp)

/-- A node may go to any position under the parent that it has. -/
theorem admits_parent (hp : f.parent node = some p) (pos : Nat) :
    f.Admits node (some (p, pos)) := by
  rw [admits_some_iff]
  exact ⟨mem_of_parent hp, h.rooted.parent_mem hp, h.rooted.not_within_parent hp⟩

/-- A well-formed forest stays so when a node is shifted. -/
theorem shift (hplace : f.Admits node place) : (f.shift node place).WellFormed := by
  match place with
  | none => exact h.unlink node
  | some (p, pos) => exact h.move (fun _ => (admits_some_iff.1 hplace).2.2) pos

/-- After a shift the node stands at its place among the other children there, and in no other list.
-/
theorem children_shift (hplace : f.Admits node place) (q : Key) :
    (f.shift node place).children q = place.elim (f.others q node) fun spot =>
      if q = spot.1 then
        (f.others spot.1 node).insertIdx (min spot.2 (f.others spot.1 node).length) node
      else f.others q node := by
  match place with
  | none => exact (h.children_unlink node q).trans (h.others_eq_erase q node).symm
  | some (p, pos) =>
    obtain ⟨hmem, hlive, hbelow⟩ := admits_some_iff.1 hplace
    rw [Forest.shift, h.children_move hmem hlive hbelow, ← h.others_eq_erase,
      ← h.others_eq_erase]
    rfl

/-- The law of shifts: the order among all other nodes stays as it is. -/
theorem others_shift (hplace : f.Admits node place) (q : Key) :
    (f.shift node place).others q node = f.others q node := by
  have hagain : (f.others q node).filter (· ≠ node) = f.others q node := by
    rw [others, List.filter_filter]
    simp
  rw [others, h.children_shift hplace]
  match place with
  | none => exact hagain
  | some (p, pos) =>
    by_cases hq : q = p
    · rw [Option.elim_some, if_pos hq, hq, filter_insertIdx notMem_others]
    · rw [Option.elim_some, if_neg hq, hagain]

/-- Neither the parent that a node leaves nor the one that it comes to: such a list does not
change at all. -/
theorem children_shift_of_ne (hplace : f.Admits node place) (hold : f.parent node ≠ some q)
    (hnew : (f.shift node place).parent node ≠ some q) :
    (f.shift node place).children q = f.children q := by
  rw [← others_of_not_parent (h.shift hplace) hnew, h.others_shift hplace,
    others_of_not_parent h hold]

/-- A node is found at the position that was asked for, or at the end. -/
theorem index_shift (hplace : f.Admits node (some (p, pos))) :
    (f.shift node (some (p, pos))).indexInParent node =
      some (min pos (f.others p node).length) := by
  have hat : (f.shift node (some (p, pos))).childAt p (min pos (f.others p node).length) =
      some node := by
    rw [childAt, h.children_shift hplace]
    simp [List.getElem?_insertIdx_self]
  exact (((h.shift hplace).consistent.index p node _).1 hat).2

/-- The tree below a shifted node keeps its lists of children. -/
theorem children_shift_of_within (hplace : f.Admits node place) (hk : f.Within node k) :
    (f.shift node place).children k = f.children k := by
  refine h.children_shift_of_ne hplace (fun hp => h.rooted.not_within_parent hp hk) ?_
  intro hp
  exact (h.shift hplace).rooted.not_within_parent hp ((within_shift_iff hplace).2 hk)

/-- The trees within that of a shifted node keep their order. -/
theorem preorder_shift (hplace : f.Admits node place) (hk : f.Within node k) :
    (f.shift node place).preorder k = f.preorder k := by
  by_cases hlive : k ∈ f
  · exact h.preorder_congr (h.shift hplace) hlive (fun _ => mem_shift) fun j hj =>
      h.children_shift_of_within hplace (hk.trans hj)
  · rw [preorder_of_notMem hlive, preorder_of_notMem fun hk' => hlive (mem_shift.1 hk')]

/-- Of two shifts of a node only the last one counts. -/
theorem shift_shift (hplace : f.Admits node place) (hplace' : f.Admits node place') :
    (f.shift node place).shift node place' = f.shift node place' := by
  have hwell := h.shift hplace
  have hafter := hplace.shift hplace'
  -- The second shift sees the same other children, whatever the first one has done.
  apply (h.shift hplace').eq_of_children (hwell.shift hafter)
  · intro q
    rw [hwell.children_shift hafter, h.children_shift hplace']
    simp only [h.others_shift hplace]
  · intro k
    rw [mem_shift, mem_shift, mem_shift]
  · rw [unused_shift, unused_shift, unused_shift]
  · rw [freed_shift, freed_shift, freed_shift]

/-- As many siblings stand in front of a node as its index says. -/
theorem length_of_cut (hp : f.parent node = some p) (hi : f.indexInParent node = some i)
    {a b : List Key} (hcut : f.children p = a ++ node :: b) : a.length = i := by
  have hat : (f.children p)[i]? = some node := (h.consistent.index p node i).2 ⟨hp, hi⟩
  have hat' : (f.children p)[a.length]? = some node := by simp [hcut]
  rw [getElem?_eq_some_iff_idxOf? (h.nodup_children p)] at hat hat'
  exact Option.mem_unique hat' hat

/-- A shift to the place where the node is changes nothing. -/
theorem shift_self (hp : f.parent node = some p) (hi : f.indexInParent node = some i) :
    f.shift node (some (p, i)) = f := by
  have hplace := h.admits_parent hp i
  apply h.eq_of_children (h.shift hplace)
  · intro q
    rw [h.children_shift hplace, Option.elim_some]
    by_cases hq : q = p
    · obtain ⟨a, b, hcut, herase⟩ := h.exists_cut hp
      rw [if_pos hq, hq, h.others_eq_erase, herase, ← take_append_drop_eq_insertIdx,
        ← h.length_of_cut hp hi hcut, List.take_left, List.drop_left, hcut]
    · rw [if_neg hq, others_of_not_parent h]
      rw [hp]
      exact fun e => hq (Option.some.inj e).symm
  · exact fun _ => mem_shift
  · exact unused_shift
  · exact freed_shift

end WellFormed

end WindowForest.Forest
