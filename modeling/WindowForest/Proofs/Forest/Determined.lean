import WindowForest.Proofs.Forest.Run

/-!
# What determines a forest

The links of a well-formed forest say the same thing several times over: a child knows
its parent and the parent its first and last child, and neighbours know each other. So
the lists of children determine all links (`WellFormed.get?_eq`), and forests that agree
on them and hand out the same keys next are equal.

This makes it easy to compare what two orders of doing things lead to. Two moves of
roots under different parents can be exchanged (`WellFormed.move_comm`), because each of
them changes one list of children, and not the same one.
-/

set_option autoImplicit false

namespace WindowForest

/-- A store is what its look-ups answer, together with the keys that it will hand out. -/
theorem Store.eq_of_get? {α : Type} {s s' : Store α} (hget : ∀ k, s'.get? k = s.get? k)
    (hunused : s'.unused = s.unused) (hfreed : s'.freed = s.freed) : s' = s := by
  obtain ⟨live, unused, freed⟩ := s
  obtain ⟨live', unused', freed'⟩ := s'
  have hlive : live' = live := Std.ExtTreeMap.ext_getElem? fun {k} => hget k
  dsimp only at hunused hfreed
  rw [hlive, hunused, hfreed]

namespace Forest

variable {f f' : Forest} {k node node' p p' : Key} {pos pos' : Nat}

/-! ## Links from lists of children -/

namespace WellFormed

variable (h : f.WellFormed) (h' : f'.WellFormed)

include h h'

section

variable (hchildren : ∀ p, f'.children p = f.children p)

include hchildren

/-- The lists of children determine the parents. -/
theorem parent_eq_of_children (k : Key) : f'.parent k = f.parent k := by
  apply Option.ext
  intro p
  rw [← h.mem_children_iff, ← h'.mem_children_iff, hchildren]

/-- The lists of children determine the first and the last child. -/
theorem ends_eq_of_children (k : Key) : f'.first k = f.first k ∧ f'.last k = f.last k := by
  have hlast := h.threads.left (p := k) (b := []) (List.append_nil _).symm
  have hlast' := h'.threads.left (p := k) (b := []) (List.append_nil _).symm
  refine ⟨?_, ?_⟩
  · rw [h.threads.first_eq, h'.threads.first_eq, hchildren]
  · exact hlast'.trans ((congrArg List.getLast? (hchildren k)).trans hlast.symm)

/-- The lists of children determine the neighbours. -/
theorem siblings_eq_of_children (k : Key) : f'.prev k = f.prev k ∧ f'.next k = f.next k := by
  have hparent := h.parent_eq_of_children h' hchildren k
  cases hp : f.parent k with
  | none =>
    rw [hp] at hparent
    obtain ⟨hprev, hnext⟩ := h.threads.alone hp
    obtain ⟨hprev', hnext'⟩ := h'.threads.alone hparent
    rw [hprev, hnext, hprev', hnext']
    exact ⟨rfl, rfl⟩
  | some p => exact h.siblings_congr h' hp (hchildren p)

/-- All links of a node follow from the lists of children. -/
theorem get?_eq (hlive : ∀ k, k ∈ f' ↔ k ∈ f) (k : Key) : f'.get? k = f.get? k := by
  have hparent := h.parent_eq_of_children h' hchildren k
  obtain ⟨hfirst, hlast⟩ := h.ends_eq_of_children h' hchildren k
  obtain ⟨hprev, hnext⟩ := h.siblings_eq_of_children h' hchildren k
  have hmem := hlive k
  unfold parent first last prev next at *
  rw [Store.mem_iff_isSome_get?, Store.mem_iff_isSome_get?] at hmem
  cases hn : f.get? k with
  | none =>
    rw [hn] at hmem
    simpa using hmem
  | some n =>
    rw [hn] at hmem
    obtain ⟨n', hn'⟩ := Option.isSome_iff_exists.1 (hmem.2 rfl)
    rw [hn, hn'] at hparent hfirst hlast hprev hnext
    rw [hn', Option.some.injEq]
    cases n
    cases n'
    simp_all

/-- Well-formed forests with the same nodes, lists of children and slots are equal. -/
theorem eq_of_children (hlive : ∀ k, k ∈ f' ↔ k ∈ f) (hunused : f'.unused = f.unused)
    (hfreed : f'.freed = f.freed) : f' = f := by
  apply Store.eq_of_get? _ hunused hfreed
  intro k
  exact h.get?_eq h' hchildren hlive k

end

end WellFormed

/-! ## Moves of roots -/

/-- Moves hand out no key and give none back. -/
theorem unused_move : (f.move node p pos).unused = f.unused := by
  rw [move, unused_link, unused_unlink]

/-- Moves leave the slots that were given back as they are. -/
theorem freed_move : (f.move node p pos).freed = f.freed := by
  rw [move, freed_link, freed_unlink]

/-- A node without parent can be moved under another one. -/
structure Movable (f : Forest) (node p : Key) : Prop where
  live : node ∈ f
  target : p ∈ f
  root : f.parent node = none
  apart : ¬ f.Within node p

namespace WellFormed

variable (h : f.WellFormed)

include h

/-- A moved root leaves no list of children behind. -/
theorem children_move_root (hm : f.Movable node p) (pos : Nat) (q : Key) :
    (f.move node p pos).children q =
      if q = p then (f.children p).insertIdx (min pos (f.children p).length) node
      else f.children q := by
  have hout : ∀ q, (f.children q).erase node = f.children q := by
    intro q
    apply List.erase_of_not_mem
    rw [h.mem_children_iff, hm.root]
    exact nofun
  rw [h.children_move hm.live hm.target hm.apart, hout, hout]

/-- The list that one move changes is left alone by the other one. -/
theorem children_move_move (hm : f.Movable node p) (hm' : (f.move node p pos).Movable node' p')
    (hp : p' ≠ p) (q : Key) :
    ((f.move node p pos).move node' p' pos').children q =
      if q = p' then (f.children p').insertIdx (min pos' (f.children p').length) node'
      else if q = p then (f.children p).insertIdx (min pos (f.children p).length) node
      else f.children q := by
  have hwell := h.move (fun _ => hm.apart) pos
  rw [hwell.children_move_root hm', h.children_move_root hm, h.children_move_root hm, if_neg hp]

/-- Two roots that are moved under different parents may be moved in either order. -/
theorem move_comm (hm : f.Movable node p) (hm' : f.Movable node' p')
    (hafter : (f.move node p pos).Movable node' p')
    (hafter' : (f.move node' p' pos').Movable node p) (hp : p ≠ p') :
    (f.move node p pos).move node' p' pos' = (f.move node' p' pos').move node p pos := by
  have hwell := (h.move (fun _ => hm.apart) pos).move (fun _ => hafter.apart) pos'
  have hwell' := (h.move (fun _ => hm'.apart) pos').move (fun _ => hafter'.apart) pos
  apply hwell'.eq_of_children hwell
  · intro q
    rw [h.children_move_move hm hafter hp.symm, h.children_move_move hm' hafter' hp]
    by_cases hq : q = p
    · have hq' : q ≠ p' := fun e => hp (hq.symm.trans e)
      rw [if_neg hq', if_pos hq, if_pos hq]
    · rw [if_neg hq, if_neg hq]
  · intro k
    rw [mem_move, mem_move, mem_move, mem_move]
  · rw [unused_move, unused_move, unused_move, unused_move]
  · rw [freed_move, freed_move, freed_move, freed_move]

end WellFormed

end Forest

end WindowForest
