import Mathlib.Logic.Function.Basic
import WindowForest.Proofs.Forest.Gaps

/-!
# Threads

The links of a forest thread a list of children for every node (`Threads`): both
ends of every gap in a list know each other. Such lists are what a walk over the
children visits, from either end.

Taking a node out of its list opens a gap and closes two, and putting one in
does the reverse, so `unlink` and `link` go over to threads of the list without
or with the node, and all other gaps stay as they are.
-/

set_option autoImplicit false

namespace WindowForest.Forest

variable {f : Forest} {c : Key → List Key} {k node p q : Key}

/-- The links of a forest thread the list `c p` of children for every `p`. -/
structure Threads (f : Forest) (c : Key → List Key) : Prop where
  nodup : ∀ p, (c p).Nodup
  mem_iff : ∀ {p k}, k ∈ c p ↔ f.parent k = some p
  /-- The left end of every gap knows the right one. -/
  right : ∀ {p a b}, c p = a ++ b → f.rightOf p a.getLast? = b.head?
  /-- The right end of every gap knows the left one. -/
  left : ∀ {p a b}, c p = a ++ b → f.leftOf p b.head? = a.getLast?
  /-- A node without parent has no siblings. -/
  alone : ∀ {k}, f.parent k = none → f.prev k = none ∧ f.next k = none

/-! ## Cutting a list in two -/

/-- Where a list without repetitions is cut shows in what stands left of the cut. -/
theorem eq_of_getLast?_eq {a b a' b' : List Key} (hnodup : (a ++ b).Nodup)
    (h : a ++ b = a' ++ b') (hlast : a.getLast? = a'.getLast?) : a = a' := by
  rcases List.append_eq_append_iff.1 h with ⟨t, rfl, rfl⟩ | ⟨t, rfl, rfl⟩
  · rcases t.eq_nil_or_concat' with rfl | ⟨t, x, rfl⟩
    · simp
    · have hx : x ∈ a := List.mem_of_getLast? (by simpa using hlast)
      exact absurd rfl ((List.nodup_append.1 hnodup).2.2 x hx x (by simp))
  · rcases t.eq_nil_or_concat' with rfl | ⟨t, x, rfl⟩
    · simp
    · have hx : x ∈ a' := List.mem_of_getLast? (by simpa using hlast.symm)
      have hpart : (a' ++ (t ++ [x])).Nodup := (List.nodup_append.1 hnodup).1
      exact absurd rfl ((List.nodup_append.1 hpart).2.2 x hx x (by simp))

/-- Where a list without repetitions is cut shows in what stands right of the cut. -/
theorem eq_of_head?_eq {a b a' b' : List Key} (hnodup : (a ++ b).Nodup)
    (h : a ++ b = a' ++ b') (hhead : b.head? = b'.head?) : b = b' := by
  have hrev : b.reverse ++ a.reverse = b'.reverse ++ a'.reverse := by
    rw [← List.reverse_append, ← List.reverse_append, h]
  have hnodup' : (b.reverse ++ a.reverse).Nodup := by
    rw [← List.reverse_append]
    exact List.nodup_reverse.2 hnodup
  have hlast : b.reverse.getLast? = b'.reverse.getLast? := by simpa using hhead
  exact List.reverse_injective (eq_of_getLast?_eq hnodup' hrev hlast)

namespace Threads

variable (h : f.Threads c)

include h

/-! ## Walking along the threads -/

/-- What stands in the list of a node has that node as its parent. -/
theorem parent_eq (hk : k ∈ c p) : f.parent k = some p := h.mem_iff.1 hk

/-- What stands in a list of children is live. -/
theorem mem_of_mem (hk : k ∈ c p) : k ∈ f := by
  have hparent := h.parent_eq hk
  exact mem_of_parent hparent

/-- A node stands in the list of one parent only. -/
theorem eq_of_mem (hp : k ∈ c p) (hq : k ∈ c q) : p = q := by
  have hsame : some p = some q := by rw [← h.parent_eq hp, h.parent_eq hq]
  exact Option.some.inj hsame

/-- From any gap on, the links lead through the rest of the list. -/
theorem trail_right {a b : List Key} (hcut : c p = a ++ b) :
    Trail f.next (f.rightOf p a.getLast?) b none := by
  induction b generalizing a with
  | nil => exact h.right hcut
  | cons k b ih =>
    refine ⟨h.right hcut, ?_⟩
    have htail := ih (a := a ++ [k]) (by simpa using hcut)
    simpa [rightOf] using htail

/-- From any gap back, the links lead through the list in front of it. -/
theorem trail_left {a b : List Key} (hcut : c p = a ++ b) :
    Trail f.prev (f.leftOf p b.head?) a.reverse none := by
  obtain ⟨r, rfl⟩ : ∃ r : List Key, a = r.reverse := ⟨a.reverse, by simp⟩
  rw [List.reverse_reverse]
  induction r generalizing b with
  | nil => exact h.left hcut
  | cons k r ih =>
    refine ⟨by simpa using h.left hcut, ?_⟩
    have htail := ih (b := k :: b) (by simpa using hcut)
    simpa [leftOf] using htail

/-- From the first child on, the links lead forwards through the whole list. -/
theorem trail_next (p : Key) : Trail f.next (f.first p) (c p) none := by
  have hwhole : c p = [] ++ c p := rfl
  exact h.trail_right hwhole

/-- From the last child on, the links lead backwards through the whole list. -/
theorem trail_prev (p : Key) : Trail f.prev (f.last p) (c p).reverse none := by
  have hwhole : c p = c p ++ [] := (List.append_nil _).symm
  exact h.trail_left hwhole

/-- No list of children is longer than the forest has nodes. -/
theorem length_le (p : Key) : (c p).length ≤ f.size := by
  apply Store.length_le_size (h.nodup p)
  intro k hk
  exact h.mem_of_mem hk

/-- The lists that the links thread are what the walks over the children visit. -/
theorem children_eq (p : Key) : f.children p = c p := by
  have htrail := h.trail_next p
  exact htrail.follow_eq (h.length_le p)

/-- The walk from the last child visits the list backwards. -/
theorem childrenFromLast_eq (p : Key) : f.childrenFromLast p = (c p).reverse := by
  have htrail := h.trail_prev p
  have hlength : (c p).reverse.length ≤ f.size := by simpa using h.length_le p
  exact htrail.follow_eq hlength

/-- A node stands between its two siblings. -/
theorem siblings {a b : List Key} (hcut : c p = a ++ k :: b) :
    f.prev k = a.getLast? ∧ f.next k = b.head? := by
  refine ⟨by simpa [leftOf] using h.left hcut, ?_⟩
  have hnext := h.right (a := a ++ [k]) (b := b) (by simpa using hcut)
  simpa [rightOf] using hnext

/-- The first child of a node stands first in its list. -/
theorem first_eq (p : Key) : f.first p = (c p).head? := by
  have hwhole : c p = [] ++ c p := rfl
  exact h.right hwhole

/-- A key that names no node has an empty list. -/
theorem eq_nil_of_notMem (hrooted : f.Rooted) (hp : p ∉ f) : c p = [] := by
  rw [List.eq_nil_iff_forall_not_mem]
  intro k hk
  exact hp (hrooted.parent_mem (h.parent_eq hk))

end Threads

/-! ## Well-formed forests -/

/-- A forest whose keys, parents and lists of children are in order. -/
structure WellFormed (f : Forest) : Prop where
  sound : Store.Sound f
  rooted : f.Rooted
  threads : f.Threads f.children

/-- Any lists that the links thread make a forest well-formed, if its keys and parents are in order.
-/
theorem Threads.wellFormed (h : f.Threads c) (hsound : Store.Sound f) (hrooted : f.Rooted) :
    f.WellFormed := by
  have hchildren : f.children = c := funext h.children_eq
  exact ⟨hsound, hrooted, hchildren ▸ h⟩

namespace WellFormed

variable (h : f.WellFormed)

include h

/-- The children of a node are those that have it as their parent. -/
theorem mem_children_iff : k ∈ f.children p ↔ f.parent k = some p := h.threads.mem_iff

/-- No child is listed twice. -/
theorem nodup_children (p : Key) : (f.children p).Nodup := h.threads.nodup p

/-- A key that names no node has no children. -/
theorem children_of_notMem (hp : p ∉ f) : f.children p = [] := by
  have hthreads := h.threads
  exact hthreads.eq_nil_of_notMem h.rooted hp

/-- Where a child stands, the list of its parent can be cut. -/
theorem exists_cut (hk : f.parent k = some p) :
    ∃ a b, f.children p = a ++ k :: b ∧ (f.children p).erase k = a ++ b := by
  obtain ⟨a, b, hcut⟩ := List.append_of_mem (h.mem_children_iff.2 hk)
  have hnodup := hcut ▸ h.nodup_children p
  have hout : k ∉ a := fun hx =>
    (List.nodup_cons.1 (List.nodup_middle.1 hnodup)).1 (List.mem_append_left _ hx)
  refine ⟨a, b, hcut, ?_⟩
  rw [hcut, List.erase_append_right _ hout, List.erase_cons_head]

/-- The siblings of a node follow from the list that it stands in. -/
theorem siblings_congr {f' : Forest} (h' : f'.WellFormed) (hk : f.parent k = some p)
    (hsame : f'.children p = f.children p) : f'.prev k = f.prev k ∧ f'.next k = f.next k := by
  obtain ⟨a, b, hcut, -⟩ := h.exists_cut hk
  obtain ⟨hprev, hnext⟩ := h.threads.siblings hcut
  obtain ⟨hprev', hnext'⟩ := h'.threads.siblings (hsame.trans hcut)
  rw [hprev, hnext, hprev', hnext']
  exact ⟨rfl, rfl⟩

end WellFormed

end WindowForest.Forest
