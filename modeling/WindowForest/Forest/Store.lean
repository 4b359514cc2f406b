import WindowForest.Forest.Key

/-!
# A store with versioned slots

A store keeps values under keys that it chooses itself. A new value takes the
slot that was given back most recently, and a slot never used before if none is
waiting. Giving a slot back raises its version, so an old key stays without a
value although its slot may be occupied again.

The lemmas say what each operation does to look-ups, and are all that later
modules need to know about the representation.
-/

set_option autoImplicit false

namespace WindowForest

/-- Values under keys chosen by the store. -/
structure Store (α : Type) where
  /-- The values that are in the store. -/
  live : Table α := ∅
  /-- The least slot that has never been used. -/
  unused : Nat := 1
  /-- Keys of the slots given back, the most recent one in front. -/
  freed : List Key := []

namespace Store

variable {α : Type}

instance : EmptyCollection (Store α) := ⟨{ live := ∅ }⟩

instance : Inhabited (Store α) := ⟨∅⟩

instance : Membership Key (Store α) := ⟨fun s k => k ∈ s.live⟩

instance (s : Store α) (k : Key) : Decidable (k ∈ s) :=
  inferInstanceAs (Decidable (k ∈ s.live))

/-- The value under a key, if the key names one. -/
def get? (s : Store α) (k : Key) : Option α := s.live[k]?

/-- How many values the store holds. -/
def size (s : Store α) : Nat := s.live.size

/-- The keys that name a value, by slot. -/
def keys (s : Store α) : List Key := s.live.keys

/-- The key that the next inserted value will get. -/
def nextKey (s : Store α) : Key := s.freed.headD ⟨s.unused, 1⟩

/-- Keeps a new value under `nextKey`. -/
def insert (s : Store α) (a : α) : Store α where
  live := s.live.insert s.nextKey a
  unused := if s.freed.isEmpty then s.unused + 1 else s.unused
  freed := s.freed.tail

/-- Gives the slot of a value back. A key without a value changes nothing. -/
def erase (s : Store α) (k : Key) : Store α :=
  if k ∈ s then { s with live := s.live.erase k, freed := k.successor :: s.freed } else s

/-- Changes the value under a key, if there is one. -/
def modify (s : Store α) (k : Key) (g : α → α) : Store α :=
  { s with live := s.live.modify k g }

/-- A key names a value exactly if a look-up finds one. -/
theorem mem_iff_isSome_get? {s : Store α} {k : Key} : k ∈ s ↔ (s.get? k).isSome := by
  unfold get?
  exact Std.ExtTreeMap.mem_iff_isSome_getElem?

/-- An empty store has a value under no key. -/
@[simp] theorem get?_empty (k : Key) : (∅ : Store α).get? k = none := by
  unfold get?
  exact Std.ExtTreeMap.getElem?_empty

/-- A look-up after an insertion finds the new value under the key that was next, and what it found
before under all others. -/
theorem get?_insert (s : Store α) (a : α) (k : Key) :
    (s.insert a).get? k = if s.nextKey = k then some a else s.get? k := by
  simp [get?, insert, Std.ExtTreeMap.getElem?_insert]

/-- A look-up after a removal finds nothing under the key that was given back, and what it found
before under all others. -/
theorem get?_erase (s : Store α) (j k : Key) :
    (s.erase j).get? k = if j = k then none else s.get? k := by
  unfold erase
  split
  · simp [get?, Std.ExtTreeMap.getElem?_erase]
  · next h =>
    rw [mem_iff_isSome_get?] at h
    split
    · next hk => subst hk; simpa using h
    · rfl

/-- A look-up after a change finds the changed value under the one key, and what it found before
under all others. -/
theorem get?_modify (s : Store α) (j k : Key) (g : α → α) :
    (s.modify j g).get? k = if j = k then (s.get? k).map g else s.get? k := by
  by_cases h : j = k
  · subst h; simp [get?, modify]
  · simp [get?, modify, Std.ExtTreeMap.getElem?_modify, h]

/-- A change of a value leaves it open to no key, and closes none, to name a value. -/
@[simp] theorem mem_modify {s : Store α} {j k : Key} {g : α → α} : k ∈ s.modify j g ↔ k ∈ s := by
  rw [mem_iff_isSome_get?, mem_iff_isSome_get?, get?_modify]
  split <;> simp

/-- A change of a value leaves their number as it is. -/
@[simp] theorem size_modify (s : Store α) (k : Key) (g : α → α) :
    (s.modify k g).size = s.size := by
  unfold size modify
  exact Std.ExtTreeMap.size_modify

end Store

end WindowForest
