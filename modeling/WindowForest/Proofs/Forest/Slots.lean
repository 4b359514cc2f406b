import Mathlib.Data.List.Perm.Basic
import WindowForest.Forest.Store

/-!
# Slots of a store

The keys of the values in a store and the keys that wait to be handed out name
slots that are pairwise different and lie below the first unused slot
(`Store.Sound`). Every operation keeps this, so the key that a store chooses for
a new value never names a value already.

The size of a store bounds the length of any list of its keys without
repetitions. This is what makes the bounds of walks generous enough.
-/

set_option autoImplicit false

namespace WindowForest.Store

variable {α : Type}

/-- A key that the store keeps book of: it names a value, or it waits for one. -/
def Booked (s : Store α) (k : Key) : Prop := k ∈ s ∨ k ∈ s.freed

/-- The books of a store are in order. -/
structure Sound (s : Store α) : Prop where
  unused_pos : 0 < s.unused
  slot_pos : ∀ k, s.Booked k → 0 < k.slot
  slot_lt : ∀ k, s.Booked k → k.slot < s.unused
  /-- No slot is kept book of twice. -/
  apart : ∀ j k, s.Booked j → s.Booked k → j.slot = k.slot → j = k
  /-- What waits for a value names none. -/
  waiting : ∀ k ∈ s.freed, k ∉ s
  freed_nodup : s.freed.Nodup

/-- After an insertion the keys of values are those from before and the one that was next. -/
theorem mem_insert {s : Store α} {a : α} {k : Key} : k ∈ s.insert a ↔ k = s.nextKey ∨ k ∈ s := by
  rw [mem_iff_isSome_get?, mem_iff_isSome_get?, get?_insert]
  by_cases h : s.nextKey = k
  · simp [h]
  · simp [h, Ne.symm h]

/-- After a removal the keys of values are those from before but the one given back. -/
theorem mem_erase {s : Store α} {j k : Key} : k ∈ s.erase j ↔ k ≠ j ∧ k ∈ s := by
  rw [mem_iff_isSome_get?, mem_iff_isSome_get?, get?_erase]
  by_cases h : j = k
  · simp [h]
  · simp [h, Ne.symm h]

/-- A removal takes one value away. -/
theorem size_erase {s : Store α} {k : Key} (hk : k ∈ s) : (s.erase k).size + 1 = s.size := by
  have hlive : k ∈ s.live := hk
  have hpos : 0 < s.live.size := by
    have hlength := List.length_pos_of_mem (Std.ExtTreeMap.mem_keys.2 hlive)
    rwa [Std.ExtTreeMap.length_keys] at hlength
  have hsize : (s.erase k).size = s.live.size - 1 := by
    rw [erase, if_pos hk, size, Std.ExtTreeMap.size_erase,
      if_pos (Std.ExtTreeMap.mem_iff_contains.1 hlive)]
  rw [hsize, size]
  omega

/-- In an empty store no key names a value. -/
theorem notMem_empty (k : Key) : k ∉ (∅ : Store α) := by
  simp [mem_iff_isSome_get?]

/-- A key without a value gives none. -/
theorem get?_eq_none {s : Store α} {k : Key} (h : k ∉ s) : s.get? k = none := by
  rwa [mem_iff_isSome_get?, Option.not_isSome_iff_eq_none] at h

/-- The books of an empty store are in order. -/
theorem sound_empty : Sound (∅ : Store α) where
  unused_pos := Nat.one_pos
  slot_pos k h := by
    rcases h with h | h
    · exact absurd h (notMem_empty k)
    · cases h
  slot_lt k h := by
    rcases h with h | h
    · exact absurd h (notMem_empty k)
    · cases h
  apart j _ h := by
    rcases h with h | h
    · exact absurd h (notMem_empty j)
    · cases h
  waiting _ h := by cases h
  freed_nodup := List.nodup_nil

namespace Sound

variable {s : Store α}

/-- The key of a new value does not name an old one. -/
theorem nextKey_notMem (h : s.Sound) : s.nextKey ∉ s := by
  unfold nextKey
  cases hf : s.freed with
  | nil =>
    intro hk
    have hlt := h.slot_lt _ (.inl hk)
    simp only [List.headD_nil] at hlt
    omega
  | cons k rest => exact h.waiting k (by simp [hf])

/-- A change of a value keeps the books in order. -/
theorem modify (h : s.Sound) (k : Key) (g : α → α) : (s.modify k g).Sound := by
  have hbooked : ∀ j, (s.modify k g).Booked j → s.Booked j := fun j hj =>
    hj.imp_left mem_modify.1
  exact
    { unused_pos := h.unused_pos
      slot_pos := fun j hj => h.slot_pos j (hbooked j hj)
      slot_lt := fun j hj => h.slot_lt j (hbooked j hj)
      apart := fun i j hi hj => h.apart i j (hbooked i hi) (hbooked j hj)
      waiting := fun j hj hm => h.waiting j hj (mem_modify.1 hm)
      freed_nodup := h.freed_nodup }

/-- A value under a slot that was never used before. -/
theorem insert_unused (h : s.Sound) (hf : s.freed = []) (a : α) : (s.insert a).Sound := by
  have hkey : s.nextKey = ⟨s.unused, 1⟩ := by simp [nextKey, hf]
  have hunused : (s.insert a).unused = s.unused + 1 := by simp [insert, hf]
  have hfreed : (s.insert a).freed = [] := by simp [insert, hf]
  have hbooked : ∀ k, (s.insert a).Booked k → k = ⟨s.unused, 1⟩ ∨ s.Booked k := by
    rintro k (hk | hk)
    · exact (mem_insert.1 hk).imp (fun e => e.trans hkey) Or.inl
    · simp [hfreed] at hk
  constructor
  case unused_pos => omega
  case slot_pos =>
    intro k hk
    rcases hbooked k hk with rfl | hk
    · exact h.unused_pos
    · exact h.slot_pos k hk
  case slot_lt =>
    intro k hk
    rw [hunused]
    rcases hbooked k hk with rfl | hk
    · dsimp only
      omega
    · have hlt := h.slot_lt k hk
      omega
  case apart =>
    intro j k hj hk hjk
    -- The new slot lies above all slots that are booked.
    rcases hbooked j hj with rfl | hj <;> rcases hbooked k hk with rfl | hk
    · rfl
    · have hlt := h.slot_lt k hk
      dsimp only at hjk
      omega
    · have hlt := h.slot_lt j hj
      dsimp only at hjk
      omega
    · exact h.apart j k hj hk hjk
  case waiting => simp [hfreed]
  case freed_nodup => simp [hfreed]

/-- A value under a slot that was given back. -/
theorem insert_freed (h : s.Sound) {next : Key} {rest : List Key} (hf : s.freed = next :: rest)
    (a : α) : (s.insert a).Sound := by
  have hkey : s.nextKey = next := by simp [nextKey, hf]
  have hunused : (s.insert a).unused = s.unused := by simp [insert, hf]
  have hfreed : (s.insert a).freed = rest := by simp [insert, hf]
  have hnodup := h.freed_nodup
  rw [hf, List.nodup_cons] at hnodup
  have hbooked : ∀ k, (s.insert a).Booked k → s.Booked k := by
    rintro k (hk | hk)
    · rcases mem_insert.1 hk with rfl | hk
      · exact .inr (by simp [hkey, hf])
      · exact .inl hk
    · exact .inr (by simp [hf, hfreed ▸ hk])
  constructor
  case unused_pos =>
    rw [hunused]
    exact h.unused_pos
  case slot_pos =>
    intro k hk
    exact h.slot_pos k (hbooked k hk)
  case slot_lt =>
    intro k hk
    rw [hunused]
    exact h.slot_lt k (hbooked k hk)
  case apart =>
    intro j k hj hk
    exact h.apart j k (hbooked j hj) (hbooked k hk)
  case freed_nodup =>
    rw [hfreed]
    exact hnodup.2
  case waiting =>
    intro k hk hmem
    rw [hfreed] at hk
    rcases mem_insert.1 hmem with rfl | hmem
    · exact hnodup.1 (hkey ▸ hk)
    · exact h.waiting k (by simp [hf, hk]) hmem

/-- An insertion keeps the books in order, whichever slot it takes. -/
theorem insert (h : s.Sound) (a : α) : (s.insert a).Sound := by
  cases hf : s.freed with
  | nil => exact h.insert_unused hf a
  | cons next rest => exact h.insert_freed hf a

/-- The slot of a value given back. -/
theorem erase_of_mem (h : s.Sound) {k : Key} (hk : k ∈ s) : (s.erase k).Sound := by
  have hunused : (s.erase k).unused = s.unused := by simp [Store.erase, hk]
  have hfreed : (s.erase k).freed = k.successor :: s.freed := by simp [Store.erase, hk]
  have hnew : ¬ s.Booked k.successor := by
    intro hb
    have hversion := congrArg Key.version (h.apart _ _ hb (.inl hk) rfl)
    simp [Key.successor] at hversion
  have hkeep : ∀ j, (s.erase k).Booked j → j = k.successor ∨ j ≠ k ∧ s.Booked j := by
    rintro j (hj | hj)
    · obtain ⟨hne, hj⟩ := mem_erase.1 hj
      exact .inr ⟨hne, .inl hj⟩
    · rw [hfreed] at hj
      rcases List.mem_cons.1 hj with rfl | hj
      · exact .inl rfl
      · exact .inr ⟨fun e => h.waiting j hj (e ▸ hk), .inr hj⟩
  constructor
  case unused_pos =>
    rw [hunused]
    exact h.unused_pos
  case slot_pos =>
    intro j hj
    rcases hkeep j hj with rfl | ⟨-, hj⟩
    · exact h.slot_pos k (.inl hk)
    · exact h.slot_pos j hj
  case slot_lt =>
    intro j hj
    rw [hunused]
    rcases hkeep j hj with rfl | ⟨-, hj⟩
    · exact h.slot_lt k (.inl hk)
    · exact h.slot_lt j hj
  case apart =>
    intro i j hi hj hij
    -- The slot given back was that of `k`, and of no other key that is booked.
    rcases hkeep i hi with rfl | ⟨hik, hi⟩ <;> rcases hkeep j hj with rfl | ⟨hjk, hj⟩
    · rfl
    · exact absurd (h.apart j k hj (.inl hk) hij.symm) hjk
    · exact absurd (h.apart i k hi (.inl hk) hij) hik
    · exact h.apart i j hi hj hij
  case waiting =>
    intro j hj hmem
    obtain ⟨-, hmem⟩ := mem_erase.1 hmem
    rw [hfreed] at hj
    rcases List.mem_cons.1 hj with rfl | hj
    · exact hnew (.inl hmem)
    · exact h.waiting j hj hmem
  case freed_nodup =>
    rw [hfreed, List.nodup_cons]
    refine ⟨?_, h.freed_nodup⟩
    intro hb
    exact hnew (.inr hb)

/-- A removal keeps the books in order, also if the key names no value. -/
theorem erase (h : s.Sound) (k : Key) : (s.erase k).Sound := by
  by_cases hk : k ∈ s
  · exact h.erase_of_mem hk
  · rwa [Store.erase, if_neg hk]

end Sound

/-- Keys of a table without repetitions are no more than its entries. -/
theorem length_le_tableSize {t : Table α} {l : List Key} (hl : l.Nodup) (h : ∀ k ∈ l, k ∈ t) :
    l.length ≤ t.size := by
  have hsub : l ⊆ t.keys := fun k hk => Std.ExtTreeMap.mem_keys.2 (h k hk)
  calc l.length ≤ t.keys.length := (List.subperm_of_subset hl hsub).length_le
    _ = t.size := Std.ExtTreeMap.length_keys

/-- Keys of a store without repetitions are no more than its values. -/
theorem length_le_size {s : Store α} {l : List Key} (hl : l.Nodup) (h : ∀ k ∈ l, k ∈ s) :
    l.length ≤ s.size := by
  unfold size
  exact length_le_tableSize hl h

end WindowForest.Store
