import WindowForest.Proofs.Forest.Run

/-!
# Lifetimes of keys

A slot that was given back is handed out again under a later version. A key is stale
when its slot has come to a later version, whether that is in use or waits to be. What
is stale names nothing and is never handed out again, and it stays stale whatever
happens (`Store.Ages`). So between two states of a store every key keeps its value, or
has become stale once and for all. Operations on forests change links, insert a node or
erase nodes one by one, and age the store at most.
-/

set_option autoImplicit false

namespace WindowForest

namespace Store

variable {α : Type} {s s' s'' : Store α} {j k : Key}

/-- The slot of the key has come to a later version than that of the key. -/
def Stale (s : Store α) (k : Key) : Prop :=
  ∃ j, s.Booked j ∧ j.slot = k.slot ∧ k.version < j.version

/-- An older key of the same slot is stale as well. -/
theorem Stale.of_later (h : s.Stale j) (hslot : j.slot = k.slot)
    (hversion : k.version ≤ j.version) : s.Stale k := by
  obtain ⟨i, hi, hij, hlater⟩ := h
  exact ⟨i, hi, hij.trans hslot, by omega⟩

namespace Sound

/-- Of a stale key no book is kept. -/
theorem not_booked_of_stale (h : s.Sound) (hk : s.Stale k) : ¬ s.Booked k := by
  obtain ⟨j, hj, hslot, hversion⟩ := hk
  intro hbooked
  obtain rfl := h.apart j k hj hbooked hslot
  omega

/-- A stale key names nothing. -/
theorem notMem_of_stale (h : s.Sound) (hk : s.Stale k) : k ∉ s := by
  intro hmem
  exact h.not_booked_of_stale hk (.inl hmem)

/-- No stale key is handed out. -/
theorem nextKey_not_stale (h : s.Sound) : ¬ s.Stale s.nextKey := by
  cases hf : s.freed with
  | nil =>
    rintro ⟨j, hj, hslot, -⟩
    have hlt := h.slot_lt j hj
    simp only [nextKey, hf, List.headD_nil] at hslot
    omega
  | cons k rest =>
    have hbooked : s.Booked s.nextKey := .inr (by simp [nextKey, hf])
    exact fun hstale => h.not_booked_of_stale hstale hbooked

end Sound

/-- The second store has come about from the first one: what was kept book of is so still, or has
become stale. -/
structure Ages (s s' : Store α) : Prop where
  booked : ∀ k, s.Booked k → s'.Booked k ∨ s'.Stale k
  live : ∀ k, k ∈ s → k ∈ s' ∨ s'.Stale k

namespace Ages

/-- A store where nothing happened has aged by nothing. -/
theorem refl (s : Store α) : s.Ages s := ⟨fun _ => .inl, fun _ => .inl⟩

/-- What is stale stays stale. -/
theorem stale (h : s.Ages s') (hk : s.Stale k) : s'.Stale k := by
  obtain ⟨j, hj, hslot, hversion⟩ := hk
  rcases h.booked j hj with hj' | hj'
  · exact ⟨j, hj', hslot, hversion⟩
  · exact hj'.of_later hslot hversion.le

/-- Ageing goes on from one state to the next. -/
theorem trans (h : s.Ages s') (h' : s'.Ages s'') : s.Ages s'' where
  booked k hk := by
    rcases h.booked k hk with hk' | hk'
    · exact h'.booked k hk'
    · exact .inr (h'.stale hk')
  live k hk := by
    rcases h.live k hk with hk' | hk'
    · exact h'.live k hk'
    · exact .inr (h'.stale hk')

/-- A change of a value ages no key. -/
theorem modify (s : Store α) (k : Key) (g : α → α) : s.Ages (s.modify k g) where
  booked _ hj := .inl (hj.imp_left mem_modify.2)
  live _ hj := .inl (mem_modify.2 hj)

/-- A new value takes a slot that waited for it, so no key gets stale. -/
theorem insert (s : Store α) (a : α) : s.Ages (s.insert a) where
  booked k hk := by
    rcases hk with hk | hk
    · exact .inl (.inl (mem_insert.2 (.inr hk)))
    · -- The slot in front of those that wait gets the value, and the others wait on.
      cases hf : s.freed with
      | nil => simp [hf] at hk
      | cons j rest =>
        rw [hf, List.mem_cons] at hk
        rcases hk with rfl | hk
        · exact .inl (.inl (mem_insert.2 (.inl (by simp [nextKey, hf]))))
        · exact .inl (.inr (by simpa [Store.insert, hf] using hk))
  live _ hk := .inl (mem_insert.2 (.inr hk))

/-- Of all keys the erased one alone gets stale. -/
theorem erase (s : Store α) (k : Key) : s.Ages (s.erase k) := by
  by_cases hk : k ∈ s
  · have hfreed : (s.erase k).freed = k.successor :: s.freed := by simp [Store.erase, hk]
    have hstale : (s.erase k).Stale k :=
      ⟨k.successor, .inr (by simp [hfreed]), rfl, by simp [Key.successor]⟩
    have hlive : ∀ j, j ∈ s → j ∈ s.erase k ∨ (s.erase k).Stale j := by
      intro j hj
      by_cases hjk : j = k
      · exact .inr (hjk ▸ hstale)
      · exact .inl (mem_erase.2 ⟨hjk, hj⟩)
    refine ⟨?_, hlive⟩
    rintro j (hj | hj)
    · exact (hlive j hj).imp_left .inl
    · exact .inl (.inr (by simp [hfreed, hj]))
  · rw [Store.erase, if_neg hk]
    exact refl s

/-- Erasing keys in a row ages the store at most. -/
theorem foldl_erase (s : Store α) (l : List Key) : s.Ages (l.foldl Store.erase s) := by
  induction l generalizing s with
  | nil => exact refl s
  | cons k l ih => exact (erase s k).trans (ih _)

end Ages

end Store

namespace Forest

/-- Unlinking ages the store at most. -/
theorem ages_unlink (f : Forest) (node : Key) : Store.Ages f (f.unlink node) := by
  apply unlink_keeps _ (.refl f)
  intro g k change hg
  exact hg.trans (.modify g k change)

/-- Moving ages the store at most. -/
theorem ages_move (f : Forest) (node p : Key) (pos : Nat) : Store.Ages f (f.move node p pos) := by
  apply link_keeps _ (ages_unlink f node)
  intro g k change hg
  exact hg.trans (.modify g k change)

/-- A new node ages the store at most. -/
theorem ages_sprout (f : Forest) : Store.Ages f f.sprout := .insert f {}

/-- Pruning ages the store at most. -/
theorem ages_prune (f : Forest) (node : Key) : Store.Ages f (f.prune node) := by
  have hunlinked : Store.Ages f (f.unlink node) := ages_unlink f node
  exact hunlinked.trans (.foldl_erase _ _)

end Forest

end WindowForest
