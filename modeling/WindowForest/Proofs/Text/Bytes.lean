import Mathlib.Data.String.Basic

/-!
# The order of texts

Texts are compared character by character, by the numbers of the characters. The bytes
that they are encoded in are in the same order (`lt_iff_bytes_lt`): of two characters
the one with the smaller number has an encoding that is smaller in the first byte in
which the two encodings differ, and no encoding is the beginning of another one.
-/

set_option autoImplicit false

namespace WindowForest.Text

/-- The bytes that a text is encoded in. -/
def bytes (s : String) : List UInt8 := s.toUTF8.data.toList

/-- The bytes of a text are those of its characters, one after the other. -/
theorem bytes_eq (s : String) : bytes s = s.toList.flatMap String.utf8EncodeChar := by
  rw [bytes, String.toUTF8_eq_toByteArray, ← String.utf8Encode_toList, List.utf8Encode,
    List.toList_data_toByteArray]

/-- No character has a number beyond the last plane of Unicode. -/
theorem val_lt (c : Char) : c.val.toNat < 0x110000 := by
  have hvalid : c.val.toNat < 0xd800 ∨ 0xdfff < c.val.toNat ∧ c.val.toNat < 0x110000 := c.valid
  omega

/-- A smaller character has a smaller encoding, whatever follows the two. -/
theorem encode_append_lt {c d : Char} (h : c < d) (r r' : List UInt8) :
    String.utf8EncodeChar c ++ r < String.utf8EncodeChar d ++ r' := by
  have hlt : c.val.toNat < d.val.toNat := h
  have hc := val_lt c
  have hd := val_lt d
  have htwo : ∀ n : Nat, n / 4096 = n / 64 / 64 := fun n => by omega
  have hthree : ∀ n : Nat, n / 262144 = n / 64 / 64 / 64 := fun n => by omega
  unfold String.utf8EncodeChar
  -- Longer encodings start with larger bytes. For encodings of equal length the digits decide.
  dsimp only
  rw [htwo, htwo, hthree, hthree]
  split_ifs <;>
    simp only [List.cons_append, List.nil_append, List.cons_lt_cons_iff, UInt8.lt_iff_toNat_lt,
      ← UInt8.toNat_inj, UInt8.toNat_ofNat'] <;>
    omega

/-- Smaller texts have smaller bytes. -/
theorem flatMap_encode_lt {cs ds : List Char} (h : cs < ds) :
    cs.flatMap String.utf8EncodeChar < ds.flatMap String.utf8EncodeChar := by
  induction cs generalizing ds with
  | nil =>
    cases ds with
    | nil => exact absurd h (lt_irrefl _)
    | cons d ds =>
      obtain ⟨b, bs, hb⟩ := List.exists_cons_of_ne_nil (String.utf8EncodeChar_ne_nil (c := d))
      rw [List.flatMap_nil, List.flatMap_cons, hb]
      exact List.nil_lt_cons b _
  | cons c cs ih =>
    cases ds with
    | nil => exact absurd h (List.not_lt_nil _)
    | cons d ds =>
      rw [List.flatMap_cons, List.flatMap_cons]
      rcases List.cons_lt_cons_iff.1 h with hlt | ⟨rfl, hrest⟩
      · exact encode_append_lt hlt _ _
      · exact List.append_left_lt (ih hrest)

/-- Comparing texts by their bytes is comparing them by their characters. -/
theorem lt_iff_bytes_lt {s t : String} : s < t ↔ bytes s < bytes t := by
  have hmono : ∀ {s t : String}, s < t → bytes s < bytes t := by
    intro s t hst
    rw [bytes_eq, bytes_eq]
    exact flatMap_encode_lt (String.lt_iff.1 hst)
  constructor
  · exact hmono
  · intro hst
    rcases lt_trichotomy s t with hlt | rfl | hlt
    · exact hlt
    · exact absurd hst (List.lt_irrefl _)
    · exact absurd (hmono hlt) (List.lt_asymm hst)

end WindowForest.Text
