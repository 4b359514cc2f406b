import Mathlib.Data.List.DropRight
import Mathlib.Data.List.Forall2
import WindowForest.Proofs.Toml.Numerals
import WindowForest.Toml.Document

/-!
# Documents read line by line

Some lines are known to be read as a statement whatever follows them (`Spells`): the
header of a table, and an entry whose key needs no quotes and whose value ends with the
line (`Writes`). A text made of such lines is read as their statements, one by one
(`parse_of_spells`). So a single section is read as a table with the entries on its lines
(`parse_section`).
-/

set_option autoImplicit false

namespace WindowForest.Toml

variable {w r : List Char} {c d : Char} {name : String} {v : Value}

/-! ## Values -/

/-- Up to the end of a line, the text is read as the value. -/
structure Writes (w : List Char) (v : Value) : Prop where
  read : ∀ r, value maxDepth (w ++ '\n' :: r) = some (v, '\n' :: r)
  skip : ∀ r, skipBlanks (w ++ '\n' :: r) = w ++ '\n' :: r

/-- Whether a character may stand anywhere in a value that is one word without marks around it. -/
def isWordChar (c : Char) : Bool := !endsScalar c && !opensString c && !isBlank c

/-- A word is read up to the end of its line. -/
theorem scalarText_word (h : ∀ c ∈ w, isWordChar c) (atStart : Bool) :
    scalarText atStart (w ++ '\n' :: r) = w := by
  induction w generalizing atStart with
  | nil => simp [scalarText, endsScalar]
  | cons c w ih =>
    obtain ⟨hc, hw⟩ := List.forall_mem_cons.1 h
    simp only [isWordChar, Bool.and_eq_true, Bool.not_eq_true'] at hc
    simp [scalarText, hc, ih hw]

/-- A word has no blanks at its end. -/
theorem dropBlanksAtEnd_word (h : ∀ c ∈ w, isWordChar c) : dropBlanksAtEnd w = w := by
  refine List.rdropWhile_eq_self_iff.2 ?_
  intro hne hblank
  simpa [isWordChar, hblank] using h _ (List.getLast_mem hne)

/-- What starts like a word is a value without marks around it. -/
theorem value_word (h : isWordChar c) : value maxDepth (c :: r) = unquoted (c :: r) := by
  have hbracket : c ≠ '[' := ne_of_kind h (by decide)
  have hbrace : c ≠ '\x7b' := ne_of_kind h (by decide)
  have hquote : c ≠ '"' := ne_of_kind h (by decide)
  have hmark : c ≠ '\'' := ne_of_kind h (by decide)
  simp [maxDepth, value, simple, hbracket, hbrace, hquote, hmark]

/-- A word that is read as a scalar is read as this scalar up to the end of its line. -/
theorem writes_scalar (hne : w ≠ []) (hw : ∀ c ∈ w, isWordChar c) (hv : scalar? w = some v) :
    Writes w v := by
  obtain ⟨c, w, rfl⟩ := List.exists_cons_of_ne_nil hne
  obtain ⟨hc, -⟩ := List.forall_mem_cons.1 hw
  constructor
  case read =>
    intro r
    have htext : dropBlanksAtEnd (scalarText true (c :: w ++ '\n' :: r)) = c :: w := by
      rw [scalarText_word hw, dropBlanksAtEnd_word hw]
    rw [List.cons_append, value_word hc, unquoted, ← List.cons_append, htext, hv]
    simp
  case skip =>
    intro r
    simp only [isWordChar, Bool.and_eq_true, Bool.not_eq_true'] at hc
    simp [skipBlanks, hc]

/-- Truth values are read back. -/
theorem writes_boolean (b : Bool) : Writes (if b then "true" else "false").toList (.boolean b) := by
  cases b with
  | false => exact writes_scalar (by decide) (List.all_eq_true.1 (by decide)) rfl
  | true => exact writes_scalar (by decide) (List.all_eq_true.1 (by decide)) rfl

/-- Digits may stand in a word. -/
theorem isWordChar_of_isDigit (h : c.isDigit) : isWordChar c := by
  have hne : ∀ d, d.isDigit = false → c ≠ d := fun d hd => ne_of_kind h hd
  simp [isWordChar, endsScalar, opensString, isBlank, hne]

/-- Whole numbers are read back. -/
theorem writes_integer (i : Int) : Writes i.repr.toList (.integer (some i)) := by
  have hdigits : ∀ n : Nat, ∀ c ∈ Nat.toDigits 10 n, isWordChar c := by
    intro n c hc
    exact isWordChar_of_isDigit ((numeral_toDigits n).digits c hc)
  have hminus : isWordChar '-' = true := by decide
  have hchars : i.repr.toList ≠ [] ∧ ∀ c ∈ i.repr.toList, isWordChar c := by
    rw [Int.repr_eq_if]
    split
    · simpa using hdigits i.toNat
    · simpa [hminus] using hdigits (-i).toNat
  exact writes_scalar hchars.1 hchars.2 (scalar?_repr i)

/-- Whether a character may stand as it is between quotes. -/
def isPlainChar (c : Char) : Bool := isTextChar c && c ≠ '"' && c ≠ '\\'

/-- Between quotes, plain characters are read up to the second quote. -/
theorem quotedRaw_plain (h : ∀ c ∈ w, isPlainChar c) : quotedRaw (w ++ '"' :: r) = some (w, r) := by
  induction w with
  | nil => simp [quotedRaw]
  | cons c w ih =>
    obtain ⟨hc, hw⟩ := List.forall_mem_cons.1 h
    simp [isPlainChar] at hc
    simp [quotedRaw, hc, ih hw]

/-- Plain characters between quotes stand for themselves. -/
theorem quotedText_plain (h : ∀ c ∈ w, isPlainChar c) : quotedText false w.length w = some w := by
  induction w with
  | nil => simp [quotedText]
  | cons c w ih =>
    obtain ⟨hc, hw⟩ := List.forall_mem_cons.1 h
    have hbackslash : c ≠ '\\' := ne_of_kind hc (by decide)
    have hnewline : c ≠ '\n' := ne_of_kind hc (by decide)
    have hreturn : c ≠ '\r' := ne_of_kind hc (by decide)
    simp [isPlainChar] at hc
    rw [List.length_cons, quotedText]
    · simp [hc, ih hw]
    · exact hbackslash
    · exact hnewline
    · simp [hreturn]

/-- Texts of plain characters between quotes are read back. -/
theorem writes_text {s : String} (h : ∀ c ∈ s.toList, isPlainChar c) :
    Writes ('"' :: s.toList ++ ['"']) (.text s) := by
  constructor
  case read =>
    intro r
    have hline : lineString ('"' :: (s.toList ++ '"' :: '\n' :: r)) = some (s, '\n' :: r) := by
      simp [lineString, quotedRaw_plain h, quotedText_plain h]
    have hstring : string ('"' :: (s.toList ++ '"' :: '\n' :: r)) = some (s, '\n' :: r) := by
      rw [← hline]
      -- There are no three quotes in front, which would open a block.
      cases hs : s.toList with
      | nil => simp [string]
      | cons c w =>
        have hc : isPlainChar c := h c (by simp [hs])
        have hquote : c ≠ '"' := ne_of_kind hc (by decide)
        simp [string, hquote]
    simp [maxDepth, value, simple, hstring]
  case skip => simp [skipBlanks, isBlank]

/-! ## Lines -/

/-- The text is read as a statement, whatever follows it. -/
structure Spells (w : List Char) (s : Statement) : Prop where
  read : ∀ r, statement (w ++ r) = some (s, r)
  start : ∃ c w', w = c :: w' ∧ (isBareKeyChar c ∨ c = '[')

/-- The name may stand as a key without quotes. -/
def Bare (name : String) : Prop := name.toList ≠ [] ∧ name.toList.all isBareKeyChar

instance : DecidablePred Bare := fun _ => inferInstanceAs (Decidable (_ ∧ _))

/-- The line of a header. -/
def headerLine (name : String) : List Char := '[' :: name.toList ++ [']', '\n']

/-- The line of an entry. -/
def entryLine (name : String) (w : List Char) : List Char :=
  name.toList ++ ' ' :: '=' :: ' ' :: w ++ ['\n']

/-- A line ends at its end. -/
theorem endLine_newline : endLine ('\n' :: r) = some r := by
  simp [endLine, skipBlanks, isBlank, lineEnd?]

section

variable (h : Bare name)

include h

/-- A name without quotes is read as a key of one part. -/
theorem dottedKey_bare (hc : isBareKeyChar c = false) {r' : List Char}
    (hr : skipBlanks (c :: r) = d :: r') (hd : d ≠ '.') (n : Nat) :
    dottedKey (n + 1) (name.toList ++ c :: r) = some (([], name), d :: r') := by
  have hall : ∀ c ∈ name.toList, isBareKeyChar c := List.all_eq_true.1 h.2
  have hpart : keyPart (name.toList ++ c :: r) = some (name, c :: r) := by
    simp [keyPart, List.takeWhile_append_of_pos hall, List.dropWhile_append_of_pos hall, hc, h.1]
  simp [dottedKey, hpart, hr, hd]

/-- A name without quotes has a first character. -/
theorem exists_bare : ∃ c w, name.toList = c :: w ∧ isBareKeyChar c := by
  obtain ⟨c, w, hname⟩ := List.exists_cons_of_ne_nil h.1
  exact ⟨c, w, hname, List.all_eq_true.1 h.2 c (by simp [hname])⟩

/-- The line of a header is read as one. -/
theorem spells_headerLine : Spells (headerLine name) (.table [] name) := by
  refine ⟨fun r => ?_, '[', _, rfl, .inr rfl⟩
  obtain ⟨c, w, hname, hc⟩ := exists_bare h
  have hbracket : c ≠ '[' := ne_of_kind hc (by decide)
  have hspace : c ≠ ' ' := ne_of_kind hc (by decide)
  have htab : c ≠ '\t' := ne_of_kind hc (by decide)
  have hskip : skipBlanks (name.toList ++ ']' :: '\n' :: r) = name.toList ++ ']' :: '\n' :: r := by
    simp [hname, skipBlanks, isBlank, hspace, htab]
  have hkey : key (name.toList ++ ']' :: '\n' :: r) = some (([], name), ']' :: '\n' :: r) :=
    dottedKey_bare h (by decide) (by simp [skipBlanks, isBlank]) (by decide) _
  have htext : headerLine name ++ r = '[' :: (name.toList ++ ']' :: '\n' :: r) := by
    simp [headerLine]
  rw [htext]
  unfold statement
  split
  · simp_all
  · next heq =>
    obtain ⟨-, rfl⟩ := List.cons.inj heq
    simp [hskip, hkey, endLine_newline]
  · simp_all

/-- The line of an entry is read up to its value. -/
theorem keyAndSign_bare (hw : Writes w v) :
    keyAndSign false (name.toList ++ ' ' :: '=' :: ' ' :: (w ++ '\n' :: r)) =
      some (([], name), w ++ '\n' :: r) := by
  have hkey : key (name.toList ++ ' ' :: '=' :: ' ' :: (w ++ '\n' :: r)) =
      some (([], name), '=' :: ' ' :: (w ++ '\n' :: r)) :=
    dottedKey_bare h (by decide) (by simp [skipBlanks, isBlank]) (by decide) _
  have hsign : skipBlanks ('=' :: ' ' :: (w ++ '\n' :: r)) = '=' :: ' ' :: (w ++ '\n' :: r) := by
    simp [skipBlanks, isBlank]
  have hvalue : skipBlanks (' ' :: (w ++ '\n' :: r)) = w ++ '\n' :: r := hw.skip r
  simp [keyAndSign, hkey, skipGap, hsign, hvalue]

/-- The line of an entry is read as one. -/
theorem spells_entryLine (hw : Writes w v) : Spells (entryLine name w) (.entry [] name v) := by
  obtain ⟨c, w', hname, hc⟩ := exists_bare h
  refine ⟨fun r => ?_, c, _, by rw [entryLine, hname]; rfl, .inl hc⟩
  have hbracket : c ≠ '[' := ne_of_kind hc (by decide)
  have hsign := keyAndSign_bare (r := r) h hw
  have htext : entryLine name w ++ r = name.toList ++ ' ' :: '=' :: ' ' :: (w ++ '\n' :: r) := by
    simp [entryLine]
  rw [htext]
  unfold statement
  split
  · simp_all
  · simp_all
  · rw [hsign]
    simp [hw.read, endLine_newline]

end

/-! ## Texts -/

variable {s : Statement} {texts : List (List Char)} {ss : List Statement}

/-- No lines are skipped in front of a statement. -/
theorem Spells.skipLines_eq (h : Spells w s) (r : List Char) :
    skipLines false (w ++ r) = some (w ++ r) := by
  obtain ⟨c, w, rfl, hc⟩ := h.start
  have hne : ∀ d, isBareKeyChar d = false → d ≠ '[' → c ≠ d := by
    rintro d hd hbracket rfl
    simp [hbracket, hd] at hc
  have hnewline := hne '\n' (by decide) (by decide)
  have hreturn := hne '\r' (by decide) (by decide)
  have hspace := hne ' ' (by decide) (by decide)
  have htab := hne '\t' (by decide) (by decide)
  have hhash := hne '#' (by decide) (by decide)
  rw [List.cons_append, skipLines]
  · simp [isBlank, hspace, htab, hhash]
  · exact hnewline
  · simp [hreturn]

/-- Lines that are known to be read as statements are read one by one. -/
theorem statements_of_spells (h : List.Forall₂ Spells texts ss) {n : Nat}
    (hn : texts.length ≤ n) : statements n texts.flatten = some ss := by
  induction h generalizing n with
  | nil => cases n <;> simp [statements, skipLines]
  | @cons w s texts ss hspells _ ih =>
    obtain ⟨n, rfl⟩ : ∃ m, n = m + 1 := ⟨n - 1, by simp at hn; omega⟩
    have hrest := ih (n := n) (by simpa using hn)
    have hread := hspells.read texts.flatten
    obtain ⟨c, w', hw, -⟩ := hspells.start
    rw [List.flatten_cons, statements, hspells.skipLines_eq texts.flatten]
    rw [hw, List.cons_append] at hread ⊢
    simp [hread, hrest]

/-- A text is at least as long as it has lines. -/
theorem length_le_of_spells (h : List.Forall₂ Spells texts ss) :
    texts.length ≤ texts.flatten.length := by
  induction h with
  | nil => simp
  | cons hspells _ ih =>
    obtain ⟨c, w, rfl, -⟩ := hspells.start
    simp only [List.flatten_cons, List.length_cons, List.length_append]
    omega

/-- A text whose lines are known to be read as statements is the document that these build up. -/
theorem parse_of_spells (h : List.Forall₂ Spells texts ss) :
    parse (String.ofList texts.flatten) = (ss.foldlM Draft.add {}).map Draft.entries := by
  have hmark : dropMark texts.flatten = texts.flatten := by
    cases h with
    | nil => rfl
    | cons hspells _ =>
      obtain ⟨c, w, rfl, hc⟩ := hspells.start
      have hne : c ≠ '\ufeff' := by
        rintro rfl
        simp [isBareKeyChar] at hc
      simp [dropMark, hne]
  simp only [parse, String.toList_ofList, hmark, statements_of_spells h (length_le_of_spells h)]
  cases hd : ss.foldlM Draft.add {} <;> simp [hd]

/-! ## Sections -/

variable {k : String} {entries : Entries}

/-- An entry under a new key is added to the table. -/
theorem addEntry_of_new (hnew : ∀ v, (k, v) ∉ entries) :
    ∃ es, addEntry k v entries = some es ∧ es.Perm ((k, v) :: entries) := by
  unfold addEntry
  induction entries with
  | nil => exact ⟨_, by simp [alterEntry], .refl _⟩
  | cons e rest ih =>
    obtain ⟨k', v'⟩ := e
    have hne : k ≠ k' := by
      rintro rfl
      exact hnew v' List.mem_cons_self
    by_cases hlt : k < k'
    · exact ⟨_, by simp [alterEntry, hne, hlt], .refl _⟩
    · obtain ⟨es, hes, hperm⟩ := ih fun v hmem => hnew v (List.mem_cons_of_mem _ hmem)
      exact ⟨(k', v') :: es, by simp [alterEntry, hne, hlt, hes],
        (hperm.cons _).trans (.swap _ _ _)⟩

/-- A header opens its table in the empty document. -/
theorem add_header : ({} : Draft).add (.table [] name) =
    some ⟨[(name, .table .header [])], [name]⟩ := by
  simp [Draft.add, openTable, alterTable, alterEntry]

/-- An entry goes into the table that was opened last. -/
theorem add_entry : (⟨[(name, .table .header entries)], [name]⟩ : Draft).add (.entry [] k v) =
    (addEntry k v entries).map fun es => ⟨[(name, .table .header es)], [name]⟩ := by
  simp [Draft.add, assignUnder, assign, alterTable, alterEntry, Function.comp_def]

/-- Entries under different keys are all added to the table that was opened. -/
theorem foldlM_add_entries {lines : Entries} (name : String)
    (hnodup : ((lines ++ entries).map Prod.fst).Nodup) :
    ∃ es, (lines.map fun l => Statement.entry [] l.1 l.2).foldlM Draft.add
        ⟨[(name, .table .header entries)], [name]⟩ =
      some ⟨[(name, .table .header es)], [name]⟩ ∧ es.Perm (lines ++ entries) := by
  induction lines generalizing entries with
  | nil => exact ⟨entries, rfl, .refl _⟩
  | cons l lines ih =>
    obtain ⟨k, v⟩ := l
    have hnew : ∀ v, (k, v) ∉ entries := by
      intro v hmem
      have hnot : k ∉ (lines ++ entries).map Prod.fst := (List.nodup_cons.1 hnodup).1
      exact hnot (List.mem_map.2 ⟨(k, v), List.mem_append_right _ hmem, rfl⟩)
    obtain ⟨added, hadded, hperm⟩ := addEntry_of_new (v := v) hnew
    have hsame : (lines ++ added).Perm ((k, v) :: lines ++ entries) :=
      (hperm.append_left lines).trans List.perm_middle
    obtain ⟨es, hes, hperm'⟩ := ih ((hsame.map Prod.fst).nodup_iff.2 hnodup)
    refine ⟨es, ?_, hperm'.trans hsame⟩
    rw [List.map_cons, List.foldlM_cons, add_entry, hadded]
    exact hes

/-- A section is read as one table. What stands on its lines are the entries of the table, whatever
the order of the lines. -/
theorem parse_section {ι : Type} {items : List ι} {key : ι → String} {written : ι → List Char}
    {value : ι → Value} (hname : Bare name) (hkey : ∀ i ∈ items, Bare (key i))
    (hwritten : ∀ i ∈ items, Writes (written i) (value i)) (hnodup : (items.map key).Nodup) :
    ∃ inner,
      parse (String.ofList (headerLine name ++
        items.flatMap fun i => entryLine (key i) (written i))) =
          some [(name, .table .header inner)] ∧
      inner.Perm (items.map fun i => (key i, value i)) := by
  have hlines : List.Forall₂ Spells (items.map fun i => entryLine (key i) (written i))
      ((items.map fun i => (key i, value i)).map fun l => .entry [] l.1 l.2) := by
    simp only [List.map_map, List.forall₂_map_left_iff, List.forall₂_map_right_iff,
      List.forall₂_same]
    exact fun i hi => spells_entryLine (hkey i hi) (hwritten i hi)
  have hparse := parse_of_spells (.cons (spells_headerLine hname) hlines)
  rw [List.flatten_cons, ← List.flatMap_def, List.foldlM_cons, add_header] at hparse
  have hkeys : (((items.map fun i => (key i, value i)) ++ []).map Prod.fst).Nodup := by
    simpa [Function.comp_def] using hnodup
  obtain ⟨inner, hinner, hperm⟩ := foldlM_add_entries name hkeys
  refine ⟨inner, ?_, by simpa using hperm⟩
  rw [hparse]
  exact congrArg (Option.map Draft.entries) hinner

end WindowForest.Toml
