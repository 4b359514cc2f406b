import WindowForest.Proofs.Config.Values
import WindowForest.Proofs.Text.Bytes
import WindowForest.Proofs.Toml.KeyOrder
import WindowForest.Proofs.Toml.Sections

/-!
# Which documents are configurations

A document is a configuration if the settings are all that it holds, and all that these
hold are known keys with values that fit (`WellTyped`). The settings then have the values
given and otherwise keep their defaults. If something is wrong, the entry with the least
key among those that are refused decides on the error, in the document and again within
the settings (`LeastRefused`). Keys are compared byte by byte.

The main statement is `judged_of_document`. It needs that the settings are a table, and
that no table stands in place of the mode (`Plain`).
-/

set_option autoImplicit false

namespace WindowForest.Config

open Toml (Value Entries Style)
open Text (bytes)

/-! ## What is refused -/

/-- The entries that are refused, and why: the one with the least key decides. -/
def LeastRefused (Refused : String × Value → Misfit → Prop) (entries : Entries) (e : Misfit) :
    Prop :=
  ∃ k v, (k, v) ∈ entries ∧ Refused (k, v) e ∧
    ∀ j w, (j, w) ∈ entries → bytes j < bytes k → ∀ e', ¬ Refused (j, w) e'

/-- An entry of the settings has an unknown key, or a value that does not fit. -/
inductive BadSetting : String × Value → Misfit → Prop
  | unknown {k : String} {v : Value} (hkey : ∀ setting : Setting, setting.key ≠ k) :
    BadSetting (k, v) (.unknownKey k .settings)
  | illTyped {setting : Setting} {v : Value} {e : Misfit} (hvalue : Refuses setting v e) :
    BadSetting (setting.key, v) e

/-- An entry of a document has an unknown key, or something is wrong within the settings. -/
inductive BadEntry : String × Value → Misfit → Prop
  | unknown {k : String} {v : Value} (hkey : k ≠ settingsKey) :
    BadEntry (k, v) (.unknownKey k .document)
  | settings {style : Style} {inner : Entries} {e : Misfit} (h : LeastRefused BadSetting inner e) :
    BadEntry (settingsKey, .table style inner) e

/-- The settings are all that there is, their keys are known, and the values fit. -/
structure WellTyped (entries : Entries) : Prop where
  only_settings : ∀ k v, (k, v) ∈ entries → k = settingsKey
  fits : ∀ style inner k v, (settingsKey, .table style inner) ∈ entries → (k, v) ∈ inner →
    ∃ setting : Setting, setting.key = k ∧ Fits setting v

/-- The settings are given as a table, and the mode is not. -/
structure Plain (entries : Entries) : Prop where
  settings : ∀ v, (settingsKey, v) ∈ entries → ∃ style inner, v = .table style inner
  mode : ∀ style inner v, (settingsKey, .table style inner) ∈ entries →
    (Setting.defaultMode.key, v) ∈ inner → ∀ style' es, v ≠ .table style' es

/-- The document gives a value for the setting. -/
def Gives (entries : Entries) (setting : Setting) (v : Value) : Prop :=
  ∃ style inner, (settingsKey, .table style inner) ∈ entries ∧ (setting.key, v) ∈ inner

/-- The keys grow byte by byte from one entry to the next. -/
def Ascending (entries : Entries) : Prop := entries.Pairwise fun e e' => bytes e.1 < bytes e'.1

/-- An answer to the question which configuration a document describes. -/
structure Judged (entries : Entries) (answer : Except ParseError Config) : Prop where
  /-- Keys are visited in the order of their bytes. -/
  ascending : Ascending entries
  ascending_settings : ∀ style inner, (settingsKey, .table style inner) ∈ entries → Ascending inner
  accepted_iff : (∃ c, answer = .ok c) ↔ WellTyped entries
  /-- Each given value is taken over. -/
  given : ∀ c, answer = .ok c → ∀ setting v, Gives entries setting v →
    valueOf c.settings setting = v
  /-- Settings that are not given have their defaults. -/
  default : ∀ c, answer = .ok c → ∀ setting, (∀ v, ¬ Gives entries setting v) →
    valueOf c.settings setting = valueOf {} setting
  refused_iff : ∀ e, answer = .error (.misfit e) ↔ LeastRefused BadEntry entries e
  answered : (∃ c, answer = .ok c) ∨ ∃ e, answer = .error (.misfit e)

/-! ## The first refusal decides -/

section

variable {σ α ε : Type} {step : σ → α → Except ε σ} {Bad : α → ε → Prop} {x : α} {l : List α}

/-- Whether a step fails at an item, and how, depends on nothing but the item. -/
structure Foretells (Bad : α → ε → Prop) (step : σ → α → Except ε σ) (l : List α) : Prop where
  error : ∀ x ∈ l, ∀ e, Bad x e → ∀ s, step s x = .error e
  ok : ∀ x ∈ l, (∀ e, ¬ Bad x e) → ∀ s, ∃ s', step s x = .ok s'

namespace Foretells

/-- What is foretold of a list is foretold of its tail. -/
theorem tail (h : Foretells Bad step (x :: l)) : Foretells Bad step l := by
  constructor
  case error =>
    intro y hy
    exact h.error y (List.mem_cons_of_mem x hy)
  case ok =>
    intro y hy
    exact h.ok y (List.mem_cons_of_mem x hy)

/-- The steps fail at the first bad item, in the way that this one does. -/
theorem foldlM_eq_error_iff (h : Foretells Bad step l) (s : σ) (e : ε) :
    l.foldlM step s = .error e ↔
      ∃ a x b, l = a ++ x :: b ∧ (∀ y ∈ a, ∀ e', ¬ Bad y e') ∧ Bad x e := by
  induction l generalizing s with
  | nil => simp [pure, Except.pure]
  | cons x l ih =>
    rw [List.foldlM_cons]
    by_cases hx : ∃ e', Bad x e'
    · obtain ⟨e', he'⟩ := hx
      have herror := h.error x List.mem_cons_self
      rw [herror e' he']
      constructor
      · intro heq
        have hsame : e' = e := Except.error.inj heq
        exact ⟨[], x, l, rfl, by simp, hsame ▸ he'⟩
      · rintro ⟨a, y, b, hcut, hbefore, hy⟩
        cases a with
        | nil =>
          obtain ⟨rfl, -⟩ := List.cons.inj hcut
          have hsame : e' = e := Except.error.inj ((herror e' he' s).symm.trans (herror e hy s))
          rw [hsame]
          rfl
        | cons z a =>
          obtain ⟨rfl, -⟩ := List.cons.inj hcut
          exact absurd he' (hbefore x List.mem_cons_self e')
    · have hx' : ∀ e, ¬ Bad x e := fun e he => hx ⟨e, he⟩
      obtain ⟨s', hs'⟩ := h.ok x List.mem_cons_self hx' s
      rw [hs']
      refine (ih h.tail s').trans ⟨?_, ?_⟩
      · rintro ⟨a, y, b, rfl, hbefore, hy⟩
        exact ⟨x :: a, y, b, rfl, List.forall_mem_cons.2 ⟨hx', hbefore⟩, hy⟩
      · rintro ⟨a, y, b, hcut, hbefore, hy⟩
        cases a with
        | nil =>
          obtain ⟨rfl, -⟩ := List.cons.inj hcut
          exact absurd hy (hx' e)
        | cons z a =>
          obtain ⟨rfl, rfl⟩ := List.cons.inj hcut
          exact ⟨a, y, b, rfl, (List.forall_mem_cons.1 hbefore).2, hy⟩

/-- The steps succeed if there is no bad item. -/
theorem foldlM_eq_ok_iff (h : Foretells Bad step l) (s : σ) :
    (∃ s', l.foldlM step s = .ok s') ↔ ∀ x ∈ l, ∀ e, ¬ Bad x e := by
  induction l generalizing s with
  | nil => simp [pure, Except.pure]
  | cons x l ih =>
    rw [List.foldlM_cons, List.forall_mem_cons]
    by_cases hx : ∃ e', Bad x e'
    · obtain ⟨e', he'⟩ := hx
      rw [h.error x List.mem_cons_self e' he']
      exact iff_of_false nofun fun hnone => hnone.1 e' he'
    · have hx' : ∀ e, ¬ Bad x e := fun e he => hx ⟨e, he⟩
      obtain ⟨s', hs'⟩ := h.ok x List.mem_cons_self hx' s
      rw [hs', and_iff_right hx']
      exact ih h.tail s'

end Foretells

end

variable {entries inner : Entries} {Refused : String × Value → Misfit → Prop} {e : Misfit}

/-- Keys that grow byte by byte are keys that grow. -/
theorem ascending_iff : Ascending entries ↔ entries.Pairwise fun e e' => e.1 < e'.1 := by
  unfold Ascending
  simp only [Text.lt_iff_bytes_lt]

/-- In an ascending table, the least entry that is refused is the first one. -/
theorem leastRefused_iff (h : Ascending entries) :
    LeastRefused Refused entries e ↔
      ∃ a x b, entries = a ++ x :: b ∧ (∀ y ∈ a, ∀ e', ¬ Refused y e') ∧ Refused x e := by
  constructor
  · rintro ⟨k, v, hmem, hrefused, hleast⟩
    obtain ⟨a, b, rfl⟩ := List.append_of_mem hmem
    refine ⟨a, (k, v), b, rfl, ?_, hrefused⟩
    intro y hy
    have hlt : bytes y.1 < bytes k :=
      (List.pairwise_append.1 h).2.2 y hy (k, v) List.mem_cons_self
    exact hleast y.1 y.2 (List.mem_append_left _ hy) hlt
  · rintro ⟨a, ⟨k, v⟩, b, rfl, hbefore, hrefused⟩
    refine ⟨k, v, by simp, hrefused, ?_⟩
    intro j w hmem hlt
    rcases List.mem_append.1 hmem with hmem | hmem
    · exact hbefore _ hmem
    · -- What comes later has a larger key.
      rcases List.mem_cons.1 hmem with heq | hmem
      · rw [(Prod.mk.inj heq).1] at hlt
        exact absurd hlt (List.lt_irrefl _)
      · have hlater := (List.pairwise_cons.1 (List.pairwise_append.1 h).2.1).1 (j, w) hmem
        exact absurd hlt (List.lt_asymm hlater)

/-! ## Settings -/

/-- A value that fits is taken over under the key of its setting. -/
theorem assignKey_of_fits {setting : Setting} {v : Value} (h : Fits setting v) (s : Settings) :
    ∃ s', assignKey s (setting.key, v) = .ok s' ∧ valueOf s' setting = v ∧
      ∀ other, other ≠ setting → valueOf s' other = valueOf s other := by
  rw [assignKey, Setting.ofKey?_key]
  exact assign_of_fits h s

/-- A bad entry is refused, whatever was read before. -/
theorem assignKey_of_bad {entry : String × Value} (h : BadSetting entry e) (s : Settings) :
    assignKey s entry = .error e := by
  cases h with
  | @unknown k v hkey =>
    have hnone : Setting.ofKey? k = none := by
      rw [Option.eq_none_iff_forall_ne_some]
      exact fun setting hsetting => hkey setting (Setting.ofKey?_eq_some_iff.1 hsetting)
    rw [assignKey, hnone]
  | illTyped hvalue =>
    rw [assignKey, Setting.ofKey?_key]
    exact assign_of_refuses hvalue s

/-- The mode is not given as a table. -/
def PlainMode (inner : Entries) : Prop :=
  ∀ v, (Setting.defaultMode.key, v) ∈ inner → ∀ style es, v ≠ .table style es

/-- An entry of the settings is not refused if its key is known and its value fits. -/
theorem not_badSetting_iff (hmode : PlainMode inner) {k : String} {v : Value}
    (hmem : (k, v) ∈ inner) :
    (∀ e, ¬ BadSetting (k, v) e) ↔ ∃ setting : Setting, setting.key = k ∧ Fits setting v := by
  constructor
  · intro hgood
    by_cases hkey : ∃ setting : Setting, setting.key = k
    · obtain ⟨setting, rfl⟩ := hkey
      have htable : setting = .defaultMode → ∀ style es, v ≠ .table style es := by
        rintro rfl
        exact hmode v hmem
      rcases fits_or_refuses htable with hfits | ⟨e, hrefuses⟩
      · exact ⟨setting, rfl, hfits⟩
      · exact absurd (.illTyped hrefuses) (hgood e)
    · exact absurd (.unknown fun setting hs => hkey ⟨setting, hs⟩) (hgood _)
  · rintro ⟨setting, rfl, hfits⟩ e hbad
    obtain ⟨s', hs', -⟩ := assignKey_of_fits hfits {}
    rw [assignKey_of_bad hbad] at hs'
    cases hs'

/-- Reading the settings fails at the bad entries and only there. -/
theorem foretells_badSetting (hmode : PlainMode inner) : Foretells BadSetting assignKey inner where
  error _ _ _ hbad := assignKey_of_bad hbad
  ok := by
    rintro ⟨k, v⟩ hmem hgood s
    obtain ⟨setting, rfl, hfits⟩ := (not_badSetting_iff hmode hmem).1 hgood
    obtain ⟨s', hs', -⟩ := assignKey_of_fits hfits s
    exact ⟨s', hs'⟩

/-- Settings are refused with the error of the least entry that is bad. -/
theorem decodeEntries_eq_error_iff (h : Ascending inner) (hmode : PlainMode inner) :
    decodeEntries inner = .error e ↔ LeastRefused BadSetting inner e := by
  rw [leastRefused_iff h]
  exact (foretells_badSetting hmode).foldlM_eq_error_iff {} e

/-- Settings are read if all their keys are known and all their values fit. -/
theorem decodeEntries_eq_ok_iff (hmode : PlainMode inner) :
    (∃ s, decodeEntries inner = .ok s) ↔
      ∀ k v, (k, v) ∈ inner → ∃ setting : Setting, setting.key = k ∧ Fits setting v := by
  have hsteps : (∃ s, decodeEntries inner = .ok s) ↔ ∀ x ∈ inner, ∀ e, ¬ BadSetting x e :=
    (foretells_badSetting hmode).foldlM_eq_ok_iff {}
  rw [hsteps]
  constructor
  · intro hall k v hmem
    exact (not_badSetting_iff hmode hmem).1 (hall (k, v) hmem)
  · rintro hall ⟨k, v⟩ hmem
    exact (not_badSetting_iff hmode hmem).2 (hall k v hmem)

/-- Reading entries that fit gives each setting the value that is among them, and leaves the others
as they were. -/
theorem valueOf_foldlM (h : Ascending inner)
    (hfits : ∀ k v, (k, v) ∈ inner → ∃ setting : Setting, setting.key = k ∧ Fits setting v)
    {s s' : Settings} (hs' : inner.foldlM assignKey s = .ok s') (setting : Setting) :
    (∀ v, (setting.key, v) ∈ inner → valueOf s' setting = v) ∧
      ((∀ v, (setting.key, v) ∉ inner) → valueOf s' setting = valueOf s setting) := by
  induction inner generalizing s with
  | nil =>
    have hsame : s = s' := Except.ok.inj hs'
    simp [hsame]
  | cons head inner ih =>
    obtain ⟨k, w⟩ := head
    obtain ⟨hhead, htail⟩ := List.pairwise_cons.1 h
    obtain ⟨changed, rfl, hfit⟩ := hfits k w List.mem_cons_self
    obtain ⟨s₁, hs₁, hnew, hold⟩ := assignKey_of_fits hfit s
    rw [List.foldlM_cons, hs₁] at hs'
    obtain ⟨hgiven, hdefault⟩ := ih htail
      (fun k v hmem => hfits k v (List.mem_cons_of_mem _ hmem)) hs'
    by_cases hsame : setting = changed
    · -- The key does not occur again, so the value stays.
      subst hsame
      have hlast : ∀ v, (setting.key, v) ∉ inner := fun v hmem =>
        absurd (hhead _ hmem) (List.lt_irrefl _)
      have hvalue : valueOf s' setting = w := (hdefault hlast).trans hnew
      refine ⟨?_, fun hnone => absurd List.mem_cons_self (hnone w)⟩
      intro v hmem
      rcases List.mem_cons.1 hmem with heq | hmem
      · rw [hvalue, (Prod.mk.inj heq).2]
      · exact absurd hmem (hlast v)
    · have hne : setting.key ≠ changed.key := fun hkey => hsame (Setting.key_injective hkey)
      refine ⟨?_, ?_⟩
      · intro v hmem
        rcases List.mem_cons.1 hmem with heq | hmem
        · exact absurd (Prod.mk.inj heq).1 hne
        · exact hgiven v hmem
      · intro hnone
        rw [hdefault fun v hmem => hnone v (List.mem_cons_of_mem _ hmem), hold setting hsame]

/-! ## Documents -/

/-- In a plain document the mode is not given as a table. -/
theorem Plain.plainMode (hplain : Plain entries) {style : Style}
    (hmem : (settingsKey, .table style inner) ∈ entries) : PlainMode inner := by
  intro v hmode
  exact hplain.mode style inner v hmem hmode

/-- The entry of the settings replaces those of the configuration. -/
theorem decodeEntry_settings (c : Config) (style : Style) (inner : Entries) :
    decodeEntry c (settingsKey, .table style inner) =
      (decodeEntries inner).map fun s => { c with settings := s } := by
  unfold decodeEntry
  rw [if_pos rfl]
  rfl

section

variable (hplain : Plain entries) (h : Ascending entries)
  (hinner : ∀ style inner, (settingsKey, .table style inner) ∈ entries → Ascending inner)

include hplain hinner

/-- Reading a document fails at the bad entries and only there. -/
theorem foretells_badEntry : Foretells BadEntry decodeEntry entries where
  error := by
    rintro _ hmem e (hkey | hleast) c
    · exact if_neg hkey
    · have herror :=
        (decodeEntries_eq_error_iff (hinner _ _ hmem) (hplain.plainMode hmem)).2 hleast
      rw [decodeEntry_settings, herror]
      rfl
  ok := by
    rintro ⟨k, v⟩ hmem hgood c
    have hkey : k = settingsKey := by
      by_contra hkey
      exact hgood _ (.unknown hkey)
    subst hkey
    obtain ⟨style, inner, rfl⟩ := hplain.settings v hmem
    rw [decodeEntry_settings]
    cases hs : decodeEntries inner with
    | ok s => exact ⟨_, rfl⟩
    | error e =>
      have hleast := (decodeEntries_eq_error_iff (hinner _ _ hmem) (hplain.plainMode hmem)).1 hs
      exact absurd (.settings hleast) (hgood e)

/-- Nothing is refused in a document if and only if it is well-typed. -/
theorem wellTyped_iff : (∀ entry ∈ entries, ∀ e, ¬ BadEntry entry e) ↔ WellTyped entries := by
  constructor
  · intro hgood
    constructor
    case only_settings =>
      intro k v hmem
      by_contra hkey
      exact hgood (k, v) hmem _ (.unknown hkey)
    case fits =>
      intro style inner k v hmem hin
      have hmode := hplain.plainMode hmem
      refine (decodeEntries_eq_ok_iff hmode).1 ?_ k v hin
      cases hs : decodeEntries inner with
      | ok s => exact ⟨s, rfl⟩
      | error e =>
        exact absurd (.settings ((decodeEntries_eq_error_iff (hinner _ _ hmem) hmode).1 hs))
          (hgood _ hmem e)
  · rintro hwell _ hmem e (hkey | hleast)
    · exact hkey (hwell.only_settings _ _ hmem)
    · have hmode := hplain.plainMode hmem
      obtain ⟨s, hs⟩ := (decodeEntries_eq_ok_iff hmode).2 fun k v => hwell.fits _ _ k v hmem
      rw [(decodeEntries_eq_error_iff (hinner _ _ hmem) hmode).2 hleast] at hs
      cases hs

/-- A plain document is read if and only if it is well-typed. -/
theorem exists_decode_iff : (∃ c, decode entries = .ok c) ↔ WellTyped entries := by
  have hsteps := (foretells_badEntry hplain hinner).foldlM_eq_ok_iff {}
  rw [← wellTyped_iff hplain hinner]
  exact hsteps

include h

/-- The settings of an accepted document have the values given, and defaults where none is given. -/
theorem valueOf_decode (hwell : WellTyped entries) {c : Config} (hc : decode entries = .ok c)
    (setting : Setting) :
    (∀ v, Gives entries setting v → valueOf c.settings setting = v) ∧
      ((∀ v, ¬ Gives entries setting v) → valueOf c.settings setting = valueOf {} setting) := by
  -- Keys do not repeat, so there is one entry at most.
  match entries, h with
  | [], _ =>
    have hdefault : ({} : Config) = c := Except.ok.inj hc
    refine ⟨?_, fun _ => by rw [← hdefault]⟩
    rintro v ⟨style, inner, hmem, -⟩
    cases hmem
  | [(k, v)], _ =>
    obtain rfl := hwell.only_settings k v List.mem_cons_self
    obtain ⟨style, inner, rfl⟩ := hplain.settings v List.mem_cons_self
    have hfits := fun k v => hwell.fits style inner k v List.mem_cons_self
    obtain ⟨s, hs⟩ := (decodeEntries_eq_ok_iff (hplain.plainMode List.mem_cons_self)).2 hfits
    have hdecode : decode [(settingsKey, .table style inner)] = .ok { settings := s } := by
      rw [decode, List.foldlM_cons, decodeEntry_settings, hs]
      rfl
    obtain rfl : { settings := s } = c := Except.ok.inj (hdecode.symm.trans hc)
    have hgives : ∀ v, Gives [(settingsKey, .table style inner)] setting v ↔
        (setting.key, v) ∈ inner := by
      intro v
      simp [Gives]
    simp only [hgives]
    exact valueOf_foldlM (hinner style inner List.mem_cons_self) hfits hs setting
  | (k, v) :: (k', v') :: rest, hascending =>
    have hlt := (List.pairwise_cons.1 hascending).1 (k', v') List.mem_cons_self
    rw [hwell.only_settings k v (by simp), hwell.only_settings k' v' (by simp)] at hlt
    exact absurd hlt (List.lt_irrefl _)

end

/-- The text of a document is accepted if its entries are. -/
theorem parse_eq_ok_iff {text : String} (hdoc : Toml.parse text = some entries) {c : Config} :
    parse text = .ok c ↔ decode entries = .ok c := by
  unfold parse
  rw [hdoc]
  cases h : decode entries <;> simp [h]

/-- The text of a document is refused with the error of its entries. -/
theorem parse_eq_misfit_iff {text : String} (hdoc : Toml.parse text = some entries) :
    parse text = .error (.misfit e) ↔ decode entries = .error e := by
  unfold parse
  rw [hdoc]
  cases h : decode entries <;> simp [h]

/-- In a document, and in the settings within it, keys grow byte by byte. -/
theorem ascending_of_parse {text : String} (hdoc : Toml.parse text = some entries) :
    Ascending entries ∧
      ∀ style inner, (settingsKey, .table style inner) ∈ entries → Ascending inner := by
  have hordered := Toml.ordered_parse hdoc
  constructor
  · rw [ascending_iff]
    exact hordered.ascending
  · intro style inner hmem
    rw [ascending_iff]
    exact (Toml.ordered_table_iff.1 (hordered.values _ hmem)).ascending

/-- For any text that is a document, with the settings as a table and the mode as none, it is known
whether it is accepted, and with which settings or which error. -/
theorem judged_of_document {text : String} (hdoc : Toml.parse text = some entries)
    (hplain : Plain entries) : Judged entries (parse text) := by
  obtain ⟨h, hinner⟩ := ascending_of_parse hdoc
  have haccepted := exists_decode_iff hplain hinner
  have hrefused : ∀ e, decode entries = .error e ↔ LeastRefused BadEntry entries e := by
    intro e
    rw [leastRefused_iff h]
    exact (foretells_badEntry hplain hinner).foldlM_eq_error_iff {} e
  have hvalues : ∀ c, parse text = .ok c → ∀ setting,
      (∀ v, Gives entries setting v → valueOf c.settings setting = v) ∧
        ((∀ v, ¬ Gives entries setting v) → valueOf c.settings setting = valueOf {} setting) := by
    intro c hc
    rw [parse_eq_ok_iff hdoc] at hc
    exact valueOf_decode hplain h hinner (haccepted.1 ⟨c, hc⟩) hc
  constructor
  case ascending => exact h
  case ascending_settings => exact hinner
  case accepted_iff => simp only [parse_eq_ok_iff hdoc, haccepted]
  case given =>
    intro c hc setting
    exact (hvalues c hc setting).1
  case default =>
    intro c hc setting
    exact (hvalues c hc setting).2
  case refused_iff =>
    intro e
    rw [parse_eq_misfit_iff hdoc, hrefused]
  case answered =>
    simp only [parse_eq_ok_iff hdoc, parse_eq_misfit_iff hdoc]
    cases decode entries with
    | ok c => exact .inl ⟨c, rfl⟩
    | error e => exact .inr ⟨e, rfl⟩

/-- The document has two unknown keys and a number in place of a truth value. The key that comes
first within the settings decides, although it stands last in the text. -/
theorem judged_of_document_misspelt :
    ∃ entries,
      Toml.parse "zoom = 2\n[settings]\nfreeform_enabled = 1\nanimate = true\n" = some entries ∧
      Plain entries ∧
      Judged entries (parse "zoom = 2\n[settings]\nfreeform_enabled = 1\nanimate = true\n") ∧
      parse "zoom = 2\n[settings]\nfreeform_enabled = 1\nanimate = true\n" =
        .error (.misfit (.unknownKey "animate" .settings)) := by
  have htext : "zoom = 2\n[settings]\nfreeform_enabled = 1\nanimate = true\n" =
      String.ofList [Toml.entryLine "zoom" (Int.repr 2).toList, Toml.headerLine "settings",
        Toml.entryLine "freeform_enabled" (Int.repr 1).toList,
        Toml.entryLine "animate" "true".toList].flatten := by decide
  have hdoc : Toml.parse "zoom = 2\n[settings]\nfreeform_enabled = 1\nanimate = true\n" =
      some [("settings", .table .header [("animate", .boolean true),
        ("freeform_enabled", .integer (some 1))]), ("zoom", .integer (some 2))] := by
    rw [htext]
    refine Eq.trans (Toml.parse_of_spells
      (.cons (Toml.spells_entryLine (by decide) (Toml.writes_integer 2))
        (.cons (Toml.spells_headerLine (by decide))
          (.cons (Toml.spells_entryLine (by decide) (Toml.writes_integer 1))
            (.cons (Toml.spells_entryLine (by decide) (Toml.writes_boolean true)) .nil))))) ?_
    simp [-String.lt_iff_ltb, Toml.Draft.add, Toml.openTable, Toml.assignUnder, Toml.assign,
      Toml.addEntry, Toml.alterTable, Toml.alterEntry]
  have hanswer := (parse_eq_misfit_iff (e := .unknownKey "animate" .settings) hdoc).2 (by decide)
  refine ⟨_, hdoc, ?plain, judged_of_document hdoc ?plain, hanswer⟩
  constructor
  · simp [settingsKey]
  · intro style inner v hmem hmode
    simp_all [settingsKey, Setting.key]

end WindowForest.Config
