import WindowForest.Proofs.Config.Acceptance

/-!
# Written configurations are read back

The text of a configuration is a section with a line for each of the settings, so its
document has the value of each setting under the key of the setting. All of these values
fit, whatever the configuration, and settings are determined by their values.
-/

set_option autoImplicit false

namespace WindowForest

open Toml (Value Entries Writes Bare)

/-- All settings are listed. -/
theorem Setting.mem_all (setting : Setting) : setting ∈ Setting.all := by
  cases setting <;> decide

/-- The names of the modes stand between quotes as they are. -/
theorem Mode.name_plain (m : Mode) : ∀ c ∈ m.name.toList, Toml.isPlainChar c := by
  cases m <;> exact List.all_eq_true.1 (by decide)

namespace Config

/-- The value of a setting is written in a form that is read back as this value. -/
theorem writes_written (s : Settings) (setting : Setting) :
    Writes (written s setting).toList (valueOf s setting) := by
  cases setting with
  | defaultMode =>
    have hquoted : (written s .defaultMode).toList = '"' :: s.defaultMode.name.toList ++ ['"'] := by
      simp [written]
    rw [hquoted]
    exact Toml.writes_text s.defaultMode.name_plain
  | freeformEnabled => exact Toml.writes_boolean s.freeformEnabled
  | defaultWidth => exact Toml.writes_integer s.defaultWidth.toInt
  | defaultHeight => exact Toml.writes_integer s.defaultHeight.toInt

/-- The text of a configuration is a header and a line for each setting. -/
theorem render_eq_section (c : Config) :
    render c = String.ofList (Toml.headerLine settingsKey ++
      Setting.all.flatMap fun setting =>
        Toml.entryLine setting.key (written c.settings setting).toList) := by
  rw [← String.toList_inj, String.toList_ofList]
  simp [render, line, Toml.headerLine, Toml.entryLine, String.toList_join, List.flatMap_map]

/-- The entries of a table are the values of settings, each under the key of its setting. -/
def Lists (inner : Entries) (s : Settings) : Prop :=
  ∀ k v, (k, v) ∈ inner ↔ ∃ setting : Setting, setting.key = k ∧ valueOf s setting = v

namespace Lists

variable {inner : Entries} {s : Settings} (hlists : Lists inner s)

include hlists

/-- A table of settings makes a plain document. -/
theorem plain : Plain [(settingsKey, .table .header inner)] := by
  constructor
  · intro v hmem
    exact ⟨.header, inner, by simpa using hmem⟩
  · intro style es v hmem hmode style' es'
    obtain ⟨rfl, rfl⟩ : style = .header ∧ es = inner := by simpa using hmem
    obtain ⟨setting, hkey, rfl⟩ := (hlists _ _).1 hmode
    rw [Setting.key_injective hkey]
    exact Value.noConfusion

/-- A table of settings makes a well-typed document. -/
theorem wellTyped : WellTyped [(settingsKey, .table .header inner)] := by
  constructor
  · intro k v hmem
    simp_all
  · intro style es k v hmem hin
    obtain ⟨rfl, rfl⟩ : style = .header ∧ es = inner := by simpa using hmem
    obtain ⟨setting, rfl, rfl⟩ := (hlists k v).1 hin
    exact ⟨setting, rfl, fits_valueOf s setting⟩

/-- A table of settings gives the value of each of them. -/
theorem gives (setting : Setting) :
    Gives [(settingsKey, .table .header inner)] setting (valueOf s setting) := by
  have hmem : (setting.key, valueOf s setting) ∈ inner := by
    rw [hlists]
    exact ⟨setting, rfl, rfl⟩
  exact ⟨.header, inner, List.mem_cons_self, hmem⟩

end Lists

/-- The text of a configuration is a document that lists its settings. -/
theorem exists_document (c : Config) :
    ∃ inner, Toml.parse (render c) = some [(settingsKey, .table .header inner)] ∧
      Lists inner c.settings := by
  have hkeys : ∀ setting ∈ Setting.all, Bare setting.key := by decide
  have hnodup : (Setting.all.map Setting.key).Nodup := by decide
  obtain ⟨inner, hdoc, hperm⟩ := Toml.parse_section (show Bare settingsKey by decide) hkeys
    (fun setting _ => writes_written c.settings setting) hnodup
  refine ⟨inner, ?_, ?_⟩
  · rw [render_eq_section, hdoc]
  · intro k v
    simp [hperm.mem_iff, Setting.mem_all]

/-- Every configuration that is written is accepted, and is the same one when it is read back. -/
theorem parse_render (c : Config) : parse (render c) = .ok c := by
  obtain ⟨inner, hdoc, hlists⟩ := exists_document c
  obtain ⟨h, hinner⟩ := ascending_of_parse hdoc
  obtain ⟨c', hc'⟩ := (exists_decode_iff hlists.plain hinner).2 hlists.wellTyped
  have hvalues : ∀ setting, valueOf c'.settings setting = valueOf c.settings setting := by
    intro setting
    have hgiven := (valueOf_decode hlists.plain h hinner hlists.wellTyped hc' setting).1
    exact hgiven _ (hlists.gives setting)
  have hsame : c' = c := by
    cases c'
    cases c
    simpa using eq_of_valueOf hvalues
  exact (parse_eq_ok_iff hdoc).2 (hsame ▸ hc')

end Config

end WindowForest
