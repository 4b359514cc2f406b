import Mathlib.Data.String.Basic
import WindowForest.Toml.Document

/-!
# The order of keys

In the table of a document, and in every table inside of it, the entries stand in the
order of their keys and no key occurs twice (`ordered_parse`). A table is only ever
changed by `alterEntry`, which puts a new entry where it belongs, and what a reader of
values returns has been built in the same way.
-/

set_option autoImplicit false

namespace WindowForest.Toml

variable {key : String} {v : Value} {es es' : Entries} {cs r : List Char}

/-- Every table in a value lists its entries in the order of their keys. -/
inductive Value.Ordered : Value → Prop
  | text (s : String) : Ordered (.text s)
  | integer (n : Option Int) : Ordered (.integer n)
  | real (x : Real) : Ordered (.real x)
  | boolean (b : Bool) : Ordered (.boolean b)
  | moment (written : String) : Ordered (.moment written)
  | array {items : List Value} (values : ∀ v ∈ items, Ordered v) : Ordered (.array items)
  | tables {earlier : List Entries} {last : Entries}
    (ascending : ∀ es ∈ earlier ++ [last], es.Pairwise fun e e' => e.1 < e'.1)
    (values : ∀ es ∈ earlier ++ [last], ∀ e ∈ es, Ordered e.2) : Ordered (.tables earlier last)
  | table {style : Style} {es : Entries} (ascending : es.Pairwise fun e e' => e.1 < e'.1)
    (values : ∀ e ∈ es, Ordered e.2) : Ordered (.table style es)

/-- The entries of a table, and those of all tables inside of it, stand in the order of their
keys. -/
structure Ordered (es : Entries) : Prop where
  ascending : es.Pairwise fun e e' => e.1 < e'.1
  values : ∀ e ∈ es, e.2.Ordered

/-- The empty table is in order. -/
theorem ordered_nil : Ordered [] := by
  refine ⟨.nil, ?_⟩
  intro e he
  cases he

/-- A table is in order if its first key is the least and the rest is in order. -/
theorem ordered_cons_iff {e : String × Value} :
    Ordered (e :: es) ↔ (∀ e' ∈ es, e.1 < e'.1) ∧ e.2.Ordered ∧ Ordered es := by
  constructor
  · intro h
    obtain ⟨hhead, htail⟩ := List.pairwise_cons.1 h.ascending
    exact ⟨hhead, h.values e List.mem_cons_self, htail,
      fun e' he' => h.values e' (List.mem_cons_of_mem _ he')⟩
  · rintro ⟨hhead, hvalue, htail⟩
    refine ⟨List.pairwise_cons.2 ⟨hhead, htail.ascending⟩, ?_⟩
    intro e' he'
    rcases List.mem_cons.1 he' with rfl | he'
    · exact hvalue
    · exact htail.values e' he'

/-- A table as a value is in order if its entries are. -/
theorem ordered_table_iff {style : Style} : (Value.table style es).Ordered ↔ Ordered es := by
  constructor
  · rintro (_ | _ | _ | _ | _ | _ | _ | ⟨hascending, hvalues⟩)
    exact ⟨hascending, hvalues⟩
  · exact fun h => .table h.ascending h.values

/-- An array of tables is in order if all of its tables are. -/
theorem ordered_tables_iff {earlier : List Entries} {last : Entries} :
    (Value.tables earlier last).Ordered ↔ ∀ es ∈ earlier ++ [last], Ordered es := by
  constructor
  · rintro (_ | _ | _ | _ | _ | _ | ⟨hascending, hvalues⟩)
    exact fun es hes => ⟨hascending es hes, hvalues es hes⟩
  · exact fun h => .tables (fun es hes => (h es hes).ascending) fun es hes => (h es hes).values

/-- Of an array of tables only the last one is ever changed. -/
theorem ordered_tables_last {earlier : List Entries} {last last' : Entries}
    (h : (Value.tables earlier last).Ordered) (hlast : Ordered last → Ordered last') :
    (Value.tables earlier last').Ordered := by
  rw [ordered_tables_iff] at h ⊢
  intro es hes
  rcases List.mem_append.1 hes with hes | hes
  · exact h es (List.mem_append_left _ hes)
  · rw [List.mem_singleton.1 hes]
    exact hlast (h last (by simp))

/-! ## Changing tables -/

/-- An entry of a changed table has the key that was changed, or its key was there before. -/
theorem mem_alterEntry {change : Option Value → Option Value}
    (h : alterEntry key change es = some es') {e : String × Value} (he : e ∈ es') :
    e.1 = key ∨ ∃ e₀ ∈ es, e₀.1 = e.1 := by
  induction es generalizing es' with
  | nil =>
    obtain ⟨v, -, rfl⟩ := Option.map_eq_some_iff.1 h
    exact .inl (by simp_all)
  | cons head rest ih =>
    obtain ⟨k, v⟩ := head
    unfold alterEntry at h
    split_ifs at h with hk hlt
    · obtain ⟨new, -, rfl⟩ := Option.map_eq_some_iff.1 h
      rcases List.mem_cons.1 he with rfl | he
      · exact .inl hk.symm
      · exact .inr ⟨e, List.mem_cons_of_mem _ he, rfl⟩
    · obtain ⟨new, -, rfl⟩ := Option.map_eq_some_iff.1 h
      rcases List.mem_cons.1 he with rfl | he
      · exact .inl rfl
      · exact .inr ⟨e, he, rfl⟩
    · obtain ⟨rest', hrest, rfl⟩ := Option.map_eq_some_iff.1 h
      rcases List.mem_cons.1 he with rfl | he
      · exact .inr ⟨_, List.mem_cons_self, rfl⟩
      · refine (ih hrest he).imp_right ?_
        rintro ⟨e₀, he₀, hkey⟩
        exact ⟨e₀, List.mem_cons_of_mem _ he₀, hkey⟩

/-- A changed entry stays in its place, and a new one comes between the smaller and the larger
keys. -/
theorem ordered_alterEntry {change : Option Value → Option Value} (h : Ordered es)
    (hchange : ∀ old new, (∀ v, old = some v → v.Ordered) → change old = some new → new.Ordered)
    (halter : alterEntry key change es = some es') : Ordered es' := by
  induction es generalizing es' with
  | nil =>
    obtain ⟨new, hnew, rfl⟩ := Option.map_eq_some_iff.1 halter
    exact ordered_cons_iff.2 ⟨by simp, hchange none new nofun hnew, ordered_nil⟩
  | cons head rest ih =>
    obtain ⟨k, v⟩ := head
    obtain ⟨hhead, hvalue, hrest⟩ := ordered_cons_iff.1 h
    unfold alterEntry at halter
    split_ifs at halter with hk hlt
    · obtain ⟨new, hnew, rfl⟩ := Option.map_eq_some_iff.1 halter
      refine ordered_cons_iff.2 ⟨hhead, hchange (some v) new ?_ hnew, hrest⟩
      rintro _ ⟨⟩
      exact hvalue
    · obtain ⟨new, hnew, rfl⟩ := Option.map_eq_some_iff.1 halter
      refine ordered_cons_iff.2 ⟨?_, hchange none new nofun hnew, h⟩
      intro e he
      rcases List.mem_cons.1 he with rfl | he
      · exact hlt
      · exact hlt.trans (hhead e he)
    · obtain ⟨rest', hrest', rfl⟩ := Option.map_eq_some_iff.1 halter
      refine ordered_cons_iff.2 ⟨?_, hvalue, ih hrest hrest'⟩
      intro e he
      rcases mem_alterEntry hrest' he with hkey | ⟨e₀, he₀, hkey⟩
      · exact hkey ▸ lt_of_le_of_ne (not_lt.1 hlt) (Ne.symm hk)
      · exact hkey ▸ hhead e₀ he₀

/-- A new entry leaves a table in order. -/
theorem ordered_addEntry (h : Ordered es) (hv : v.Ordered) (hadd : addEntry key v es = some es') :
    Ordered es' := by
  refine ordered_alterEntry h ?_ hadd
  rintro (_ | old) new - hnew
  · exact Option.some.inj hnew ▸ hv
  · cases hnew

/-- What keeps a single table in order keeps the whole in order when it is done further down. -/
theorem ordered_alterTable {via style : Style} {change : Style → Entries → Option Entries}
    (hchange : ∀ style es es', Ordered es → change style es = some es' → Ordered es')
    {path : List String} (h : Ordered es)
    (halter : alterTable via change path style es = some es') : Ordered es' := by
  induction path generalizing style es es' with
  | nil => exact hchange style es es' h halter
  | cons key path ih =>
    refine ordered_alterEntry h ?_ halter
    intro old new hold hnew
    split at hnew
    · obtain ⟨inner, hinner, rfl⟩ := Option.map_eq_some_iff.1 hnew
      exact ordered_table_iff.2 (ih ordered_nil hinner)
    · cases hnew
    · split_ifs at hnew
      obtain ⟨inner, hinner, rfl⟩ := Option.map_eq_some_iff.1 hnew
      exact ordered_table_iff.2 (ih (ordered_table_iff.1 (hold _ rfl)) hinner)
    · obtain ⟨inner, hinner, rfl⟩ := Option.map_eq_some_iff.1 hnew
      exact ordered_table_iff.2 (ih (ordered_table_iff.1 (hold _ rfl)) hinner)
    · obtain ⟨inner, hinner, rfl⟩ := Option.map_eq_some_iff.1 hnew
      exact ordered_table_iff.2 (ih (ordered_table_iff.1 (hold _ rfl)) hinner)
    · obtain ⟨inner, hinner, rfl⟩ := Option.map_eq_some_iff.1 hnew
      exact ordered_tables_last (hold _ rfl) fun hlast => ih hlast hinner
    · cases hnew

/-- A value that is put in under a path leaves the table in order. -/
theorem ordered_assign {path : List String} {style : Style} (h : Ordered es) (hv : v.Ordered)
    (hassign : assign path key v style es = some es') : Ordered es' := by
  refine ordered_alterTable ?_ h hassign
  intro style es es' hes hadd
  split_ifs at hadd
  exact ordered_addEntry hes hv hadd

/-- A header leaves the document in order. -/
theorem ordered_openTable {path : List String} (h : Ordered es)
    (hopen : openTable path key es = some es') : Ordered es' := by
  refine ordered_alterTable ?_ h hopen
  intro style es es' hes halter
  refine ordered_alterEntry hes ?_ halter
  intro old new hold hnew
  split at hnew
  · exact Option.some.inj hnew ▸ ordered_table_iff.2 ordered_nil
  · exact Option.some.inj hnew ▸ ordered_table_iff.2 (ordered_table_iff.1 (hold _ rfl))
  · cases hnew

/-- The header of an element leaves the document in order. -/
theorem ordered_openElement {path : List String} (h : Ordered es)
    (hopen : openElement path key es = some es') : Ordered es' := by
  refine ordered_alterTable ?_ h hopen
  intro style es es' hes halter
  refine ordered_alterEntry hes ?_ halter
  intro old new hold hnew
  split at hnew
  · rw [← Option.some.inj hnew, ordered_tables_iff]
    simp [ordered_nil]
  · rw [← Option.some.inj hnew, ordered_tables_iff]
    intro es hes
    rcases List.mem_append.1 hes with hes | hes
    · exact ordered_tables_iff.1 (hold _ rfl) es hes
    · rw [List.mem_singleton.1 hes]
      exact ordered_nil
  · cases hnew

/-- An entry below a header leaves the document in order. -/
theorem ordered_assignUnder {header path : List String} (h : Ordered es) (hv : v.Ordered)
    (hassign : assignUnder header path key v es = some es') : Ordered es' := by
  refine ordered_alterTable ?_ h hassign
  intro style es es' hes hadd
  exact ordered_assign hes hv hadd

/-! ## Reading -/

/-- A value without marks around it is no table. -/
theorem ordered_scalar? (h : scalar? cs = some v) : v.Ordered := by
  unfold scalar? at h
  split_ifs at h
  · exact Option.some.inj h ▸ .boolean true
  · exact Option.some.inj h ▸ .boolean false
  · exact Option.some.inj h ▸ .moment _
  · split at h
    · exact Option.some.inj h ▸ .integer _
    · obtain ⟨x, -, rfl⟩ := Option.map_eq_some_iff.1 h
      exact .real x

/-- A text or a value without marks around it is no table. -/
theorem ordered_simple (h : simple cs = some (v, r)) : v.Ordered := by
  unfold simple at h
  split at h
  · obtain ⟨⟨s, r⟩, -, hv⟩ := Option.map_eq_some_iff.1 h
    exact (Prod.mk.inj hv).1 ▸ .text s
  · obtain ⟨⟨s, r⟩, -, hv⟩ := Option.map_eq_some_iff.1 h
    exact (Prod.mk.inj hv).1 ▸ .text s
  · obtain ⟨w, hw, hv⟩ := Option.map_eq_some_iff.1 h
    exact (Prod.mk.inj hv).1 ▸ ordered_scalar? hw

section

variable {reader : Reader} (hreader : ∀ cs v r, reader cs = some (v, r) → v.Ordered)

include hreader

/-- The items of an array are in order if the reader returns values in order. -/
theorem ordered_items {n : Nat} {vs : List Value} (h : items reader n cs = some (vs, r)) :
    ∀ v ∈ vs, v.Ordered := by
  induction n generalizing cs vs r with
  | zero =>
    unfold items at h
    split at h
    · obtain ⟨rfl, -⟩ := Prod.mk.inj (Option.some.inj h)
      simp
    · cases h
    · contradiction
  | succ n ih =>
    unfold items at h
    split at h
    · obtain ⟨rfl, -⟩ := Prod.mk.inj (Option.some.inj h)
      simp
    · contradiction
    · next m hm _ =>
      obtain rfl := Nat.succ.inj hm
      simp only [Option.bind_eq_bind, Option.bind_eq_some_iff] at h
      obtain ⟨⟨w, r₁⟩, hw, r₂, -, h⟩ := h
      split at h
      · simp only [Option.bind_eq_some_iff] at h
        obtain ⟨r₃, -, ⟨ws, r₄⟩, hws, h⟩ := h
        obtain ⟨rfl, -⟩ := Prod.mk.inj (Option.some.inj h)
        exact List.forall_mem_cons.2 ⟨hreader _ _ _ hw, ih hws⟩
      · obtain ⟨rfl, -⟩ := Prod.mk.inj (Option.some.inj h)
        simpa using hreader _ _ _ hw
      · cases h

/-- An inline table is in order if the reader returns values in order. -/
theorem ordered_pairs {n : Nat} (hes : Ordered es) (h : pairs reader n es cs = some (es', r)) :
    Ordered es' := by
  induction n generalizing cs es with
  | zero =>
    unfold pairs at h
    split at h
    · exact (Prod.mk.inj (Option.some.inj h)).1 ▸ hes
    · cases h
    · contradiction
  | succ n ih =>
    unfold pairs at h
    split at h
    · exact (Prod.mk.inj (Option.some.inj h)).1 ▸ hes
    · contradiction
    · next m hm _ =>
      obtain rfl := Nat.succ.inj hm
      simp only [Option.bind_eq_bind, Option.bind_eq_some_iff] at h
      obtain ⟨⟨⟨path, k⟩, r₁⟩, -, ⟨w, r₂⟩, hw, es₁, hassign, r₃, -, h⟩ := h
      have hes₁ := ordered_assign hes (hreader _ _ _ hw) hassign
      split at h
      · simp only [Option.bind_eq_some_iff] at h
        obtain ⟨r₄, -, h⟩ := h
        exact ih hes₁ h
      · exact (Prod.mk.inj (Option.some.inj h)).1 ▸ hes₁
      · cases h

end

/-- Arrays and inline tables are put together from values that are in order. -/
theorem ordered_value {depth : Nat} (h : value depth cs = some (v, r)) : v.Ordered := by
  induction depth generalizing cs v r with
  | zero => exact ordered_simple h
  | succ depth ih =>
    unfold value at h
    split at h
    · simp only [Option.bind_eq_bind, Option.bind_eq_some_iff] at h
      obtain ⟨r₁, -, ⟨vs, r₂⟩, hvs, h⟩ := h
      obtain ⟨rfl, -⟩ := Prod.mk.inj (Option.some.inj h)
      exact .array (ordered_items (fun _ _ _ => ih) hvs)
    · simp only [Option.bind_eq_bind, Option.bind_eq_some_iff] at h
      obtain ⟨r₁, -, ⟨es, r₂⟩, hes, h⟩ := h
      obtain ⟨rfl, -⟩ := Prod.mk.inj (Option.some.inj h)
      exact ordered_table_iff.2 (ordered_pairs (fun _ _ _ => ih) ordered_nil hes)
    · exact ordered_simple h

/-- What a statement brings into a document is in order. -/
def Statement.Ordered : Statement → Prop
  | .entry _ _ v => v.Ordered
  | _ => True

/-- A statement that is read brings in a value in order. -/
theorem ordered_statement {s : Statement} (h : statement cs = some (s, r)) : s.Ordered := by
  unfold statement at h
  split at h
  case h_3 =>
    simp only [Option.bind_eq_bind, Option.bind_eq_some_iff] at h
    obtain ⟨⟨⟨path, k⟩, r₁⟩, -, ⟨v, r₂⟩, hv, r₃, -, h⟩ := h
    obtain ⟨rfl, -⟩ := Prod.mk.inj (Option.some.inj h)
    exact ordered_value hv
  -- Headers of both kinds bring in no value.
  all_goals
    simp only [Option.bind_eq_bind, Option.bind_eq_some_iff] at h
    obtain ⟨⟨⟨path, k⟩, r₁⟩, -, h⟩ := h
    split at h
    · obtain ⟨r₂, -, h⟩ := Option.bind_eq_some_iff.1 h
      obtain ⟨rfl, -⟩ := Prod.mk.inj (Option.some.inj h)
      trivial
    · cases h

/-- All statements that are read bring in values in order. -/
theorem ordered_statements {n : Nat} {ss : List Statement} (h : statements n cs = some ss) :
    ∀ s ∈ ss, s.Ordered := by
  induction n generalizing cs ss with
  | zero =>
    unfold statements at h
    obtain ⟨r, -, h⟩ := Option.bind_eq_some_iff.1 h
    split at h
    · rw [← Option.some.inj h]
      simp
    · cases h
  | succ n ih =>
    unfold statements at h
    obtain ⟨r, -, h⟩ := Option.bind_eq_some_iff.1 h
    split at h
    · rw [← Option.some.inj h]
      simp
    · simp only [Option.bind_eq_bind, Option.bind_eq_some_iff] at h
      obtain ⟨⟨s, r₁⟩, hs, ss', hss', h⟩ := h
      rw [← Option.some.inj h]
      exact List.forall_mem_cons.2 ⟨ordered_statement hs, ih hss'⟩

namespace Draft

variable {d d' : Draft}

/-- A statement leaves the document in order. -/
theorem ordered_add {s : Statement} (h : Toml.Ordered d.entries) (hs : s.Ordered)
    (hadd : d.add s = some d') : Toml.Ordered d'.entries := by
  cases s with
  | table path k =>
    obtain ⟨es, hes, rfl⟩ := Option.map_eq_some_iff.1 hadd
    exact ordered_openTable h hes
  | element path k =>
    obtain ⟨es, hes, rfl⟩ := Option.map_eq_some_iff.1 hadd
    exact ordered_openElement h hes
  | entry path k v =>
    obtain ⟨es, hes, rfl⟩ := Option.map_eq_some_iff.1 hadd
    exact ordered_assignUnder h hs hes

/-- Any number of statements leave the document in order. -/
theorem ordered_foldlM {ss : List Statement} (h : Toml.Ordered d.entries)
    (hss : ∀ s ∈ ss, s.Ordered) (hadd : ss.foldlM add d = some d') :
    Toml.Ordered d'.entries := by
  induction ss generalizing d with
  | nil => exact Option.some.inj hadd ▸ h
  | cons s ss ih =>
    rw [List.foldlM_cons] at hadd
    obtain ⟨d₁, hd₁, hadd⟩ := Option.bind_eq_some_iff.1 hadd
    obtain ⟨hs, hss⟩ := List.forall_mem_cons.1 hss
    exact ih (ordered_add h hs hd₁) hss hadd

end Draft

/-- The table of a document, and every table inside of it, lists its entries in the order of their
keys. -/
theorem ordered_parse {text : String} (h : parse text = some es) : Ordered es := by
  unfold parse at h
  simp only [Option.bind_eq_bind, Option.bind_eq_some_iff] at h
  obtain ⟨ss, hss, d, hd, h⟩ := h
  rw [← Option.some.inj h]
  exact Draft.ordered_foldlM ordered_nil (ordered_statements hss) hd

end WindowForest.Toml
