import Mathlib.Data.List.Nodup
import Mathlib.Data.Option.Basic
import ScopeCheck.Toml.Document

namespace ScopeCheck.Toml

/-- The keys of every table in a value are as they should be. -/
inductive Value.AllKeys (good : List String → Prop) : Value → Prop where
  | string (value : String) : AllKeys good (.string value)
  | integer (value : Int) : AllKeys good (.integer value)
  | float (spelling : String) : AllKeys good (.float spelling)
  | boolean (value : Bool) : AllKeys good (.boolean value)
  | dateTime (spelling : String) : AllKeys good (.dateTime spelling)
  | array {items : List Value} : (∀ item ∈ items, item.AllKeys good) → AllKeys good (.array items)
  | table {form : TableForm} {entries : List (String × Value)} :
    good (entries.map (·.1)) → (∀ entry ∈ entries, entry.2.AllKeys good) →
      AllKeys good (.table form entries)
  | tables {items : List (List (String × Value))} :
    (∀ entries ∈ items, good (entries.map (·.1))) →
      (∀ entries ∈ items, ∀ entry ∈ entries, entry.2.AllKeys good) → AllKeys good (.tables items)

/-- No table in a value has a key twice. -/
abbrev Value.Distinct : Value → Prop := Value.AllKeys List.Nodup

namespace Entries

variable {entries later : Entries} {key : String} {value : Value} {path : List String}

theorem get?_eq_none_iff : entries.get? key = none ↔ key ∉ entries.keys := by
  rw [get?, List.lookup_eq_none_iff, keys, List.mem_map]
  constructor
  · rintro h ⟨entry, hentry, rfl⟩
    exact absurd (h entry hentry) (by simp)
  · intro h entry hentry
    exact bne_iff_ne.mpr fun heq => h ⟨entry, hentry, heq.symm⟩

theorem mem_of_get? (h : entries.get? key = some value) : (key, value) ∈ entries := by
  obtain ⟨before, after, rfl, -⟩ := List.lookup_eq_some_iff.mp h
  exact List.mem_append_right _ List.mem_cons_self

theorem keys_add : (entries.add key value).keys = entries.keys ++ [key] := List.map_append

theorem keys_replace : (entries.replace key value).keys = entries.keys := by
  rw [keys, keys, replace, List.map_map]
  refine List.map_congr_left fun entry _ => ?_
  by_cases hkey : entry.1 = key <;> simp [hkey]

theorem keys_erase : (entries.erase key).keys = entries.keys.filter (· ≠ key) := by
  rw [keys, keys, erase, List.filter_map]
  rfl

theorem get?_filter : Entries.get? (entries.filter (·.1 = key)) key = entries.get? key := by
  induction entries with
  | nil => rfl
  | cons entry entries ih =>
    obtain ⟨name, value⟩ := entry
    rw [get?] at ih ⊢
    by_cases hname : name = key
    · simp only [hname, List.filter_cons, decide_true, if_true, get?, List.lookup_cons,
        beq_self_eq_true]
    · simp only [hname, List.filter_cons, decide_false, Bool.false_eq_true, if_false, ih, get?,
        List.lookup_cons, beq_false_of_ne (Ne.symm hname)]

/-- No table has a key twice, neither the one of the entries nor one inside of them. -/
structure Distinct (entries : Entries) : Prop where
  keys : entries.keys.Nodup
  values : ∀ entry ∈ entries, entry.2.Distinct

theorem distinct_nil : Distinct [] := ⟨List.nodup_nil, nofun⟩

theorem distinct_table {form : TableForm} :
    (Value.table form entries).Distinct ↔ entries.Distinct :=
  ⟨fun | .table hkeys hvalues => ⟨hkeys, hvalues⟩, fun h => .table h.keys h.values⟩

theorem distinct_tables {items : List Entries} :
    (Value.tables items).Distinct ↔ ∀ entries ∈ items, entries.Distinct :=
  ⟨fun | .tables hkeys hvalues => fun entries hentries =>
      ⟨hkeys entries hentries, hvalues entries hentries⟩,
    fun h => .tables (fun entries hentries => (h entries hentries).keys)
      fun entries hentries => (h entries hentries).values⟩

namespace Distinct

theorem value_of_get? (h : entries.Distinct) (hvalue : entries.get? key = some value) :
    value.Distinct :=
  h.values _ (mem_of_get? hvalue)

theorem inner {form : TableForm} {inside : Entries} (h : entries.Distinct)
    (hinside : entries.get? key = some (.table form inside)) : inside.Distinct :=
  distinct_table.mp (h.value_of_get? hinside)

theorem add (h : entries.Distinct) (hnew : entries.get? key = none) (hvalue : value.Distinct) :
    (entries.add key value).Distinct where
  keys := by
    rw [keys_add, List.nodup_append]
    refine ⟨h.keys, List.nodup_singleton key, ?_⟩
    rintro other hother _ hkey rfl
    rw [List.mem_singleton.mp hkey] at hother
    exact get?_eq_none_iff.mp hnew hother
  values entry hentry := by
    rcases List.mem_append.mp hentry with hentry | hentry
    · exact h.values entry hentry
    · rw [List.mem_singleton.mp hentry]
      exact hvalue

theorem replace (h : entries.Distinct) (hvalue : value.Distinct) :
    (entries.replace key value).Distinct where
  keys := by
    rw [keys_replace]
    exact h.keys
  values entry hentry := by
    obtain ⟨old, hold, rfl⟩ := List.mem_map.mp hentry
    split
    · exact hvalue
    · exact h.values old hold

theorem erase (h : entries.Distinct) : (entries.erase key).Distinct where
  keys := by
    rw [keys_erase]
    exact h.keys.filter _
  values entry hentry := h.values entry (List.mem_filter.mp hentry).1

theorem replaceLast {items : List Entries} (h : entries.Distinct)
    (hitems : entries.get? key = some (.tables items)) (hlater : later.Distinct) :
    (entries.replace key (.tables (items.dropLast ++ [later]))).Distinct := by
  refine h.replace (distinct_tables.mpr fun table htable => ?_)
  rcases List.mem_append.mp htable with htable | htable
  · exact distinct_tables.mp (h.value_of_get? hitems) table (List.dropLast_subset _ htable)
  · rw [List.mem_singleton.mp htable]
    exact hlater

theorem last {items : List Entries} {table : Entries} (h : entries.Distinct)
    (hitems : entries.get? key = some (.tables items)) (htable : items.getLast? = some table) :
    table.Distinct :=
  distinct_tables.mp (h.value_of_get? hitems) table (List.mem_of_getLast? htable)

theorem insert (h : entries.Distinct) (hvalue : value.Distinct)
    (hlater : Entries.insert key value path entries = some later) : later.Distinct := by
  induction path generalizing entries later with
  | nil =>
    rw [Entries.insert] at hlater
    split at hlater
    · cases hlater
    · rename_i hnew
      cases hlater
      exact h.add (Option.not_isSome_iff_eq_none.mp hnew) hvalue
  | cons name path ih =>
    rw [Entries.insert] at hlater
    split at hlater
    · rename_i hnew
      obtain ⟨inside, hinside, hlater⟩ := Option.bind_eq_some_iff.mp hlater
      cases hlater
      exact h.add hnew (distinct_table.mpr (ih distinct_nil hinside))
    · rename_i form inside htable
      split at hlater
      · obtain ⟨inside', hinside, hlater⟩ := Option.bind_eq_some_iff.mp hlater
        cases hlater
        exact h.replace (distinct_table.mpr (ih (h.inner htable) hinside))
      · cases hlater
    · rename_i items htables
      split at hlater
      · rename_i last hlast
        obtain ⟨inside, hinside, hlater⟩ := Option.bind_eq_some_iff.mp hlater
        cases hlater
        exact h.replaceLast htables (ih (h.last htables hlast) hinside)
      · cases hlater
    · cases hlater

theorem insertPair {pair : Pair} (h : entries.Distinct) (hvalue : pair.value.Distinct)
    (hlater : Entries.insertPair entries pair = some later) : later.Distinct :=
  h.insert hvalue hlater

theorem foldlM_insertPair {pairs : List Pair} (h : entries.Distinct)
    (hpairs : ∀ pair ∈ pairs, pair.value.Distinct)
    (hlater : pairs.foldlM Entries.insertPair entries = some later) : later.Distinct := by
  induction pairs generalizing entries with
  | nil =>
    cases hlater
    exact h
  | cons pair pairs ih =>
    rw [List.foldlM_cons] at hlater
    obtain ⟨next, hnext, hlater⟩ := Option.bind_eq_some_iff.mp hlater
    exact ih (h.insertPair (hpairs pair List.mem_cons_self) hnext)
      (fun other hother => hpairs other (List.mem_cons_of_mem _ hother)) hlater

theorem modifyAt {change : Entries → Option Entries}
    (hchange : ∀ {here there : Entries}, here.Distinct → change here = some there → there.Distinct)
    (h : entries.Distinct) (hlater : Entries.modifyAt change path entries = some later) :
    later.Distinct := by
  induction path generalizing entries later with
  | nil => exact hchange h hlater
  | cons name path ih =>
    rw [Entries.modifyAt] at hlater
    split at hlater
    · rename_i form inside htable
      obtain ⟨inside', hinside, hlater⟩ := Option.bind_eq_some_iff.mp hlater
      cases hlater
      exact h.replace (distinct_table.mpr (ih (h.inner htable) hinside))
    · rename_i items htables
      obtain ⟨last, hlast, hlater⟩ := Option.bind_eq_some_iff.mp hlater
      obtain ⟨last', hlast', hlater⟩ := Option.bind_eq_some_iff.mp hlater
      cases hlater
      exact h.replaceLast htables (ih (h.last htables hlast) hlast')
    · cases hlater

theorem openTable (h : entries.Distinct) (hlater : Entries.openTable entries key = some later) :
    later.Distinct := by
  rw [Entries.openTable] at hlater
  split at hlater
  · rename_i hnew
    cases hlater
    exact h.add hnew (distinct_table.mpr distinct_nil)
  · rename_i inside htable
    cases hlater
    refine h.erase.add (get?_eq_none_iff.mpr ?_) (distinct_table.mpr (h.inner htable))
    rw [keys_erase, List.mem_filter]
    exact fun hmem => absurd rfl (of_decide_eq_true hmem.2)
  · cases hlater

theorem openNextTable (h : entries.Distinct)
    (hlater : Entries.openNextTable entries key = some later) : later.Distinct := by
  rw [Entries.openNextTable] at hlater
  split at hlater
  · rename_i hnew
    cases hlater
    refine h.add hnew (distinct_tables.mpr fun table htable => ?_)
    rw [List.mem_singleton.mp htable]
    exact distinct_nil
  · rename_i items htables
    cases hlater
    refine h.replace (distinct_tables.mpr fun table htable => ?_)
    rcases List.mem_append.mp htable with htable | htable
    · exact distinct_tables.mp (h.value_of_get? htables) table htable
    · rw [List.mem_singleton.mp htable]
      exact distinct_nil
  · cases hlater

theorem openAt {here : Entries → String → Option Entries}
    (hhere : ∀ {entries later : Entries} {name : String}, entries.Distinct →
      here entries name = some later → later.Distinct)
    (h : entries.Distinct) (hlater : Entries.openAt here path entries = some later) :
    later.Distinct := by
  induction path generalizing entries later with
  | nil => cases hlater
  | cons name path ih =>
    cases path with
    | nil => exact hhere h hlater
    | cons next path =>
      rw [Entries.openAt] at hlater
      on_goal 2 => nofun
      split at hlater
      · rename_i hnew
        obtain ⟨inside, hinside, hlater⟩ := Option.bind_eq_some_iff.mp hlater
        cases hlater
        exact h.add hnew (distinct_table.mpr (ih distinct_nil hinside))
      · cases hlater
      · rename_i form inside _ htable
        obtain ⟨inside', hinside, hlater⟩ := Option.bind_eq_some_iff.mp hlater
        cases hlater
        exact h.replace (distinct_table.mpr (ih (h.inner htable) hinside))
      · rename_i items htables
        obtain ⟨last, hlast, hlater⟩ := Option.bind_eq_some_iff.mp hlater
        obtain ⟨last', hlast', hlater⟩ := Option.bind_eq_some_iff.mp hlater
        cases hlater
        exact h.replaceLast htables (ih (h.last htables hlast) hlast')
      · cases hlater

end Distinct

end Entries

namespace Line

/-- The value on a line, if there is one, has no table with a key twice. -/
def Distinct : Line → Prop
  | .pair written => written.value.Distinct
  | .header _ => True
  | .arrayHeader _ => True

end Line

theorem Entries.Distinct.ofLines {entries later : Entries} {current : List String}
    {lines : List Line} (h : entries.Distinct) (hlines : ∀ line ∈ lines, line.Distinct)
    (hlater : Entries.ofLines current lines entries = some later) : later.Distinct := by
  induction lines generalizing entries current with
  | nil =>
    cases hlater
    exact h
  | cons line lines ih =>
    have hline := hlines line List.mem_cons_self
    have hrest := fun other hother => hlines other (List.mem_cons_of_mem _ hother)
    cases line with
    | pair written =>
      rw [Entries.ofLines] at hlater
      obtain ⟨next, hnext, hlater⟩ := Option.bind_eq_some_iff.mp hlater
      exact ih (h.modifyAt (fun hhere hthere => hhere.insertPair hline hthere) hnext) hrest hlater
    | header path =>
      rw [Entries.ofLines] at hlater
      obtain ⟨next, hnext, hlater⟩ := Option.bind_eq_some_iff.mp hlater
      exact ih (h.openAt openTable hnext) hrest hlater
    | arrayHeader path =>
      rw [Entries.ofLines] at hlater
      obtain ⟨next, hnext, hlater⟩ := Option.bind_eq_some_iff.mp hlater
      exact ih (h.openAt openNextTable hnext) hrest hlater

namespace Scan

/-- Whatever a scanner reads is good. -/
def Yields {α : Type} (good : α → Prop) (scan : Scan α) : Prop :=
  ∀ ⦃text : List Char⦄ ⦃a : α⦄ ⦃rest : List Char⦄, scan text = some (a, rest) → good a

namespace Yields

variable {α β : Type} {good : α → Prop}

theorem pure {a : α} (h : good a) : Yields good (Pure.pure a) := by
  rintro text _ _ ⟨⟩
  exact h

theorem failure : Yields good (Alternative.failure : Scan α) := nofun

theorem bind {scan : Scan β} {next : β → Scan α} {first : β → Prop} (h : Yields first scan)
    (hnext : ∀ b, first b → Yields good (next b)) : Yields good (scan >>= next) := by
  intro text a rest heq
  obtain ⟨⟨b, middle⟩, hscan, heq⟩ := Option.bind_eq_some_iff.mp heq
  exact hnext b (h hscan) heq

theorem of_bind {scan : Scan β} {next : β → Scan α} (hnext : ∀ b, Yields good (next b)) :
    Yields good (scan >>= next) := by
  have hscan : Yields (fun _ => True) scan := fun _ _ _ _ => trivial
  exact hscan.bind fun b _ => hnext b

theorem orElse {scan other : Scan α} (h : Yields good scan) (hother : Yields good other) :
    Yields good (scan <|> other) := by
  intro text a rest heq
  have heq : (scan text <|> other text) = some (a, rest) := heq
  rcases (Option.orElse_eq_some _ _ _).mp heq with heq | ⟨-, heq⟩
  · exact h heq
  · exact hother heq

end Yields

theorem integerOf_distinct (n : Int) : Yields Value.Distinct (integerOf n) := by
  rw [integerOf]
  split
  · exact .pure (.integer n)
  · exact .failure

theorem number_distinct : Yields Value.Distinct number := by
  have hdate : Yields Value.Distinct dateTime := .of_bind fun _ => .pure (.dateTime _)
  have hspecial : Yields Value.Distinct specialFloat := .of_bind fun _ => .pure (.float _)
  have hradix : ∀ letter base isDigit, Yields Value.Distinct (radixInteger letter base isDigit) :=
    fun letter base isDigit => .of_bind fun _ => .of_bind fun _ => .of_bind fun _ =>
      integerOf_distinct _
  have hdecimal : Yields Value.Distinct decimal := by
    refine .of_bind fun ((negative, whole, fraction, power), spelling) => ?_
    dsimp only
    split
    · exact integerOf_distinct _
    · split
      · exact .pure (.float _)
      · exact .failure
  exact .orElse hdate (.orElse hspecial (.orElse (hradix _ _ _) (.orElse (hradix _ _ _)
    (.orElse (hradix _ _ _) hdecimal))))

theorem scalar_distinct : Yields Value.Distinct scalar := by
  refine .of_bind fun ahead => ?_
  split
  · exact .of_bind fun _ => .pure (.string _)
  · exact .of_bind fun _ => .pure (.string _)
  · exact .of_bind fun _ => .pure (.boolean true)
  · exact .of_bind fun _ => .pure (.boolean false)
  · exact number_distinct

section

variable {value : Scan Value}

theorem pair_distinct (h : Yields Value.Distinct value) : Yields (·.value.Distinct) (pair value) := by
  refine .of_bind fun key => .of_bind fun _ => .of_bind fun _ => .bind h fun value hvalue => ?_
  split
  · exact .failure
  · exact .pure hvalue

theorem arrayItems_distinct (h : Yields Value.Distinct value) (fuel : Nat) :
    Yields (∀ item ∈ ·, Value.Distinct item) (arrayItems value fuel) := by
  induction fuel with
  | zero => exact .failure
  | succ fuel ih =>
    refine .of_bind fun _ => .of_bind fun closed => ?_
    split
    · exact .pure nofun
    · refine .bind h fun item hitem => .of_bind fun _ => .of_bind fun more => ?_
      split
      · exact .bind ih fun items hitems => .pure (List.forall_mem_cons.mpr ⟨hitem, hitems⟩)
      · exact .of_bind fun _ => .pure (List.forall_mem_singleton.mpr hitem)

theorem inlinePairs_distinct (h : Yields Value.Distinct value) (fuel : Nat) :
    Yields (∀ pair ∈ ·, pair.value.Distinct) (inlinePairs value fuel) := by
  induction fuel with
  | zero => exact .failure
  | succ fuel ih =>
    refine .bind (pair_distinct h) fun first hfirst => .of_bind fun _ => .of_bind fun more => ?_
    split
    · exact .bind ih fun pairs hpairs => .pure (List.forall_mem_cons.mpr ⟨hfirst, hpairs⟩)
    · exact .of_bind fun _ => .pure (List.forall_mem_singleton.mpr hfirst)

theorem inlineTable_distinct (h : Yields Value.Distinct value) :
    Yields Value.Distinct (inlineTable value) := by
  refine .of_bind fun _ => .of_bind fun closed => ?_
  split
  · exact .pure (Entries.distinct_table.mpr Entries.distinct_nil)
  · refine .of_bind fun _ => .bind (inlinePairs_distinct h _) fun pairs hpairs => ?_
    split
    · exact .failure
    · rename_i hentries
      exact .pure (Entries.distinct_table.mpr
        (Entries.distinct_nil.foldlM_insertPair hpairs hentries))

end

theorem value_distinct (depth : Nat) : Yields Value.Distinct (value depth) := by
  induction depth with
  | zero => exact scalar_distinct
  | succ depth ih =>
    refine .of_bind fun ahead => ?_
    split
    · exact .of_bind fun _ => .bind (arrayItems_distinct ih _) fun items hitems =>
        .pure (.array hitems)
    · exact .of_bind fun _ => inlineTable_distinct ih
    · exact scalar_distinct

theorem header_distinct : Yields Line.Distinct header := by
  refine .of_bind fun _ => .of_bind fun double => ?_
  split
  · exact .of_bind fun _ => .of_bind fun _ => .pure trivial
  · exact .of_bind fun _ => .of_bind fun _ => .pure trivial

theorem linesUpTo_distinct (fuel : Nat) :
    Yields (∀ line ∈ ·, Line.Distinct line) (linesUpTo fuel) := by
  induction fuel with
  | zero => exact .failure
  | succ fuel ih =>
    refine .of_bind fun _ => .of_bind fun ahead => ?_
    split
    · exact .pure nofun
    · exact .of_bind fun _ => .of_bind fun _ => ih
    · exact .of_bind fun _ => ih
    · exact .of_bind fun _ => ih
    · exact .bind header_distinct fun line hline => .of_bind fun _ => .bind ih fun lines hlines =>
        .pure (List.forall_mem_cons.mpr ⟨hline, hlines⟩)
    · exact .bind (pair_distinct (value_distinct _)) fun pair hpair => .of_bind fun _ =>
        .bind ih fun lines hlines => .pure (List.forall_mem_cons.mpr ⟨hpair, hlines⟩)

theorem lines_distinct : Yields (∀ line ∈ ·, Line.Distinct line) lines :=
  .of_bind fun _ => .of_bind fun _ => linesUpTo_distinct _

end Scan

/-- No table of a document has a key twice. -/
theorem distinct_of_parse? {text : List Char} {entries : Entries} (h : parse? text = some entries) :
    entries.Distinct := by
  obtain ⟨⟨lines, rest⟩, hlines, hentries⟩ := Option.bind_eq_some_iff.mp h
  exact Entries.distinct_nil.ofLines (Scan.lines_distinct hlines) hentries

theorem itemsHaveDates_of_forall {items : List Value} (h : ∀ item ∈ items, item.hasDates) :
    itemsHaveDates items := by
  induction items with
  | nil => rfl
  | cons item items ih =>
    rw [itemsHaveDates, h item List.mem_cons_self, Bool.true_and]
    exact ih fun other hother => h other (List.mem_cons_of_mem _ hother)

theorem entriesHaveDates_of_forall {entries : Entries} (h : ∀ entry ∈ entries, entry.2.hasDates) :
    entriesHaveDates entries := by
  induction entries with
  | nil => rfl
  | cons entry entries ih =>
    rw [entriesHaveDates, h entry List.mem_cons_self, Bool.true_and]
    exact ih fun other hother => h other (List.mem_cons_of_mem _ hother)

theorem tableHasDates_of_forall {entries : Entries} (hkey : dateKey ∉ entries.keys)
    (h : ∀ entry ∈ entries, entry.2.hasDates) : tableHasDates entries := by
  cases entries with
  | nil => rfl
  | cons entry entries =>
    have hentries := entriesHaveDates_of_forall h
    rw [entriesHaveDates] at hentries
    rw [tableHasDates, if_neg fun heq => hkey (List.mem_map.mpr ⟨entry, List.mem_cons_self, heq⟩)]
    exact hentries

theorem tablesHaveDates_of_forall {items : List Entries} (h : ∀ entries ∈ items, tableHasDates entries) :
    tablesHaveDates items := by
  induction items with
  | nil => rfl
  | cons entries items ih =>
    rw [tablesHaveDates, h entries List.mem_cons_self, Bool.true_and]
    exact ih fun other hother => h other (List.mem_cons_of_mem _ hother)

theorem hasDates_of_allKeys {value : Value} (h : value.AllKeys (dateKey ∉ ·)) :
    value.hasDates := by
  induction h with
  | array _ ih =>
    rw [Value.hasDates]
    exact itemsHaveDates_of_forall ih
  | table hkeys _ ih =>
    rw [Value.hasDates]
    exact tableHasDates_of_forall hkeys ih
  | tables hkeys _ ih =>
    rw [Value.hasDates]
    exact tablesHaveDates_of_forall fun entries hentries =>
      tableHasDates_of_forall (hkeys entries hentries) (ih entries hentries)
  | _ => rfl

end ScopeCheck.Toml
