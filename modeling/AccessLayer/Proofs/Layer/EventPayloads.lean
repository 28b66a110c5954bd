import AccessLayer.Proofs.Layer.EventCalls
import AccessLayer.Proofs.Record.FieldNames

/-!
# Payloads of events

The module of an event declares the payload that its caller gives: the fields of its table that take
a value, each once. Whether there is such a field is tested before the fields inside of others are
left out, so an event whose only such fields lie inside of others has a module with an empty
payload.

* `Takes`: the fields of a table that take a value.
* `mem_keys_ofEvent?`: the fields of a payload.
* `makeEvents_payload`: the payloads of all modules of a pass.
-/

namespace AccessLayer.Layer

open Record

variable {p : Project} {s s' : Session} {statements : List Surql.Statement} {name : Bytes}
  {w : EventUnit}

/-- A statement defines the field on the table with a value that depends on the one given. -/
def Takes (statements : List Surql.Statement) (table name : Bytes) : Prop :=
  ∃ f ∈ Surql.fields statements, f.table = table ∧ f.name = name ∧ usesValue f.value = true

/-! ## The fields of a payload -/

/-- Fields other than the id keep their names as keys. -/
theorem keys_goFields {fields : List StructField} (h : ∀ f ∈ fields, f.name ≠ idName) :
    (goFields fields).map (·.key) = (fields.map (·.name)).filter fun n => !isNested n := by
  rw [goFields, List.map_map, List.filter_map]
  refine List.map_congr_left fun f hf => ?_
  rw [Function.comp_apply, goField, beq_eq_false_iff_ne.2 (h f (List.mem_filter.1 hf).1),
    if_neg Bool.false_ne_true]

theorem mem_names_payloadDefs {table : Bytes} :
    name ∈ (EventUnit.payloadDefs statements table).map (·.name) ↔ name ≠ idName ∧
      Takes statements table name := by
  simp only [EventUnit.payloadDefs, fieldsOf, Takes, List.mem_map, List.mem_filter,
    Bool.and_eq_true, bne_iff_ne, beq_iff_eq]
  constructor
  · rintro ⟨f, ⟨⟨hf, htable⟩, hid, huses⟩, rfl⟩
    exact ⟨hid, f, hf, htable, rfl, huses⟩
  · rintro ⟨hid, f, hf, htable, rfl, huses⟩
    exact ⟨f, ⟨⟨hf, htable⟩, hid, huses⟩, rfl⟩

/-- The payload of an event has the fields that take a value and do not lie inside of others, each
once. -/
theorem mem_keys_ofEvent? (h : EventUnit.ofEvent? statements name = some w) :
    (w.fields.map (·.key)).Nodup ∧
      ∀ k, k ∈ w.fields.map (·.key) ↔ (k ≠ idName ∧ Takes statements w.name k) ∧
        isNested k = false := by
  obtain ⟨rfl, hfields⟩ := ofEvent?_eq_some h
  have hgathers := gathers_structFields (EventUnit.payloadDefs statements w.name) false
  have hnames : ∀ k, k ∈ (structFields (EventUnit.payloadDefs statements w.name) false).map
      (·.name) ↔
      k ≠ idName ∧ Takes statements w.name k := by
    intro k
    rw [hgathers.keys, List.mem_eraseDups, names_entries, ← mem_names_payloadDefs]
    rfl
  rw [hfields, keys_goFields fun f hf => ((hnames f.name).1 (List.mem_map_of_mem hf)).1]
  refine ⟨hgathers.nodup.filter _, fun k => ?_⟩
  rw [List.mem_filter, hnames, Bool.not_eq_true']

/-- The payload of an event is empty if all fields that take a value lie inside of others. -/
theorem fields_ofEvent?_eq_nil (h : EventUnit.ofEvent? statements name = some w) :
    w.fields = [] ↔ ∀ k, k ≠ idName → Takes statements w.name k → isNested k := by
  rw [← List.map_eq_nil_iff (f := (·.key)), List.eq_nil_iff_forall_not_mem]
  refine forall_congr' fun k => ?_
  rw [(mem_keys_ofEvent? h).2, not_and, Bool.not_eq_false, and_imp]

/-! ## The pass over the events -/

/-- Each module of the pass over the events is that of an event of one of its files. The fields of
the payload have different names, none of which is the id, and each is defined on the table of the
event in the same file with a value that depends on the one given. The file defines such a field,
but the payload has one if and only if one of them does not lie inside of another. -/
theorem makeEvents_payload {r : CategoryResult} (h : (makeEvents p).Gives s r s') :
    ∃ files, (p.sources p.settings.paths.events).Gives s files s ∧
      ∀ m ∈ r.modules, ∃ path ∈ files, ∃ statements,
      statementsAt? s path = some statements ∧ ∃ w : EventUnit,
        (∃ e ∈ Surql.events statements, e.name = w.name) ∧ EventUnit.IsModule p s w m ∧
          (w.fields.map (·.key)).Nodup ∧
          (∀ k, k ∈ w.fields.map (·.key) ↔ (k ≠ idName ∧ Takes statements w.name k) ∧
            isNested k = false) ∧
          (∃ k, k ≠ idName ∧ Takes statements w.name k) ∧
          (w.fields ≠ [] ↔ ∃ k, k ≠ idName ∧ Takes statements w.name k ∧ isNested k = false) := by
  obtain ⟨files, hfiles, -⟩ := (settles_makeEvents.post_of_gives h).1
  obtain ⟨-, ms, hms, rfl⟩ := (gives_makeEvents_iff hfiles).1 ⟨s', h⟩
  refine ⟨files, hfiles, fun m hm => ?_⟩
  obtain ⟨w, ⟨before, after, hunits, -⟩, hmodule⟩ := (mem_stored_iff hms).1 hm
  have hw : w ∈ eventUnits s files := by simp [hunits]
  obtain ⟨path, hpath, hw⟩ := List.mem_flatMap.1 hw
  refine ⟨path, hpath, ?_⟩
  unfold unitsAt at hw
  cases hstatements : statementsAt? s path with
  | none => simp [hstatements] at hw
  | some statements =>
    rw [hstatements, Option.map_some, Option.getD_some, EventUnit.ofStatements,
      List.mem_filterMap] at hw
    obtain ⟨e, he, hw⟩ := hw
    obtain ⟨hname, -⟩ := ofEvent?_eq_some hw
    obtain ⟨hnodup, hkeys⟩ := mem_keys_ofEvent? hw
    refine ⟨statements, rfl, w, ⟨e, he, hname.symm⟩, hmodule, hnodup, hkeys, ?_, ?_⟩
    · obtain ⟨f, hf⟩ := List.exists_mem_of_ne_nil _ (exists_ofEvent?_iff.1 ⟨w, hw⟩).2
      exact ⟨f.name, mem_names_payloadDefs.1 (hname ▸ List.mem_map_of_mem hf)⟩
    · rw [Ne, fields_ofEvent?_eq_nil hw]
      push Not
      simp

/-- A session with an event whose table has fields of all sorts. -/
def mixedSession : Session := eventSession "log.surql"
  ("DEFINE TABLE log; DEFINE FIELD id ON log VALUE $value; DEFINE FIELD at ON log VALUE $value; " ++
    "DEFINE FIELD at.day ON log VALUE $value; DEFINE FIELD n ON log VALUE 1; " ++
    "DEFINE FIELD at ON log TYPE datetime VALUE $value OR time::now(); " ++
    "DEFINE EVENT log ON log THEN \x7b \x7d;")

theorem payload_log :
    ((makeEvents eventProject).runIn mixedSession).1.toOption = some
      { category := .events
        modules := [⟨"log", "/p/db/events/log.go", "package events\n\ntype LogData int\n"⟩] } := by
  decide +kernel

/-- The pass over the session gives the event a payload. -/
theorem makeEvents_payload_log : ∃ r s', (makeEvents eventProject).Gives mixedSession r s' ∧
    r.modules.map (·.name) = ["log"] ∧ ∀ m ∈ r.modules, ∃ w : EventUnit,
      EventUnit.IsModule eventProject mixedSession w m ∧ (w.fields.map (·.key)).Nodup ∧
        idName ∉ w.fields.map (·.key) := by
  have hgives := Task.gives_of_toOption payload_log
  refine ⟨_, _, hgives, rfl, fun m hm => ?_⟩
  obtain ⟨files, -, hmodules⟩ := makeEvents_payload hgives
  obtain ⟨_, _, _, _, w, -, hmodule, hnodup, hkeys, -⟩ := hmodules m hm
  exact ⟨w, hmodule, hnodup, fun hid => ((hkeys idName).1 hid).1.1 rfl⟩

/-- A session with an event whose table takes a value only inside of a field. -/
def nestedSession : Session := eventSession "x.surql"
  "DEFINE TABLE x; DEFINE FIELD a.b ON x VALUE $value; DEFINE EVENT x ON x THEN \x7b \x7d;"

theorem payload_nested :
    ((makeEvents eventProject).runIn nestedSession).1.toOption = some
        { category := .events
          modules := [⟨"x", "/p/db/events/x.go", "package events\n\ntype XData int\n"⟩] } ∧
      eventUnits nestedSession ["/p/events/x.surql"] = [⟨"x", []⟩] := by
  decide +kernel

/-- The pass over this session makes a module for the event, whose payload is empty. -/
theorem makeEvents_empty_payload : ∃ r s', (makeEvents eventProject).Gives nestedSession r s' ∧
    r.modules = [⟨"x", "/p/db/events/x.go", "package events\n\ntype XData int\n"⟩] ∧
    eventUnits nestedSession ["/p/events/x.surql"] = [⟨"x", []⟩] := by
  obtain ⟨hmake, hunits⟩ := payload_nested
  exact ⟨_, _, Task.gives_of_toOption hmake, rfl, hunits⟩

end AccessLayer.Layer
