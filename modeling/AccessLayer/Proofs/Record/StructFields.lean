import AccessLayer.Proofs.Record.FieldNames

/-!
# Fields that are defined more than once

The fields of a struct are gathered from the definitions of a table, after the record's own id if
the struct has one. A name stands where it is first defined, with the type of its last definition,
and the id is a link until it is defined.

* `type_structFields`: the type of a field.
* `structFields_perm`, `structFields_concat`: definitions in another order, and one more definition
  of a name.
* `structFields_lastWins`: names and types of the fields of a struct.
-/

namespace AccessLayer.Record

open Surql

variable {defs : List FieldDef} {withId : Bool}

/-- The last entry among definitions comes from the last definition of its name. -/
theorem exists_definition {f : StructField} {before after : List StructField}
    (h : defs.map fieldOf = before ++ f :: after) (hafter : ∀ g ∈ after, g.name ≠ f.name) :
    ∃ front d back, defs = front ++ d :: back ∧ d.name = f.name ∧ (∀ e ∈ back, e.name ≠ f.name) ∧
      f.type = goType d.kind := by
  obtain ⟨front, _, rfl, -, hrest⟩ := List.map_eq_append_iff.1 h
  obtain ⟨d, back, rfl, rfl, rfl⟩ := List.map_eq_cons_iff.1 hrest
  exact ⟨front, d, back, rfl, rfl, fun e he => hafter (fieldOf e) (List.mem_map_of_mem he), rfl⟩

/-- The type of a field is that of the last definition of its name. Only the id needs none. -/
theorem type_structFields {f : StructField} (hf : f ∈ structFields defs withId) :
    (∃ before d after, defs = before ++ d :: after ∧ d.name = f.name ∧
      (∀ e ∈ after, e.name ≠ f.name) ∧
        f.type = goType d.kind) ∨
      withId ∧ f.name = idName ∧ (∀ d ∈ defs, d.name ≠ idName) ∧ f.type = recordIdType := by
  have hlast := (gathers_structFields defs withId).last f hf
  obtain ⟨before, after, hsplit, -, hafter⟩ := lastOf?_eq_some_iff.1 hlast
  cases withId with
  | false => exact .inl (exists_definition hsplit hafter)
  | true =>
    rcases List.cons_eq_append_iff.1 hsplit with ⟨rfl, hid⟩ | ⟨front, rfl, hdefs⟩
    · obtain ⟨rfl, rfl⟩ := List.cons.inj hid
      exact .inr ⟨rfl, rfl, fun d hd => hafter (fieldOf d) (List.mem_map_of_mem hd), rfl⟩
    · exact .inl (exists_definition hdefs hafter)

/-- Definitions may move past those of other names. -/
theorem structFields_perm {defs' : List FieldDef}
    (h : ∀ n, defs'.filter (·.name == n) = defs.filter (·.name == n)) :
    (structFields defs' withId).Perm (structFields defs withId) := by
  refine (gathers_structFields defs withId).perm (gathers_structFields defs' withId) fun n => ?_
  have hdefs : (fun d => (fieldOf d).name == n) = fun d : FieldDef => d.name == n := rfl
  rw [entries, entries, List.filter_append, List.filter_append, List.filter_map, List.filter_map,
    Function.comp_def, hdefs, h]

/-- One more definition of a name that is there changes the type of its field and nothing else. -/
theorem structFields_concat {d : FieldDef} (hd : d.name ∈ (structFields defs withId).map (·.name)) :
    structFields (defs ++ [d]) withId =
      (structFields defs withId).map fun f =>
        if f.name = d.name then { f with type := goType d.kind } else f := by
  have hany : (structFields defs withId).any (·.name == (fieldOf d).name) = true := any_key_iff.2 hd
  have hput : structFields (defs ++ [d]) withId = put (structFields defs withId) (fieldOf d) := by
    rw [structFields, List.map_append, List.foldl_append]
    rfl
  rw [hput, put, if_pos hany]
  refine List.map_congr_left fun f _ => ?_
  by_cases hf : f.name = d.name <;> simp [fieldOf, hf]

/-- The names of a struct's fields come once each, in the order in which they are first defined,
after the id if the struct has one. Each field has the type of the last definition of its name, and
the id that of a link until it is defined. So the order of definitions of different names only
orders the fields, and defining a name again only changes the type of its field. -/
theorem structFields_lastWins (defs : List FieldDef) (withId : Bool) :
    ((structFields defs withId).map (·.name)).Nodup ∧
    (structFields defs withId).map (·.name) =
      ((if withId then [idName] else []) ++ defs.map (·.name)).eraseDups ∧
    (∀ f ∈ structFields defs withId,
      (∃ before d after, defs = before ++ d :: after ∧ d.name = f.name ∧
        (∀ e ∈ after, e.name ≠ f.name) ∧
          f.type = goType d.kind) ∨
        withId = true ∧ f.name = idName ∧ (∀ d ∈ defs, d.name ≠ idName) ∧ f.type = recordIdType) ∧
    (∀ defs', (∀ n, defs'.filter (·.name == n) = defs.filter (·.name == n)) →
      (structFields defs' withId).Perm (structFields defs withId)) ∧
    (∀ defs' : List FieldDef, (defs.map (·.name)).Nodup → defs'.Perm defs →
      (structFields defs' withId).Perm (structFields defs withId)) ∧
    (∀ d : FieldDef, d.name ∈ (structFields defs withId).map (·.name) →
      structFields (defs ++ [d]) withId =
        (structFields defs withId).map fun f =>
          if f.name = d.name then { f with type := goType d.kind } else f) := by
  have hgathers := gathers_structFields defs withId
  refine ⟨hgathers.nodup, ?_, fun f hf => type_structFields hf, fun defs' h => structFields_perm h,
    ?_, ?_⟩
  · rw [← names_entries]
    exact hgathers.keys
  · intro defs' hnodup hperm
    exact structFields_perm (filter_eq_of_perm hperm hnodup)
  · intro d hd
    exact structFields_concat hd

/-- Fields of posts: one is text at first and a link in the end, and the id is defined between. -/
def draftFields : List FieldDef :=
  [postField "author", postField "id",
    { postField "author" with kind := some (.mk Kind.recordName [] []) }]

theorem structFields_lastWins_draft :
    (structFields draftFields true).map (·.name) = [idName, "author"] ∧
      (structFields draftFields true).map (·.type) = ["string", "models.RecordID"] ∧
      (structFields (postField "id" :: draftFields.eraseIdx 1) true).Perm
        (structFields draftFields true) ∧
      structFields (draftFields ++ [postField "author"]) true =
        [⟨idName, "string"⟩, ⟨"author", "string"⟩] := by
  obtain ⟨-, hnames, -, hmove, -, hagain⟩ := structFields_lastWins draftFields true
  refine ⟨hnames.trans (by decide), by
    decide, hmove _ fun n => ?_, (hagain _ (by decide)).trans (by decide)⟩
  by_cases hid : n = "id"
  · subst hid
    rfl
  · have hne : ("id" == n) = false := beq_eq_false_iff_ne.2 (Ne.symm hid)
    simp [draftFields, postField, List.filter_cons, hne]

end AccessLayer.Record
