import AccessLayer.Proofs.LastWins
import AccessLayer.Proofs.Naming.Words
import AccessLayer.Record.GoField

/-!
# Names of the fields of a record struct

A field that is defined twice is one field of the struct, so the names in the database are all
different. The struct has their joined words instead, and names that differ may have these in
common: `a_b` and `aB` are both `AB`, and `i_d` is the `ID` of the record.

* `gathers_structFields`: the last definition of a name wins.
* `names_structFields`: the names of a struct are different, and are those that are defined.
* `goFields_nodup_iff`: when the fields of the struct are different.
-/

namespace AccessLayer.Record

open Naming Surql

variable {defs : List FieldDef} {n : Bytes}

/-! ## Names in the database -/

def fieldOf (d : FieldDef) : StructField := ⟨d.name, goType d.kind⟩

/-- The record's own id, as long as it is not defined. -/
def ownId (withId : Bool) : List StructField := if withId then [⟨idName, recordIdType⟩] else []

def entries (defs : List FieldDef) (withId : Bool) : List StructField :=
  ownId withId ++ defs.map fieldOf

theorem names_entries (defs : List FieldDef) (withId : Bool) :
    (entries defs withId).map (·.name) = (if withId then [idName]
      else []) ++ defs.map (·.name) := by
  rw [entries, List.map_append, List.map_map, ownId]
  cases withId <;> rfl

/-- The fields of a struct are what is left of the entries when the last one of a name wins. -/
theorem gathers_structFields (defs : List FieldDef) (withId : Bool) :
    Gathers StructField.name (entries defs withId) (structFields defs withId) := by
  have hown : Gathers StructField.name (ownId withId) (ownId withId) := by
    cases withId
    · exact Gathers.nil
    · exact Gathers.nil.upsert _
  exact hown.foldl _

theorem names_structFields (defs : List FieldDef) :
    ((structFields defs true).map (·.name)).Nodup ∧
      ∀ n, n ∈ (structFields defs true).map (·.name) ↔ n = idName ∨ n ∈ defs.map (·.name) := by
  have hgathers := gathers_structFields defs true
  refine ⟨hgathers.nodup, fun n => ?_⟩
  rw [hgathers.keys, List.mem_eraseDups, names_entries, if_pos rfl, List.mem_append,
    List.mem_singleton]

/-! ## Names in the struct -/

def goName (name : Bytes) : Bytes := if name == idName then "ID" else pascal name

theorem goField_name (f : StructField) : (goField f).name = goName f.name := by
  rw [goField, goName]
  split <;> rfl

theorem names_goFields (fields : List StructField) :
    (goFields fields).map (·.name) =
      ((fields.map (·.name)).filter fun n => !isNested n).map goName := by
  rw [goFields, List.map_map, List.filter_map, List.map_map]
  exact List.map_congr_left fun f _ => goField_name f

/-- The names of the fields that a table defines beside the id and that do not lie inside others. -/
def ownNames (defs : List FieldDef) : List Bytes :=
  (defs.map (·.name)).filter fun n => !isNested n && n != idName

theorem ne_idName (h : n ∈ ownNames defs) : n ≠ idName :=
  bne_iff_ne.1 (Bool.and_eq_true_iff.1 (List.mem_filter.1 h).2).2

theorem goName_of_mem_ownNames (h : n ∈ ownNames defs) : goName n = pascal n := by
  rw [goName, beq_eq_false_iff_ne.2 (ne_idName h), if_neg Bool.false_ne_true]

/-- The struct shows the id and the table's own names. -/
theorem mem_shown_iff :
    n ∈ ((structFields defs true).map (·.name)).filter (fun n => !isNested n) ↔ n = idName ∨
      n ∈ ownNames defs := by
  have hid : isNested idName = false := by decide
  rw [List.mem_filter, (names_structFields defs).2, ownNames, List.mem_filter, Bool.and_eq_true,
    bne_iff_ne]
  constructor
  · rintro ⟨hn, hshown⟩
    by_cases h : n = idName
    · exact .inl h
    · exact .inr ⟨hn.resolve_left h, hshown, h⟩
  · rintro (rfl | ⟨hn, hshown, -⟩)
    · exact ⟨.inl rfl, by rw [hid, Bool.not_false]⟩
    · exact ⟨.inr hn, hshown⟩

/-- Different fields have different names in the struct if and only if the table's own names stay
different from each other and from the id. -/
theorem nodup_names_iff (defs : List FieldDef) :
    ((goFields (structFields defs true)).map (·.name)).Nodup ↔
      (∀ m ∈ ownNames defs, ∀ n ∈ ownNames defs, pascal m = pascal n → m = n) ∧
        ∀ n ∈ ownNames defs, pascal n ≠ "ID" := by
  have hid : goName idName = "ID" := by rw [goName, if_pos (beq_self_eq_true _)]
  rw [names_goFields, List.nodup_map_iff_inj_on ((names_structFields defs).1.filter _)]
  constructor
  · intro h
    refine ⟨fun m hm n hn heq => ?_, fun n hn heq => ?_⟩
    · refine h m (mem_shown_iff.2 (.inr hm)) n (mem_shown_iff.2 (.inr hn)) ?_
      rw [goName_of_mem_ownNames hm, goName_of_mem_ownNames hn, heq]
    · have hsame : n = idName := by
        refine h n (mem_shown_iff.2 (.inr hn)) idName (mem_shown_iff.2 (.inl rfl)) ?_
        rw [goName_of_mem_ownNames hn, hid, heq]
      exact ne_idName hn hsame
  · rintro ⟨hown, hapart⟩ m hm n hn heq
    rcases mem_shown_iff.1 hm with rfl | hm <;> rcases mem_shown_iff.1 hn with rfl | hn
    · rfl
    · rw [goName_of_mem_ownNames hn, hid] at heq
      exact absurd heq.symm (hapart n hn)
    · rw [goName_of_mem_ownNames hm, hid] at heq
      exact absurd heq (hapart m hm)
    · rw [goName_of_mem_ownNames hm, goName_of_mem_ownNames hn] at heq
      exact hown m hm n hn heq

/-- The id in two words, which is joined to the name of the id. -/
def splitId : Bytes := "i_d"

theorem isSnake_splitId : IsSnake splitId := ⟨[['i'], ['d']], by simp, by decide, by decide⟩

theorem pascal_splitId : pascal splitId = "ID" := by decide

/-- The Go fields of a record struct are different as long as the joined words of the table's own
names are, and are not those of the id. In snake case only one name gets in the way: that of the id
in two words. -/
theorem goFields_nodup_iff (defs : List FieldDef) :
    (((goFields (structFields defs true)).map (·.name)).Nodup ↔
      (∀ m ∈ ownNames defs, ∀ n ∈ ownNames defs, pascal m = pascal n → m = n) ∧
        ∀ n ∈ ownNames defs, pascal n ≠ "ID") ∧
    ((∀ n ∈ ownNames defs, IsSnake n) →
      (((goFields (structFields defs true)).map (·.name)).Nodup ↔ splitId ∉ ownNames defs)) := by
  refine ⟨nodup_names_iff defs, fun hsnake => (nodup_names_iff defs).trans ⟨?_, fun h => ⟨?_, ?_⟩⟩⟩
  · rintro ⟨-, hapart⟩ hmem
    exact hapart _ hmem pascal_splitId
  · intro m hm n hn heq
    exact pascal_inj (hsnake m hm) (hsnake n hn) heq
  · intro n hn heq
    have hsame : n = splitId :=
      pascal_inj (hsnake n hn) isSnake_splitId (heq.trans pascal_splitId.symm)
    exact h (hsame ▸ hn)

def postField (name : Bytes) : FieldDef := { pos := 0, name, table := "post" }

/-- Fields of posts: one is defined twice and one lies inside of another. -/
def postFields : List FieldDef := ["title", "author_id", "tags[*]", "title"].map postField

theorem goFields_nodup_iff_post :
    (∀ n ∈ ownNames postFields, IsSnake n) ∧
      ((goFields (structFields postFields true)).map (·.name)).Nodup := by
  have hown : ownNames postFields = ["title", "author_id", "title"] := by decide
  have htitle : IsSnake "title" := ⟨["title".toList], by simp, by decide +kernel, by decide +kernel⟩
  have hauthor : IsSnake "author_id" :=
    ⟨["author".toList, "id".toList], by simp, by decide +kernel, by decide +kernel⟩
  have hsnake : ∀ n ∈ ownNames postFields, IsSnake n := by
    rw [hown]
    simp [htitle, hauthor]
  exact ⟨hsnake, ((goFields_nodup_iff _).2 hsnake).2 (by decide)⟩

/-- Two names of one spelling in words, and a name that is joined to that of the id. -/
theorem goFields_share_name :
    (goFields (structFields (["a_b", "aB"].map postField) true)).map (·.name) = ["ID", "AB", "AB"] ∧
      (goFields (structFields (["i_d"].map postField) true)).map (·.name) = ["ID", "ID"] := by
  decide +kernel

end AccessLayer.Record
