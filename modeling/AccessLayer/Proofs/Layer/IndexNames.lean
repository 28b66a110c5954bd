import AccessLayer.Layer.Unit.Event
import AccessLayer.Layer.Unit.Index
import AccessLayer.Layer.Unit.Statement
import AccessLayer.Layer.Unit.Table
import AccessLayer.Proofs.Naming.Buildable
import AccessLayer.Proofs.Query.ParamIdents

/-!
# Names of the index variables

The variables of the indexes have an underscore in their names, which no name that is made from a
definition has: the words of a name are joined without it, no letter becomes one in another case,
and no ending of a plural has one.

* `underscore_notMem_pascal`, `underscore_notMem_camel?`: joined words.
* `underscore_notMem_plural`: plurals.
* `declared_apart_from_index`: the names that modules declare.
-/

namespace AccessLayer

open Bytes
open CodeRange (CaseRun)

/-! ## Letter case -/

/-- The run moves no code point to that of the underscore. -/
def CodeRange.CaseRun.misses (r : CaseRun) : Bool :=
  '_'.toNat < r.image || r.image + (r.hi - r.lo) < '_'.toNat

theorem find?_ne_underscore {runs : List CaseRun} (h : runs.all CaseRun.misses) {n m : Nat}
    (hm : CaseRun.find? runs n = some m) : m ≠ '_'.toNat := by
  obtain ⟨r, hr, rfl⟩ := Option.map_eq_some_iff.1 hm
  have hmisses := List.all_eq_true.1 h r (List.mem_of_find?_eq_some hr)
  have hholds := List.find?_some hr
  simp only [CaseRun.misses, Bool.or_eq_true, decide_eq_true_eq] at hmisses
  simp only [CaseRun.holds, Bool.and_eq_true, decide_eq_true_eq] at hholds
  omega

/-- A case map that moves no letter of ASCII to the underscore, and no other one, either. -/
theorem recased_ne_underscore {f : Char → Char} {runs : List CaseRun}
    (hf : ∀ n : Fin 128, Char.ofNat n ≠ '_' → f (Char.ofNat n) ≠ '_')
    (hruns : runs.all CaseRun.misses) {c : Char} (hc : c ≠ '_') :
    (if c.toNat < 0x80 then f c else ((CaseRun.find? runs c.toNat).map Char.ofNat).getD c) ≠
      '_' := by
  split_ifs with hascii
  · exact forall_ascii (P := fun c => c ≠ '_' → f c ≠ '_') hf hascii hc
  · cases hfind : CaseRun.find? runs c.toNat with
    | none => exact hc
    | some m => exact Utf8.ofNat_ne (find?_ne_underscore hruns hfind) (by decide)

theorem case_tables :
    (∀ n : Fin 128, Char.ofNat n ≠ '_' → (Char.ofNat n).toUpper ≠ '_' ∧
      (Char.ofNat n).toLower ≠ '_') ∧
      toUpperRuns.all CaseRun.misses ∧ toLowerRuns.all CaseRun.misses := by
  decide

theorem toUpper_ne_underscore {c : Char} (hc : c ≠ '_') : toUpper c ≠ '_' :=
  recased_ne_underscore (fun n hn => (case_tables.1 n hn).1) case_tables.2.1 hc

theorem toLower_ne_underscore {c : Char} (hc : c ≠ '_') : toLower c ≠ '_' :=
  recased_ne_underscore (fun n hn => (case_tables.1 n hn).2) case_tables.2.2 hc

namespace Naming

theorem underscore_notMem_ofChars {cs : List Char} (h : ∀ c ∈ cs, c ≠ '_') :
    underscore ∉ ofChars cs := by
  intro hmem
  obtain ⟨c, hc, hbyte⟩ := List.mem_flatMap.1 hmem
  exact Utf8.notMem_encode (by decide) (fun heq => h c hc (Char.ext (UInt32.toNat_inj.1 heq))) hbyte

/-- Joined words have no underscore. -/
theorem underscore_notMem_pascal (s : Bytes) : underscore ∉ pascal s := by
  refine underscore_notMem_ofChars fun d hd => ?_
  obtain ⟨c, -, hc, rfl | rfl⟩ := mem_words hd
  · exact toUpper_ne_underscore hc
  · exact toLower_ne_underscore hc

/-- The first byte alone is put in lower case, which gives no underscore even when it is a part of a
letter. -/
theorem underscore_notMem_camel? {s t : Bytes} (h : camel? s = some t) : underscore ∉ t := by
  have hplain := underscore_notMem_pascal s
  unfold camel? at h
  cases hwords : pascal s with
  | nil =>
    rw [hwords] at h
    cases h
  | cons b rest =>
    rw [hwords] at h hplain
    obtain rfl := Option.some.inj h
    rw [List.mem_cons, not_or] at hplain
    rw [List.mem_append, not_or]
    have hchar : (Utf8.single b).char ≠ '_' := by
      dsimp only [Utf8.single]
      split_ifs
      · exact Utf8.ofNat_ne (fun heq => hplain.1 (UInt8.toNat_inj.1 heq).symm) (by decide)
      · decide
    refine ⟨underscore_notMem_ofChars fun d hd => ?_, hplain.2⟩
    obtain rfl := List.mem_singleton.1 hd
    exact toLower_ne_underscore hchar

end Naming

/-! ## Plurals -/

open Naming (underscore)

theorem plural_endings :
    (Plural.irregular.flatMap Plural.spellings).all (fun e => !(ofString e.2).contains underscore) ∧
      Plural.regular.all (fun r => [Plural.Mode.upper, .exact, .folded].all fun m =>
        !(ofChars (r.ending.toList.map m.spelled)).contains underscore) := by
  decide +kernel

theorem underscore_notMem_irregular? {s t : Bytes} (hs : underscore ∉ s)
    (h : Plural.irregular? s = some t) : underscore ∉ t := by
  obtain ⟨e, he, h⟩ := List.exists_of_findSome?_eq_some h
  obtain ⟨stem, hstem, rfl⟩ := Option.map_eq_some_iff.1 h
  have hending := List.all_eq_true.1 plural_endings.1 e he
  have hsub : ∀ b ∈ stem, b ∈ s := by
    intro b hb
    rw [dropEnd?] at hstem
    split_ifs at hstem
    obtain rfl := Option.some.inj hstem
    exact List.mem_of_mem_take hb
  rw [List.mem_append, not_or]
  exact ⟨fun hmem => hs (hsub _ hmem), by simpa using hending⟩

theorem underscore_notMem_regular? {s t : Bytes} (hs : underscore ∉ s)
    (h : Plural.regular? (runes s) = some t) : underscore ∉ t := by
  obtain ⟨r, hr, h⟩ := List.exists_of_findSome?_eq_some h
  obtain ⟨m, hm, h⟩ := List.exists_of_findSome?_eq_some h
  have hending := List.all_eq_true.1 (List.all_eq_true.1 plural_endings.2 r hr) m hm
  unfold Plural.Rule.apply? at h
  cases hform : r.forms.find? (·.matches m r.whole ((runes s).map (·.char))) with
  | none =>
    rw [hform] at h
    cases h
  | some f =>
    rw [hform] at h
    obtain rfl := Option.some.inj h
    rw [List.mem_append, not_or]
    refine ⟨fun hmem => hs ?_, by simpa using hending⟩
    rw [← ofRunes_runes s]
    obtain ⟨q, hq, hb⟩ := List.mem_flatMap.1 hmem
    exact List.mem_flatMap.2 ⟨q, List.mem_of_mem_take hq, hb⟩

/-- A plural has an underscore only if the name has one. -/
theorem underscore_notMem_plural {s : Bytes} (hs : underscore ∉ s) : underscore ∉ plural s := by
  unfold plural
  split_ifs
  · exact hs
  · cases hirregular : Plural.irregular? s with
    | some t => exact underscore_notMem_irregular? hs hirregular
    | none =>
      cases hregular : Plural.regular? (runes s) with
      | some t => exact underscore_notMem_regular? hs hregular
      | none => exact hs

namespace Layer

/-! ## Declared names -/

theorem underscore_notMem_append {s t : Bytes} (hs : underscore ∉ s) (ht : underscore ∉ t) :
    underscore ∉ s ++ t := by
  rw [List.mem_append, not_or]
  exact ⟨hs, ht⟩

theorem TableUnit.declared_eq (u : TableUnit) :
    u.source.declared = [u.constant, u.struct, "GetAll" ++ u.plural, "Get" ++ u.struct,
      "Find" ++ u.struct] ++
      if u.readOnly then []
      else ["Create" ++ u.struct, "Update" ++ u.struct, "DeleteAll" ++ u.plural,
        "Delete" ++ u.struct] := by
  unfold Source.declared TableUnit.source TableUnit.functions
  cases u.readOnly <;> rfl

theorem TableUnit.underscore_notMem_declared (u : TableUnit) :
    ∀ n ∈ u.source.declared, underscore ∉ n := by
  have hstruct : underscore ∉ u.struct := Naming.underscore_notMem_pascal u.table
  have hplural : underscore ∉ u.plural := underscore_notMem_plural hstruct
  have hconstant : underscore ∉ u.constant := underscore_notMem_append hstruct (by decide)
  have hfixed : ∀ start ∈ ["GetAll", "Get", "Find", "Create", "Update", "DeleteAll", "Delete"],
      underscore ∉ ofString start := by decide
  rw [declared_eq]
  cases u.readOnly
  · simp [hstruct, hplural, hconstant, hfixed]
  · simp [hstruct, hplural, hconstant, hfixed]

theorem EventUnit.underscore_notMem_declared (u : EventUnit) :
    ∀ n ∈ u.source.declared, underscore ∉ n := by
  have hnames : u.source.declared = [EventUnit.structOf u.name, EventUnit.functionOf u.name] := rfl
  rw [hnames, List.forall_mem_cons, List.forall_mem_singleton]
  exact ⟨Naming.underscore_notMem_pascal _, Naming.underscore_notMem_pascal _⟩

/-- The constant of a statement module is named after its file. -/
def StatementUnit.Named (u : StatementUnit) : Prop :=
  Naming.camel? (u.name ++ "_" ++ u.kind.ending) = some u.constant

theorem StatementUnit.named_ofFile? {kind : StatementKind} {typesImport path shownPath text : Bytes}
    {signature : Query.Signature} {u : StatementUnit}
    (h : ofFile? kind typesImport path shownPath text signature = some u) : u.Named := by
  simp only [ofFile?, Option.bind_eq_bind, Option.bind_eq_some_iff, Option.pure_def,
    Option.some.injEq] at h
  obtain ⟨constant, hconstant, rfl⟩ := h
  exact hconstant

theorem StatementUnit.underscore_notMem_declared {u : StatementUnit} (h : u.Named) :
    ∀ n ∈ u.source.declared, underscore ∉ n := by
  have hnames : u.source.declared = [u.constant, u.kind.start ++ Naming.pascal u.name] := rfl
  have hstart : underscore ∉ u.kind.start := by
    cases u.kind <;> decide
  rw [hnames, List.forall_mem_cons, List.forall_mem_singleton]
  exact ⟨Naming.underscore_notMem_camel? h,
    underscore_notMem_append hstart (Naming.underscore_notMem_pascal _)⟩

/-- The name `n` has no underscore, and is neither `Generated_Modules` nor `Generated_Categories`.
-/
def OffIndex (n : Bytes) : Prop :=
  underscore ∉ n ∧ n ≠ CategoryIndex.modulesName ∧ n ≠ LayerIndex.categoriesName

theorem offIndex_of_plain {n : Bytes} (h : underscore ∉ n) : OffIndex n := by
  have hindex : underscore ∈ CategoryIndex.modulesName ∧
      underscore ∈ LayerIndex.categoriesName := by decide
  exact ⟨h, fun heq => h (heq ▸ hindex.1), fun heq => h (heq ▸ hindex.2)⟩

/-- No name that the module of a table, an event, a query or a mutation declares has an underscore,
whatever the names of the definitions are, so none is that of an index variable. -/
theorem declared_apart_from_index :
    (∀ (u : TableUnit), ∀ n ∈ u.source.declared, OffIndex n) ∧
    (∀ (u : EventUnit), ∀ n ∈ u.source.declared, OffIndex n) ∧
    (∀ (u : StatementUnit), u.Named → ∀ n ∈ u.source.declared, OffIndex n) ∧
    ∀ kind typesImport path shownPath text signature u,
      StatementUnit.ofFile? kind typesImport path shownPath text signature = some u → u.Named :=
  ⟨fun u n hn => offIndex_of_plain (u.underscore_notMem_declared n hn),
    fun u n hn => offIndex_of_plain (u.underscore_notMem_declared n hn),
    fun _ hu n hn => offIndex_of_plain (StatementUnit.underscore_notMem_declared hu n hn),
    fun _ _ _ _ _ _ _ h => StatementUnit.named_ofFile? h⟩

/-- A table with a name of many words, all of whose functions are made. -/
def entryTable : TableUnit := { table := "__ſ_log-BOX_entry", readOnly := false, fields := [] }

/-- A query whose name starts with a letter of two bytes. -/
def accentQuery : StatementUnit :=
  { kind := .query, typesImport := [], name := "é_by__id", path := [], text := [], parameters := [],
    signature := {}
    constant := (Naming.camel? "é_by__id_query").getD [] }

theorem declared_examples :
    ofString "DeleteAllSLogBOXEntries" ∈ entryTable.source.declared ∧
      ofString "LogData" ∈ (EventUnit.mk "log" []).source.declared ∧
      accentQuery.Named ∧ ofString "QueryÉById" ∈ accentQuery.source.declared := by
  unfold StatementUnit.Named
  decide +kernel

theorem declared_apart_from_index_entry :
    OffIndex "DeleteAllSLogBOXEntries" ∧ OffIndex "LogData" ∧ accentQuery.Named ∧
      OffIndex "QueryÉById" := by
  obtain ⟨htable, hevent, hnamed, hquery⟩ := declared_examples
  obtain ⟨htables, hevents, hqueries, -⟩ := declared_apart_from_index
  exact ⟨htables _ _ htable, hevents _ _ hevent, hnamed, hqueries _ hnamed _ hquery⟩

end Layer

end AccessLayer
