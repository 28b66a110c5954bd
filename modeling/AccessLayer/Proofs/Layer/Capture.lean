import AccessLayer.Layer.Unit.Statement
import AccessLayer.Proofs.Query.ParamIdents

/-!
# Parameters that capture names

The function of a query or mutation takes its parameters from the annotations of the file, and its
body refers to names of its own: local variables, the constant with the text, packages and
predeclared names. A parameter with such a name stands in its place. Parameters stay clear of the
names that are reserved, and numbers never make up a name of the body; all other names of the body
are taken as soon as a variable has them.

* `Query.Signature.mem_names_iff`: a name without a digit at its end is a parameter only if a
  variable has it.
* `Query.head?_paramName?`: no variable has a name with a capital `E` in front.
* `StatementUnit.endsInDigit_constant`: the constant of a file does not end with a digit.
* `StatementUnit.captures_iff`: which names of the body are captured.
* `StatementUnit.captures_constant`: a parameter that stands for the text of its own query.
-/

namespace AccessLayer

open Bytes

variable {w name : Bytes}

/-! ## Names of parameters -/

namespace Query

theorem mem_iff_paramName? {vars : List Variable} {idents : List Bytes}
    (h : List.Forall₂ (fun v x => paramName? v.name = some x) vars idents) :
    w ∈ idents ↔ ∃ v ∈ vars, paramName? v.name = some w := by
  induction h with
  | nil => simp
  | cons hx _ ih =>
    simp only [List.mem_cons, ih, exists_eq_or_imp, hx, Option.some.injEq, eq_comm (a := w)]

theorem Signature.mem_names_iff {vars : List Variable} {sig : Signature}
    (h : ofVariables? vars = some sig) (hw : w.endsInDigit = false) :
    w ∈ sig.params.map (·.name) ↔ ∃ v ∈ vars, paramName? v.name = some w := by
  obtain ⟨idents, hidents, hnames⟩ := names_eq h
  rw [← names, hnames, List.mem_map, ← mem_iff_paramName? hidents]
  constructor
  · rintro ⟨⟨x, k⟩, hmem, rfl⟩
    have hk := (mem_occurrences.1 hmem).2
    rw [List.count_nil, Nat.zero_add] at hk
    obtain rfl | hpos := Nat.eq_zero_or_pos k
    · exact List.count_pos_iff.1 hk
    · rw [numbered_of_pos hpos, endsInDigit_append_ofNat] at hw
      cases hw
  · intro hmem
    refine ⟨(w, 0), mem_occurrences.2 ?_, numbered_zero w⟩
    rw [List.count_nil, Nat.zero_add]
    exact ⟨Nat.le_refl 0, List.count_pos_iff.2 hmem⟩

/-- The first byte of a name in camel case is no capital `E`. -/
theorem head?_camel? {ident : Bytes} (h : Naming.camel? name = some ident) :
    ∃ c rest, ident = c :: rest ∧ c ≠ byte 'E' := by
  have hascii : ∀ i : Fin 256, UInt8.ofFin i < 0x80 →
      (Bytes.toLower [UInt8.ofFin i]).head?.any (· ≠ byte 'E') = true := by
    decide +kernel
  have hbroken : (ofChars [AccessLayer.toLower replacementChar]).head?.any (· ≠ byte 'E') =
      true := by
    decide
  unfold Naming.camel? at h
  split at h
  · cases h
  · next b rest _ =>
    cases h
    have hb : (Bytes.toLower [b]).head?.any (· ≠ byte 'E') = true := by
      by_cases hlt : b < 0x80
      · exact hascii b.toFin hlt
      · rw [Bytes.toLower, chars, runes, List.map_singleton, Utf8.single, if_neg hlt]
        exact hbroken
    obtain ⟨c, hc, hne⟩ := (Option.any_eq_true _ _).1 hb
    obtain ⟨tail, htail⟩ := List.head?_eq_some_iff.1 hc
    exact ⟨c, tail ++ rest, by rw [htail, List.cons_append], of_decide_eq_true hne⟩

theorem head?_paramName? (h : paramName? name = some w) : w.head? ≠ some (byte 'E') := by
  obtain ⟨ident, hident, rfl⟩ := Option.map_eq_some_iff.1 h
  obtain ⟨c, rest, rfl, hc⟩ := head?_camel? hident
  have hp : ofString "p" = [byte 'p'] := by decide
  dsimp only
  rw [hp]
  split <;> split <;> simp [hc] <;> decide

end Query

/-! ## Names of constants -/

namespace Naming

theorem split_ne_nil (cs : List Char) : split cs ≠ [] := by
  cases cs with
  | nil => exact List.cons_ne_nil _ _
  | cons c cs =>
    rw [split.eq_def]
    dsimp only
    split
    · exact List.cons_ne_nil _ _
    split
    · exact List.cons_ne_nil _ _
    split
    · exact List.cons_ne_nil _ _
    split <;> exact List.cons_ne_nil _ _

/-- An underscore divides words. -/
theorem split_append (cs ds : List Char) : split (cs ++ '_' :: ds) = split cs ++ split ds := by
  induction cs with
  | nil => rfl
  | cons c cs ih =>
    rw [List.cons_append, split.eq_def (c :: (cs ++ _)), split.eq_def (c :: cs)]
    dsimp only
    split
    · rw [ih, List.cons_append]
    cases cs with
    | nil => rfl
    | cons d cs =>
      rw [List.cons_append] at ih ⊢
      dsimp only
      split
      · rw [ih, List.cons_append]
      · rw [ih]
        cases hw : split (d :: cs) with
        | nil => exact absurd hw (split_ne_nil _)
        | cons w ws => rfl

/-- The words after an underscore come last in joined words. -/
theorem pascal_append {cs ds : List Char} {e : Bytes} (he : identChars e = '_' :: ds) :
    pascal (ofChars cs ++ e) =
      pascal (ofChars cs) ++ ofChars ((split ds).flatMap capitalize) := by
  have hchars : identChars (ofChars cs ++ e) = identChars (ofChars cs) ++ identChars e := by
    rw [identChars, chars_ofChars_append, List.map_append, identChars, chars_ofChars, identChars]
  rw [pascal, hchars, he, split_append, List.flatMap_append, ofChars, List.flatMap_append]
  rfl

/-- Joined words with a lower-case start end like the joined words, if those are longer than their
end. -/
theorem getLast?_camel? {ident start rest : Bytes} (h : camel? name = some ident)
    (hp : pascal name = start ++ rest)
    (hrest : 1 < rest.length) : ident.getLast? = rest.getLast? := by
  unfold camel? at h
  split at h
  · cases h
  · next b tail hb =>
    cases h
    have htail : tail ≠ [] := by
      rintro rfl
      have hlen := congrArg List.length (hb.symm.trans hp)
      rw [List.length_singleton, List.length_append] at hlen
      omega
    have hne : rest ≠ [] := List.ne_nil_of_length_pos (by omega)
    rw [List.getLast?_append_of_ne_nil _ htail, ← List.getLast?_append_of_ne_nil start hne,
      ← hp, hb, ← List.singleton_append, List.getLast?_append_of_ne_nil _ htail]

end Naming

namespace Layer.StatementUnit

variable {u : StatementUnit}

theorem constant_signature {kind : StatementKind} {typesImport path shownPath text : Bytes}
    {sig : Query.Signature} (hu : ofFile? kind typesImport path shownPath text sig = some u) :
    Naming.camel? (nameOf path ++ "_" ++ kind.ending) = some u.constant ∧ u.signature = sig := by
  simp only [ofFile?, Option.bind_eq_bind, Option.bind_eq_some_iff, Option.pure_def,
    Option.some.injEq] at hu
  obtain ⟨constant, hconstant, rfl⟩ := hu
  exact ⟨hconstant, rfl⟩

theorem endsInDigit_constant {kind : StatementKind} {typesImport path shownPath text : Bytes}
    {sig : Query.Signature} (hu : ofFile? kind typesImport path shownPath text sig = some u) :
    u.constant.endsInDigit = false := by
  have hconstant := (constant_signature hu).1
  rw [List.append_assoc, nameOf, Naming.snake] at hconstant
  have hending : ∃ ds, Naming.identChars ("_" ++ kind.ending) = '_' :: ds ∧
      1 < (ofChars ((Naming.split ds).flatMap Naming.capitalize)).length ∧
      (ofChars ((Naming.split ds).flatMap Naming.capitalize)).endsInDigit = false := by
    cases kind with
    | query => exact ⟨['q', 'u', 'e', 'r', 'y'], by decide⟩
    | mutation => exact ⟨['m', 'u', 't', 'a', 't', 'i', 'o', 'n'], by decide⟩
  obtain ⟨ds, hds, hlong, hlast⟩ := hending
  rwa [endsInDigit, Naming.getLast?_camel? hconstant (Naming.pascal_append hds) hlong]

/-! ## Captured names -/

/-- The names of the body that no variable has: local variables of every function, and the error of
a query without a result. -/
def guardedNames : List Bytes := ["ctx", "db", "vars", "res", "err", "ErrNoResult"]

/-- One more local variable, the packages and the predeclared names of the body. -/
def sharedNames : List Bytes :=
  ["first", "surrealdb", "types", "fmt", "any", "string", "error", "nil", "len"]

/-- The names of the body that nothing keeps from a variable: those of all functions, and the
constant with the text. -/
def openNames (u : StatementUnit) : List Bytes := u.constant :: sharedNames

/-- The names that the body of the function declares or refers to. -/
def bodyNames (u : StatementUnit) : List Bytes := guardedNames ++ u.openNames

theorem notMem_guardedNames (h : Query.paramName? name = some w) : w ∉ guardedNames := by
  have hguard : ∀ g ∈ guardedNames, g ∈ Query.reservedNames ∨ g.head? = some (byte 'E') := by decide
  intro hw
  obtain hw | hw := hguard w hw
  · exact (Query.paramName?_not_taken h).2 hw
  · exact Query.head?_paramName? h hw

theorem endsInDigit_bodyNames (hlast : u.constant.endsInDigit = false) (hw : w ∈ u.bodyNames) :
    w.endsInDigit = false := by
  have hfixed : ∀ w ∈ guardedNames ++ sharedNames, w.endsInDigit = false := by decide
  rw [bodyNames, openNames, List.mem_append, List.mem_cons] at hw
  obtain hw | rfl | hw := hw
  · exact hfixed w (List.mem_append_left _ hw)
  · exact hlast
  · exact hfixed w (List.mem_append_right _ hw)

/-- A name of the body is captured by a parameter if and only if it is open and a variable has it;
so nothing is captured if and only if no variable has an open name. -/
theorem captures_iff {kind : StatementKind} {typesImport path shownPath text : Bytes}
    {vars : List Query.Variable} {sig : Query.Signature} {u : StatementUnit}
    (hsig : Query.Signature.ofVariables? vars = some sig)
    (hu : ofFile? kind typesImport path shownPath text sig = some u) :
    (∀ w ∈ u.bodyNames, w ∈ u.signature.params.map (·.name) ↔
      w ∈ u.openNames ∧ ∃ v ∈ vars, Query.paramName? v.name = some w) ∧
    ((∀ w ∈ u.bodyNames, w ∉ u.signature.params.map (·.name)) ↔
      ∀ v ∈ vars, ∀ w ∈ u.openNames, Query.paramName? v.name ≠ some w) := by
  rw [(constant_signature hu).2]
  have hmem : ∀ w ∈ u.bodyNames, w ∈ sig.params.map (·.name) ↔
      w ∈ u.openNames ∧ ∃ v ∈ vars, Query.paramName? v.name = some w := by
    intro w hw
    rw [Query.Signature.mem_names_iff hsig (endsInDigit_bodyNames (endsInDigit_constant hu) hw),
      iff_and_self]
    rintro ⟨v, -, hname⟩
    exact (List.mem_append.1 hw).resolve_left (notMem_guardedNames hname)
  refine ⟨hmem, ?_⟩
  constructor
  · intro hfree v hv w hw hname
    have hbody : w ∈ u.bodyNames := List.mem_append_right _ hw
    exact hfree w hbody ((hmem w hbody).2 ⟨hw, v, hv, hname⟩)
  · intro hfree w hw hparam
    obtain ⟨hopen, v, hv, hname⟩ := (hmem w hw).1 hparam
    exact hfree v hv w hopen hname

/-- Names that are reserved or get numbers capture nothing. -/
theorem captures_iff_posts :
    ∃ (vars : List Query.Variable) (sig : Query.Signature) (u : StatementUnit),
    vars.map (·.name) = ["db", "Err", "err"] ∧ Query.Signature.ofVariables? vars = some sig ∧
    ofFile? .query "example.com/app/types" "queries/posts.surql" "queries/posts.surql"
      "SELECT * FROM post;" sig =
      some u ∧
    (∀ w ∈ u.bodyNames, w ∉ u.signature.params.map (·.name)) ∧
    ∀ v ∈ vars, ∀ w ∈ u.openNames, Query.paramName? v.name ≠ some w := by
  have h : (Query.Signature.ofVariables? [⟨"db", "string"⟩, ⟨"Err", "int"⟩, ⟨"err", "int"⟩]).any
      (fun sig =>
      (ofFile? .query "example.com/app/types" "queries/posts.surql" "queries/posts.surql"
        "SELECT * FROM post;"
        sig).any fun u => ∀ w ∈ u.bodyNames, w ∉ u.signature.params.map (·.name)) = true := by
    decide +kernel
  obtain ⟨sig, hsig, h⟩ := (Option.any_eq_true _ _).1 h
  obtain ⟨u, hu, hfree⟩ := (Option.any_eq_true _ _).1 h
  rw [decide_eq_true_iff] at hfree
  exact ⟨_, sig, u, by decide, hsig, hu, hfree, (captures_iff hsig hu).2.1 hfree⟩

/-- The parameter of a variable that is named like the file stands for the text of the query in the
call that runs it. -/
theorem captures_constant : ∃ (text : Bytes) (sig : Query.Signature) (u : StatementUnit),
    text = "// $post_by_id_query: string\nSELECT * FROM post WHERE id = $post_by_id_query;\n" ∧
    Query.Signature.ofVariables? (Query.annotations text) = some sig ∧
    ofFile? .query "example.com/app/types" "queries/post_by_id.surql" "queries/post_by_id.surql"
      text sig =
      some u ∧
    u.constant = "postByIdQuery" ∧ u.signature.params.map (·.name) = ["postByIdQuery"] := by
  have h : (Query.Signature.ofVariables? (Query.annotations
      "// $post_by_id_query: string\nSELECT * FROM post WHERE id = $post_by_id_query;\n")).any
        (fun sig =>
        (ofFile? .query "example.com/app/types" "queries/post_by_id.surql"
          "queries/post_by_id.surql"
          "// $post_by_id_query: string\nSELECT * FROM post WHERE id = $post_by_id_query;\n"
            sig).any fun u =>
            u.constant = ofString "postByIdQuery" ∧
              u.signature.params.map (·.name) = [ofString "postByIdQuery"]) = true := by
    decide +kernel
  obtain ⟨sig, hsig, h⟩ := (Option.any_eq_true _ _).1 h
  obtain ⟨u, hu, hcapture⟩ := (Option.any_eq_true _ _).1 h
  rw [decide_eq_true_iff] at hcapture
  exact ⟨_, sig, u, rfl, hsig, hu, hcapture⟩

end Layer.StatementUnit

end AccessLayer
