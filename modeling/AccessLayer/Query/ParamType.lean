import AccessLayer.Record.Field

/-!
# Types of annotations

The type written in an annotation becomes the Go type of a parameter. The wrappers `option`,
`array`, `vec` and `set` become pointers and slices, the base names of SurrealQL become Go types,
and anything else is taken to be a Go type already.

* `paramType`: the Go type of an annotation.
-/

namespace AccessLayer.Query

def wrapperMarks : List (Bytes × Bytes) :=
  [("option", "*"), ("array", "[]"), ("vec", "[]"), ("set", "[]")]

def baseTypes : List (Bytes × Bytes) :=
  [("string", "string"), ("str", "string"), ("&str", "string"),
    ("int", "int64"), ("i64", "int64"), ("number", "int64"),
    ("float", "float64"), ("f64", "float64"), ("decimal", "float64"),
    ("bool", "bool"), ("datetime", "time.Time"), ("duration", "time.Duration"),
    ("record", Record.recordIdType), ("thing", Record.recordIdType),
    ("recordid", Record.recordIdType), ("any", "any"), ("object", "any")]

/-- The mark and the inner type of a type of the form `wrapper<inner>`. -/
def unwrap? (type : Bytes) : Option (Bytes × Bytes) :=
  match Bytes.cut (Bytes.byte '<') type with
  | (_, none) => none
  | (head, some rest) =>
    match rest.reverse with
    | [] => none
    | last :: inner =>
      if last == Bytes.byte '>' then
        (wrapperMarks.lookup (Bytes.toLower head)).map fun mark => (mark, inner.reverse)
      else none

theorem length_lt_of_cut {sep : UInt8} {s head rest : Bytes}
    (h : Bytes.cut sep s = (head, some rest)) : rest.length < s.length := by
  simp only [Bytes.cut, Prod.mk.injEq] at h
  obtain ⟨-, h⟩ := h
  split at h
  · cases h
  · next b tail hd =>
    cases h
    have := (List.dropWhile_suffix (l := s) (p := (· != sep))).length_le
    simp [hd] at this
    omega

theorem length_lt_of_unwrap? {type mark inner : Bytes}
    (h : unwrap? type = some (mark, inner)) : inner.length < type.length := by
  unfold unwrap? at h
  split at h
  · cases h
  · next head rest hc =>
    split at h
    · cases h
    · next last tail hr =>
      split at h
      · simp only [Option.map_eq_some_iff, Prod.mk.injEq] at h
        obtain ⟨-, -, -, rfl⟩ := h
        have := length_lt_of_cut hc
        have hl := congrArg List.length hr
        simp only [List.length_reverse, List.length_cons] at hl ⊢
        omega
      · cases h

def paramType (type : Bytes) : Bytes :=
  match h : unwrap? type with
  | some (mark, inner) =>
    have : inner.length < type.length := length_lt_of_unwrap? h
    mark ++ paramType inner
  | none => (baseTypes.lookup (Bytes.toLower type)).getD type
termination_by type.length

end AccessLayer.Query
