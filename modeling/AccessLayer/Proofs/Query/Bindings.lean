import AccessLayer.Proofs.LastWins
import AccessLayer.Query.Params

/-!
# Bindings of a signature

A signature has a parameter for every annotation and a binding for every variable. A variable that
is declared again gets another parameter, which takes the place of its binding, and is noted as
repeated.

* `Signature.Current.push`, `Signature.current_extend?`: one more annotation, and any number of
  them.
* `Signature.Bound`: what the bindings of a signature are like.
* `Signature.declared_eq`: the variables and types of the parameters are the annotated ones, in
  order.
-/

namespace AccessLayer.Query.Signature

/-! ## One annotation and many -/

/-- Each variable is bound to its last parameter, and what is noted as repeated are the variables of
parameters that have one before. -/
structure Current (s : Signature) : Prop where
  gathers : Gathers Param.binds s.params s.bindings
  repeated : s.repeated = recurring (s.params.map (·.binds))

theorem Current.empty : Current {} := ⟨Gathers.nil, rfl⟩

theorem Current.push {s : Signature} (h : s.Current) (idents : List Bytes) (ident : Bytes)
    (v : Variable) : (s.push idents ident v).Current := by
  -- a variable has a binding as soon as it has a parameter
  have hany : s.bindings.any (·.binds == v.name) = true ↔ v.name ∈ s.params.map (·.binds) := by
    rw [any_key_iff, h.gathers.keys, List.mem_eraseDups]
  have hgathers := h.gathers.upsert ⟨numbered ident (idents.count ident), paramType v.type, v.name⟩
  unfold Signature.push
  unfold upsert at hgathers
  dsimp only at hgathers ⊢
  split_ifs at hgathers ⊢ with hbound
  · refine ⟨hgathers, ?_⟩
    rw [List.map_append, List.map_singleton, recurring_concat, if_pos (hany.1 hbound), h.repeated]
  · refine ⟨hgathers, ?_⟩
    rw [List.map_append, List.map_singleton, recurring_concat, if_neg (mt hany.2 hbound),
      h.repeated]

/-- A declaration: a variable and its Go type. -/
def declared (s : Signature) : List (Bytes × Bytes) := s.params.map fun q => (q.binds, q.type)

theorem declared_push (s : Signature) (idents : List Bytes) (ident : Bytes) (v : Variable) :
    (s.push idents ident v).declared = s.declared ++ [(v.name, paramType v.type)] := by
  unfold push declared
  dsimp only
  split <;> rw [List.map_append] <;> rfl

/-- Any number of further annotations. -/
theorem current_extend? {s sig : Signature} {idents : List Bytes} {vars : List Variable}
    (hs : s.Current) (h : s.extend? idents vars = some sig) :
    sig.Current ∧ sig.declared = s.declared ++ vars.map fun v => (v.name, paramType v.type) := by
  induction vars generalizing s idents with
  | nil =>
    cases h
    exact ⟨hs, (List.append_nil _).symm⟩
  | cons v vars ih =>
    rw [extend?] at h
    obtain ⟨ident, -, h⟩ := Option.bind_eq_some_iff.1 h
    obtain ⟨hcurrent, hdeclared⟩ := ih (hs.push idents ident v) h
    refine ⟨hcurrent, ?_⟩
    rw [hdeclared, declared_push, List.append_assoc]
    rfl

/-! ## Signatures of annotations -/

/-- Every variable of a parameter has one binding, which is a parameter itself. -/
structure Bound (s : Signature) : Prop where
  mem_params : ∀ b ∈ s.bindings, b ∈ s.params
  covers : ∀ q ∈ s.params, ∃ b ∈ s.bindings, b.binds = q.binds
  nodup : (s.bindings.map (·.binds)).Nodup

theorem Current.bound {s : Signature} (h : s.Current) : s.Bound where
  mem_params := by
    intro b hb
    obtain ⟨before, after, hsplit, -⟩ := lastOf?_eq_some_iff.1 (h.gathers.last b hb)
    simp [hsplit]
  covers := by
    intro q hq
    have hkey : q.binds ∈ s.bindings.map (·.binds) := by
      rw [h.gathers.keys, List.mem_eraseDups]
      exact List.mem_map_of_mem hq
    exact List.mem_map.1 hkey
  nodup := h.gathers.nodup

section

variable {vars : List Variable} {sig : Signature} (h : ofVariables? vars = some sig)
include h

theorem current_ofVariables? : sig.Current := (current_extend? Current.empty h).1

theorem bound_ofVariables? : sig.Bound := (current_ofVariables? h).bound

theorem declared_eq : sig.declared = vars.map fun v => (v.name, paramType v.type) :=
  (current_extend? Current.empty h).2

end

end AccessLayer.Query.Signature
