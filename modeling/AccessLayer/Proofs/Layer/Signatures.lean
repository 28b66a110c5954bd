import AccessLayer.Layer.Pass
import AccessLayer.Proofs.Layer.Tasks
import AccessLayer.Proofs.Query.Bindings

/-!
# Variables that are declared more than once

Every annotation of a query gets a parameter. A variable has one binding, in the place of its first
annotation and with the parameter of its last one, and each further annotation of it is warned of.

* `Signature.exists_last`: the annotation that a binding is of.
* `gives_signatureOf_log`: what is logged about a file.
* `signature_complete`: parameters, bindings and warnings of a list of annotations.
-/

namespace AccessLayer

namespace Query.Signature

section

variable {vars : List Variable} {sig : Signature} (h : ofVariables? vars = some sig)
include h

theorem binds_params : sig.params.map (·.binds) = vars.map (·.name) := by
  have hfirst := congrArg (List.map Prod.fst) (declared_eq h)
  rwa [declared, List.map_map, List.map_map] at hfirst

/-- The parameter of an annotation carries its variable and its type. -/
theorem getElem?_params (i : Nat) :
    (sig.params[i]?).map (fun q => (q.binds, q.type)) = (vars[i]?).map fun v =>
      (v.name, paramType v.type) := by
  rw [← List.getElem?_map, ← List.getElem?_map]
  exact congrArg (·[i]?) (declared_eq h)

theorem exists_param {i : Nat} {v : Variable} (hv : vars[i]? = some v) :
    ∃ q, sig.params[i]? = some q ∧ q.binds = v.name ∧ q.type = paramType v.type := by
  have hi := getElem?_params h i
  rw [hv, Option.map_some, Option.map_eq_some_iff] at hi
  obtain ⟨q, hq, heq⟩ := hi
  exact ⟨q, hq, (Prod.mk.inj heq).1, (Prod.mk.inj heq).2⟩

theorem exists_variable {i : Nat} {q : Param} (hq : sig.params[i]? = some q) :
    ∃ v, vars[i]? = some v ∧ v.name = q.binds := by
  have hi := getElem?_params h i
  rw [hq, Option.map_some, eq_comm, Option.map_eq_some_iff] at hi
  obtain ⟨v, hv, heq⟩ := hi
  exact ⟨v, hv, (Prod.mk.inj heq).1⟩

theorem exists_last {b : Param} (hb : b ∈ sig.bindings) :
    ∃ (i : Nat) (v : Variable), sig.params[i]? = some b ∧ vars[i]? = some v ∧ v.name = b.binds ∧
      ∀ (j : Nat) (w : Variable), i < j → vars[j]? = some w → w.name ≠ b.binds := by
  obtain ⟨before, after, hsplit, -, hafter⟩ :=
    lastOf?_eq_some_iff.1 ((current_ofVariables? h).gathers.last b hb)
  have hparam : sig.params[before.length]? = some b := by simp [hsplit]
  obtain ⟨v, hv, hname⟩ := exists_variable h hparam
  refine ⟨before.length, v, hparam, hv, hname, fun j w hj hw => ?_⟩
  -- the parameter of a later annotation comes after the binding
  obtain ⟨q, hq, hbinds, -⟩ := exists_param h hw
  obtain ⟨k, rfl⟩ := Nat.exists_eq_add_of_lt hj
  rw [hsplit, List.getElem?_append_right (by omega), show before.length + k + 1 - before.length =
    k + 1 by omega, List.getElem?_cons_succ] at hq
  rw [← hbinds]
  exact hafter q (List.mem_of_getElem? hq)

end

end Query.Signature

namespace Layer

open Query (Signature Variable)

/-! ## Logs -/

/-- The lines are logged in order. -/
theorem gives_logLines (lines : List Bytes) (s : Session) :
    Task.Gives (forIn lines PUnit.unit fun line _ => do
      Task.log line
      pure (ForInStep.yield PUnit.unit)) s PUnit.unit { s with log := s.log ++ lines } := by
  induction lines generalizing s with
  | nil =>
    rw [List.append_nil]
    exact Task.gives_pure.2 ⟨rfl, rfl⟩
  | cons line lines ih =>
    rw [List.forIn_cons]
    have hlog : (Task.log line).Gives s () { s with log := s.log ++ [line] } :=
      Task.gives_modify.2 rfl
    refine Task.gives_bind.2 ⟨_, _,
      Task.gives_bind.2 ⟨_, _, hlog, Task.gives_pure.2 ⟨rfl, rfl⟩⟩, ?_⟩
    have hrest := ih { s with log := s.log ++ [line] }
    rwa [List.append_assoc, List.singleton_append] at hrest

/-- The warnings about a file are logged when its signature is made. -/
theorem gives_signatureOf_log (p : Project) (path : Bytes) {text : Bytes} {sig : Signature}
    (s : Session) (h : Signature.ofVariables? (Query.annotations text) = some sig) :
    (signatureOf p path text).Gives s sig
      { s with log := s.log ++ sig.warnings (p.relative path) } := by
  unfold signatureOf
  rw [h]
  exact Task.gives_bind.2 ⟨_, _, gives_logLines _ s, Task.gives_pure.2 ⟨rfl, rfl⟩⟩

/-! ## Signatures -/

/-- The parameters of a signature are those of the annotations, in order. The bindings have each
variable once, in the order of first annotations, with the parameter of its last one. There is a
warning for each annotation whose variable has one before, and these warnings are what a file with
the annotations adds to the log. -/
theorem signature_complete {vars : List Variable} {sig : Signature}
    (h : Signature.ofVariables? vars = some sig) : sig.params.length = vars.length ∧
      (∀ (i : Nat) (v : Variable), vars[i]? = some v →
        ∃ q, sig.params[i]? = some q ∧ q.binds = v.name ∧ q.type = Query.paramType v.type) ∧
      (sig.bindings.map (·.binds)).Nodup ∧
        sig.bindings.map (·.binds) = (vars.map (·.name)).eraseDups ∧
      (∀ b ∈ sig.bindings, ∃ (i : Nat) (v : Variable),
        sig.params[i]? = some b ∧ vars[i]? = some v ∧ v.name = b.binds ∧
          ∀ (j : Nat) (w : Variable), i < j → vars[j]? = some w → w.name ≠ b.binds) ∧
      (∀ source, sig.warnings source = (recurring (vars.map (·.name))).map fun x =>
        "WARNING: " ++ source ++ " declares $" ++ x ++ " more than once") ∧
      ∀ p path text s, Query.annotations text = vars →
        (signatureOf p path text).Gives s sig
          { s with log := s.log ++ sig.warnings (p.relative path) } := by
  have hcurrent := Signature.current_ofVariables? h
  have hbinds := Signature.binds_params h
  refine ⟨?_, fun i v hv => Signature.exists_param h hv, hcurrent.gathers.nodup, ?_,
    fun b hb => Signature.exists_last h hb, fun source => ?_, ?_⟩
  · rw [← List.length_map (f := fun q : Query.Param => q.binds), hbinds, List.length_map]
  · rw [hcurrent.gathers.keys, hbinds]
  · rw [Signature.warnings, hcurrent.repeated, hbinds]
  · rintro p path text s rfl
    exact gives_signatureOf_log p path s h

/-- Annotations that declare `a` three times and two other variables of one Go name in between. -/
def thriceDeclared : List Variable :=
  [⟨"a", "string"⟩, ⟨"B", "int"⟩, ⟨"a", "bool"⟩, ⟨"b", "int"⟩, ⟨"a", "option<int>"⟩]

/-- The variable that is declared three times stays in front, is bound to its last parameter and is
warned of twice. -/
theorem signature_complete_thrice :
    ∃ sig, Signature.ofVariables? thriceDeclared = some sig ∧ sig.params.length = 5 ∧
    sig.bindings.map (·.binds) = ["a", "B", "b"] ∧
    (∀ b ∈ sig.bindings, b.binds = "a" → sig.params[4]? = some b ∧ b.type = "*int64") ∧
    sig.warnings "q.surql" =
      ["WARNING: q.surql declares $a more than once",
        "WARNING: q.surql declares $a more than once"] := by
  have hsome : (Signature.ofVariables? thriceDeclared).isSome = true := by decide +kernel
  obtain ⟨sig, hsig⟩ := Option.isSome_iff_exists.1 hsome
  obtain ⟨hlength, hparams, -, hbindings, hlast, hwarnings, -⟩ := signature_complete hsig
  refine ⟨sig, hsig, hlength, by rw [hbindings]; decide, fun b hb hname => ?_, by
    rw [hwarnings]; decide⟩
  obtain ⟨i, v, hb, hv, hvname, hlater⟩ := hlast b hb
  obtain ⟨q, hq, -, htype⟩ := hparams 4 ⟨"a", "option<int>"⟩ rfl
  -- no place before the last one will do, and there is none after it
  have hi : i = 4 := by
    by_contra hne
    rcases Nat.lt_or_gt_of_ne hne with hlt | hgt
    · exact hlater 4 _ hlt rfl hname.symm
    · rw [List.getElem?_eq_none (show thriceDeclared.length ≤ i from hgt)] at hv
      cases hv
  subst hi
  obtain rfl := Option.some.inj (hb.symm.trans hq)
  exact ⟨hb, htype.trans (by decide +kernel)⟩

end Layer

end AccessLayer
