import AccessLayer.Proofs.Surql.WordCase
import AccessLayer.Proofs.Text.Parts
import AccessLayer.Query.ParamType

/-!
# Types of annotations, wrapped

A type is unwrapped at its first `<` and its last byte, without a look at what stands between them.
That is the inner type all the same, however deep the wrappers are nested and whatever brackets the
innermost token has itself.

* `Wrapper`, `written`: the wrappers, and a token that is wrapped some times.
* `unwrap?_wrap`, `unwrap?_eq_none`: one wrapper is taken off, and none where there is none.
* `paramType_written`: the marks of the wrappers and then the Go type of the token.
-/

namespace AccessLayer.Query

open Bytes
open Surql (Token)

variable {t head inner : Bytes}

/-- What a type may be wrapped in. -/
inductive Wrapper where
  | option
  | array
  | vec
  | set

namespace Wrapper

def name : Wrapper → Bytes
  | option => "option"
  | array => "array"
  | vec => "vec"
  | set => "set"

/-- The Go type has a pointer for an option and a slice for anything else. -/
def mark : Wrapper → Bytes
  | option => "*"
  | _ => "[]"

/-- The wrappers are those of the table, and their names have no bracket in any letter case. -/
theorem facts (w : Wrapper) : wrapperMarks.lookup (Bytes.toLower w.name) = some w.mark ∧
    (∀ b ∈ w.name, Token.foldByte b ≠ Token.foldByte (byte '<')) := by
  cases w <;> decide +kernel

theorem name_of_lookup {name mark : Bytes} (h : wrapperMarks.lookup name = some mark) :
    ∃ w : Wrapper, name = w.name := by
  obtain ⟨before, after, hmarks, -⟩ := List.lookup_eq_some_iff.1 h
  have h : (name, mark) ∈ wrapperMarks := by simp [hmarks]
  simp only [wrapperMarks, List.mem_cons, List.not_mem_nil, or_false, Prod.mk.injEq] at h
  obtain ⟨rfl, -⟩ | ⟨rfl, -⟩ | ⟨rfl, -⟩ | ⟨rfl, -⟩ := h
  exacts [⟨option, rfl⟩, ⟨array, rfl⟩, ⟨vec, rfl⟩, ⟨set, rfl⟩]

end Wrapper

/-- A type between the angle brackets of a head. -/
def wrap (head inner : Bytes) : Bytes := head ++ byte '<' :: inner ++ [byte '>']

/-- A token in wrappers, the outermost one first, each with the head that it is written with. -/
def written (ws : List (Wrapper × Bytes)) (t : Bytes) : Bytes :=
  ws.foldr (fun w inner => wrap w.2 inner) t

/-- The token is in a wrapper itself, whatever letters its head is written with. -/
def IsWrapped (t : Bytes) : Prop := ∃ head inner, t = wrap head inner ∧
    ∃ w : Wrapper, Bytes.toLower head = w.name

/-! ## One wrapper -/

/-- A type is cut at its first angle bracket. -/
theorem cut_append (h : byte '<' ∉ head) (rest : Bytes) :
    cut (byte '<') (head ++ byte '<' :: rest) = (head, some rest) := by
  have hhead : ∀ b ∈ head, (b != byte '<') = true := fun b hb => bne_iff_ne.2 fun heq =>
    h (heq ▸ hb)
  obtain ⟨htake, hdrop⟩ := takeWhile_run (s := byte '<' :: rest) hhead (by simp)
  rw [cut, htake, hdrop]

theorem eq_append_of_cut {rest : Bytes} (h : cut (byte '<') t = (head, some rest)) :
    t = head ++ byte '<' :: rest := by
  rw [cut, Prod.mk.injEq] at h
  obtain ⟨rfl, hrest⟩ := h
  have hsplit := List.takeWhile_append_dropWhile (p := (· != byte '<')) (l := t)
  have hfirst := List.head?_dropWhile_not (· != byte '<') t
  cases hd : t.dropWhile (· != byte '<') with
  | nil =>
    rw [hd] at hrest
    cases hrest
  | cons b s =>
    rw [hd] at hrest hsplit hfirst
    obtain rfl : s = rest := Option.some.inj hrest
    obtain rfl : b = byte '<' := by simpa using hfirst
    exact hsplit.symm

/-- The head of a wrapper in any letter case has no bracket. -/
theorem notMem_head {w : Wrapper} (h : Token.sameWord head w.name) : byte '<' ∉ head := by
  intro hmem
  have hfold := List.mem_map_of_mem (f := Token.foldByte) hmem
  rw [Token.sameWord, beq_iff_eq] at h
  rw [h, List.mem_map] at hfold
  obtain ⟨b, hb, heq⟩ := hfold
  exact w.facts.2 b hb heq

/-- The brackets of a wrapper are the first one that opens and the last one that closes. -/
theorem unwrap?_wrap {w : Wrapper} (h : Token.sameWord head w.name) (inner : Bytes) :
    unwrap? (wrap head inner) = some (w.mark, inner) := by
  have hcut := cut_append (notMem_head h) (inner ++ [byte '>'])
  rw [wrap, List.append_assoc, List.cons_append, unwrap?, hcut]
  simp only [List.reverse_append, List.reverse_singleton, List.singleton_append, beq_self_eq_true,
    if_true, List.reverse_reverse, toLower_eq_of_sameWord h, w.facts.1, Option.map_some]

/-- What is in no wrapper is not unwrapped, even if it has angle brackets. -/
theorem unwrap?_eq_none (h : ¬ IsWrapped t) : unwrap? t = none := by
  by_contra hne
  obtain ⟨⟨mark, inner⟩, hsome⟩ := Option.ne_none_iff_exists'.1 hne
  unfold unwrap? at hsome
  split at hsome
  · cases hsome
  · next head rest hcut =>
    split at hsome
    · cases hsome
    · next last tail hrev =>
      obtain ⟨hlast, hmark⟩ := Option.ite_none_right_eq_some.1 hsome
      obtain ⟨mark, hlookup, -⟩ := Option.map_eq_some_iff.1 hmark
      obtain ⟨w, hw⟩ := Wrapper.name_of_lookup hlookup
      refine h ⟨head, tail.reverse, ?_, w, hw⟩
      have hrest : rest = tail.reverse ++ [last] := by
        rw [← rest.reverse_reverse, hrev, List.reverse_cons]
      rw [eq_append_of_cut hcut, hrest, beq_iff_eq.1 hlast, wrap, List.append_assoc,
        List.cons_append]

/-! ## All wrappers -/

theorem paramType_of_unwrap? {mark : Bytes} (h : unwrap? t = some (mark, inner)) :
    paramType t = mark ++ paramType inner := by
  rw [paramType]
  split
  · next heq =>
    rw [h] at heq
    cases heq
    rfl
  · next heq =>
    rw [h] at heq
    cases heq

theorem paramType_of_not_isWrapped (h : ¬ IsWrapped t) :
    paramType t = (baseTypes.lookup (Bytes.toLower t)).getD t := by
  have hnone := unwrap?_eq_none h
  rw [paramType]
  split
  · next heq =>
    rw [hnone] at heq
    cases heq
  · rfl

/-- A name stands in the table of base names once. -/
theorem lookup_baseTypes {name type : Bytes} (h : (name, type) ∈ baseTypes) :
    baseTypes.lookup name = some type := by
  have hall : (baseTypes.all fun entry => baseTypes.lookup entry.1 == some entry.2) = true := by
    decide
  exact beq_iff_eq.1 (List.all_eq_true.1 hall _ h)

/-- However deep a token is wrapped, its Go type is a mark for each wrapper, in their order, and
then the Go type of a base name or else the token as it is. -/
theorem paramType_written (ws : List (Wrapper × Bytes))
    (hws : ∀ w ∈ ws, Token.sameWord w.2 w.1.name = true) (t : Bytes) (ht : ¬ IsWrapped t) :
    (∀ type, (Bytes.toLower t, type) ∈ baseTypes →
      paramType (written ws t) = ws.flatMap (fun w => w.1.mark) ++ type) ∧
    ((∀ type, (Bytes.toLower t, type) ∉ baseTypes) →
      paramType (written ws t) = ws.flatMap (fun w => w.1.mark) ++ t) := by
  have hmarks : paramType (written ws t) =
      ws.flatMap (fun w => w.1.mark) ++ (baseTypes.lookup (Bytes.toLower t)).getD t := by
    induction ws with
    | nil => exact paramType_of_not_isWrapped ht
    | cons w ws ih =>
      obtain ⟨hw, hws⟩ := List.forall_mem_cons.1 hws
      rw [written, List.foldr_cons, ← written, paramType_of_unwrap? (unwrap?_wrap hw _), ih hws,
        List.flatMap_cons, List.append_assoc]
  constructor
  · intro type htype
    rw [hmarks, lookup_baseTypes htype, Option.getD_some]
  · intro hnone
    have hlookup : baseTypes.lookup (Bytes.toLower t) = none := by
      rw [List.lookup_eq_none_iff]
      intro entry hentry
      rw [bne_iff_ne]
      exact fun heq => hnone entry.2 (heq ▸ hentry)
    rw [hmarks, hlookup, Option.getD_none]

/-- A Go type with brackets of its own, in wrappers of mixed letter case. -/
theorem paramType_written_generic :
    written [(.option, "Option"), (.array, "ARRAY"), (.set, "set")] "map<K,V>" =
      "Option<ARRAY<set<map<K,V>>>>" ∧
      paramType "Option<ARRAY<set<map<K,V>>>>" = "*[][]map<K,V>" := by
  have htoken : ¬ IsWrapped "map<K,V>" := by
    rintro ⟨head, inner, heq, w, hw⟩
    -- the only bracket that opens is the one after the head
    have hcount : byte '<' ∉ head := by
      have hone := congrArg (List.count (byte '<')) heq
      rw [wrap, List.append_assoc, List.count_append, List.cons_append, List.count_cons_self,
        show (ofString "map<K,V>").count (byte '<') = 1 by decide +kernel] at hone
      exact List.count_eq_zero.1 (by omega)
    have hcut := cut_append hcount (inner ++ [byte '>'])
    rw [← List.cons_append, ← List.append_assoc, ← wrap, ← heq] at hcut
    have hhead : head = ofString "map" :=
      (congrArg Prod.fst hcut).symm.trans (by decide +kernel)
    rw [hhead] at hw
    cases w <;> revert hw <;> decide +kernel
  have h := (paramType_written [(.option, "Option"), (.array, "ARRAY"),
    (.set, "set")] (by decide +kernel) _ htoken).2
  refine ⟨by decide +kernel, h fun type hmem => ?_⟩
  have hnone : (baseTypes.all fun entry => entry.1 != Bytes.toLower "map<K,V>") = true := by
    decide +kernel
  simpa using List.all_eq_true.1 hnone _ hmem

end AccessLayer.Query
