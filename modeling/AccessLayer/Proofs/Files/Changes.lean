import AccessLayer.Proofs.Files.Trees

/-!
# Changes in one directory

Work in one directory changes the entries of names there. Directories on the way to it are made
where they are missing, and it may itself be removed. Everything else stays, so that what several
steps do is one function after another on the entry of each name.

* `Tree.Edited`: the entries of a directory have changed by a function.
* `Tree.Edited.trans`: one change after another.
* `Tree.edited_set`, `Tree.edited_erase`, `Tree.edited_grown`, `Tree.edited_eraseDir`: the changes
  that the operations make.
-/

namespace AccessLayer.Tree

/-- What becomes of the entry of a name. -/
abbrev Change := Bytes → Option Entry → Option Entry

/-- A file is written. -/
def Change.put (name content : Bytes) : Change := fun n e => if n = name then some (.file content)
    else e

def Change.clear (names : List Bytes) : Change := fun n e => if n ∈ names then none else e

def Change.keep : Change := fun _ e => e

/-- The names in the directory `x` have changed by `f`. Elsewhere, there may be directories more or
less at and above `x`. -/
structure Edited (x : Place) (f : Change) (t u : Tree) : Prop where
  wf : u.WellFormed
  child : ∀ n, u.get? (x ++ [n]) = f n (t.get? (x ++ [n]))
  other : ∀ y, (∀ n, y ≠ x ++ [n]) →
    u.get? y = t.get? y ∨ y <+: x ∧ t.fileAt? y = none ∧ u.fileAt? y = none

variable {x y : Place} {f g : Change} {t u v : Tree}

theorem fileAt?_congr (h : u.get? y = t.get? y) : u.fileAt? y = t.fileAt? y := by
  rw [fileAt?, fileAt?, h]

theorem ne_concat_of_prefix (h : y <+: x) (n : Bytes) : y ≠ x ++ [n] := by
  rintro rfl
  have hlen := h.length_le
  rw [List.length_append, List.length_singleton] at hlen
  omega

namespace Edited

theorem refl (x : Place) (ht : t.WellFormed) : Edited x .keep t t :=
  ⟨ht, fun _ => rfl, fun _ _ => .inl rfl⟩

theorem trans (h : Edited x f t u) (h' : Edited x g u v) :
    Edited x (fun n e => g n (f n e)) t v := by
  refine ⟨h'.wf, fun n => by rw [h'.child, h.child], fun y hy => ?_⟩
  obtain hsame | ⟨hpre, ht, hu⟩ := h.other y hy
  · obtain hsame' | ⟨hpre, hu, hv⟩ := h'.other y hy
    · exact .inl (hsame'.trans hsame)
    · exact .inr ⟨hpre, fileAt?_congr hsame ▸ hu, hv⟩
  · obtain hsame' | ⟨-, -, hv⟩ := h'.other y hy
    · exact .inr ⟨hpre, ht, (fileAt?_congr hsame').trans hu⟩
    · exact .inr ⟨hpre, ht, hv⟩

theorem congr (h : Edited x f t u) (hfg : ∀ n e, f n e = g n e) : Edited x g t u :=
  ⟨h.wf, fun n => (h.child n).trans (hfg n _), h.other⟩

/-- A file elsewhere, or one whose name is left alone, stays as it is. -/
theorem fileAt? (h : Edited x f t u) (hy : ∀ n, y = x ++ [n] → ∀ e, f n e = e) :
    u.fileAt? y = t.fileAt? y := by
  by_cases hchild : ∃ n, y = x ++ [n]
  · obtain ⟨n, rfl⟩ := hchild
    rw [Tree.fileAt?, Tree.fileAt?, h.child, hy n rfl]
  · obtain hsame | ⟨-, ht, hu⟩ := h.other y fun n hn => hchild ⟨n, hn⟩
    · exact fileAt?_congr hsame
    · rw [ht, hu]

/-- What is below a name of the directory stays as it is. -/
theorem get?_deep (h : Edited x f t u) {n : Bytes} (hy : x ++ [n] <+: y) (hne : y ≠ x ++ [n]) :
    u.get? y = t.get? y := by
  have hlen := hy.length_le
  rw [List.length_append, List.length_singleton] at hlen
  refine (h.other y fun m hm => hne ?_).resolve_right fun hpre => ?_
  · exact (hy.eq_of_length (by rw [hm, List.length_append, List.length_append,
      List.length_singleton, List.length_singleton])).symm
  · have := hpre.1.length_le
    omega

/-- What is neither above nor below the directory stays as it is. -/
theorem get?_apart (h : Edited x f t u) (hbelow : ¬ x <+: y) (habove : ¬ y <+: x) :
    u.get? y = t.get? y :=
  (h.other y fun n hn => hbelow (hn ▸ List.prefix_append x [n])).resolve_right fun hpre =>
    habove hpre.1

end Edited

/-! ## Operations -/

theorem edited_grown (hu : u.WellFormed) (h : Grown x t u) : Edited x .keep t u := by
  refine ⟨hu, fun n => ?_, fun y _ => ?_⟩
  · exact (h (x ++ [n])).resolve_right fun hpre => ne_concat_of_prefix hpre.1 n rfl
  · obtain hsame | ⟨hpre, hnone, hdir⟩ := h y
    · exact .inl hsame
    · exact .inr ⟨hpre, by rw [fileAt?, hnone], by rw [fileAt?, hdir]⟩

theorem edited_set {n content : Bytes} (hwf : (t.set (x ++ [n]) (.file content)).WellFormed) :
    Edited x (.put n content) t (t.set (x ++ [n]) (.file content)) := by
  refine ⟨hwf, fun m => ?_, fun y hy => ?_⟩
  · rw [get?_set t (by simp), Change.put]
    simp
  · rw [get?_set t (by simp), if_neg (hy n)]
    exact .inl rfl

theorem edited_erase {n : Bytes} (hwf : (t.erase (x ++ [n])).WellFormed) :
    Edited x (.clear [n]) t (t.erase (x ++ [n])) := by
  refine ⟨hwf, fun m => ?_, fun y hy => ?_⟩
  · rw [get?_erase t (by simp), Change.clear]
    simp
  · rw [get?_erase t (by simp), if_neg (hy n)]
    exact .inl rfl

/-- The directory itself is removed. -/
theorem edited_eraseDir (hx : x ≠ []) (hwf : (t.erase x).WellFormed) (hfile : t.fileAt? x = none) :
    Edited x .keep t (t.erase x) := by
  refine ⟨hwf, fun m => ?_, fun y _ => ?_⟩
  · rw [get?_erase t hx, if_neg (by simp)]
    rfl
  · rw [get?_erase t hx]
    split_ifs with hy
    · subst hy
      exact .inr ⟨List.prefix_refl y, hfile, by rw [fileAt?, get?_erase t hx, if_pos rfl]⟩
    · exact .inl rfl

/-! ## Writing what is there -/

theorem set_self (ht : t.WellFormed) (hx : x ≠ []) {e : Entry} (h : t.get? x = some e) :
    t.set x e = t := by
  have hmem := (ht.get?_eq_some hx).1 h
  have hentries : (t.entries.map fun z => if z.1 == x then (x, e) else z) = t.entries := by
    refine (List.map_congr_left fun z hz => ?_).trans (List.map_id _)
    split_ifs with hzx
    · have hkey : z.1 = x := beq_iff_eq.1 hzx
      have hz' := (ht.get?_eq_some hx).2 (hkey ▸ hz : (x, z.2) ∈ t.entries)
      rw [h, Option.some.injEq] at hz'
      rw [id, hz', ← hkey]
    · rfl
  have hany : t.entries.any (·.1 == x) = true := List.any_eq_true.2 ⟨_, hmem, beq_self_eq_true x⟩
  rw [Tree.set, if_pos hany, hentries]

end AccessLayer.Tree
