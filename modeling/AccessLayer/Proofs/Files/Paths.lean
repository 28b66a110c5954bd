import AccessLayer.Files.Path
import AccessLayer.Proofs.Text.LastByte
import AccessLayer.Proofs.Text.Parts

/-!
# Clean absolute paths

A clean absolute path is written with the names on the way from the root, none of which is empty, a
slash, or a name for a directory itself or its parent. Going below such a path and back up are
operations on its names.

* `Path.Proper`: the names that may stand in a clean absolute path.
* `Path.names_ofNames`, `Path.clean_of_isAbs`: clean absolute paths and their names.
* `Path.join_ofNames`, `Path.dir_ofNames`, `Path.base_ofNames`: one name further down, and back.
-/

namespace AccessLayer

namespace Path

open Bytes

variable {ns : List Bytes} {p name : Bytes}

/-- A name that stands for a file or a directory below another one. -/
def Proper (name : Bytes) : Prop := name ≠ [] ∧ name ≠ here ∧ name ≠ parent ∧ separator ∉ name

instance (name : Bytes) : Decidable (Proper name) := inferInstanceAs (Decidable (_ ∧ _))

/-! ## Names -/

theorem addName_proper (rooted : Bool) (ns : List Bytes) (h : Proper name) :
    addName rooted ns name = name :: ns := by
  obtain ⟨h1, h2, h3, -⟩ := h
  simp [addName, h1, h2, h3]

theorem addName_nil (rooted : Bool) (ns : List Bytes) : addName rooted ns [] = ns := by
  simp [addName]

theorem foldl_addName (rooted : Bool) (h : ∀ n ∈ ns, Proper n) (acc : List Bytes) :
    ns.foldl (addName rooted) acc = ns.reverse ++ acc := by
  induction ns generalizing acc with
  | nil => rfl
  | cons n ns ih =>
    rw [List.foldl_cons, addName_proper rooted acc (h n (by simp)), ih fun m hm =>
      h m (by simp [hm])]
    simp

theorem proper_addName {part : Bytes} (hpart : separator ∉ part) {acc : List Bytes}
    (hacc : ∀ n ∈ acc, Proper n) : ∀ n ∈ addName true acc part, Proper n := by
  by_cases hskip : part = [] ∨ part = here
  · have hsame : addName true acc part = acc := by
      obtain rfl | rfl := hskip <;> simp [addName]
    rwa [hsame]
  · rw [not_or] at hskip
    by_cases hparent : part = parent
    · subst hparent
      cases acc with
      | nil => simp [addName, parent, here]
      | cons last rest =>
        have hlast : last ≠ parent := (hacc last (by simp)).2.2.1
        have hup : addName true (last :: rest) parent = rest := by
          simp [addName, hskip, hlast]
        rw [hup]
        exact fun n hn => hacc n (by simp [hn])
    · have hproper : Proper part := ⟨hskip.1, hskip.2, hparent, hpart⟩
      rw [addName_proper true acc hproper]
      exact List.forall_mem_cons.2 ⟨hproper, hacc⟩

/-- The names of an absolute path lead down from the root. -/
theorem proper_names (hp : isAbs p) : ∀ n ∈ names p, Proper n := by
  have hfold : ∀ (parts acc : List Bytes), (∀ part ∈ parts, separator ∉ part) →
      (∀ n ∈ acc, Proper n) →
      ∀ n ∈ parts.foldl (addName true) acc, Proper n := by
    intro parts
    induction parts with
    | nil => exact fun acc _ hacc => hacc
    | cons part parts ih =>
      intro acc hparts hacc
      rw [List.forall_mem_cons] at hparts
      exact ih _ hparts.2 (proper_addName hparts.1 hacc)
  intro n hn
  rw [names, hp, List.mem_reverse] at hn
  exact hfold _ [] (fun part => notMem_of_mem_splitOn) (by simp) n hn

theorem isAbs_ofNames (ns : List Bytes) : isAbs (ofNames true ns) := rfl

theorem splitOn_ofNames (h : ∀ n ∈ ns, Proper n) :
    splitOn separator (ofNames true ns) = [] :: (if ns = [] then [[]] else ns) := by
  have hfront : splitOn separator (ofNames true ns) =
      [] :: splitOn separator (Bytes.join [separator] ns) :=
    splitOn_append_sep separator [] _
  rw [hfront]
  split_ifs with hns
  · rw [hns]
    rfl
  · rw [splitOn_join (fun n hn => (h n hn).2.2.2) hns]

theorem names_ofNames (h : ∀ n ∈ ns, Proper n) : names (ofNames true ns) = ns := by
  rw [names, splitOn_ofNames h, isAbs_ofNames, List.foldl_cons, addName_nil]
  split_ifs with hns
  · rw [hns]
    rfl
  · rw [foldl_addName true h, List.append_nil, List.reverse_reverse]

theorem clean_of_isAbs (hp : isAbs p) : clean p = ofNames true (names p) := by
  rw [clean, hp]

/-! ## One name further down -/

theorem join_pair {q : Bytes} (hp : p ≠ []) (hq : q ≠ []) :
    join [p, q] = clean (p ++ separator :: q) := by
  simp [join, hp, hq, Bytes.join]

theorem names_append_name (hp : isAbs (p ++ separator :: name)) (hname : Proper name) :
    names (p ++ separator :: name) = names p ++ [name] := by
  have hfront : ((splitOn separator p).foldl (addName true) []).reverse = names p := by
    cases p with
    | nil => rfl
    | cons b p => rw [names, show isAbs (b :: p) = true from hp]
  rw [names, hp, splitOn_append_sep, splitOn_of_notMem hname.2.2.2, List.foldl_append, ← hfront]
  show (addName true _ name).reverse = _
  rw [addName_proper true _ hname, List.reverse_cons]

section

variable {ns : List Bytes} (hns : ∀ n ∈ ns, Proper n) {name : Bytes} (hname : Proper name)
include hns hname

theorem proper_concat : ∀ n ∈ ns ++ [name], Proper n := by
  intro n hn
  rw [List.mem_append, List.mem_singleton] at hn
  obtain hn | rfl := hn
  · exact hns n hn
  · exact hname

theorem join_ofNames : join [ofNames true ns, name] = ofNames true (ns ++ [name]) := by
  rw [join_pair (by simp [ofNames]) hname.1, clean_of_isAbs rfl, names_append_name rfl hname,
    names_ofNames hns]

end

theorem ofNames_concat (ns : List Bytes) (name : Bytes) :
    ofNames true (ns ++ [name]) = (if ns = [] then [] else ofNames true ns) ++ separator ::
      name := by
  split_ifs with hns
  · rw [hns]
    rfl
  · show separator :: Bytes.join [separator] (ns ++ [name]) = _
    rw [join_concat _ hns]
    simp [ofNames]

section

variable {ns : List Bytes} (hns : ∀ n ∈ ns, Proper n) {name : Bytes} (hname : Proper name)
include hname

theorem base_ofNames : base (ofNames true (ns ++ [name])) = name := by
  rw [ofNames_concat]
  generalize (if ns = [] then [] else ofNames true ns) = front
  have hlast : dropSlashes (front ++ separator :: name) = front ++ separator :: name := by
    obtain ⟨b, rest, hrev⟩ := List.exists_cons_of_ne_nil (List.reverse_eq_nil_iff.not.2 hname.1)
    have hb : b ≠ separator := by
      rintro rfl
      exact hname.2.2.2 (List.mem_reverse.1 (hrev ▸ List.mem_cons_self ..))
    have hdrop : (front ++ separator :: name).reverse.dropWhile (· == separator) =
        (front ++ separator :: name).reverse := by
      rw [List.reverse_append, List.reverse_cons, hrev]
      simp [hb]
    rw [dropSlashes, hdrop, List.reverse_reverse]
  unfold base
  rw [hlast]
  simp only [List.isEmpty_iff, List.append_eq_nil_iff, reduceCtorEq, and_false, if_false]
  split
  · next h => simp at h
  · rw [(reverse_splits front hname.2.2.2).1, List.reverse_reverse]

include hns

theorem dir_ofNames : dir (ofNames true (ns ++ [name])) = ofNames true ns := by
  rw [ofNames_concat, dir, (reverse_splits _ hname.2.2.2).2]
  split_ifs with h
  · rw [h]
    rfl
  · rw [List.reverse_cons, List.reverse_reverse, clean_of_isAbs rfl, names, splitOn_append_sep,
      List.foldl_append]
    show ofNames true (addName true _ []).reverse = _
    rw [addName_nil]
    exact congrArg (ofNames true) (names_ofNames hns)

end

theorem ext_suffix (p : Bytes) : ext p <:+ p := by
  unfold ext
  dsimp only
  split
  · exact List.nil_suffix
  · next last hlast =>
    obtain ⟨b, rest, hrest⟩ := List.exists_cons_of_ne_nil hlast
    have hb : b = byte '.' := by
      have hhead := List.head?_dropWhile_not (· != byte '.') (p.reverse.takeWhile (· != separator))
      rw [hrest] at hhead
      simpa using hhead
    have hpre : (p.reverse.takeWhile (· != separator)).takeWhile (· != byte '.') ++ [byte '.'] <+:
        p.reverse := by
      refine List.IsPrefix.trans ?_ (List.takeWhile_prefix (· != separator))
      refine ⟨rest, ?_⟩
      rw [hb] at hrest
      rw [List.append_assoc, List.singleton_append, ← hrest, List.takeWhile_append_dropWhile]
    have hsuf := List.reverse_suffix.2 hpre
    rwa [List.reverse_append, List.reverse_reverse] at hsuf

/-- An extension is a point without another point or a slash after it. -/
theorem ext_cases (p : Bytes) :
    ext p = [] ∨ ∃ rest, ext p = byte '.' :: rest ∧ byte '.' ∉ rest ∧ separator ∉ rest := by
  unfold ext
  dsimp only
  split
  · exact .inl rfl
  · refine .inr ⟨_, rfl, fun hpoint => ?_, fun hsep => ?_⟩
    · simpa using List.mem_takeWhile_imp (List.mem_reverse.1 hpoint)
    · have hlast := (List.takeWhile_prefix _).subset (List.mem_reverse.1 hsep)
      simpa using List.mem_takeWhile_imp hlast

theorem ext_append_point (front : Bytes) {rest : Bytes} (hpoint : byte '.' ∉ rest)
    (hsep : separator ∉ rest) : ext (front ++ byte '.' :: rest) = byte '.' :: rest := by
  have hall : ∀ b ∈ (byte '.' :: rest).reverse, (b != separator) = true := by
    intro b hb
    rw [List.mem_reverse, List.mem_cons] at hb
    obtain rfl | hb := hb
    · decide
    · exact bne_iff_ne.2 fun heq => hsep (heq ▸ hb)
  have hlast : (front ++ byte '.' :: rest).reverse.takeWhile (· != separator) =
      ((front.reverse.takeWhile (· != separator)).reverse ++ byte '.' :: rest).reverse := by
    rw [List.reverse_append, List.takeWhile_append_of_pos hall, List.reverse_append,
      List.reverse_reverse]
  unfold ext
  dsimp only
  rw [hlast, (reverse_splits _ hpoint).1, (reverse_splits _ hpoint).2]
  show byte '.' :: rest.reverse.reverse = _
  rw [List.reverse_reverse]

/-- A text that is an extension is one of every text that ends with it. -/
theorem ext_of_suffix {e : Bytes} (he : ext e = e) (hne : e ≠ []) (h : e <:+ p) : ext p = e := by
  obtain ⟨front, rfl⟩ := h
  obtain hnil | ⟨rest, hrest, hpoint, hsep⟩ := ext_cases e
  · exact absurd (he.symm.trans hnil) hne
  · rw [← he, hrest]
    exact ext_append_point front hpoint hsep

theorem ext_ext (p : Bytes) : ext (ext p) = ext p := by
  obtain hnil | ⟨rest, hrest, hpoint, hsep⟩ := ext_cases p
  · rw [hnil]
    rfl
  · rw [hrest]
    exact ext_append_point [] hpoint hsep

theorem separator_notMem_ext (p : Bytes) : separator ∉ ext p := by
  obtain hnil | ⟨rest, hrest, -, hsep⟩ := ext_cases p
  · simp [hnil]
  · rw [hrest, List.mem_cons, not_or]
    exact ⟨by decide, hsep⟩

/-- A name with something after its last point is not that of a directory itself or its parent. -/
theorem proper_of_ext (hsep : separator ∉ name) (hext : 2 ≤ (ext name).length) : Proper name := by
  refine ⟨?_, ?_, ?_, hsep⟩ <;> rintro rfl <;> exact absurd hext (by decide)

section

variable {e : Bytes} (he : ext e = e) (hlen : 2 ≤ e.length)
include he hlen

/-- A name that ends with an extension has it after its last point. -/
theorem proper_of_suffix (hsep : separator ∉ name) (h : e <:+ name) :
    Proper name ∧ ext name = e := by
  have hext := ext_of_suffix he (List.ne_nil_of_length_pos (by omega)) h
  exact ⟨proper_of_ext hsep (by rwa [hext]), hext⟩

/-- A path that ends with an extension has it in its last name, so its clean form has. -/
theorem clean_of_suffix (hp : isAbs p) (h : e <:+ p) :
    ∃ ns name, clean p = ofNames true (ns ++ [name]) ∧ (∀ n ∈ ns ++ [name], Proper n) ∧
      ext name = e := by
  have hmem : separator ∈ p := List.mem_of_head? (by simpa [isAbs] using hp)
  obtain ⟨front, name, rfl, hsep⟩ := exists_lastCut hmem
  obtain ⟨hname, hext⟩ :=
    proper_of_suffix he hlen hsep (suffix_of_notMem (he ▸ separator_notMem_ext e) h)
  have hnames := names_append_name hp hname
  refine ⟨names front, name, ?_, hnames ▸ proper_names hp, hext⟩
  rw [clean_of_isAbs hp, hnames]

end

/-! ## Paths of a project -/

/-- A relative path is written behind the root. -/
theorem resolve_relative {root path : Bytes} (hroot : isAbs root) (hpath : isAbs path = false) :
    resolve root path = clean (if path = [] then root else root ++ separator :: path) := by
  have hne : root ≠ [] := by
    rintro rfl
    exact absurd hroot (by decide)
  rw [resolve, hpath, if_neg Bool.false_ne_true]
  split_ifs with hempty <;> simp [join, hempty, hne, Bytes.join]

/-- Whatever a path stands for below an absolute root is a clean absolute path. -/
theorem resolve_eq {root : Bytes} (hroot : isAbs root) (path : Bytes) :
    resolve root path = ofNames true (names (resolve root path)) ∧
      ∀ n ∈ names (resolve root path), Proper n := by
  have hclean : ∃ q, isAbs q = true ∧ resolve root path = clean q := by
    cases hpath : isAbs path with
    | true => exact ⟨path, hpath, if_pos hpath⟩
    | false =>
      refine ⟨_, ?_, resolve_relative hroot hpath⟩
      split_ifs
      · exact hroot
      · cases root with
        | nil => cases hroot
        | cons b rest => exact hroot
  obtain ⟨q, hq, hresolve⟩ := hclean
  rw [hresolve, clean_of_isAbs hq, names_ofNames (proper_names hq)]
  exact ⟨rfl, proper_names hq⟩

end Path

end AccessLayer
