import AccessLayer.Proofs.Files.Paths

/-!
# Spellings of one place

A relative path leaves some directories and then goes down through names. Below a directory, two
paths lead to one place if their clean forms are the same, and in two more ways: an absolute path
may name what a relative one leads to, and a relative path may leave more directories than another
one and come down through them again.

* `Path.climbs`, `Path.descent`: the two parts of a clean relative path.
* `Path.addName_below`, `Path.foldl_addName_below`: a path means the same below every directory.
* `Path.names_clean`, `Path.clean_eq_clean_iff`: what a clean form tells.
-/

namespace AccessLayer.Path

/-- How many directories a path leaves before it goes down. -/
def climbs (p : Bytes) : Nat := ((names p).takeWhile (· == parent)).length

/-- The names through which a path goes down. -/
def descent (p : Bytes) : List Bytes := (names p).dropWhile (· == parent)

/-! ## Reading a path below a directory -/

/-- One name of a path, read from nowhere and from a directory with the names `root`, all with the
last name first. The names that were added since are the same, and so is the number of names that
were left. -/
theorem addName_below {part : Bytes} (hpart : separator ∉ part) {down : List Bytes}
    (hdown : ∀ n ∈ down, Proper n) (up : Nat) :
    ∃ (down' : List Bytes) (up' : Nat), (∀ n ∈ down', Proper n) ∧
      addName false (down ++ List.replicate up parent) part = down' ++ List.replicate up' parent ∧
      ∀ root : List Bytes, (∀ n ∈ root, Proper n) →
        addName true (down ++ root.drop up) part = down' ++ root.drop up' := by
  by_cases hskip : part = [] ∨ part = here
  · have hsame : ∀ (rooted : Bool) (ns : List Bytes), addName rooted ns part = ns := by
      intro rooted ns
      obtain rfl | rfl := hskip <;> simp [addName]
    exact ⟨down, up, hdown, hsame _ _, fun root _ => hsame _ _⟩
  rw [not_or] at hskip
  by_cases hparent : part = parent
  · subst hparent
    cases down with
    | nil =>
      -- one more directory is left
      refine ⟨[], up + 1, by simp, ?_, fun root hroot => ?_⟩
      · cases up with
        | zero => simp [addName, hskip]
        | succ up => simp [addName, hskip, List.replicate_succ]
      · rw [List.nil_append, List.nil_append, ← List.tail_drop]
        cases hdrop : root.drop up with
        | nil => simp [addName, hskip]
        | cons last rest =>
          have hlast : last ≠ parent :=
            (hroot last (List.mem_of_mem_drop (hdrop ▸ List.mem_cons_self ..))).2.2.1
          simp [addName, hskip, hlast]
    | cons last rest =>
      have hlast : last ≠ parent := (hdown last (by simp)).2.2.1
      have hback : ∀ (rooted : Bool) (ns : List Bytes), addName rooted (last :: ns) parent =
          ns := by
        intro rooted ns
        simp [addName, hskip, hlast]
      exact ⟨rest, up, fun n hn => hdown n (by simp [hn]), hback _ _, fun root _ => hback _ _⟩
  · have hproper : Proper part := ⟨hskip.1, hskip.2, hparent, hpart⟩
    exact ⟨part :: down, up, List.forall_mem_cons.2 ⟨hproper, hdown⟩, addName_proper _ _ hproper,
      fun root _ => addName_proper _ _ hproper⟩

theorem foldl_addName_below {parts : List Bytes} (hparts : ∀ part ∈ parts, separator ∉ part)
    {down : List Bytes} (hdown : ∀ n ∈ down, Proper n) (up : Nat) :
    ∃ (down' : List Bytes) (up' : Nat), (∀ n ∈ down', Proper n) ∧
      parts.foldl (addName false) (down ++ List.replicate up parent) = down' ++
        List.replicate up' parent ∧
      ∀ root : List Bytes, (∀ n ∈ root, Proper n) →
        parts.foldl (addName true) (down ++ root.drop up) = down' ++ root.drop up' := by
  induction parts generalizing down up with
  | nil => exact ⟨down, up, hdown, rfl, fun _ _ => rfl⟩
  | cons part parts ih =>
    obtain ⟨hpart, hparts⟩ := List.forall_mem_cons.1 hparts
    obtain ⟨down₁, up₁, hdown₁, hfree, hbelow⟩ := addName_below hpart hdown up
    obtain ⟨down', up', hdown', hfree', hbelow'⟩ := ih hparts hdown₁ up₁
    refine ⟨down', up', hdown', ?_, fun root hroot => ?_⟩
    · rw [List.foldl_cons, hfree, hfree']
    · rw [List.foldl_cons, hbelow root hroot, hbelow' root hroot]

section

variable {p q root : Bytes}

/-- The two parts of a relative path, and the names that it leads to below a directory. -/
theorem names_below (hp : isAbs p = false) :
    (∀ n ∈ descent p, Proper n) ∧ names p = List.replicate (climbs p) parent ++ descent p ∧
      ∀ ns : List Bytes, (∀ n ∈ ns, Proper n) →
        ((Bytes.splitOn separator p).foldl (addName true) ns.reverse).reverse =
          ns.take (ns.length - climbs p) ++ descent p := by
  have hparts : ∀ part ∈ Bytes.splitOn separator p, separator ∉ part := fun part =>
    Bytes.notMem_of_mem_splitOn
  have hstart : ∀ n ∈ ([] : List Bytes), Proper n := by simp
  obtain ⟨down, up, hdown, hfree, hbelow⟩ := foldl_addName_below hparts hstart 0
  have hnames : names p = List.replicate up parent ++ down.reverse := by
    rw [names, hp]
    simpa using congrArg List.reverse hfree
  have hfront : ∀ n ∈ List.replicate up parent, (n == parent) = true := by
    intro n hn
    exact beq_iff_eq.2 (List.eq_of_mem_replicate hn)
  have hrest : down.reverse.takeWhile (· == parent) = [] ∧
      down.reverse.dropWhile (· == parent) = down.reverse := by
    cases hrev : down.reverse with
    | nil => simp
    | cons n ns =>
      have hn : n ≠ parent := (hdown n (List.mem_reverse.1 (hrev ▸ List.mem_cons_self ..))).2.2.1
      simp [hn]
  have hclimbs : climbs p = up := by
    rw [climbs, hnames, List.takeWhile_append_of_pos hfront, hrest.1]
    simp
  have hdescent : descent p = down.reverse := by
    rw [descent, hnames, List.dropWhile_append_of_pos hfront, hrest.2]
  rw [hclimbs, hdescent]
  refine ⟨fun n hn => hdown n (List.mem_reverse.1 hn), hnames, fun ns hns => ?_⟩
  have hfold := hbelow ns.reverse fun n hn => hns n (List.mem_reverse.1 hn)
  rw [List.drop_zero, List.nil_append] at hfold
  rw [hfold, List.reverse_append, List.drop_reverse, List.reverse_reverse]

/-! ## Clean forms -/

theorem foldl_addName_parent (up more : Nat) :
    (List.replicate more parent).foldl (addName false) (List.replicate up parent) =
      List.replicate (up + more) parent := by
  induction more generalizing up with
  | zero => rfl
  | succ more ih =>
    have hskip : parent ≠ [] ∧ parent ≠ here := by decide
    have hstep : addName false (List.replicate up parent) parent =
        List.replicate (up + 1) parent := by
      cases up with
      | zero => rfl
      | succ up => simp [addName, List.replicate_succ, hskip]
    rw [List.replicate_succ, List.foldl_cons, hstep, ih, Nat.add_right_comm, Nat.add_assoc]

/-- A clean relative path is read as it is written. -/
theorem splitOn_clean (hp : isAbs p = false) (hne : names p ≠ []) :
    Bytes.splitOn separator (clean p) = names p ∧ isAbs (clean p) = false := by
  have hname : ∀ n ∈ names p, n ≠ [] ∧ separator ∉ n := by
    obtain ⟨hdescent, hnames, -⟩ := names_below hp
    rw [hnames, List.forall_mem_append]
    refine ⟨fun n hn => ?_, fun n hn => ⟨(hdescent n hn).1, (hdescent n hn).2.2.2⟩⟩
    rw [List.eq_of_mem_replicate hn]
    decide
  have hclean : clean p = Bytes.join [separator] (names p) := by
    rw [clean, hp, ofNames, if_neg Bool.false_ne_true, if_neg (by simpa using hne)]
  have hsplit : Bytes.splitOn separator (clean p) = names p := by
    rw [hclean, Bytes.splitOn_join (fun n hn => (hname n hn).2) hne]
  refine ⟨hsplit, ?_⟩
  -- a slash at the start would make the first name empty
  by_contra habs
  obtain ⟨b, rest, hcons⟩ : ∃ b rest, clean p = b :: rest := by
    cases hclean : clean p with
    | nil =>
      rw [hclean] at habs
      exact absurd rfl habs
    | cons b rest => exact ⟨b, rest, rfl⟩
  have hb : b = separator := by simpa [isAbs, hcons] using habs
  rw [hcons, hb, ← List.nil_append (separator :: rest), Bytes.splitOn_append_sep] at hsplit
  exact (hname [] (hsplit ▸ List.mem_append_left _ (List.mem_singleton_self []))).1 rfl

theorem names_clean (p : Bytes) : names (clean p) = names p ∧ isAbs (clean p) = isAbs p := by
  cases hp : isAbs p with
  | true =>
    rw [clean_of_isAbs hp]
    exact ⟨names_ofNames (proper_names hp), isAbs_ofNames _⟩
  | false =>
    by_cases hne : names p = []
    · rw [clean, hp, hne]
      exact ⟨rfl, rfl⟩
    · obtain ⟨hsplit, habs⟩ := splitOn_clean hp hne
      obtain ⟨hdescent, hnames, -⟩ := names_below hp
      refine ⟨?_, habs⟩
      rw [names, habs, hsplit, hnames, List.foldl_append]
      have hup := foldl_addName_parent 0 (climbs p)
      rw [List.replicate_zero, Nat.zero_add] at hup
      rw [hup, foldl_addName false hdescent, List.reverse_append, List.reverse_replicate,
        List.reverse_reverse]

theorem clean_eq_clean_iff : clean p = clean q ↔ isAbs p = isAbs q ∧ names p = names q := by
  constructor
  · intro h
    rw [← (names_clean p).1, ← (names_clean p).2, h]
    exact ⟨(names_clean q).2, (names_clean q).1⟩
  · rintro ⟨habs, hnames⟩
    rw [clean, clean, habs, hnames]

/-! ## Places below a directory -/

theorem names_resolve_of_isAbs (hp : isAbs p) : names (resolve root p) = names p := by
  rw [resolve, if_pos hp, (names_clean p).1]

/-- A relative path leads out of some directories of the root, if there are so many, and down from
there. -/
theorem names_resolve (hroot : isAbs root) (hp : isAbs p = false) :
    names (resolve root p) = (names root).take ((names root).length - climbs p) ++ descent p := by
  have hup : (Bytes.splitOn separator root).foldl (addName true) [] = (names root).reverse := by
    rw [names, hroot, List.reverse_reverse]
  rw [resolve_relative hroot hp, (names_clean _).1]
  split_ifs with hempty
  · have hclimbs : climbs [] = 0 := rfl
    have hdescent : descent [] = [] := rfl
    rw [hempty, hclimbs, hdescent, Nat.sub_zero, List.take_length, List.append_nil]
  · have habs : isAbs (root ++ separator :: p) = true := by
      cases root with
      | nil => cases hroot
      | cons b rest => exact hroot
    rw [← (names_below hp).2.2 _ (proper_names hroot), ← hup, names, habs, Bytes.splitOn_append_sep,
      List.foldl_append]

/-- `p` is another spelling of the place that the relative path `q` has below `root`: an absolute
one, or one with `climbs q < climbs p` that comes down again through the names of `root` that `q`
does not leave. -/
def Rejoins (root : List Bytes) (p q : Bytes) : Prop :=
  isAbs q = false ∧
    (isAbs p = true ∧ names p = root.take (root.length - climbs q) ++ descent q ∨
      isAbs p = false ∧ climbs q < climbs p ∧
        descent p = (root.take (root.length - climbs q)).drop (root.length - climbs p) ++ descent q)

/-- `p` and `q` lead from `root` to one place, which `clean p` and `clean q` do not show. -/
def Disguised (root : List Bytes) (p q : Bytes) : Prop := Rejoins root p q ∨ Rejoins root q p

instance (root : List Bytes) (p q : Bytes) : Decidable (Rejoins root p q) :=
  inferInstanceAs (Decidable (_ ∧ (_ ∨ _)))

instance (root : List Bytes) (p q : Bytes) : Decidable (Disguised root p q) :=
  inferInstanceAs (Decidable (_ ∨ _))

/-- A disguise is absolute where the other path is not, or leaves more directories. -/
theorem not_disguised {ns : List Bytes} (habs : isAbs p = isAbs q) (hup : climbs p = climbs q) :
    ¬ Disguised ns p q := by
  rintro (⟨hq, ⟨hp, -⟩ | ⟨-, hlt, -⟩⟩ | ⟨hp, ⟨hq, -⟩ | ⟨-, hlt, -⟩⟩)
  · rw [habs, hq] at hp
    cases hp
  · omega
  · rw [habs, hq] at hp
    cases hp
  · omega

theorem take_append_eq_iff {α : Type} {l xs ys : List α} {i j : Nat} (h : j ≤ i) :
    l.take i ++ xs = l.take j ++ ys ↔ ys = (l.take i).drop j ++ xs := by
  have hsplit : l.take i = l.take j ++ (l.take i).drop j := by
    have hdrop := List.take_append_drop j (l.take i)
    rw [List.take_take, Nat.min_eq_left h] at hdrop
    exact hdrop.symm
  constructor
  · intro heq
    rw [hsplit, List.append_assoc] at heq
    exact (List.append_cancel_left heq).symm
  · rintro rfl
    rw [← List.append_assoc, ← hsplit]

/-- Below an absolute directory, two paths lead to one place if and only if they have the same clean
form or one is a disguise of the other. -/
theorem resolve_eq_resolve_iff (hroot : isAbs root) :
    resolve root p = resolve root q ↔ clean p = clean q ∨ Disguised (names root) p q := by
  have hplace : resolve root p = resolve root q ↔
      names (resolve root p) = names (resolve root q) := by
    refine ⟨fun h => by rw [h], fun h => ?_⟩
    rw [(resolve_eq hroot p).1, (resolve_eq hroot q).1, h]
  rw [hplace, clean_eq_clean_iff]
  cases hp : isAbs p with
  | true =>
    rw [names_resolve_of_isAbs hp]
    cases hq : isAbs q with
    | true => simp [names_resolve_of_isAbs hq, Disguised, Rejoins, hp, hq]
    | false => simp [names_resolve hroot hq, Disguised, Rejoins, hp, hq]
  | false =>
    rw [names_resolve hroot hp]
    cases hq : isAbs q with
    | true => simp [names_resolve_of_isAbs hq, Disguised, Rejoins, hp, hq, eq_comm]
    | false =>
      have hnames : names p = names q ↔ climbs p = climbs q ∧ descent p = descent q := by
        refine ⟨fun h => by simp [climbs, descent, h], fun h => ?_⟩
        rw [(names_below hp).2.1, (names_below hq).2.1, h.1, h.2]
      rw [names_resolve hroot hq, hnames]
      obtain hlt | heq | hgt := Nat.lt_trichotomy (climbs p) (climbs q)
      · rw [take_append_eq_iff (Nat.sub_le_sub_left hlt.le _)]
        simp [Disguised, Rejoins, hp, hq, hlt, hlt.ne, Nat.lt_asymm hlt]
      · rw [heq, List.append_cancel_left_eq]
        simp [Disguised, Rejoins, hp, hq, heq]
      · rw [eq_comm, take_append_eq_iff (Nat.sub_le_sub_left hgt.le _)]
        simp [Disguised, Rejoins, hp, hq, hgt, hgt.ne', Nat.lt_asymm hgt]

end

end AccessLayer.Path
