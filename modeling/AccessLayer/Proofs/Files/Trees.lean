import AccessLayer.Files.Tree
import AccessLayer.Proofs.Files.Paths
import AccessLayer.Proofs.Text.Order
import Mathlib.Data.List.Induction

/-!
# Well-formed file trees

A file system gives each place at most one entry and puts it in a directory. Trees with this
property keep it under every operation, and what an operation does is said by the entry of each
place.

* `Tree.get?_set`, `Tree.get?_erase`: one place changes and the others do not.
* `Tree.readFile_cases`, `Tree.readDir_cases`, `Tree.notFound_of_open`: what is read at a place.
* `Tree.makeDirsFrom_spec`, `Tree.writeFile_ok`, `Tree.remove_ok`: the effect of the operations.
-/

namespace AccessLayer.Tree

open AccessLayer.Path (ofNames)

variable {n content : Bytes} {e : Entry} {t' : Tree}

/-- The content of a regular file. -/
def fileAt? (t : Tree) (x : Place) : Option Bytes :=
  match t.get? x with
  | some (.file content) => some content
  | _ => none

/-- A tree as a file system holds one. -/
structure WellFormed (t : Tree) : Prop where
  nodup : (t.entries.map (·.1)).Nodup
  proper : ∀ x ∈ t.entries, x.1 ≠ [] ∧ ∀ n ∈ x.1, Path.Proper n
  parent : ∀ x ∈ t.entries, t.get? x.1.dropLast = some .dir

instance (t : Tree) : Decidable t.WellFormed :=
  decidable_of_iff ((t.entries.map (·.1)).Nodup ∧
      (∀ x ∈ t.entries, x.1 ≠ [] ∧ ∀ n ∈ x.1, Path.Proper n) ∧
      ∀ x ∈ t.entries, t.get? x.1.dropLast = some .dir)
    ⟨fun h => ⟨h.1, h.2.1, h.2.2⟩, fun h => ⟨h.nodup, h.proper, h.parent⟩⟩

variable {t : Tree} {x y : Place}

theorem get?_nil (t : Tree) : t.get? [] = some .dir := rfl

theorem get?_of_ne_nil (t : Tree) (hx : x ≠ []) : t.get? x = t.entries.lookup x := by
  simp [get?, hx]

theorem fileAt?_eq_some : t.fileAt? x = some content ↔ t.get? x = some (.file content) := by
  unfold fileAt?
  split <;> simp_all

/-! ## One place -/

theorem lookup_cons_ite (k : Place) (v : Entry) (l : List (Place × Entry)) (y : Place) :
    ((k, v) :: l).lookup y = if y = k then some v else l.lookup y := by
  rw [List.lookup_cons]
  by_cases h : y = k
  · simp [h]
  · simp [h, beq_false_of_ne h]

theorem lookup_map_set (l : List (Place × Entry)) (x : Place) (e : Entry) (y : Place) :
    (l.map fun z => if z.1 == x then (x, e) else z).lookup y =
      if y = x ∧ l.any (·.1 == x) then some e else l.lookup y := by
  induction l with
  | nil => simp
  | cons z l ih =>
    obtain ⟨k, v⟩ := z
    by_cases hk : k = x
    · simp only [List.map_cons, hk, beq_self_eq_true, if_true, lookup_cons_ite, List.any_cons,
        Bool.true_or, and_true, ih]
      split_ifs with hy <;> simp_all
    · simp only [List.map_cons, beq_false_of_ne hk, Bool.false_eq_true, if_false, lookup_cons_ite,
        List.any_cons, Bool.false_or, ih]
      by_cases hy : y = k
      · have hyx : y ≠ x := fun h => hk (hy.symm.trans h)
        simp [hy, hk]
      · simp [hy]

theorem get?_set (t : Tree) (hx : x ≠ []) (e : Entry) (y : Place) :
    (t.set x e).get? y = if y = x then some e else t.get? y := by
  by_cases hy : y = []
  · subst hy
    rw [if_neg (Ne.symm hx)]
    rfl
  rw [get?_of_ne_nil _ hy, get?_of_ne_nil _ hy, set]
  split_ifs with hany hyx hyx
  · rw [lookup_map_set, if_pos ⟨hyx, hany⟩]
  · rw [lookup_map_set, if_neg fun h => hyx h.1]
  · have hnone : t.entries.lookup x = none := by
      rw [List.lookup_eq_none_iff]
      intro z hz
      rw [List.any_eq_true] at hany
      exact bne_iff_ne.2 fun h => hany ⟨z, hz, by simp [h]⟩
    simp [List.lookup_append, hyx, hnone]
  · simp [List.lookup_append, List.lookup_cons, beq_false_of_ne hyx]

theorem lookup_filter_ne (l : List (Place × Entry)) (x y : Place) :
    (l.filter (·.1 != x)).lookup y = if y = x then none else l.lookup y := by
  induction l with
  | nil => simp
  | cons z l ih =>
    obtain ⟨k, v⟩ := z
    by_cases hk : k = x
    · rw [List.filter_cons_of_neg (by simp [hk]), ih, lookup_cons_ite, hk]
      split_ifs <;> rfl
    · rw [List.filter_cons_of_pos (by simpa using hk), lookup_cons_ite, lookup_cons_ite, ih]
      by_cases hy : y = k
      · simp [hy, hk]
      · simp [hy]

theorem get?_erase (t : Tree) (hx : x ≠ []) (y : Place) :
    (t.erase x).get? y = if y = x then none else t.get? y := by
  by_cases hy : y = []
  · subst hy
    rw [if_neg (Ne.symm hx)]
    rfl
  rw [get?_of_ne_nil _ hy, get?_of_ne_nil _ hy, erase, lookup_filter_ne]

theorem lookup_eq_some_of_nodup {l : List (Place × Entry)} (h : (l.map (·.1)).Nodup) {x : Place} :
    l.lookup x = some e ↔ (x, e) ∈ l := by
  induction l with
  | nil => simp
  | cons z l ih =>
    obtain ⟨k, v⟩ := z
    rw [List.map_cons, List.nodup_cons] at h
    rw [lookup_cons_ite, List.mem_cons, Prod.mk.injEq]
    split_ifs with hk
    · subst hk
      have hnot : (x, e) ∉ l := fun hmem => h.1 (List.mem_map_of_mem (f := (·.1)) hmem)
      simp [hnot, eq_comm]
    · simp [hk, ih h.2]

namespace WellFormed

variable {e : Entry} (h : t.WellFormed)
include h

theorem get?_eq_some (hx : x ≠ []) : t.get? x = some e ↔ (x, e) ∈ t.entries := by
  rw [get?_of_ne_nil t hx, lookup_eq_some_of_nodup h.nodup]

theorem parent_get? (hx : t.get? (x ++ [n]) = some e) : t.get? x = some .dir := by
  have hmem := (h.get?_eq_some (by simp)).1 hx
  simpa using h.parent _ hmem

/-- Every directory on the way to an entry is there. -/
theorem get?_above (hy : t.get? y = some e) (hxy : x <+: y) (hne : x ≠ y) :
    t.get? x = some .dir := by
  obtain ⟨rest, rfl⟩ := hxy
  induction rest using List.reverseRecOn generalizing e with
  | nil => simp at hne
  | append_singleton rest n ih =>
    rw [← List.append_assoc] at hy
    have hup := h.parent_get? hy
    by_cases hrest : rest = []
    · simpa [hrest] using hup
    · exact ih hup (by simp [hrest])

/-- Nothing is below a place without a directory. -/
theorem get?_below (hx : t.get? x ≠ some .dir) (hxy : x <+: y) (hne : x ≠ y) :
    t.get? y = none := by
  rw [Option.eq_none_iff_forall_ne_some]
  exact fun e hy => hx (h.get?_above hy hxy hne)

theorem proper_of_get? (hx : t.get? x = some e) : ∀ n ∈ x, Path.Proper n := by
  by_cases hnil : x = []
  · simp [hnil]
  · exact (h.proper _ ((h.get?_eq_some hnil).1 hx)).2

/-- An entry is put where no entry loses its directory. -/
theorem set (hx : x ≠ []) (hproper : ∀ n ∈ x, Path.Proper n) (hup : t.get? x.dropLast = some .dir)
    (he : e = .dir ∨ t.get? x ≠ some .dir) : (t.set x e).WellFormed := by
  have hkey : ∀ z ∈ (t.set x e).entries, z.1 = x ∨ z ∈ t.entries := by
    intro z hz
    unfold Tree.set at hz
    split_ifs at hz with hany
    · obtain ⟨w, hw, rfl⟩ := List.mem_map.1 hz
      split_ifs with hwx
      · exact .inl rfl
      · exact .inr hw
    · rw [List.mem_append, List.mem_singleton] at hz
      obtain hz | rfl := hz
      · exact .inr hz
      · exact .inl rfl
  have hdir : ∀ z : Place, t.get? z = some .dir → (z = x → e = .dir) →
      (t.set x e).get? z = some .dir := by
    intro z hz hzx
    rw [get?_set t hx]
    split_ifs with hzeq
    · rw [hzx hzeq]
    · exact hz
  refine ⟨?_, fun z hz => ?_, fun z hz => ?_⟩
  · unfold Tree.set
    split_ifs with hany
    · have hsame : (t.entries.map fun z => if z.1 == x then (x, e)
          else z).map (·.1) = t.entries.map (·.1) := by
        rw [List.map_map]
        refine List.map_congr_left fun z _ => ?_
        by_cases hz : z.1 = x <;> simp [hz]
      rw [hsame]
      exact h.nodup
    · rw [List.map_append, List.map_singleton, List.nodup_append]
      refine ⟨h.nodup, List.nodup_singleton _, ?_⟩
      intro a ha b hb hab
      obtain ⟨z, hz, rfl⟩ := List.mem_map.1 ha
      rw [List.mem_singleton] at hb
      exact hany (List.any_eq_true.2 ⟨z, hz, by simp [hab, hb]⟩)
  · obtain hz | hz := hkey z hz
    · rw [hz]
      exact ⟨hx, hproper⟩
    · exact h.proper z hz
  · obtain hz | hz := hkey z hz
    · rw [hz]
      refine hdir _ hup fun heq => ?_
      have hlen := congrArg List.length heq
      rw [List.length_dropLast] at hlen
      have := List.length_pos_iff.2 hx
      omega
    · have hzdir := h.parent z hz
      exact hdir _ hzdir fun heq => he.resolve_right fun hnot => hnot (heq ▸ hzdir)

/-- A place is cleared when nothing is below it. -/
theorem erase (hx : x ≠ []) (hbelow : ∀ n, t.get? (x ++ [n]) = none) :
    (t.erase x).WellFormed := by
  refine ⟨(h.nodup.sublist (List.filter_sublist.map _)), fun z hz => ?_, fun z hz => ?_⟩
  · exact h.proper z (List.mem_of_mem_filter hz)
  · have hz := List.mem_of_mem_filter hz
    have hne := (h.proper z hz).1
    rw [get?_erase t hx, if_neg, h.parent z hz]
    intro heq
    have hnone := hbelow (z.1.getLast hne)
    rw [← heq, List.dropLast_append_getLast, (h.get?_eq_some hne).2 hz] at hnone
    cases hnone

end WellFormed

/-! ## Children -/

theorem childName?_eq_some : childName? x y = some n ↔ y = x ++ [n] := by
  unfold childName?
  constructor
  · intro h
    split_ifs at h with hpre
    obtain ⟨rest, rfl⟩ := List.isPrefixOf_iff_prefix.1 hpre
    rw [List.drop_left] at h
    cases rest with
    | nil => cases h
    | cons m rest =>
      cases rest with
      | nil =>
        cases h
        rfl
      | cons k rest => cases h
  · rintro rfl
    simp

theorem WellFormed.mem_children (h : t.WellFormed) :
    (n, e) ∈ t.children x ↔ t.get? (x ++ [n]) = some e := by
  rw [children, Bytes.mem_sortBy, List.mem_filterMap, h.get?_eq_some (by simp)]
  constructor
  · rintro ⟨⟨y, e'⟩, hmem, hname⟩
    obtain ⟨m, hm, heq⟩ := Option.map_eq_some_iff.1 hname
    cases heq
    rwa [← childName?_eq_some.1 hm]
  · intro hmem
    exact ⟨_, hmem, by rw [childName?_eq_some.2 rfl]; rfl⟩

theorem WellFormed.nodup_children (h : t.WellFormed) (x : Place) :
    ((t.children x).map (·.1)).Nodup := by
  have hperm : ((t.children x).map (·.1)).Perm (t.entries.filterMap fun z => childName? x z.1) := by
    have hmap : (t.entries.filterMap fun z => (childName? x z.1).map fun name =>
        (name, z.2)).map (·.1) =
        t.entries.filterMap fun z => childName? x z.1 := by
      rw [List.map_filterMap]
      congr 1
      funext z
      cases childName? x z.1 <;> rfl
    rw [← hmap]
    exact (Bytes.perm_sortBy _ _).map _
  rw [hperm.nodup_iff]
  have hkeys : (t.entries.filterMap fun z => childName? x z.1) =
      (t.entries.map (·.1)).filterMap (childName? x) := by
    rw [List.filterMap_map]
    rfl
  rw [hkeys]
  refine h.nodup.filterMap fun a b n ha hb => ?_
  rw [Option.mem_def, childName?_eq_some] at ha hb
  rw [ha, hb]

/-! ## Places of paths -/

/-- The places that a path can name. -/
def Nameable (x : Place) : Prop := (ofNames true x).contains 0 = false ∧ ∀ n ∈ x, n.length ≤ 255

instance (x : Place) : Decidable (Nameable x) :=
  inferInstanceAs (Decidable ((ofNames true x).contains 0 = false ∧ ∀ n ∈ x, n.length ≤ 255))

/-- One step down: into a directory, or to one of the faults. -/
theorem walk_cons (t : Tree) (y : Place) (hn : Path.Proper n) (x : Place) :
    (n.length ≤ 255 ∧ t.get? y = some .dir ∧ t.walk y (n :: x) = t.walk (y ++ [n]) x) ∨
      (t.get? y = none ∧ t.walk y (n :: x) = .error .notFound) ∨
      ¬ (n.length ≤ 255 ∧ t.get? y = some .dir) ∧ ∃ f, f ≠ .notFound ∧
        t.walk y (n :: x) = .error f := by
  rw [walk, if_neg (by simp [hn.1, hn.2.1])]
  by_cases hlen : n.length > 255
  · exact .inr (.inr ⟨fun h => by omega, .nameTooLong, by decide, if_pos hlen⟩)
  · rw [if_neg hlen]
    cases hy : t.get? y with
    | none => exact .inr (.inl ⟨rfl, rfl⟩)
    | some e =>
      cases e with
      | file content => exact .inr (.inr ⟨by simp, .notDirectory, by decide, rfl⟩)
      | dir => exact .inl ⟨by omega, rfl, if_neg (by simp [hn.2.2.1])⟩

/-- Walking down needs a directory at every place but the last. -/
theorem walk_eq_ok_iff (t : Tree) (hx : ∀ n ∈ x, Path.Proper n) (y z : Place) :
    t.walk y x = .ok z ↔ z = y ++ x ∧ (∀ n ∈ x, n.length ≤ 255) ∧
      ∀ w, w <+: x → w ≠ x → t.get? (y ++ w) = some .dir := by
  induction x generalizing y with
  | nil =>
    rw [walk, Except.ok.injEq]
    simp only [List.append_nil, List.not_mem_nil, false_imp_iff, implies_true, List.prefix_nil,
      true_and]
    exact ⟨fun h => ⟨h.symm, fun w h hne => absurd h hne⟩, fun h => h.1.symm⟩
  | cons n x ih =>
    obtain ⟨hn, hx⟩ := List.forall_mem_cons.1 hx
    have hstep : t.walk y (n :: x) = .ok z ↔ n.length ≤ 255 ∧ t.get? y = some .dir ∧
        t.walk (y ++ [n]) x = .ok z := by
      obtain ⟨hlen, hy, hw⟩ | ⟨hy, hw⟩ | ⟨hnot, f, -, hw⟩ := walk_cons t y hn x
      · simp [hlen, hy, hw]
      · simp [hy, hw]
      · rw [hw, ← and_assoc]
        exact ⟨nofun, fun h => absurd h.1 hnot⟩
    rw [hstep, ih hx, List.forall_mem_cons]
    constructor
    · rintro ⟨hlen, hy, rfl, hlens, hdirs⟩
      refine ⟨by simp, ⟨hlen, hlens⟩, fun w hw hne => ?_⟩
      cases w with
      | nil => simpa using hy
      | cons m w =>
        obtain ⟨rfl, hrest⟩ := List.cons_prefix_cons.1 hw
        simpa using hdirs w hrest fun heq => hne (by rw [heq])
    · rintro ⟨rfl, ⟨hlen, hlens⟩, hdirs⟩
      refine ⟨hlen, by simpa using hdirs [] (List.nil_prefix) (by simp), by
        simp, hlens, fun w hw hne => ?_⟩
      simpa using hdirs (n :: w) (List.cons_prefix_cons.2 ⟨rfl, hw⟩) (by simpa using hne)

/-- A walk that finds nothing has met, after directories only, a place without an entry before its
end. -/
theorem walk_notFound (hx : ∀ n ∈ x, Path.Proper n) (h : t.walk y x = .error .notFound) :
    ∃ w, w <+: x ∧ w ≠ x ∧ t.get? (y ++ w) = none ∧ ∀ v, v <+: w → v ≠ w →
      t.get? (y ++ v) = some .dir := by
  induction x generalizing y with
  | nil =>
    rw [walk] at h
    cases h
  | cons n x ih =>
    obtain ⟨hn, hx⟩ := List.forall_mem_cons.1 hx
    obtain ⟨-, hy, hw⟩ | ⟨hy, -⟩ | ⟨-, f, hf, hw⟩ := walk_cons t y hn x
    · obtain ⟨w, hwx, hne, hnone, hdirs⟩ := ih hx (hw ▸ h)
      refine ⟨n :: w, List.cons_prefix_cons.2 ⟨rfl, hwx⟩, by simpa using hne, by
        simpa using hnone, ?_⟩
      intro v hv hne
      cases v with
      | nil => simpa using hy
      | cons m v =>
        obtain ⟨rfl, hvw⟩ := List.cons_prefix_cons.1 hv
        simpa using hdirs v hvw fun heq => hne (by rw [heq])
    · exact ⟨[], List.nil_prefix, by simp, by
        simpa using hy, fun v hv hne => absurd (List.prefix_nil.1 hv) hne⟩
    · rw [hw] at h
      cases h
      exact absurd rfl hf

/-- No file is in the way to a place. -/
def Open (t : Tree) (x : Place) : Prop := ∀ w, w <+: x → w ≠ x → t.fileAt? w = none

theorem open_of_above (h : ∀ w, w <+: x → w ≠ x → t.get? w = some .dir) : t.Open x :=
  fun w hw hne => by rw [fileAt?, h w hw hne]

theorem WellFormed.open_of_get? (h : t.WellFormed) (hx : t.get? x = some e) : t.Open x :=
  open_of_above fun _ hw hne => h.get?_above hx hw hne

/-- Where no file is in the way, a walk gets to its end or finds nothing. -/
theorem walk_open (hx : ∀ n ∈ x, Path.Proper n) (hlen : ∀ n ∈ x, n.length ≤ 255)
    (hopen : ∀ w, w <+: x → w ≠ x → t.fileAt? (y ++ w) = none) :
    t.walk y x = .ok (y ++ x) ∨ t.walk y x = .error .notFound := by
  induction x generalizing y with
  | nil =>
    rw [List.append_nil]
    exact .inl rfl
  | cons n x ih =>
    obtain ⟨hn, hx⟩ := List.forall_mem_cons.1 hx
    obtain ⟨hlen, hlens⟩ := List.forall_mem_cons.1 hlen
    have hy : t.fileAt? y = none := by simpa using hopen [] List.nil_prefix (by simp)
    have hrest := ih (y := y ++ [n]) hx hlens fun w hw hne => by
      simpa using hopen (n :: w) (List.cons_prefix_cons.2 ⟨rfl, hw⟩) (by simpa using hne)
    rw [walk, if_neg (by simp [hn.1, hn.2.1]), if_neg (by omega)]
    cases hget : t.get? y with
    | none => exact .inr rfl
    | some e =>
      cases e with
      | file content => simp [fileAt?, hget] at hy
      | dir => simpa [hn.2.2.1] using hrest

theorem locate_ofNames (t : Tree) (cwd : Place) (hx : ∀ n ∈ x, Path.Proper n) :
    t.locate cwd (ofNames true x) =
      if (ofNames true x).contains 0 then .error .invalid else t.walk [] x := by
  have hwalk : ∀ ns, t.walk [] ([] :: ns) = t.walk [] ns := fun ns => rfl
  rw [locate, Path.isAbs_ofNames, Path.splitOn_ofNames hx, if_pos rfl, hwalk,
    if_neg (by simp [ofNames])]
  split_ifs with hzero hnil
  · rfl
  · rw [hnil, hwalk]
  · rfl

/-- The path of a place leads to it when every place above is a directory. -/
theorem locate_eq_ok_iff (t : Tree) (cwd : Place) (hx : ∀ n ∈ x, Path.Proper n) (z : Place) :
    t.locate cwd (ofNames true x) = .ok z ↔
      z = x ∧ Nameable x ∧ ∀ w, w <+: x → w ≠ x → t.get? w = some .dir := by
  rw [locate_ofNames t cwd hx, Nameable]
  cases hzero : (ofNames true x).contains 0 with
  | true => simp
  | false =>
    rw [if_neg (by decide), walk_eq_ok_iff t hx]
    simp

theorem WellFormed.locate_notFound (h : t.WellFormed) {cwd : Place} (hx : ∀ n ∈ x, Path.Proper n)
    (hloc : t.locate cwd (ofNames true x) = .error .notFound) :
    t.get? x = none ∧ t.Open x := by
  rw [locate_ofNames t cwd hx] at hloc
  split_ifs at hloc with hzero
  · cases hloc
  · obtain ⟨w, hw, hne, hnone, hdirs⟩ := walk_notFound hx hloc
    rw [List.nil_append] at hnone
    have hbelow : ∀ v, w <+: v → t.get? v = none := by
      intro v hwv
      by_cases heq : w = v
      · exact heq ▸ hnone
      · exact h.get?_below (by simp [hnone]) hwv heq
    refine ⟨hbelow x hw, fun v hv _ => ?_⟩
    obtain hvw | hwv := List.prefix_or_prefix_of_prefix hv hw
    · by_cases heq : v = w
      · rw [fileAt?, heq, hnone]
      · rw [fileAt?, ← List.nil_append v, hdirs v hvw heq]
    · rw [fileAt?, hbelow v hwv]

/-- Whatever stands at a place that can be named is found there. -/
theorem WellFormed.locate_of_get? (h : t.WellFormed) (cwd : Place) (hx : t.get? x = some e)
    (hname : Nameable x) : t.locate cwd (ofNames true x) = .ok x :=
  (locate_eq_ok_iff t cwd (h.proper_of_get? hx) x).2 ⟨rfl, hname, fun _ hw hne =>
    h.get?_above hx hw hne⟩

/-! ## Operations -/

/-- A file is written where its path leads, unless there is a directory. -/
theorem writeFile_eq_ok {cwd : Place} {path : Bytes} {u : Tree}
    (h : t.writeFile cwd path content = .ok u) :
    ∃ z, t.locate cwd path = .ok z ∧ t.get? z ≠ some .dir ∧ u = t.set z (.file content) := by
  unfold writeFile at h
  cases hloc : t.locate cwd path with
  | error f =>
    rw [hloc] at h
    cases h
  | ok z =>
    simp only [hloc] at h
    refine ⟨z, rfl, ?_⟩
    split at h
    · cases h
    · next hget =>
      cases h
      exact ⟨by simp [hget], rfl⟩
    · next hget _ =>
      cases h
      exact ⟨by simp [hget], rfl⟩
    · cases h
    · cases h

section Operations

variable (ht : t.WellFormed) (cwd : Place) (hx : ∀ n ∈ x, Path.Proper n)
include ht hx

theorem locate_cases :
    (t.locate cwd (ofNames true x) = .ok x ∧ Nameable x ∧ ∀ w, w <+: x → w ≠ x →
      t.get? w = some .dir) ∨
      ∃ f, t.locate cwd (ofNames true x) = .error f ∧
        (f = .notFound → t.get? x = none ∧ t.Open x) := by
  cases hloc : t.locate cwd (ofNames true x) with
  | error f => exact .inr ⟨f, rfl, fun hf => ht.locate_notFound hx (hf ▸ hloc)⟩
  | ok z =>
    obtain ⟨rfl, hrest⟩ := (locate_eq_ok_iff t cwd hx z).1 hloc
    exact .inl ⟨rfl, hrest⟩

theorem readFile_cases :
    (∃ content, t.readFile cwd (ofNames true x) = .ok content ∧ t.get? x = some (.file content) ∧
      Nameable x) ∨
      ∃ e, t.readFile cwd (ofNames true x) = .error e ∧
        (e.fault = .notFound → t.get? x = none ∧ t.Open x) := by
  obtain ⟨hloc, hname, habove⟩ | ⟨f, hloc, hf⟩ := locate_cases ht cwd hx
  · cases hget : t.get? x with
    | none =>
      refine .inr ⟨⟨"open", ofNames true x, .notFound⟩, by simp only [readFile, hloc,
        hget], fun _ => ⟨rfl, ?_⟩⟩
      exact open_of_above habove
    | some entry =>
      cases entry with
      | file content => exact .inl ⟨content, by simp only [readFile, hloc, hget], rfl, hname⟩
      | dir =>
        exact .inr ⟨⟨"read", ofNames true x, .isDirectory⟩, by simp only [readFile, hloc,
        hget], nofun⟩
  · exact .inr ⟨⟨"open", ofNames true x, f⟩, by simp only [readFile, hloc], hf⟩

theorem readDir_cases :
    (t.readDir cwd (ofNames true x) = .ok (t.children x) ∧ t.get? x = some .dir ∧ Nameable x) ∨
      ∃ e, t.readDir cwd (ofNames true x) = .error e ∧
        (e.fault = .notFound → t.get? x = none ∧ t.Open x) := by
  obtain ⟨hloc, hname, habove⟩ | ⟨f, hloc, hf⟩ := locate_cases ht cwd hx
  · cases hget : t.get? x with
    | none =>
      refine .inr ⟨⟨"open", ofNames true x, .notFound⟩, by simp only [readDir, hloc,
        hget], fun _ => ⟨rfl, ?_⟩⟩
      exact open_of_above habove
    | some entry =>
      cases entry with
      | file content =>
        exact .inr ⟨⟨"open", ofNames true x, .notDirectory⟩, by simp only [readDir, hloc,
        hget], nofun⟩
      | dir => exact .inl ⟨by simp only [readDir, hloc, hget], rfl, hname⟩
  · exact .inr ⟨⟨"open", ofNames true x, f⟩, by simp only [readDir, hloc], hf⟩

omit hx in
theorem readFile_of_get? (hget : t.get? x = some (.file content)) (hname : Nameable x) :
    t.readFile cwd (ofNames true x) = .ok content := by
  simp only [readFile, ht.locate_of_get? cwd hget hname, hget]

omit hx in
theorem readDir_of_get? (hget : t.get? x = some .dir) (hname : Nameable x) :
    t.readDir cwd (ofNames true x) = .ok (t.children x) := by
  simp only [readDir, ht.locate_of_get? cwd hget hname, hget]

omit ht in
/-- Where no file is in the way, a free place is not found. -/
theorem notFound_of_open (hget : t.get? x = none) (hname : Nameable x) (hopen : t.Open x) :
    (∃ e, t.readFile cwd (ofNames true x) = .error e ∧ e.fault = .notFound) ∧
      ∃ e, t.readDir cwd (ofNames true x) = .error e ∧ e.fault = .notFound := by
  have hloc : t.locate cwd (ofNames true x) = .ok x ∨
      t.locate cwd (ofNames true x) = .error .notFound := by
    rw [locate_ofNames t cwd hx, hname.1, if_neg Bool.false_ne_true]
    simpa using walk_open hx hname.2 (y := []) hopen
  obtain hloc | hloc := hloc
  · simp only [readFile, readDir, hloc, hget]
    exact ⟨⟨_, rfl, rfl⟩, _, rfl, rfl⟩
  · simp only [readFile, readDir, hloc]
    exact ⟨⟨_, rfl, rfl⟩, _, rfl, rfl⟩

theorem stat_isSome :
    (t.stat cwd (ofNames true x)).toOption.isSome ↔ Nameable x ∧ ∃ e, t.get? x = some e := by
  obtain ⟨hloc, hname, -⟩ | ⟨f, hloc, -⟩ := locate_cases ht cwd hx
  · cases hget : t.get? x with
    | none => simp [stat, hloc, hget, Except.toOption]
    | some e => simp [stat, hloc, hget, hname, Except.toOption]
  · have hnot : ¬ (Nameable x ∧ ∃ e, t.get? x = some e) := by
      rintro ⟨hname, e, hget⟩
      rw [ht.locate_of_get? cwd hget hname] at hloc
      cases hloc
    simpa [stat, hloc, Except.toOption] using hnot

theorem writeFile_ok (h : t.writeFile cwd (ofNames true x) content = .ok t') :
    t.get? x ≠ some .dir ∧ Nameable x ∧ t' = t.set x (.file content) ∧ t'.WellFormed := by
  obtain ⟨z, hloc, hfile, hset⟩ := writeFile_eq_ok h
  obtain ⟨rfl, hname, habove⟩ := (locate_eq_ok_iff t cwd hx z).1 hloc
  have hne : z ≠ [] := by
    rintro rfl
    exact hfile (get?_nil t)
  have hup : t.get? z.dropLast = some .dir := by
    refine habove _ (List.dropLast_prefix z) fun heq => ?_
    have hlen := congrArg List.length heq
    rw [List.length_dropLast] at hlen
    have := List.length_pos_iff.2 hne
    omega
  exact ⟨hfile, hname, hset, hset ▸ ht.set hne hx hup (.inr hfile)⟩

/-- Only a place with nothing below it is cleared. -/
theorem remove_ok (hne : x ≠ []) (h : t.remove cwd (ofNames true x) = .ok t') :
    t' = t.erase x ∧ t'.WellFormed ∧ ∀ n, t.get? (x ++ [n]) = none := by
  obtain ⟨hloc, -, -⟩ | ⟨f, hloc, -⟩ := locate_cases ht cwd hx
  · have hcleared : t' = t.erase x ∧ ∀ n, t.get? (x ++ [n]) = none := by
      cases hget : t.get? x with
      | none =>
        simp only [remove, hloc, hget] at h
        cases h
      | some entry =>
        cases entry with
        | file content =>
          simp only [remove, hloc, hget] at h
          cases h
          exact ⟨rfl, fun n => ht.get?_below (by simp [hget]) (List.prefix_append _ _) (by simp)⟩
        | dir =>
          simp only [remove, hloc, hget] at h
          split_ifs at h with hempty
          · cases h
            refine ⟨rfl, fun n => ?_⟩
            rw [Option.eq_none_iff_forall_ne_some]
            intro e he
            rw [← ht.mem_children, List.isEmpty_iff.1 hempty] at he
            cases he
    exact ⟨hcleared.1, hcleared.1 ▸ ht.erase hne hcleared.2, hcleared.2⟩
  · simp only [remove, hloc] at h
    cases h

omit hx in
theorem remove_emptyDir (hdir : t.get? x = some .dir) (hname : Nameable x)
    (hbelow : ∀ n, t.get? (x ++ [n]) = none) : t.remove cwd (ofNames true x) = .ok (t.erase x) := by
  have hempty : (t.children x).isEmpty = true := by
    rw [List.isEmpty_iff, List.eq_nil_iff_forall_not_mem]
    rintro ⟨n, e⟩ he
    rw [ht.mem_children, hbelow] at he
    cases he
  simp only [remove, ht.locate_of_get? cwd hdir hname, hdir, hempty, if_true]

end Operations

/-! ## Making directories -/

/-- Directories were added on the way to a place, and nothing else has changed. -/
def Grown (x : Place) (t t' : Tree) : Prop :=
  ∀ y, t'.get? y = t.get? y ∨ y <+: x ∧ t.get? y = none ∧ t'.get? y = some .dir

namespace Grown

variable {u v : Tree}

theorem refl (x : Place) (t : Tree) : Grown x t t := fun _ => .inl rfl

theorem trans (h : Grown x t u) (h' : Grown x u v) : Grown x t v := by
  intro y
  obtain heq | ⟨hy, hnone, hdir⟩ := h y
  · rw [← heq]
    exact h' y
  · obtain heq' | ⟨-, hnone', -⟩ := h' y
    · exact .inr ⟨hy, hnone, heq'.trans hdir⟩
    · rw [hdir] at hnone'
      cases hnone'

theorem mono (h : Grown x t u) (hxy : x <+: y) : Grown y t u :=
  fun z => (h z).imp_right fun hz => ⟨hz.1.trans hxy, hz.2⟩

theorem set (t : Tree) (hnone : t.get? (x ++ [n]) = none) :
    Grown (x ++ [n]) t (t.set (x ++ [n]) .dir) := by
  intro y
  rw [get?_set t (by simp)]
  split_ifs with hy
  · exact .inr ⟨hy ▸ List.prefix_refl _, hy ▸ hnone, rfl⟩
  · exact .inl rfl

end Grown

/-- A name that a directory can have. -/
def Usable (n : Bytes) : Prop := n.length ≤ 255 ∧ n.contains 0 = false

instance (n : Bytes) : Decidable (Usable n) :=
  inferInstanceAs (Decidable (n.length ≤ 255 ∧ n.contains 0 = false))

theorem nameable_iff : Nameable x ↔ ∀ n ∈ x, Usable n := by
  have hzero : (0 : UInt8) ∈ ofNames true x ↔ ∃ n ∈ x, (0 : UInt8) ∈ n := by
    show 0 ∈ Path.separator :: Bytes.join [Path.separator] x ↔ _
    rw [List.mem_cons, Bytes.mem_join (by decide), or_iff_right (by decide)]
  simp only [Nameable, Usable, List.contains_iff_mem, ← Bool.not_eq_true, hzero, not_exists,
    not_and]
  exact ⟨fun h n hn => ⟨h.2 n hn, h.1 n hn⟩, fun h =>
    ⟨fun n hn => (h n hn).2, fun n hn => (h n hn).1⟩⟩

/-- One directory further down, which is there or is made, unless something is in the way. -/
theorem makeDirsFrom_cons (ht : t.WellFormed) (hup : t.get? x = some .dir)
    (hx : ∀ n ∈ x, Path.Proper n) (hn : Path.Proper n) (rest : List Bytes) :
    (∃ e, t.makeDirsFrom x (n :: rest) = (t, some e)) ∨
      ∃ u : Tree, u.WellFormed ∧ u.get? (x ++ [n]) = some .dir ∧ Grown (x ++ [n]) t u ∧ Usable n ∧
        t.makeDirsFrom x (n :: rest) = u.makeDirsFrom (x ++ [n]) rest := by
  rw [makeDirsFrom]
  by_cases hlen : n.length > 255
  · exact .inl ⟨_, if_pos hlen⟩
  by_cases hzero : n.contains 0 = true
  · exact .inl ⟨_, by rw [if_neg hlen, if_pos hzero]⟩
  have husable : Usable n := ⟨by omega, by simpa using hzero⟩
  rw [if_neg hlen, if_neg hzero]
  cases hget : t.get? (x ++ [n]) with
  | none =>
    have hwf := ht.set (by simp) (Path.proper_concat hx hn) (by simpa using hup) (e := .dir)
      (.inl rfl)
    exact .inr ⟨_, hwf, by rw [get?_set t (by simp), if_pos rfl], Grown.set t hget, husable, rfl⟩
  | some e =>
    cases e with
    | file content => exact .inl ⟨_, rfl⟩
    | dir => exact .inr ⟨t, ht, hget, Grown.refl _ t, husable, rfl⟩

/-- Directories are added on the way, up to the end of it if nothing goes wrong. -/
theorem makeDirsFrom_spec {rest : List Bytes} (ht : t.WellFormed) (hup : t.get? x = some .dir)
    (hx : ∀ n ∈ x, Path.Proper n) (hrest : ∀ n ∈ rest, Path.Proper n) {e : Option FileError}
    (h : t.makeDirsFrom x rest = (t', e)) :
    t'.WellFormed ∧ Grown (x ++ rest) t t' ∧
      (e = none → t'.get? (x ++ rest) = some .dir ∧ ∀ n ∈ rest, Usable n) := by
  induction rest generalizing t x with
  | nil =>
    rw [makeDirsFrom] at h
    cases h
    exact ⟨ht, Grown.refl _ _, fun _ => ⟨by rw [List.append_nil, hup], nofun⟩⟩
  | cons n rest ih =>
    obtain ⟨hn, hrest⟩ := List.forall_mem_cons.1 hrest
    obtain ⟨e', hstop⟩ | ⟨u, hu, hdir, hgrown, husable, hgo⟩ := makeDirsFrom_cons ht hup hx hn rest
    · rw [hstop] at h
      cases h
      exact ⟨ht, Grown.refl _ _, nofun⟩
    · obtain ⟨ht', hgrown', hend⟩ := ih hu hdir (Path.proper_concat hx hn) hrest (hgo ▸ h)
      rw [List.append_assoc, List.singleton_append] at hgrown' hend
      have hpre : x ++ [n] <+: x ++ n :: rest := by simp [List.prefix_append_right_inj]
      exact ⟨ht', (hgrown.mono hpre).trans hgrown', fun he =>
        ⟨(hend he).1, List.forall_mem_cons.2 ⟨husable, (hend he).2⟩⟩⟩

/-- Nothing is made where every directory is there. -/
theorem makeDirsFrom_self {rest : List Bytes}
    (hdirs : ∀ w, w <+: rest → t.get? (x ++ w) = some .dir)
    (hrest : ∀ n ∈ rest, Usable n) : t.makeDirsFrom x rest = (t, none) := by
  induction rest generalizing x with
  | nil => rfl
  | cons n rest ih =>
    obtain ⟨⟨hlen, hzero⟩, hrest⟩ := List.forall_mem_cons.1 hrest
    have hdir : t.get? (x ++ [n]) = some .dir := hdirs [n] (by simp [List.cons_prefix_cons])
    rw [makeDirsFrom, if_neg (by omega), hzero, if_neg Bool.false_ne_true, hdir]
    refine ih (fun w hw => ?_) hrest
    simpa using hdirs (n :: w) (List.cons_prefix_cons.2 ⟨rfl, hw⟩)

end AccessLayer.Tree
