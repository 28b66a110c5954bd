import Mathlib.Data.List.Induction
import Mathlib.Data.List.Nodup

/-!
# Lists in which the last entry of a key wins

A list of entries is gathered one by one. An entry with a new key goes to the end, and one with a
key that is there already takes the place of the entry before it. So the keys stand in the order in
which they first came, and each has the entry that came last.

* `upsert`: adds an entry, or replaces the one with its key.
* `Gathers`: the entries that are left of a list, by their keys.
* `recurring`: the members of a list that stand in it before.
-/

namespace AccessLayer

variable {α κ : Type} [BEq κ]

/-- Adds an entry at the end, or in the place of the one with its key. -/
def upsert (key : α → κ) (xs : List α) (x : α) : List α :=
  if xs.any (key · == key x) then xs.map fun y => if key y == key x then x else y else xs ++ [x]

def lastOf? (key : α → κ) (xs : List α) (k : κ) : Option α := (xs.filter (key · == k)).getLast?

/-- The members of a list that stand in it before, once for each time. -/
def recurring (xs : List κ) : List κ :=
  (xs.zipIdx.filter fun x => (xs.take x.2).contains x.1).map (·.1)

/-- The entries `ys` are left of `xs`: each key once, where it first came, with its last entry. -/
structure Gathers (key : α → κ) (xs ys : List α) : Prop where
  keys : ys.map key = (xs.map key).eraseDups
  last : ∀ y ∈ ys, lastOf? key xs (key y) = some y

variable {key : α → κ} {xs ys : List α}

theorem Gathers.nil : Gathers key [] [] := ⟨by simp, by simp⟩

theorem lastOf?_concat (xs : List α) (x : α) (k : κ) :
    lastOf? key (xs ++ [x]) k = if key x == k then some x else lastOf? key xs k := by
  rw [lastOf?, List.filter_append, List.filter_cons, List.filter_nil]
  split_ifs
  · rw [List.getLast?_concat]
  · rw [List.append_nil, lastOf?]

variable [LawfulBEq κ]

/-! ## Keys -/

theorem eraseDups_concat (ks : List κ) (k : κ) :
    (ks ++ [k]).eraseDups = if k ∈ ks then ks.eraseDups else ks.eraseDups ++ [k] := by
  rw [List.eraseDups_append]
  by_cases hk : k ∈ ks
  · simp [List.removeAll, hk]
  · simp [List.removeAll, hk, List.eraseDups_cons]

theorem nodup_eraseDups (ks : List κ) : ks.eraseDups.Nodup := by
  induction ks using List.reverseRecOn with
  | nil => simp
  | append_singleton ks k ih =>
    rw [eraseDups_concat]
    split_ifs with hk
    · exact ih
    · rw [← List.concat_eq_append]
      exact ih.concat (mt List.mem_eraseDups.1 hk)

theorem recurring_concat (ks : List κ) (k : κ) :
    recurring (ks ++ [k]) = if k ∈ ks then recurring ks ++ [k] else recurring ks := by
  -- what stands before a member of `ks` is not changed by `k`
  have hold : ks.zipIdx.filter (fun x => ((ks ++ [k]).take x.2).contains x.1) =
      ks.zipIdx.filter fun x => (ks.take x.2).contains x.1 := by
    refine List.filter_congr fun x hx => ?_
    rw [List.take_append_of_le_length (Nat.le_of_lt (List.snd_lt_of_mem_zipIdx hx))]
  rw [recurring, List.zipIdx_append, List.filter_append, hold, List.map_append, ← recurring]
  by_cases hk : k ∈ ks
  · simp [hk]
  · simp [hk]

/-! ## Last entries -/

theorem lastOf?_eq_some_iff {k : κ} {x : α} :
    lastOf? key xs k = some x ↔
      ∃ before after, xs = before ++ x :: after ∧ key x = k ∧ ∀ y ∈ after, key y ≠ k := by
  induction xs using List.reverseRecOn with
  | nil => simp [lastOf?]
  | append_singleton xs y ih =>
    rw [lastOf?_concat]
    constructor
    · intro h
      split_ifs at h with hy
      · obtain rfl := Option.some.inj h
        exact ⟨xs, [], rfl, beq_iff_eq.1 hy, by simp⟩
      · obtain ⟨before, after, rfl, hx, hafter⟩ := ih.1 h
        refine ⟨before, after ++ [y], by simp, hx, fun z hz => ?_⟩
        rcases List.mem_append.1 hz with hz | hz
        · exact hafter z hz
        · rw [List.mem_singleton.1 hz]
          exact fun heq => hy (beq_iff_eq.2 heq)
    · rintro ⟨before, after, hsplit, hx, hafter⟩
      rcases List.eq_nil_or_concat after with rfl | ⟨after, z, rfl⟩
      · obtain ⟨-, hyx⟩ := List.append_inj' hsplit rfl
        obtain rfl := List.singleton_inj.1 hyx
        rw [if_pos (beq_iff_eq.2 hx)]
      · rw [List.concat_eq_append, ← List.cons_append, ← List.append_assoc] at hsplit
        obtain ⟨rfl, hyz⟩ := List.append_inj' hsplit rfl
        obtain rfl := List.singleton_inj.1 hyz
        have hy : ¬ (key y == k) = true := by
          rw [beq_iff_eq]
          exact hafter y (by simp)
        rw [if_neg hy]
        exact ih.2 ⟨before, after, rfl, hx, fun w hw => hafter w (by simp [hw])⟩

/-- A key has a last entry as soon as it has one. -/
theorem isSome_lastOf?_iff {k : κ} : (∃ x, lastOf? key xs k = some x) ↔ k ∈ xs.map key := by
  rw [lastOf?, ← Option.isSome_iff_exists, List.getLast?_isSome, Ne, List.filter_eq_nil_iff]
  simp [List.mem_map]

/-! ## Gathered entries -/

theorem Gathers.nodup (h : Gathers key xs ys) : (ys.map key).Nodup := by
  rw [h.keys]
  exact nodup_eraseDups _

/-- An entry is left if and only if it is the last one of its key. -/
theorem Gathers.mem_iff (h : Gathers key xs ys) {y : α} :
    y ∈ ys ↔ lastOf? key xs (key y) = some y := by
  refine ⟨h.last y, fun hy => ?_⟩
  have hkey : key y ∈ ys.map key := by
    rw [h.keys, List.mem_eraseDups]
    exact isSome_lastOf?_iff.1 ⟨y, hy⟩
  obtain ⟨z, hz, hzy⟩ := List.mem_map.1 hkey
  have hlast := h.last z hz
  rw [hzy, hy] at hlast
  obtain rfl := Option.some.inj hlast
  exact hz

theorem any_key_iff {k : κ} : ys.any (key · == k) ↔ k ∈ ys.map key := by
  simp [List.any_eq_true, List.mem_map]

theorem Gathers.upsert (h : Gathers key xs ys) (x : α) :
    Gathers key (xs ++ [x]) (upsert key ys x) := by
  have hany : ys.any (key · == key x) = true ↔ key x ∈ xs.map key := by
    rw [any_key_iff, h.keys, List.mem_eraseDups]
  by_cases hx : key x ∈ xs.map key
  · rw [AccessLayer.upsert, if_pos (hany.2 hx)]
    constructor
    · rw [List.map_append, List.map_singleton, eraseDups_concat, if_pos hx, ← h.keys, List.map_map]
      refine List.map_congr_left fun y _ => ?_
      by_cases hy : key y = key x <;> simp [hy]
    · intro z hz
      obtain ⟨y, hy, rfl⟩ := List.mem_map.1 hz
      rw [lastOf?_concat]
      by_cases hyx : key y = key x
      · simp [hyx]
      · simp [hyx, Ne.symm hyx, h.last y hy]
  · rw [AccessLayer.upsert, if_neg (mt hany.1 hx)]
    constructor
    · rw [List.map_append, List.map_append, List.map_singleton, eraseDups_concat, if_neg hx, h.keys]
    · intro z hz
      rw [lastOf?_concat]
      rcases List.mem_append.1 hz with hz | hz
      · have hne : key x ≠ key z := by
          intro heq
          refine hx (List.mem_eraseDups.1 ?_)
          rw [← h.keys, heq]
          exact List.mem_map_of_mem hz
        rw [if_neg (by rwa [beq_iff_eq]), h.last z hz]
      · rw [List.mem_singleton.1 hz, if_pos (beq_self_eq_true _)]

/-- Any number of further entries. -/
theorem Gathers.foldl (h : Gathers key xs ys) (zs : List α) :
    Gathers key (xs ++ zs) (zs.foldl (AccessLayer.upsert key) ys) := by
  induction zs generalizing xs ys with
  | nil => rwa [List.append_nil]
  | cons z zs ih =>
    rw [List.append_cons]
    exact ih (h.upsert z)

/-! ## Other orders -/

/-- Entries with different keys are the only ones of their keys in any order. -/
theorem filter_eq_of_perm {xs' : List α} (hperm : xs'.Perm xs) (hnodup : (xs.map key).Nodup)
    (k : κ) : xs'.filter (key · == k) = xs.filter (key · == k) := by
  have hfilter := hperm.filter (key · == k)
  have hkeys : ((xs.filter (key · == k)).map key).Nodup :=
    hnodup.sublist (List.filter_sublist.map key)
  have hk : ∀ x ∈ xs.filter (key · == k), key x = k := fun x hx =>
    beq_iff_eq.1 (List.mem_filter.1 hx).2
  generalize xs.filter (key · == k) = fs at *
  rcases fs with _ | ⟨x, _ | ⟨y, fs⟩⟩
  · exact List.perm_nil.1 hfilter
  · exact List.perm_singleton.1 hfilter
  · have hsame : key x = key y := (hk x (by simp)).trans (hk y (by simp)).symm
    simp [hsame] at hkeys

/-- While the entries of one key stay in order, moving entries only moves what is left of them. -/
theorem Gathers.perm {xs' ys' : List α} (h : Gathers key xs ys) (h' : Gathers key xs' ys')
    (hfilter : ∀ k, xs'.filter (key · == k) = xs.filter (key · == k)) : ys'.Perm ys := by
  refine (List.perm_ext_iff_of_nodup (.of_map key h'.nodup) (.of_map key h.nodup)).2 fun y => ?_
  rw [h'.mem_iff, h.mem_iff, lastOf?, lastOf?, hfilter]

end AccessLayer
