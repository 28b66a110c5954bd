import AccessLayer.Text.Bytes
import Mathlib.Data.List.Nodup

/-!
# Byte order

The order by byte is a total order, so that what is sorted by it does not depend on the order in
which it was found.

* `Bytes.le_trans`, `Bytes.le_total`, `Bytes.le_antisymm`: a total order.
* `Bytes.Ascending`: texts in strict order.
* `Bytes.perm_sortBy`, `Bytes.ascending_sortBy`: things sorted by a text.
-/

namespace AccessLayer.Bytes

theorem le_cons {a b : UInt8} {s t : Bytes} : le (a :: s) (b :: t) ↔ a < b ∨ a = b ∧ le s t := by
  simp [le]

theorem le_trans : ∀ s t u : Bytes, le s t → le t u → le s u := by
  intro s
  induction s with
  | nil => exact fun _ _ _ _ => rfl
  | cons a s ih =>
    intro t u hst htu
    cases t with
    | nil => cases hst
    | cons b t =>
      cases u with
      | nil => cases htu
      | cons c u =>
        rw [le_cons] at hst htu ⊢
        obtain hab | ⟨rfl, hst⟩ := hst
        · obtain hbc | ⟨rfl, -⟩ := htu
          · exact .inl (UInt8.lt_trans hab hbc)
          · exact .inl hab
        · exact htu.imp_right fun h => ⟨h.1, ih t u hst h.2⟩

theorem le_total : ∀ s t : Bytes, (le s t || le t s) := by
  intro s
  induction s with
  | nil => exact fun _ => rfl
  | cons a s ih =>
    intro t
    cases t with
    | nil => rfl
    | cons b t =>
      rw [Bool.or_eq_true, le_cons, le_cons]
      have hst := ih t
      rw [Bool.or_eq_true] at hst
      rcases Nat.lt_trichotomy a.toNat b.toNat with h | h | h
      · exact .inl (.inl h)
      · have hab : a = b := UInt8.toNat_inj.1 h
        exact hst.imp (fun h => .inr ⟨hab, h⟩) fun h => .inr ⟨hab.symm, h⟩
      · exact .inr (.inl h)

theorem le_antisymm : ∀ s t : Bytes, le s t → le t s → s = t := by
  intro s
  induction s with
  | nil =>
    intro t _ hts
    cases t with
    | nil => rfl
    | cons b t => cases hts
  | cons a s ih =>
    intro t hst hts
    cases t with
    | nil => cases hst
    | cons b t =>
      rw [le_cons] at hst hts
      obtain hab | ⟨rfl, hst⟩ := hst
      · obtain hba | ⟨rfl, -⟩ := hts
        · exact absurd (UInt8.lt_trans hab hba) (UInt8.lt_irrefl a)
        · exact absurd hab (UInt8.lt_irrefl _)
      · obtain hba | ⟨-, hts⟩ := hts
        · exact absurd hba (UInt8.lt_irrefl a)
        · rw [ih t hst hts]

/-- Each text stands strictly before the ones after it. -/
def Ascending (texts : List Bytes) : Prop := texts.Pairwise fun s t => le s t = true ∧ s ≠ t

instance (texts : List Bytes) : Decidable (Ascending texts) :=
  inferInstanceAs (Decidable (texts.Pairwise fun s t => le s t = true ∧ s ≠ t))

/-- Two lists in strict order with the same texts are one list. -/
theorem Ascending.eq {xs ys : List Bytes} (hxs : Ascending xs) (hys : Ascending ys)
    (h : ∀ s, s ∈ xs ↔ s ∈ ys) : xs = ys := by
  have hnodup : ∀ {zs : List Bytes}, Ascending zs → zs.Nodup := fun hzs => hzs.imp And.right
  have hle : ∀ {zs : List Bytes}, Ascending zs → zs.Pairwise fun s t => le s t = true :=
    fun hzs => hzs.imp And.left
  exact ((List.perm_ext_iff_of_nodup (hnodup hxs) (hnodup hys)).2 h).eq_of_pairwise
    (fun s t _ _ => le_antisymm s t) (hle hxs) (hle hys)

/-- Two lists of things under names in strict order are one list if they hold the same. -/
theorem Ascending.eq_of_keys {α : Type} {xs ys : List (Bytes × α)} (hxs : Ascending (xs.map (·.1)))
    (hys : Ascending (ys.map (·.1))) (h : ∀ z, z ∈ xs ↔ z ∈ ys) : xs = ys := by
  have hnodup : ∀ {zs : List (Bytes × α)}, Ascending (zs.map (·.1)) → (zs.map (·.1)).Nodup :=
    fun hzs => hzs.imp And.right
  have hle : ∀ {zs : List (Bytes × α)}, Ascending (zs.map (·.1)) → zs.Pairwise fun a b =>
      le a.1 b.1 = true :=
    fun hzs => (List.pairwise_map.1 hzs).imp And.left
  have hperm := (List.perm_ext_iff_of_nodup (hnodup hxs).of_map (hnodup hys).of_map).2 h
  refine hperm.eq_of_pairwise (fun a b ha hb hab hba => ?_) (hle hxs) (hle hys)
  exact List.inj_on_of_nodup_map (hnodup hxs) ha ((h b).2 hb) (le_antisymm a.1 b.1 hab hba)

/-! ## Sorting -/

section

variable {α : Type} (key : α → Bytes)

theorem perm_insertBy (x : α) (l : List α) : (insertBy key x l).Perm (x :: l) := by
  induction l with
  | nil => exact List.Perm.refl _
  | cons y l ih =>
    rw [insertBy]
    split_ifs
    · exact List.Perm.refl _
    · exact (ih.cons y).trans (List.Perm.swap x y l)

theorem perm_sortBy (l : List α) : (sortBy key l).Perm l := by
  induction l with
  | nil => exact List.Perm.refl _
  | cons x l ih => exact (perm_insertBy key x (sortBy key l)).trans (ih.cons x)

theorem mem_sortBy {x : α} {l : List α} : x ∈ sortBy key l ↔ x ∈ l := (perm_sortBy key l).mem_iff

theorem pairwise_insertBy (x : α) {l : List α} (h : l.Pairwise fun a b => le (key a) (key b)) :
    (insertBy key x l).Pairwise fun a b => le (key a) (key b) := by
  induction l with
  | nil => exact List.pairwise_singleton _ _
  | cons y l ih =>
    obtain ⟨hy, hl⟩ := List.pairwise_cons.1 h
    rw [insertBy]
    split_ifs with hxy
    · refine List.pairwise_cons.2 ⟨List.forall_mem_cons.2 ⟨hxy, fun z hz => ?_⟩, h⟩
      exact le_trans _ _ _ hxy (hy z hz)
    · refine List.pairwise_cons.2 ⟨fun z hz => ?_, ih hl⟩
      have htotal := le_total (key x) (key y)
      obtain rfl | hz := List.mem_cons.1 ((perm_insertBy key x l).mem_iff.1 hz)
      · exact (Bool.or_eq_true _ _ ▸ htotal).resolve_left hxy
      · exact hy z hz

theorem pairwise_sortBy (l : List α) : (sortBy key l).Pairwise fun a b => le (key a) (key b) := by
  induction l with
  | nil => exact List.Pairwise.nil
  | cons x l ih => exact pairwise_insertBy key x ih

theorem ascending_sortBy {l : List α} (h : (l.map key).Nodup) :
    Ascending ((sortBy key l).map key) :=
  (List.pairwise_map.2 (pairwise_sortBy key l)).and (((perm_sortBy key l).map key).nodup_iff.2 h)

end

theorem ascending_sort {texts : List Bytes} (h : texts.Nodup) : Ascending (sort texts) := by
  have hkey := ascending_sortBy id (l := texts) (by simpa using h)
  simpa [sort] using hkey

theorem mem_sort {s : Bytes} {texts : List Bytes} : s ∈ sort texts ↔ s ∈ texts := mem_sortBy id

end AccessLayer.Bytes
