import AccessLayer.Proofs.Naming.FileStems
import AccessLayer.Proofs.Text.LastByte

/-!
# Stems that the Go tool builds

The Go tool builds a file with the rest of its package unless its stem starts with an underscore or
a point, or ends in `_test` or in an underscore and the name of a platform. A stem with one of these
marks is changed: an ending is covered by `_gen`, a start by `gen`. A stem with both marks keeps one
of them, and so does a mark that is the whole stem.

* `Hidden`, `Restricted`: the two marks.
* `buildable_append_gen`, `buildable_gen_append`: what the two changes mend.
* `buildable_fileStem_iff`: the names whose stems are built.
-/

namespace AccessLayer.Naming

open Bytes

variable {stem : Bytes}

/-- The byte that divides the words of a stem. -/
def underscore : UInt8 := byte '_'

def platforms : List Bytes := (knownSystems ++ knownProcessors).map ofString

/-! ## Marks -/

/-- The stem starts with an underscore or a point, so that its file is skipped. -/
def Hidden (stem : Bytes) : Prop := ofString "_" <+: stem ∨ ofString "." <+: stem

/-- The stem ends in the mark of tests or of a platform, so that its file is for these only. -/
def Restricted (stem : Bytes) : Prop :=
  ∃ word ∈ ofString "test" :: platforms, underscore :: word <:+ stem

/-- A stem whose file is built with its package, beside the index. -/
structure Buildable (stem : Bytes) : Prop where
  ne_nil : stem ≠ []
  ne_index : stem ≠ indexStem
  not_underscore : ¬ ofString "_" <+: stem
  not_point : ¬ ofString "." <+: stem
  not_test : ¬ ofString "_test" <:+ stem
  not_system : ∀ system ∈ knownSystems, ¬ ofString "_" ++ ofString system <:+ stem
  not_processor : ∀ processor ∈ knownProcessors, ¬ ofString "_" ++ ofString processor <:+ stem

theorem hidden_iff_head :
    Hidden stem ↔ stem.head? = some underscore ∨ stem.head? = some (byte '.') := by
  have hstart : ∀ b : UInt8, [b] <+: stem ↔ stem.head? = some b := by
    intro b
    cases stem with
    | nil => simp
    | cons c stem => simp [List.cons_prefix_cons, eq_comm]
  exact or_congr (hstart _) (hstart _)

theorem buildable_iff :
    Buildable stem ↔ stem ≠ [] ∧ stem ≠ indexStem ∧ ¬ Hidden stem ∧ ¬ Restricted stem := by
  have hplatform : (∀ word ∈ platforms, ¬ underscore :: word <:+ stem) ↔
      (∀ system ∈ knownSystems, ¬ ofString "_" ++ ofString system <:+ stem) ∧
        ∀ processor ∈ knownProcessors, ¬ ofString "_" ++ ofString processor <:+ stem := by
    rw [platforms, List.forall_mem_map, List.forall_mem_append]
    rfl
  constructor
  · intro h
    refine ⟨h.ne_nil, h.ne_index, not_or.2 ⟨h.not_underscore, h.not_point⟩, ?_⟩
    rintro ⟨word, hword, hsuffix⟩
    obtain rfl | hword := List.mem_cons.1 hword
    · exact h.not_test hsuffix
    · exact hplatform.2 ⟨h.not_system, h.not_processor⟩ word hword hsuffix
  · rintro ⟨hnil, hindex, hhidden, hrestricted⟩
    have hends := hplatform.1 fun word hword hsuffix =>
      hrestricted ⟨word, List.mem_cons_of_mem _ hword, hsuffix⟩
    exact ⟨hnil, hindex, (not_or.1 hhidden).1, (not_or.1 hhidden).2,
      fun hsuffix => hrestricted ⟨_, List.mem_cons_self .., hsuffix⟩, hends.1, hends.2⟩

/-! ## Endings -/

theorem lastPart?_eq_some_iff {part : Bytes} :
    lastPart? stem = some part ↔ ∃ front, front ≠ [] ∧ stem = front ++ underscore :: part ∧
      underscore ∉ part := by
  by_cases hmem : underscore ∈ stem
  · obtain ⟨front, rest, rfl, hrest⟩ := exists_lastCut hmem
    have hcut : lastPart? (front ++ underscore :: rest) = if front = [] then none
        else some rest := by
      obtain ⟨htake, hdrop⟩ := reverse_splits front hrest
      unfold lastPart?
      rw [show byte '_' = underscore from rfl, htake, hdrop, List.reverse_reverse]
      cases hfront : front.reverse with
      | nil => simp [List.reverse_eq_nil_iff.1 hfront]
      | cons b others =>
        have hne : front ≠ [] := fun h => by simp [h] at hfront
        simp [hne]
    rw [hcut]
    constructor
    · intro h
      split_ifs at h with hfront
      cases h
      exact ⟨front, hfront, rfl, hrest⟩
    · rintro ⟨front', hne, heq, hpart⟩
      obtain ⟨rfl, rfl⟩ := lastCut_unique hrest hpart heq
      rw [if_neg hne]
  · have hnone : lastPart? stem = none := by
      unfold lastPart?
      rw [show byte '_' = underscore from rfl, reverse_dropWhile_of_notMem hmem]
    rw [hnone]
    constructor
    · intro h
      cases h
    · rintro ⟨front, -, rfl, -⟩
      simp at hmem

/-- No word that restricts a stem has an underscore in it, and none is `gen`. -/
theorem word_plain {word : Bytes} (h : word ∈ ofString "test" :: platforms) :
    underscore ∉ word ∧ word ≠ ofString "gen" := by
  have hall : (ofString "test" :: platforms).all
      (fun word => !word.contains underscore && word != ofString "gen") = true := by decide
  have hword := List.all_eq_true.1 hall word h
  simpa using hword

/-- The platform at the end of a stem is seen if there is something in front of it. -/
theorem endsInPlatform_iff :
    endsInPlatform stem ↔ ∃ word ∈ platforms, ∃ front, front ≠ [] ∧
      stem = front ++ underscore :: word := by
  have hword : ∀ part : Bytes, (knownSystems ++ knownProcessors).any (fun p => part == ofString p) =
      true ↔
      part ∈ platforms := by
    intro part
    rw [List.any_eq_true, platforms, List.mem_map]
    exact exists_congr fun p => and_congr_right fun _ => beq_iff_eq.trans eq_comm
  unfold endsInPlatform
  constructor
  · intro h
    cases hpart : lastPart? stem with
    | none =>
      rw [hpart] at h
      cases h
    | some part =>
      rw [hpart] at h
      obtain ⟨front, hfront, hstem, -⟩ := lastPart?_eq_some_iff.1 hpart
      exact ⟨part, (hword part).1 h, front, hfront, hstem⟩
  · rintro ⟨word, hmem, front, hfront, hstem⟩
    have hpart := lastPart?_eq_some_iff.2 ⟨front, hfront, hstem,
      (word_plain (List.mem_cons_of_mem _ hmem)).1⟩
    rw [hpart]
    exact (hword word).2 hmem

/-! ## Changes -/

theorem hidden_append {rest : Bytes} (h : stem ≠ []) : Hidden (stem ++ rest) ↔ Hidden stem := by
  obtain ⟨b, others, rfl⟩ := List.exists_cons_of_ne_nil h
  rw [hidden_iff_head, hidden_iff_head]
  rfl

/-- The ending `_gen` covers every other one. -/
theorem not_restricted_append_gen (stem : Bytes) : ¬ Restricted (stem ++ "_gen") := by
  rintro ⟨word, hword, front, hsuffix⟩
  obtain ⟨hplain, hgen⟩ := word_plain hword
  have hcut : front ++ underscore :: word = stem ++ underscore :: ofString "gen" := hsuffix
  exact hgen (lastCut_unique hplain (by decide) hcut).2

theorem buildable_append_gen (h : stem ≠ []) : Buildable (stem ++ "_gen") ↔ ¬ Hidden stem := by
  rw [buildable_iff, hidden_append h]
  exact ⟨fun hbuild => hbuild.2.2.1,
    fun hhidden => ⟨by simp [h], append_gen_ne_indexStem stem, hhidden,
      not_restricted_append_gen stem⟩⟩

/-- The start `gen` covers every other one, and no ending. -/
theorem buildable_gen_append (h : stem ≠ []) : Buildable ("gen" ++ stem) ↔ ¬ Restricted stem := by
  have hends : Restricted (ofString "gen" ++ stem) ↔ Restricted stem := by
    refine exists_congr fun word => and_congr_right fun _ => ?_
    exact cons_suffix_append (by decide)
  have hhidden : ¬ Hidden (ofString "gen" ++ stem) := by
    rw [hidden_append (by decide), hidden_iff_head]
    decide
  rw [buildable_iff, hends]
  exact ⟨fun hbuild => hbuild.2.2.2,
    fun hrestricted => ⟨by simp [h], gen_append_ne_indexStem stem, hhidden, hrestricted⟩⟩

/-! ## Stems of names -/

theorem flatName_eq_nil_iff {name : Bytes} : flatName name = [] ↔ name = [] := by
  constructor
  · intro h
    have hchars := congrArg chars h
    rw [flatName, chars_ofChars] at hchars
    have hrunes : runes name = [] := List.map_eq_nil_iff.1 (List.map_eq_nil_iff.1 hchars)
    rw [← ofRunes_runes name, hrunes]
    rfl
  · rintro rfl
    rfl

def Ended (stem : Bytes) : Prop :=
  stem = indexStem ∨ ofString "_test" <:+ stem ∨ endsInPlatform stem = true

/-- The stem of a name: the ending is looked at before the start, and one of them is covered. -/
theorem fileStem_cases (name : Bytes) :
    (Ended (flatName name) ∧ fileStem name = flatName name ++ "_gen") ∨
      (¬ Ended (flatName name) ∧ Hidden (flatName name) ∧ fileStem name = "gen" ++ flatName name) ∨
      (¬ Ended (flatName name) ∧ ¬ Hidden (flatName name) ∧ fileStem name = flatName name) := by
  unfold fileStem
  generalize flatName name = stem
  have hended : (stem == indexStem || (ofString "_test").isSuffixOf stem || endsInPlatform stem) =
      true ↔
      Ended stem := by
    rw [Bool.or_eq_true, Bool.or_eq_true, beq_iff_eq, List.isSuffixOf_iff_suffix, or_assoc]
    rfl
  have hhidden : ((ofString "_").isPrefixOf stem || (ofString ".").isPrefixOf stem) = true ↔
      Hidden stem := by
    rw [Bool.or_eq_true, List.isPrefixOf_iff_prefix, List.isPrefixOf_iff_prefix]
    rfl
  dsimp only
  rw [← hended, ← hhidden]
  split_ifs with h1 h2
  · exact .inl ⟨h1, rfl⟩
  · exact .inr (.inl ⟨h1, h2, rfl⟩)
  · exact .inr (.inr ⟨h1, h2, rfl⟩)

/-- A mark at the end of a stem is seen unless it is the whole stem. -/
theorem ended_of_restricted (h : Restricted stem) (hhidden : ¬ Hidden stem) : Ended stem := by
  obtain ⟨word, hword, front, rfl⟩ := h
  obtain rfl | hword := List.mem_cons.1 hword
  · exact .inr (.inl ⟨front, rfl⟩)
  · refine .inr (.inr (endsInPlatform_iff.2 ⟨word, hword, front, ?_, rfl⟩))
    rintro rfl
    exact hhidden (hidden_iff_head.2 (.inl rfl))

/-- A stem with a covered ending is not empty, and one hidden too is not that of the index. -/
theorem restricted_of_ended (h : Ended stem) : stem ≠ [] ∧ (Hidden stem → Restricted stem) := by
  obtain rfl | htest | hplatform := h
  · exact ⟨by decide, fun hhidden => absurd (hidden_iff_head.1 hhidden) (by decide)⟩
  · refine ⟨?_, fun _ => ⟨_, List.mem_cons_self .., htest⟩⟩
    rintro rfl
    exact absurd htest (by decide)
  · obtain ⟨word, hword, front, -, rfl⟩ := endsInPlatform_iff.1 hplatform
    exact ⟨by simp, fun _ => ⟨word, List.mem_cons_of_mem _ hword, front, rfl⟩⟩

/-- The Go tool builds the file of every name but the empty one and those with a mark at both ends:
a name that starts with an underscore or a point (or a slash, which becomes an underscore) and ends
in `_test` or in an underscore and the name of a platform. The two marks may share the underscore.
-/
theorem buildable_fileStem_iff (name : Bytes) :
    Buildable (fileStem name) ↔ name ≠ [] ∧
      ¬ (Hidden (flatName name) ∧ Restricted (flatName name)) := by
  rw [Ne, ← flatName_eq_nil_iff]
  obtain ⟨hended, hstem⟩ | ⟨-, hhidden, hstem⟩ | ⟨hended, hhidden, hstem⟩ := fileStem_cases name
  · obtain ⟨hnil, hrestricted⟩ := restricted_of_ended hended
    rw [hstem, buildable_append_gen hnil]
    exact ⟨fun hhidden => ⟨hnil, fun hboth => hhidden hboth.1⟩,
      fun h hhidden => h.2 ⟨hhidden, hrestricted hhidden⟩⟩
  · have hnil : flatName name ≠ [] := by
      intro h
      rw [h] at hhidden
      exact absurd (hidden_iff_head.1 hhidden) (by decide)
    rw [hstem, buildable_gen_append hnil]
    simp [hnil, hhidden]
  · have hindex : flatName name ≠ indexStem := fun h => hended (.inl h)
    have hrestricted : ¬ Restricted (flatName name) := fun h =>
      hended (ended_of_restricted h hhidden)
    rw [hstem, buildable_iff]
    simp [hindex, hhidden, hrestricted]

/-- A name that is a mark at both ends, one with a mark at each end, and one whose underscore is
both. -/
theorem fileStem_marked_twice :
    (fileStem "_test" = "_test_gen" ∧ ¬ Buildable (fileStem "_test")) ∧
      (fileStem ".draft_arm64" = ".draft_arm64_gen" ∧ ¬ Buildable (fileStem ".draft_arm64")) ∧
      fileStem "_linux" = "gen_linux" ∧ ¬ Buildable (fileStem "_linux") :=
  ⟨⟨by decide, fun h => h.not_underscore (by decide)⟩,
  ⟨by decide, fun h => h.not_point (by decide)⟩, by decide,
    fun h => h.not_system "linux" (by decide) (by decide)⟩

end AccessLayer.Naming
