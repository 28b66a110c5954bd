import AccessLayer.Text.Bytes
import Mathlib.Data.List.TakeWhile

/-!
# The last occurrence of a byte

File names and paths are cut at their last slash, point or underscore. The cut is found from the end
of the text and is the only one with nothing of its kind after it.

* `Bytes.exists_lastCut`, `Bytes.lastCut_unique`: there is one cut.
* `Bytes.suffix_of_notMem`: an end of the text without the byte is after the cut.
* `Bytes.cons_suffix_append`: a cut does not reach into a front without its byte.
-/

namespace AccessLayer.Bytes

variable {sep : UInt8}

/-- What stands in front of the last occurrence of a byte, and what stands after it. -/
theorem reverse_splits (front : Bytes) {rest : Bytes} (h : sep ∉ rest) :
    (front ++ sep :: rest).reverse.takeWhile (· != sep) = rest.reverse ∧
      (front ++ sep :: rest).reverse.dropWhile (· != sep) = sep :: front.reverse := by
  have hall : ∀ b ∈ rest.reverse, (b != sep) = true := by
    intro b hb
    rw [List.mem_reverse] at hb
    exact bne_iff_ne.2 fun hsep => h (hsep ▸ hb)
  have hrev : (front ++ sep :: rest).reverse = rest.reverse ++ sep :: front.reverse := by simp
  rw [hrev, List.takeWhile_append_of_pos hall, List.dropWhile_append_of_pos hall]
  simp

theorem reverse_dropWhile_of_notMem {s : Bytes} (h : sep ∉ s) :
    s.reverse.dropWhile (· != sep) = [] := by
  rw [List.dropWhile_eq_nil_iff]
  intro b hb
  exact bne_iff_ne.2 fun hsep => h (hsep ▸ List.mem_reverse.1 hb)

theorem exists_lastCut {s : Bytes} (h : sep ∈ s) :
    ∃ front rest, s = front ++ sep :: rest ∧ sep ∉ rest := by
  obtain ⟨rest, front, hrev, hrest⟩ := List.eq_append_cons_of_mem (List.mem_reverse.2 h)
  refine ⟨front.reverse, rest.reverse, ?_, by simpa using hrest⟩
  rw [← s.reverse_reverse, hrev]
  simp

theorem lastCut_unique {front front' rest rest' : Bytes} (h : sep ∉ rest) (h' : sep ∉ rest')
    (heq : front ++ sep :: rest = front' ++ sep :: rest') : front = front' ∧ rest = rest' := by
  have hsplits := reverse_splits front h
  rw [heq, (reverse_splits front' h').1, (reverse_splits front' h').2, List.cons.injEq,
    List.reverse_inj, List.reverse_inj] at hsplits
  exact ⟨hsplits.2.2.symm, hsplits.1.symm⟩

theorem suffix_of_notMem {front rest s : Bytes} (h : sep ∉ s)
    (hsuffix : s <:+ front ++ sep :: rest) : s <:+ rest := by
  obtain hin | hover :=
    List.suffix_or_suffix_of_suffix hsuffix (List.suffix_append front (sep :: rest))
  · obtain rfl | hin := List.suffix_cons_iff.1 hin
    · exact absurd (List.mem_cons_self ..) h
    · exact hin
  · exact absurd (hover.subset (List.mem_cons_self ..)) h

theorem cons_suffix_append {rest front s : Bytes} (h : sep ∉ front) :
    sep :: rest <:+ front ++ s ↔ sep :: rest <:+ s := by
  refine ⟨fun hsuffix => ?_, fun hsuffix => hsuffix.trans (List.suffix_append front s)⟩
  obtain hin | ⟨extra, hextra⟩ :=
    List.suffix_or_suffix_of_suffix hsuffix (List.suffix_append front s)
  · exact hin
  · -- the suffix starts in the front or with `s`
    cases extra with
    | nil => exact ⟨[], hextra.symm⟩
    | cons b extra =>
      rw [List.cons_append, List.cons.injEq] at hextra
      obtain ⟨before, hbefore⟩ := hsuffix
      rw [← hextra.2, ← hextra.1, ← List.cons_append, ← List.append_assoc] at hbefore
      rw [← List.append_cancel_right hbefore, hextra.1] at h
      simp at h

end AccessLayer.Bytes
