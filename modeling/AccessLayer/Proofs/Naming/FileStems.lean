import AccessLayer.Files.Path
import AccessLayer.Naming.FileStem
import AccessLayer.Proofs.Text.Utf8

/-!
# Stems are file names

The stem of a module is the name of a file in the directory of its package, and not the one of the
index of the package.

* `fileStem_ne_indexStem`: no module takes the place of the index.
* `separator_notMem_flatName`, `separator_notMem_fileStem`: a stem stays in its directory.
-/

namespace AccessLayer.Naming

theorem separator_notMem_flatName (name : Bytes) : Path.separator ∉ flatName name := by
  intro hmem
  rw [flatName, Bytes.ofChars, List.mem_flatMap] at hmem
  obtain ⟨c, hc, hmem⟩ := hmem
  obtain ⟨d, -, rfl⟩ := List.mem_map.1 hc
  refine Utf8.notMem_encode (by decide) ?_ hmem
  split_ifs with hd
  · decide
  · rw [Bool.or_eq_true, not_or] at hd
    intro hval
    have hslash : d = '/' := Char.ext (UInt32.toNat_inj.1 hval)
    exact hd.1 (by simp [hslash])

theorem separator_notMem_fileStem (name : Bytes) : Path.separator ∉ fileStem name := by
  have hflat := separator_notMem_flatName name
  unfold fileStem
  dsimp only
  split_ifs
  · rw [List.mem_append, not_or]
    exact ⟨hflat, by decide⟩
  · rw [List.mem_append, not_or]
    exact ⟨by decide, hflat⟩
  · exact hflat

theorem append_gen_ne_indexStem (stem : Bytes) : stem ++ Bytes.ofString "_gen" ≠ indexStem := by
  intro h
  have hlen := congrArg List.length h
  rw [List.length_append] at hlen
  have h3 : indexStem.length = 3 := by decide
  have h4 : (Bytes.ofString "_gen").length = 4 := by decide
  omega

theorem gen_append_ne_indexStem (stem : Bytes) : Bytes.ofString "gen" ++ stem ≠ indexStem := by
  intro h
  have hhead : (Bytes.ofString "gen" ++ stem).head? = some (Bytes.byte 'g') := rfl
  rw [h] at hhead
  exact absurd hhead (by decide)

theorem fileStem_ne_indexStem (name : Bytes) : fileStem name ≠ indexStem := by
  unfold fileStem
  dsimp only
  split_ifs with hclash hhidden
  · exact append_gen_ne_indexStem _
  · exact gen_append_ne_indexStem _
  · rw [Bool.or_eq_true, Bool.or_eq_true, not_or, not_or] at hclash
    simpa using hclash.1.1

end AccessLayer.Naming
