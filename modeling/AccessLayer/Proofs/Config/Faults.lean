import AccessLayer.Layer.Project
import Mathlib.Data.List.Basic

/-!
# Settings without faults

What is known of the settings of a project, all of which have passed the check.

* `Settings.Faultless`: settings that pass the check.
* `Settings.faults_eq_nil_iff`: the check finds nothing in exactly these.
* `Layer.Project.ofSettings_eq_ok_iff`: the projects that are made from settings.
-/

namespace AccessLayer

namespace Settings

/-- Settings that pass the check: all directories are set, no input directory is spelled like the
output directory, the extension is a point and something after it, and all patterns can be read. -/
structure Faultless (s : Settings) : Prop where
  set : ∀ path ∈ s.paths.keyed, Bytes.trim path.2 ≠ []
  apart : ∀ dir ∈ s.watchDirs, Path.clean dir ≠ Path.clean s.paths.output
  extension : isExtension s.extension = true
  patterns : ∀ pattern ∈ s.exclude, (Glob.parse pattern).toOption.isSome = true

variable {s : Settings}

theorem Faultless.two_le_extension (h : s.Faultless) : 2 ≤ s.extension.length := by
  have hextension := h.extension
  rw [isExtension, Bool.and_eq_true, decide_eq_true_eq] at hextension
  exact hextension.2

theorem emptyPaths_eq_nil_iff :
    s.emptyPaths = [] ↔ ∀ path ∈ s.paths.keyed, Bytes.trim path.2 ≠ [] := by
  rw [emptyPaths, List.filterMap_eq_nil_iff]
  simp

/-- A directory that is set is not empty. -/
theorem ne_nil_of_set (h : ∀ path ∈ s.paths.keyed, Bytes.trim path.2 ≠ []) :
    s.paths.output ≠ [] ∧ ∀ dir ∈ s.watchDirs, dir ≠ [] := by
  have hset : ∀ path ∈ s.paths.keyed, path.2 ≠ [] := by
    intro path hpath hempty
    exact h path hpath (by rw [hempty]; rfl)
  simp only [Directories.keyed, List.forall_mem_cons, List.not_mem_nil, false_imp_iff, implies_true,
    and_true] at hset
  obtain ⟨hschemas, hqueries, hmutations, hevents, houtput, -⟩ := hset
  simp [watchDirs, hschemas, hqueries, hmutations, hevents, houtput]

theorem overlaps_eq_nil_iff (h : ∀ path ∈ s.paths.keyed, Bytes.trim path.2 ≠ []) :
    s.overlaps = [] ↔ ∀ dir ∈ s.watchDirs, Path.clean dir ≠ Path.clean s.paths.output := by
  obtain ⟨houtput, hdirs⟩ := ne_nil_of_set h
  rw [overlaps, if_neg (by simpa using houtput), List.filterMap_eq_nil_iff]
  refine forall₂_congr fun dir hdir => ?_
  simp [hdirs dir hdir]

theorem badPatterns_eq_nil_iff :
    s.badPatterns = [] ↔ ∀ pattern ∈ s.exclude, (Glob.parse pattern).toOption.isSome := by
  rw [badPatterns, List.filterMap_eq_nil_iff]
  refine forall₂_congr fun pattern _ => ?_
  cases Glob.parse pattern <;> simp [Except.toOption]

theorem faults_eq_nil_iff : s.faults = [] ↔ s.Faultless := by
  simp only [faults, List.append_eq_nil_iff, badPatterns_eq_nil_iff, emptyPaths_eq_nil_iff]
  constructor
  · rintro ⟨⟨⟨hset, hoverlaps⟩, hextension⟩, hpatterns⟩
    exact ⟨hset, (overlaps_eq_nil_iff hset).1 hoverlaps, by simpa using hextension, hpatterns⟩
  · rintro ⟨hset, hapart, hextension, hpatterns⟩
    exact ⟨⟨⟨hset, (overlaps_eq_nil_iff hset).2 hapart⟩, by simp [hextension]⟩, hpatterns⟩

end Settings

namespace Layer.Project

theorem ofSettings_eq_ok_iff {root : Bytes} {settings : Settings} {verbose : Bool} {p : Project} :
    ofSettings root settings verbose = .ok p ↔ settings.Faultless ∧
      p = { root := Path.clean root, settings, verbose
            exclude := settings.exclude.filterMap fun pattern =>
              (Glob.parse pattern).toOption } := by
  rw [← Settings.faults_eq_nil_iff]
  unfold ofSettings
  cases settings.faults with
  | nil => simp [eq_comm]
  | cons fault faults => simp

end Layer.Project

end AccessLayer
