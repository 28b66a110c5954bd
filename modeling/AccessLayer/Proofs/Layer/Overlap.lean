import AccessLayer.Proofs.Config.Faults
import AccessLayer.Proofs.Files.Spellings

/-!
# The output directory and the input directories

The check of settings compares the clean forms of the output directory and of each input directory,
and does not know the root of the project. It sees that two directories are one unless one of them
is disguised: written as an absolute path beside a relative one, or with a detour over a directory
above the root.

* `Project.place_eq_outputDir_iff`: when an input directory is the output directory.
* `outputDir_apart_iff`: when the output directory is no input directory.
-/

namespace AccessLayer.Layer

variable {root : Bytes} {settings : Settings} {verbose : Bool} {p : Project}

/-- An input directory of a checked project is the output directory iff it is a disguise. -/
theorem Project.place_eq_outputDir_iff (hroot : Path.isAbs root)
    (hp : Project.ofSettings root settings verbose = .ok p) {dir : Bytes}
    (hdir : dir ∈ settings.watchDirs) :
    p.place dir = p.outputDir ↔ Path.Disguised (Path.names root) dir settings.paths.output := by
  obtain ⟨hsettings, rfl⟩ := Project.ofSettings_eq_ok_iff.1 hp
  have hclean : Path.isAbs (Path.clean root) = true := by rw [(Path.names_clean root).2, hroot]
  rw [Project.outputDir, Project.place, Project.place, Path.resolve_eq_resolve_iff hclean,
    (Path.names_clean root).1]
  exact or_iff_right (hsettings.apart dir hdir)

/-- The output directory of a project whose settings pass the check is no input directory if and
only if none is a disguise of it. This is so for every input directory that is absolute if the
output directory is, relative if it is, and in the second case leaves as many directories above the
root as it does. -/
theorem outputDir_apart_iff (hroot : Path.isAbs root = true)
    (hp : Project.ofSettings root settings verbose = .ok p) :
    ((∀ dir ∈ settings.watchDirs, p.place dir ≠ p.outputDir) ↔
        ∀ dir ∈ settings.watchDirs, ¬ Path.Disguised (Path.names root) dir settings.paths.output) ∧
      ∀ dir ∈ settings.watchDirs, Path.isAbs dir = Path.isAbs settings.paths.output →
        Path.climbs dir = Path.climbs settings.paths.output → p.place dir ≠ p.outputDir := by
  refine ⟨forall₂_congr fun dir hdir => not_congr (p.place_eq_outputDir_iff hroot hp hdir),
    fun dir hdir habs hup => ?_⟩
  rw [Ne, p.place_eq_outputDir_iff hroot hp hdir]
  exact Path.not_disguised habs hup

/-- The conventional layout with another output directory. -/
def outputTo (output : Bytes) : Settings := { paths := { output } }

/-- The project at `/p` with this output directory. -/
def projectTo (output : Bytes) : Project :=
  { root := "/p", settings := outputTo output, exclude := [] }

/-- None of three output directories is found at fault. The first one is in a directory beside the
root, the other two are the schemas, as an absolute path and over the directory above the root. -/
theorem outputTo_faults :
    (outputTo "/p/../q//schemas").faults = [] ∧ (outputTo "/p/schemas").faults = [] ∧
      (outputTo "../p/./schemas").faults = [] ∧
      (∀ dir ∈ (outputTo "/p/../q//schemas").watchDirs,
        ¬ Path.Disguised (Path.names "/p") dir "/p/../q//schemas") ∧
      (projectTo "/p/schemas").place "schemas" = (projectTo "/p/schemas").outputDir ∧
      (projectTo "../p/./schemas").place "schemas" = (projectTo "../p/./schemas").outputDir := by
  decide

theorem ofSettings_outputTo {output : Bytes} (h : (outputTo output).faults = []) :
    Project.ofSettings "/p" (outputTo output) false = .ok (projectTo output) :=
  Project.ofSettings_eq_ok_iff.2 ⟨Settings.faults_eq_nil_iff.1 h, rfl⟩

/-- An output directory beside the root is no input directory. -/
theorem outputDir_apart_iff_beside :
    Project.ofSettings "/p" (outputTo "/p/../q//schemas") false =
      .ok (projectTo "/p/../q//schemas") ∧
      ∀ dir ∈ (outputTo "/p/../q//schemas").watchDirs,
        (projectTo "/p/../q//schemas").place dir ≠ (projectTo "/p/../q//schemas").outputDir := by
  obtain ⟨hfaults, -, -, hapart, -⟩ := outputTo_faults
  exact ⟨ofSettings_outputTo hfaults,
    (outputDir_apart_iff rfl (ofSettings_outputTo hfaults)).1.2 hapart⟩

/-- The directory of the schemas passes the check as the output directory. -/
theorem outputDir_is_schemas :
    (Project.ofSettings "/p" (outputTo "/p/schemas") false = .ok (projectTo "/p/schemas") ∧
        (projectTo "/p/schemas").place (outputTo "/p/schemas").paths.schemas =
          (projectTo "/p/schemas").outputDir) ∧
      Project.ofSettings "/p" (outputTo "../p/./schemas") false = .ok (projectTo "../p/./schemas") ∧
        (projectTo "../p/./schemas").place (outputTo "../p/./schemas").paths.schemas =
          (projectTo "../p/./schemas").outputDir := by
  obtain ⟨-, hroot, hdetour, -, hroot', hdetour'⟩ := outputTo_faults
  exact ⟨⟨ofSettings_outputTo hroot, hroot'⟩, ofSettings_outputTo hdetour, hdetour'⟩

end AccessLayer.Layer
