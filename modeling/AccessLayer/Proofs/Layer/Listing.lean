import AccessLayer.Proofs.Config.Faults
import AccessLayer.Proofs.Layer.StatementCalls

/-!
# Definition files by name and by listing

A pass lists the definition files of a directory: those with the extension of the settings after
their last point that no pattern excludes. An endpoint asks for one by name and gets the file at the
path that the name, the directory and the extension spell. That path may lead into another
directory, the extension may have a second point, and patterns are not held against it.

* `listed_iff`: the files that a listing gives.
* `hasSource_ofNames`: the files that can be asked for.
* `findSource_listed_iff`: when a file that is found by name is listed.
-/

namespace AccessLayer.Layer

open AccessLayer.Path (dir_ofNames ext isAbs names ofNames separator)

variable {p : Project} {s s' : Session}

/-! ## Listings -/

/-- A listing of the definition files of a directory has the path. -/
def Listed (p : Project) (s : Session) (dir path : Bytes) : Prop :=
  ∃ files, (p.sources dir).Gives s files s ∧ path ∈ files

theorem listed_iff (hroot : isAbs p.root) (hs : s.tree.WellFormed) {dir path : Bytes} :
    Listed p s dir path ↔
      ∃ n content, Tree.Nameable (names (p.place dir)) ∧
        s.tree.fileAt? (names (p.place dir) ++ [n]) = some content ∧ ext n = p.settings.extension ∧
        p.isExcluded path = false ∧ path = ofNames true (names (p.place dir) ++ [n]) := by
  have hx := Project.proper_place hroot dir
  constructor
  · rintro ⟨files, hfiles, hpath⟩
    obtain ⟨r, s₁, hlist, hpure⟩ := Task.gives_bind.1 hfiles
    obtain ⟨rfl, rfl⟩ := Task.gives_pure.1 hpure
    obtain ⟨n, content, hin, hsource, rfl⟩ := Project.mem_sourcesAmong.1 hpath
    rw [Project.place_eq hroot dir] at hlist
    obtain ⟨-, hplace, -, hmem⟩ := gives_listDir_ofNames hs hx hlist
    have hfile := (hmem _ _).1 hin
    have hjoin := Project.join_place hroot dir (hs.proper_of_get? hfile n (by simp))
    obtain ⟨rfl, -⟩ | ⟨-, -, hname⟩ := hplace
    · cases hin
    · rw [Bool.and_eq_true, beq_iff_eq, Bool.not_eq_true'] at hsource
      exact ⟨n, content, hname, Tree.fileAt?_eq_some.2 hfile, hsource.1, hsource.2, hjoin⟩
  · rintro ⟨n, content, hname, hfile, hext, hkept, rfl⟩
    have hget := Tree.fileAt?_eq_some.1 hfile
    have hread := Tree.readDir_of_get? hs s.cwd (hs.parent_get? hget) hname
    have hjoin := Project.join_place hroot dir (hs.proper_of_get? hget n (by simp))
    rw [← Project.place_eq hroot dir] at hread
    refine ⟨_, Task.gives_bind.2 ⟨_, s, Task.gives_listDir.2 ⟨rfl, .inl ⟨_, hread, rfl⟩⟩,
      Task.gives_pure.2 ⟨rfl, rfl⟩⟩,
      Project.mem_sourcesAmong.2 ⟨n, content, hs.mem_children.2 hget, ?_, hjoin.symm⟩⟩
    rw [hjoin, hext, hkept, beq_self_eq_true, Bool.not_false, Bool.and_true]

/-! ## Files by name -/

theorem hasSource_ofNames {t : Tree} (ht : t.WellFormed) (cwd : Place) {x : Place}
    (hx : ∀ n ∈ x, Path.Proper n) :
    hasSource t cwd (ofNames true x) ↔ Tree.Nameable x ∧ ∃ content, t.fileAt? x = some content := by
  obtain ⟨hloc, hname, -⟩ | ⟨f, hloc, -⟩ := Tree.locate_cases ht cwd hx
  · cases hget : t.get? x with
    | none => simp [hasSource, Tree.stat, hloc, hget, Tree.fileAt?]
    | some e =>
      cases e <;> simp [hasSource, Tree.stat, hloc, hget, Tree.fileAt?, Entry.isFile, hname]
  · have hnone : ¬ (Tree.Nameable x ∧ ∃ content, t.fileAt? x = some content) := by
      rintro ⟨hname, content, hfile⟩
      rw [ht.locate_of_get? cwd (Tree.fileAt?_eq_some.1 hfile) hname] at hloc
      cases hloc
    simp [hasSource, Tree.stat, hloc, hnone]

theorem mem_of_mem_trimEnd {part text : Bytes} {b : UInt8} (h : b ∈ Bytes.trimEnd part text) :
    b ∈ text := by
  rw [Bytes.trimEnd, Bytes.dropEnd?] at h
  split at h
  · exact List.mem_of_mem_take h
  · exact h

/-- The name of a definition file that is asked for without a slash. -/
theorem proper_sourceName (hlen : 2 ≤ p.settings.extension.length)
    (hext : ext p.settings.extension = p.settings.extension) {name : Bytes}
    (hname : separator ∉ name) : Path.Proper (sourceStem p name ++ p.settings.extension) := by
  have hsep : separator ∉ sourceStem p name ++ p.settings.extension := by
    rw [List.mem_append, not_or]
    exact ⟨fun h => hname (mem_of_mem_trimEnd (mem_of_mem_trimEnd h)),
      hext ▸ Path.separator_notMem_ext _⟩
  exact (Path.proper_of_suffix hext hlen hsep (List.suffix_append _ _)).1

section

variable (hroot : isAbs p.root = true) (hlen : 2 ≤ p.settings.extension.length)
  (hext : ext p.settings.extension = p.settings.extension)
include hroot hlen hext

/-- The path of a definition file ends in a name with the extension of definitions. -/
theorem sourcePath_eq (dir name : Bytes) : ∃ x n, sourcePath p dir name = ofNames true (x ++ [n]) ∧
    (∀ m ∈ x ++ [n], Path.Proper m) ∧ ext n = p.settings.extension := by
  have hne : sourceStem p name ++ p.settings.extension ≠ [] := by
    refine List.ne_nil_of_length_pos ?_
    rw [List.length_append]
    omega
  have habs : isAbs (p.place dir ++ separator :: (sourceStem p name ++ p.settings.extension)) =
      true := by
    rw [Project.place_eq hroot]
    rfl
  rw [sourcePath, Path.join_pair (by rw [Project.place_eq hroot]; simp [ofNames]) hne]
  refine Path.clean_of_suffix hext hlen habs ?_
  rw [← List.cons_append, ← List.append_assoc]
  exact List.suffix_append _ _

/-- A name without a slash is looked up in the directory itself. -/
theorem dir_sourcePath (dir : Bytes) {name : Bytes} (hname : separator ∉ name) :
    Path.dir (sourcePath p dir name) = p.place dir := by
  have hproper := proper_sourceName hlen hext hname
  rw [sourcePath, Project.join_place hroot dir hproper,
    dir_ofNames (Project.proper_place hroot dir) hproper, ← Project.place_eq hroot]

/-- A name without a slash is that of the file, up to the extension. -/
theorem base_sourcePath (dir : Bytes) {name : Bytes} (hname : separator ∉ name) :
    Path.base (sourcePath p dir name) = sourceStem p name ++ p.settings.extension := by
  have hproper := proper_sourceName hlen hext hname
  rw [sourcePath, Project.join_place hroot dir hproper, Path.base_ofNames hproper]

/-- A file that is found in the directory itself and is not excluded is listed. -/
theorem listed_sourcePath (hs : s.tree.WellFormed) {dir name : Bytes}
    (hfound : hasSource s.tree s.cwd (sourcePath p dir name))
    (hdir : Path.dir (sourcePath p dir name) = p.place dir)
    (hkept : p.isExcluded (sourcePath p dir name) = false) :
    Listed p s dir (sourcePath p dir name) := by
  obtain ⟨x, n, hpath, hproper, hn⟩ := sourcePath_eq hroot hlen hext dir name
  have hx : x = names (p.place dir) := by
    rw [← hdir, hpath, dir_ofNames (fun m hm => hproper m (by simp [hm])) (hproper n (by simp)),
      Path.names_ofNames fun m hm => hproper m (by simp [hm])]
  subst hx
  rw [hpath] at hfound
  obtain ⟨hname, content, hfile⟩ := (hasSource_ofNames hs _ hproper).1 hfound
  refine (listed_iff hroot hs).2 ⟨n, content, ?_, hfile, hn, hkept, hpath⟩
  rw [Tree.nameable_iff] at hname ⊢
  exact fun m hm => hname m (by simp [hm])

end

/-! ## Listed files -/

variable {root : Bytes} {settings : Settings} {verbose : Bool}

/-- A file that is found by name is listed if and only if it is in the directory, the extension of
the settings has one point, and no pattern excludes the file. With such an extension a name without
a slash leads to a file in the directory. -/
theorem findSource_listed_iff (hroot : isAbs root = true)
    (hp : Project.ofSettings root settings verbose = .ok p)
    (hs : s.tree.WellFormed) {kind : SourceKind} {dir name path : Bytes}
    (h : (findSource p kind dir name).Gives s path s') :
    (Listed p s dir path ↔
        Path.dir path = p.place dir ∧ ext settings.extension = settings.extension ∧
          p.isExcluded path = false) ∧
      (ext settings.extension = settings.extension → separator ∉ name →
        Path.dir path = p.place dir) := by
  obtain ⟨rfl, hfound, rfl⟩ := gives_findSource.1 h
  obtain ⟨hsettings, hproject⟩ := Project.ofSettings_eq_ok_iff.1 hp
  have hclean : isAbs p.root = true := by
    rw [hproject, Path.clean_of_isAbs hroot]
    rfl
  have hsame : p.settings = settings := by rw [hproject]
  have hlen : 2 ≤ p.settings.extension.length := by
    rw [hsame]
    exact hsettings.two_le_extension
  rw [← hsame]
  refine ⟨⟨fun hlisted => ?_, ?_⟩, fun hext hname => dir_sourcePath hclean hlen hext dir hname⟩
  · obtain ⟨n, content, -, hfile, hext, hkept, hpath⟩ := (listed_iff hclean hs).1 hlisted
    have hproper := hs.proper_of_get? (Tree.fileAt?_eq_some.1 hfile) n (by simp)
    refine ⟨?_, by rw [← hext, Path.ext_ext], hkept⟩
    rw [hpath, dir_ofNames (Project.proper_place hclean dir) hproper, ← Project.place_eq hclean]
  · rintro ⟨hdir, hext, hkept⟩
    exact listed_sourcePath hclean hlen hext hs hfound hdir hkept

def listingSettings (extension : Bytes) (exclude : List Bytes) : Settings := { extension, exclude }

/-- The project at `/p` with these settings. -/
def listingProject (extension : Bytes) (exclude : List Bytes) : Project :=
  { root := "/p", settings := listingSettings extension exclude
    exclude := exclude.filterMap fun pattern => (Glob.parse pattern).toOption }

/-- A project with queries of one name: two in the directory of queries and one below it. -/
def listingSession : Session :=
  { tree := ⟨[(["p"], .dir), (["p", "queries"], .dir), (["p", "queries", "find.surql"], .file []),
      (["p", "queries", "find.surql.txt"], .file []), (["p", "queries", "sub"], .dir),
      (["p", "queries", "sub", "find.surql"], .file [])]⟩ }

/-- In `listingSession`, `findSource` finds the query `name` at `path`, and `p.sources` lists
`files`. -/
def Shows (p : Project) (name path : Bytes) (files : List Bytes) : Prop :=
  ((findSource p .query "queries" name).runIn listingSession).1.toOption = some path ∧
    ((p.sources "queries").runIn listingSession).1.toOption = some files

instance (p : Project) (name path : Bytes) (files : List Bytes) :
    Decidable (Shows p name path files) :=
  inferInstanceAs (Decidable (_ ∧ _))

theorem ofSettings_listing {extension : Bytes} {exclude : List Bytes}
    (h : (listingSettings extension exclude).faults = []) :
    Project.ofSettings "/p" (listingSettings extension exclude) false =
      .ok (listingProject extension exclude) :=
  Project.ofSettings_eq_ok_iff.2 ⟨Settings.faults_eq_nil_iff.1 h, rfl⟩

theorem Shows.gives {name path : Bytes} {files : List Bytes} (h : Shows p name path files) :
    (findSource p .query "queries" name).Gives listingSession path listingSession := by
  have hfound := Task.gives_of_toOption h.1
  rwa [(gives_findSource.1 hfound).2.2] at hfound

theorem Shows.not_listed {name path : Bytes} {files : List Bytes} (h : Shows p name path files)
    (hpath : path ∉ files) : ¬ Listed p listingSession "queries" path := by
  rintro ⟨listed, hlisted, hmem⟩
  cases (Task.ends_unique (Task.gives_of_toOption h.2) hlisted).1
  exact hpath hmem

theorem shows_detour :
    listingSession.tree.WellFormed ∧
      (listingProject ".surql" ["draft*"]).isExcluded "/p/queries/find.surql" = false ∧
      (listingSettings ".surql" ["draft*"]).faults = [] ∧
      Shows (listingProject ".surql" ["draft*"]) "sub/../find.surql.go" "/p/queries/find.surql"
        ["/p/queries/find.surql"] := by
  decide +kernel

/-- A query that is found by a detour and with both extensions is listed. -/
theorem findSource_listed_iff_detour :
    (findSource (listingProject ".surql" ["draft*"]) .query "queries" "sub/../find.surql.go").Gives
      listingSession
        "/p/queries/find.surql" listingSession ∧
      Listed (listingProject ".surql" ["draft*"]) listingSession "queries"
        "/p/queries/find.surql" := by
  obtain ⟨htree, hkept, hfaults, hshows⟩ := shows_detour
  exact ⟨hshows.gives,
    (findSource_listed_iff rfl (ofSettings_listing hfaults) htree hshows.gives).1.2
      ⟨by decide, by decide, hkept⟩⟩

theorem shows_unlisted :
    ((listingSettings ".surql" ["find.surql"]).faults = [] ∧
        Shows (listingProject ".surql" ["find.surql"]) "find" "/p/queries/find.surql" []) ∧
      ((listingSettings ".surql" []).faults = [] ∧
        Shows (listingProject ".surql" []) "sub/find" "/p/queries/sub/find.surql"
          ["/p/queries/find.surql"]) ∧
      (listingSettings ".surql.txt" []).faults = [] ∧
        Shows (listingProject ".surql.txt" []) "find" "/p/queries/find.surql.txt" [] := by
  decide +kernel

/-- A query that is excluded, one in a directory below and one with an extension of two points are
found and not listed. -/
theorem findSource_unlisted :
    (Project.ofSettings "/p" (listingSettings ".surql" ["find.surql"]) false =
          .ok (listingProject ".surql" ["find.surql"]) ∧
        (findSource (listingProject ".surql" ["find.surql"]) .query "queries" "find").Gives
          listingSession
          "/p/queries/find.surql" listingSession ∧
        ¬ Listed (listingProject ".surql" ["find.surql"]) listingSession "queries"
          "/p/queries/find.surql") ∧
      (Project.ofSettings "/p" (listingSettings ".surql" []) false =
        .ok (listingProject ".surql" []) ∧
        (findSource (listingProject ".surql" []) .query "queries" "sub/find").Gives listingSession
          "/p/queries/sub/find.surql" listingSession ∧
        ¬ Listed (listingProject ".surql" []) listingSession "queries"
          "/p/queries/sub/find.surql") ∧
      Project.ofSettings "/p" (listingSettings ".surql.txt" []) false =
        .ok (listingProject ".surql.txt" []) ∧
        (findSource (listingProject ".surql.txt" []) .query "queries" "find").Gives listingSession
          "/p/queries/find.surql.txt" listingSession ∧
        ¬ Listed (listingProject ".surql.txt" []) listingSession "queries"
          "/p/queries/find.surql.txt" := by
  obtain ⟨⟨hexcluding, hexcluded⟩, ⟨hplain, hbelow⟩, htwo, hpoints⟩ := shows_unlisted
  exact ⟨⟨ofSettings_listing hexcluding, hexcluded.gives, hexcluded.not_listed List.not_mem_nil⟩,
    ⟨ofSettings_listing hplain, hbelow.gives, hbelow.not_listed (by decide)⟩,
    ofSettings_listing htwo, hpoints.gives, hpoints.not_listed List.not_mem_nil⟩

end AccessLayer.Layer
