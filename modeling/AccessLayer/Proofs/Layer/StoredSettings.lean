import AccessLayer.Layer.SettingsFile
import AccessLayer.Proofs.Files.Trees
import AccessLayer.Proofs.Layer.Tasks

/-!
# Settings that are written and loaded

Settings that are written to a root are the ones that are loaded from it, or their faults are
reported. The file is written to the root as it is spelled, but looked for where the variables that
the root names lead, and an empty root is not looked at.

* `Tree.readFile_of_writeFile`: a file that is written can be read.
* `Settings.ofLayers_stored`: the stored form of settings stands for them.
* `loadSettings_of_writeSettings`: the settings that are loaded after they are written.
-/

namespace AccessLayer

open AccessLayer.Path (join)

/-! ## Files that are written -/

namespace Tree

variable {t u : Tree} {cwd : Place} {path content : Bytes}

/-- Walking needs nothing but the directories on the way. -/
theorem walk_of_dirs (h : ∀ w, t.get? w = some .dir → u.get? w = some .dir) {y z : Place}
    {ns : List Bytes} (hw : t.walk y ns = .ok z) : u.walk y ns = .ok z := by
  induction ns generalizing y with
  | nil => exact hw
  | cons n ns ih =>
    rw [walk] at hw ⊢
    have hdir : t.get? y = some .dir := by
      cases hget : t.get? y with
      | none => split_ifs at hw <;> simp [hget] at hw
      | some e =>
        cases e with
        | dir => rfl
        | file c => split_ifs at hw <;> simp [hget] at hw
    simp only [hdir] at hw
    simp only [h y hdir]
    split_ifs at hw ⊢ <;> exact ih hw

/-- A file that is written can be found and read under the same path. -/
theorem readFile_of_writeFile (h : t.writeFile cwd path content = .ok u) :
    u.readFile cwd path = .ok content ∧ u.stat cwd path = .ok (.file content) := by
  obtain ⟨z, hloc, hfile, rfl⟩ := writeFile_eq_ok h
  have hne : z ≠ [] := by
    rintro rfl
    exact hfile (get?_nil t)
  have hloc' : (t.set z (.file content)).locate cwd path = .ok z := by
    have hdirs : ∀ w, t.get? w = some .dir → (t.set z (.file content)).get? w = some .dir := by
      intro w hw
      rw [get?_set t hne, if_neg, hw]
      rintro rfl
      exact hfile hw
    unfold locate at hloc ⊢
    split_ifs at hloc ⊢ <;> exact walk_of_dirs hdirs hloc
  have hget : (t.set z (.file content)).get? z = some (.file content) := by
    rw [get?_set t hne, if_pos rfl]
  exact ⟨by simp only [readFile, hloc', hget], by simp only [stat, hloc', hget]⟩

end Tree

/-! ## The stored form of settings -/

namespace Settings

def stored (c : Settings) : List (Bytes × Yaml.Value) := c.fields.map fun f => (f.1, f.2.value)

theorem asTexts?_texts (ss : List Bytes) : (Yaml.Field.texts ss).value.asTexts? = some ss := by
  rw [Yaml.Field.value, Yaml.Value.asTexts?]
  induction ss with
  | nil => rfl
  | cons s ss ih =>
    rw [List.map_cons, List.mapM_cons, ih]
    rfl

/-- Keys in lower case stay as they are. -/
theorem lowerEntries_stored (c : Settings) : lowerEntries c.stored = c.stored := by
  rfl

section

variable (c : Settings) {env : List (Bytes × Bytes)}
  (henv : ∀ x ∈ env, ¬ Layers.variableStart <+: x.1)
include henv

theorem lookup?_stored (key : Bytes) : Layers.lookup? { stored := c.stored, env } key = none := by
  have hnone : env.lookup (Layers.variableStart ++ Bytes.toUpper key) = none := by
    rw [List.lookup_eq_none_iff]
    intro x hx
    rw [bne_iff_ne]
    rintro heq
    exact henv x hx (heq ▸ List.prefix_append _ _)
  rw [Layers.lookup?, hnone]

theorem value?_stored (key : Bytes) :
    Layers.value? { stored := c.stored, env } key =
      Layers.stored? { stored := c.stored, env } key := by
  rw [Layers.value?, lookup?_stored c henv]
  rfl

theorem pathValue?_stored (key : Bytes) :
    Layers.pathValue? { stored := c.stored, env } key =
      Layers.storedPath? { stored := c.stored, env } key := by
  rw [Layers.pathValue?, lookup?_stored c henv, lookup?_stored c henv]
  rfl

theorem ofLayers_paths : Directories.ofLayers { stored := c.stored, env } = some c.paths := by
  simp only [Directories.ofLayers, pathValue?_stored c henv]
  rfl

/-- The stored form of settings stands for them, as long as no variable does. -/
theorem ofLayers_stored : ofLayers { stored := c.stored, env } = some c := by
  have hexclude : ∀ d, orDefault Yaml.Value.asTexts?
      (Layers.stored? { stored := c.stored, env } "exclude") d =
      some c.exclude := fun _ => asTexts?_texts c.exclude
  have hreadOnly : ∀ d, orDefault Yaml.Value.asTexts?
      (Layers.stored? { stored := c.stored, env } "read_only_tables") d =
      some c.readOnlyTables := fun _ => asTexts?_texts c.readOnlyTables
  simp only [ofLayers, value?_stored c henv, ofLayers_paths c henv, hexclude, hreadOnly]
  rfl

end

end Settings

namespace Layer

variable {s s' : Session} {root path : Bytes} {c : Settings} {force : Bool}
  {env : List (Bytes × Bytes)}

/-! ## Writing and loading -/

theorem gives_writeSettings (h : (writeSettings root c force).Gives s path s') :
    path = join [root, settingsFile] ∧
      ∃ t, s.tree.writeFile s.cwd path (Yaml.write c.fields) = .ok t ∧
      s' = { s with tree := t } := by
  unfold writeSettings at h
  rw [Task.gives_get_bind] at h
  dsimp only at h
  split_ifs at h
  · exact absurd h Task.not_gives_throw_bind
  · cases hwrite : s.tree.writeFile s.cwd (join [root, settingsFile]) (Yaml.write c.fields) with
    | error e =>
      simp only [hwrite] at h
      exact absurd h Task.not_gives_throw
    | ok t =>
      simp only [hwrite] at h
      rw [Task.Gives, Task.ends_set_bind] at h
      obtain ⟨rfl, hs⟩ := Task.gives_pure.1 h
      exact ⟨rfl, t, hwrite, hs⟩

/-- A file that is there is kept unless the write is forced. -/
theorem writeSettings_exists (c : Settings)
    (h : (s.tree.stat s.cwd (join [root, settingsFile])).toOption.isSome) :
    (writeSettings root c false).Ends s (.error (.settingsExist (join [root, settingsFile])))
      s := by
  unfold writeSettings
  rw [Task.ends_get_bind, h]
  exact Task.ends_bind.2 (.inl ⟨_, Task.ends_throw.2 ⟨rfl, rfl⟩, rfl⟩)

/-- A path without a dollar sign is searched as it is. -/
theorem searchedDir_of_plain (h : Path.dollar ∉ root) : searchedDir env root = root := by
  have hhome : atHome env root = root := by
    refine if_neg fun hstart => h ?_
    simp only [Bool.or_eq_true, beq_iff_eq, List.isPrefixOf_iff_prefix] at hstart
    obtain rfl | hstart := hstart
    · exact List.mem_cons_self
    · exact hstart.subset List.mem_cons_self
  have hpieces : Path.piecesAfter 0 root = root.map .byte := by
    clear hhome
    induction root with
    | nil => rfl
    | cons b root ih =>
      rw [List.mem_cons, not_or] at h
      rw [Path.piecesAfter, if_neg (by simpa using Ne.symm h.1), ih h.2, List.map_cons]
  rw [searchedDir, hhome, Path.expand, Path.pieces, hpieces, List.flatMap_map]
  exact List.flatMap_singleton' root

theorem findSettings?_eq_some (hroot : root ≠ []) (hdir : searchedDir env root = root)
    (hfile : isFileAt s (join [root, settingsFile]))
    (hother : ∀ name ∈ settingsNames, name ≠ settingsFile →
      isFileAt s (join [root, name]) = false) :
    findSettings? s env root = some (join [root, settingsFile]) := by
  have hnames : settingsNames = settingsNames.take 2 ++ settingsFile :: settingsNames.drop 3 := by
    decide
  have hbefore : ∀ name ∈ settingsNames.take 2, name ∈ settingsNames ∧ name ≠ settingsFile := by
    decide
  rw [findSettings?, if_neg (by simpa using hroot), hdir, List.find?_map, Option.map_eq_some_iff]
  refine ⟨settingsFile, List.find?_eq_some_iff_append.2 ⟨hfile, _, _, hnames, fun name hname => ?_⟩,
    rfl⟩
  obtain ⟨hmem, hne⟩ := hbefore name hname
  rw [Function.comp_apply, hother name hmem hne]
  rfl

theorem ends_loadSettings (hfind : findSettings? s env root = some path) {text : Bytes}
    (hread : s.tree.readFile s.cwd path = .ok text) {stored : List (Bytes × Yaml.Value)}
    (hstored : storedMapping? text = some stored)
    (hlayers : Settings.ofLayers { stored, env } = some c) :
    (loadSettings root [] env).Ends s (if c.faults = [] then .ok c
      else .error (.settings c.faults true)) s := by
  have hgives : (storedSettings path).Gives s stored s := by
    rw [storedSettings, Task.gives_get_bind]
    simp only [hread, Except.toOption, Option.bind_some, hstored]
    exact Task.gives_pure.2 ⟨rfl, rfl⟩
  unfold loadSettings
  simp only [List.isEmpty_nil, if_true, Task.ends_get_bind, hfind]
  refine Task.ends_bind.2 (.inr ⟨stored, s, hgives, ?_⟩)
  simp only [hlayers]
  cases hfaults : c.faults with
  | nil => exact Task.ends_pure.2 ⟨rfl, rfl⟩
  | cons f fs => exact Task.ends_throw.2 ⟨by simp, rfl⟩

/-- After settings are written to a root that is searched as it is spelled, with no variable for a
setting and no other settings file there, loading gives the same settings if they have no fault, and
otherwise fails with exactly their faults. Writing without force where something is there changes
nothing. The text that is written is taken to be read back as what it stands for. -/
theorem loadSettings_of_writeSettings (hwrite : (writeSettings root c force).Gives s path s')
    (htext : Yaml.Value.parse? (Yaml.write c.fields) = some (.map c.stored)) (hroot : root ≠ [])
    (hdir : searchedDir env root = root) (henv : ∀ x ∈ env, ¬ Layers.variableStart <+: x.1)
    (hother : ∀ name ∈ settingsNames, name ≠ settingsFile →
      isFileAt s' (join [root, name]) = false) :
    (c.faults = [] → (loadSettings root [] env).Gives s' c s') ∧
    (c.faults ≠ [] → (loadSettings root [] env).Ends s' (.error (.settings c.faults true)) s') ∧
    ∀ (v : Session) (d : Settings), (v.tree.stat v.cwd path).toOption.isSome = true →
      (writeSettings root d false).Ends v (.error (.settingsExist path)) v := by
  obtain ⟨rfl, t, ht, rfl⟩ := gives_writeSettings hwrite
  obtain ⟨hread, hstat⟩ := Tree.readFile_of_writeFile ht
  have hfile : isFileAt { s with tree := t } (join [root, settingsFile]) = true := by
    simp only [isFileAt, hstat]
    rfl
  have hstored : storedMapping? (Yaml.write c.fields) = some c.stored := by
    simp only [storedMapping?, htext, Settings.lowerEntries_stored]
  have hends := ends_loadSettings (findSettings?_eq_some hroot hdir hfile hother) hread hstored
    (Settings.ofLayers_stored c henv)
  refine ⟨fun hfaults => ?_, fun hfaults => ?_, fun v d => writeSettings_exists d⟩
  · rwa [if_pos hfaults] at hends
  · rwa [if_neg hfaults] at hends

/-! ## Reading back -/

theorem eq_map_of_mapM {α β : Type} {f : α → Option β} {g : β → α}
    (hfg : ∀ x y, f x = some y → x = g y) {xs : List α}
    {ys : List β} (h : xs.mapM f = some ys) : xs = ys.map g := by
  induction xs generalizing ys with
  | nil =>
    cases h
    rfl
  | cons x xs ih =>
    simp only [List.mapM_cons, Option.bind_eq_bind, Option.bind_eq_some_iff, Option.pure_def,
      Option.some.injEq] at h
    obtain ⟨y, hy, zs, hzs, rfl⟩ := h
    rw [List.map_cons, ← hfg x y hy, ← ih hzs]

def storedText? : Yaml.Value → Option Bytes
  | .scalar (.text s) => some s
  | _ => none

theorem eq_text {v : Yaml.Value} {s : Bytes} (h : storedText? v = some s) : v = .text s := by
  unfold storedText? at h
  split at h <;> cases h
  rfl

def storedField? : Yaml.Value → Option Yaml.Field
  | .list items => (items.mapM storedText?).map .texts
  | .map entries => (entries.mapM fun e => (storedText? e.2).map fun s => (e.1, s)).map .group
  | v => (storedText? v).map .text

theorem eq_value {v : Yaml.Value} {f : Yaml.Field} (h : storedField? v = some f) : v = f.value := by
  unfold storedField? at h
  split at h
  · obtain ⟨ss, hss, rfl⟩ := Option.map_eq_some_iff.1 h
    exact congrArg _ (eq_map_of_mapM (fun _ _ => eq_text) hss)
  · obtain ⟨es, hes, rfl⟩ := Option.map_eq_some_iff.1 h
    refine congrArg _ (eq_map_of_mapM (fun e x he => ?_) hes)
    obtain ⟨s, hs, rfl⟩ := Option.map_eq_some_iff.1 he
    exact Prod.ext rfl (eq_text hs)
  · obtain ⟨s, hs, rfl⟩ := Option.map_eq_some_iff.1 h
    exact eq_text hs

/-- The fields that a mapping stands for. -/
def storedFields? : Yaml.Value → Option (List (Bytes × Yaml.Field))
  | .map entries => entries.mapM fun e => (storedField? e.2).map fun f => (e.1, f)
  | _ => none

theorem eq_stored {v : Yaml.Value} (h : storedFields? v = some c.fields) : v = .map c.stored := by
  unfold storedFields? at h
  split at h
  · refine congrArg _ (eq_map_of_mapM (fun e x he => ?_) h)
    obtain ⟨f, hf, rfl⟩ := Option.map_eq_some_iff.1 he
    exact Prod.ext rfl (eq_value hf)
  · cases h

/-- Settings that differ from the conventional ones in each field, with lists and texts that are
empty. -/
def oddSettings : Settings where
  paths :=
    { schemas := "a b", queries := "#q", mutations := "1", events := "yes", output := ""
      api := "x: y" }
  extension := ".sql"
  exclude := ["*.tmp", "- x", "null"]
  module := "m"
  typesPackage := ""
  readOnlyTables := []
  templatesDir := "t"

/-- A session in a directory with two others, one with a dollar sign in its name. -/
def dollarSession : Session where
  tree := ⟨[(["a$x"], .dir), (["b"], .dir)]⟩

theorem stored_odd :
    ((writeSettings "b" oddSettings false).runIn dollarSession).1.toOption =
        some (Bytes.ofString "b/surqlgen.yaml") ∧
      (settingsNames.all fun name => name == settingsFile ||
        !isFileAt ((writeSettings "b" oddSettings false).runIn dollarSession).2
          (join ["b", name])) ∧
      ((Yaml.Value.parse? (Yaml.write oddSettings.fields)).bind storedFields?) =
        some oddSettings.fields ∧
      oddSettings.faults ≠ [] := by
  decide +kernel

theorem loadSettings_of_writeSettings_odd :
    ∃ s', (writeSettings "b" oddSettings false).Gives dollarSession
    "b/surqlgen.yaml" s' ∧ (loadSettings "b" [] []).Ends s'
      (.error (.settings oddSettings.faults true)) s' := by
  obtain ⟨hwrite, hother, htext, hfaults⟩ := stored_odd
  have hgives := Task.gives_of_toOption hwrite
  obtain ⟨v, hv, hfields⟩ := Option.bind_eq_some_iff.1 htext
  refine ⟨_, hgives,
    (loadSettings_of_writeSettings hgives (hv.trans (congrArg some (eq_stored hfields))) (by decide)
    (searchedDir_of_plain (by decide)) (by simp) fun name hname hne => ?_).2.1 hfaults⟩
  simpa [hne] using List.all_eq_true.1 hother name hname

/-- Settings without a fault that are not the conventional ones. -/
def plainSettings : Settings := { extension := ".sql", exclude := ["*.tmp"], readOnlyTables := [] }

theorem stored_elsewhere :
    plainSettings.faults = [] ∧ List.Forall (fun root =>
      ((writeSettings root plainSettings false).runIn dollarSession).1.toOption =
          some (join [root, settingsFile]) ∧
        ((loadSettings root [] []).runIn
          ((writeSettings root plainSettings false).runIn dollarSession).2).1.toOption =
          some {}) [Bytes.ofString "a$x", []] := by
  decide +kernel

/-- Settings that are written to a root with a dollar sign, or to the empty root, are not the ones
that are loaded from it. -/
theorem loadSettings_elsewhere : plainSettings.faults = [] ∧ plainSettings ≠ {} ∧
    List.Forall (fun root => ∃ path s' s'',
      (writeSettings root plainSettings false).Gives dollarSession path s' ∧
      (loadSettings root [] []).Gives s' {} s'') [Bytes.ofString "a$x", []] := by
  obtain ⟨hfaults, hruns⟩ := stored_elsewhere
  refine ⟨hfaults, by decide, List.Forall.imp (fun root hroot => ?_) hruns⟩
  exact ⟨_, _, _, Task.gives_of_toOption hroot.1, Task.gives_of_toOption hroot.2⟩

end Layer

end AccessLayer
