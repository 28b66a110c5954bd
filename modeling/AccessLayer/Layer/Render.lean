import AccessLayer.Go.Format
import AccessLayer.Layer.Artifact
import AccessLayer.Layer.Project
import AccessLayer.Template.Run

/-!
# Rendering

A file is rendered from the project's own template if it has one and from the built-in one if not,
and the text is formatted. Each template is read once in a pass.

* `render`: the formatted text of a file.
-/

namespace AccessLayer.Layer

/-- Reads a template, or takes it from those that were read before. -/
def loadTemplate (p : Project) (task : RenderTask) (name : TemplateName) : Task LoadedTemplate := do
  let s ← get
  match s.templates.lookup name with
  | some t => return t
  | none =>
    let loaded : LoadedTemplate ←
      match p.templatesDir? with
      | none => pure .builtIn
      | some dir =>
        let path := Path.join [dir, name.file]
        match s.tree.readFile s.cwd path with
        | .error e =>
          if e.fault == .notFound then pure .builtIn
          else throw (.render task (.unreadable path e))
        | .ok text =>
          match Template.parse? text with
          | none => throw (.render task .template)
          | some parts => pure (.own parts text.length)
    modify fun s => { s with templates := (name, loaded) :: s.templates }
    return loaded

def unformatted (a : Artifact) : LoadedTemplate → Except RenderFault Bytes
  | .builtIn => .ok a.source.text
  | .own parts size =>
    match Template.fill? parts size (.record .context a.data) with
    | some text => .ok text
    | none => .error .template

def render (p : Project) (task : RenderTask) (a : Artifact) : Task Bytes := do
  match unformatted a (← loadTemplate p task a.template) with
  | .error fault => throw (.render task fault)
  | .ok text =>
    match Go.format text with
    | none => throw (.render task .notGo)
    | some formatted => return formatted

end AccessLayer.Layer
