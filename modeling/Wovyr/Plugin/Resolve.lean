import Wovyr.Plugin.Manifest

/-!
This module contains the resolution of dependencies against the installed plugins.
-/

namespace Wovyr.Plugin

inductive PluginState where
  | disabled
  | enabled
deriving Repr, DecidableEq, Inhabited

-- A path from the root of the file system on.
abbrev Location := List String

structure InstalledPlugin where
  manifest : PluginManifest
  state : PluginState := .disabled
  grantedPermissions : List String := []
  artifactDir : Option Location := none
  -- The version that this one replaced.
  previous : Option InstalledPlugin := none
deriving Repr, Inhabited

-- By qualified id.
abbrev Catalog := Std.ExtTreeMap String InstalledPlugin

def nameMatches (dep : Dependency) (plugin : InstalledPlugin) : Bool :=
  dep.name == plugin.manifest.qualifiedId || dep.name == plugin.manifest.metadata.name

variable (crates : Crates)

def satisfies (dep : Dependency) (plugin : InstalledPlugin) : Except Error Bool :=
  if !nameMatches dep plugin then
    .ok false
  else
    match parseVersionReq crates dep.version with
    | .error e => .error e
    | .ok req =>
      match Semver.parse plugin.manifest.metadata.version with
      | .error e => .error (.invalid s!"installed version is not valid semver: {e.display}")
      | .ok version => .ok (req version)

def highest (candidates : List (Semver.Version × String)) : Option (Semver.Version × String) :=
  candidates.foldl
    (fun best c =>
      match best with
      | some b => if b.1.compare c.1 = .gt then some b else some c
      | none => some c)
    none

def candidate (req : Semver.Version → Bool) (plugin : InstalledPlugin) : Option (Semver.Version × String) :=
  match Semver.parse plugin.manifest.metadata.version with
  | .error _ => none
  | .ok v => if req v then some (v, plugin.manifest.qualifiedId) else none

def resolveDep (dep : Dependency) (catalog : Catalog) : Except Error String :=
  let byName := catalog.values.filter (nameMatches dep)
  if byName.isEmpty then
    .error (.invalid s!"dependency `{dep.name}` ({dep.version}) is not installed")
  else
    match parseVersionReq crates dep.version with
    | .error e => .error e
    | .ok req =>
      match highest (byName.filterMap (candidate req)) with
      | some (_, id) => .ok id
      | none =>
        let installed := Text.join ", " (byName.map fun p => "\"" ++ p.manifest.metadata.version ++ "\"")
        .error (.invalid (s!"dependency `{dep.name}` requires `{dep.version}`, "
          ++ s!"but installed version(s) [{installed}] do not satisfy it"))

structure Visited where
  order : List String := []
  done : List String := []
deriving Repr, DecidableEq, Inhabited

def visitAll (catalog : Catalog) (visit : String → Visited → Except Error Visited)
    : List Dependency → Visited → Except Error Visited
  | [], visited => .ok visited
  | dep :: deps, visited =>
    match resolveDep crates dep catalog with
    | .error e => .error e
    | .ok id =>
      match visit id visited with
      | .error e => .error e
      | .ok visited => visitAll catalog visit deps visited

def cycleError (id : String) : Error :=
  .invalid s!"plugin dependency cycle involving `{id}`"

-- What is on the path is in the catalog and is on it once, so the size of the catalog bounds its length.
def visit (catalog : Catalog) : Nat → List String → String → Visited → Except Error Visited
  | 0, _, id, _ => .error (cycleError id)
  | fuel + 1, onPath, id, visited =>
    if visited.done.contains id then
      .ok visited
    else if onPath.contains id then
      .error (cycleError id)
    else
      match catalog[id]? with
      | none => .error (.notFound s!"plugin `{id}` is not installed")
      | some plugin =>
        match visitAll crates catalog (visit catalog fuel (id :: onPath)) plugin.manifest.dependencies visited with
        | .error e => .error e
        | .ok visited => .ok { order := visited.order ++ [id], done := id :: visited.done }

def enableOrder (target : String) (catalog : Catalog) : Except Error (List String) :=
  match visit crates catalog (catalog.size + 1) [] target {} with
  | .error e => .error e
  | .ok visited => .ok visited.order

def dependents (target : String) (catalog : Catalog) : List String :=
  match catalog[target]? with
  | none => []
  | some targetPlugin =>
    (catalog.toList.filter fun (id, p) =>
      id != target && p.manifest.dependencies.any fun dep =>
        match satisfies crates dep targetPlugin with
        | .ok satisfied => satisfied
        | .error _ => false).map Prod.fst

def dependentsBrokenBy (target : String) (newVersion : Semver.Version) (catalog : Catalog) : List String :=
  match catalog[target]? with
  | none => []
  | some targetPlugin =>
    (catalog.toList.filter fun (id, p) =>
      id != target && p.manifest.dependencies.any fun dep =>
        nameMatches dep targetPlugin &&
          match parseVersionReq crates dep.version with
          | .ok req => !req newVersion
          | .error _ => true).map Prod.fst

end Wovyr.Plugin
