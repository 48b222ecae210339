import Wovyr.Plugin.Keyless
import Wovyr.Plugin.Resolve
import Wovyr.Tools.Tool

/-!
This module contains the permissions that a plugin requests with the grants that cover them, and the
plugin engine with its registry of tools and its disk.
-/

namespace Wovyr.Plugin

def segmentMatches (granted wanted : String) : Bool :=
  match Text.stripSuffix "*" granted with
  | some pre => (Text.stripPrefix pre wanted).isSome
  | none => granted == wanted

def grantCovers (granted wanted : String) : Bool :=
  let g := Text.split ':' granted
  let w := Text.split ':' wanted
  g.length == w.length && (g.zip w).all fun (gs, ws) => segmentMatches gs ws

def missingGrants (declared granted : List String) : List String :=
  declared.filter fun d => !granted.any fun g => grantCovers g d

def isBroad (permission : String) : Bool :=
  permission.toList.contains '*'

open Tools (Tool ToolContext ToolError ToolMetadata ToolRegistry ToolResponse)

structure Package where
  manifestYaml : String
  signature : List UInt8 := []
  artifacts : Std.ExtTreeMap String (List UInt8) := ∅
  keyless : Option KeylessBundle := none

inductive PluginEvent where
  | installed (reference : String)
  | enabled (reference : String)
  | disabled (reference : String)
  | upgraded (reference : String)
  | rolledBack (reference : String)
  | uninstalled (reference : String)
deriving Repr, DecidableEq

structure CapabilityCall where
  plugin : String
  capabilityId : String
  entry : String
  sandbox : String
  artifactDir : Option Location
  declaredPermissions : List String
  ctx : ToolContext

abbrev CapabilityRuntime := CapabilityCall → Value → Except ToolError ToolResponse

def notLoadedRuntime : CapabilityRuntime := fun call _ =>
  .error (.internal (s!"capability `{call.capabilityId}` of plugin `{call.plugin}` cannot execute: "
    ++ "the plugin sandbox loader is not yet available"))

def toolMetadata (manifest : PluginManifest) (cap : CapabilityDescriptor) : ToolMetadata where
  id := cap.id
  version := manifest.metadata.version
  category := "plugin"
  description :=
    if manifest.metadata.description = "" then
      s!"plugin capability `{cap.id}`"
    else
      manifest.metadata.description
  permissions := manifest.permissions

def pluginTool (runtime : CapabilityRuntime) (plugin : InstalledPlugin) (cap : CapabilityDescriptor) : Tool where
  metadata := toolMetadata plugin.manifest cap
  inputSchema := .object [("type", .string "object")]
  execute ctx request :=
    runtime
      { plugin := plugin.manifest.reference
        capabilityId := cap.id
        entry := cap.entry
        sandbox := cap.sandbox
        artifactDir := plugin.artifactDir
        declaredPermissions := plugin.manifest.permissions
        ctx }
      request

def registerTools (runtime : CapabilityRuntime) (plugin : InstalledPlugin) (registry : ToolRegistry)
    : ToolRegistry :=
  plugin.manifest.toolCapabilities.foldl (fun r cap => r.register (pluginTool runtime plugin cap)) registry

def unregisterTools (manifest : PluginManifest) (registry : ToolRegistry) : ToolRegistry :=
  manifest.toolCapabilities.foldl (fun r cap => r.unregister cap.id) registry

-- Where the operating system gets to by a path, in a file system without symbolic links.
def locate (base : Location) (path : String) : Location :=
  (Text.split '/' path).foldl enter (if path.toList.head? = some '/' then [] else base)
where
  enter (location : Location) (component : String) : Location :=
    if component = "" ∨ component = "." then
      location
    else if component = ".." then
      location.dropLast
    else
      location ++ [component]

abbrev Disk := Location → Option (List UInt8)

inductive WriteOutcome where
  | written
  | refused
  | torn (bytes : List UInt8)
deriving Repr, DecidableEq

inductive Fault where
  | error (e : Error)
  | io
deriving Repr, DecidableEq

def Disk.write (disk : Disk) (location : Location) (bytes : List UInt8) : WriteOutcome → Except Fault Unit × Disk
  | .written => (.ok (), Function.update disk location (some bytes))
  | .refused => (.error .io, disk)
  | .torn part => (.error .io, Function.update disk location (some part))

structure Settings where
  trust : TrustStore := ∅
  keyless : Option (KeylessRoot × IdentityPolicy) := none
  platformApi : Semver.Version
  runtime : CapabilityRuntime := notLoadedRuntime
  stagingDir : Option Location := none
  provenancePolicy : ProvenancePolicy := {}

structure Host where
  plugins : Catalog := ∅
  events : List PluginEvent := []
  registry : ToolRegistry := .new
  disk : Disk := fun _ => none

variable (crates : Crates) (settings : Settings)

def verifyPackage (package : Package) (manifest : PluginManifest) : Except Error Unit :=
  match package.keyless, settings.keyless with
  | some bundle, some (root, policy) =>
    (verifyKeyless crates (bytesOf package.manifestYaml) bundle root policy manifest.metadata.publisher).map
      fun _ => ()
  | _, _ =>
    TrustStore.verify settings.trust crates manifest.metadata.publisher (bytesOf package.manifestYaml)
      package.signature

def checkCompatibility (manifest : PluginManifest) : Except Error Unit :=
  let range := Text.trim manifest.compatibility.platformApi
  if range = "" then
    .ok ()
  else
    match parseVersionReq crates range with
    | .error e => .error e
    | .ok req =>
      if req settings.platformApi then
        .ok ()
      else
        .error (.invalid (s!"plugin `{manifest.qualifiedId}` requires platform API `{range}`, "
          ++ s!"but this platform is `{settings.platformApi.display}`"))

def resolveAll (catalog : Catalog) : List Dependency → Except Error Unit
  | [] => .ok ()
  | dep :: deps =>
    match resolveDep crates dep catalog with
    | .error e => .error e
    | .ok _ => resolveAll catalog deps

def checkGrants (manifest : PluginManifest) (grants : List String) : Except Error Unit :=
  let missing := missingGrants manifest.permissions grants
  if missing.isEmpty then
    .ok ()
  else
    .error (.invalid (s!"plugin `{manifest.qualifiedId}` requests ungranted permission(s): "
      ++ Text.join ", " missing))

def admitPackage (catalog : Catalog) (package : Package) (manifest : PluginManifest) (grants : List String)
    : Except Error Unit := do
  verifyPackage crates settings package manifest
  checkCompatibility crates settings manifest
  resolveAll crates catalog manifest.dependencies
  checkGrants manifest grants
  settings.provenancePolicy.check manifest

def artifactDir (manifest : PluginManifest) : Option Location :=
  settings.stagingDir.map fun root =>
    locate (locate (locate root manifest.metadata.publisher) manifest.metadata.name) manifest.metadata.version

def stage (package : Package) (id : String) (dir : Option Location) (os : Nat → WriteOutcome)
    : Nat → List Artifact → Disk → Except Fault Unit × Disk
  | _, [], disk => (.ok (), disk)
  | n, artifact :: artifacts, disk =>
    match package.artifacts[artifact.path]? with
    | none =>
      (.error (.error (.invalid
        s!"plugin `{id}` declares artifact `{artifact.path}` but the package omits its bytes")), disk)
    | some bytes =>
      match verifyDigest crates.sha256 artifact.digest bytes with
      | .error e => (.error (.error e), disk)
      | .ok () =>
        match dir with
        | none => stage package id dir os (n + 1) artifacts disk
        | some at' =>
          match disk.write (locate at' artifact.path) bytes (os n) with
          | (.error e, disk) => (.error e, disk)
          | (.ok (), disk) => stage package id dir os (n + 1) artifacts disk

def verifyAndStage (catalog : Catalog) (package : Package) (manifest : PluginManifest) (grants : List String)
    (os : Nat → WriteOutcome) (disk : Disk) : Except Fault (Option Location) × Disk :=
  match admitPackage crates settings catalog package manifest grants with
  | .error e => (.error (.error e), disk)
  | .ok () =>
    let dir := artifactDir settings manifest
    match stage crates package manifest.qualifiedId dir os 0 manifest.artifacts disk with
    | (.error e, disk) => (.error e, disk)
    | (.ok (), disk) => (.ok dir, disk)

namespace Host

variable (host : Host)

def notInstalled (id : String) : Fault :=
  .error (.notFound s!"plugin `{id}` is not installed")

def install (package : Package) (grants : List String) (os : Nat → WriteOutcome) : Except Fault Unit × Host :=
  match PluginManifest.fromYaml crates package.manifestYaml with
  | .error e => (.error (.error e), host)
  | .ok manifest =>
    let id := manifest.qualifiedId
    if host.plugins.contains id then
      (.error (.error (.invalid s!"plugin `{id}` is already installed (upgrade is a separate operation)")), host)
    else
      match verifyAndStage crates settings host.plugins package manifest grants os host.disk with
      | (.error e, disk) => (.error e, { host with disk })
      | (.ok artifactDir, disk) =>
        (.ok (),
          { host with
            plugins := host.plugins.insert id { manifest, grantedPermissions := grants, artifactDir }
            events := host.events ++ [.installed manifest.reference]
            disk })

-- What was granted stays granted.
def effective (granted grants : List String) : List String :=
  grants.foldl (fun effective g => if effective.contains g then effective else effective ++ [g]) granted

def swap (id : String) (current next : InstalledPlugin) : Host :=
  { host with
    plugins := host.plugins.insert id next
    registry :=
      if current.state = .enabled then
        registerTools settings.runtime next (unregisterTools current.manifest host.registry)
      else
        host.registry }

def upgrade (package : Package) (grants : List String) (os : Nat → WriteOutcome) : Except Fault Unit × Host :=
  match PluginManifest.fromYaml crates package.manifestYaml with
  | .error e => (.error (.error e), host)
  | .ok manifest =>
    let id := manifest.qualifiedId
    match host.plugins[id]? with
    | none => (.error (.error (.notFound s!"plugin `{id}` is not installed (use install)")), host)
    | some current =>
      if manifest.metadata.version = current.manifest.metadata.version then
        (.error (.error (.invalid s!"plugin `{id}` is already at version {current.manifest.metadata.version}")),
          host)
      else
        match Semver.parse manifest.metadata.version with
        | .error e => (.error (.error (.invalid s!"new version is not valid semver: {e.display}")), host)
        | .ok newVersion =>
          let broken := dependentsBrokenBy crates id newVersion host.plugins
          if !broken.isEmpty then
            (.error (.error (.invalid (s!"cannot upgrade `{id}` to {newVersion.display}: would break dependent(s): "
              ++ Text.join ", " broken))), host)
          else
            let granted := effective current.grantedPermissions grants
            match verifyAndStage crates settings host.plugins package manifest granted os host.disk with
            | (.error e, disk) => (.error e, { host with disk })
            | (.ok artifactDir, disk) =>
              let upgraded : InstalledPlugin :=
                { manifest
                  state := current.state
                  grantedPermissions := granted
                  artifactDir
                  previous := some { current with previous := none } }
              (.ok (),
                { host.swap settings id current upgraded with
                  events := host.events ++ [.upgraded manifest.reference]
                  disk })

def rollback (id : String) : Except Fault Unit × Host :=
  match host.plugins[id]? with
  | none => (.error (notInstalled id), host)
  | some current =>
    match current.previous with
    | none =>
      (.error (.error (.invalid s!"plugin `{id}` has no previous version to roll back to")), host)
    | some previous =>
      let restored := { previous with state := current.state }
      (.ok (),
        { host.swap settings id current restored with
          events := host.events ++ [.rolledBack restored.manifest.reference] })

def enableOne (id : String) : Host :=
  match host.plugins[id]? with
  | none => host
  | some plugin =>
    if plugin.state = .enabled then
      host
    else
      { host with
        plugins := host.plugins.insert id { plugin with state := .enabled }
        registry := registerTools settings.runtime plugin host.registry
        events := host.events ++ [.enabled plugin.manifest.reference] }

def enable (id : String) : Except Fault Unit × Host :=
  match host.plugins[id]? with
  | none => (.error (notInstalled id), host)
  | some _ =>
    match enableOrder crates id host.plugins with
    | .error e => (.error (.error e), host)
    | .ok order => (.ok (), order.foldl (enableOne settings) host)

def disable (id : String) : Except Fault Unit × Host :=
  match host.plugins[id]? with
  | none => (.error (notInstalled id), host)
  | some plugin =>
    if plugin.state = .disabled then
      (.ok (), host)
    else
      let enabledDependents := (dependents crates id host.plugins).filter fun d =>
        host.plugins[d]?.any fun p => p.state = .enabled
      if !enabledDependents.isEmpty then
        (.error (.error (.invalid (s!"cannot disable `{id}`: still required by enabled plugin(s): "
          ++ Text.join ", " enabledDependents))), host)
      else
        (.ok (),
          { host with
            plugins := host.plugins.insert id { plugin with state := .disabled }
            registry := unregisterTools plugin.manifest host.registry
            events := host.events ++ [.disabled plugin.manifest.reference] })

def uninstall (id : String) : Except Fault Unit × Host :=
  match host.plugins[id]? with
  | none => (.error (notInstalled id), host)
  | some plugin =>
    let dependents := dependents crates id host.plugins
    if !dependents.isEmpty then
      (.error (.error (.invalid (s!"cannot uninstall `{id}`: still required by installed plugin(s): "
        ++ Text.join ", " dependents))), host)
    else
      match host.disable crates id with
      | (.error e, host) => (.error e, host)
      | (.ok (), host) =>
        (.ok (),
          { host with
            plugins := host.plugins.erase id
            events := host.events ++ [.uninstalled plugin.manifest.reference] })

end Host

inductive Call where
  | install (package : Package) (grants : List String) (os : Nat → WriteOutcome)
  | upgrade (package : Package) (grants : List String) (os : Nat → WriteOutcome)
  | rollback (id : String)
  | enable (id : String)
  | disable (id : String)
  | uninstall (id : String)

def Host.step (host : Host) : Call → Host
  | .install package grants os => (host.install crates settings package grants os).2
  | .upgrade package grants os => (host.upgrade crates settings package grants os).2
  | .rollback id => (host.rollback settings id).2
  | .enable id => (host.enable crates settings id).2
  | .disable id => (host.disable crates id).2
  | .uninstall id => (host.uninstall crates id).2

end Wovyr.Plugin
