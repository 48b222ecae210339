import Wovyr.Lib.Overwrite
import Wovyr.Plugin.Engine.Signed
import Wovyr.Plugin.Engine.Turn

/-!
This module contains where the artifacts of the plugins are staged and what is found there, and proves under
which condition on the calls they stay in place.
-/

namespace Wovyr.Plugin

open Tools (ToolRegistry)

def descend (depth : Nat) (path : String) : Option Nat :=
  if path.toList.head? = some '/' then none else (Text.split '/' path).foldlM step depth
where
  step (depth : Nat) (component : String) : Option Nat :=
    if component = "" ∨ component = "." then
      some depth
    else if component = ".." then
      if depth = 0 then none else some (depth - 1)
    else
      some (depth + 1)

theorem enter_of_step (root : Location) {names : Location} {component : String} {n : Nat}
    (h : descend.step names.length component = some n)
    : ∃ names' : Location, locate.enter (root ++ names) component = root ++ names' ∧ names'.length = n := by
  unfold descend.step at h
  unfold locate.enter
  split at h
  next hstay =>
    cases h
    exact ⟨names, if_pos hstay, rfl⟩
  next hstay =>
    rw [if_neg hstay]
    split at h
    next hup =>
      split at h
      . cases h
      next hdepth =>
        cases h
        refine ⟨names.dropLast, ?_, List.length_dropLast⟩
        rw [if_pos hup, List.dropLast_append_of_ne_nil]
        intro hnil
        exact hdepth (List.length_eq_zero_iff.mpr hnil)
    next hup =>
      cases h
      refine ⟨names ++ [component], ?_, by simp⟩
      rw [if_neg hup, List.append_assoc]

theorem locate_of_descend (root names : Location) {path : String} {n : Nat}
    (h : descend names.length path = some n)
    : ∃ names' : Location, locate (root ++ names) path = root ++ names' ∧ names'.length = n := by
  unfold descend at h
  unfold locate
  split at h
  . cases h
  next hrelative =>
    rw [if_neg hrelative]
    generalize Text.split '/' path = components at h
    induction components generalizing names with
    | nil =>
      cases h
      exact ⟨names, rfl, rfl⟩
    | cons component components ih =>
      rw [List.foldlM_cons, Option.bind_eq_bind, Option.bind_eq_some_iff] at h
      obtain ⟨depth, hdepth, hrest⟩ := h
      obtain ⟨names', henter, rfl⟩ := enter_of_step root hdepth
      rw [List.foldl_cons, henter]
      exact ih _ hrest

theorem descend_version {version : String} {v : Semver.Version} (h : Semver.parse version = .ok v) (depth : Nat)
    : descend depth version = some (depth + 1) := by
  obtain ⟨hchars, c, rest, hcons, hdigit⟩ := Semver.parse_chars h
  have hslash : ∀ c ∈ version.toList, (c == '/') = false := by
    intro c hc
    have hchar := hchars c hc
    by_contra heq
    rw [Bool.not_eq_false, beq_iff_eq] at heq
    rw [heq] at hchar
    exact absurd hchar (by decide)
  have hsplit : Text.split '/' version = [version] := by
    unfold Text.split List.splitOn
    rw [List.splitOnP_eq_singleton hslash, List.map_singleton, String.ofList_toList]
  have hother {other : String} (hhead : other.toList.head?.all (!·.isDigit)) : version ≠ other := by
    rintro rfl
    rw [hcons] at hhead
    simp [hdigit] at hhead
  have habsolute : version.toList.head? ≠ some '/' := by
    rw [hcons, List.head?_cons]
    intro heq
    cases heq
    exact absurd hdigit (by decide)
  unfold descend
  rw [if_neg habsolute, hsplit, List.foldlM_cons]
  unfold descend.step
  rw [if_neg (not_or.mpr ⟨hother rfl, hother rfl⟩), if_neg (hother rfl)]
  rfl

/-- What a call leaves of an artifact that it has got to, not the whole of it if the write has failed. -/
structure Put where
  artifact : Artifact
  bytes : List UInt8
  whole : Bool

section

variable (crates : Crates)

def puts (package : Package) (os : Nat → WriteOutcome) : Nat → List Artifact → List Put
  | _, [] => []
  | n, artifact :: artifacts =>
    match package.artifacts[artifact.path]? with
    | none => []
    | some bytes =>
      match verifyDigest crates.sha256 artifact.digest bytes with
      | .error _ => []
      | .ok () =>
        match os n with
        | .written => { artifact, bytes, whole := true } :: puts package os (n + 1) artifacts
        | .refused => []
        | .torn bytes => [{ artifact, bytes, whole := false }]

def Delivered (package : Package) (os : Nat → WriteOutcome) : Nat → List Artifact → Prop
  | _, [] => True
  | n, artifact :: artifacts =>
    (∃ bytes, package.artifacts[artifact.path]? = some bytes
      ∧ verifyDigest crates.sha256 artifact.digest bytes = .ok ())
      ∧ os n = .written ∧ Delivered package os (n + 1) artifacts

end

section

variable {crates : Crates} {package : Package} {os : Nat → WriteOutcome} {n : Nat} {artifacts : List Artifact}
  {disk : Disk}

theorem stage_puts (id : String) (dir : Location)
    : (stage crates package id (some dir) os n artifacts disk).2
        = Overwrite.apply (fun p : Put => locate dir p.artifact.path) Put.bytes disk
            (puts crates package os n artifacts) := by
  induction artifacts generalizing n disk with
  | nil => rfl
  | cons artifact artifacts ih =>
    unfold stage puts
    cases hbytes : package.artifacts[artifact.path]? with
    | none => rfl
    | some bytes =>
      dsimp only
      cases hdigest : verifyDigest crates.sha256 artifact.digest bytes with
      | error e => rfl
      | ok _ =>
        cases os n with
        | written => exact ih
        | refused => rfl
        | torn part => rfl

theorem stage_ok_iff (id : String) (dir : Location)
    : (stage crates package id (some dir) os n artifacts disk).1 = .ok ()
        ↔ Delivered crates package os n artifacts := by
  induction artifacts generalizing n disk with
  | nil => exact iff_of_true rfl trivial
  | cons artifact artifacts ih =>
    unfold stage Delivered
    split
    next hmissing => simp [hmissing]
    next bytes hbytes =>
      split
      next e hdigest => simp [hbytes, hdigest]
      next hdigest =>
        cases hos : os n with
        | written =>
          show (stage crates package id (some dir) os (n + 1) artifacts _).1 = .ok () ↔ _
          rw [ih]
          simp [hbytes, hdigest]
        | refused => simp [Disk.write]
        | torn part => simp [Disk.write]

theorem mem_puts {p : Put} (h : p ∈ puts crates package os n artifacts)
    : p.artifact ∈ artifacts
        ∧ (p.whole → verifyDigest crates.sha256 p.artifact.digest p.bytes = .ok ()) := by
  induction artifacts generalizing n with
  | nil => cases h
  | cons artifact artifacts ih =>
    unfold puts at h
    split at h
    . cases h
    next bytes hbytes =>
      split at h
      . cases h
      next hdigest =>
        cases hos : os n with
        | written =>
          rw [hos] at h
          cases List.mem_cons.mp h with
          | inl heq =>
            rw [heq]
            exact ⟨List.mem_cons_self, fun _ => hdigest⟩
          | inr hrest =>
            obtain ⟨hmem, hwhole⟩ := ih hrest
            exact ⟨List.mem_cons_of_mem _ hmem, hwhole⟩
        | refused =>
          rw [hos] at h
          cases h
        | torn part =>
          rw [hos] at h
          cases List.mem_singleton.mp h
          exact ⟨List.mem_cons_self, nofun⟩

theorem puts_of_delivered (h : Delivered crates package os n artifacts)
    : (puts crates package os n artifacts).map Put.artifact = artifacts
        ∧ ∀ p ∈ puts crates package os n artifacts, p.whole := by
  induction artifacts generalizing n with
  | nil => exact ⟨rfl, nofun⟩
  | cons artifact artifacts ih =>
    obtain ⟨⟨bytes, hbytes, hdigest⟩, hos, hrest⟩ := h
    obtain ⟨hall, hwhole⟩ := ih hrest
    unfold puts
    simp only [hbytes, hdigest, hos]
    exact ⟨by rw [List.map_cons, hall], List.forall_mem_cons.mpr ⟨rfl, hwhole⟩⟩

end

/-- What a call that has passed every check stages. -/
structure Attempt where
  package : Package
  manifest : PluginManifest
  os : Nat → WriteOutcome

structure Write where
  manifest : PluginManifest
  location : Location
  bytes : List UInt8

def versionDir (root : Location) (manifest : PluginManifest) : Location :=
  locate (locate (locate root manifest.metadata.publisher) manifest.metadata.name) manifest.metadata.version

section

variable (crates : Crates) (settings : Settings)

def Host.attempt (host : Host) : Call → Option Attempt
  | .install package grants os =>
    match PluginManifest.fromYaml crates package.manifestYaml with
    | .error _ => none
    | .ok manifest =>
      if host.plugins.contains manifest.qualifiedId then
        none
      else
        match admitPackage crates settings host.plugins package manifest grants with
        | .error _ => none
        | .ok () => some { package, manifest, os }
  | .upgrade package grants os =>
    match PluginManifest.fromYaml crates package.manifestYaml with
    | .error _ => none
    | .ok manifest =>
      match host.plugins[manifest.qualifiedId]? with
      | none => none
      | some current =>
        if manifest.metadata.version = current.manifest.metadata.version then
          none
        else
          match Semver.parse manifest.metadata.version with
          | .error _ => none
          | .ok newVersion =>
            if !(dependentsBrokenBy crates manifest.qualifiedId newVersion host.plugins).isEmpty then
              none
            else
              match admitPackage crates settings host.plugins package manifest
                (Host.effective current.grantedPermissions grants) with
              | .error _ => none
              | .ok () => some { package, manifest, os }
  | _ => none

def Attempt.puts (a : Attempt) : List Put :=
  Plugin.puts crates a.package a.os 0 a.manifest.artifacts

def Attempt.Complete (a : Attempt) : Prop :=
  Delivered crates a.package a.os 0 a.manifest.artifacts

def Host.writes (host : Host) (call : Call) : List Write :=
  match host.attempt crates settings call, settings.stagingDir with
  | some a, some root =>
    (a.puts crates).map fun p =>
      { manifest := a.manifest, location := locate (versionDir root a.manifest) p.artifact.path, bytes := p.bytes }
  | _, _ => []

def written (host : Host) : List Call → List Write
  | [] => []
  | call :: calls => host.writes crates settings call ++ written (host.step crates settings call) calls

/-- A file is written in the directory of its version, which is one below the staging directory. -/
structure Write.Confined (root : Location) (w : Write) : Prop where
  staging : root <+: versionDir root w.manifest
  version : versionDir root w.manifest <+: w.location
  file : w.location ≠ versionDir root w.manifest

def Staged (disk : Disk) (plugin : InstalledPlugin) : Prop :=
  ∀ dir, plugin.artifactDir = some dir → ∀ artifact ∈ plugin.manifest.artifacts, ∃ bytes,
    disk (locate dir artifact.path) = some bytes ∧ verifyDigest crates.sha256 artifact.digest bytes = .ok ()

def InPlace (disk : Disk) (catalog : Catalog) : Prop :=
  ∀ (id : String) (plugin : InstalledPlugin), catalog[id]? = some plugin →
    Staged crates disk plugin ∧ ∀ previous, plugin.previous = some previous → Staged crates disk previous

def SameDigest (digest digest' : String) : Prop :=
  ∃ hex hex', Text.stripPrefix "sha256:" digest = some hex ∧ Text.stripPrefix "sha256:" digest' = some hex'
    ∧ Text.eqIgnoreAsciiCase hex hex'

-- Whichever artifact of a version is overwritten, it is with a whole file that has the digest of the artifact.
def Attempt.Spares (root : Location) (a : Attempt) (plugin : InstalledPlugin) : Prop :=
  ∀ dir, plugin.artifactDir = some dir → ∀ artifact ∈ plugin.manifest.artifacts, ∀ p,
    Overwrite.last (fun p : Put => locate (versionDir root a.manifest) p.artifact.path) (a.puts crates)
        (locate dir artifact.path) = some p →
      p.whole ∧ SameDigest p.artifact.digest artifact.digest

/--
The names of a version and the paths of its artifacts do not lead out of where they are looked up, and no
artifact of a version that is kept is overwritten with another one.
-/
structure Attempt.Tidy (root : Location) (catalog : Catalog) (a : Attempt) : Prop where
  names : a.puts crates ≠ [] → ∃ n n', descend 0 a.manifest.metadata.publisher = some n
    ∧ descend n a.manifest.metadata.name = some n'
  paths : ∀ p ∈ a.puts crates, ∃ n, descend 0 p.artifact.path = some (n + 1)
  current : ∀ (id : String) (plugin : InstalledPlugin), catalog[id]? = some plugin → a.Spares crates root plugin
  -- An upgrade that goes through gives up the previous version of the plugin.
  previous : ∀ (id : String) (plugin previous : InstalledPlugin), catalog[id]? = some plugin →
    plugin.previous = some previous → (a.Complete crates → id ≠ a.manifest.qualifiedId) → a.Spares crates root previous
  own : a.Complete crates → a.Spares crates root
    { manifest := a.manifest, artifactDir := some (versionDir root a.manifest) }

def Tidy (root : Location) (host : Host) (call : Call) : Prop :=
  ∀ a, host.attempt crates settings call = some a → a.Tidy crates root host.plugins

end

section

variable {crates : Crates} {settings : Settings} {root : Location} {disk : Disk} {catalog : Catalog} {host : Host}
  {a : Attempt} {call : Call}

theorem SameDigest.verify {sha256 : List UInt8 → List UInt8} {digest digest' : String} {bytes : List UInt8}
    (h : SameDigest digest digest') (hdigest : verifyDigest sha256 digest bytes = .ok ())
    : verifyDigest sha256 digest' bytes = .ok () := by
  obtain ⟨hex, hex', hhex, hhex', hsame⟩ := h
  unfold verifyDigest at hdigest ⊢
  unfold Text.eqIgnoreAsciiCase at hdigest hsame ⊢
  simp only [hhex, hhex'] at hdigest ⊢
  split at hdigest
  next hactual =>
    rw [beq_iff_eq] at hactual hsame
    rw [if_pos]
    rw [beq_iff_eq, hactual, hsame]
  next => cases hdigest

theorem SameDigest.refl {sha256 : List UInt8 → List UInt8} {digest : String} {bytes : List UInt8}
    (h : verifyDigest sha256 digest bytes = .ok ()) : SameDigest digest digest := by
  unfold verifyDigest at h
  split at h
  . cases h
  next hex hhex => exact ⟨hex, hex, hhex, hhex, beq_self_eq_true _⟩

/-- What a call with an attempt does: it leaves its files, and it changes the catalog if it has got to the end. -/
structure Attempt.Effect (crates : Crates) (root : Location) (host : Host) (a : Attempt) (host' : Host) : Prop where
  disk : host'.disk = Overwrite.apply (fun p : Put => locate (versionDir root a.manifest) p.artifact.path) Put.bytes
    host.disk (a.puts crates)
  incomplete : ¬a.Complete crates → host'.plugins = host.plugins
  complete : a.Complete crates → ∃ next : InstalledPlugin,
    host'.plugins = host.plugins.insert a.manifest.qualifiedId next ∧ next.manifest = a.manifest
      ∧ next.artifactDir = some (versionDir root a.manifest)
      ∧ ∀ previous, next.previous = some previous → ∃ current : InstalledPlugin,
          host.plugins[a.manifest.qualifiedId]? = some current ∧ previous.manifest = current.manifest
            ∧ previous.artifactDir = current.artifactDir

theorem artifactDir_eq (hroot : settings.stagingDir = some root) (manifest : PluginManifest)
    : artifactDir settings manifest = some (versionDir root manifest) := by
  unfold artifactDir
  rw [hroot]
  rfl

theorem verifyAndStage_cases (a : Attempt) (disk : Disk) (hroot : settings.stagingDir = some root) {grants : List String}
    (hadmitted : admitPackage crates settings catalog a.package a.manifest grants = .ok ())
    : ∃ result, verifyAndStage crates settings catalog a.package a.manifest grants a.os disk
          = (result, Overwrite.apply (fun p : Put => locate (versionDir root a.manifest) p.artifact.path) Put.bytes
              disk (a.puts crates))
        ∧ (a.Complete crates → result = .ok (some (versionDir root a.manifest)))
        ∧ (¬a.Complete crates → ∃ e, result = .error e) := by
  have hdisk := @stage_puts crates a.package a.os 0 a.manifest.artifacts disk a.manifest.qualifiedId
    (versionDir root a.manifest)
  have hok := @stage_ok_iff crates a.package a.os 0 a.manifest.artifacts disk a.manifest.qualifiedId
    (versionDir root a.manifest)
  rw [verifyAndStage_of_admitPackage hadmitted, artifactDir_eq hroot]
  generalize stage crates a.package a.manifest.qualifiedId (some (versionDir root a.manifest)) a.os 0
    a.manifest.artifacts disk = staged at hdisk hok
  obtain ⟨result, disk'⟩ := staged
  unfold Attempt.puts Attempt.Complete
  rw [← hdisk, ← hok]
  cases result with
  | error e => exact ⟨_, rfl, nofun, fun _ => ⟨e, rfl⟩⟩
  | ok _ => exact ⟨_, rfl, fun _ => rfl, fun hne => absurd rfl hne⟩

theorem effect_install (hroot : settings.stagingDir = some root) {package : Package} {grants : List String}
    {os : Nat → WriteOutcome} (h : host.attempt crates settings (.install package grants os) = some a)
    : a.Effect crates root host (host.step crates settings (.install package grants os)) := by
  show a.Effect crates root host (host.install crates settings package grants os).2
  dsimp only [Host.attempt] at h
  unfold Host.install
  split at h
  . cases h
  next manifest hyaml =>
    split at h
    . cases h
    next hnew =>
      split at h
      . cases h
      next hadmitted =>
        cases h
        obtain ⟨result, hstage, hcomplete, hincomplete⟩ :=
          verifyAndStage_cases { package, manifest, os } host.disk hroot hadmitted
        simp only [hyaml, if_neg hnew, hstage]
        by_cases hdone : Attempt.Complete crates { package, manifest, os }
        . rw [hcomplete hdone]
          exact ⟨rfl, fun hne => absurd hdone hne, fun _ => ⟨_, rfl, rfl, rfl, by simp⟩⟩
        . obtain ⟨e, rfl⟩ := hincomplete hdone
          exact ⟨rfl, fun _ => rfl, fun h => absurd h hdone⟩

theorem effect_upgrade (hroot : settings.stagingDir = some root) {package : Package} {grants : List String}
    {os : Nat → WriteOutcome} (h : host.attempt crates settings (.upgrade package grants os) = some a)
    : a.Effect crates root host (host.step crates settings (.upgrade package grants os)) := by
  show a.Effect crates root host (host.upgrade crates settings package grants os).2
  dsimp only [Host.attempt] at h
  unfold Host.upgrade
  split at h
  . cases h
  next manifest hyaml =>
    split at h
    . cases h
    next current hcurrent =>
      split at h
      . cases h
      next hother =>
        split at h
        . cases h
        next newVersion hversion =>
          split at h
          . cases h
          next hbroken =>
            split at h
            . cases h
            next hadmitted =>
              cases h
              obtain ⟨result, hstage, hcomplete, hincomplete⟩ :=
                verifyAndStage_cases { package, manifest, os } host.disk hroot hadmitted
              simp only [hyaml, hcurrent, if_neg hother, hversion, if_neg hbroken, hstage]
              by_cases hdone : Attempt.Complete crates { package, manifest, os }
              . rw [hcomplete hdone]
                refine ⟨rfl, fun hne => absurd hdone hne, fun _ => ⟨_, rfl, rfl, rfl, ?_⟩⟩
                intro previous hprevious
                cases hprevious
                exact ⟨current, hcurrent, rfl, rfl⟩
              . obtain ⟨e, rfl⟩ := hincomplete hdone
                exact ⟨rfl, fun _ => rfl, fun h => absurd h hdone⟩

theorem effect (hroot : settings.stagingDir = some root) (h : host.attempt crates settings call = some a)
    : a.Effect crates root host (host.step crates settings call) := by
  cases call with
  | install package grants os => exact effect_install hroot h
  | upgrade package grants os => exact effect_upgrade hroot h
  | rollback id => cases h
  | enable id => cases h
  | disable id => cases h
  | uninstall id => cases h

theorem install_of_no_attempt {package : Package} {grants : List String} {os : Nat → WriteOutcome}
    (h : host.attempt crates settings (.install package grants os) = none)
    : host.step crates settings (.install package grants os) = host := by
  show (host.install crates settings package grants os).2 = host
  dsimp only [Host.attempt] at h
  unfold Host.install
  cases hyaml : PluginManifest.fromYaml crates package.manifestYaml with
  | error e => rfl
  | ok manifest =>
    rw [hyaml] at h
    dsimp only at h ⊢
    by_cases hinstalled : host.plugins.contains manifest.qualifiedId
    . rw [if_pos hinstalled]
    . rw [if_neg hinstalled] at h ⊢
      unfold verifyAndStage
      cases hadmitted : admitPackage crates settings host.plugins package manifest grants with
      | error e => rfl
      | ok _ =>
        rw [hadmitted] at h
        cases h

theorem upgrade_of_no_attempt {package : Package} {grants : List String} {os : Nat → WriteOutcome}
    (h : host.attempt crates settings (.upgrade package grants os) = none)
    : host.step crates settings (.upgrade package grants os) = host := by
  show (host.upgrade crates settings package grants os).2 = host
  dsimp only [Host.attempt] at h
  unfold Host.upgrade
  cases hyaml : PluginManifest.fromYaml crates package.manifestYaml with
  | error e => rfl
  | ok manifest =>
    rw [hyaml] at h
    dsimp only at h ⊢
    cases hcurrent : host.plugins[manifest.qualifiedId]? with
    | none => rfl
    | some current =>
      rw [hcurrent] at h
      dsimp only at h ⊢
      by_cases hsame : manifest.metadata.version = current.manifest.metadata.version
      . rw [if_pos hsame]
      . rw [if_neg hsame] at h ⊢
        cases hversion : Semver.parse manifest.metadata.version with
        | error e => rfl
        | ok newVersion =>
          rw [hversion] at h
          dsimp only at h ⊢
          split
          . rfl
          next hbroken =>
            rw [if_neg hbroken] at h
            unfold verifyAndStage
            cases hadmitted : admitPackage crates settings host.plugins package manifest
              (Host.effective current.grantedPermissions grants) with
            | error e => rfl
            | ok _ =>
              rw [hadmitted] at h
              cases h

theorem disk_enableAll (order : List String)
    : (order.foldl (Host.enableOne settings) host).disk = host.disk := by
  induction order generalizing host with
  | nil => rfl
  | cons id order ih =>
    rw [List.foldl_cons, ih]
    unfold Host.enableOne
    split
    . rfl
    . split <;> rfl

theorem disk_disable (id : String) : (host.disable crates id).2.disk = host.disk := by
  unfold Host.disable
  split
  . rfl
  . split
    . rfl
    . dsimp only
      split <;> rfl

theorem disk_uninstall (id : String) : (host.uninstall crates id).2.disk = host.disk := by
  have hdisk : (host.disable crates id).2.disk = host.disk := disk_disable id
  unfold Host.uninstall
  split
  . rfl
  . dsimp only
    split
    . rfl
    . generalize host.disable crates id = disabled at hdisk ⊢
      obtain ⟨result, host'⟩ := disabled
      cases result with
      | error e => exact hdisk
      | ok _ => exact hdisk

theorem disk_of_no_attempt (h : host.attempt crates settings call = none)
    : (host.step crates settings call).disk = host.disk := by
  cases call with
  | install package grants os => rw [install_of_no_attempt h]
  | upgrade package grants os => rw [upgrade_of_no_attempt h]
  | rollback id =>
    show (host.rollback settings id).2.disk = host.disk
    unfold Host.rollback
    split
    . rfl
    . split <;> rfl
  | enable id =>
    show (host.enable crates settings id).2.disk = host.disk
    unfold Host.enable
    split
    . rfl
    . split
      . rfl
      . exact disk_enableAll _
  | disable id => exact disk_disable id
  | uninstall id => exact disk_uninstall id

theorem Staged.congr {plugin plugin' : InstalledPlugin} (h : Staged crates disk plugin)
    (hmanifest : plugin'.manifest = plugin.manifest) (hdir : plugin'.artifactDir = plugin.artifactDir)
    : Staged crates disk plugin' := by
  intro dir hplugin
  rw [hmanifest]
  exact h dir (hdir ▸ hplugin)

theorem InPlace.insert (h : InPlace crates disk catalog) {id : String} {next : InstalledPlugin}
    (hnext : Staged crates disk next)
    (hprevious : ∀ previous, next.previous = some previous → Staged crates disk previous)
    : InPlace crates disk (catalog.insert id next) := by
  intro k plugin hplugin
  rcases Map.of_insert hplugin with ⟨-, rfl⟩ | hplugin
  . exact ⟨hnext, hprevious⟩
  . exact h k plugin hplugin

theorem InPlace.enableAll (h : InPlace crates disk host.plugins) (order : List String)
    : InPlace crates disk (order.foldl (Host.enableOne settings) host).plugins := by
  intro id plugin hplugin
  rw [getElem?_enableAll, Option.map_eq_some_iff] at hplugin
  obtain ⟨plugin, hplugin, rfl⟩ := hplugin
  obtain ⟨hcurrent, hprevious⟩ := h id plugin hplugin
  split
  . exact ⟨hcurrent.congr rfl rfl, hprevious⟩
  . exact ⟨hcurrent, hprevious⟩

theorem InPlace.step_of_no_attempt (h : InPlace crates host.disk host.plugins) (hsound : host.plugins.Sound crates)
    (hnone : host.attempt crates settings call = none)
    : InPlace crates (host.step crates settings call).disk (host.step crates settings call).plugins := by
  rw [disk_of_no_attempt hnone]
  have hturn : Turn crates settings host call (host.step crates settings call) := turn host call
  cases call with
  | install package grants os => rwa [install_of_no_attempt hnone]
  | upgrade package grants os => rwa [upgrade_of_no_attempt hnone]
  | rollback id =>
    generalize host.step crates settings (.rollback id) = host' at hturn
    cases hturn with
    | same hplugins _ => rwa [hplugins]
    | rollback hcurrent hprevious hplugins _ =>
      rw [hplugins, swap_plugins]
      refine h.insert (((h _ _ hcurrent).2 _ hprevious).congr rfl rfl) ?_
      intro previous hagain
      rw [(hsound.previous _ _ _ hcurrent hprevious).2] at hagain
      cases hagain
  | enable id =>
    generalize host.step crates settings (.enable id) = host' at hturn
    cases hturn with
    | same hplugins _ => rwa [hplugins]
    | enable _ hhost =>
      rw [hhost]
      exact h.enableAll _
  | disable id =>
    generalize host.step crates settings (.disable id) = host' at hturn
    cases hturn with
    | same hplugins _ => rwa [hplugins]
    | disable hplugin _ _ hplugins _ =>
      rw [hplugins]
      obtain ⟨hcurrent, hprevious⟩ := h _ _ hplugin
      exact h.insert (hcurrent.congr rfl rfl) hprevious
  | uninstall id =>
    generalize host.step crates settings (.uninstall id) = host' at hturn
    cases hturn with
    | same hplugins _ => rwa [hplugins]
    | uninstall hplugin _ hplugins _ =>
      rw [hplugins]
      intro k plugin hk
      exact h k plugin (Map.of_erase hk)

theorem Staged.apply {plugin : InstalledPlugin} (h : Staged crates disk plugin) (hspares : a.Spares crates root plugin)
    : Staged crates (Overwrite.apply (fun p : Put => locate (versionDir root a.manifest) p.artifact.path) Put.bytes
        disk (a.puts crates)) plugin := by
  intro dir hdir artifact hartifact
  rw [Overwrite.apply_eq]
  split
  next p hlast =>
    obtain ⟨hwhole, hsame⟩ := hspares dir hdir artifact hartifact p hlast
    exact ⟨p.bytes, rfl, hsame.verify ((mem_puts (Overwrite.mem_of_last hlast)).2 hwhole)⟩
  next => exact h dir hdir artifact hartifact

theorem Attempt.Complete.staged (h : a.Complete crates) {next : InstalledPlugin} (hmanifest : next.manifest = a.manifest)
    (hdir : next.artifactDir = some (versionDir root a.manifest))
    (hspares : a.Spares crates root { manifest := a.manifest, artifactDir := some (versionDir root a.manifest) })
    : Staged crates (Overwrite.apply (fun p : Put => locate (versionDir root a.manifest) p.artifact.path) Put.bytes
        disk (a.puts crates)) next := by
  intro dir hnext artifact hartifact
  rw [hdir] at hnext
  cases hnext
  rw [hmanifest, ← (puts_of_delivered h).1] at hartifact
  obtain ⟨put, hput, rfl⟩ := List.mem_map.mp hartifact
  change put ∈ a.puts crates at hput
  have hwritten : ∃ p, Overwrite.last (fun p : Put => locate (versionDir root a.manifest) p.artifact.path)
      (a.puts crates) (locate (versionDir root a.manifest) put.artifact.path) = some p :=
    Overwrite.exists_last hput
  obtain ⟨p, hlast⟩ := hwritten
  obtain ⟨hwhole, hsame⟩ := hspares _ rfl put.artifact (mem_puts hput).1 p hlast
  rw [Overwrite.apply_eq]
  exact ⟨p.bytes, by rw [hlast], hsame.verify ((mem_puts (Overwrite.mem_of_last hlast)).2 hwhole)⟩

theorem InPlace.effect {host' : Host} (h : InPlace crates host.disk host.plugins)
    (heffect : a.Effect crates root host host') (htidy : a.Tidy crates root host.plugins)
    : InPlace crates host'.disk host'.plugins := by
  rw [heffect.disk]
  by_cases hcomplete : a.Complete crates
  . obtain ⟨next, hplugins, hmanifest, hdir, hfrom⟩ := heffect.complete hcomplete
    rw [hplugins]
    intro id plugin hplugin
    rw [Map.getElem?_insert] at hplugin
    split at hplugin
    next =>
      cases hplugin
      refine ⟨hcomplete.staged hmanifest hdir (htidy.own hcomplete), ?_⟩
      intro previous hprevious
      obtain ⟨current, hcurrent, hmanifest', hdir'⟩ := hfrom previous hprevious
      exact ((h _ current hcurrent).1.apply (htidy.current _ current hcurrent)).congr hmanifest' hdir'
    next hne =>
      obtain ⟨hcurrent, hprevious⟩ := h id plugin hplugin
      refine ⟨hcurrent.apply (htidy.current id plugin hplugin), ?_⟩
      intro previous hretained
      exact (hprevious previous hretained).apply (htidy.previous id plugin previous hplugin hretained
        fun _ => Ne.symm hne)
  . rw [heffect.incomplete hcomplete]
    intro id plugin hplugin
    obtain ⟨hcurrent, hprevious⟩ := h id plugin hplugin
    refine ⟨hcurrent.apply (htidy.current id plugin hplugin), ?_⟩
    intro previous hretained
    exact (hprevious previous hretained).apply (htidy.previous id plugin previous hplugin hretained
      fun hdone => absurd hdone hcomplete)

theorem InPlace.step (h : InPlace crates host.disk host.plugins) (hsound : host.plugins.Sound crates)
    (hroot : settings.stagingDir = some root) (htidy : Tidy crates settings root host call)
    : InPlace crates (host.step crates settings call).disk (host.step crates settings call).plugins := by
  cases hattempt : host.attempt crates settings call with
  | none => exact h.step_of_no_attempt hsound hattempt
  | some a => exact h.effect (Plugin.effect hroot hattempt) (htidy a hattempt)

theorem writes_of_attempt (hroot : settings.stagingDir = some root)
    (h : host.attempt crates settings call = some a)
    : host.writes crates settings call
        = (a.puts crates).map fun p =>
            { manifest := a.manifest, location := locate (versionDir root a.manifest) p.artifact.path, bytes := p.bytes }
        := by
  unfold Host.writes
  rw [h, hroot]

theorem disk_step (hroot : settings.stagingDir = some root)
    : (host.step crates settings call).disk
        = Overwrite.apply Write.location Write.bytes host.disk (host.writes crates settings call) := by
  cases hattempt : host.attempt crates settings call with
  | none =>
    unfold Host.writes
    rw [hattempt]
    exact disk_of_no_attempt hattempt
  | some a =>
    rw [(effect hroot hattempt).disk, writes_of_attempt hroot hattempt, Overwrite.apply_map]
    rfl

theorem valid_of_attempt (h : host.attempt crates settings call = some a) : a.manifest.Valid crates := by
  unfold Host.attempt at h
  split at h
  next =>
    split at h
    . cases h
    next manifest hyaml =>
      split at h
      . cases h
      . split at h
        . cases h
        . cases h
          exact PluginManifest.valid_of_fromYaml hyaml
  next =>
    split at h
    . cases h
    next manifest hyaml =>
      split at h
      . cases h
      . split at h
        . cases h
        . split at h
          . cases h
          . split at h
            . cases h
            . split at h
              . cases h
              . cases h
                exact PluginManifest.valid_of_fromYaml hyaml
  next => cases h

theorem prefix_versionDir {manifest : PluginManifest} {n n' : Nat} (hvalid : manifest.Valid crates)
    (hpublisher : descend 0 manifest.metadata.publisher = some n)
    (hname : descend n manifest.metadata.name = some n') : root <+: versionDir root manifest := by
  obtain ⟨v, hversion⟩ := hvalid.version
  obtain ⟨publisher, hpublisher', hn⟩ := locate_of_descend root [] hpublisher
  obtain ⟨name, hname', hn'⟩ := locate_of_descend root publisher (hn ▸ hname)
  obtain ⟨version, hversion', -⟩ :=
    locate_of_descend root name (descend_version hversion name.length)
  rw [List.append_nil] at hpublisher'
  unfold versionDir
  rw [hpublisher', hname', hversion']
  exact List.prefix_append _ _

theorem locate_below (dir : Location) {path : String} {n : Nat} (h : descend 0 path = some (n + 1))
    : dir <+: locate dir path ∧ locate dir path ≠ dir := by
  obtain ⟨names, hlocate, hlength⟩ := locate_of_descend dir [] h
  rw [List.append_nil] at hlocate
  rw [hlocate]
  refine ⟨List.prefix_append _ _, ?_⟩
  intro heq
  have hnil := List.append_right_eq_self.mp heq
  rw [hnil] at hlength
  cases hlength

theorem confined_of_tidy (htidy : Tidy crates settings root host call) (hroot : settings.stagingDir = some root)
    : ∀ w ∈ host.writes crates settings call, w.Confined root := by
  cases hattempt : host.attempt crates settings call with
  | none =>
    unfold Host.writes
    rw [hattempt]
    nofun
  | some a =>
    have ha := htidy a hattempt
    rw [writes_of_attempt hroot hattempt]
    intro w hw
    obtain ⟨p, hp, rfl⟩ := List.mem_map.mp hw
    obtain ⟨n, n', hpublisher, hname⟩ := ha.names (List.ne_nil_of_mem hp)
    obtain ⟨depth, hpath⟩ := ha.paths p hp
    obtain ⟨hversion, hfile⟩ := locate_below (versionDir root a.manifest) hpath
    exact ⟨prefix_versionDir (valid_of_attempt hattempt) hpublisher hname, hversion, hfile⟩

theorem in_place_empty : InPlace crates disk ∅ := by
  intro id plugin hplugin
  simp at hplugin

theorem written_run (hroot : settings.stagingDir = some root) {host' : Host} {calls : List Call}
    (h : Run (Guarded (Tidy crates settings root) (Host.step crates settings)) host calls host')
    : host'.disk = Overwrite.apply Write.location Write.bytes host.disk (written crates settings host calls)
        ∧ ∀ w ∈ written crates settings host calls, w.Confined root := by
  induction h with
  | nil host => exact ⟨rfl, nofun⟩
  | cons hst _ ih =>
    obtain ⟨htidy, rfl⟩ := hst
    obtain ⟨hdisk, hrest⟩ := ih
    unfold written
    rw [Overwrite.apply_append, ← disk_step hroot, List.forall_mem_append]
    exact ⟨hdisk, confined_of_tidy htidy hroot, hrest⟩

theorem artifacts_in_place (hroot : settings.stagingDir = some root) {registry : ToolRegistry} {disk : Disk}
    {host : Host} {calls : List Call}
    (h : Run (Guarded (Tidy crates settings root) (Host.step crates settings)) { registry, disk } calls host)
    : InPlace crates host.disk host.plugins
        ∧ host.disk = Overwrite.apply Write.location Write.bytes disk
            (written crates settings { registry, disk } calls)
        ∧ ∀ w ∈ written crates settings { registry, disk } calls, w.Confined root := by
  have hkept : host.plugins.Sound crates ∧ InPlace crates host.disk host.plugins := by
    refine Run.invariant (P := fun host => host.plugins.Sound crates ∧ InPlace crates host.disk host.plugins) ?_ h
      ⟨sound_empty, in_place_empty⟩
    rintro host call _ ⟨hsound, hplace⟩ ⟨htidy, rfl⟩
    exact ⟨hsound.turn (turn host call), hplace.step hsound hroot htidy⟩
  exact ⟨hkept.2, written_run hroot h⟩

theorem attempt_install {package : Package} {manifest : PluginManifest} {grants : List String}
    {os : Nat → WriteOutcome} (hyaml : PluginManifest.fromYaml crates package.manifestYaml = .ok manifest)
    (hnew : host.plugins[manifest.qualifiedId]? = none)
    (hadmitted : admitPackage crates settings host.plugins package manifest grants = .ok ())
    : host.attempt crates settings (.install package grants os) = some { package, manifest, os } := by
  have hfresh : host.plugins.contains manifest.qualifiedId = false := by
    rw [Std.ExtTreeMap.contains_eq_isSome_getElem?, hnew]
    rfl
  dsimp only [Host.attempt]
  simp only [hyaml, hfresh, hadmitted, Bool.false_eq_true, if_false]

theorem attempt_upgrade {package : Package} {manifest : PluginManifest} {grants : List String}
    {os : Nat → WriteOutcome} {current : InstalledPlugin} {newVersion : Semver.Version}
    (hyaml : PluginManifest.fromYaml crates package.manifestYaml = .ok manifest)
    (hcurrent : host.plugins[manifest.qualifiedId]? = some current)
    (hother : manifest.metadata.version ≠ current.manifest.metadata.version)
    (hversion : Semver.parse manifest.metadata.version = .ok newVersion)
    (hbroken : dependentsBrokenBy crates manifest.qualifiedId newVersion host.plugins = [])
    (hadmitted : admitPackage crates settings host.plugins package manifest
      (Host.effective current.grantedPermissions grants) = .ok ())
    : host.attempt crates settings (.upgrade package grants os) = some { package, manifest, os } := by
  dsimp only [Host.attempt]
  simp only [hyaml, hcurrent, hother, hversion, hbroken, hadmitted, if_false]
  rfl

theorem puts_singleton {artifact : Artifact} {bytes : List UInt8}
    (hbytes : package.artifacts[artifact.path]? = some bytes)
    (hdigest : verifyDigest crates.sha256 artifact.digest bytes = .ok ()) (hos : os n = .written)
    : puts crates package os n [artifact] = [{ artifact, bytes, whole := true }]
        ∧ Delivered crates package os n [artifact] := by
  refine ⟨?_, ⟨bytes, hbytes, hdigest⟩, hos, trivial⟩
  unfold puts
  simp only [hbytes, hdigest, hos]
  rfl

end

namespace Acme

def wasm : List UInt8 :=
  [0x00, 0x61, 0x73, 0x6d]

def wasm' : List UInt8 :=
  [0x00, 0x61, 0x73, 0x6d, 0x01]

def tool : Artifact where
  path := "tool.wasm"
  digest := "sha256:cd5d4935a48c0672cb06407bb443bc0087aff947c6b864bac886982c73b3027f"

def tool' : Artifact where
  path := "../../scanner/1.0.0/tool.wasm"
  digest := "sha256:42fd6e7502a18143f0c206c99f1e0787fbcac6b1c5f9969a4cb0d2f7035d07e3"

def scanner : Signed where
  key
  text := "apiVersion: plugin.wovyr.io/v1\nkind: Plugin\nmetadata:\n  name: scanner\n  version: 1.0.0\n"
    ++ "  publisher: acme\nartifacts:\n- path: tool.wasm\n"
    ++ "  digest: sha256:cd5d4935a48c0672cb06407bb443bc0087aff947c6b864bac886982c73b3027f\n"
  manifest :=
    { apiVersion := "plugin.wovyr.io/v1"
      kind := "Plugin"
      metadata := { name := "scanner", version := "1.0.0", publisher := "acme" }
      artifacts := [tool] }
  signature := hexBytes
    ("1f7e237b4e328552a50e2d9a012c79823fe9348be097a26d0be545cbd43ce162"
      ++ "a0186edae59fed2ec331c5c9778e07e91b26baa82fa4eddcad7539fa5a2f4806")
  artifacts := (∅ : Std.ExtTreeMap String (List UInt8)).insert tool.path wasm

def tool₁ : Artifact :=
  { tool' with path := tool.path }

def scanner₁ : Signed where
  key
  text := "apiVersion: plugin.wovyr.io/v1\nkind: Plugin\nmetadata:\n  name: scanner\n  version: 1.1.0\n"
    ++ "  publisher: acme\nartifacts:\n- path: tool.wasm\n"
    ++ "  digest: sha256:42fd6e7502a18143f0c206c99f1e0787fbcac6b1c5f9969a4cb0d2f7035d07e3\n"
  manifest :=
    { scanner.manifest with
      metadata := { name := "scanner", version := "1.1.0", publisher := "acme" }
      artifacts := [tool₁] }
  signature := hexBytes
    ("64ac545232ad7f3204360d3a7787eac79a4b3267463f717fd5ad545971826066"
      ++ "386331586631c821fb051dc8802859a9898803f3f852666a0889d6160d2a0e0d")
  artifacts := (∅ : Std.ExtTreeMap String (List UInt8)).insert tool₁.path wasm'

def shadow : Signed where
  key
  text := "apiVersion: plugin.wovyr.io/v1\nkind: Plugin\nmetadata:\n  name: shadow\n  version: 1.0.0\n"
    ++ "  publisher: acme\nartifacts:\n- path: ../../scanner/1.0.0/tool.wasm\n"
    ++ "  digest: sha256:42fd6e7502a18143f0c206c99f1e0787fbcac6b1c5f9969a4cb0d2f7035d07e3\n"
  manifest :=
    { apiVersion := "plugin.wovyr.io/v1"
      kind := "Plugin"
      metadata := { name := "shadow", version := "1.0.0", publisher := "acme" }
      artifacts := [tool'] }
  signature := hexBytes
    ("f9e0fb52609db66dc63c26eadfac23fa40fa4c296d3b66e593b9d15dbf6133d8"
      ++ "91b4923f261ec39c461b99494675132721c68e1c9b79f32b6d3415ce5493f00d")
  artifacts := (∅ : Std.ExtTreeMap String (List UInt8)).insert tool'.path wasm'

def hashes : List (List UInt8 × List UInt8) :=
  [(wasm,
     [0xcd, 0x5d, 0x49, 0x35, 0xa4, 0x8c, 0x06, 0x72, 0xcb, 0x06, 0x40, 0x7b, 0xb4, 0x43, 0xbc, 0x00,
      0x87, 0xaf, 0xf9, 0x47, 0xc6, 0xb8, 0x64, 0xba, 0xc8, 0x86, 0x98, 0x2c, 0x73, 0xb3, 0x02, 0x7f]),
   (wasm',
     [0x42, 0xfd, 0x6e, 0x75, 0x02, 0xa1, 0x81, 0x43, 0xf0, 0xc2, 0x06, 0xc9, 0x9f, 0x1e, 0x07, 0x87,
      0xfb, 0xca, 0xc6, 0xb1, 0xc5, 0xf9, 0x96, 0x9a, 0x4c, 0xb0, 0xd2, 0xf7, 0x03, 0x5d, 0x07, 0xe3])]

abbrev hashing : Crates :=
  .knowing [scanner, shadow, scanner₁] hashes

def root : Location :=
  ["var", "plugins"]

def staging : Settings :=
  { settings with stagingDir := some root }

theorem trusted_staging : Signed.Trusted [scanner, shadow, scanner₁] hashes staging := by
  refine ⟨by decide, ?_, ?_, ?_, ?_, rfl⟩
  . decide
  . decide
  . decide
  . decide

def scannerAttempt : Attempt :=
  { package := scanner.package, manifest := scanner.manifest, os := fun _ => .written }

def shadowAttempt : Attempt :=
  { package := shadow.package, manifest := shadow.manifest, os := fun _ => .written }

theorem digests
    : verifyDigest hashing.sha256 tool.digest wasm = .ok ()
        ∧ verifyDigest hashing.sha256 tool'.digest wasm' = .ok ()
        ∧ verifyDigest hashing.sha256 tool.digest wasm' ≠ .ok () := by
  decide

theorem locations
    : locate ["var", "plugins", "acme", "scanner", "1.0.0"] tool.path
          = ["var", "plugins", "acme", "scanner", "1.0.0", "tool.wasm"]
        ∧ locate (versionDir root shadow.manifest) tool'.path
          = ["var", "plugins", "acme", "scanner", "1.0.0", "tool.wasm"] := by
  decide

theorem scanner_puts
    : scannerAttempt.puts hashing = [{ artifact := tool, bytes := wasm, whole := true }]
        ∧ scannerAttempt.Complete hashing :=
  puts_singleton rfl (digests).1 rfl

theorem shadow_puts
    : shadowAttempt.puts hashing = [{ artifact := tool', bytes := wasm', whole := true }]
        ∧ shadowAttempt.Complete hashing :=
  puts_singleton rfl (digests).2.1 rfl

def installScanner : Call :=
  .install scanner.package [] fun _ => .written

def installShadow : Call :=
  .install shadow.package [] fun _ => .written

theorem scanner_attempt : ({} : Host).attempt hashing staging installScanner = some scannerAttempt := by
  have hmem : scanner ∈ [scanner, shadow, scanner₁] := List.mem_cons_self
  exact attempt_install ((trusted_staging).fromYaml hmem) rfl ((trusted_staging).admitPackage hmem rfl [])

theorem scanner_installed
    : ∃ plugin : InstalledPlugin,
        (({} : Host).step hashing staging installScanner).plugins
            = (∅ : Catalog).insert "acme/scanner" plugin
          ∧ plugin.manifest = scanner.manifest
          ∧ plugin.artifactDir = some ["var", "plugins", "acme", "scanner", "1.0.0"] ∧ plugin.previous = none := by
  obtain ⟨plugin, hplugins, hmanifest, hdir, hprevious⟩ := (effect rfl scanner_attempt).complete (scanner_puts).2
  refine ⟨plugin, hplugins, hmanifest, hdir, Option.eq_none_iff_forall_ne_some.mpr fun previous hkept => ?_⟩
  obtain ⟨current, hcurrent, -⟩ := hprevious previous hkept
  simp at hcurrent

theorem shadow_attempt
    : (({} : Host).step hashing staging installScanner).attempt hashing staging installShadow
        = some shadowAttempt := by
  have hmem : shadow ∈ [scanner, shadow, scanner₁] := List.mem_cons_of_mem _ List.mem_cons_self
  obtain ⟨plugin, hplugins, -⟩ := scanner_installed
  refine attempt_install ((trusted_staging).fromYaml hmem) ?_ ((trusted_staging).admitPackage hmem rfl [])
  rw [hplugins]
  rfl

def afterScanner : Host :=
  ({} : Host).step hashing staging installScanner

def upgradeScanner : Call :=
  .upgrade scanner₁.package [] fun _ => .written

def revision : List Call :=
  [installScanner, upgradeScanner, .rollback "acme/scanner"]

def afterUpgrade : Host :=
  afterScanner.step hashing staging upgradeScanner

def afterRollback : Host :=
  afterUpgrade.step hashing staging (.rollback "acme/scanner")

theorem tidy_singleton {a : Attempt} {artifact : Artifact} {bytes : List UInt8} {catalog : Catalog}
    (hputs : a.puts hashing = [{ artifact, bytes, whole := true }]) (hartifacts : a.manifest.artifacts = [artifact])
    (hnames : ∃ n n', descend 0 a.manifest.metadata.publisher = some n
      ∧ descend n a.manifest.metadata.name = some n')
    (hpath : ∃ n, descend 0 artifact.path = some (n + 1))
    (hcatalog : ∀ (id : String) (plugin : InstalledPlugin), catalog[id]? = some plugin → plugin.previous = none
      ∧ ∀ dir ∈ plugin.artifactDir, ∀ other ∈ plugin.manifest.artifacts,
        locate (versionDir root a.manifest) artifact.path ≠ locate dir other.path)
    : a.Tidy hashing root catalog := by
  have hmem {p : Put} (hp : p ∈ a.puts hashing) : p = { artifact, bytes, whole := true } :=
    List.mem_singleton.mp (hputs ▸ hp)
  refine ⟨fun _ => hnames, fun p hp => hmem hp ▸ hpath, ?_, ?_, ?_⟩
  . intro id plugin hplugin dir hdir other hother p hlast
    have hplace := Overwrite.place_of_last hlast
    rw [hmem (Overwrite.mem_of_last hlast)] at hplace
    exact absurd hplace ((hcatalog id plugin hplugin).2 dir hdir other hother)
  . intro id plugin previous hplugin hprevious
    rw [(hcatalog id plugin hplugin).1] at hprevious
    cases hprevious
  . intro _ dir hdir other hother p hlast
    have hp := Overwrite.mem_of_last hlast
    rw [hartifacts] at hother
    cases List.mem_singleton.mp hother
    have hdigest := (mem_puts hp).2
    rw [hmem hp] at hdigest ⊢
    exact ⟨rfl, .refl (hdigest rfl)⟩

def upgradeAttempt : Attempt :=
  { package := scanner₁.package, manifest := scanner₁.manifest, os := fun _ => .written }

theorem upgrade_attempt : afterScanner.attempt hashing staging upgradeScanner = some upgradeAttempt := by
  have hmem : scanner₁ ∈ [scanner, shadow, scanner₁] := by simp
  obtain ⟨plugin, hplugins, hmanifest, -⟩ := scanner_installed
  have hplugins : afterScanner.plugins = (∅ : Catalog).insert "acme/scanner" plugin := hplugins
  have hother : scanner₁.manifest.metadata.version ≠ plugin.manifest.metadata.version := by
    rw [hmanifest]
    decide
  refine attempt_upgrade ((trusted_staging).fromYaml hmem) ?_ hother rfl ?_
    ((trusted_staging).admitPackage hmem rfl _)
  . rw [hplugins]
    rfl
  . rw [hplugins]
    rfl

theorem upgrade_puts
    : upgradeAttempt.puts hashing = [{ artifact := tool₁, bytes := wasm', whole := true }]
        ∧ upgradeAttempt.Complete hashing :=
  puts_singleton rfl (digests).2.1 rfl

theorem run_scanner
    : Run (Guarded (Tidy hashing staging root) (Host.step hashing staging)) {} revision afterRollback := by
  refine .cons (t := afterScanner) ⟨?_, rfl⟩ (.cons (t := afterUpgrade) ⟨?_, rfl⟩
    (.cons (t := afterRollback) ⟨nofun, rfl⟩ (.nil _)))
  . intro a ha
    cases (scanner_attempt).symm.trans ha
    exact tidy_singleton (scanner_puts).1 rfl ⟨1, 2, rfl, rfl⟩ ⟨0, rfl⟩ fun id plugin hplugin => by simp at hplugin
  . intro a ha
    cases (upgrade_attempt).symm.trans ha
    refine tidy_singleton (upgrade_puts).1 rfl ⟨1, 2, rfl, rfl⟩ ⟨0, rfl⟩ fun id plugin hplugin => ?_
    obtain ⟨_, hplugins, hmanifest, hdir, hprevious⟩ := scanner_installed
    rcases Map.of_insert (hplugins ▸ hplugin) with ⟨-, rfl⟩ | hnone
    . refine ⟨hprevious, ?_⟩
      rw [hdir, hmanifest]
      decide
    . simp at hnone

def afterShadow : Host :=
  afterScanner.step hashing staging installShadow

theorem shadow_effect : shadowAttempt.Effect hashing root afterScanner afterShadow :=
  effect rfl shadow_attempt

theorem both_installed
    : ∃ plugin : InstalledPlugin, afterShadow.plugins["acme/scanner"]? = some plugin
        ∧ plugin.manifest = scanner.manifest
        ∧ plugin.artifactDir = some ["var", "plugins", "acme", "scanner", "1.0.0"] := by
  obtain ⟨plugin, hplugins, hmanifest, hdir, -⟩ := scanner_installed
  obtain ⟨other, hplugins', -⟩ := (shadow_effect).complete (shadow_puts).2
  refine ⟨plugin, ?_, hmanifest, hdir⟩
  rw [hplugins', Map.getElem?_insert_of_ne _ _ (by decide)]
  show (Host.step _ _ _ _).plugins["acme/scanner"]? = some plugin
  rw [hplugins, Map.getElem?_insert, if_pos rfl]

theorem replaced
    : afterShadow.disk ["var", "plugins", "acme", "scanner", "1.0.0", "tool.wasm"] = some wasm' := by
  rw [(shadow_effect).disk, (shadow_puts).1]
  rfl

theorem write_replaced
    : { manifest := shadow.manifest
        location := ["var", "plugins", "acme", "scanner", "1.0.0", "tool.wasm"]
        bytes := wasm' }
      ∈ written hashing staging {} [installScanner, installShadow] := by
  unfold written
  apply List.mem_append_right
  unfold written
  apply List.mem_append_left
  rw [writes_of_attempt rfl shadow_attempt, (shadow_puts).1, List.map_singleton, List.mem_singleton]
  show _ = { manifest := shadow.manifest
             location := locate (versionDir root shadow.manifest) tool'.path
             bytes := wasm' : Write }
  rw [(locations).2]

end Acme

open Acme

theorem artifacts_in_place_scanner
    : afterScanner.attempt hashing staging upgradeScanner = some upgradeAttempt
        ∧ InPlace hashing afterRollback.disk afterRollback.plugins
        ∧ afterRollback.disk = Overwrite.apply Write.location Write.bytes (fun _ => none)
            (written hashing staging {} revision)
        ∧ ∀ w ∈ written hashing staging {} revision, w.Confined root :=
  ⟨upgrade_attempt, artifacts_in_place rfl run_scanner⟩

-- The artifact of a plugin is written to the directory of another plugin, over the artifact that is there.
theorem artifact_replaced
    : let host := [installScanner, installShadow].foldl (Host.step hashing staging) {}
      ¬InPlace hashing host.disk host.plugins
        ∧ ¬∀ w ∈ written hashing staging {} [installScanner, installShadow],
            w.Confined root := by
  intro host
  refine ⟨?_, fun hconfined => absurd (hconfined _ write_replaced).version (by decide)⟩
  have hhost : host = afterShadow := by
    unfold afterShadow afterScanner
    show List.foldl _ _ _ = _
    rw [List.foldl_cons, List.foldl_cons, List.foldl_nil]
  rw [hhost]
  intro hplace
  obtain ⟨plugin, hplugin, hmanifest, hdir⟩ := both_installed
  have htool : tool ∈ plugin.manifest.artifacts := by
    rw [hmanifest]
    exact List.mem_singleton_self _
  obtain ⟨bytes, hbytes, hdigest⟩ := (hplace _ plugin hplugin).1 _ hdir tool htool
  rw [(locations).1, replaced] at hbytes
  cases hbytes
  exact (digests).2.2 hdigest

end Wovyr.Plugin
