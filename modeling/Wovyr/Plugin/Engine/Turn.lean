import Wovyr.Lib.Run
import Wovyr.Plugin.Engine
import Wovyr.Plugin.Resolution

/-!
This module contains what a call can do to the installed plugins and to the registry of a host: one case for
a call that changes neither and one for every kind of call that goes through.
-/

namespace Wovyr.Plugin

variable (crates : Crates) (settings : Settings)

inductive Turn (host : Host) : Call → Host → Prop where
  | same {call : Call} {host' : Host} (hplugins : host'.plugins = host.plugins)
      (hregistry : host'.registry = host.registry) : Turn host call host'
  | install {package : Package} {grants : List String} {os : Nat → WriteOutcome} {manifest : PluginManifest}
      {host' : Host} (hyaml : PluginManifest.fromYaml crates package.manifestYaml = .ok manifest)
      (hnew : host.plugins[manifest.qualifiedId]? = none)
      (hadmitted : admitPackage crates settings host.plugins package manifest grants = .ok ())
      (hplugins : host'.plugins = host.plugins.insert manifest.qualifiedId
        { manifest, grantedPermissions := grants, artifactDir := artifactDir settings manifest })
      (hregistry : host'.registry = host.registry) : Turn host (.install package grants os) host'
  | upgrade {package : Package} {grants : List String} {os : Nat → WriteOutcome} {manifest : PluginManifest}
      {current : InstalledPlugin} {newVersion : Semver.Version} {host' : Host}
      (hyaml : PluginManifest.fromYaml crates package.manifestYaml = .ok manifest)
      (hcurrent : host.plugins[manifest.qualifiedId]? = some current)
      (hother : manifest.metadata.version ≠ current.manifest.metadata.version)
      (hversion : Semver.parse manifest.metadata.version = .ok newVersion)
      (hbroken : dependentsBrokenBy crates manifest.qualifiedId newVersion host.plugins = [])
      (hadmitted : admitPackage crates settings host.plugins package manifest
        (Host.effective current.grantedPermissions grants) = .ok ())
      (hplugins : host'.plugins = (host.swap settings manifest.qualifiedId current
        { manifest
          state := current.state
          grantedPermissions := Host.effective current.grantedPermissions grants
          artifactDir := artifactDir settings manifest
          previous := some { current with previous := none } }).plugins)
      (hregistry : host'.registry = (host.swap settings manifest.qualifiedId current
        { manifest
          state := current.state
          grantedPermissions := Host.effective current.grantedPermissions grants
          artifactDir := artifactDir settings manifest
          previous := some { current with previous := none } }).registry)
      : Turn host (.upgrade package grants os) host'
  | rollback {id : String} {current previous : InstalledPlugin} {host' : Host}
      (hcurrent : host.plugins[id]? = some current) (hprevious : current.previous = some previous)
      (hplugins : host'.plugins = (host.swap settings id current { previous with state := current.state }).plugins)
      (hregistry : host'.registry
        = (host.swap settings id current { previous with state := current.state }).registry)
      : Turn host (.rollback id) host'
  | enable {id : String} {order : List String} {host' : Host}
      (horder : enableOrder crates id host.plugins = .ok order)
      (hhost : host' = order.foldl (Host.enableOne settings) host) : Turn host (.enable id) host'
  | disable {id : String} {plugin : InstalledPlugin} {host' : Host} (hplugin : host.plugins[id]? = some plugin)
      (henabled : plugin.state = .enabled)
      (hdependents : ∀ d ∈ dependents crates id host.plugins, ∀ p : InstalledPlugin, host.plugins[d]? = some p →
        p.state ≠ .enabled)
      (hplugins : host'.plugins = host.plugins.insert id { plugin with state := .disabled })
      (hregistry : host'.registry = unregisterTools plugin.manifest host.registry)
      : Turn host (.disable id) host'
  | uninstall {id : String} {plugin : InstalledPlugin} {host' : Host} (hplugin : host.plugins[id]? = some plugin)
      (hdependents : dependents crates id host.plugins = [])
      (hplugins : host'.plugins = host.plugins.erase id)
      (hregistry : host'.registry
        = if plugin.state = .enabled then unregisterTools plugin.manifest host.registry else host.registry)
      : Turn host (.uninstall id) host'

section

variable {crates : Crates} {settings : Settings} {host : Host}

theorem verifyAndStage_ok {catalog : Catalog} {package : Package} {manifest : PluginManifest}
    {grants : List String} {os : Nat → WriteOutcome} {disk disk' : Disk} {dir : Option Location}
    (h : verifyAndStage crates settings catalog package manifest grants os disk = (.ok dir, disk'))
    : admitPackage crates settings catalog package manifest grants = .ok () ∧ dir = artifactDir settings manifest := by
  unfold verifyAndStage at h
  split at h
  . cases h
  next hadmitted =>
    dsimp only at h
    split at h
    . cases h
    . cases h
      exact ⟨hadmitted, rfl⟩

theorem turn_install (package : Package) (grants : List String) (os : Nat → WriteOutcome)
    : Turn crates settings host (.install package grants os)
        (host.install crates settings package grants os).2 := by
  unfold Host.install
  split
  . exact .same rfl rfl
  next manifest hyaml =>
    dsimp only
    split
    . exact .same rfl rfl
    next hnew =>
      split
      . exact .same rfl rfl
      next dir disk hstage =>
        obtain ⟨hadmitted, rfl⟩ := verifyAndStage_ok hstage
        refine .install hyaml (Std.ExtTreeMap.getElem?_eq_none ?_) hadmitted rfl rfl
        rwa [Std.ExtTreeMap.contains_iff_mem] at hnew

theorem turn_upgrade (package : Package) (grants : List String) (os : Nat → WriteOutcome)
    : Turn crates settings host (.upgrade package grants os)
        (host.upgrade crates settings package grants os).2 := by
  unfold Host.upgrade
  split
  . exact .same rfl rfl
  next manifest hyaml =>
    dsimp only
    split
    . exact .same rfl rfl
    next current hcurrent =>
      split
      . exact .same rfl rfl
      next hother =>
        split
        . exact .same rfl rfl
        next newVersion hversion =>
          split
          . exact .same rfl rfl
          next hbroken =>
            split
            . exact .same rfl rfl
            next dir disk hstage =>
              obtain ⟨hadmitted, rfl⟩ := verifyAndStage_ok hstage
              refine .upgrade hyaml hcurrent hother hversion ?_ hadmitted rfl rfl
              simpa using hbroken

theorem turn_rollback (id : String) : Turn crates settings host (.rollback id) (host.rollback settings id).2 := by
  unfold Host.rollback
  split
  . exact .same rfl rfl
  next current hcurrent =>
    split
    . exact .same rfl rfl
    next previous hprevious => exact .rollback hcurrent hprevious rfl rfl

theorem turn_enable (id : String) : Turn crates settings host (.enable id) (host.enable crates settings id).2 := by
  unfold Host.enable
  split
  . exact .same rfl rfl
  . split
    . exact .same rfl rfl
    next order horder => exact .enable horder rfl

theorem turn_disable (id : String) : Turn crates settings host (.disable id) (host.disable crates id).2 := by
  unfold Host.disable
  split
  . exact .same rfl rfl
  next plugin hplugin =>
    split
    . exact .same rfl rfl
    next hstate =>
      have henabled : plugin.state = .enabled := by
        cases hs : plugin.state with
        | enabled => rfl
        | disabled => exact absurd hs hstate
      dsimp only
      split
      . exact .same rfl rfl
      next hdependents =>
        refine .disable hplugin henabled ?_ rfl rfl
        intro d hd p hp hs
        simp only [Bool.not_eq_true', Bool.not_eq_false, List.isEmpty_iff, List.filter_eq_nil_iff] at hdependents
        apply hdependents d hd
        simp [hp, hs]

theorem insert_erase (m : Catalog) (id : String) (plugin : InstalledPlugin)
    : (m.insert id plugin).erase id = m.erase id := by
  apply Std.ExtTreeMap.ext_getElem?
  intro k
  rw [Map.getElem?_erase, Map.getElem?_erase, Map.getElem?_insert]
  split <;> rfl

theorem uninstall_ok {id : String} {plugin : InstalledPlugin} (hplugin : host.plugins[id]? = some plugin)
    (hdependents : dependents crates id host.plugins = [])
    : (host.uninstall crates id).1 = .ok () ∧ (host.uninstall crates id).2.plugins = host.plugins.erase id
        ∧ (host.uninstall crates id).2.registry
          = if plugin.state = .enabled then unregisterTools plugin.manifest host.registry else host.registry := by
  unfold Host.uninstall Host.disable
  cases hstate : plugin.state with
  | disabled => simp [hplugin, hdependents, hstate]
  | enabled => simp [hplugin, hdependents, hstate, insert_erase]

theorem turn_uninstall (id : String)
    : Turn crates settings host (.uninstall id) (host.uninstall crates id).2 := by
  cases hplugin : host.plugins[id]? with
  | none =>
    unfold Host.uninstall
    rw [hplugin]
    exact .same rfl rfl
  | some plugin =>
    by_cases hdependents : dependents crates id host.plugins = []
    . obtain ⟨-, hplugins, hregistry⟩ := uninstall_ok hplugin hdependents
      exact .uninstall hplugin hdependents hplugins hregistry
    . unfold Host.uninstall
      simp only [hplugin]
      rw [if_pos (by simpa using hdependents)]
      exact .same rfl rfl

theorem turn (host : Host) (call : Call) : Turn crates settings host call (host.step crates settings call) := by
  cases call with
  | install package grants os => exact turn_install package grants os
  | upgrade package grants os => exact turn_upgrade package grants os
  | rollback id => exact turn_rollback id
  | enable id => exact turn_enable id
  | disable id => exact turn_disable id
  | uninstall id => exact turn_uninstall id

@[simp] theorem swap_plugins (id : String) (current next : InstalledPlugin)
    : (host.swap settings id current next).plugins = host.plugins.insert id next :=
  rfl

def InstalledPlugin.enable (plugin : InstalledPlugin) : InstalledPlugin :=
  { plugin with state := .enabled }

theorem enable_of_enabled {plugin : InstalledPlugin} (h : plugin.state = .enabled) : plugin.enable = plugin := by
  cases plugin
  cases h
  rfl

@[simp] theorem enable_enable (plugin : InstalledPlugin) : plugin.enable.enable = plugin.enable :=
  rfl

theorem getElem?_enableOne (id k : String)
    : (host.enableOne settings id).plugins[k]?
        = host.plugins[k]?.map fun p => if k = id then p.enable else p := by
  unfold Host.enableOne
  split
  next hnone =>
    by_cases hk : k = id
    . subst hk
      rw [hnone, Option.map_none]
    . simp [hk]
  next plugin hplugin =>
    split
    next henabled =>
      by_cases hk : k = id
      . subst hk
        rw [hplugin, Option.map_some, if_pos rfl, enable_of_enabled henabled]
      . simp [hk]
    next =>
      show (host.plugins.insert id plugin.enable)[k]? = _
      rw [Map.getElem?_insert]
      by_cases hk : k = id
      . subst hk
        simp [hplugin]
      . simp [hk, Ne.symm hk]

theorem getElem?_enableAll (order : List String) (k : String)
    : (order.foldl (Host.enableOne settings) host).plugins[k]?
        = host.plugins[k]?.map fun p => if k ∈ order then p.enable else p := by
  induction order generalizing host with
  | nil => simp
  | cons id order ih =>
    rw [List.foldl_cons, ih, getElem?_enableOne, Option.map_map]
    congr 1
    funext p
    by_cases hk : k = id
    . simp [hk]
    . simp [hk]

theorem Catalog.Sound.insert {catalog : Catalog} (hsound : catalog.Sound crates) {id : String}
    {plugin : InstalledPlugin} (hfits : plugin.Fits crates id)
    (hprevious : ∀ previous, plugin.previous = some previous → previous.Fits crates id ∧ previous.previous = none)
    : Catalog.Sound crates (catalog.insert id plugin) := by
  refine ⟨?_, ?_⟩
  . intro k p hp
    rcases Map.of_insert hp with ⟨heq, rfl⟩ | hp
    . exact heq ▸ hfits
    . exact hsound.fits k p hp
  . intro k p q hp hq
    rcases Map.of_insert hp with ⟨heq, rfl⟩ | hp
    . exact heq ▸ hprevious q hq
    . exact hsound.previous k p q hp hq

theorem Catalog.Sound.erase {catalog : Catalog} (hsound : catalog.Sound crates) (id : String)
    : Catalog.Sound crates (catalog.erase id) := by
  have hsub (k : String) (p : InstalledPlugin) (hp : (catalog.erase id)[k]? = some p) : catalog[k]? = some p := by
    exact Map.of_erase hp
  exact ⟨fun k p hp => hsound.fits k p (hsub k p hp), fun k p q hp => hsound.previous k p q (hsub k p hp)⟩

theorem Catalog.Sound.enableAll (hsound : host.plugins.Sound crates) (order : List String)
    : (order.foldl (Host.enableOne settings) host).plugins.Sound crates := by
  have hback (k : String) (p : InstalledPlugin)
      (hp : (order.foldl (Host.enableOne settings) host).plugins[k]? = some p)
      : ∃ q : InstalledPlugin, host.plugins[k]? = some q ∧ p.manifest = q.manifest ∧ p.previous = q.previous := by
    rw [getElem?_enableAll, Option.map_eq_some_iff] at hp
    obtain ⟨q, hq, rfl⟩ := hp
    refine ⟨q, hq, ?_⟩
    split
    . exact ⟨rfl, rfl⟩
    . exact ⟨rfl, rfl⟩
  refine ⟨?_, ?_⟩
  . intro k p hp
    obtain ⟨q, hq, hmanifest, -⟩ := hback k p hp
    have hfits := hsound.fits k q hq
    exact ⟨hmanifest ▸ hfits.keyed, hmanifest ▸ hfits.valid⟩
  . intro k p previous hp hprevious
    obtain ⟨q, hq, -, hsame⟩ := hback k p hp
    exact hsound.previous k q previous hq (hsame ▸ hprevious)

theorem Catalog.Sound.turn {call : Call} {host' : Host} (hsound : host.plugins.Sound crates)
    (h : Turn crates settings host call host') : host'.plugins.Sound crates := by
  cases h with
  | same hplugins _ => rwa [hplugins]
  | install hyaml _ _ hplugins _ =>
    rw [hplugins]
    exact hsound.insert ⟨rfl, PluginManifest.valid_of_fromYaml hyaml⟩ nofun
  | @upgrade _ _ _ manifest current _ _ hyaml hcurrent _ _ _ _ hplugins _ =>
    rw [hplugins, swap_plugins]
    refine hsound.insert ⟨rfl, PluginManifest.valid_of_fromYaml hyaml⟩ ?_
    intro previous hprevious
    cases hprevious
    have hfits := hsound.fits _ current hcurrent
    exact ⟨⟨hfits.keyed, hfits.valid⟩, rfl⟩
  | rollback hcurrent hprevious hplugins _ =>
    obtain ⟨hfits, hnone⟩ := hsound.previous _ _ _ hcurrent hprevious
    rw [hplugins, swap_plugins]
    refine hsound.insert ⟨hfits.keyed, hfits.valid⟩ ?_
    intro previous hprevious
    rw [hnone] at hprevious
    cases hprevious
  | enable _ hhost =>
    rw [hhost]
    exact hsound.enableAll _
  | @disable id plugin _ hplugin _ _ hplugins _ =>
    rw [hplugins]
    have hfits := hsound.fits id plugin hplugin
    exact hsound.insert ⟨hfits.keyed, hfits.valid⟩ fun previous => hsound.previous id plugin previous hplugin
  | uninstall _ _ hplugins _ =>
    rw [hplugins]
    exact hsound.erase _

theorem sound_empty : Catalog.Sound crates ∅ := by
  refine ⟨?_, ?_⟩
  . intro id plugin h
    simp at h
  . intro id plugin previous h
    simp at h

end

end Wovyr.Plugin
