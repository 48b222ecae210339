import Wovyr.Lib.Acyclic
import Wovyr.Plugin.Engine.Signed
import Wovyr.Plugin.Engine.Turn

/-!
This module contains what holds of the dependencies between the installed plugins, and proves under which
condition on the calls it holds in every catalog that is reached.
-/

namespace Wovyr.Plugin

open Relation (ReflTransGen TransGen)
open Tools (ToolRegistry)

section

variable (crates : Crates)

def Edge (catalog : Catalog) (id id' : String) : Prop :=
  ∃ plugin other : InstalledPlugin, catalog[id]? = some plugin ∧ catalog[id']? = some other
    ∧ DependsOn crates plugin other

structure Resolved (catalog : Catalog) : Prop where
  enabled : ∀ (id : String) (plugin : InstalledPlugin), catalog[id]? = some plugin → plugin.state = .enabled →
    ∀ dep ∈ plugin.manifest.dependencies, ∃ (id' : String) (other : InstalledPlugin), catalog[id']? = some other
      ∧ other.state = .enabled ∧ Satisfies crates dep other
  installed : ∀ (id : String) (plugin : InstalledPlugin), catalog[id]? = some plugin →
    ∀ dep ∈ plugin.manifest.dependencies, ∃ (id' : String) (other : InstalledPlugin), catalog[id']? = some other
      ∧ Satisfies crates dep other
  acyclic : Acyclic (Edge crates catalog)

/--
A version does not depend on itself, and nothing that it depends on depends on it, directly or through other
plugins.
-/
structure ClosesNoCycle (catalog : Catalog) (id : String) (next : InstalledPlugin) : Prop where
  self : ¬DependsOn crates next next
  back : ∀ (id₁ id₂ : String) (first last : InstalledPlugin), catalog[id₁]? = some first → catalog[id₂]? = some last →
    DependsOn crates next first → ReflTransGen (Acyclic.Off id (Edge crates catalog)) id₁ id₂ →
      id₁ ≠ id → id₂ ≠ id → ¬DependsOn crates last next

-- A dependency has another plugin than the one in question, an enabled one where that is called for.
def Elsewhere (catalog : Catalog) (id : String) (state : PluginState) (dep : Dependency) : Prop :=
  ∃ (id' : String) (other : InstalledPlugin), id' ≠ id ∧ catalog[id']? = some other ∧ Satisfies crates dep other
    ∧ (state = .enabled → other.state = .enabled)

/--
A version can take the place of the current one: what it depends on is there, the plugins that depend on the
current one are served, and it closes no cycle.
-/
structure Replaces (catalog : Catalog) (id : String) (current next : InstalledPlugin) : Prop where
  needs : ∀ dep ∈ next.manifest.dependencies, Elsewhere crates catalog id current.state dep
  serves : ∀ (id' : String) (plugin : InstalledPlugin), id' ≠ id → catalog[id']? = some plugin →
    ∀ dep ∈ plugin.manifest.dependencies, Satisfies crates dep current →
      Satisfies crates dep next ∨ Elsewhere crates catalog id plugin.state dep
  cycle : ClosesNoCycle crates catalog id next

-- The version that becomes active fits the plugins that are installed.
def Fitting (settings : Settings) (host : Host) : Call → Prop
  | .install package grants _ =>
    ∀ manifest, PluginManifest.fromYaml crates package.manifestYaml = .ok manifest →
      host.plugins[manifest.qualifiedId]? = none →
      admitPackage crates settings host.plugins package manifest grants = .ok () →
        ClosesNoCycle crates host.plugins manifest.qualifiedId { manifest }
  | .upgrade package grants _ =>
    ∀ manifest (current : InstalledPlugin) newVersion,
      PluginManifest.fromYaml crates package.manifestYaml = .ok manifest →
      host.plugins[manifest.qualifiedId]? = some current →
      Semver.parse manifest.metadata.version = .ok newVersion →
      dependentsBrokenBy crates manifest.qualifiedId newVersion host.plugins = [] →
      admitPackage crates settings host.plugins package manifest (Host.effective current.grantedPermissions grants)
        = .ok () →
        Replaces crates host.plugins manifest.qualifiedId current { manifest }
  | .rollback id =>
    ∀ current previous : InstalledPlugin, host.plugins[id]? = some current →
      current.previous = some previous → Replaces crates host.plugins id current previous
  | _ => True

def uninstallAll (settings : Settings) (host : Host) (ids : List String) : Host :=
  ids.foldl (fun host id => host.step crates settings (.uninstall id)) host

end

section

variable {crates : Crates} {settings : Settings} {catalog : Catalog} {id : String}
  {plugin other current next next' : InstalledPlugin}

theorem dependsOn_congr {plugin' other' : InstalledPlugin} (h : plugin.manifest = plugin'.manifest)
    (h' : other.manifest = other'.manifest) : DependsOn crates plugin other ↔ DependsOn crates plugin' other' := by
  unfold DependsOn
  rw [h]
  simp only [satisfies_congr h']

theorem ClosesNoCycle.of_unneeded (hself : ¬DependsOn crates next next)
    (hunneeded : ∀ (id' : String) (plugin : InstalledPlugin), catalog[id']? = some plugin →
      ¬DependsOn crates plugin next)
    : ClosesNoCycle crates catalog id next :=
  ⟨hself, fun _ id₂ _ last _ hlast _ _ _ _ => hunneeded id₂ last hlast⟩

theorem ClosesNoCycle.congr (h : ClosesNoCycle crates catalog id next) (hmanifest : next'.manifest = next.manifest)
    : ClosesNoCycle crates catalog id next' := by
  refine ⟨?_, ?_⟩
  . rw [dependsOn_congr hmanifest hmanifest]
    exact h.self
  . intro id₁ id₂ first last hfirst hlast hdep hpath hne₁ hne₂
    rw [dependsOn_congr hmanifest rfl] at hdep
    rw [dependsOn_congr rfl hmanifest]
    exact h.back id₁ id₂ first last hfirst hlast hdep hpath hne₁ hne₂

theorem Replaces.congr (h : Replaces crates catalog id current next) (hmanifest : next'.manifest = next.manifest)
    : Replaces crates catalog id current next' := by
  refine ⟨?_, ?_, h.cycle.congr hmanifest⟩
  . rw [hmanifest]
    exact h.needs
  . intro id' plugin hne hplugin dep hdep hsatisfied
    rw [satisfies_congr hmanifest]
    exact h.serves id' plugin hne hplugin dep hdep hsatisfied

theorem off_insert {id₁ id₂ : String} (h : Acyclic.Off id (Edge crates (catalog.insert id next)) id₁ id₂)
    : Acyclic.Off id (Edge crates catalog) id₁ id₂ := by
  obtain ⟨hne₁, hne₂, plugin, other, hplugin, hother, hdep⟩ := h
  rw [Map.getElem?_insert_of_ne _ _ (Ne.symm hne₁)] at hplugin
  rw [Map.getElem?_insert_of_ne _ _ (Ne.symm hne₂)] at hother
  exact ⟨hne₁, hne₂, plugin, other, hplugin, hother, hdep⟩

theorem acyclic_insert (h : Acyclic (Edge crates catalog)) (hcycle : ClosesNoCycle crates catalog id next)
    : Acyclic (Edge crates (catalog.insert id next)) := by
  have hself : (catalog.insert id next)[id]? = some next := by
    rw [Map.getElem?_insert, if_pos rfl]
  have hoff : Acyclic (Acyclic.Off id (Edge crates (catalog.insert id next))) :=
    h.mono fun id₁ id₂ hedge => (off_insert hedge).2.2
  refine hoff.of_off ?_ ?_
  . rintro ⟨plugin, other, hplugin, hother, hdep⟩
    cases hself.symm.trans hplugin
    cases hself.symm.trans hother
    exact hcycle.self hdep
  . rintro id₁ id₂ ⟨plugin, first, hplugin, hfirst, hdep⟩ hpath ⟨last, other, hlast, hother, hback⟩
    cases hself.symm.trans hplugin
    cases hself.symm.trans hother
    have hne₁ : id₁ ≠ id := by
      rintro rfl
      cases hself.symm.trans hfirst
      exact hcycle.self hdep
    have hne₂ : id₂ ≠ id := by
      rintro rfl
      cases hself.symm.trans hlast
      exact hcycle.self hback
    rw [Map.getElem?_insert_of_ne _ _ (Ne.symm hne₁)] at hfirst
    rw [Map.getElem?_insert_of_ne _ _ (Ne.symm hne₂)] at hlast
    exact hcycle.back id₁ id₂ first last hfirst hlast hdep
      (ReflTransGen.mono (fun _ _ => off_insert) _ _ hpath) hne₁ hne₂ hback

theorem Edge.sub {catalog' : Catalog}
    (hsub : ∀ (k : String) (p : InstalledPlugin), catalog'[k]? = some p →
      ∃ q : InstalledPlugin, catalog[k]? = some q ∧ p.manifest = q.manifest)
    {id₁ id₂ : String} (h : Edge crates catalog' id₁ id₂) : Edge crates catalog id₁ id₂ := by
  obtain ⟨plugin, other, hplugin, hother, hdep⟩ := h
  obtain ⟨plugin', hplugin', hmanifest⟩ := hsub id₁ plugin hplugin
  obtain ⟨other', hother', hmanifest'⟩ := hsub id₂ other hother
  exact ⟨plugin', other', hplugin', hother', (dependsOn_congr hmanifest hmanifest').mp hdep⟩

theorem Resolved.replace (h : Resolved crates catalog) (hcurrent : catalog[id]? = some current)
    (hreplaces : Replaces crates catalog id current next) (hstate : next.state = current.state)
    : Resolved crates (catalog.insert id next) := by
  have helsewhere {state : PluginState} {dep : Dependency} (h : Elsewhere crates catalog id state dep)
      : ∃ (id' : String) (other : InstalledPlugin), (catalog.insert id next)[id']? = some other
          ∧ (state = .enabled → other.state = .enabled) ∧ Satisfies crates dep other := by
    obtain ⟨id', other, hne, hother, hsatisfied, henabled⟩ := h
    refine ⟨id', other, ?_, henabled, hsatisfied⟩
    rwa [Map.getElem?_insert_of_ne _ _ (Ne.symm hne)]
  have hnext : (catalog.insert id next)[id]? = some next := by
    rw [Map.getElem?_insert, if_pos rfl]
  -- What was satisfied by the plugin itself is satisfied again, what was satisfied by another one still is.
  have hkeeps {k : String} {p : InstalledPlugin} (hne : k ≠ id) (hp : catalog[k]? = some p) {dep : Dependency}
      (hdep : dep ∈ p.manifest.dependencies) {k' : String} {q : InstalledPlugin} (hq : catalog[k']? = some q)
      (hsatisfied : Satisfies crates dep q) (hlive : p.state = .enabled → q.state = .enabled)
      : ∃ (k' : String) (q : InstalledPlugin), (catalog.insert id next)[k']? = some q
          ∧ (p.state = .enabled → q.state = .enabled) ∧ Satisfies crates dep q := by
    by_cases heq : k' = id
    . subst heq
      cases hcurrent.symm.trans hq
      cases hreplaces.serves k p hne hp dep hdep hsatisfied with
      | inl hagain => exact ⟨k', next, hnext, fun henabled => hstate.trans (hlive henabled), hagain⟩
      | inr hother => exact helsewhere hother
    . refine ⟨k', q, ?_, hlive, hsatisfied⟩
      rwa [Map.getElem?_insert_of_ne _ _ (Ne.symm heq)]
  refine ⟨?_, ?_, acyclic_insert h.acyclic hreplaces.cycle⟩
  . intro k p hp henabled dep hdep
    rw [Map.getElem?_insert] at hp
    split at hp
    next =>
      cases hp
      obtain ⟨id', other, hother, hlive, hsatisfied⟩ := helsewhere (hreplaces.needs dep hdep)
      exact ⟨id', other, hother, hlive (hstate ▸ henabled), hsatisfied⟩
    next hne =>
      obtain ⟨k', q, hq, hlive, hsatisfied⟩ := h.enabled k p hp henabled dep hdep
      obtain ⟨k'', q', hq', hlive', hsatisfied'⟩ := hkeeps (Ne.symm hne) hp hdep hq hsatisfied fun _ => hlive
      exact ⟨k'', q', hq', hlive' henabled, hsatisfied'⟩
  . intro k p hp dep hdep
    rw [Map.getElem?_insert] at hp
    split at hp
    next =>
      cases hp
      obtain ⟨id', other, hother, -, hsatisfied⟩ := helsewhere (hreplaces.needs dep hdep)
      exact ⟨id', other, hother, hsatisfied⟩
    next hne =>
      by_cases henabled : p.state = .enabled
      . obtain ⟨k', q, hq, hlive, hsatisfied⟩ := h.enabled k p hp henabled dep hdep
        obtain ⟨k'', q', hq', -, hsatisfied'⟩ := hkeeps (Ne.symm hne) hp hdep hq hsatisfied fun _ => hlive
        exact ⟨k'', q', hq', hsatisfied'⟩
      . obtain ⟨k', q, hq, hsatisfied⟩ := h.installed k p hp dep hdep
        obtain ⟨k'', q', hq', -, hsatisfied'⟩ := hkeeps (Ne.symm hne) hp hdep hq hsatisfied fun he => absurd he henabled
        exact ⟨k'', q', hq', hsatisfied'⟩

theorem Resolved.install (h : Resolved crates catalog) (hnew : catalog[id]? = none)
    (hneeds : ∀ dep ∈ next.manifest.dependencies, ∃ (id' : String) (other : InstalledPlugin),
      catalog[id']? = some other ∧ Satisfies crates dep other)
    (hstate : next.state = .disabled) (hcycle : ClosesNoCycle crates catalog id next)
    : Resolved crates (catalog.insert id next) := by
  have hkeeps {k : String} {p : InstalledPlugin} (hp : catalog[k]? = some p)
      : (catalog.insert id next)[k]? = some p := by
    rw [Map.getElem?_insert_of_ne]
    . exact hp
    . rintro rfl
      rw [hnew] at hp
      cases hp
  refine ⟨?_, ?_, acyclic_insert h.acyclic hcycle⟩
  . intro k p hp henabled dep hdep
    rcases Map.of_insert hp with ⟨-, rfl⟩ | hp
    . rw [hstate] at henabled
      cases henabled
    . obtain ⟨k', q, hq, hrest⟩ := h.enabled k p hp henabled dep hdep
      exact ⟨k', q, hkeeps hq, hrest⟩
  . intro k p hp dep hdep
    rcases Map.of_insert hp with ⟨-, rfl⟩ | hp
    . obtain ⟨k', q, hq, hrest⟩ := hneeds dep hdep
      exact ⟨k', q, hkeeps hq, hrest⟩
    . obtain ⟨k', q, hq, hrest⟩ := h.installed k p hp dep hdep
      exact ⟨k', q, hkeeps hq, hrest⟩

theorem Resolved.enable (h : Resolved crates catalog) (hsound : catalog.Sound crates) {order : List String}
    (horder : enableOrder crates id catalog = .ok order) {catalog' : Catalog}
    (hget : ∀ k : String, catalog'[k]? = catalog[k]?.map fun p => if k ∈ order then p.enable else p)
    : Resolved crates catalog' := by
  obtain ⟨-, hclosed⟩ := enableOrder_closed hsound horder
  have hback {k : String} {p : InstalledPlugin} (hp : catalog'[k]? = some p)
      : ∃ q : InstalledPlugin, catalog[k]? = some q ∧ p.manifest = q.manifest
          ∧ (k ∉ order → p.state = .enabled → q.state = .enabled) := by
    rw [hget, Option.map_eq_some_iff] at hp
    obtain ⟨q, hq, rfl⟩ := hp
    refine ⟨q, hq, ?_, ?_⟩
    . split <;> rfl
    . intro hout
      rw [if_neg hout]
      exact fun henabled => henabled
  have hfore {k : String} {q : InstalledPlugin} (hq : catalog[k]? = some q)
      : ∃ p : InstalledPlugin, catalog'[k]? = some p ∧ p.manifest = q.manifest
          ∧ (k ∈ order ∨ q.state = .enabled → p.state = .enabled) := by
    rw [hget, hq]
    refine ⟨_, rfl, ?_, ?_⟩
    . split <;> rfl
    . split
      next => exact fun _ => rfl
      next hout => exact fun hlive => hlive.resolve_left hout
  refine ⟨?_, ?_, h.acyclic.mono fun id₁ id₂ => Edge.sub fun k p hp => ?_⟩
  . intro k p hp henabled dep hdep
    obtain ⟨q, hq, hmanifest, hlive⟩ := hback hp
    rw [hmanifest] at hdep
    by_cases hk : k ∈ order
    . obtain ⟨q', hq', hdeps⟩ := hclosed k hk
      cases hq.symm.trans hq'
      obtain ⟨id', hid', other, hother, hsatisfied⟩ := hdeps dep hdep
      obtain ⟨other', hother', hsame, hstate⟩ := hfore hother
      exact ⟨id', other', hother', hstate (.inl hid'), (satisfies_congr hsame).mpr hsatisfied⟩
    . obtain ⟨id', other, hother, hothers, hsatisfied⟩ := h.enabled k q hq (hlive hk henabled) dep hdep
      obtain ⟨other', hother', hsame, hstate⟩ := hfore hother
      exact ⟨id', other', hother', hstate (.inr hothers), (satisfies_congr hsame).mpr hsatisfied⟩
  . intro k p hp dep hdep
    obtain ⟨q, hq, hmanifest, -⟩ := hback hp
    rw [hmanifest] at hdep
    obtain ⟨id', other, hother, hsatisfied⟩ := h.installed k q hq dep hdep
    obtain ⟨other', hother', hsame, -⟩ := hfore hother
    exact ⟨id', other', hother', (satisfies_congr hsame).mpr hsatisfied⟩
  . obtain ⟨q, hq, hmanifest, -⟩ := hback hp
    exact ⟨q, hq, hmanifest⟩

theorem Resolved.disable (h : Resolved crates catalog) (hplugin : catalog[id]? = some plugin)
    (hdependents : ∀ d ∈ dependents crates id catalog, ∀ p : InstalledPlugin, catalog[d]? = some p →
      p.state ≠ .enabled)
    : Resolved crates (catalog.insert id { plugin with state := .disabled }) := by
  have hback {k : String} {p : InstalledPlugin}
      (hp : (catalog.insert id { plugin with state := .disabled })[k]? = some p)
      : ∃ q : InstalledPlugin, catalog[k]? = some q ∧ p.manifest = q.manifest
          ∧ (p.state = .enabled → k ≠ id ∧ q.state = .enabled) := by
    rw [Map.getElem?_insert] at hp
    split at hp
    next heq =>
      cases hp
      exact ⟨plugin, heq ▸ hplugin, rfl, nofun⟩
    next hne => exact ⟨p, hp, rfl, fun henabled => ⟨Ne.symm hne, henabled⟩⟩
  have hfore {k : String} {q : InstalledPlugin} (hq : catalog[k]? = some q)
      : ∃ p : InstalledPlugin, (catalog.insert id { plugin with state := .disabled })[k]? = some p
          ∧ p.manifest = q.manifest ∧ (k ≠ id → p.state = q.state) := by
    rw [Map.getElem?_insert]
    split
    next heq =>
      subst heq
      cases hplugin.symm.trans hq
      exact ⟨_, rfl, rfl, fun hne => absurd rfl hne⟩
    next => exact ⟨q, hq, rfl, fun _ => rfl⟩
  refine ⟨?_, ?_, h.acyclic.mono fun id₁ id₂ => Edge.sub fun k p hp => ?_⟩
  . intro k p hp henabled dep hdep
    obtain ⟨q, hq, hmanifest, hstate⟩ := hback hp
    obtain ⟨hne, hlive⟩ := hstate henabled
    rw [hmanifest] at hdep
    obtain ⟨id', other, hother, hothers, hsatisfied⟩ := h.enabled k q hq hlive dep hdep
    have hne' : id' ≠ id := by
      rintro rfl
      have hmem : k ∈ dependents crates id' catalog :=
        (mem_dependents).mpr ⟨hne, q, other, hq, hother, dep, hdep, hsatisfied⟩
      exact hdependents k hmem q hq hlive
    obtain ⟨other', hother', hsame, hkept⟩ := hfore hother
    exact ⟨id', other', hother', (hkept hne').trans hothers, (satisfies_congr hsame).mpr hsatisfied⟩
  . intro k p hp dep hdep
    obtain ⟨q, hq, hmanifest, -⟩ := hback hp
    rw [hmanifest] at hdep
    obtain ⟨id', other, hother, hsatisfied⟩ := h.installed k q hq dep hdep
    obtain ⟨other', hother', hsame, -⟩ := hfore hother
    exact ⟨id', other', hother', (satisfies_congr hsame).mpr hsatisfied⟩
  . obtain ⟨q, hq, hmanifest, -⟩ := hback hp
    exact ⟨q, hq, hmanifest⟩

theorem Resolved.uninstall (h : Resolved crates catalog)
    (hdependents : dependents crates id catalog = []) : Resolved crates (catalog.erase id) := by
  have hback {k : String} {p : InstalledPlugin} (hp : (catalog.erase id)[k]? = some p)
      : k ≠ id ∧ catalog[k]? = some p := by
    rw [Map.getElem?_erase] at hp
    split at hp
    next => cases hp
    next hne => exact ⟨Ne.symm hne, hp⟩
  have hfore {k k' : String} {p other : InstalledPlugin} (hne : k ≠ id) (hp : catalog[k]? = some p)
      {dep : Dependency} (hdep : dep ∈ p.manifest.dependencies) (hother : catalog[k']? = some other)
      (hsatisfied : Satisfies crates dep other) : (catalog.erase id)[k']? = some other := by
    rw [Map.getElem?_erase, if_neg]
    . exact hother
    . rintro rfl
      have hmem : k ∈ dependents crates id catalog :=
        (mem_dependents).mpr ⟨hne, p, other, hp, hother, dep, hdep, hsatisfied⟩
      rw [hdependents] at hmem
      cases hmem
  refine ⟨?_, ?_, h.acyclic.mono fun id₁ id₂ => Edge.sub fun k p hp => ⟨p, (hback hp).2, rfl⟩⟩
  . intro k p hp henabled dep hdep
    obtain ⟨hne, hold⟩ := hback hp
    obtain ⟨id', other, hother, hlive, hsatisfied⟩ := h.enabled k p hold henabled dep hdep
    exact ⟨id', other, hfore hne hold hdep hother hsatisfied, hlive, hsatisfied⟩
  . intro k p hp dep hdep
    obtain ⟨hne, hold⟩ := hback hp
    obtain ⟨id', other, hother, hsatisfied⟩ := h.installed k p hold dep hdep
    exact ⟨id', other, hfore hne hold hdep hother hsatisfied, hsatisfied⟩

theorem resolveAll_found (hsound : catalog.Sound crates) {deps : List Dependency}
    (h : resolveAll crates catalog deps = .ok ())
    : ∀ dep ∈ deps, ∃ (id : String) (plugin : InstalledPlugin),
        catalog[id]? = some plugin ∧ Satisfies crates dep plugin := by
  induction deps with
  | nil => nofun
  | cons dep deps ih =>
    unfold resolveAll at h
    split at h
    . cases h
    next id hid =>
      intro dep' hdep'
      cases List.mem_cons.mp hdep' with
      | inl heq =>
        subst heq
        exact ⟨id, resolveDep_ok hsound hid⟩
      | inr hrest => exact ih h dep' hrest

theorem dependencies_of_admitPackage (hsound : catalog.Sound crates) {package : Package} {manifest : PluginManifest}
    {grants : List String} (h : admitPackage crates settings catalog package manifest grants = .ok ())
    : ∀ dep ∈ manifest.dependencies, ∃ (id : String) (plugin : InstalledPlugin),
        catalog[id]? = some plugin ∧ Satisfies crates dep plugin := by
  unfold admitPackage at h
  simp only [bind_eq_ok] at h
  obtain ⟨_, -, _, -, _, hdeps, -⟩ := h
  exact resolveAll_found hsound hdeps

theorem Resolved.step {host : Host} (h : Resolved crates host.plugins) (hsound : host.plugins.Sound crates)
    {call : Call} (hfitting : Fitting crates settings host call)
    : Resolved crates (host.step crates settings call).plugins := by
  have hturn : Turn crates settings host call (host.step crates settings call) := turn host call
  generalize host.step crates settings call = host' at hturn
  cases hturn with
  | same hplugins _ => rwa [hplugins]
  | install hyaml hnew hadmitted hplugins _ =>
    rw [hplugins]
    exact h.install hnew (dependencies_of_admitPackage hsound hadmitted) rfl
      ((hfitting _ hyaml hnew hadmitted).congr rfl)
  | upgrade hyaml hcurrent _ hversion hbroken hadmitted hplugins _ =>
    rw [hplugins, swap_plugins]
    exact h.replace hcurrent ((hfitting _ _ _ hyaml hcurrent hversion hbroken hadmitted).congr rfl) rfl
  | rollback hcurrent hprevious hplugins _ =>
    rw [hplugins, swap_plugins]
    exact h.replace hcurrent ((hfitting _ _ hcurrent hprevious).congr rfl) rfl
  | enable horder hhost =>
    rw [hhost]
    exact h.enable hsound horder fun k => getElem?_enableAll _ k
  | disable hplugin _ hdependents hplugins _ =>
    rw [hplugins]
    exact h.disable hplugin hdependents
  | uninstall _ hdependents hplugins _ =>
    rw [hplugins]
    exact h.uninstall hdependents

theorem resolved_empty : Resolved crates ∅ := by
  refine ⟨?_, ?_, ?_⟩
  . intro id plugin hplugin
    simp at hplugin
  . intro id plugin hplugin
    simp at hplugin
  . intro id hcycle
    obtain ⟨_, hedge, -⟩ := TransGen.head'_iff.mp hcycle
    obtain ⟨plugin, other, hplugin, -⟩ := hedge
    simp at hplugin

theorem uninstallable {host : Host} (hacyclic : Acyclic (Edge crates host.plugins))
    : ∃ ids, (uninstallAll crates settings host ids).plugins = ∅ := by
  induction hsize : host.plugins.size generalizing host with
  | zero => exact ⟨[], Std.ExtTreeMap.eq_empty_iff_size_eq_zero.mpr hsize⟩
  | succ n ih =>
    have hfinite : {k | k ∈ host.plugins.keys}.Finite := List.finite_toSet _
    have hnonempty : {k | k ∈ host.plugins.keys}.Nonempty := by
      apply List.exists_mem_of_length_pos
      rw [Std.ExtTreeMap.length_keys]
      omega
    obtain ⟨id, hid, hfree⟩ := hacyclic.exists_unreferenced hfinite hnonempty
    have hmem : id ∈ host.plugins := Std.ExtTreeMap.mem_keys.mp hid
    obtain ⟨plugin, hplugin⟩ := Option.isSome_iff_exists.mp (Std.ExtTreeMap.mem_iff_isSome_getElem?.mp hmem)
    have hdependents : dependents crates id host.plugins = [] := by
      apply List.eq_nil_iff_forall_not_mem.mpr
      intro k hk
      obtain ⟨-, p, target, hp, htarget, hdep⟩ := (mem_dependents).mp hk
      apply hfree k
      . apply Std.ExtTreeMap.mem_keys.mpr
        rw [Std.ExtTreeMap.mem_iff_isSome_getElem?, hp]
        rfl
      . exact ⟨p, target, hp, htarget, hdep⟩
    obtain ⟨-, hplugins, -⟩ := uninstall_ok hplugin hdependents
    have hsize' : (host.step crates settings (.uninstall id)).plugins.size = n := by
      show (host.uninstall crates id).2.plugins.size = n
      rw [hplugins, Std.ExtTreeMap.size_erase, if_pos (Std.ExtTreeMap.contains_iff_mem.mpr hmem)]
      omega
    have hacyclic' : Acyclic (Edge crates (host.step crates settings (.uninstall id)).plugins) := by
      show Acyclic (Edge crates (host.uninstall crates id).2.plugins)
      rw [hplugins]
      refine hacyclic.mono fun id₁ id₂ => Edge.sub fun k p hp => ?_
      exact ⟨p, Map.of_erase hp, rfl⟩
    obtain ⟨ids, hids⟩ := ih hacyclic' hsize'
    exact ⟨id :: ids, hids⟩

theorem dependencies_resolved {registry : ToolRegistry} {disk : Disk} {host : Host} {calls : List Call}
    (h : Run (Guarded (Fitting crates settings) (Host.step crates settings)) { registry, disk } calls host)
    : Resolved crates host.plugins ∧ ∃ ids, (uninstallAll crates settings host ids).plugins = ∅ := by
  have hkept : host.plugins.Sound crates ∧ Resolved crates host.plugins := by
    refine Run.invariant (P := fun host => host.plugins.Sound crates ∧ Resolved crates host.plugins) ?_ h
      ⟨sound_empty, resolved_empty⟩
    rintro host call _ ⟨hsound, hresolved⟩ ⟨hfitting, rfl⟩
    exact ⟨hsound.turn (turn host call), hresolved.step hsound hfitting⟩
  exact ⟨hkept.2, uninstallable hkept.2.acyclic⟩

end

namespace Acme

def base : Signed where
  key
  text := "apiVersion: plugin.wovyr.io/v1\nkind: Plugin\nmetadata:\n  name: base\n  version: 1.0.0\n"
    ++ "  publisher: acme\n"
  manifest :=
    { apiVersion := "plugin.wovyr.io/v1"
      kind := "Plugin"
      metadata := { name := "base", version := "1.0.0", publisher := "acme" } }
  signature := hexBytes
    ("325b820050a5c4a91cac553a704685a744cd8b4fcca7ae64bebcbb510fe8daac"
      ++ "00ad9c9f3478e821488098400e1d49505305d2cc46d544641cf196ee92c0a30b")

def app : Signed where
  key
  text := "apiVersion: plugin.wovyr.io/v1\nkind: Plugin\nmetadata:\n  name: app\n  version: 1.0.0\n"
    ++ "  publisher: acme\n"
  manifest :=
    { apiVersion := "plugin.wovyr.io/v1"
      kind := "Plugin"
      metadata := { name := "app", version := "1.0.0", publisher := "acme" } }
  signature := hexBytes
    ("9d5975bbd213341e5e66695fc664d1616dcbca37a46fc3ee9dbef5f9ee3391a5"
      ++ "2890212f5b5f47220d73e554f797974f440ace321b4481a63a9e03b1f1cb800f")

def next : Signed where
  key
  text := "apiVersion: plugin.wovyr.io/v1\nkind: Plugin\nmetadata:\n  name: app\n  version: 1.1.0\n"
    ++ "  publisher: acme\ndependencies:\n- name: base\n  version: '*'\n"
  manifest :=
    { apiVersion := "plugin.wovyr.io/v1"
      kind := "Plugin"
      metadata := { name := "app", version := "1.1.0", publisher := "acme" }
      dependencies := [{ name := "base", version := "*" }] }
  signature := hexBytes
    ("903cd692b6977169f47fd62f2459e67480789fb653fb9f91672f0bf1f55967f6"
      ++ "1d57d2aca34cdd1ed6cb39f31ca0e54e24b8cf44fea38f4b591d4f9681ee870a")

def releases : List Signed :=
  [base, app, next]

abbrev crates : Crates :=
  .knowing releases []

theorem trusted : Signed.Trusted releases [] settings := by
  refine ⟨by decide, ?_, ?_, ?_, ?_, rfl⟩
  . decide
  . decide
  . decide
  . decide

def catalog : Catalog :=
  ((∅ : Catalog).insert "acme/base" { manifest := base.manifest }).insert "acme/app" { manifest := app.manifest }

def calls : List Call :=
  [.install base.package [] fun _ => .written, .install app.package [] fun _ => .written, .enable "acme/app",
    .upgrade next.package [] fun _ => .written]

def upgraded : InstalledPlugin where
  manifest := next.manifest
  state := .enabled
  previous := some { manifest := app.manifest, state := .enabled }

theorem plugins_calls
    : (calls.foldl (Host.step crates settings) {}).plugins
        = (catalog.insert "acme/app" { manifest := app.manifest, state := .enabled }).insert "acme/app" upgraded := by
  have hbase : base ∈ releases := List.mem_cons_self
  have happ : app ∈ releases := List.mem_cons_of_mem _ List.mem_cons_self
  have hnext : next ∈ releases := List.mem_cons_of_mem _ (List.mem_cons_of_mem _ List.mem_cons_self)
  unfold calls
  rw [List.foldl_cons, (trusted).install hbase rfl rfl rfl]
  rw [List.foldl_cons, (trusted).install happ rfl rfl rfl]
  rw [List.foldl_cons, enable_ok rfl rfl]
  rw [List.foldl_cons, (trusted).upgrade hnext rfl (by decide) rfl rfl rfl rfl]
  rfl

instance (dep : Dependency) (plugin : InstalledPlugin) : Decidable (Satisfies crates dep plugin) :=
  match h : satisfies crates dep plugin with
  | .ok true => .isTrue h
  | .ok false | .error _ => .isFalse fun hsatisfied => by cases h.symm.trans hsatisfied

-- Some checks that suffice for a version to fit, and that can be run.
def unneeded? (catalog : Catalog) (next : InstalledPlugin) : Bool :=
  ((("", next) :: catalog.toList).all fun (_, plugin) =>
    plugin.manifest.dependencies.all fun dep => decide ¬Satisfies crates dep next)

def replaceable? (catalog : Catalog) (id : String) (next : InstalledPlugin) : Bool :=
  unneeded? catalog next
    && (catalog.toList.all fun (id', plugin) =>
      if id' = id then decide (plugin.state ≠ .enabled) else plugin.manifest.dependencies.isEmpty)
    && next.manifest.dependencies.all fun dep => catalog.toList.any fun (id', other) =>
      decide (id' ≠ id ∧ Satisfies crates dep other)

variable {catalog : Catalog} {id : String} {current next : InstalledPlugin}

theorem closesNoCycle_of_unneeded (h : unneeded? catalog next = true) : ClosesNoCycle crates catalog id next := by
  have hnot {id' : String} {plugin : InstalledPlugin} (hmem : (id', plugin) ∈ ("", next) :: catalog.toList)
      : ¬DependsOn crates plugin next := by
    rintro ⟨dep, hdep, hsatisfied⟩
    exact of_decide_eq_true (List.all_eq_true.mp (List.all_eq_true.mp h _ hmem) dep hdep) hsatisfied
  refine .of_unneeded (hnot List.mem_cons_self) fun id' plugin hget => ?_
  exact hnot (List.mem_cons_of_mem _ (Std.ExtTreeMap.mem_toList_iff_getElem?_eq_some.mpr hget))

theorem replaces_of_replaceable (h : replaceable? catalog id next = true) (hcurrent : catalog[id]? = some current)
    : Replaces crates catalog id current next := by
  unfold replaceable? at h
  simp only [Bool.and_eq_true] at h
  obtain ⟨⟨hunneeded, hothers⟩, hneeds⟩ := h
  have hother {id' : String} {plugin : InstalledPlugin} (hget : catalog[id']? = some plugin) :=
    List.all_eq_true.mp hothers (id', plugin) (Std.ExtTreeMap.mem_toList_iff_getElem?_eq_some.mpr hget)
  refine ⟨fun dep hdep => ?_, fun id' plugin hne hget dep hdep => ?_, closesNoCycle_of_unneeded hunneeded⟩
  . obtain ⟨⟨id', other⟩, hmem, hother'⟩ := List.any_eq_true.mp (List.all_eq_true.mp hneeds dep hdep)
    have ⟨hne, hsatisfied⟩ := of_decide_eq_true hother'
    refine ⟨id', other, hne, Std.ExtTreeMap.mem_toList_iff_getElem?_eq_some.mp hmem, hsatisfied, ?_⟩
    intro henabled
    have hdisabled := hother hcurrent
    simp [henabled] at hdisabled
  . have hnone := hother hget
    simp only [hne, if_false, List.isEmpty_iff] at hnone
    rw [hnone] at hdep
    cases hdep

def orderly : List Call :=
  [.install base.package [] fun _ => .written, .install Acme.next.package [] fun _ => .written,
    .upgrade app.package [] fun _ => .written, .rollback "acme/app", .enable "acme/app"]

theorem manifest_eq {r : Signed} (hmem : r ∈ releases) {manifest : PluginManifest}
    (h : PluginManifest.fromYaml crates r.package.manifestYaml = .ok manifest) : manifest = r.manifest := by
  rw [(trusted).fromYaml hmem] at h
  exact (Except.ok.inj h).symm

theorem run_orderly
    : Run (Guarded (Fitting crates settings) (Host.step crates settings)) {} orderly
        (orderly.foldl (Host.step crates settings) {}) := by
  have hbase : base ∈ releases := List.mem_cons_self
  have happ : app ∈ releases := List.mem_cons_of_mem _ List.mem_cons_self
  have hnext : Acme.next ∈ releases := List.mem_cons_of_mem _ (List.mem_cons_of_mem _ List.mem_cons_self)
  unfold orderly
  rw [List.foldl_cons, List.foldl_cons, List.foldl_cons, List.foldl_cons, List.foldl_cons, List.foldl_nil]
  refine .cons ⟨?_, rfl⟩ (.cons ⟨?_, rfl⟩ (.cons ⟨?_, rfl⟩ (.cons ⟨?_, rfl⟩ (.cons ⟨trivial, rfl⟩ (.nil _)))))
  . intro manifest hyaml _ _
    rw [manifest_eq hbase hyaml]
    exact closesNoCycle_of_unneeded (by decide)
  . rw [(trusted).install hbase rfl rfl rfl]
    intro manifest hyaml _ _
    rw [manifest_eq hnext hyaml]
    exact closesNoCycle_of_unneeded (by decide)
  . rw [(trusted).install hbase rfl rfl rfl, (trusted).install hnext rfl rfl rfl]
    intro manifest current _ hyaml hcurrent _ _ _
    rw [manifest_eq happ hyaml] at hcurrent ⊢
    exact replaces_of_replaceable (by decide) hcurrent
  . rw [(trusted).install hbase rfl rfl rfl, (trusted).install hnext rfl rfl rfl,
      (trusted).upgrade happ rfl (by decide) rfl rfl rfl rfl]
    rintro _ _ ⟨⟩ ⟨⟩
    exact replaces_of_replaceable (by decide) rfl

end Acme

open Acme

theorem dependencies_resolved_orderly
    : Resolved crates (orderly.foldl (Host.step crates settings) {}).plugins
        ∧ ∃ ids, (uninstallAll crates settings
            (orderly.foldl (Host.step crates settings) {}) ids).plugins = ∅ :=
  dependencies_resolved run_orderly

-- The new version of a plugin that is enabled is resolved against a plugin that is disabled.
theorem enabled_without_dependency
    : ¬Resolved crates (calls.foldl (Host.step crates settings) {}).plugins := by
  rw [plugins_calls]
  intro h
  have happ : ((catalog.insert "acme/app" { manifest := app.manifest, state := .enabled }).insert "acme/app"
      upgraded)["acme/app"]? = some upgraded := by
    rw [Map.getElem?_insert, if_pos rfl]
  obtain ⟨id, other, hother, hlive, hsatisfied⟩ :=
    h.enabled "acme/app" upgraded happ rfl { name := "base", version := "*" } List.mem_cons_self
  have hname := ((satisfies_iff).mp hsatisfied).1
  simp only [catalog, Map.getElem?_insert] at hother
  split at hother
  next =>
    cases hother
    exact absurd hname (by decide)
  next =>
    split at hother
    next =>
      cases hother
      cases hlive
    next => simp at hother

end Wovyr.Plugin
