import Wovyr.Plugin.Engine.Signed
import Wovyr.Plugin.Engine.Turn

/-!
This module contains which tools the registry of a host is to hold, and proves under which condition on the
calls it holds these and no others.
-/

namespace Wovyr.Plugin

open Tools (Tool ToolRegistry)

/-- A plugin that is enabled has the tool with an id. -/
def Offers (runtime : CapabilityRuntime) (catalog : Catalog) (k id : String) (tool : Tool) : Prop :=
  ∃ plugin : InstalledPlugin, catalog[k]? = some plugin ∧ plugin.state = .enabled ∧
    ∃ cap ∈ plugin.manifest.toolCapabilities, cap.id = id ∧ tool = pluginTool runtime plugin cap

/-- The registry holds what was built in and what the plugins that are enabled have, and nothing else. -/
def Reflects (settings : Settings) (builtIn : ToolRegistry) (host : Host) : Prop :=
  ∀ id tool, host.registry.get id = some tool ↔
    builtIn.get id = some tool ∨ ∃ k, Offers settings.runtime host.plugins k id tool

-- No tool that was built in has an id of the manifest, and no plugin that is enabled or is about to be.
def Free (builtIn : ToolRegistry) (catalog : Catalog) (order : List String) (id : String)
    (manifest : PluginManifest) : Prop :=
  ∀ cap ∈ manifest.toolCapabilities, builtIn.get cap.id = none ∧
    ∀ (k : String) (plugin : InstalledPlugin), k ≠ id → catalog[k]? = some plugin →
      plugin.state = .enabled ∨ k ∈ order → ∀ cap' ∈ plugin.manifest.toolCapabilities, cap'.id ≠ cap.id

section

variable (crates : Crates)

-- The tools that become active have ids of their own.
def OwnIds (builtIn : ToolRegistry) (host : Host) : Call → Prop
  | .upgrade package _ _ =>
    ∀ manifest (current : InstalledPlugin), PluginManifest.fromYaml crates package.manifestYaml = .ok manifest →
      host.plugins[manifest.qualifiedId]? = some current → current.state = .enabled →
        Free builtIn host.plugins [] manifest.qualifiedId manifest
  | .rollback id =>
    ∀ current previous : InstalledPlugin, host.plugins[id]? = some current → current.previous = some previous →
      current.state = .enabled → Free builtIn host.plugins [] id previous.manifest
  | .enable id =>
    ∀ order, enableOrder crates id host.plugins = .ok order →
      ∀ k ∈ order, ∀ plugin : InstalledPlugin, host.plugins[k]? = some plugin → plugin.state = .disabled →
        Free builtIn host.plugins order k plugin.manifest
  | _ => True

end

structure Owned (settings : Settings) (builtIn : ToolRegistry) (host : Host) : Prop where
  reflects : Reflects settings builtIn host
  foreign : ∀ k id tool, Offers settings.runtime host.plugins k id tool → builtIn.get id = none
  apart : ∀ k k' id tool tool', Offers settings.runtime host.plugins k id tool →
    Offers settings.runtime host.plugins k' id tool' → k = k'

section

variable {runtime : CapabilityRuntime} {plugin : InstalledPlugin} {manifest : PluginManifest}
  {registry : ToolRegistry} {cap : CapabilityDescriptor} {id : String}

theorem get_unregister_foldl (caps : List CapabilityDescriptor)
    : (caps.foldl (fun r cap => r.unregister cap.id) registry).get id
        = if ∃ cap ∈ caps, cap.id = id then none else registry.get id := by
  induction caps generalizing registry with
  | nil => simp
  | cons cap caps ih =>
    rw [List.foldl_cons, ih, ToolRegistry.get_unregister]
    by_cases hrest : ∃ cap ∈ caps, cap.id = id
    . simp [hrest]
    . simp [hrest]

theorem get_unregisterTools
    : (unregisterTools manifest registry).get id
        = if ∃ cap ∈ manifest.toolCapabilities, cap.id = id then none else registry.get id :=
  get_unregister_foldl _

theorem get_register_foldl_of_not_mem {caps : List CapabilityDescriptor} (h : ¬∃ cap ∈ caps, cap.id = id)
    : (caps.foldl (fun r cap => r.register (pluginTool runtime plugin cap)) registry).get id
        = registry.get id := by
  induction caps generalizing registry with
  | nil => rfl
  | cons cap caps ih =>
    simp only [List.mem_cons, exists_eq_or_imp, not_or] at h
    rw [List.foldl_cons, ih h.2, ToolRegistry.get_register]
    exact if_neg h.1

theorem get_register_foldl_of_mem {caps : List CapabilityDescriptor} (hnodup : (caps.map (·.id)).Nodup)
    (hcap : cap ∈ caps)
    : (caps.foldl (fun r cap => r.register (pluginTool runtime plugin cap)) registry).get cap.id
        = some (pluginTool runtime plugin cap) := by
  induction caps generalizing registry with
  | nil => cases hcap
  | cons first caps ih =>
    rw [List.map_cons, List.nodup_cons] at hnodup
    rw [List.foldl_cons]
    cases List.mem_cons.mp hcap with
    | inl heq =>
      subst heq
      rw [get_register_foldl_of_not_mem, ToolRegistry.get_register]
      . exact if_pos rfl
      . rintro ⟨other, hother, hid⟩
        exact hnodup.1 (List.mem_map.mpr ⟨other, hother, hid⟩)
    | inr hrest => exact ih hnodup.2 hrest

theorem get_registerTools_of_not_mem (h : ¬∃ cap ∈ plugin.manifest.toolCapabilities, cap.id = id)
    : (registerTools runtime plugin registry).get id = registry.get id :=
  get_register_foldl_of_not_mem h

theorem get_registerTools_of_mem {crates : Crates} (hvalid : plugin.manifest.Valid crates)
    (hcap : cap ∈ plugin.manifest.toolCapabilities)
    : (registerTools runtime plugin registry).get cap.id = some (pluginTool runtime plugin cap) := by
  apply get_register_foldl_of_mem _ hcap
  exact hvalid.capabilities.sublist (List.filter_sublist.map _)

end

section

variable {crates : Crates} {settings : Settings} {builtIn : ToolRegistry} {host host' : Host} {id : String}

/--
One plugin offers other tools than before: the registry holds them where they are, none where they were and
are no more, and otherwise what it held.
-/
theorem Owned.reroute (h : Owned settings builtIn host)
    (hoff : ∀ k, k ≠ id → host'.plugins[k]? = host.plugins[k]?)
    (hnew : ∀ x tool, Offers settings.runtime host'.plugins id x tool → host'.registry.get x = some tool)
    (hgone : ∀ x, (∀ tool, ¬Offers settings.runtime host'.plugins id x tool) →
      (∃ tool, Offers settings.runtime host.plugins id x tool) → host'.registry.get x = none)
    (hrest : ∀ x, (∀ tool, ¬Offers settings.runtime host'.plugins id x tool) →
      (∀ tool, ¬Offers settings.runtime host.plugins id x tool) → host'.registry.get x = host.registry.get x)
    (hfree : ∀ x tool, Offers settings.runtime host'.plugins id x tool → builtIn.get x = none ∧
      ∀ k, k ≠ id → ∀ tool', ¬Offers settings.runtime host.plugins k x tool')
    : Owned settings builtIn host' := by
  have hothers {k x : String} {tool : Tool} (hk : k ≠ id)
      : Offers settings.runtime host'.plugins k x tool ↔ Offers settings.runtime host.plugins k x tool := by
    unfold Offers
    rw [hoff k hk]
  refine ⟨?_, ?_, ?_⟩
  . intro x tool
    by_cases hoffers : ∃ tool', Offers settings.runtime host'.plugins id x tool'
    . obtain ⟨tool', hoffers⟩ := hoffers
      obtain ⟨hforeign, hapart⟩ := hfree x tool' hoffers
      rw [hnew x tool' hoffers, hforeign]
      constructor
      . intro heq
        cases heq
        exact .inr ⟨id, hoffers⟩
      . rintro (hnone | ⟨k, hk⟩)
        . cases hnone
        . by_cases heq : k = id
          . subst heq
            exact (hnew x tool' hoffers).symm.trans (hnew x tool hk)
          . exact absurd ((hothers heq).mp hk) (hapart k heq tool)
    . have hnone : ∀ tool', ¬Offers settings.runtime host'.plugins id x tool' := not_exists.mp hoffers
      by_cases hold : ∃ tool', Offers settings.runtime host.plugins id x tool'
      . rw [hgone x hnone hold]
        obtain ⟨tool', hold⟩ := hold
        rw [h.foreign id x tool' hold]
        constructor
        . nofun
        . rintro (hbuilt | ⟨k, hk⟩)
          . cases hbuilt
          . by_cases heq : k = id
            . exact absurd (heq ▸ hk) (hnone tool)
            . exact absurd (h.apart k id x tool tool' ((hothers heq).mp hk) hold) heq
      . rw [hrest x hnone (not_exists.mp hold), h.reflects x tool]
        apply or_congr_right
        constructor
        . rintro ⟨k, hk⟩
          refine ⟨k, (hothers ?_).mpr hk⟩
          rintro rfl
          exact hold ⟨tool, hk⟩
        . rintro ⟨k, hk⟩
          refine ⟨k, (hothers ?_).mp hk⟩
          rintro rfl
          exact hnone tool hk
  . intro k x tool hk
    by_cases heq : k = id
    . subst heq
      exact (hfree x tool hk).1
    . exact h.foreign k x tool ((hothers heq).mp hk)
  . intro k k' x tool tool' hk hk'
    by_cases heq : k = id
    . subst heq
      by_contra hne
      exact (hfree x tool hk).2 k' (Ne.symm hne) tool' ((hothers (Ne.symm hne)).mp hk')
    . by_cases heq' : k' = id
      . subst heq'
        exact absurd ((hothers heq).mp hk) ((hfree x tool' hk').2 k heq tool)
      . exact h.apart k k' x tool tool' ((hothers heq).mp hk) ((hothers heq').mp hk')

theorem offers_iff {runtime : CapabilityRuntime} {catalog : Catalog} {plugin : InstalledPlugin} {x : String}
    {tool : Tool} (h : catalog[id]? = some plugin)
    : Offers runtime catalog id x tool ↔ plugin.state = .enabled ∧
        ∃ cap ∈ plugin.manifest.toolCapabilities, cap.id = x ∧ tool = pluginTool runtime plugin cap := by
  unfold Offers
  simp [h]

theorem not_offers_insert {runtime : CapabilityRuntime} {catalog : Catalog} {plugin : InstalledPlugin} {x : String}
    {tool : Tool} (hstate : plugin.state = .disabled) : ¬Offers runtime (catalog.insert id plugin) id x tool := by
  have hplugin : (catalog.insert id plugin)[id]? = some plugin := by
    rw [Map.getElem?_insert, if_pos rfl]
  rw [offers_iff hplugin, hstate]
  nofun

theorem Free.apart {catalog : Catalog} {order : List String} {manifest : PluginManifest}
    (h : Free builtIn catalog order id manifest) {cap : CapabilityDescriptor}
    (hcap : cap ∈ manifest.toolCapabilities)
    : builtIn.get cap.id = none ∧ ∀ k, k ≠ id → ∀ tool, ¬Offers settings.runtime catalog k cap.id tool := by
  obtain ⟨hforeign, hapart⟩ := h cap hcap
  refine ⟨hforeign, ?_⟩
  rintro k hk tool ⟨plugin, hplugin, henabled, cap', hcap', hid, -⟩
  exact hapart k plugin hk hplugin (.inl henabled) cap' hcap' hid

theorem Owned.swap (h : Owned settings builtIn host) {current next : InstalledPlugin}
    (hcurrent : host.plugins[id]? = some current)
    (hplugins : host'.plugins = (host.swap settings id current next).plugins)
    (hregistry : host'.registry = (host.swap settings id current next).registry)
    (hvalid : next.manifest.Valid crates) (hstate : next.state = current.state)
    (hfree : current.state = .enabled → Free builtIn host.plugins [] id next.manifest)
    : Owned settings builtIn host' := by
  rw [swap_plugins] at hplugins
  have hnext : host'.plugins[id]? = some next := by
    rw [hplugins, Map.getElem?_insert, if_pos rfl]
  have hoff (k : String) (hk : k ≠ id) : host'.plugins[k]? = host.plugins[k]? := by
    rw [hplugins, Map.getElem?_insert_of_ne _ _ (Ne.symm hk)]
  unfold Host.swap at hregistry
  dsimp only at hregistry
  by_cases hlive : current.state = .enabled
  . rw [if_pos hlive] at hregistry
    have hout {x : String} (hnone : ∀ tool, ¬Offers settings.runtime host'.plugins id x tool)
        : ¬∃ cap ∈ next.manifest.toolCapabilities, cap.id = x := by
      rintro ⟨cap, hcap, hid⟩
      exact hnone _ ((offers_iff hnext).mpr ⟨hstate.trans hlive, cap, hcap, hid, rfl⟩)
    refine h.reroute hoff ?_ ?_ ?_ ?_
    . intro x tool hoffers
      obtain ⟨-, cap, hcap, rfl, rfl⟩ := (offers_iff hnext).mp hoffers
      rw [hregistry]
      exact get_registerTools_of_mem hvalid hcap
    . rintro x hnone ⟨tool, hoffers⟩
      obtain ⟨-, cap, hcap, hid, -⟩ := (offers_iff hcurrent).mp hoffers
      rw [hregistry, get_registerTools_of_not_mem (hout hnone), get_unregisterTools]
      exact if_pos ⟨cap, hcap, hid⟩
    . intro x hnone hold
      rw [hregistry, get_registerTools_of_not_mem (hout hnone), get_unregisterTools]
      apply if_neg
      rintro ⟨cap, hcap, hid⟩
      exact hold _ ((offers_iff hcurrent).mpr ⟨hlive, cap, hcap, hid, rfl⟩)
    . intro x tool hoffers
      obtain ⟨-, cap, hcap, rfl, -⟩ := (offers_iff hnext).mp hoffers
      exact (hfree hlive).apart hcap
  . rw [if_neg hlive] at hregistry
    have hnone (x : String) (tool : Tool) : ¬Offers settings.runtime host'.plugins id x tool := by
      intro hoffers
      exact hlive (hstate ▸ ((offers_iff hnext).mp hoffers).1)
    have hold (x : String) (tool : Tool) : ¬Offers settings.runtime host.plugins id x tool := by
      intro hoffers
      exact hlive ((offers_iff hcurrent).mp hoffers).1
    refine h.reroute hoff ?_ ?_ ?_ ?_
    . intro x tool hoffers
      exact absurd hoffers (hnone x tool)
    . rintro x - ⟨tool, hoffers⟩
      exact absurd hoffers (hold x tool)
    . intro x _ _
      rw [hregistry]
    . intro x tool hoffers
      exact absurd hoffers (hnone x tool)

theorem Owned.withdraw (h : Owned settings builtIn host) {plugin : InstalledPlugin}
    (hplugin : host.plugins[id]? = some plugin)
    (hoff : ∀ k, k ≠ id → host'.plugins[k]? = host.plugins[k]?)
    (hnone : ∀ x tool, ¬Offers settings.runtime host'.plugins id x tool)
    (hregistry : host'.registry
      = if plugin.state = .enabled then unregisterTools plugin.manifest host.registry else host.registry)
    : Owned settings builtIn host' := by
  refine h.reroute hoff ?_ ?_ ?_ ?_
  . intro x tool hoffers
    exact absurd hoffers (hnone x tool)
  . rintro x - ⟨tool, hoffers⟩
    obtain ⟨hlive, cap, hcap, hid, -⟩ := (offers_iff hplugin).mp hoffers
    rw [hregistry, if_pos hlive, get_unregisterTools]
    exact if_pos ⟨cap, hcap, hid⟩
  . intro x _ hold
    rw [hregistry]
    split
    next hlive =>
      rw [get_unregisterTools]
      apply if_neg
      rintro ⟨cap, hcap, hid⟩
      exact hold _ ((offers_iff hplugin).mpr ⟨hlive, cap, hcap, hid, rfl⟩)
    next => rfl
  . intro x tool hoffers
    exact absurd hoffers (hnone x tool)

theorem Owned.enableOne (h : Owned settings builtIn host) (hsound : host.plugins.Sound crates)
    (hfree : ∀ plugin : InstalledPlugin, host.plugins[id]? = some plugin → plugin.state = .disabled →
      Free builtIn host.plugins [] id plugin.manifest)
    : Owned settings builtIn (host.enableOne settings id) := by
  have hoff (k : String) (hk : k ≠ id) : (host.enableOne settings id).plugins[k]? = host.plugins[k]? := by
    rw [getElem?_enableOne]
    simp [hk]
  cases hplugin : host.plugins[id]? with
  | none =>
    unfold Host.enableOne
    rwa [hplugin]
  | some plugin =>
    cases hstate : plugin.state with
    | enabled =>
      unfold Host.enableOne
      simpa [hplugin, hstate] using h
    | disabled =>
      have hnext : (host.enableOne settings id).plugins[id]? = some plugin.enable := by
        rw [getElem?_enableOne, hplugin, Option.map_some, if_pos rfl]
      have hregistry : (host.enableOne settings id).registry
          = registerTools settings.runtime plugin host.registry := by
        rw [enableOne_disabled hplugin hstate]
      have hold (x : String) (tool : Tool) : ¬Offers settings.runtime host.plugins id x tool := by
        intro hoffers
        have hlive := ((offers_iff hplugin).mp hoffers).1
        rw [hstate] at hlive
        cases hlive
      refine h.reroute hoff ?_ ?_ ?_ ?_
      . intro x tool hoffers
        obtain ⟨-, cap, hcap, rfl, rfl⟩ := (offers_iff hnext).mp hoffers
        rw [hregistry]
        exact get_registerTools_of_mem (hsound.fits id plugin hplugin).valid hcap
      . rintro x - ⟨tool, hoffers⟩
        exact absurd hoffers (hold x tool)
      . intro x hnone _
        rw [hregistry]
        apply get_registerTools_of_not_mem
        rintro ⟨cap, hcap, hid⟩
        exact hnone _ ((offers_iff hnext).mpr ⟨rfl, cap, hcap, hid, rfl⟩)
      . intro x tool hoffers
        obtain ⟨-, cap, hcap, rfl, -⟩ := (offers_iff hnext).mp hoffers
        exact (hfree plugin hplugin hstate).apart hcap

def Progress (catalog : Catalog) (order : List String) (catalog' : Catalog) : Prop :=
  ∀ (k : String) (p : InstalledPlugin), catalog'[k]? = some p → ∃ q : InstalledPlugin, catalog[k]? = some q
    ∧ p.manifest = q.manifest ∧ (p.state = .enabled → q.state = .enabled ∨ k ∈ order)
    ∧ (p.state = .disabled → q.state = .disabled)

theorem Progress.enableOne {catalog : Catalog} {order : List String} (h : Progress catalog order host.plugins)
    (hid : id ∈ order) : Progress catalog order (host.enableOne settings id).plugins := by
  intro k p hp
  rw [getElem?_enableOne, Option.map_eq_some_iff] at hp
  obtain ⟨p', hp', rfl⟩ := hp
  obtain ⟨q, hq, hmanifest, henabled, hdisabled⟩ := h k p' hp'
  refine ⟨q, hq, ?_, ?_, ?_⟩
  . split
    . exact hmanifest
    . exact hmanifest
  . split
    next heq => exact fun _ => .inr (heq ▸ hid)
    next => exact henabled
  . split
    . nofun
    . exact hdisabled

theorem Free.progress {catalog catalog' : Catalog} {order : List String} {manifest : PluginManifest}
    (h : Free builtIn catalog order id manifest) (hprogress : Progress catalog order catalog')
    : Free builtIn catalog' [] id manifest := by
  intro cap hcap
  obtain ⟨hforeign, hapart⟩ := h cap hcap
  refine ⟨hforeign, ?_⟩
  intro k p hk hp hlive cap' hcap'
  obtain ⟨q, hq, hmanifest, henabled, -⟩ := hprogress k p hp
  rw [hmanifest] at hcap'
  exact hapart k q hk hq (henabled (hlive.resolve_right List.not_mem_nil)) cap' hcap'

theorem Owned.enableAll {catalog : Catalog} {order todo : List String} (h : Owned settings builtIn host)
    (hsound : host.plugins.Sound crates) (hprogress : Progress catalog order host.plugins) (htodo : todo ⊆ order)
    (hfree : ∀ k ∈ order, ∀ plugin : InstalledPlugin, catalog[k]? = some plugin → plugin.state = .disabled →
      Free builtIn catalog order k plugin.manifest)
    : Owned settings builtIn (todo.foldl (Host.enableOne settings) host) := by
  induction todo generalizing host with
  | nil => exact h
  | cons id todo ih =>
    have hid : id ∈ order := htodo List.mem_cons_self
    rw [List.foldl_cons]
    apply ih
    . apply h.enableOne hsound
      intro plugin hplugin hstate
      obtain ⟨q, hq, hmanifest, -, hdisabled⟩ := hprogress id plugin hplugin
      rw [hmanifest]
      exact (hfree id hid q hq (hdisabled hstate)).progress hprogress
    . exact hsound.enableAll [id]
    . exact hprogress.enableOne hid
    . exact fun _ hx => htodo (List.mem_cons_of_mem _ hx)

theorem progress_refl (catalog : Catalog) (order : List String) : Progress catalog order catalog :=
  fun _ p hp => ⟨p, hp, rfl, .inl, fun hstate => hstate⟩

theorem Owned.step (h : Owned settings builtIn host) (hsound : host.plugins.Sound crates) {call : Call}
    (hids : OwnIds crates builtIn host call) : Owned settings builtIn (host.step crates settings call) := by
  have hturn : Turn crates settings host call (host.step crates settings call) := turn host call
  generalize host.step crates settings call = host' at hturn
  cases hturn with
  | same hplugins hregistry =>
    refine ⟨?_, ?_, ?_⟩
    . unfold Reflects
      rw [hplugins, hregistry]
      exact h.reflects
    . rw [hplugins]
      exact h.foreign
    . rw [hplugins]
      exact h.apart
  | @install _ _ _ manifest _ _ hnew _ hplugins hregistry =>
    have hnone (x : String) (tool : Tool) : ¬Offers settings.runtime host'.plugins manifest.qualifiedId x tool := by
      rw [hplugins]
      exact not_offers_insert rfl
    have hothers (k : String) (hk : k ≠ manifest.qualifiedId) : host'.plugins[k]? = host.plugins[k]? := by
      rw [hplugins, Map.getElem?_insert_of_ne _ _ (Ne.symm hk)]
    refine h.reroute hothers ?_ ?_ ?_ ?_
    . intro x tool hoffers
      exact absurd hoffers (hnone x tool)
    . rintro x - ⟨tool, plugin, hplugin, -⟩
      rw [hnew] at hplugin
      cases hplugin
    . intro x _ _
      rw [hregistry]
    . intro x tool hoffers
      exact absurd hoffers (hnone x tool)
  | upgrade hyaml hcurrent _ _ _ _ hplugins hregistry =>
    exact h.swap hcurrent hplugins hregistry (PluginManifest.valid_of_fromYaml hyaml) rfl (hids _ _ hyaml hcurrent)
  | rollback hcurrent hprevious hplugins hregistry =>
    obtain ⟨hfits, -⟩ := hsound.previous _ _ _ hcurrent hprevious
    have hfree := hids _ _ hcurrent hprevious
    exact h.swap hcurrent hplugins hregistry hfits.valid rfl hfree
  | enable horder hhost =>
    rw [hhost]
    exact h.enableAll hsound (progress_refl _ _) (fun _ hx => hx) (hids _ horder)
  | @disable id plugin _ hplugin henabled _ hplugins hregistry =>
    refine h.withdraw hplugin ?_ ?_ (hregistry.trans (if_pos henabled).symm)
    . intro k hk
      rw [hplugins, Map.getElem?_insert_of_ne _ _ (Ne.symm hk)]
    . intro x tool
      rw [hplugins]
      exact not_offers_insert rfl
  | @uninstall id plugin _ hplugin _ hplugins hregistry =>
    refine h.withdraw hplugin ?_ ?_ hregistry
    . intro k hk
      rw [hplugins, Map.getElem?_erase, if_neg (Ne.symm hk)]
    . rintro x tool ⟨p, hp, -⟩
      rw [hplugins, Map.getElem?_erase, if_pos rfl] at hp
      cases hp

theorem owned_start (disk : Disk) : Owned settings builtIn { registry := builtIn, disk } := by
  have hnone (k x : String) (tool : Tool) : ¬Offers settings.runtime ∅ k x tool := by
    rintro ⟨plugin, hplugin, -⟩
    simp at hplugin
  refine ⟨?_, ?_, ?_⟩
  . intro id tool
    constructor
    . exact .inl
    . rintro (hbuilt | ⟨k, hk⟩)
      . exact hbuilt
      . exact absurd hk (hnone k id tool)
  . intro k id tool hk
    exact absurd hk (hnone k id tool)
  . intro k k' id tool tool' hk
    exact absurd hk (hnone k id tool)

/--
If the tools that become active have ids of their own, then the registry holds at any time the tools that were
built in and those of the plugins that are enabled, and a call changes no tool but those of the plugins that it
is about.
-/
theorem registry_reflects {disk : Disk} {calls : List Call}
    (h : Run (Guarded (OwnIds crates builtIn) (Host.step crates settings)) { registry := builtIn, disk } calls host)
    : Reflects settings builtIn host ∧ ∀ call, OwnIds crates builtIn host call → ∀ id tool,
        (builtIn.get id = some tool ∨ ∃ k, Offers settings.runtime host.plugins k id tool
          ∧ (host.step crates settings call).plugins[k]? = host.plugins[k]?)
        → (host.step crates settings call).registry.get id = host.registry.get id := by
  have hkept : host.plugins.Sound crates ∧ Owned settings builtIn host := by
    refine Run.invariant (P := fun host => host.plugins.Sound crates ∧ Owned settings builtIn host) ?_ h
      ⟨sound_empty, owned_start disk⟩
    rintro host call _ ⟨hsound, howned⟩ ⟨hids, rfl⟩
    exact ⟨hsound.turn (turn host call), howned.step hsound hids⟩
  obtain ⟨hsound, howned⟩ := hkept
  refine ⟨howned.reflects, ?_⟩
  intro call hids id tool hheld
  have hnext := (howned.step hsound hids).reflects id tool
  cases hheld with
  | inl hbuilt => rw [hnext.mpr (.inl hbuilt), (howned.reflects id tool).mpr (.inl hbuilt)]
  | inr hoffered =>
    obtain ⟨k, hk, hsame⟩ := hoffered
    rw [(howned.reflects id tool).mpr (.inr ⟨k, hk⟩), hnext]
    refine .inr ⟨k, ?_⟩
    unfold Offers
    rw [hsame]
    exact hk

end

namespace Acme

def clock : Signed where
  key
  text := "apiVersion: plugin.wovyr.io/v1\nkind: Plugin\nmetadata:\n  name: clock\n  version: 1.0.0\n"
    ++ "  publisher: acme\ncapabilities:\n- kind: tool\n  id: clock.now\n"
  manifest :=
    { apiVersion := "plugin.wovyr.io/v1"
      kind := "Plugin"
      metadata := { name := "clock", version := "1.0.0", publisher := "acme" }
      capabilities := [{ kind := .tool, id := "clock.now" }] }
  signature := hexBytes
    ("13122a798f6d45de1587993530207fa1855efa438b28d9017ee589703b3806f5"
      ++ "451f2ea9ce3d1a4cbf92b89397cc78b9c5fad2d06a355155b111843639225308")

def echo : Signed where
  key
  text := "apiVersion: plugin.wovyr.io/v1\nkind: Plugin\nmetadata:\n  name: echo\n  version: 1.0.0\n"
    ++ "  publisher: acme\ncapabilities:\n- kind: tool\n  id: echo\n"
  manifest :=
    { apiVersion := "plugin.wovyr.io/v1"
      kind := "Plugin"
      metadata := { name := "echo", version := "1.0.0", publisher := "acme" }
      capabilities := [{ kind := .tool, id := "echo" }] }
  signature := hexBytes
    ("f5bdf31617ca818f6472e107a9d76aa385c670283143ab6c03b46c2e2cd46fd0"
      ++ "d5f356e6bde7410eb454160b4c6d6dece11c0e395f012f8a869edfa060a99009")

def toolReleases : List Signed :=
  [clock, echo]

abbrev toolCrates : Crates :=
  .knowing toolReleases []

theorem toolsTrusted : Signed.Trusted toolReleases [] settings := by
  refine ⟨by decide, ?_, ?_, ?_, ?_, rfl⟩
  . decide
  . decide
  . decide
  . decide

def echoTool : Tool where
  metadata := { id := "echo", version := "1.0.0", category := "utility", description := "Echo the given parameters back unchanged." }
  inputSchema := .object
    [("type", .string "object"), ("properties", .object []), ("additionalProperties", .bool true)]
  execute _ request := .ok { success := true, payload := request }

def builtIn : ToolRegistry :=
  ToolRegistry.new.register echoTool

def toolCalls : List Call :=
  [.install clock.package [] fun _ => .written, .enable "acme/clock", .install echo.package [] fun _ => .written]

theorem run_toolCalls
    : Run (Guarded (OwnIds toolCrates builtIn) (Host.step toolCrates settings)) { registry := builtIn } toolCalls
        (toolCalls.foldl (Host.step toolCrates settings) { registry := builtIn }) := by
  have hclock : clock ∈ toolReleases := List.mem_cons_self
  unfold toolCalls
  rw [List.foldl_cons, List.foldl_cons, List.foldl_cons, List.foldl_nil]
  refine .cons ⟨trivial, rfl⟩ (.cons ⟨?_, rfl⟩ (.cons ⟨trivial, rfl⟩ (.nil _)))
  rw [(toolsTrusted).install hclock rfl rfl rfl]
  intro order horder k hk plugin hplugin _ cap hcap
  rcases Map.of_insert hplugin with ⟨heq, rfl⟩ | hplugin
  . cases List.mem_singleton.mp hcap
    refine ⟨rfl, ?_⟩
    intro k' plugin' hne hplugin'
    rw [Map.getElem?_insert, if_neg (heq ▸ Ne.symm hne)] at hplugin'
    simp at hplugin'
  . simp at hplugin

def takeover : List Call :=
  [.install echo.package [] fun _ => .written, .enable "acme/echo", .disable "acme/echo"]

theorem get_takeover
    : (takeover.foldl (Host.step toolCrates settings) { registry := builtIn }).registry.get "echo" = none := by
  have hecho : echo ∈ toolReleases := List.mem_cons_of_mem _ List.mem_cons_self
  unfold takeover
  rw [List.foldl_cons, (toolsTrusted).install hecho rfl rfl rfl]
  rw [List.foldl_cons, enable_ok rfl rfl]
  rw [List.foldl_cons, disable_ok rfl rfl rfl, List.foldl_nil, get_unregisterTools]
  exact if_pos ⟨_, List.mem_singleton_self _, rfl⟩

end Acme

theorem registry_reflects_clock
    : Reflects Acme.settings Acme.builtIn
        (Acme.toolCalls.foldl (Host.step Acme.toolCrates Acme.settings) { registry := Acme.builtIn }) :=
  (registry_reflects Acme.run_toolCalls).1

-- The id of a tool that was built in is gone with the plugin that took it.
theorem builtIn_removed
    : ¬Reflects Acme.settings Acme.builtIn
        (Acme.takeover.foldl (Host.step Acme.toolCrates Acme.settings) { registry := Acme.builtIn }) := by
  intro h
  have hecho := (h "echo" Acme.echoTool).mpr (.inl rfl)
  rw [Acme.get_takeover] at hecho
  cases hecho

end Wovyr.Plugin
