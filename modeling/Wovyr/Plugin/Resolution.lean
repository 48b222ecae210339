import Wovyr.Plugin.Resolve

/-!
This module contains what is known of the dependencies of a catalog when they have been resolved: what is
enabled before a plugin is all that the plugin needs.
-/

namespace Wovyr.Plugin

/-- A plugin as it can be in a catalog under an id. -/
structure InstalledPlugin.Fits (crates : Crates) (id : String) (plugin : InstalledPlugin) : Prop where
  keyed : plugin.manifest.qualifiedId = id
  valid : plugin.manifest.Valid crates

structure Catalog.Sound (crates : Crates) (catalog : Catalog) : Prop where
  fits : ∀ id (plugin : InstalledPlugin), catalog[id]? = some plugin → plugin.Fits crates id
  previous : ∀ id (plugin previous : InstalledPlugin), catalog[id]? = some plugin →
    plugin.previous = some previous → previous.Fits crates id ∧ previous.previous = none

def Satisfies (crates : Crates) (dep : Dependency) (plugin : InstalledPlugin) : Prop :=
  satisfies crates dep plugin = .ok true

/-- One of the dependencies of a plugin is satisfied by another one, or by itself. -/
def DependsOn (crates : Crates) (plugin other : InstalledPlugin) : Prop :=
  ∃ dep ∈ plugin.manifest.dependencies, Satisfies crates dep other

section

variable {crates : Crates} {catalog : Catalog} {dep : Dependency} {plugin other : InstalledPlugin} {id : String}

theorem satisfies_iff
    : Satisfies crates dep plugin ↔ nameMatches dep plugin = true ∧ ∃ req version,
        parseVersionReq crates dep.version = .ok req
          ∧ Semver.parse plugin.manifest.metadata.version = .ok version ∧ req version = true := by
  unfold Satisfies satisfies
  cases hname : nameMatches dep plugin with
  | false => simp
  | true =>
    cases hreq : parseVersionReq crates dep.version with
    | error e => simp
    | ok req =>
      cases hversion : Semver.parse plugin.manifest.metadata.version with
      | error e => simp
      | ok version => simp

theorem satisfies_congr (h : plugin.manifest = other.manifest)
    : Satisfies crates dep plugin ↔ Satisfies crates dep other := by
  unfold Satisfies satisfies nameMatches
  rw [h]

theorem mem_of_highest {candidates : List (Semver.Version × String)} {best : Semver.Version × String}
    (h : highest candidates = some best) : best ∈ candidates := by
  have hgo (step : Option (Semver.Version × String) → Semver.Version × String → Option (Semver.Version × String))
      (hstep : ∀ best? c, step best? c = best? ∨ step best? c = some c) (candidates : List (Semver.Version × String))
      (best? : Option (Semver.Version × String)) (h : candidates.foldl step best? = some best)
      : best ∈ candidates ∨ best? = some best := by
    induction candidates generalizing best? with
    | nil => exact .inr h
    | cons c candidates ih =>
      cases ih _ h with
      | inl hmem => exact .inl (List.mem_cons_of_mem _ hmem)
      | inr hbest =>
        cases hstep best? c with
        | inl hsame => exact .inr (hsame.symm.trans hbest)
        | inr hnew =>
          cases hnew.symm.trans hbest
          exact .inl List.mem_cons_self
  have hends : best ∈ candidates ∨ none = some best := by
    refine hgo _ ?_ candidates none h
    intro best? c
    cases best? with
    | none => exact .inr rfl
    | some b => exact ite_eq_or_eq (b.1.compare c.1 = .gt) (some b) (some c)
  cases hends with
  | inl hmem => exact hmem
  | inr hnone => cases hnone

theorem resolveDep_value (h : resolveDep crates dep catalog = .ok id)
    : ∃ (key : String) (plugin : InstalledPlugin),
        catalog[key]? = some plugin ∧ plugin.manifest.qualifiedId = id ∧ Satisfies crates dep plugin := by
  unfold resolveDep at h
  dsimp only at h
  split at h
  . cases h
  . split at h
    . cases h
    next req hreq =>
      split at h
      next version id' hbest =>
        cases h
        obtain ⟨plugin, hmem, hcandidate⟩ := List.mem_filterMap.mp (mem_of_highest hbest)
        obtain ⟨hvalue, hname⟩ := List.mem_filter.mp hmem
        obtain ⟨key, hkey⟩ := (Map.mem_values).mp hvalue
        unfold candidate at hcandidate
        split at hcandidate
        . cases hcandidate
        next v hv =>
          split at hcandidate
          next hmet =>
            cases hcandidate
            exact ⟨key, plugin, hkey, rfl, (satisfies_iff).mpr ⟨hname, req, version, hreq, hv, hmet⟩⟩
          next => cases hcandidate
      next => cases h

theorem resolveDep_ok (hsound : catalog.Sound crates) (h : resolveDep crates dep catalog = .ok id)
    : ∃ plugin, catalog[id]? = some plugin ∧ Satisfies crates dep plugin := by
  obtain ⟨key, plugin, hkey, hid, hsatisfies⟩ := resolveDep_value h
  refine ⟨plugin, ?_, hsatisfies⟩
  rw [← hid, (hsound.fits key plugin hkey).keyed]
  exact hkey

theorem mem_dependents {target : String}
    : id ∈ dependents crates target catalog ↔ id ≠ target ∧ ∃ (plugin targetPlugin : InstalledPlugin),
        catalog[id]? = some plugin ∧ catalog[target]? = some targetPlugin
          ∧ DependsOn crates plugin targetPlugin := by
  unfold dependents
  split
  next hnone => simp [hnone]
  next targetPlugin htarget =>
    simp only [List.mem_map, List.mem_filter, Std.ExtTreeMap.mem_toList_iff_getElem?_eq_some, Bool.and_eq_true,
      bne_iff_ne, List.any_eq_true, Prod.exists]
    constructor
    . rintro ⟨id', plugin, ⟨hfound, hne, dep, hdep, hsatisfied⟩, rfl⟩
      refine ⟨hne, plugin, targetPlugin, hfound, htarget, dep, hdep, ?_⟩
      unfold Satisfies
      split at hsatisfied
      next satisfied hok =>
        rw [hok, hsatisfied]
      next => cases hsatisfied
    . rintro ⟨hne, plugin, targetPlugin', hfound, htarget', dep, hdep, hsatisfied⟩
      cases htarget.symm.trans htarget'
      refine ⟨id, plugin, ⟨hfound, hne, dep, hdep, ?_⟩, rfl⟩
      rw [hsatisfied]

end

structure Visited.Closed (crates : Crates) (catalog : Catalog) (visited : Visited) : Prop where
  order : ∀ id, id ∈ visited.order ↔ id ∈ visited.done
  closed : ∀ id ∈ visited.done, ∃ plugin : InstalledPlugin, catalog[id]? = some plugin ∧
    ∀ dep ∈ plugin.manifest.dependencies, ∃ id' ∈ visited.done, resolveDep crates dep catalog = .ok id'

section

variable {crates : Crates} {catalog : Catalog}

theorem visitAll_closed {visit : String → Visited → Except Error Visited}
    (hvisit : ∀ id visited visited', visited.Closed crates catalog → visit id visited = .ok visited' →
      visited'.Closed crates catalog ∧ visited.done ⊆ visited'.done ∧ id ∈ visited'.done)
    {deps : List Dependency} {visited visited' : Visited} (hclosed : visited.Closed crates catalog)
    (h : visitAll crates catalog visit deps visited = .ok visited')
    : visited'.Closed crates catalog ∧ visited.done ⊆ visited'.done
        ∧ ∀ dep ∈ deps, ∃ id ∈ visited'.done, resolveDep crates dep catalog = .ok id := by
  induction deps generalizing visited with
  | nil =>
    cases h
    exact ⟨hclosed, fun _ hid => hid, nofun⟩
  | cons dep deps ih =>
    unfold visitAll at h
    split at h
    . cases h
    next id hid =>
      split at h
      . cases h
      next first hfirst =>
        obtain ⟨hclosed', hsub, hmem⟩ := hvisit id visited first hclosed hfirst
        obtain ⟨hclosed'', hsub', hdeps⟩ := ih hclosed' h
        refine ⟨hclosed'', fun _ hx => hsub' (hsub hx), ?_⟩
        intro dep' hdep'
        cases List.mem_cons.mp hdep' with
        | inl heq =>
          subst heq
          exact ⟨id, hsub' hmem, hid⟩
        | inr hrest => exact hdeps dep' hrest

theorem visit_closed {fuel : Nat} {onPath : List String} {id : String} {visited visited' : Visited}
    (hclosed : visited.Closed crates catalog) (h : visit crates catalog fuel onPath id visited = .ok visited')
    : visited'.Closed crates catalog ∧ visited.done ⊆ visited'.done ∧ id ∈ visited'.done := by
  induction fuel generalizing onPath id visited visited' with
  | zero => cases h
  | succ fuel ih =>
    unfold visit at h
    split at h
    next hdone =>
      cases h
      exact ⟨hclosed, fun _ hid => hid, List.contains_iff_mem.mp hdone⟩
    next =>
      split at h
      . cases h
      . split at h
        . cases h
        next plugin hplugin =>
          split at h
          . cases h
          next last hlast =>
            cases h
            obtain ⟨hclosed', hsub, hdeps⟩ := visitAll_closed (fun _ _ _ => ih) hclosed hlast
            refine ⟨⟨?_, ?_⟩, fun _ hx => List.mem_cons_of_mem _ (hsub hx), List.mem_cons_self⟩
            . intro x
              simp [hclosed'.order x, or_comm]
            . intro x hx
              cases List.mem_cons.mp hx with
              | inl heq =>
                subst heq
                refine ⟨plugin, hplugin, ?_⟩
                intro dep hdep
                obtain ⟨id', hid', hresolved⟩ := hdeps dep hdep
                exact ⟨id', List.mem_cons_of_mem _ hid', hresolved⟩
              | inr hx =>
                obtain ⟨p, hp, hall⟩ := hclosed'.closed x hx
                refine ⟨p, hp, ?_⟩
                intro dep hdep
                obtain ⟨id', hid', hresolved⟩ := hall dep hdep
                exact ⟨id', List.mem_cons_of_mem _ hid', hresolved⟩

theorem length_le_size {ids : List String} (hnodup : ids.Nodup) (hmem : ∀ id ∈ ids, id ∈ catalog)
    : ids.length ≤ catalog.size := by
  rw [← Std.ExtTreeMap.length_keys]
  apply List.Subperm.length_le
  apply List.subperm_of_subset hnodup
  intro id hid
  exact Std.ExtTreeMap.mem_keys.mpr (hmem id hid)

/-- What is enabled for a plugin is the plugin itself and all that is needed. -/
theorem enableOrder_closed (hsound : catalog.Sound crates) {target : String} {order : List String}
    (h : enableOrder crates target catalog = .ok order)
    : target ∈ order ∧ ∀ id ∈ order, ∃ plugin : InstalledPlugin, catalog[id]? = some plugin ∧
        ∀ dep ∈ plugin.manifest.dependencies, ∃ id' ∈ order, ∃ other : InstalledPlugin,
          catalog[id']? = some other ∧ Satisfies crates dep other := by
  unfold enableOrder at h
  split at h
  . cases h
  next visited hvisited =>
    cases h
    have hstart : ({} : Visited).Closed crates catalog := ⟨fun _ => Iff.rfl, nofun⟩
    obtain ⟨hclosed, -, hmem⟩ := visit_closed hstart hvisited
    refine ⟨(hclosed.order target).mpr hmem, ?_⟩
    intro id hid
    obtain ⟨plugin, hplugin, hdeps⟩ := hclosed.closed id ((hclosed.order id).mp hid)
    refine ⟨plugin, hplugin, ?_⟩
    intro dep hdep
    obtain ⟨id', hid', hresolved⟩ := hdeps dep hdep
    exact ⟨id', (hclosed.order id').mpr hid', resolveDep_ok hsound hresolved⟩

end

end Wovyr.Plugin
