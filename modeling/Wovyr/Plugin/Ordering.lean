import Wovyr.Lib.Acyclic
import Wovyr.Plugin.Engine
import Wovyr.Plugin.Resolution

/-!
This module contains the order in which a plugin is enabled with all that it depends on, and proves
when there is one.
-/

namespace Wovyr.Plugin

open Relation (ReflTransGen TransGen)

section

variable (crates : Crates) (catalog : Catalog)

def ResolvesTo (id id' : String) : Prop :=
  ∃ plugin : InstalledPlugin, catalog[id]? = some plugin
    ∧ ∃ dep ∈ plugin.manifest.dependencies, resolveDep crates dep catalog = .ok id'

/-- A plugin is the target, or the target depends on it directly or through other plugins. -/
def Required (target id : String) : Prop :=
  ReflTransGen (ResolvesTo crates catalog) target id

/-- Every dependency that is reached from the target resolves, and what is reached has no cycle. -/
structure Orderable (target : String) : Prop where
  installed : target ∈ catalog
  resolves : ∀ id (plugin : InstalledPlugin), Required crates catalog target id → catalog[id]? = some plugin →
    ∀ dep ∈ plugin.manifest.dependencies, ∃ id' ∈ catalog, resolveDep crates dep catalog = .ok id'
  acyclic : ∀ id, Required crates catalog target id → ¬TransGen (ResolvesTo crates catalog) id id

structure DependenciesFirst (target : String) (order : List String) : Prop where
  installed : ∀ id ∈ order, id ∈ catalog
  mem : ∀ id, id ∈ order ↔ Required crates catalog target id
  nodup : order.Nodup
  sorted : Topological (ResolvesTo crates catalog) order
  last : order.getLast? = some target

mutual

/-- A visit that comes to an end, however deep it goes. -/
inductive Visits : List String → String → Visited → Except Error Visited → Prop where
  | done {onPath id visited} (h : id ∈ visited.done) : Visits onPath id visited (.ok visited)
  | cycle {onPath id visited} (hnew : id ∉ visited.done) (h : id ∈ onPath)
    : Visits onPath id visited (.error (cycleError id))
  | missing {onPath id visited} (hnew : id ∉ visited.done) (hoff : id ∉ onPath) (h : catalog[id]? = none)
    : Visits onPath id visited (.error (.notFound s!"plugin `{id}` is not installed"))
  | failed {onPath id visited plugin e} (hnew : id ∉ visited.done) (hoff : id ∉ onPath)
    (hplugin : catalog[id]? = some plugin)
    (h : VisitsAll (id :: onPath) plugin.manifest.dependencies visited (.error e))
    : Visits onPath id visited (.error e)
  | visited {onPath id visited plugin visited'} (hnew : id ∉ visited.done) (hoff : id ∉ onPath)
    (hplugin : catalog[id]? = some plugin)
    (h : VisitsAll (id :: onPath) plugin.manifest.dependencies visited (.ok visited'))
    : Visits onPath id visited (.ok { order := visited'.order ++ [id], done := id :: visited'.done })

inductive VisitsAll : List String → List Dependency → Visited → Except Error Visited → Prop where
  | nil {onPath visited} : VisitsAll onPath [] visited (.ok visited)
  | unresolved {onPath dep deps visited e} (h : resolveDep crates dep catalog = .error e)
    : VisitsAll onPath (dep :: deps) visited (.error e)
  | failed {onPath dep deps visited id e} (hid : resolveDep crates dep catalog = .ok id)
    (h : Visits onPath id visited (.error e)) : VisitsAll onPath (dep :: deps) visited (.error e)
  | cons {onPath dep deps visited visited' id result} (hid : resolveDep crates dep catalog = .ok id)
    (h : Visits onPath id visited (.ok visited')) (hrest : VisitsAll onPath deps visited' result)
    : VisitsAll onPath (dep :: deps) visited result

end

/-- What has been visited so far is in order. -/
structure Visited.Sorted (visited : Visited) : Prop extends visited.Closed crates catalog where
  nodup : visited.order.Nodup
  sorted : Topological (ResolvesTo crates catalog) visited.order

end

section

variable {crates : Crates} {catalog : Catalog} {onPath : List String} {target id id' : String} {deps : List Dependency}
  {visited visited' : Visited}

theorem resolveDep_mem (hkeyed : ∀ (id : String) (plugin : InstalledPlugin), catalog[id]? = some plugin →
    plugin.manifest.qualifiedId = id) {dep : Dependency} (h : resolveDep crates dep catalog = .ok id) : id ∈ catalog := by
  obtain ⟨key, plugin, hkey, hid, -⟩ := resolveDep_value h
  rw [← hid, hkeyed key plugin hkey]
  exact Std.ExtTreeMap.mem_iff_isSome_getElem?.mpr (by simp [hkey])

theorem visitAll_visits {visit : String → Visited → Except Error Visited}
    (hvisit : ∀ id visited, Visits crates catalog onPath id visited (visit id visited)) (deps : List Dependency)
    (visited : Visited)
    : VisitsAll crates catalog onPath deps visited (visitAll crates catalog visit deps visited) := by
  induction deps generalizing visited with
  | nil => exact .nil
  | cons dep deps ih =>
    unfold visitAll
    split
    next e he => exact .unresolved he
    next id hid =>
      have hfirst := hvisit id visited
      split
      next e he =>
        rw [he] at hfirst
        exact .failed hid hfirst
      next visited' hvisited =>
        rw [hvisited] at hfirst
        exact .cons hid hfirst (ih visited')

theorem path_cons {plugin : InstalledPlugin} (hplugin : catalog[id]? = some plugin) (hmem : ∀ x ∈ onPath, x ∈ catalog)
    : ∀ x ∈ id :: onPath, x ∈ catalog := by
  intro x hx
  cases List.mem_cons.mp hx with
  | inl heq =>
    rw [heq, Std.ExtTreeMap.mem_iff_isSome_getElem?, hplugin]
    rfl
  | inr hx => exact hmem x hx

theorem visit_visits {fuel : Nat} (hnodup : onPath.Nodup) (hmem : ∀ x ∈ onPath, x ∈ catalog)
    (hfuel : catalog.size < onPath.length + fuel) (id : String) (visited : Visited)
    : Visits crates catalog onPath id visited (visit crates catalog fuel onPath id visited) := by
  induction fuel generalizing onPath id visited with
  | zero =>
    have hlength := length_le_size hnodup hmem
    omega
  | succ fuel ih =>
    unfold visit
    split
    next hdone => exact .done (List.contains_iff_mem.mp hdone)
    next hnew =>
      rw [List.contains_iff_mem] at hnew
      split
      next hpath => exact .cycle hnew (List.contains_iff_mem.mp hpath)
      next hoff =>
        rw [List.contains_iff_mem] at hoff
        split
        next hnone => exact .missing hnew hoff hnone
        next plugin hplugin =>
          have hpath := visitAll_visits (ih (List.nodup_cons.mpr ⟨hoff, hnodup⟩) (path_cons hplugin hmem)
            (by simp only [List.length_cons]; omega)) plugin.manifest.dependencies visited
          split
          next e he =>
            rw [he] at hpath
            exact .failed hnew hoff hplugin hpath
          next visited' hvisited =>
            rw [hvisited] at hpath
            exact .visited hnew hoff hplugin hpath

theorem visitAll_sorted {visit : String → Visited → Except Error Visited}
    (hvisit : ∀ id visited visited', visited.Sorted crates catalog → visit id visited = .ok visited' →
      visited'.Sorted crates catalog ∧ (∀ x ∈ onPath, x ∈ visited'.done → x ∈ visited.done)
        ∧ ∀ x ∈ visited'.done, x ∈ visited.done ∨ Required crates catalog id x)
    (hdeps : ∀ dep ∈ deps, ∀ id', resolveDep crates dep catalog = .ok id' → ResolvesTo crates catalog id id')
    (hsorted : visited.Sorted crates catalog) (h : visitAll crates catalog visit deps visited = .ok visited')
    : visited'.Sorted crates catalog ∧ (∀ x ∈ onPath, x ∈ visited'.done → x ∈ visited.done)
        ∧ ∀ x ∈ visited'.done, x ∈ visited.done ∨ Required crates catalog id x := by
  induction deps generalizing visited with
  | nil =>
    cases h
    exact ⟨hsorted, fun _ _ hx => hx, fun _ hx => .inl hx⟩
  | cons dep deps ih =>
    unfold visitAll at h
    split at h
    . cases h
    next id' hid' =>
      split at h
      . cases h
      next first hfirst =>
        obtain ⟨hsorted', hpath, hreach⟩ := hvisit id' visited first hsorted hfirst
        obtain ⟨hsorted'', hpath', hreach'⟩ := ih (fun dep hdep => hdeps dep (List.mem_cons_of_mem _ hdep)) hsorted' h
        refine ⟨hsorted'', fun x hx hdone => hpath x hx (hpath' x hx hdone), ?_⟩
        intro x hx
        cases hreach' x hx with
        | inr hrequired => exact .inr hrequired
        | inl hx =>
          cases hreach x hx with
          | inl hx => exact .inl hx
          | inr hrequired => exact .inr (.head (hdeps dep List.mem_cons_self id' hid') hrequired)

theorem visit_sorted {fuel : Nat} (hsorted : visited.Sorted crates catalog)
    (h : visit crates catalog fuel onPath id visited = .ok visited')
    : visited'.Sorted crates catalog ∧ (∀ x ∈ onPath, x ∈ visited'.done → x ∈ visited.done)
        ∧ ∀ x ∈ visited'.done, x ∈ visited.done ∨ Required crates catalog id x := by
  induction fuel generalizing onPath id visited visited' with
  | zero => cases h
  | succ fuel ih =>
    have hclosed := (visit_closed hsorted.toClosed h).1
    unfold visit at h
    split at h
    . cases h
      exact ⟨hsorted, fun _ _ hx => hx, fun _ hx => .inl hx⟩
    next hnew =>
      rw [List.contains_iff_mem] at hnew
      split at h
      . cases h
      next hoff =>
        rw [List.contains_iff_mem] at hoff
        split at h
        . cases h
        next plugin hplugin =>
          split at h
          . cases h
          next last hlast =>
            cases h
            have hdeps : ∀ dep ∈ plugin.manifest.dependencies, ∀ id', resolveDep crates dep catalog = .ok id' →
                ResolvesTo crates catalog id id' := fun dep hdep id' hid' => ⟨plugin, hplugin, dep, hdep, hid'⟩
            have hwithin := (visitAll_closed (fun _ _ _ => visit_closed) hsorted.toClosed hlast).2.2
            have hvisit (id' : String) (visited visited' : Visited) (hsorted : visited.Sorted crates catalog)
                (h : visit crates catalog fuel (id :: onPath) id' visited = .ok visited') := ih hsorted h
            obtain ⟨hsorted', hpath, hreach⟩ := visitAll_sorted hvisit hdeps hsorted hlast
            have hfresh : id ∉ last.order := by
              rw [hsorted'.order id]
              intro hdone
              exact hnew (hpath id List.mem_cons_self hdone)
            have hlater : ∀ b, ResolvesTo crates catalog id b → b ∈ last.order := by
              rintro b ⟨plugin', hplugin', dep, hdep, hb⟩
              cases hplugin.symm.trans hplugin'
              obtain ⟨b', hb', hresolved⟩ := hwithin dep hdep
              cases hb.symm.trans hresolved
              exact (hsorted'.order b).mpr hb'
            refine ⟨{ toClosed := hclosed, nodup := ?_, sorted := hsorted'.sorted.snoc hlater }, ?_, ?_⟩
            . rw [List.nodup_append]
              simp only [List.nodup_singleton, List.mem_singleton]
              refine ⟨hsorted'.nodup, trivial, ?_⟩
              intro a ha b hb heq
              subst hb heq
              exact hfresh ha
            . intro x hx hdone
              cases List.mem_cons.mp hdone with
              | inl heq => exact absurd (heq ▸ hx) hoff
              | inr hdone => exact hpath x (List.mem_cons_of_mem _ hx) hdone
            . intro x hx
              cases List.mem_cons.mp hx with
              | inl heq => exact .inr (heq ▸ .refl)
              | inr hx => exact hreach x hx

theorem Orderable.step (h : Orderable crates catalog id) (hstep : ResolvesTo crates catalog id id')
    : Orderable crates catalog id' := by
  obtain ⟨plugin, hplugin, dep, hdep, hid'⟩ := hstep
  have hnext : ResolvesTo crates catalog id id' := ⟨plugin, hplugin, dep, hdep, hid'⟩
  obtain ⟨other, hother, hresolved⟩ := h.resolves id plugin .refl hplugin dep hdep
  cases hid'.symm.trans hresolved
  exact {
    installed := hother
    resolves := fun x plugin hx => h.resolves x plugin (.head hnext hx)
    acyclic := fun x hx => h.acyclic x (.head hnext hx)
  }

theorem visitAll_total {visit : String → Visited → Except Error Visited}
    (hvisit : ∀ dep ∈ deps, ∃ id, resolveDep crates dep catalog = .ok id ∧
      ∀ visited, ∃ visited', visit id visited = .ok visited') (visited : Visited)
    : ∃ visited', visitAll crates catalog visit deps visited = .ok visited' := by
  induction deps generalizing visited with
  | nil => exact ⟨visited, rfl⟩
  | cons dep deps ih =>
    obtain ⟨id, hid, hfirst⟩ := hvisit dep List.mem_cons_self
    obtain ⟨first, hfirst⟩ := hfirst visited
    obtain ⟨last, hlast⟩ := ih (fun dep hdep => hvisit dep (List.mem_cons_of_mem _ hdep)) first
    refine ⟨last, ?_⟩
    simp only [visitAll, hid, hfirst, hlast]

theorem visit_total {fuel : Nat} (h : Orderable crates catalog id) (hnodup : onPath.Nodup)
    (hmem : ∀ x ∈ onPath, x ∈ catalog) (hpath : ∀ x ∈ onPath, TransGen (ResolvesTo crates catalog) x id)
    (hfuel : catalog.size < onPath.length + fuel) (visited : Visited)
    : ∃ visited', visit crates catalog fuel onPath id visited = .ok visited' := by
  induction fuel generalizing onPath id visited with
  | zero =>
    have hlength := length_le_size hnodup hmem
    omega
  | succ fuel ih =>
    unfold visit
    split
    . exact ⟨visited, rfl⟩
    . have hoff : id ∉ onPath := fun hon => h.acyclic id .refl (hpath id hon)
      rw [if_neg (by rw [List.contains_iff_mem]; exact hoff)]
      obtain ⟨plugin, hplugin⟩ := Option.isSome_iff_exists.mp (Std.ExtTreeMap.mem_iff_isSome_getElem?.mp h.installed)
      have hvisit : ∀ dep ∈ plugin.manifest.dependencies, ∃ id', resolveDep crates dep catalog = .ok id' ∧
          ∀ visited, ∃ visited', visit crates catalog fuel (id :: onPath) id' visited = .ok visited' := by
        intro dep hdep
        obtain ⟨id', -, hid'⟩ := h.resolves id plugin .refl hplugin dep hdep
        have hstep : ResolvesTo crates catalog id id' := ⟨plugin, hplugin, dep, hdep, hid'⟩
        refine ⟨id', hid', ih (h.step hstep) (List.nodup_cons.mpr ⟨hoff, hnodup⟩) (path_cons hplugin hmem) ?_ ?_⟩
        . intro x hx
          cases List.mem_cons.mp hx with
          | inl heq => exact heq ▸ .single hstep
          | inr hx => exact (hpath x hx).tail hstep
        . rw [List.length_cons]
          omega
      obtain ⟨last, hlast⟩ := visitAll_total hvisit visited
      simp only [hplugin, hlast]
      exact ⟨_, rfl⟩

theorem visit_last {fuel : Nat} (hnew : id ∉ visited.done)
    (h : visit crates catalog fuel onPath id visited = .ok visited') : visited'.order.getLast? = some id := by
  cases fuel with
  | zero => cases h
  | succ fuel =>
    unfold visit at h
    split at h
    next hdone => exact absurd (List.contains_iff_mem.mp hdone) hnew
    next =>
      split at h
      . cases h
      . split at h
        . cases h
        . split at h
          . cases h
          . cases h
            simp

theorem enableOrder_visits (crates : Crates) (catalog : Catalog) (target : String)
    : ∃ result, Visits crates catalog [] target {} result
        ∧ enableOrder crates target catalog = result.map Visited.order := by
  refine ⟨_, visit_visits List.nodup_nil nofun (Nat.lt_add_left _ (Nat.lt_succ_self _)) target {}, ?_⟩
  unfold enableOrder
  split
  next e he =>
    rw [he]
    rfl
  next visited hvisited =>
    rw [hvisited]
    rfl

theorem enableOrder_dependenciesFirst {order : List String} (h : enableOrder crates target catalog = .ok order)
    : DependenciesFirst crates catalog target order := by
  unfold enableOrder at h
  split at h
  . cases h
  next visited hvisited =>
    cases h
    have hstart : ({} : Visited).Sorted crates catalog :=
      { order := fun _ => Iff.rfl, closed := nofun, nodup := List.nodup_nil, sorted := .nil }
    obtain ⟨hclosed, -, hmem⟩ := visit_closed hstart.toClosed hvisited
    obtain ⟨hsorted, -, hreach⟩ := visit_sorted hstart hvisited
    have htarget : target ∈ visited.order := (hclosed.order target).mpr hmem
    refine { installed := ?_, mem := ?_, nodup := hsorted.nodup, sorted := hsorted.sorted, last := ?_ }
    . intro id hid
      obtain ⟨plugin, hplugin, -⟩ := hclosed.closed id ((hclosed.order id).mp hid)
      rw [Std.ExtTreeMap.mem_iff_isSome_getElem?, hplugin]
      rfl
    . intro id
      constructor
      . intro hid
        cases hreach id ((hclosed.order id).mp hid) with
        | inl hnil => cases hnil
        | inr hrequired => exact hrequired
      . exact hsorted.sorted.reachable htarget
    . exact visit_last List.not_mem_nil hvisited

theorem enableOrder_ok_iff
    : (∃ order, enableOrder crates target catalog = .ok order) ↔ Orderable crates catalog target := by
  constructor
  . rintro ⟨order, h⟩
    have hfirst := enableOrder_dependenciesFirst h
    have hclosed : ∀ id ∈ order, ∃ plugin : InstalledPlugin, catalog[id]? = some plugin ∧
        ∀ dep ∈ plugin.manifest.dependencies, ∃ id' ∈ order, resolveDep crates dep catalog = .ok id' := by
      unfold enableOrder at h
      split at h
      . cases h
      next visited hvisited =>
        cases h
        have hstart : ({} : Visited).Closed crates catalog := ⟨fun _ => Iff.rfl, nofun⟩
        have hclosed := (visit_closed hstart hvisited).1
        simp only [hclosed.order]
        exact hclosed.closed
    refine { installed := hfirst.installed target ((hfirst.mem target).mpr .refl), resolves := ?_, acyclic := ?_ }
    . intro id plugin hrequired hplugin dep hdep
      obtain ⟨plugin', hplugin', hdeps⟩ := hclosed id ((hfirst.mem id).mpr hrequired)
      cases hplugin.symm.trans hplugin'
      obtain ⟨id', hid', hresolved⟩ := hdeps dep hdep
      exact ⟨id', hfirst.installed id' hid', hresolved⟩
    . intro id hrequired
      exact hfirst.sorted.irrefl ((hfirst.mem id).mpr hrequired)
  . intro h
    obtain ⟨visited, hvisited⟩ := visit_total h List.nodup_nil nofun nofun (Nat.lt_add_left _ (Nat.lt_succ_self _)) {}
    refine ⟨visited.order, ?_⟩
    unfold enableOrder
    rw [hvisited]

theorem Host.enable_ok_iff {settings : Settings} {host : Host}
    : (host.enable crates settings target).1 = .ok () ↔ Orderable crates host.plugins target := by
  rw [← enableOrder_ok_iff]
  unfold Host.enable
  split
  next hnone =>
    constructor
    . nofun
    . intro h
      have hinstalled := ((enableOrder_ok_iff).mp h).installed
      rw [Std.ExtTreeMap.mem_iff_isSome_getElem?, hnone] at hinstalled
      cases hinstalled
  next =>
    split
    next e he => simp [he]
    next order horder => simp [horder]

theorem Host.enable_error {settings : Settings} {host : Host} {fault : Fault}
    (h : (host.enable crates settings target).1 = .error fault) : (host.enable crates settings target).2 = host := by
  unfold Host.enable at h ⊢
  split
  . rfl
  next plugin hplugin =>
    rw [hplugin] at h
    split
    . rfl
    next order horder =>
      simp only [horder] at h
      cases h

end

/-- What it is to order a plugin with all that it depends on, and to enable it by that order. -/
structure OrdersEnabling (crates : Crates) (catalog : Catalog) (target : String) : Prop where
  terminates : ∃ result, Visits crates catalog [] target {} result
    ∧ enableOrder crates target catalog = result.map Visited.order
  ok : (∃ order, enableOrder crates target catalog = .ok order) ↔ Orderable crates catalog target
  order : ∀ order, enableOrder crates target catalog = .ok order → DependenciesFirst crates catalog target order
  enabled : ∀ settings (host : Host), host.plugins = catalog →
    ((host.enable crates settings target).1 = .ok () ↔ Orderable crates catalog target)
      ∧ ∀ fault, (host.enable crates settings target).1 = .error fault →
        (host.enable crates settings target).2 = host
  -- In a catalog by qualified id, a dependency resolves to a plugin that is installed.
  resolved : (∀ (id : String) (plugin : InstalledPlugin), catalog[id]? = some plugin →
    plugin.manifest.qualifiedId = id) →
      ∀ dep id, resolveDep crates dep catalog = .ok id → id ∈ catalog

theorem enableOrder_topological (crates : Crates) (catalog : Catalog) (target : String)
    : OrdersEnabling crates catalog target := by
  refine { terminates := enableOrder_visits crates catalog target, ok := enableOrder_ok_iff, order := ?_,
           enabled := ?_, resolved := fun hkeyed _ _ h => resolveDep_mem hkeyed h }
  . intro order h
    exact enableOrder_dependenciesFirst h
  . intro settings host hcatalog
    subst hcatalog
    exact ⟨Host.enable_ok_iff, fun _ h => Host.enable_error h⟩

end Wovyr.Plugin
