import Wovyr.Marketplace.Reviewed

/-!
This module contains which publisher an entry belongs to, of the catalog of installed plugins and of
the marketplace.
-/

namespace Wovyr.Marketplace

open Plugin (Catalog Crates Host InstalledPlugin Package PluginManifest Settings Signed bytesOf verifyPackage)
open Tools (ToolRegistry)

-- How far down in the namespaces a publisher is.
def slashes (publisher : String) : Nat :=
  publisher.toList.count '/'

-- The publisher of an entry when it was made, for as long as the entry is there.
def founders {α : Type} (publisher : α → String) (before after : Std.ExtTreeMap String α)
    (founder : String → Option String) (id : String) : Option String :=
  match after[id]? with
  | none => none
  | some entry => if before.contains id then founder id else some (publisher entry)

/-- The manifest is that of a package whose verification for its publisher succeeded. -/
def Vouched (crates : Crates) (settings : Settings) (manifest : PluginManifest) : Prop :=
  ∃ package : Package, PluginManifest.fromYaml crates package.manifestYaml = .ok manifest
    ∧ verifyPackage crates settings package manifest = .ok ()

section

variable (crates : Crates) (settings : Settings) (r : Registry)

def followCatalog (s : Host × (String → Option String)) (call : Plugin.Call) : Host × (String → Option String) :=
  let host := s.1.step crates settings call
  (host, founders (fun p => p.manifest.metadata.publisher) s.1.plugins host.plugins s.2)

def followListings (s : RegistryState × (String → Option String)) (call : Registry.Call)
    : RegistryState × (String → Option String) :=
  let state := r.step crates s.1 call
  (state, founders ListingRecord.publisher s.1.listings state.listings s.2)

-- A package that meets an installed plugin comes from a publisher with as many slashes as that of the plugin.
def SameDepth (s : Host × (String → Option String)) : Plugin.Call → Prop
  | .upgrade package _ _ =>
    ∀ manifest (current : InstalledPlugin), PluginManifest.fromYaml crates package.manifestYaml = .ok manifest →
      verifyPackage crates settings package manifest = .ok () →
      s.1.plugins[manifest.qualifiedId]? = some current →
        slashes manifest.metadata.publisher = slashes current.manifest.metadata.publisher
  | _ => True

-- A package that meets a listing comes from a publisher with as many slashes as that of the listing.
def SameDepthListed (s : RegistryState × (String → Option String)) : Registry.Call → Prop
  | .publish wovyrpkg _ _ =>
    ∀ package manifest (rec : ListingRecord), r.fromWovyrpkg wovyrpkg = .ok package →
      r.verify crates package = .ok manifest → s.1.listings[manifest.qualifiedId]? = some rec →
        slashes manifest.metadata.publisher = slashes rec.publisher
  | _ => True

end

theorem identity_iff {m m' : PluginManifest} (h : m.qualifiedId = m'.qualifiedId)
    : (m.metadata.publisher = m'.metadata.publisher ∧ m.metadata.name = m'.metadata.name)
        ↔ slashes m.metadata.publisher = slashes m'.metadata.publisher :=
  Text.joined_eq_iff_count rfl h

section

variable {α : Type} {publisher : α → String} {before after : Std.ExtTreeMap String α}
  {founder : String → Option String} {id : String} {entry : α}

theorem founders_old {old : α} (hbefore : before[id]? = some old) (hafter : after[id]? = some entry)
    : founders publisher before after founder id = founder id := by
  unfold founders
  rw [hafter]
  dsimp only
  rw [if_pos]
  rw [Std.ExtTreeMap.contains_eq_isSome_getElem?, hbefore]
  rfl

theorem founders_new (hbefore : before[id]? = none) (hafter : after[id]? = some entry)
    : founders publisher before after founder id = some (publisher entry) := by
  unfold founders
  rw [hafter]
  dsimp only
  rw [if_neg]
  rw [Std.ExtTreeMap.contains_eq_isSome_getElem?, hbefore]
  simp

end

/-- What is installed belongs to the publisher of the package that made the entry. -/
structure Belongs (crates : Crates) (settings : Settings) (founder : String → Option String) (id : String)
    (plugin : InstalledPlugin) : Prop where
  founder : founder id = some plugin.manifest.metadata.publisher
  vouched : Vouched crates settings plugin.manifest
  previous : ∀ previous, plugin.previous = some previous →
    previous.manifest.metadata.publisher = plugin.manifest.metadata.publisher ∧
      Vouched crates settings previous.manifest

/-- What is listed belongs to the publisher whose package made the listing, and so do all of its versions. -/
structure Listed (crates : Crates) (r : Registry) (founder : String → Option String) (id : String)
    (rec : ListingRecord) : Prop where
  founder : founder id = some rec.publisher
  keyed : id = rec.publisher ++ "/" ++ rec.name
  versions : ∀ v ∈ rec.versions, ∃ package manifest, r.fromWovyrpkg (bytesOf v.package) = .ok package
    ∧ r.verify crates package = .ok manifest ∧ manifest.metadata.publisher = rec.publisher
    ∧ manifest.metadata.name = rec.name ∧ manifest.metadata.version = v.version

section

variable {crates : Crates} {settings : Settings} {r : Registry}

theorem vouched_of_admitPackage {catalog : Catalog} {package : Package} {manifest : PluginManifest} {grants : List String}
    (hyaml : PluginManifest.fromYaml crates package.manifestYaml = .ok manifest)
    (hadmitted : Plugin.admitPackage crates settings catalog package manifest grants = .ok ())
    : Vouched crates settings manifest :=
  ⟨package, hyaml, ((Plugin.admitPackage_iff).mp hadmitted).1⟩

theorem Belongs.kept {before after : Catalog} {founder : String → Option String} {id : String}
    {plugin plugin' : InstalledPlugin} (h : Belongs crates settings founder id plugin)
    (hbefore : before[id]? = some plugin) (hafter : after[id]? = some plugin')
    (hmanifest : plugin'.manifest = plugin.manifest) (hprevious : plugin'.previous = plugin.previous)
    : Belongs crates settings (founders (fun p => p.manifest.metadata.publisher) before after founder) id plugin' := by
  refine ⟨?_, ?_, ?_⟩
  . rw [founders_old hbefore hafter, hmanifest]
    exact h.founder
  . rw [hmanifest]
    exact h.vouched
  . rw [hprevious, hmanifest]
    exact h.previous

theorem belongs_step {host : Host} {founder : String → Option String} (hsound : host.plugins.Sound crates)
    (h : ∀ (id : String) (plugin : InstalledPlugin), host.plugins[id]? = some plugin →
      Belongs crates settings founder id plugin)
    {call : Plugin.Call} (hdepth : SameDepth crates settings (host, founder) call)
    : ∀ (id : String) (plugin : InstalledPlugin), (host.step crates settings call).plugins[id]? = some plugin →
        Belongs crates settings (founders (fun p => p.manifest.metadata.publisher) host.plugins
          (host.step crates settings call).plugins founder) id plugin := by
  have hturn : Plugin.Turn crates settings host call (host.step crates settings call) := Plugin.turn host call
  generalize host.step crates settings call = host' at hturn
  intro id plugin hplugin
  have hsame (hold : host.plugins[id]? = some plugin)
      : Belongs crates settings (founders (fun p => p.manifest.metadata.publisher) host.plugins host'.plugins
          founder) id plugin :=
    (h id plugin hold).kept hold hplugin rfl rfl
  cases hturn with
  | same hplugins _ => exact hsame (hplugins ▸ hplugin)
  | install hyaml hnew hadmitted hplugins _ =>
    have hentry := hplugin
    rw [hplugins, Map.getElem?_insert] at hentry
    split at hentry
    next heq =>
      cases hentry
      exact ⟨founders_new (heq ▸ hnew) hplugin, vouched_of_admitPackage hyaml hadmitted, nofun⟩
    next => exact hsame hentry
  | @upgrade _ _ _ manifest current _ _ hyaml hcurrent _ _ _ hadmitted hplugins _ =>
    have hentry := hplugin
    rw [hplugins, Plugin.swap_plugins, Map.getElem?_insert] at hentry
    split at hentry
    next heq =>
      cases hentry
      subst heq
      have hold := h _ current hcurrent
      have hid := (hsound.fits _ current hcurrent).keyed
      have hslashes := hdepth manifest current hyaml ((Plugin.admitPackage_iff).mp hadmitted).1 hcurrent
      obtain ⟨hpublisher, -⟩ := (identity_iff hid.symm).mpr hslashes
      refine ⟨?_, vouched_of_admitPackage hyaml hadmitted, ?_⟩
      . rw [founders_old hcurrent hplugin, hold.founder, hpublisher]
      . rintro previous ⟨⟩
        exact ⟨hpublisher.symm, hold.vouched⟩
    next => exact hsame hentry
  | @rollback k current previous _ hcurrent hprevious hplugins _ =>
    have hentry := hplugin
    rw [hplugins, Plugin.swap_plugins, Map.getElem?_insert] at hentry
    split at hentry
    next heq =>
      cases hentry
      subst heq
      have hold := h _ current hcurrent
      obtain ⟨hpublisher, hvouched⟩ := hold.previous previous hprevious
      refine ⟨?_, hvouched, ?_⟩
      . rw [founders_old hcurrent hplugin, hold.founder]
        exact congrArg some hpublisher.symm
      . intro earlier hearlier
        have hnone := (hsound.previous k current previous hcurrent hprevious).2
        change previous.previous = some earlier at hearlier
        rw [hnone] at hearlier
        cases hearlier
    next => exact hsame hentry
  | enable _ hhost =>
    have hentry := hplugin
    rw [hhost, Plugin.getElem?_enableAll, Option.map_eq_some_iff] at hentry
    obtain ⟨q, hq, heq⟩ := hentry
    refine (h id q hq).kept hq hplugin ?_ ?_
    . rw [← heq]
      split <;> rfl
    . rw [← heq]
      split <;> rfl
  | disable hcurrent _ _ hplugins _ =>
    have hentry := hplugin
    rw [hplugins, Map.getElem?_insert] at hentry
    split at hentry
    next heq =>
      cases hentry
      subst heq
      exact (h _ _ hcurrent).kept hcurrent hplugin rfl rfl
    next => exact hsame hentry
  | uninstall _ _ hplugins _ =>
    have hentry := hplugin
    rw [hplugins, Map.getElem?_erase] at hentry
    split at hentry
    . cases hentry
    . exact hsame hentry

theorem Listed.kept {before after : Std.ExtTreeMap String ListingRecord} {founder : String → Option String}
    {id : String} {rec rec' : ListingRecord} (h : Listed crates r founder id rec)
    (hbefore : before[id]? = some rec) (hafter : after[id]? = some rec') (hpublisher : rec'.publisher = rec.publisher)
    (hname : rec'.name = rec.name) (hversions : rec'.versions = rec.versions)
    : Listed crates r (founders ListingRecord.publisher before after founder) id rec' := by
  refine ⟨?_, ?_, ?_⟩
  . rw [founders_old hbefore hafter, hpublisher]
    exact h.founder
  . rw [hpublisher, hname]
    exact h.keyed
  . rw [hpublisher, hname, hversions]
    exact h.versions

theorem listed_step {state : RegistryState} {founder : String → Option String}
    (h : ∀ (id : String) (rec : ListingRecord), state.listings[id]? = some rec → Listed crates r founder id rec)
    {c : Registry.Call} (hdepth : SameDepthListed crates r (state, founder) c)
    : ∀ (id : String) (rec : ListingRecord), (r.step crates state c).listings[id]? = some rec →
        Listed crates r (founders ListingRecord.publisher state.listings (r.step crates state c).listings founder)
          id rec := by
  have hchange : r.Change crates state c (r.step crates state c) := r.change state c
  generalize r.step crates state c = state' at hchange
  intro id rec hrec
  have hsame (hold : state.listings[id]? = some rec)
      : Listed crates r (founders ListingRecord.publisher state.listings state'.listings founder) id rec :=
    (h id rec hold).kept hold hrec rfl rfl rfl
  cases hchange with
  | failed _ => exact hsame hrec
  | @publish wovyrpkg categories channel manifest version hadmitted =>
    obtain ⟨package, text, hpackage, hverify, htext, hversion⟩ := Registry.admitPackage_ok hadmitted
    have hentry := hrec
    rw [getElem?_upsertVersion] at hentry
    split at hentry
    next heq =>
      subst heq
      have hnew {rec₀ : ListingRecord} (hpublisher : manifest.metadata.publisher = rec₀.publisher)
          (hname : manifest.metadata.name = rec₀.name)
          (hold : ∀ v ∈ rec₀.versions, ∃ package manifest, r.fromWovyrpkg (bytesOf v.package) = .ok package
            ∧ r.verify crates package = .ok manifest ∧ manifest.metadata.publisher = rec₀.publisher
            ∧ manifest.metadata.name = rec₀.name ∧ manifest.metadata.version = v.version)
          : ∀ v ∈ (rec₀.addVersion version categories (channel.getD defaultChannel)).versions,
              ∃ package manifest, r.fromWovyrpkg (bytesOf v.package) = .ok package
                ∧ r.verify crates package = .ok manifest ∧ manifest.metadata.publisher = rec₀.publisher
                ∧ manifest.metadata.name = rec₀.name ∧ manifest.metadata.version = v.version := by
        intro v hv
        cases (ListingRecord.mem_addVersion).mp hv with
        | inl hother => exact hold v hother.1
        | inr heq =>
          subst heq
          refine ⟨package, manifest, ?_, hverify, hpublisher, hname, ?_⟩
          . rw [hversion, show (r.versionOf crates package manifest wovyrpkg text).package = text from rfl, htext]
            exact hpackage
          . rw [hversion]
            rfl
      cases hold : state.listings[manifest.metadata.publisher ++ "/" ++ manifest.metadata.name]? with
      | none =>
        rw [hold, Option.getD_none, Option.some_inj] at hentry
        subst hentry
        exact ⟨founders_new hold hrec, rfl, hnew rfl rfl nofun⟩
      | some rec₀ =>
        rw [hold, Option.getD_some, Option.some_inj] at hentry
        subst hentry
        have hlisted := h _ rec₀ hold
        have hslashes := hdepth package manifest rec₀ hpackage hverify hold
        obtain ⟨hpublisher, hname⟩ := (Text.joined_eq_iff_count rfl hlisted.keyed).mpr hslashes
        refine ⟨?_, hlisted.keyed, hnew hpublisher hname hlisted.versions⟩
        rw [founders_old hold hrec]
        exact hlisted.founder
    next => exact hsame hentry
  | @listing _ k rec₀ rec₁ _ _ _ hold hjudged hlistings =>
    have hentry := hrec
    rw [hlistings, Map.getElem?_insert] at hentry
    split at hentry
    next heq =>
      cases hentry
      subst heq
      exact (h k rec₀ hold).kept hold hrec hjudged.publisher hjudged.name hjudged.versions
    next => exact hsame hentry

/--
Two manifests with one id have one publisher and one name exactly if their publishers have as many slashes. As
long as a package that meets an installed plugin or a listing comes from a publisher with as many slashes as it
has, the plugin or the listing belongs to the publisher whose package made it.
-/
theorem publishers_apart {registry : ToolRegistry} {disk : Plugin.Disk} {host : Host × (String → Option String)}
    {state : RegistryState × (String → Option String)} {calls : List Plugin.Call} {calls' : List Registry.Call}
    (h : Run (Guarded (SameDepth crates settings) (followCatalog crates settings))
      ({ registry, disk }, fun _ => none) calls host)
    (h' : Run (Guarded (SameDepthListed crates r) (followListings crates r)) ({}, fun _ => none) calls' state)
    : (∀ m m' : PluginManifest, m.qualifiedId = m'.qualifiedId →
          ((m.metadata.publisher = m'.metadata.publisher ∧ m.metadata.name = m'.metadata.name)
            ↔ slashes m.metadata.publisher = slashes m'.metadata.publisher))
        ∧ (∀ (id : String) (plugin : InstalledPlugin), host.1.plugins[id]? = some plugin →
          Belongs crates settings host.2 id plugin)
        ∧ ∀ (id : String) (rec : ListingRecord), state.1.listings[id]? = some rec →
          Listed crates r state.2 id rec := by
  refine ⟨fun m m' => identity_iff, ?_, ?_⟩
  . have hkept := Run.invariant (P := fun s : Host × (String → Option String) => s.1.plugins.Sound crates
        ∧ ∀ (id : String) (plugin : InstalledPlugin), s.1.plugins[id]? = some plugin →
          Belongs crates settings s.2 id plugin) ?_ h ?_
    . exact hkept.2
    . rintro ⟨host, founder⟩ call _ ⟨hsound, hbelongs⟩ ⟨hdepth, rfl⟩
      exact ⟨hsound.turn (Plugin.turn host call), belongs_step hsound hbelongs hdepth⟩
    . refine ⟨Plugin.sound_empty, ?_⟩
      intro id plugin hplugin
      simp at hplugin
  . refine Run.invariant (P := fun s : RegistryState × (String → Option String) =>
      ∀ (id : String) (rec : ListingRecord), s.1.listings[id]? = some rec → Listed crates r s.2 id rec) ?_ h' ?_
    . rintro ⟨state, founder⟩ c _ hlisted ⟨hdepth, rfl⟩
      exact listed_step hlisted hdepth
    . intro id rec hrec
      simp at hrec

end

namespace Slash

def innerKey : List UInt8 :=
  [0xea, 0xe1, 0xc8, 0x79, 0x3b, 0x55, 0x97, 0xc4, 0xb3, 0xf4, 0x90, 0xe7, 0x6a, 0xc3, 0x11, 0x72,
   0xc4, 0x39, 0x69, 0x0f, 0x8e, 0xe1, 0x41, 0x42, 0xbb, 0x85, 0x1a, 0x61, 0xf9, 0xa4, 0x9f, 0x0e]

def outerKey : List UInt8 :=
  [0x2e, 0x05, 0x42, 0x43, 0x5c, 0xac, 0x77, 0x29, 0xb4, 0xa3, 0xb6, 0xf9, 0xac, 0x96, 0xf7, 0xbe,
   0xa0, 0xbe, 0x7f, 0x53, 0xff, 0x14, 0x9e, 0x89, 0x42, 0xc0, 0xdd, 0xc6, 0x21, 0xf5, 0x68, 0x7e]

def inner : Signed where
  key := innerKey
  text := "apiVersion: plugin.wovyr.io/v1\nkind: Plugin\nmetadata:\n  name: b/c\n  version: 1.0.0\n"
    ++ "  publisher: a\n"
  manifest :=
    { apiVersion := "plugin.wovyr.io/v1"
      kind := "Plugin"
      metadata := { name := "b/c", version := "1.0.0", publisher := "a" } }
  signature := Plugin.hexBytes
    ("d877398d77eee6c6ce5a89aa14e9bd0a4d416960e26b33d66b600f2d0fc27b27"
      ++ "22b6d1b19dd4c76bfa0d2add4997405f557ac3f468866a3ec6804b0e944dd20d")

def outer : Signed where
  key := outerKey
  text := "apiVersion: plugin.wovyr.io/v1\nkind: Plugin\nmetadata:\n  name: c\n  version: 2.0.0\n"
    ++ "  publisher: a/b\n"
  manifest :=
    { apiVersion := "plugin.wovyr.io/v1"
      kind := "Plugin"
      metadata := { name := "c", version := "2.0.0", publisher := "a/b" } }
  signature := Plugin.hexBytes
    ("ab53884cfe35e297d2d8ac55af9512fa85e96977b7c03b3a218f27dd6e31d82c"
      ++ "549f998fcbd22bd78167aa26ce3698cf2c617e99635c42dbce3b20f61f21ca08")

def releases : List Signed :=
  [inner, outer]

abbrev crates : Crates :=
  .knowing releases []

def settings : Settings where
  trust := ((∅ : Plugin.TrustStore).insert "a" innerKey).insert "a/b" outerKey
  platformApi := { major := 1, minor := 0, patch := 0, pre := [], build := [] }

theorem trusted : Signed.Trusted releases [] settings := by
  refine ⟨by decide, ?_, ?_, ?_, ?_, rfl⟩
  . decide
  . decide
  . decide
  . decide

def calls : List Plugin.Call :=
  [.install inner.package [] fun _ => .written, .upgrade outer.package [] fun _ => .written]

end Slash

open Slash

namespace Acme

def lifecycle : List Plugin.Call :=
  [.install Plugin.Acme.base.package [] fun _ => .written, .install Plugin.Acme.app.package [] fun _ => .written,
    .upgrade Plugin.Acme.next.package [] fun _ => .written]

theorem run_lifecycle
    : Run (Guarded (SameDepth Plugin.Acme.crates Plugin.Acme.settings)
          (followCatalog Plugin.Acme.crates Plugin.Acme.settings)) ({}, fun _ => none) lifecycle
        (lifecycle.foldl (followCatalog Plugin.Acme.crates Plugin.Acme.settings) ({}, fun _ => none)) := by
  have hbase : Plugin.Acme.base ∈ Plugin.Acme.releases := List.mem_cons_self
  have happ : Plugin.Acme.app ∈ Plugin.Acme.releases := List.mem_cons_of_mem _ List.mem_cons_self
  have hnext : Plugin.Acme.next ∈ Plugin.Acme.releases :=
    List.mem_cons_of_mem _ (List.mem_cons_of_mem _ List.mem_cons_self)
  unfold lifecycle
  rw [List.foldl_cons, List.foldl_cons, List.foldl_cons, List.foldl_nil]
  refine .cons ⟨trivial, rfl⟩ (.cons ⟨trivial, rfl⟩ (.cons ⟨?_, rfl⟩ (.nil _)))
  intro manifest current hyaml _ hcurrent
  rw [Plugin.Acme.manifest_eq hnext hyaml] at hcurrent ⊢
  unfold followCatalog at hcurrent
  dsimp only at hcurrent
  rw [(Plugin.Acme.trusted).install hbase rfl rfl rfl, (Plugin.Acme.trusted).install happ rfl rfl rfl] at hcurrent
  cases hcurrent
  rfl

def releases : List Registry.Call :=
  [.publish (bytesOf first.text) [] none, .publish (bytesOf second.text) [] none]

theorem run_releases
    : Run (Guarded (SameDepthListed crates registry) (followListings crates registry)) ({}, fun _ => none) releases
        (releases.foldl (followListings crates registry) ({}, fun _ => none)) := by
  have hfirst := admitPackage (p := first) (by simp [packages])
  have hnext : Plugin.Acme.next ∈ Plugin.Acme.releases :=
    List.mem_cons_of_mem _ (List.mem_cons_of_mem _ List.mem_cons_self)
  have hsecond : second ∈ packages := List.mem_cons_of_mem _ List.mem_cons_self
  unfold releases
  rw [List.foldl_cons, List.foldl_cons, List.foldl_nil]
  refine .cons ⟨?_, rfl⟩ (.cons ⟨?_, rfl⟩ (.nil _))
  . intro package manifest rec _ _ hrec
    simp at hrec
  . intro package manifest rec hpackage hverify hrec
    unfold registry at hpackage hverify
    rw [fromWovyrpkg_packed texts_nodup hsecond rfl] at hpackage
    cases hpackage
    have hyaml := (Plugin.Acme.trusted).fromYaml hnext
    rw [verify_packed (p := second) hyaml hnext ((Plugin.Acme.trusted).key _ hnext)] at hverify
    cases hverify
    unfold followListings at hrec
    dsimp only at hrec
    rw [Registry.step_publish hfirst] at hrec
    cases hrec
    rfl

end Acme

theorem publishers_apart_acme
    : (∀ (id : String) (plugin : InstalledPlugin),
          (Acme.lifecycle.foldl (followCatalog Plugin.Acme.crates Plugin.Acme.settings)
            ({}, fun _ => none)).1.plugins[id]? = some plugin →
          Belongs Plugin.Acme.crates Plugin.Acme.settings
            (Acme.lifecycle.foldl (followCatalog Plugin.Acme.crates Plugin.Acme.settings)
              ({}, fun _ => none)).2 id plugin)
        ∧ ∀ (id : String) (rec : ListingRecord),
          (Acme.releases.foldl (followListings Acme.crates Acme.registry) ({}, fun _ => none)).1.listings[id]?
            = some rec →
          Listed Acme.crates Acme.registry
            (Acme.releases.foldl (followListings Acme.crates Acme.registry) ({}, fun _ => none)).2 id rec :=
  (publishers_apart Acme.run_lifecycle Acme.run_releases).2

-- A publisher upgrades the plugin of another publisher.
theorem namespace_taken_over
    : ¬(∀ m m' : PluginManifest, m.validate crates = .ok () → m'.validate crates = .ok () →
          m.qualifiedId = m'.qualifiedId →
            m.metadata.publisher = m'.metadata.publisher ∧ m.metadata.name = m'.metadata.name)
        ∧ ∃ plugin : InstalledPlugin,
          (calls.foldl (followCatalog crates settings) ({}, fun _ => none)).1.plugins["a/b/c"]?
              = some plugin
          ∧ (calls.foldl (followCatalog crates settings) ({}, fun _ => none)).2 "a/b/c"
              = some "a"
          ∧ plugin.manifest.metadata.publisher = "a/b" := by
  refine ⟨?_, ?_⟩
  . intro h
    have hvalid := (trusted).valid
    have hsame := h inner.manifest outer.manifest (hvalid _ List.mem_cons_self)
      (hvalid _ (List.mem_cons_of_mem _ List.mem_cons_self)) rfl
    exact absurd hsame.1 (by decide)
  . have hinner : Slash.inner ∈ releases := List.mem_cons_self
    have houter : outer ∈ releases := List.mem_cons_of_mem _ List.mem_cons_self
    unfold calls
    rw [List.foldl_cons, List.foldl_cons, List.foldl_nil]
    unfold followCatalog
    dsimp only
    rw [(trusted).install hinner rfl rfl rfl, (trusted).upgrade houter rfl (by decide) rfl rfl rfl rfl]
    exact ⟨_, rfl, rfl, rfl⟩

end Wovyr.Marketplace
