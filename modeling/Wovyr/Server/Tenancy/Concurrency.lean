import Wovyr.Lib.Run
import Wovyr.Server.Tenancy.Confinement

/-!
This module contains the interleavings of PATCH and DELETE requests on one project.
-/

namespace Wovyr.Server.Tenancy

open TenancyState

structure PatchRequest where
  headers : Headers
  settings : Option (Std.ExtTreeMap String Value)
  status : Option ProjectStatus

section

variable (admins : PlatformAdmins) (id : String)

def readForPatch (s : TenancyState) (req : PatchRequest) : Except ApiError Project := do
  let ctx := context admins s req.headers (some id)
  ctx.authorize "projects:admin"
  let some project := s.getProject id | throw projectNotFound
  checkIfMatch req.headers id project
  return project

def PatchRequest.apply (req : PatchRequest) (project : Project) : Project :=
  { project with
    settings := req.settings.getD project.settings
    status := req.status.getD project.status
    version := project.version + 1 }

theorem patchProject_eq (s : TenancyState) (req : PatchRequest)
    : patchProject admins s req.headers id req.settings req.status
        = (do
          let project ← readForPatch admins id s req
          let s ← s.updateProject (req.apply project)
          return (.project (etag (req.apply project).version) (req.apply project), s)) := by
  unfold patchProject readForPatch PatchRequest.apply
  dsimp only
  cases (context admins s req.headers (some id)).authorize "projects:admin" with
  | error e => rfl
  | ok =>
    cases s.getProject id with
    | none => rfl
    | some project =>
      dsimp only
      cases checkIfMatch req.headers id project with
      | error e => rfl
      | ok => rfl

inductive Phase where
  | waiting
  -- What the request has read, and the number of deletions that had succeeded by then.
  | read (project : Project) (deletions : Nat)
  | refused (e : ApiError)
  | done (project : Project)

inductive Entry where
  | read (i : Nat)
  | write (i : Nat) (project : Project)
  | delete

structure Room where
  catalog : TenancyState
  phases : Nat → Phase := fun _ => .waiting
  deletions : Nat := 0
  log : List Entry := []

inductive Turn where
  | patch (i : Nat)
  | delete (headers : Headers)

variable (requests : Nat → PatchRequest)

def Room.enter (room : Room) (i : Nat) (phase : Phase) : Room :=
  { room with phases := Function.update room.phases i phase }

def takeTurn (room : Room) : Turn → Room
  | .patch i =>
    match room.phases i with
    | .waiting =>
      match readForPatch admins id room.catalog (requests i) with
      | .error e => room.enter i (.refused e)
      | .ok project =>
        { room.enter i (.read project room.deletions) with log := room.log ++ [.read i] }
    | .read project _ =>
      let project := (requests i).apply project
      match room.catalog.updateProject project with
      | .error e => room.enter i (.refused (ApiError.ofError e))
      | .ok catalog =>
        { room.enter i (.done project) with catalog, log := room.log ++ [.write i project] }
    | _ => room
  | .delete headers =>
    match deleteProject admins room.catalog headers id with
    | .error _ => room
    | .ok (_, catalog) =>
      { room with catalog, deletions := room.deletions + 1, log := room.log ++ [.delete] }

/--
The store still has the version that the request has read, and no DELETE has succeeded since, unless
the request leaves the project deleted.
-/
def Current (room : Room) : Turn → Prop
  | .patch i =>
    match room.phases i with
    | .read project deletions =>
      (room.catalog.getProject id).map (·.version) = some project.version
        ∧ (room.deletions = deletions ∨ ((requests i).apply project).status = .deleted)
    | _ => True
  | .delete _ => True

structure Serialized (room : Room) : Prop where
  -- Of two requests with one `If-Match` at most one succeeds.
  atMostOne : ∀ i j project project' version, room.phases i = .done project →
    room.phases j = .done project' → ifMatch (requests i).headers = some version →
    ifMatch (requests j).headers = some version → i = j
  -- Who writes after another has read after the other wrote.
  seen : ∀ (a b i j : Nat) project project', room.log[a]? = some (.write i project) →
    room.log[b]? = some (.write j project') → a < b →
    ∃ c, a < c ∧ c < b ∧ room.log[c]? = some (.read j)
  -- Who read before a deletion does not bring the project back after it.
  kept : ∀ (a b c j : Nat) project, room.log[a]? = some (.read j) → room.log[b]? = some .delete →
    room.log[c]? = some (.write j project) → a < b → b < c → project.status = .deleted

def AtLeast (catalog : TenancyState) (version : Nat) : Prop :=
  ∃ project, catalog.getProject id = some project ∧ version ≤ project.version

structure Reads (room : Room) (i : Nat) (project : Project) (deletions : Nat) : Prop where
  keyed : project.id = id
  behind : AtLeast id room.catalog project.version
  expected : ∀ version, ifMatch (requests i).headers = some version → project.version = version
  since : ∃ a : Nat, room.log[a]? = some (.read i)
    ∧ (∀ (b j : Nat) written, a < b → room.log[b]? = some (.write j written) →
      project.version < written.version)
    ∧ (deletions = room.deletions → ∀ b : Nat, a < b → room.log[b]? ≠ some .delete)
  deletions : deletions ≤ room.deletions

structure Ordered (room : Room) : Prop where
  keyed : ∀ project, room.catalog.getProject id = some project → project.id = id
  idle : ∀ (a i : Nat), room.log[a]? = some (.read i) → room.phases i ≠ .waiting
  once : ∀ (a b i : Nat), room.log[a]? = some (.read i) → room.log[b]? = some (.read i) → a = b
  behind : ∀ (a i : Nat) project, room.log[a]? = some (.write i project) →
    AtLeast id room.catalog project.version
  ascending : ∀ (a b i j : Nat) project project', room.log[a]? = some (.write i project) →
    room.log[b]? = some (.write j project') → a < b → project.version < project'.version
  reads : ∀ i project deletions, room.phases i = .read project deletions →
    Reads id requests room i project deletions
  wrote : ∀ i project, room.phases i = .done project →
    (∃ a : Nat, room.log[a]? = some (.write i project))
      ∧ ∀ version, ifMatch (requests i).headers = some version → project.version = version + 1
  seen : ∀ (a b i j : Nat) project project', room.log[a]? = some (.write i project) →
    room.log[b]? = some (.write j project') → a < b →
    ∃ c, a < c ∧ c < b ∧ room.log[c]? = some (.read j)
  kept : ∀ (a b c j : Nat) project, room.log[a]? = some (.read j) → room.log[b]? = some .delete →
    room.log[c]? = some (.write j project) → a < b → b < c → project.status = .deleted

end

section

variable {admins : PlatformAdmins} {id : String} {requests : Nat → PatchRequest} {room : Room}

theorem getElem?_snoc {α : Type} {l : List α} {x y : α} {a : Nat}
    : (l ++ [y])[a]? = some x ↔ l[a]? = some x ∨ (a = l.length ∧ x = y) := by
  rw [List.getElem?_append]
  split
  . next h =>
    constructor
    . exact .inl
    . rintro (hx | ⟨rfl, -⟩)
      . exact hx
      . omega
  . next h =>
    have hnone : l[a]? = none := List.getElem?_eq_none (by omega)
    rw [hnone, List.getElem?_singleton]
    constructor
    . intro hx
      split at hx
      . cases hx
        exact .inr ⟨by omega, rfl⟩
      . cases hx
    . rintro (hx | ⟨ha, rfl⟩)
      . cases hx
      . rw [if_pos (by omega)]

theorem lt_of_getElem? {α : Type} {l : List α} {x : α} {a : Nat} (h : l[a]? = some x)
    : a < l.length :=
  (List.getElem?_eq_some_iff.mp h).1

theorem getElem?_of_snoc {log : List Entry} {entry found : Entry} {a : Nat}
    (h : (log ++ [entry])[a]? = some found) (hne : entry ≠ found) : log[a]? = some found := by
  rw [getElem?_snoc] at h
  rcases h with h | ⟨-, h⟩
  . exact h
  . exact absurd h.symm hne

theorem serialized_of_ordered (h : Ordered id requests room) : Serialized requests room where
  atMostOne i j project project' version hi hj hversion hversion' := by
    obtain ⟨⟨a, ha⟩, hproject⟩ := h.wrote i project hi
    obtain ⟨⟨b, hb⟩, hproject'⟩ := h.wrote j project' hj
    have hsame : project.version = project'.version := by
      rw [hproject version hversion, hproject' version hversion']
    rcases Nat.lt_trichotomy a b with hlt | rfl | hgt
    . have := h.ascending a b i j project project' ha hb hlt
      omega
    . rw [ha] at hb
      cases hb
      rfl
    . have := h.ascending b a j i project' project hb ha hgt
      omega
  seen := h.seen
  kept := h.kept

theorem ordered_initial (catalog : TenancyState)
    (hkeyed : ∀ project, catalog.getProject id = some project → project.id = id)
    : Ordered id requests { catalog } where
  keyed := hkeyed
  idle a i h := by cases h
  once a b i h := by cases h
  behind a i project h := by cases h
  ascending a b i j project project' h := by cases h
  reads i project deletions h := by cases h
  wrote i project h := by cases h
  seen a b i j project project' h := by cases h
  kept a b c j project h := by cases h

theorem phases_enter (i j : Nat) (phase : Phase)
    : (room.enter i phase).phases j = if j = i then phase else room.phases j := by
  unfold Room.enter
  dsimp only
  rw [Function.update_apply]

theorem ordered_refuse (h : Ordered id requests room) (i : Nat) (e : ApiError)
    : Ordered id requests (room.enter i (.refused e)) where
  keyed := h.keyed
  idle a j hread := by
    rw [phases_enter]
    split
    . nofun
    . exact h.idle a j hread
  once := h.once
  behind := h.behind
  ascending := h.ascending
  reads j project deletions hphase := by
    rw [phases_enter] at hphase
    split at hphase
    . cases hphase
    . obtain ⟨hkeyed, hbehind, hexpected, hsince, hdeletions⟩ := h.reads j project deletions hphase
      exact ⟨hkeyed, hbehind, hexpected, hsince, hdeletions⟩
  wrote j project hphase := by
    rw [phases_enter] at hphase
    split at hphase
    . cases hphase
    . exact h.wrote j project hphase
  seen := h.seen
  kept := h.kept

theorem readForPatch_eq_ok {catalog : TenancyState} {req : PatchRequest} {project : Project}
    (h : readForPatch admins id catalog req = .ok project)
    : catalog.getProject id = some project
        ∧ ∀ version, ifMatch req.headers = some version → project.version = version := by
  unfold readForPatch at h
  simp only [bind_eq_ok, liftM_eq_ok] at h
  obtain ⟨-, -, h⟩ := h
  cases hfound : catalog.getProject id with
  | none =>
    rw [hfound] at h
    cases h
  | some found =>
    rw [hfound] at h
    dsimp only at h
    rw [bind_eq_ok] at h
    obtain ⟨u, hmatch, hret⟩ := h
    cases hret
    refine ⟨rfl, ?_⟩
    intro version hversion
    unfold checkIfMatch at hmatch
    rw [hversion] at hmatch
    dsimp only at hmatch
    split at hmatch
    . cases hmatch
    . next hsame =>
      simp only [bne_iff_ne, ne_eq, Decidable.not_not] at hsame
      exact hsame.symm

theorem reads_snoc {i : Nat} {project : Project} {deletions : Nat} {room' : Room} {entry : Entry}
    (h : Reads id requests room i project deletions) (hlog : room'.log = room.log ++ [entry])
    (hcatalog : AtLeast id room'.catalog project.version)
    (hwrite : ∀ j written, entry = .write j written → project.version < written.version)
    (hdeletions : room.deletions ≤ room'.deletions)
    (hdelete : entry = .delete → room.deletions < room'.deletions)
    : Reads id requests room' i project deletions where
  keyed := h.keyed
  behind := hcatalog
  expected := h.expected
  since := by
    obtain ⟨a, ha, hwrites, hdeletes⟩ := h.since
    refine ⟨a, ?_, ?_, ?_⟩
    . rw [hlog, getElem?_snoc]
      exact .inl ha
    . intro b j written hlt hb
      rw [hlog, getElem?_snoc] at hb
      rcases hb with hb | ⟨-, hb⟩
      . exact hwrites b j written hlt hb
      . exact hwrite j written hb.symm
    . intro hsame b hlt hb
      have := h.deletions
      rw [hlog, getElem?_snoc] at hb
      rcases hb with hb | ⟨-, hb⟩
      . exact hdeletes (by omega) b hlt hb
      . have := hdelete hb.symm
        omega
  deletions := Nat.le_trans h.deletions hdeletions

theorem ordered_read (h : Ordered id requests room) {i : Nat} {project : Project}
    (hphase : room.phases i = .waiting)
    (hread : readForPatch admins id room.catalog (requests i) = .ok project)
    : Ordered id requests
        { room.enter i (.read project room.deletions) with log := room.log ++ [.read i] } where
  keyed := h.keyed
  idle a j ha := by
    show (room.enter i _).phases j ≠ .waiting
    rw [phases_enter]
    split
    . nofun
    . next hne =>
      rw [getElem?_snoc] at ha
      rcases ha with ha | ⟨-, ha⟩
      . exact h.idle a j ha
      . cases ha
        exact absurd rfl hne
  once a b j ha hb := by
    rw [getElem?_snoc] at ha hb
    rcases ha with ha | ⟨ha, hja⟩ <;> rcases hb with hb | ⟨hb, hjb⟩
    . exact h.once a b j ha hb
    . cases hjb
      exact absurd hphase (h.idle a i ha)
    . cases hja
      exact absurd hphase (h.idle b i hb)
    . omega
  behind a j written ha := h.behind a j written (getElem?_of_snoc ha nofun)
  ascending a b j k written written' ha hb hlt :=
    h.ascending a b j k written written' (getElem?_of_snoc ha nofun) (getElem?_of_snoc hb nofun) hlt
  reads j found deletions hj := by
    replace hj : (room.enter i (.read project room.deletions)).phases j = .read found deletions := hj
    rw [phases_enter] at hj
    split at hj
    . next heq =>
      cases hj
      subst heq
      obtain ⟨hfound, hexpected⟩ := readForPatch_eq_ok hread
      refine ⟨h.keyed project hfound, ⟨project, hfound, Nat.le_refl _⟩, hexpected, ?_, Nat.le_refl _⟩
      refine ⟨room.log.length, ?_, ?_, ?_⟩
      . rw [getElem?_snoc]
        exact .inr ⟨rfl, rfl⟩
      . intro b k written hlt hb
        have := lt_of_getElem? hb
        simp only [List.length_append, List.length_singleton] at this
        omega
      . intro _ b hlt hb
        have := lt_of_getElem? hb
        simp only [List.length_append, List.length_singleton] at this
        omega
    . have hreads := h.reads j found deletions hj
      exact reads_snoc hreads rfl hreads.behind nofun (Nat.le_refl _) nofun
  wrote j written hj := by
    replace hj : (room.enter i (.read project room.deletions)).phases j = .done written := hj
    rw [phases_enter] at hj
    split at hj
    . cases hj
    . obtain ⟨⟨a, ha⟩, hversion⟩ := h.wrote j written hj
      exact ⟨⟨a, (getElem?_snoc).mpr (.inl ha)⟩, hversion⟩
  seen a b j k written written' ha hb hlt := by
    have ha := getElem?_of_snoc ha nofun
    have hb := getElem?_of_snoc hb nofun
    obtain ⟨c, hac, hcb, hc⟩ := h.seen a b j k written written' ha hb hlt
    exact ⟨c, hac, hcb, (getElem?_snoc).mpr (.inl hc)⟩
  kept a b c j written ha hb hc hab hbc := by
    have hb := getElem?_of_snoc hb nofun
    have hc := getElem?_of_snoc hc nofun
    have := lt_of_getElem? hc
    rw [getElem?_snoc] at ha
    rcases ha with ha | ⟨ha, -⟩
    . exact h.kept a b c j written ha hb hc hab hbc
    . omega

theorem ordered_delete (h : Ordered id requests room) {catalog : TenancyState} {project : Project}
    (hfound : room.catalog.getProject id = some project)
    (hcatalog : catalog
      = { room.catalog with
        projects := room.catalog.projects.insert id { project with status := .deleted } })
    : Ordered id requests { room with
        catalog, deletions := room.deletions + 1, log := room.log ++ [.delete] } := by
  have hproject : catalog.getProject id = some { project with status := .deleted } := by
    rw [hcatalog]
    simp [TenancyState.getProject]
  have hleast : ∀ version, AtLeast id room.catalog version → AtLeast id catalog version := by
    rintro version ⟨found, hfound', hle⟩
    rw [hfound] at hfound'
    cases hfound'
    exact ⟨_, hproject, hle⟩
  constructor
  case keyed =>
    intro found hfound'
    rw [hproject] at hfound'
    cases hfound'
    exact h.keyed project hfound
  case idle =>
    intro a j ha
    exact h.idle a j (getElem?_of_snoc ha (by simp))
  case once =>
    intro a b j ha hb
    exact h.once a b j (getElem?_of_snoc ha (by simp)) (getElem?_of_snoc hb (by simp))
  case behind =>
    intro a j written ha
    exact hleast _ (h.behind a j written (getElem?_of_snoc ha (by simp)))
  case ascending =>
    intro a b j k written written' ha hb hlt
    exact h.ascending a b j k written written' (getElem?_of_snoc ha (by simp)) (getElem?_of_snoc hb (by simp)) hlt
  case reads =>
    intro j found deletions hj
    have hreads := h.reads j found deletions hj
    exact reads_snoc hreads rfl (hleast _ hreads.behind) (by simp) (Nat.le_succ _)
      fun _ => Nat.lt_succ_self _
  case wrote =>
    intro j written hj
    obtain ⟨⟨a, ha⟩, hversion⟩ := h.wrote j written hj
    exact ⟨⟨a, (getElem?_snoc).mpr (.inl ha)⟩, hversion⟩
  case seen =>
    intro a b j k written written' ha hb hlt
    have ha := getElem?_of_snoc ha (by simp)
    have hb := getElem?_of_snoc hb (by simp)
    obtain ⟨c, hac, hcb, hc⟩ := h.seen a b j k written written' ha hb hlt
    exact ⟨c, hac, hcb, (getElem?_snoc).mpr (.inl hc)⟩
  case kept =>
    intro a b c j written ha hb hc hab hbc
    have ha := getElem?_of_snoc ha (by simp)
    have hc := getElem?_of_snoc hc (by simp)
    have := lt_of_getElem? hc
    rw [getElem?_snoc] at hb
    rcases hb with hb | ⟨hb, -⟩
    . exact h.kept a b c j written ha hb hc hab hbc
    . omega

theorem ordered_write (h : Ordered id requests room) {i : Nat} {project : Project} {deletions : Nat}
    {catalog : TenancyState} (hphase : room.phases i = .read project deletions)
    (hversion : (room.catalog.getProject id).map (·.version) = some project.version)
    (hdeleted : room.deletions = deletions ∨ ((requests i).apply project).status = .deleted)
    (hcatalog : catalog = { room.catalog with
      projects := room.catalog.projects.insert id ((requests i).apply project) })
    : Ordered id requests
        { room.enter i (.done ((requests i).apply project)) with
          catalog, log := room.log ++ [.write i ((requests i).apply project)] } := by
  have hreads := h.reads i project deletions hphase
  obtain ⟨start, hstart, hwrites, hdeletes⟩ := hreads.since
  have hproject : catalog.getProject id = some ((requests i).apply project) := by
    rw [hcatalog]
    simp [TenancyState.getProject]
  have hnext : ((requests i).apply project).version = project.version + 1 := rfl
  -- The store has the version that was read, so that everything written is at most of it.
  have hmost : ∀ version, AtLeast id room.catalog version → version ≤ project.version := by
    rintro version ⟨found, hfound, hle⟩
    rw [hfound, Option.map_some, Option.some.injEq] at hversion
    omega
  have hbefore : ∀ (a j : Nat) written, room.log[a]? = some (.write j written) →
      written.version ≤ project.version := by
    intro a j written ha
    exact hmost _ (h.behind a j written ha)
  have hleast : ∀ version, AtLeast id room.catalog version → AtLeast id catalog version := by
    intro version hle
    have := hmost version hle
    exact ⟨_, hproject, by omega⟩
  constructor
  case keyed =>
    intro found hfound
    rw [hproject] at hfound
    cases hfound
    exact hreads.keyed
  case idle =>
    intro a j ha
    show (room.enter i _).phases j ≠ .waiting
    rw [phases_enter]
    split
    . simp
    . exact h.idle a j (getElem?_of_snoc ha (by simp))
  case once =>
    intro a b j ha hb
    exact h.once a b j (getElem?_of_snoc ha (by simp)) (getElem?_of_snoc hb (by simp))
  case behind =>
    intro a j written ha
    rw [getElem?_snoc] at ha
    rcases ha with ha | ⟨-, ha⟩
    . exact hleast _ (h.behind a j written ha)
    . cases ha
      exact ⟨_, hproject, Nat.le_refl _⟩
  case ascending =>
    intro a b j k written written' ha hb hlt
    rw [getElem?_snoc] at ha hb
    rcases hb with hb | ⟨hb, hlast⟩
    . have := lt_of_getElem? hb
      rcases ha with ha | ⟨ha, -⟩
      . exact h.ascending a b j k written written' ha hb hlt
      . omega
    . cases hlast
      rcases ha with ha | ⟨ha, -⟩
      . have := hbefore a j written ha
        omega
      . omega
  case reads =>
    intro j found deletions' hj
    replace hj : (room.enter i (.done ((requests i).apply project))).phases j
      = .read found deletions' := hj
    rw [phases_enter] at hj
    split at hj
    . cases hj
    . have hreads' := h.reads j found deletions' hj
      have hlater : ∀ (k : Nat) written, Entry.write i ((requests i).apply project) = .write k written →
          found.version < written.version := by
        intro k written hentry
        cases hentry
        have := hmost _ hreads'.behind
        omega
      exact reads_snoc hreads' rfl (hleast _ hreads'.behind) hlater (Nat.le_refl _) (by simp)
  case wrote =>
    intro j written hj
    replace hj : (room.enter i (.done ((requests i).apply project))).phases j = .done written := hj
    rw [phases_enter] at hj
    split at hj
    . next heq =>
      cases hj
      subst heq
      refine ⟨⟨room.log.length, (getElem?_snoc).mpr (.inr ⟨rfl, rfl⟩)⟩, ?_⟩
      intro version hexpected
      rw [hnext, hreads.expected version hexpected]
    . obtain ⟨⟨a, ha⟩, hexpected⟩ := h.wrote j written hj
      exact ⟨⟨a, (getElem?_snoc).mpr (.inl ha)⟩, hexpected⟩
  case seen =>
    intro a b j k written written' ha hb hlt
    rw [getElem?_snoc] at ha hb
    rcases hb with hb | ⟨hb, hlast⟩
    . have := lt_of_getElem? hb
      rcases ha with ha | ⟨ha, -⟩
      . obtain ⟨c, hac, hcb, hc⟩ := h.seen a b j k written written' ha hb hlt
        exact ⟨c, hac, hcb, (getElem?_snoc).mpr (.inl hc)⟩
      . omega
    . cases hlast
      rcases ha with ha | ⟨ha, -⟩
      . refine ⟨start, ?_, ?_, (getElem?_snoc).mpr (.inl hstart)⟩
        . rcases Nat.lt_trichotomy a start with hlt' | rfl | hgt
          . exact hlt'
          . rw [ha] at hstart
            cases hstart
          . have := hwrites a j written hgt ha
            have := hbefore a j written ha
            omega
        . have := lt_of_getElem? hstart
          omega
      . omega
  case kept =>
    intro a b c j written ha hb hc hab hbc
    have ha := getElem?_of_snoc ha (by simp)
    have hb := getElem?_of_snoc hb (by simp)
    rw [getElem?_snoc] at hc
    rcases hc with hc | ⟨-, hlast⟩
    . exact h.kept a b c j written ha hb hc hab hbc
    . cases hlast
      rcases hdeleted with hsame | hdeleted
      . rw [h.once a start _ ha hstart] at hab
        exact absurd hb (hdeletes hsame.symm b hab)
      . exact hdeleted

theorem ordered_takeTurn (h : Ordered id requests room) {turn : Turn}
    (hcurrent : Current id requests room turn)
    : Ordered id requests (takeTurn admins id requests room turn) := by
  cases turn with
  | patch i =>
    unfold takeTurn
    unfold Current at hcurrent
    dsimp only at hcurrent ⊢
    cases hphase : room.phases i with
    | waiting =>
      dsimp only
      cases hread : readForPatch admins id room.catalog (requests i) with
      | error e => exact ordered_refuse h i e
      | ok project => exact ordered_read h hphase hread
    | read project deletions =>
      rw [hphase] at hcurrent
      dsimp only
      have hid : ((requests i).apply project).id = id := (h.reads i project deletions hphase).keyed
      cases hupdate : room.catalog.updateProject ((requests i).apply project) with
      | error e => exact ordered_refuse h i _
      | ok catalog =>
        apply ordered_write h hphase hcurrent.1 hcurrent.2
        unfold updateProject at hupdate
        rw [hid] at hupdate
        split at hupdate
        . cases hupdate
        . exact (Except.ok.inj hupdate).symm
    | refused e => exact h
    | done project => exact h
  | delete headers =>
    unfold takeTurn
    dsimp only
    cases hdelete : deleteProject admins room.catalog headers id with
    | error e => exact h
    | ok result =>
      obtain ⟨response, catalog⟩ := result
      unfold deleteProject at hdelete
      simp only [bind_eq_ok, liftM_eq_ok] at hdelete
      obtain ⟨-, -, s, hstore, hret⟩ := hdelete
      cases hret
      unfold TenancyState.deleteProject at hstore
      split at hstore
      . cases hstore
      . next project hfound => exact ordered_delete h hfound (Except.ok.inj hstore).symm

end

/--
In every interleaving of PATCH and DELETE requests on a project, by any number of clients: at most
one of the requests with one `If-Match` succeeds, nothing is overwritten unseen and nothing deleted
comes back, if every PATCH finds the version it has read, and no deletion since, when it writes.
-/
theorem serialized_of_run (admins : PlatformAdmins) (id : String) (requests : Nat → PatchRequest)
    (c : Catalog) (turns : List Turn) (room : Room)
    (hrun : Run (Guarded (Current id requests) (takeTurn admins id requests)) { catalog := c.state }
      turns room)
    : Serialized requests room := by
  refine serialized_of_ordered (?_ : Ordered id requests room)
  apply Run.invariant (P := Ordered id requests) _ hrun
  . exact ordered_initial c.state fun project h => (c.wellFormed.project_id id project h).1
  . rintro room turn _ h ⟨hcurrent, rfl⟩
    exact ordered_takeTurn h hcurrent

instance (id : String) (requests : Nat → PatchRequest) (room : Room) (turn : Turn)
    : Decidable (Current id requests room turn) :=
  match turn with
  | .delete _ => .isTrue trivial
  | .patch i =>
    match h : room.phases i with
    | .read project deletions =>
      decidable_of_iff
        ((room.catalog.getProject id).map (·.version) = some project.version
          ∧ (room.deletions = deletions ∨ ((requests i).apply project).status = .deleted))
        (by simp only [Current, h])
    | .waiting => .isTrue (by simp only [Current, h])
    | .refused _ => .isTrue (by simp only [Current, h])
    | .done _ => .isTrue (by simp only [Current, h])

def Phase.isDone : Phase → Bool
  | .done _ => true
  | _ => false

theorem exists_of_isDone {phase : Phase} (h : phase.isDone = true) : ∃ project, phase = .done project := by
  cases phase with
  | done project => exact ⟨project, rfl⟩
  | waiting | read | refused => cases h

def suspensions (_ : Nat) : PatchRequest where
  headers := malloryHeaders.insert "if-match" "1"
  settings := none
  status := some .suspended

def suspended (turns : List Turn) : Room :=
  turns.foldl (takeTurn none "prj-ops-bot" suspensions) { catalog := oneProject.state }

theorem serialized_in_turn
    : ((suspended [.patch 0, .patch 0, .patch 1, .delete malloryHeaders]).phases 0).isDone = true
        ∧ Serialized suspensions (suspended [.patch 0, .patch 0, .patch 1, .delete malloryHeaders]) := by
  refine ⟨by decide, ?_⟩
  refine serialized_of_run none "prj-ops-bot" suspensions oneProject
    [.patch 0, .patch 0, .patch 1, .delete malloryHeaders] _ ?_
  refine .cons ⟨?_, rfl⟩ (.cons ⟨?_, rfl⟩ (.cons ⟨?_, rfl⟩ (.cons ⟨?_, rfl⟩ (.nil _))))
  . decide
  . decide
  . decide
  . decide

theorem not_serialized_overlapping
    : ¬Serialized suspensions (suspended [.patch 0, .patch 1, .patch 0, .patch 1]) := by
  intro h
  have hfirst : ((suspended [.patch 0, .patch 1, .patch 0, .patch 1]).phases 0).isDone = true := by
    decide
  have hsecond : ((suspended [.patch 0, .patch 1, .patch 0, .patch 1]).phases 1).isDone = true := by
    decide
  obtain ⟨project, hproject⟩ := exists_of_isDone hfirst
  obtain ⟨project', hproject'⟩ := exists_of_isDone hsecond
  have hsame := h.atMostOne 0 1 project project' 1 hproject hproject' (by decide)
    (by decide)
  cases hsame

end Wovyr.Server.Tenancy
