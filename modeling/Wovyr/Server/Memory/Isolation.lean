import Wovyr.Server.Memory

/-!
This module contains what a tenant gets to see of the memory, compared between two stores that hold the
same records of this tenant.
-/

namespace Wovyr.Server.Memory

open Wovyr.Memory EncryptingMemoryStore InMemoryStore

variable {σ F : Type}

-- The store of the server is always behind the encryption.
def encrypted (admins : Tenancy.PlatformAdmins) (memory : MemoryEngine F) (envelope : Envelope)
    (inner : MemoryStore σ F) : Host σ F :=
  { admins, memory, memoryStore := EncryptingMemoryStore.store envelope inner }

inductive Request (F : Type) where
  | listNamespaces
  | listRecords (q : RecordsQuery)
  | query (req : QueryRequest F)

def Request.ns : Request F → Option String
  | .listNamespaces => none
  | .listRecords q => q.ns
  | .query req => req.ns

inductive Reply (F : Type) where
  | namespaces (body : Namespaces)
  | records (page : Hardening.Page (RecordJson F))
  | results (data : List (ResultJson F))

def handle (host : Host σ F) (headers : Headers) : Request F → Handler σ (Reply F)
  | .listNamespaces => do
    let body ← listNamespaces host headers
    return .namespaces body
  | .listRecords q => do
    let page ← listRecords host headers q
    return .records page
  | .query req => do
    let data ← query host headers req
    return .results data

inductive Alike : Outcome ApiError (Reply F) → Outcome ApiError (Reply F) → Prop where
  | same (o : Outcome ApiError (Reply F)) : Alike o o
  | failed (e e' : ApiError) : Alike (.err e) (.err e')

inductive Reply.Own (tenant : String) : Reply F → Prop where
  | namespaces {records : List (MemoryRecord F)} :
    (∀ r ∈ records, visibleTo r.requiredScopes tenant = true) →
    Own tenant (.namespaces (countNamespaces records))
  | records {records : List (MemoryRecord F)} {page : Hardening.Page (RecordJson F)} :
    (∀ r ∈ records, visibleTo r.requiredScopes tenant = true) → page.data = records.map recordJson →
    Own tenant (.records page)
  | results {scored : List (ScoredMemory F)} :
    (∀ s ∈ scored, visibleTo s.record.requiredScopes tenant = true) →
    Own tenant (.results (scored.map resultJson))

section

variable (envelope : Envelope) (inner : MemoryStore σ F) (f : F32 F) (tenant : String)

-- What the stores list, whatever the namespace, has the same records of the tenant.
def SameOwned (s t : σ) : Prop :=
  ∀ ns, (inner.all s ns).map (visible tenant) = (inner.all t ns).map (visible tenant)

def Opens (r : MemoryRecord F) : Prop :=
  ∃ c, unsealIfSensitive envelope r = .ok c

def DroppedBy (r : MemoryRecord F) : Request F → Prop
  | .listNamespaces | .listRecords _ => True
  | .query req => passesFilters f r (memoryQuery f tenant req) = false

-- Of what the request lists, one of the tenant's own records does not open, or every record of others opens
-- and, for a query, does not pass the filters.
def Undisturbed (s : σ) (request : Request F) : Prop :=
  ∀ records, inner.all s request.ns = .ok records →
    (∃ r ∈ visible tenant records, ¬Opens envelope r)
      ∨ ∀ r ∈ records, visibleTo r.requiredScopes tenant = false → Opens envelope r ∧ DroppedBy f tenant r request

end

section

variable {envelope : Envelope} {inner : MemoryStore σ F} {f : F32 F} {tenant : String} {r c : MemoryRecord F}

theorem requiredScopes_unseal (h : unsealIfSensitive envelope r = .ok c)
    : c.requiredScopes = r.requiredScopes := by
  rw [(read_unsealIfSensitive h MemoryRecord.read_self).eq]

theorem passesFilters_unseal {q : MemoryQuery F}
    (h : unsealIfSensitive envelope r = .ok c)
    : passesFilters f c q = passesFilters f r q := by
  rw [(read_unsealIfSensitive h MemoryRecord.read_self).eq]
  rfl

theorem droppedBy_unseal {request : Request F}
    (h : unsealIfSensitive envelope r = .ok c) (hr : DroppedBy f tenant r request)
    : DroppedBy f tenant c request := by
  cases request with
  | listNamespaces | listRecords q => trivial
  | query req => exact (passesFilters_unseal h).trans hr

theorem not_opens_iff
    : ¬Opens envelope r ↔ ∃ e, unsealIfSensitive envelope r = .error e := by
  unfold Opens
  cases unsealIfSensitive envelope r with
  | ok c => simp
  | error e => simp

end

def reply (engine : MemoryEngine F) (tenant : String) (records : List (MemoryRecord F))
    : Request F → Outcome ApiError (Reply F)
  | .listNamespaces => .ok (.namespaces (countNamespaces (visible tenant records)))
  | .listRecords q =>
    match Hardening.paginate ((newestFirst (visible tenant records)).map recordJson)
      { limit := q.limit, cursor := q.cursor } with
    | some page => .ok (.records page)
    | none => .halted
  | .query req =>
    let q := memoryQuery engine.f32 tenant req
    match engine.fuse q records with
    | .ok fused =>
      let own := (engine.ranked q fused).filter fun s => visibleTo s.record.requiredScopes tenant
      .ok (.results (own.map resultJson))
    | .error e => .err (.ofError e)

section

variable {admins : Tenancy.PlatformAdmins} {engine : MemoryEngine F} {envelope : Envelope}
  {inner : MemoryStore σ F} {headers : Headers} {tenant : String} {s : AppState σ} {request : Request F}

theorem encrypted_query (q : MemoryQuery F) (hparents : q.expandParents = false) (s : σ)
    : engine.query (EncryptingMemoryStore.store envelope inner) s q
        =
      match EncryptingMemoryStore.all envelope inner s q.ns with
      | .ok records => (engine.fuse q records).map (engine.ranked q)
      | .error e => .error e := by
  have hscan : engine.query (EncryptingMemoryStore.store envelope inner) s q
      = (EncryptingMemoryStore.all envelope inner s q.ns >>= engine.fuse q) >>= fun fused =>
          let results := engine.ranked q fused
          if q.expandParents then
            MemoryEngine.attachParents (EncryptingMemoryStore.store envelope inner) s q results
          else
            pure results := rfl
  rw [hscan]
  cases EncryptingMemoryStore.all envelope inner s q.ns with
  | error e => rfl
  | ok records =>
    show engine.fuse q records >>= _ = _
    simp only [hparents, Bool.false_eq_true, if_false]
    rfl

theorem handle_eq (hauth : Tenancy.tenantAuthorize admins s.tenancy headers "memory:read" = .ok tenant)
    (request : Request F)
    : (handle (encrypted admins engine envelope inner) headers request s).1
        =
      match EncryptingMemoryStore.all envelope inner s.memory request.ns with
      | .ok records => reply engine tenant records request
      | .error e => .err (.ofError e) := by
  have htenant : (tenantAuthorize (encrypted admins engine envelope inner) headers "memory:read") s
      = (.ok tenant, s) := by
    show Prog.ofExcept (Tenancy.tenantAuthorize admins s.tenancy headers "memory:read") s = _
    rw [hauth]
    rfl
  have hall (ns : Option String) : all (encrypted admins engine envelope inner) ns s
      = match EncryptingMemoryStore.all envelope inner s.memory ns with
        | .ok records => (.ok records, s)
        | .error e => (.err (.ofError e), s) := by
    show Prog.ofExcept ((EncryptingMemoryStore.all envelope inner s.memory ns).mapError ApiError.ofError) s = _
    cases EncryptingMemoryStore.all envelope inner s.memory ns with
    | ok records => rfl
    | error e => rfl
  cases request with
  | listNamespaces =>
    unfold handle listNamespaces
    simp only [Prog.bind_assoc, Prog.bind_of_ok htenant]
    rw [Prog.bind_apply, hall]
    dsimp only [Request.ns]
    cases EncryptingMemoryStore.all envelope inner s.memory none with
    | ok records => rfl
    | error e => rfl
  | listRecords q =>
    unfold handle listRecords
    simp only [Prog.bind_assoc, Prog.bind_of_ok htenant]
    rw [Prog.bind_apply, hall]
    dsimp only [Request.ns]
    cases EncryptingMemoryStore.all envelope inner s.memory q.ns with
    | ok records =>
      dsimp only [reply]
      cases Hardening.paginate ((newestFirst (visible tenant records)).map recordJson)
          { limit := q.limit, cursor := q.cursor } with
      | some page => rfl
      | none => rfl
    | error e => rfl
  | query req =>
    unfold handle query
    simp only [Prog.bind_assoc, Prog.bind_of_ok htenant]
    have hanswer : (Prog.gets fun s => (encrypted admins engine envelope inner).memory.query
          (encrypted admins engine envelope inner).memoryStore s.memory
          (memoryQuery (encrypted admins engine envelope inner).memory.f32 tenant req) : Handler σ _) s
        = (.ok (match EncryptingMemoryStore.all envelope inner s.memory req.ns with
            | .ok records => (engine.fuse (memoryQuery engine.f32 tenant req) records).map
                (engine.ranked (memoryQuery engine.f32 tenant req))
            | .error e => .error e), s) := by
      show (Outcome.ok (engine.query (EncryptingMemoryStore.store envelope inner) s.memory
        (memoryQuery engine.f32 tenant req)), s) = _
      rw [encrypted_query _ rfl]
      rfl
    rw [Prog.bind_of_ok hanswer]
    dsimp only [Request.ns]
    cases EncryptingMemoryStore.all envelope inner s.memory req.ns with
    | error e => rfl
    | ok records =>
      dsimp only [reply]
      generalize engine.fuse (memoryQuery engine.f32 tenant req) records = fused
      cases fused with
      | ok fused => rfl
      | error e => rfl

theorem own_of_reply {records : List (MemoryRecord F)} {answer : Reply F}
    (h : reply engine tenant records request = .ok answer) : answer.Own tenant := by
  have hvisible : ∀ r ∈ visible tenant records, visibleTo r.requiredScopes tenant = true :=
    fun r hr => (List.mem_filter.mp hr).2
  cases request with
  | listNamespaces =>
    cases h
    exact .namespaces hvisible
  | listRecords q =>
    dsimp only [reply] at h
    cases hpage : Hardening.paginate ((newestFirst (visible tenant records)).map recordJson)
        { limit := q.limit, cursor := q.cursor } with
    | none => simp [hpage] at h
    | some page =>
      rw [hpage] at h
      cases h
      obtain ⟨window, hwindow, hsub⟩ := Hardening.exists_window hpage
      apply Reply.Own.records _ hwindow
      intro r hr
      apply hvisible
      exact (List.mem_insertionSort _).mp (hsub.subset hr)
  | query req =>
    dsimp only [reply] at h
    split at h
    . next fused hfused =>
      cases h
      apply Reply.Own.results
      exact fun scored hscored => (List.mem_filter.mp hscored).2
    . cases h

theorem fuse_visible {q : MemoryQuery F} {records : List (MemoryRecord F)}
    (halone : ∀ r ∈ records, visibleTo r.requiredScopes tenant = false → passesFilters engine.f32 r q = false)
    : engine.fuse q (visible tenant records) = engine.fuse q records := by
  have hcandidates : (visible tenant records).filter (passesFilters engine.f32 · q)
      = records.filter (passesFilters engine.f32 · q) := by
    unfold visible
    rw [List.filter_filter]
    apply List.filter_congr
    intro r hr
    cases hown : visibleTo r.requiredScopes tenant with
    | true => simp
    | false => simp [halone r hr hown]
  unfold MemoryEngine.fuse
  rw [hcandidates]

theorem reply_visible {records : List (MemoryRecord F)}
    (hdropped : ∀ r ∈ records, visibleTo r.requiredScopes tenant = false → DroppedBy engine.f32 tenant r request)
    : reply engine tenant (visible tenant records) request = reply engine tenant records request := by
  have htwice : visible tenant (visible tenant records) = visible tenant records := by
    unfold visible
    rw [List.filter_filter]
    simp
  cases request with
  | listNamespaces =>
    dsimp only [reply]
    rw [htwice]
  | listRecords q =>
    dsimp only [reply]
    rw [htwice]
  | query req =>
    dsimp only [reply]
    rw [fuse_visible hdropped]

def ownReply (engine : MemoryEngine F) (envelope : Envelope) (tenant : String) (own : List (MemoryRecord F))
    (request : Request F) : Outcome ApiError (Reply F) :=
  match own.mapM (unsealIfSensitive envelope) with
  | .ok records => reply engine tenant records request
  | .error e => .err (.ofError e)

theorem handle_eq_ownReply
    (hauth : Tenancy.tenantAuthorize admins s.tenancy headers "memory:read" = .ok tenant)
    {records : List (MemoryRecord F)} (hrecords : inner.all s.memory request.ns = .ok records)
    (hothers : ∀ r ∈ records, visibleTo r.requiredScopes tenant = false →
      Opens envelope r ∧ DroppedBy engine.f32 tenant r request)
    : (handle (encrypted admins engine envelope inner) headers request s).1
        = ownReply engine envelope tenant (visible tenant records) request := by
  have hlisted : EncryptingMemoryStore.all envelope inner s.memory request.ns
      = records.mapM (unsealIfSensitive envelope) := by
    show (inner.all s.memory request.ns >>= _) = _
    rw [hrecords]
    rfl
  have howned : (records.mapM (unsealIfSensitive envelope)).map (visible tenant)
      = (visible tenant records).mapM (unsealIfSensitive envelope) := by
    apply Fallible.filter_mapM
    . intro r c hc
      rw [requiredScopes_unseal hc]
    . exact fun r hr hother => (hothers r hr hother).1
  rw [handle_eq hauth, hlisted]
  unfold ownReply
  rw [← howned]
  cases hopened : records.mapM (unsealIfSensitive envelope) with
  | error e => rfl
  | ok opened =>
    symm
    apply reply_visible
    intro c hc hother
    obtain ⟨r, hr, hrc⟩ := Fallible.exists_of_mapM hopened c hc
    rw [requiredScopes_unseal hrc] at hother
    exact droppedBy_unseal hrc (hothers r hr hother).2

theorem handle_err (hauth : Tenancy.tenantAuthorize admins s.tenancy headers "memory:read" = .ok tenant)
    {records : List (MemoryRecord F)} (hrecords : inner.all s.memory request.ns = .ok records)
    {r : MemoryRecord F} (hr : r ∈ records) (hsealed : ¬Opens envelope r)
    : ∃ e, (handle (encrypted admins engine envelope inner) headers request s).1 = .err e := by
  have hlisted : EncryptingMemoryStore.all envelope inner s.memory request.ns
      = records.mapM (unsealIfSensitive envelope) := by
    show (inner.all s.memory request.ns >>= _) = _
    rw [hrecords]
    rfl
  obtain ⟨e, he⟩ := (Fallible.mapM_error_iff).mpr ⟨r, hr, (not_opens_iff).mp hsealed⟩
  rw [handle_eq hauth, hlisted, he]
  exact ⟨_, rfl⟩

theorem ownReply_of_opens {own : List (MemoryRecord F)} (hlisting : ∀ req, request ≠ .query req)
    (hopen : ∀ r ∈ own, Opens envelope r) (e : ApiError)
    : ownReply engine envelope tenant own request ≠ .err e := by
  unfold ownReply
  cases hopened : own.mapM (unsealIfSensitive envelope) with
  | error e' =>
    obtain ⟨r, hr, hclosed⟩ := (Fallible.mapM_error_iff).mp ⟨e', hopened⟩
    exact absurd (hopen r hr) ((not_opens_iff).mpr hclosed)
  | ok records =>
    cases request with
    | listNamespaces => simp [reply]
    | listRecords q =>
      dsimp only [reply]
      split <;> simp
    | query req => exact absurd rfl (hlisting req)

variable {t : AppState σ}

theorem SameOwned.exists_of_ok {u v : σ} (hsame : SameOwned inner tenant u v) {ns : Option String}
    {records : List (MemoryRecord F)} (hrecords : inner.all u ns = .ok records)
    : ∃ records', inner.all v ns = .ok records' ∧ visible tenant records = visible tenant records' := by
  have hown := hsame ns
  rw [hrecords] at hown
  cases h : inner.all v ns with
  | ok records' => exact ⟨records', rfl, by simpa [h, Except.map] using hown⟩
  | error e' => simp [h, Except.map] at hown

theorem alike_of_undisturbed
    (hauth : Tenancy.tenantAuthorize admins s.tenancy headers "memory:read" = .ok tenant)
    (hauth' : Tenancy.tenantAuthorize admins t.tenancy headers "memory:read" = .ok tenant)
    (hsame : SameOwned inner tenant s.memory t.memory)
    (hs : Undisturbed envelope inner engine.f32 tenant s.memory request)
    (ht : Undisturbed envelope inner engine.f32 tenant t.memory request)
    : Alike (handle (encrypted admins engine envelope inner) headers request s).1
        (handle (encrypted admins engine envelope inner) headers request t).1 := by
  have hown := hsame request.ns
  cases hrecords : inner.all s.memory request.ns with
  | error e =>
    have hrecords' : inner.all t.memory request.ns = .error e := by
      rw [hrecords] at hown
      cases h : inner.all t.memory request.ns with
      | ok records' => simp [h, Except.map] at hown
      | error e' => simpa [h, Except.map] using hown.symm
    have hlisted (u : σ) (hu : inner.all u request.ns = .error e)
        : EncryptingMemoryStore.all envelope inner u request.ns = .error e := by
      show (inner.all u request.ns >>= _) = _
      rw [hu]
      rfl
    rw [handle_eq hauth, handle_eq hauth', hlisted _ hrecords, hlisted _ hrecords']
    exact .same _
  | ok records =>
    obtain ⟨records', hrecords', hvisible⟩ := hsame.exists_of_ok hrecords
    rcases hs records hrecords with ⟨r, hr, hsealed⟩ | hothers
    . obtain ⟨e, he⟩ := @handle_err _ _ _ engine _ _ _ _ _ _ hauth _ hrecords _ (List.mem_filter.mp hr).1 hsealed
      rw [hvisible] at hr
      obtain ⟨e', he'⟩ := @handle_err _ _ _ engine _ _ _ _ _ _ hauth' _ hrecords' _ (List.mem_filter.mp hr).1 hsealed
      rw [he, he']
      exact .failed e e'
    . rcases ht records' hrecords' with ⟨r, hr, hsealed⟩ | hothers'
      . obtain ⟨e', he'⟩ := @handle_err _ _ _ engine _ _ _ _ _ _ hauth' _ hrecords' _ (List.mem_filter.mp hr).1 hsealed
        rw [← hvisible] at hr
        obtain ⟨e, he⟩ := @handle_err _ _ _ engine _ _ _ _ _ _ hauth _ hrecords _ (List.mem_filter.mp hr).1 hsealed
        rw [he, he']
        exact .failed e e'
      . rw [handle_eq_ownReply hauth hrecords hothers, handle_eq_ownReply hauth' hrecords' hothers', hvisible]
        exact .same _

theorem undisturbed_of_alike (hlisting : ∀ req, request ≠ .query req)
    (hauth : Tenancy.tenantAuthorize admins s.tenancy headers "memory:read" = .ok tenant)
    (hauth' : Tenancy.tenantAuthorize admins t.tenancy headers "memory:read" = .ok tenant)
    (hsame : SameOwned inner tenant s.memory t.memory)
    (ht : Undisturbed envelope inner engine.f32 tenant t.memory request)
    (halike : Alike (handle (encrypted admins engine envelope inner) headers request s).1
      (handle (encrypted admins engine envelope inner) headers request t).1)
    : Undisturbed envelope inner engine.f32 tenant s.memory request := by
  intro records hrecords
  by_contra hnot
  rw [not_or] at hnot
  obtain ⟨hownOpen, hother⟩ := hnot
  push Not at hownOpen hother
  obtain ⟨r, hr, -, hclosed⟩ := hother
  have hdropped : DroppedBy engine.f32 tenant r request := by
    cases request with
    | listNamespaces | listRecords q => trivial
    | query req => exact absurd rfl (hlisting req)
  have hsealed : ¬Opens envelope r := fun hopen => hclosed hopen hdropped
  obtain ⟨e, he⟩ := @handle_err _ _ _ engine _ _ _ _ _ _ hauth _ hrecords _ hr hsealed
  obtain ⟨records', hrecords', hvisible⟩ := hsame.exists_of_ok hrecords
  have hanswer : ∃ o, (handle (encrypted admins engine envelope inner) headers request t).1 = o
      ∧ ∀ e', o ≠ .err e' := by
    rcases ht records' hrecords' with ⟨x, hx, hclosed⟩ | hothers'
    . rw [← hvisible] at hx
      exact absurd (hownOpen x hx) hclosed
    . rw [handle_eq_ownReply hauth' hrecords' hothers', ← hvisible]
      exact ⟨_, rfl, ownReply_of_opens hlisting hownOpen⟩
  obtain ⟨o, ho, herr⟩ := hanswer
  rw [he, ho] at halike
  cases halike with
  | same => exact herr e rfl
  | failed e e' => exact herr e' rfl

/--
A reply is only ever about records of the tenant. It is as in another store with the same records of the
tenant, in which nothing of others is in the way, if one of the tenant's own listed records does not open, or
every listed record of others opens and, for a query, none of them passes the filters. A listing needs this.
-/
theorem isolated (request : Request F)
    (hauth : Tenancy.tenantAuthorize admins s.tenancy headers "memory:read" = .ok tenant)
    (hauth' : Tenancy.tenantAuthorize admins t.tenancy headers "memory:read" = .ok tenant)
    (hsame : SameOwned inner tenant s.memory t.memory)
    (ht : Undisturbed envelope inner engine.f32 tenant t.memory request)
    : (∀ answer, (handle (encrypted admins engine envelope inner) headers request s).1 = .ok answer →
        answer.Own tenant)
      ∧ (Undisturbed envelope inner engine.f32 tenant s.memory request →
          Alike (handle (encrypted admins engine envelope inner) headers request s).1
            (handle (encrypted admins engine envelope inner) headers request t).1)
      ∧ ((∀ req, request ≠ .query req) →
          Alike (handle (encrypted admins engine envelope inner) headers request s).1
            (handle (encrypted admins engine envelope inner) headers request t).1 →
          Undisturbed envelope inner engine.f32 tenant s.memory request) := by
  refine ⟨?_, ?_, ?_⟩
  . intro answer hanswer
    rw [handle_eq hauth] at hanswer
    split at hanswer
    . exact own_of_reply hanswer
    . cases hanswer
  . intro hs
    exact alike_of_undisturbed hauth hauth' hsame hs ht
  . intro hlisting halike
    exact undisturbed_of_alike hlisting hauth hauth' hsame ht halike

end

def goneEnvelope : Envelope where
  sealData _ content := .ok content
  openData ns content := if ns == "gone" then .error (.notFound "key not found") else .ok content

def acmeHeaders : Headers :=
  (∅ : Headers).insert "x-wovyr-tenant" "acme" |>.insert "x-wovyr-principal" "root"

def record (ns tenant : String) (sensitive : Bool) (seq : Nat) : MemoryRecord Rat :=
  MemoryRecord.stamp { ns, content := "x", importance := 0, requiredScopes := [tenantScope tenant], sensitive } seq

def acmeState (others : List (MemoryRecord Rat)) : AppState (InMemoryStore Rat) :=
  { tenancy := .empty, memory := { inner := record "notes" "acme" false 1 :: others } }

theorem acme_authorized (others : List (MemoryRecord Rat))
    : Tenancy.tenantAuthorize (some "root") (acmeState others).tenancy acmeHeaders "memory:read" = .ok "acme" := by
  have hauth : Tenancy.tenantAuthorize (some "root") .empty acmeHeaders "memory:read" = .ok "acme" := by
    decide
  exact hauth

theorem sameOwned_acme {others : List (MemoryRecord Rat)}
    (hothers : ∀ r ∈ others, visibleTo r.requiredScopes "acme" = false)
    : SameOwned store "acme" (acmeState others).memory (acmeState []).memory := by
  have hnone (p : MemoryRecord Rat → Bool) : visible "acme" (others.filter p) = [] := by
    apply List.filter_eq_nil_iff.mpr
    intro r hr
    simp [hothers r (List.mem_filter.mp hr).1]
  have hothers' : visible "acme" others = [] := by
    simpa using hnone fun _ => true
  have hcons (r : MemoryRecord Rat) (rs : List (MemoryRecord Rat))
      : visible "acme" (r :: rs) = visible "acme" [r] ++ visible "acme" rs :=
    List.filter_append [r] rs
  intro ns
  cases ns with
  | none =>
    show Except.ok (visible "acme" (record "notes" "acme" false 1 :: others))
      = Except.ok (visible "acme" [record "notes" "acme" false 1])
    rw [hcons, hothers', List.append_nil]
  | some ns =>
    show Except.ok (visible "acme" ((record "notes" "acme" false 1 :: others).filter (·.ns == ns)))
      = Except.ok (visible "acme" ([record "notes" "acme" false 1].filter (·.ns == ns)))
    rw [List.filter_cons, List.filter_cons]
    split
    . rw [hcons, hnone]
      rfl
    . rw [hnone]
      rfl

theorem undisturbed_acme (f : F32 Rat) (request : Request Rat)
    : Undisturbed goneEnvelope store f "acme" (acmeState []).memory request := by
  intro records hrecords
  right
  intro r hr hother
  have hmem : r ∈ [record "notes" "acme" false 1] := by
    cases hrecords
    cases hns : request.ns with
    | none =>
      rw [hns] at hr
      exact hr
    | some ns =>
      rw [hns] at hr
      exact (List.mem_filter.mp hr).1
  rw [List.mem_singleton.mp hmem] at hother
  exact absurd hother (by decide)

def ask : Request Rat :=
  .query { text := "x", ns := some "notes" }

theorem isolated_acme
    : Alike
        (handle (encrypted (some "root") .noteTaker goneEnvelope store) acmeHeaders ask
          (acmeState [record "notes" "beta" true 2, record "gone" "beta" true 3])).1
        (handle (encrypted (some "root") .noteTaker goneEnvelope store) acmeHeaders ask
          (acmeState [])).1 := by
  apply (isolated ask (acme_authorized _) (acme_authorized _) (sameOwned_acme _) (undisturbed_acme _ _)).2.1
  . rintro records ⟨⟩
    right
    intro r hr hother
    rcases List.mem_pair.mp hr with rfl | rfl
    . exact absurd hother (by decide)
    . have hfilters : passesFilters MemoryEngine.noteTaker.f32 (record "notes" "beta" true 2)
          (memoryQuery MemoryEngine.noteTaker.f32 "acme" { text := "x", ns := some "notes" }) = false := by
        decide
      exact ⟨⟨_, rfl⟩, hfilters⟩
  . have hbeta (ns : String) (seq : Nat) : visibleTo (record ns "beta" true seq).requiredScopes "acme" = false :=
      (by decide : visibleTo [tenantScope "beta"] "acme" = false)
    simp [hbeta]

-- A record of another tenant, the key of which is destroyed, fails the listing.
theorem not_isolated_gone
    : SameOwned store "acme" (acmeState [record "gone" "beta" true 2]).memory (acmeState []).memory
        ∧ ¬Alike
          (handle (encrypted (some "root") .noteTaker goneEnvelope store) acmeHeaders
            .listNamespaces (acmeState [record "gone" "beta" true 2])).1
          (handle (encrypted (some "root") .noteTaker goneEnvelope store) acmeHeaders
            .listNamespaces (acmeState [])).1 := by
  have hsame : SameOwned store "acme" (acmeState [record "gone" "beta" true 2]).memory
      (acmeState []).memory := by
    apply sameOwned_acme
    have hbeta : visibleTo (record "gone" "beta" true 2).requiredScopes "acme" = false := by
      decide
    simpa using hbeta
  refine ⟨hsame, ?_⟩
  intro halike
  have hundisturbed := undisturbed_of_alike (by simp) (acme_authorized _) (acme_authorized _) hsame
    (undisturbed_acme _ _) halike
  have hopen : ∀ r ∈ [record "notes" "acme" false 1, record "gone" "beta" true 2],
      visibleTo r.requiredScopes "acme" = false → Opens goneEnvelope r := by
    rcases hundisturbed _ rfl with ⟨r, hr, hsealed⟩ | hothers
    . have hown : ∀ r ∈ visible "acme" [record "notes" "acme" false 1, record "gone" "beta" true 2],
          r ∈ [record "notes" "acme" false 1] := by
        decide
      rw [List.mem_singleton.mp (hown r hr)] at hsealed
      exact absurd ⟨_, rfl⟩ hsealed
    . exact fun r hr hother => (hothers r hr hother).1
  obtain ⟨c, hc⟩ := hopen (record "gone" "beta" true 2) (by simp) (by decide)
  cases hc

end Wovyr.Server.Memory
