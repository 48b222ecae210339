import Wovyr.Server.Mcp

/-!
This module contains what a change of a connection means to the live clients, whatever the order of
the steps of the requests.
-/

namespace Wovyr.Server.Mcp

open Tools List

abbrev System := Service.State Call Op Res App Answer

abbrev Turn := Service.Turn Call Op App

section

variable (host : Host)

def Writes (t : Turn) (tenant name : String) : Prop :=
  (∃ c, t.op = .put tenant c ∧ c.name = name ∧ (t.before.connections.put tenant c).isOk = true)
    ∨ t.op = .delete tenant name

def Reads (t : Turn) (tenant : String) (connection : McpConnection) : Prop :=
  (∃ name, t.op = .get tenant name ∧ t.before.connections.get tenant name = some connection)
    ∨ t.op = .list tenant ∧ connection ∈ t.before.connections.list tenant

def Uses (t : Turn) (tenant : String) (connection : McpConnection) (client : McpClient) : Prop :=
  t.op = .lookup tenant connection ∧ t.before.fresh? host (tenant, connection.name) = some client
    ∨ t.op = .insert tenant client ∧ client.connection = connection

def Turn.stored (t : Turn) (tenant name : String) : Option McpConnection :=
  (t.after host.service).connections.get tenant name

-- The edits and deletions of the call have cleared the cache.
def Invalidated (ts : List Turn) (since : Nat) (tenant name : String) : Prop :=
  ∃ x ∈ ts, x.since = since ∧ x.op = .invalidate tenant name

/--
When a client is used for a connection that was read after an edit or a deletion has returned, what it was
dialed from has been in the store since that edit or deletion.
-/
def Current (s : System) (ts : List Turn) : Prop :=
  ∀ past u later tenant connection client, ts = past ++ u :: later → Uses host u tenant connection client →
    ∀ r ∈ Service.turnsOf past u.since, Reads r tenant connection →
    ∀ before w between, past = before ++ w :: between → Writes w tenant connection.name →
    ∀ p c a now, s.history[p]? = some ⟨.returned w.since c a, now⟩ → p < r.time →
    ∃ v ∈ w :: between, Turn.stored host v tenant connection.name = some client.connection

-- Where a dialed client is cached, no edit or deletion since it was read is through with the cache.
def Timely (ts : List Turn) : Prop :=
  ∀ past u later tenant client, ts = past ++ u :: later → u.op = .insert tenant client →
    ∀ before w between, past = before ++ w :: between → Writes w tenant client.connection.name →
    Invalidated between w.since tenant client.connection.name →
    (∃ r ∈ Service.turnsOf between u.since, Reads r tenant client.connection)
      ∨ u.before.connections.get tenant client.connection.name = some client.connection

end

-- Every connection is stored under its name.
def App.Named (s : App) : Prop :=
  ∀ tenant name c, s.connections.get tenant name = some c → c.name = name

section

variable {host : Host} {t : Turn} {tenant name : String}

theorem named_after (h : t.before.Named) : (t.after host.service).Named := by
  unfold Service.Turn.after
  show (host.exec t.op t.before).2.Named
  cases t.op with
  | put tenant' c =>
    unfold Host.exec
    dsimp only
    cases hput : t.before.connections.put tenant' c with
    | error e => exact h
    | ok connections =>
      intro tn n c' hget
      dsimp only at hget
      rw [McpConnectionsState.get_put hput] at hget
      split at hget
      . next hkey =>
        cases hget
        exact hkey.2.symm
      . exact h tn n c' hget
  | delete tenant' name' =>
    intro tn n c' hget
    change (t.before.connections.delete tenant' name').2.get tn n = some c' at hget
    rw [McpConnectionsState.get_delete] at hget
    split at hget
    . cases hget
    . exact h tn n c' hget
  | lookup tenant' c =>
    unfold Host.exec
    dsimp only
    split <;> exact h
  | tenantContext _ | stdioEnabled | getQuota _ | nowMs | list _ | get _ _ | insert _ _ | invalidate _ _
  | connect _ _ | listTools _ | elapse _ | setTenancy _ => exact h

theorem named_chained {s s' : App} {ts : List Turn} (h : host.service.Chained s ts s') (hs : s.Named)
    : ∀ t ∈ ts, t.before.Named := by
  induction ts generalizing s with
  | nil => simp
  | cons t ts ih =>
    obtain ⟨rfl, hts⟩ := h
    intro u hu
    rcases mem_cons.mp hu with rfl | hu
    . exact hs
    . exact ih hts (named_after hs) u hu

theorem stored_of_reads {connection : McpConnection} (hnamed : t.before.Named) (h : Reads t tenant connection)
    : Turn.stored host t tenant connection.name = some connection := by
  have hafter (heq : (t.after host.service).connections = t.before.connections) {name : String}
      (hget : t.before.connections.get tenant name = some connection)
      : Turn.stored host t tenant connection.name = some connection := by
    unfold Turn.stored
    rw [heq, hnamed _ _ _ hget]
    exact hget
  rcases h with ⟨name, hop, hget⟩ | ⟨hop, hmem⟩
  . apply hafter _ hget
    unfold Service.Turn.after
    rw [hop]
    rfl
  . obtain ⟨name, hget⟩ := McpConnectionsState.mem_list hmem
    apply hafter _ hget
    unfold Service.Turn.after
    rw [hop]
    rfl

theorem cached_before {entry : CachedEntry} (h : (t.after host.service).cache[(tenant, name)]? = some entry)
    : (∃ old, t.before.cache[(tenant, name)]? = some old ∧ old.client = entry.client
        ∧ t.op ≠ .invalidate tenant name)
      ∨ t.op = .insert tenant entry.client ∧ entry.client.connection.name = name := by
  unfold Service.Turn.after at h
  change (host.exec t.op t.before).2.cache[(tenant, name)]? = some entry at h
  cases hop : t.op with
  | lookup tenant' c =>
    left
    rw [hop] at h
    unfold Host.exec at h
    dsimp only at h
    cases hfresh : t.before.fresh? host (tenant', c.name) with
    | none =>
      rw [hfresh] at h
      dsimp only at h
      exact ⟨entry, Map.of_erase h, rfl, by simp⟩
    | some client =>
      rw [hfresh] at h
      dsimp only at h
      rcases Map.of_insert h with ⟨hkey, rfl⟩ | h
      . obtain ⟨old, hold, hclient⟩ := Option.map_eq_some_iff.mp hfresh
        rw [hkey] at hold
        exact ⟨old, (Option.filter_eq_some_iff.mp hold).1, hclient, by simp⟩
      . exact ⟨entry, h, rfl, by simp⟩
  | insert tenant' client =>
    rw [hop] at h
    unfold Host.exec at h
    dsimp only at h
    rcases Map.of_insert h with ⟨hkey, rfl⟩ | h
    . cases hkey
      exact Or.inr ⟨rfl, rfl⟩
    . exact Or.inl ⟨entry, h, rfl, by simp⟩
  | invalidate tenant' name' =>
    left
    rw [hop] at h
    unfold Host.exec at h
    dsimp only at h
    rw [Map.getElem?_erase] at h
    split at h
    . cases h
    . next hkey =>
      refine ⟨entry, h, rfl, ?_⟩
      intro heq
      cases heq
      exact hkey rfl
  | put tenant' c =>
    left
    rw [hop] at h
    unfold Host.exec at h
    dsimp only at h
    split at h
    . exact ⟨entry, h, rfl, by simp⟩
    . exact ⟨entry, h, rfl, by simp⟩
  | tenantContext _ | stdioEnabled | getQuota _ | nowMs | list _ | get _ _ | delete _ _ | connect _ _
  | listTools _ | elapse _ | setTenancy _ =>
    left
    rw [hop] at h
    exact ⟨entry, h, rfl, by simp⟩

/--
What the cache holds was dialed from a connection that has been stored since the last edit or deletion that is
through with the cache.
-/
def Fresh (host : Host) (past : List Turn) (s : App) : Prop :=
  ∀ (tenant name : String) entry, s.cache[(tenant, name)]? = some entry →
    ∀ before w between, past = before ++ w :: between → Writes w tenant name →
    Invalidated between w.since tenant name →
    ∃ v ∈ w :: between, Turn.stored host v tenant name = some entry.client.connection

theorem invalidated_snoc {ts : List Turn} {since : Nat} (h : Invalidated (ts ++ [t]) since tenant name)
    (hop : t.op ≠ .invalidate tenant name) : Invalidated ts since tenant name := by
  obtain ⟨x, hx, hsince, hxop⟩ := h
  rcases mem_append.mp hx with hx | hx
  . exact ⟨x, hx, hsince, hxop⟩
  . cases mem_singleton.mp hx
    exact absurd hxop hop

theorem fresh_turn {past : List Turn} (h : Fresh host past t.before)
    (hinsert : ∀ tenant client, t.op = .insert tenant client →
      ∀ before w between, past = before ++ w :: between → Writes w tenant client.connection.name →
      Invalidated between w.since tenant client.connection.name →
      ∃ v ∈ w :: (between ++ [t]), Turn.stored host v tenant client.connection.name = some client.connection)
    : Fresh host (past ++ [t]) (t.after host.service) := by
  intro tenant name entry hentry before w between hsplit hwrites hinvalidated
  rcases Service.snoc_eq_append hsplit with ⟨rfl, rfl⟩ | ⟨between, rfl, rfl⟩
  . obtain ⟨x, hx, -⟩ := hinvalidated
    cases hx
  . rcases cached_before hentry with ⟨old, hold, hclient, hop⟩ | ⟨hop, rfl⟩
    . obtain ⟨v, hv, hstored⟩ := h tenant name old hold before w between rfl hwrites
        (invalidated_snoc hinvalidated hop)
      rw [hclient] at hstored
      refine ⟨v, ?_, hstored⟩
      rw [← cons_append]
      exact mem_append_left _ hv
    . apply hinsert tenant entry.client hop before w between rfl hwrites
      exact invalidated_snoc hinvalidated (by simp [hop])

section

variable {s : System} {ts : List Turn}

theorem fresh_chained {s₀ : App} (hcache : s₀.cache = ∅) (htimely : Timely ts) (hnamed : ∀ t ∈ ts, t.before.Named)
    {past later : List Turn} {u : App} (hts : ts = past ++ later) (hpast : host.service.Chained s₀ past u)
    : Fresh host past u := by
  induction past using reverseRecOn generalizing later u with
  | nil =>
    cases hpast
    intro tenant name entry hentry
    simp [hcache] at hentry
  | append_singleton past t ih =>
    obtain ⟨hbefore, rfl⟩ := (Service.chained_snoc).mp hpast
    rw [append_assoc, singleton_append] at hts
    apply fresh_turn (ih hts hbefore)
    intro tenant client hop before w between hsplit hwrites hinvalidated
    rcases htimely past t later tenant client hts hop before w between hsplit hwrites hinvalidated with
      ⟨r, hr, hreads⟩ | hstored
    . have hmem := ((Service.mem_turnsOf).mp hr).1
      refine ⟨r, by simp [hmem], ?_⟩
      apply stored_of_reads _ hreads
      apply hnamed
      rw [hts, hsplit]
      simp [hmem]
    . refine ⟨t, by simp, ?_⟩
      unfold Turn.stored Service.Turn.after
      rw [hop]
      exact hstored

def Settled (past : List Turn) : Prop :=
  ∀ before w between tenant name, past = before ++ w :: between → Writes w tenant name →
    ∃ x ∈ between, x.op = .invalidate tenant name

theorem settled_nil : Settled [] := by
  intro before w between tenant name hsplit
  simp at hsplit

theorem Settled.snoc {past : List Turn} (h : Settled past) (ht : ∀ tenant name, ¬Writes t tenant name)
    : Settled (past ++ [t]) := by
  intro before w between tenant name hsplit hwrites
  rcases Service.snoc_eq_append hsplit with ⟨rfl, rfl⟩ | ⟨between, rfl, rfl⟩
  . exact absurd hwrites (ht tenant name)
  . obtain ⟨x, hx, hop⟩ := h before w between tenant name rfl hwrites
    exact ⟨x, mem_append_left _ hx, hop⟩

theorem Settled.cleared {past : List Turn} {w x : Turn} (h : Settled past) (hop : x.op = .invalidate tenant name)
    (hw : ∀ tenant' name', Writes w tenant' name' → tenant' = tenant ∧ name' = name)
    : Settled (past ++ [w] ++ [x]) := by
  intro before w' between tenant' name' hsplit hwrites
  rcases Service.snoc_eq_append hsplit with ⟨rfl, rfl⟩ | ⟨between, rfl, hsplit'⟩
  . rcases hwrites with ⟨c, hput, -⟩ | hdelete
    . rw [hop] at hput
      cases hput
    . rw [hop] at hdelete
      cases hdelete
  . rcases Service.snoc_eq_append hsplit' with ⟨rfl, rfl⟩ | ⟨between, rfl, rfl⟩
    . obtain ⟨rfl, rfl⟩ := hw tenant' name' hwrites
      exact ⟨x, by simp, hop⟩
    . obtain ⟨y, hy, hyop⟩ := h before w' between tenant' name' rfl hwrites
      exact ⟨y, by simp [hy], hyop⟩

def Op.isQuiet : Op → Bool
  | .put _ _ | .delete _ _ => false
  | _ => true

theorem not_writes (h : t.op.isQuiet = true) (tenant name : String) : ¬Writes t tenant name := by
  rintro (⟨c, hop, -⟩ | hop)
  . rw [hop] at h
    cases h
  . rw [hop] at h
    cases h

abbrev Settles {ε α : Type} (host : Host) (m : Action ε α) (past : List Turn) : Prop :=
  host.service.Leaves (fun past _ => Settled past) m.run past

section

variable {ε α β : Type} {past : List Turn}

theorem settles_bind {m : Action ε α} {f : α → Action ε β} (hm : Settles host m past)
    (hf : ∀ a past, Settled past → Settles host (f a) past) : Settles host (m >>= f) past := by
  apply Service.Leaves.bind
  apply Service.Leaves.imp _ hm
  intro past out hout
  cases out with
  | ok a => exact hf a past hout
  | error e => exact hout

theorem settles_perform {op : Op} {f : Res op → Action ε β} (hquiet : op.isQuiet = true) (h : Settled past)
    (hf : ∀ res past, Settled past → Settles host (f res) past) : Settles host (perform op >>= f) past := by
  intro t hop
  apply hf
  apply h.snoc
  apply not_writes
  rw [hop]
  exact hquiet

theorem settles_orFail {ε' : Type} {g : ε' → ε} {x : Except ε' α} {f : α → Action ε β} (h : Settled past)
    (hf : ∀ a, Settles host (f a) past) : Settles host (orFail g x >>= f) past := by
  cases x with
  | ok a => exact hf a
  | error e => exact h

theorem settles_mapErr {ε' : Type} {g : ε' → ε} {m : Action ε' α} (h : Settles host m past)
    : Settles host (mapErr g m) past :=
  Service.Leaves.bind (Service.Leaves.imp (fun _ _ hpast => hpast) h)

theorem settles_getOrConnect (h : Settled past) (tenant : String) (connection : McpConnection)
    : Settles host (McpClientCache.getOrConnect tenant connection) past := by
  unfold McpClientCache.getOrConnect
  apply settles_perform rfl h
  intro cached past h
  cases cached with
  | some client => exact h
  | none =>
    apply settles_perform rfl h
    intro out past h
    apply settles_orFail h
    intro client
    apply settles_perform rfl h
    intro _ past h
    exact h

theorem settles_resolveAgentMcpTools (h : Settled past) (tenant : String) (names : List String)
    : Settles host (McpClientCache.resolveAgentMcpTools tenant names) past := by
  induction names generalizing past with
  | nil => exact h
  | cons name names ih =>
    unfold McpClientCache.resolveAgentMcpTools
    apply settles_perform rfl h
    intro connection? past h
    cases connection? with
    | none => exact h
    | some connection =>
      apply settles_bind (settles_getOrConnect h tenant connection)
      intro client past h
      apply settles_perform rfl h
      intro out past h
      apply settles_orFail h
      intro infos
      apply settles_bind (ih h)
      intro ids past h
      exact h

theorem settles_discover (h : Settled past) (tenant : String) (connection : McpConnection)
    : Settles host (discover tenant connection) past := by
  unfold discover
  apply settles_bind
  . exact Service.Leaves.bind (Service.Leaves.imp (fun _ _ hpast => hpast) (settles_getOrConnect h tenant connection))
  . intro client? past h
    cases client? with
    | error e => exact h
    | ok client =>
      apply settles_perform rfl h
      intro out past h
      cases out with
      | error e => exact h
      | ok infos => exact h

theorem settles_mcpToolMetadata (h : Settled past) (tenant : String) (connections : List McpConnection)
    : Settles host (mcpToolMetadata tenant connections) past := by
  induction connections generalizing past with
  | nil => exact h
  | cons connection connections ih =>
    unfold mcpToolMetadata
    apply settles_bind (settles_discover h tenant connection)
    intro entries past h
    apply settles_bind (ih h)
    intro more past h
    exact h

theorem settles_tenantAuthorize (h : Settled past) (headers : Headers) (scope : String)
    : Settles host (tenantAuthorize headers scope) past := by
  unfold tenantAuthorize
  apply settles_perform rfl h
  intro ctx past h
  apply settles_orFail h
  intro _
  exact h

theorem settles_changeable (h : Settled past) (headers : Headers) (name : String)
    : Settles host (changeable headers name) past := by
  unfold changeable
  apply settles_perform rfl h
  intro ctx past h
  apply settles_orFail h
  intro _
  apply settles_perform rfl h
  intro connection? past h
  cases connection? with
  | none => exact h
  | some connection =>
    apply settles_orFail h
    intro _
    exact h

theorem settles_checkStdio (h : Settled past) (transport : McpTransportConfig)
    : Settles host (checkStdio transport) past := by
  unfold checkStdio
  split
  . apply settles_perform rfl h
    intro enabled past h
    split
    . exact h
    . exact h
  . exact h

theorem settles_checkQuota (h : Settled past) (headers : Headers) (tenant : String)
    : Settles host (checkQuota headers tenant) past := by
  unfold checkQuota
  split
  . exact h
  . apply settles_perform rfl h
    intro limits? past h
    cases limits? with
    | none => exact h
    | some limits =>
      apply settles_perform rfl h
      intro connections past h
      cases QuotaLimits.checkMcpConnections limits connections.length with
      | ok u => exact h
      | error e => exact h

theorem isOk_put {connection : McpConnection} {s : App} {e : Error}
    (h : (host.service.exec (.put tenant connection) s).1 = .error e)
    : (s.connections.put tenant connection).isOk = false := by
  change (host.exec (.put tenant connection) s).1 = .error e at h
  unfold Host.exec at h
  dsimp only at h
  cases hput : s.connections.put tenant connection with
  | ok connections =>
    rw [hput] at h
    cases h
  | error e' => rfl

theorem settles_createHandler (h : Settled past) (headers : Headers) (req : ConnectionRequest)
    : Settles host (createHandler headers req) past := by
  unfold createHandler
  apply settles_orFail h
  intro transport
  apply settles_bind (settles_tenantAuthorize h headers _)
  intro tenant past h
  apply settles_bind (settles_checkStdio h transport)
  intro _ past h
  apply settles_bind (settles_checkQuota h headers tenant)
  intro _ past h
  apply settles_perform rfl h
  intro now past h
  apply settles_perform rfl h
  intro out past h
  apply settles_orFail h
  intro client
  apply settles_perform rfl h
  intro out past h
  apply settles_orFail h
  intro tools w hw
  cases hput : (host.service.exec (.put tenant _) w.before).1 with
  | error e =>
    apply h.snoc
    rintro tenant' name' (⟨c, hop, -, hok⟩ | hop)
    . rw [hw] at hop
      cases hop
      rw [isOk_put hput] at hok
      cases hok
    . rw [hw] at hop
      cases hop
  | ok u =>
    intro x hx
    apply h.cleared hx
    rintro tenant' name' (⟨c, hop, rfl, -⟩ | hop)
    . rw [hw] at hop
      cases hop
      exact ⟨rfl, rfl⟩
    . rw [hw] at hop
      cases hop

theorem settles_deleteHandler (h : Settled past) (headers : Headers) (name : String)
    : Settles host (deleteHandler headers name) past := by
  unfold deleteHandler
  apply settles_bind (settles_changeable h headers name)
  intro found past h w hw x hx
  apply h.cleared hx
  rintro tenant' name' (⟨c, hop, -⟩ | hop)
  . rw [hw] at hop
    cases hop
  . rw [hw] at hop
    cases hop
    exact ⟨rfl, rfl⟩

theorem settles_handle (c : Call) : Settles host (handle c) [] := by
  have h := settled_nil
  cases c with
  | create headers req => exact settles_createHandler h headers req
  | delete headers name => exact settles_deleteHandler h headers name
  | refresh headers name =>
    apply settles_bind (settles_changeable h headers name)
    intro found past h
    apply settles_perform rfl h
    intro _ past h
    apply settles_bind
    . exact settles_mapErr (settles_getOrConnect h found.1 found.2)
    . intro client past h
      apply settles_perform rfl h
      intro out past h
      apply settles_orFail h
      intro tools
      exact h
  | list headers =>
    apply settles_bind (settles_tenantAuthorize h headers _)
    intro tenant past h
    apply settles_perform rfl h
    intro items past h
    apply settles_perform rfl h
    intro stdioEnabled past h
    exact h
  | get headers name =>
    apply settles_bind (settles_tenantAuthorize h headers _)
    intro tenant past h
    apply settles_perform rfl h
    intro connection? past h
    cases connection? with
    | none => exact h
    | some connection => exact h
  | listTools headers =>
    apply settles_perform rfl h
    intro ctx past h
    cases ctx.authorize "mcp:read" with
    | error e => exact h
    | ok u =>
      apply settles_perform rfl h
      intro connections past h
      apply settles_bind (settles_mcpToolMetadata h ctx.tenant connections)
      intro entries past h
      exact h
  | runAgent tenant mcpServers =>
    apply settles_bind
    . exact settles_mapErr (settles_resolveAgentMcpTools h tenant mcpServers)
    . intro ids past h
      exact h
  | elapse ms =>
    apply settles_perform rfl h
    intro _ past h
    exact h
  | setTenancy tenancy =>
    apply settles_perform rfl h
    intro _ past h
    exact h

end

theorem invalidated_of_returned (htraced : Service.Traced host.service s ts)
    {past later before between : List Turn} {u w : Turn} (hts : ts = past ++ u :: later)
    (hpast : past = before ++ w :: between) (hwrites : Writes w tenant name) {p : Nat} {c : Call} {a : Answer}
    {now : App} (hreturned : s.history[p]? = some ⟨.returned w.since c a, now⟩) (hlt : p < u.time)
    : Invalidated between w.since tenant name := by
  obtain ⟨-, -, hfollows, htime⟩ := htraced.answered p w.since c a now hreturned
  have hsettled : Settled (Service.turnsOf ts w.since) := by
    have hleaves := (@settles_handle host c).follows hfollows
    rw [nil_append] at hleaves
    exact hleaves
  have hsplit : ts = before ++ w :: (between ++ u :: later) := by
    rw [hts, hpast, append_assoc, cons_append]
  have hof : Service.turnsOf ts w.since
      = Service.turnsOf before w.since ++ w :: Service.turnsOf (between ++ u :: later) w.since := by
    rw [hsplit, Service.turnsOf_split]
  obtain ⟨x, hx, hop⟩ := hsettled _ _ _ tenant name hof hwrites
  obtain ⟨hx, hsince⟩ := (Service.mem_turnsOf).mp hx
  rcases mem_append.mp hx with hx | hx
  . exact ⟨x, hx, hsince, hop⟩
  . exfalso
    have hle : x.time ≤ p := by
      apply htime
      rw [hof]
      apply mem_append_right
      apply mem_cons_of_mem
      exact (Service.mem_turnsOf).mpr ⟨mem_append_right _ hx, hsince⟩
    have htimed := pairwise_map.mp htraced.timed
    rw [hts, pairwise_append] at htimed
    rcases mem_cons.mp hx with rfl | hx
    . omega
    . have hu := (pairwise_cons.mp htimed.2.1).1 x hx
      omega

/--
If no client is cached after an edit or a deletion of its connection is through with the cache, an edit or a
deletion takes effect at once: no request that reads the connection afterwards uses a client from before it.
-/
theorem current_of_timely (host : Host) (s₀ : App) (moves : List (Service.Move Call)) (hcache : s₀.cache = ∅)
    (hnamed : s₀.Named) (htimely : Timely (host.service.turns { shared := s₀ } moves))
    : Current host (host.service.run { shared := s₀ } moves) (host.service.turns { shared := s₀ } moves) := by
  have htraced := Service.traced_run (@Service.Traced.start _ _ _ _ _ host.service s₀) moves
  have hchain := @Service.chained_run _ _ _ _ _ host.service { shared := s₀ } moves
  rw [nil_append] at htraced
  generalize host.service.turns { shared := s₀ } moves = ts at *
  have hnamed' := named_chained hchain hnamed
  intro past u later tenant connection client hts huses r hr hreads before w between hpast hwrites p c a
    now hreturned hlt
  obtain ⟨hr, -⟩ := (Service.mem_turnsOf).mp hr
  have htimed := pairwise_map.mp htraced.timed
  rw [hts, pairwise_append] at htimed
  obtain ⟨htimed, -, hle⟩ := htimed
  rcases huses with ⟨hop, hfresh⟩ | ⟨hop, rfl⟩
  . obtain ⟨entry, hentry, hclient⟩ := Option.map_eq_some_iff.mp hfresh
    have hpast' : host.service.Chained s₀ past u.before := by
      rw [hts] at hchain
      obtain ⟨s', hchain, hu, -⟩ := (Service.chained_append).mp hchain
      rw [hu]
      exact hchain
    have hinvalidated : Invalidated between w.since tenant connection.name := by
      apply invalidated_of_returned htraced hts hpast hwrites hreturned
      have hru := hle r hr u mem_cons_self
      omega
    rw [← hclient]
    exact fresh_chained hcache htimely hnamed' hts hpast' tenant connection.name entry
      (Option.filter_eq_some_iff.mp hentry).1 before w between hpast hwrites hinvalidated
  . refine ⟨r, ?_, ?_⟩
    . rw [hpast, mem_append] at hr
      rcases hr with hr | hr
      . exfalso
        rw [hpast, pairwise_append] at htimed
        have hrw := htimed.2.2 r hr w mem_cons_self
        have hwp : w.time ≤ p := by
          obtain ⟨-, -, -, htime⟩ := htraced.answered p w.since c a now hreturned
          apply htime
          apply (Service.mem_turnsOf).mpr
          refine ⟨?_, rfl⟩
          rw [hts, hpast]
          simp
        omega
      . exact hr
    . apply stored_of_reads _ hreads
      apply hnamed'
      rw [hts]
      exact mem_append_left _ hr

theorem timely_of_all (h : ∀ n : Fin ts.length, (match ts[n].op with
      | .insert tenant client =>
        decide (ts[n].before.connections.get tenant client.connection.name = some client.connection)
      | _ => true) = true) : Timely ts := by
  rintro past u later tenant client rfl hop before w between - - -
  have hstored := h ⟨past.length, by simp⟩
  simp only [Fin.getElem_fin, getElem_append_right (Nat.le_refl _), Nat.sub_self, getElem_cons_zero,
    hop, decide_eq_true_eq] at hstored
  exact Or.inr hstored

-- The turn `u` uses a client that no connection since the edit `w` is one of, which its call has read at `r`.
def stale? (host : Host) (s : System) (ts : List Turn) (u r w p : Nat) : Bool :=
  match ts[u]?, ts[r]?, ts[w]?, s.history[p]? with
  | some tu, some tr, some tw, some e =>
    match tu.op, tr.op, tw.op, e.event with
    | .lookup tenant c, .get tenant' name, .put tenant'' c', .returned i _ _ =>
      match tu.before.fresh? host (tenant, c.name) with
      | some client =>
        decide (tenant' = tenant ∧ tr.before.connections.get tenant name = some c ∧ tr.since = tu.since ∧ r < u)
          && decide (tenant'' = tenant ∧ c'.name = c.name ∧ w < u ∧ i = tw.since ∧ p < tr.time)
          && (tw.before.connections.put tenant c').isOk
          && ((ts.take u).drop w).all fun v =>
            decide (Turn.stored host v tenant c.name ≠ some client.connection)
      | none => false
    | _, _, _, _ => false
  | _, _, _, _ => false

theorem not_current_of_stale {u r w p : Nat} (h : stale? host s ts u r w p = true) : ¬Current host s ts := by
  intro hcurrent
  unfold stale? at h
  split at h
  . next tu tr tw e hu hr hw he =>
    split at h
    . next tenant c tenant' name tenant'' c' i call a huop hrop hwop hevent =>
      split at h
      . next client hfresh =>
        simp only [Bool.and_eq_true, decide_eq_true_eq, all_eq_true] at h
        obtain ⟨⟨⟨⟨rfl, hget, hsince, hru⟩, rfl, hname, hwu, rfl, hp⟩, hok⟩, hall⟩ := h
        obtain ⟨hulen, rfl⟩ := List.getElem?_eq_some_iff.mp hu
        obtain ⟨hrlen, rfl⟩ := List.getElem?_eq_some_iff.mp hr
        obtain ⟨hwlen, rfl⟩ := List.getElem?_eq_some_iff.mp hw
        have hsplit : ts = ts.take u ++ ts[u] :: ts.drop (u + 1) := by
          rw [getElem_cons_drop, take_append_drop]
        have hmem : ts[r] ∈ Service.turnsOf (ts.take u) ts[u].since := by
          apply (Service.mem_turnsOf).mpr
          refine ⟨?_, hsince⟩
          rw [mem_take_iff_getElem]
          exact ⟨r, by omega, rfl⟩
        have hdrop : (ts.take u).drop w = ts[w] :: (ts.take u).drop (w + 1) := by
          rw [drop_eq_getElem_cons (by rw [length_take]; omega), getElem_take]
        have hpast : ts.take u = (ts.take u).take w ++ ts[w] :: (ts.take u).drop (w + 1) := by
          rw [← hdrop, take_append_drop]
        obtain ⟨v, hv, hstored⟩ := hcurrent _ _ _ tenant'' c client hsplit (Or.inl ⟨huop, hfresh⟩) _ hmem
          (Or.inl ⟨name, hrop, hget⟩) _ _ _ hpast (Or.inl ⟨c', hwop, hname, hok⟩) p call a e.now
          (by rw [he, ← hevent]) hp
        rw [← hdrop] at hv
        exact hall v hv hstored
      . cases h
    . cases h
  . cases h

end

def rootHeaders : Headers :=
  (∅ : Headers).insert "x-wovyr-principal" "root"

def openHost : Host where
  admins := some "root"
  net :=
    { resolve := fun _ _ _ => .ok "token"
      connectGuarded := fun _ _ => .ok ()
      spawn := fun _ _ => .ok ()
      handshake := fun _ _ => .ok ()
      listTools := fun _ _ => .ok [] }

def putDocs (url : String) : Call :=
  .create rootHeaders { name := "docs", transport := .ok (.http url) }

def useDocs : Call :=
  .runAgent "default" ["docs"]

def steps (k n : Nat) : List (Service.Move Call) :=
  replicate n (.step k)

-- The run inserts its client while the edit is under way, and the edit invalidates it.
def overlapping : List (Service.Move Call) :=
  [.call (putDocs "https://a.example/mcp")] ++ steps 0 6 ++ [.ret 0, .call useDocs] ++ steps 0 3
    ++ [.call (putDocs "https://b.example/mcp")] ++ steps 1 3 ++ steps 0 2 ++ steps 1 3 ++ [.ret 1, .ret 0, .call useDocs]
    ++ steps 0 5 ++ [.ret 0]

theorem current_overlapping
    : Current openHost (openHost.service.run { shared := {} } overlapping)
        (openHost.service.turns { shared := {} } overlapping) := by
  apply current_of_timely
  . rfl
  . intro tenant name c hget
    simp [McpConnectionsState.get] at hget
  . apply timely_of_all
    decide

def overtaken : List (Service.Move Call) :=
  [.call (putDocs "https://a.example/mcp")] ++ steps 0 6 ++ [.ret 0, .call useDocs] ++ steps 0 3
    ++ [.call (putDocs "https://b.example/mcp")] ++ steps 1 6 ++ [.ret 1] ++ steps 0 2 ++ [.ret 0, .call useDocs]
    ++ steps 0 3 ++ [.ret 0]

theorem not_current_overtaken
    : ¬Current openHost (openHost.service.run { shared := {} } overtaken)
        (openHost.service.turns { shared := {} } overtaken) := by
  apply not_current_of_stale (u := 18) (r := 17) (w := 13) (p := 4)
  decide

end

end Wovyr.Server.Mcp
