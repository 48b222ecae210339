import Wovyr.Kms.Local

/-!
This module contains the life of the keys of the tenants, whatever the order of the steps of the
calls.
-/

namespace Wovyr

open Service.Discipline List

namespace Kms

def Disk.record (s : Disk) (tenant : String) : Option TenantKeyRecord :=
  s.kms[tenant]?

-- The record of the tenant has the property, or is destroyed.
def Keeps (s : Disk) (tenant : String) (p : TenantKeyRecord → Prop) : Prop :=
  ∃ r, s.record tenant = some r ∧ (r.destroyed = true ∨ p r)

def Destroyed (s : Disk) (tenant : String) : Prop :=
  ∃ r, s.record tenant = some r ∧ r.destroyed = true

def Opens (w : WrappedDataKey) (p : KeyBytes) (r : TenantKeyRecord) : Prop :=
  w.wrapped.plaintext = p ∧ ∃ v, r.version w.tenantKeyVersion = some v ∧ v.wrapped.plaintext = w.wrapped.key

def Disk.owner (s : Disk) : KeyBytes → Option String
  | .root => none
  | .generated n => (s.keys[n]?).join

structure Issues (s : Disk) (tenant : String) (w : WrappedDataKey) (p : KeyBytes) : Prop where
  opens : Keeps s tenant (Opens w p)
  owned : s.owner w.wrapped.key = some tenant

def HasVersion (s : Disk) (tenant : String) (n : Nat) : Prop :=
  Keeps s tenant fun r => n ∈ r.versions.map (·.version)

structure Grows (s t : Disk) : Prop where
  keys : s.keys <+: t.keys
  record : ∀ tenant r, s.record tenant = some r → ∃ r', t.record tenant = some r'
    ∧ (r.destroyed = true → r'.destroyed = true) ∧ (r'.destroyed = true ∨ r.versions <+: r'.versions)

section

variable {s t u : Disk} {tenant : String} {w : WrappedDataKey} {p : KeyBytes} {r r' : TenantKeyRecord}

theorem Grows.refl (s : Disk) : Grows s s :=
  ⟨prefix_rfl, fun _ r h => ⟨r, h, id, Or.inr prefix_rfl⟩⟩

theorem Grows.trans (hst : Grows s t) (htu : Grows t u) : Grows s u := by
  refine ⟨hst.keys.trans htu.keys, ?_⟩
  intro tenant r hr
  obtain ⟨r', hr', hdestroyed, hversions⟩ := hst.record tenant r hr
  obtain ⟨r'', hr'', hdestroyed', hversions'⟩ := htu.record tenant r' hr'
  refine ⟨r'', hr'', fun h => hdestroyed' (hdestroyed h), ?_⟩
  rcases hversions with h | h
  . exact Or.inl (hdestroyed' h)
  . exact hversions'.imp_right h.trans

theorem version_prefix {n : Nat} {v : TenantKeyVersion} (h : r.versions <+: r'.versions)
    (hv : r.version n = some v) : r'.version n = some v := by
  obtain ⟨more, hmore⟩ := h
  unfold TenantKeyRecord.version at *
  rw [← hmore, find?_append, hv]
  rfl

theorem Opens.prefix (h : r.versions <+: r'.versions) (hopens : Opens w p r) : Opens w p r' := by
  obtain ⟨hp, v, hv, hkey⟩ := hopens
  exact ⟨hp, v, version_prefix h hv, hkey⟩

theorem Destroyed.mono (h : Destroyed s tenant) (hle : Grows s t) : Destroyed t tenant := by
  obtain ⟨r, hr, hdestroyed⟩ := h
  obtain ⟨r', hr', hdestroyed', -⟩ := hle.record tenant r hr
  exact ⟨r', hr', hdestroyed' hdestroyed⟩

theorem Keeps.mono {q : TenantKeyRecord → Prop} (hq : ∀ r r', r.versions <+: r'.versions → q r → q r')
    (h : Keeps s tenant q) (hle : Grows s t) : Keeps t tenant q := by
  obtain ⟨r, hr, hkeeps⟩ := h
  obtain ⟨r', hr', hdestroyed, hversions⟩ := hle.record tenant r hr
  refine ⟨r', hr', ?_⟩
  rcases hkeeps with h | h
  . exact Or.inl (hdestroyed h)
  . exact hversions.imp_right fun hext => hq r r' hext h

theorem owner_mono {k : KeyBytes} (h : s.owner k = some tenant) (hkeys : s.keys <+: t.keys)
    : t.owner k = some tenant := by
  obtain ⟨more, hmore⟩ := hkeys
  cases k with
  | root => cases h
  | generated n =>
    have hkey : s.keys[n]? = some (some tenant) := Option.join_eq_some_iff.mp h
    show (t.keys[n]?).join = some tenant
    rw [← hmore, Service.getElem?_append_of_some hkey]
    rfl

theorem Issues.mono (h : Issues s tenant w p) (hle : Grows s t) : Issues t tenant w p :=
  ⟨h.opens.mono (fun _ _ => Opens.prefix) hle, owner_mono h.owned hle.keys⟩

theorem HasVersion.mono {n : Nat} (h : HasVersion s tenant n) (hle : Grows s t) : HasVersion t tenant n :=
  Keeps.mono (fun _ _ hext hn => (hext.map _).subset hn) h hle

end

structure Meets (s : Disk) (c : Call) (a : Answer) (t : Disk) : Prop where
  shredded : Destroyed s c.tenant → ∃ e, a = .error e
  generated : ∀ tenant p w, c = .generateDataKey tenant → a = .ok (.dataKey p w) → Issues t tenant w p
  unwrapped : ∀ tenant w p, c = .unwrapDataKey tenant w → Issues s tenant w p →
    a = .ok (.key p) ∨ Destroyed t tenant
  rewrapped : ∀ tenant w p, c = .rewrapDataKey tenant w → Issues s tenant w p →
    (∃ w', a = .ok (.rewrapped w') ∧ Issues t tenant w' p) ∨ Destroyed t tenant ∧ ∃ e, a = .error e
  refused : ∀ tenant w, c = .unwrapDataKey c.tenant w ∨ c = .rewrapDataKey c.tenant w → tenant ≠ c.tenant →
    s.owner w.wrapped.key = some tenant → ∃ e, a = .error e
  rotated : ∀ tenant n, c = .rotateTenantKey tenant → a = .ok (.version n) →
    HasVersion t tenant n ∧ ∀ m, HasVersion s tenant m → m < n
  destroyed : ∀ tenant, c = .destroyTenantKey tenant → a = .ok .destroyed → Destroyed t tenant

theorem Meets.mono {s t u : Disk} {c : Call} {a : Answer} (h : Meets s c a t) (hle : Grows t u)
    : Meets s c a u := by
  constructor
  . exact h.shredded
  . exact fun tenant p w hc ha => (h.generated tenant p w hc ha).mono hle
  . exact fun tenant w p hc hw => (h.unwrapped tenant w p hc hw).imp_right (·.mono hle)
  . intro tenant w p hc hw
    rcases h.rewrapped tenant w p hc hw with ⟨w', ha, hw'⟩ | ⟨hdestroyed, ha⟩
    . exact Or.inl ⟨w', ha, hw'.mono hle⟩
    . exact Or.inr ⟨hdestroyed.mono hle, ha⟩
  . exact h.refused
  . exact fun tenant n hc ha => ⟨(h.rotated tenant n hc ha).1.mono hle, (h.rotated tenant n hc ha).2⟩
  . exact fun tenant hc ha => (h.destroyed tenant hc ha).mono hle

theorem Meets.error {s t : Disk} {c : Call} (e : Option Error)
    (hdestroyed : ∀ tenant w p, c = .unwrapDataKey tenant w ∨ c = .rewrapDataKey tenant w →
      Issues s tenant w p → Destroyed t tenant)
    : Meets s c (.error e) t := by
  constructor
  . exact fun _ => ⟨e, rfl⟩
  . simp
  . exact fun tenant w p hc hw => Or.inr (hdestroyed tenant w p (Or.inl hc) hw)
  . exact fun tenant w p hc hw => Or.inr ⟨hdestroyed tenant w p (Or.inr hc) hw, e, rfl⟩
  . exact fun _ _ _ _ _ => ⟨e, rfl⟩
  . simp
  . simp

section

variable (rootKey : KeyBytes) (made : Call → Prop)

structure TenantKeyRecord.Sound (s : Disk) (tenant : String) (r : TenantKeyRecord) : Prop where
  named : r.tenant = tenant
  shredded : r.destroyed = true → made (.destroyTenantKey tenant)
  provisioned : r.destroyed = false → r.versions ≠ []
  rising : r.versions.Pairwise fun v v' => v.version < v'.version
  wrapped : ∀ v ∈ r.versions, v.wrapped.key = rootKey ∧ s.owner v.wrapped.plaintext = some tenant

def Disk.Sound (s : Disk) : Prop :=
  ∀ tenant r, s.record tenant = some r → TenantKeyRecord.Sound rootKey made s tenant r

end

def discipline (kms : LocalKms) : Service.Discipline kms.service where
  inv made s := Disk.Sound kms.rootKey made s
  le := Grows
  post := Meets
  refl := Grows.refl
  trans _ _ _ := Grows.trans
  inv_mono made made' s hmade h := by
    intro tenant r hr
    have hsound := h tenant r hr
    exact { hsound with shredded := fun hd => hmade _ (hsound.shredded hd) }
  post_mono _ _ _ _ _ := Meets.mono

section

variable {kms : LocalKms} {made : Call → Prop} {s : Disk} {tenant : String} {r : TenantKeyRecord}

theorem TenantKeyRecord.Sound.mono {rootKey : KeyBytes} {t : Disk} (h : Sound rootKey made s tenant r)
    (hkeys : s.keys <+: t.keys) : Sound rootKey made t tenant r := by
  refine { h with wrapped := ?_ }
  intro v hv
  exact ⟨(h.wrapped v hv).1, owner_mono (h.wrapped v hv).2 hkeys⟩

theorem grows_generate (s : Disk) (purpose : Option String)
    : Grows s { s with keys := s.keys ++ [purpose] } :=
  ⟨prefix_append _ _, (Grows.refl s).record⟩

theorem sound_generate (h : s.Sound kms.rootKey made) (purpose : Option String)
    : Disk.Sound kms.rootKey made { s with keys := s.keys ++ [purpose] } :=
  fun tenant r hr => (h tenant r hr).mono (prefix_append _ _)

theorem record_put (s : Disk) (r : TenantKeyRecord) (tenant : String)
    : Disk.record { s with kms := s.kms.insert r.tenant r } tenant
        = if r.tenant = tenant then some r else s.record tenant :=
  Map.getElem?_insert s.kms r.tenant tenant r

theorem keeps_put {q : TenantKeyRecord → Prop} (h : r.destroyed = true ∨ q r)
    : Keeps { s with kms := s.kms.insert r.tenant r } r.tenant q :=
  ⟨r, (record_put s r r.tenant).trans (if_pos rfl), h⟩

theorem grows_put (hdestroyed : ∀ o, s.record r.tenant = some o → o.destroyed = true → r.destroyed = true)
    (hversions : ∀ o, s.record r.tenant = some o → r.destroyed = true ∨ o.versions <+: r.versions)
    : Grows s { s with kms := s.kms.insert r.tenant r } := by
  refine ⟨prefix_rfl, ?_⟩
  intro tenant o ho
  rw [record_put]
  split
  . next heq =>
    rw [← heq] at ho
    exact ⟨r, rfl, hdestroyed o ho, hversions o ho⟩
  . exact ⟨o, ho, id, Or.inr prefix_rfl⟩

theorem sound_put (h : s.Sound kms.rootKey made) (hr : r.Sound kms.rootKey made s r.tenant)
    : Disk.Sound kms.rootKey made { s with kms := s.kms.insert r.tenant r } := by
  intro tenant o ho
  rw [record_put] at ho
  split at ho
  . next heq =>
    cases ho
    rw [← heq]
    exact hr.mono prefix_rfl
  . exact (h tenant o ho).mono prefix_rfl

theorem owner_generate (s : Disk) (tenant : String)
    : Disk.owner { s with keys := s.keys ++ [some tenant] } (.generated s.keys.length) = some tenant := by
  show ((s.keys ++ [some tenant])[s.keys.length]?).join = some tenant
  simp

theorem TenantKeyRecord.Sound.version {rootKey : KeyBytes} (h : r.Sound rootKey made s tenant) {v : TenantKeyVersion}
    (hv : v ∈ r.versions) : r.version v.version = some v := by
  obtain ⟨before, after, hsplit⟩ := append_of_mem hv
  unfold TenantKeyRecord.version
  rw [find?_eq_some_iff_append]
  refine ⟨by simp, before, after, hsplit, ?_⟩
  intro v' hv'
  have hrising := h.rising
  rw [hsplit, pairwise_append] at hrising
  have hlt := hrising.2.2 v' hv' v mem_cons_self
  simp only [Bool.not_eq_true', beq_eq_false_iff_ne]
  omega

theorem unwrapTenantKey_of_mem (h : r.Sound kms.rootKey made s tenant) {v : TenantKeyVersion}
    (hv : v ∈ r.versions) : kms.unwrapTenantKey r v.version = .ok v.wrapped.plaintext := by
  unfold LocalKms.unwrapTenantKey
  rw [h.version hv]
  dsimp only
  unfold openSealed
  rw [if_pos (h.wrapped v hv).1]

theorem Opens.unwrap {w : WrappedDataKey} {p : KeyBytes} (h : r.Sound kms.rootKey made s tenant)
    (hopens : Opens w p r) : kms.unwrapTenantKey r w.tenantKeyVersion = .ok w.wrapped.key := by
  obtain ⟨-, v, hv, hkey⟩ := hopens
  unfold LocalKms.unwrapTenantKey
  rw [hv]
  dsimp only
  unfold openSealed
  rw [if_pos (h.wrapped v (mem_of_find?_eq_some hv)).1, hkey]

theorem owner_of_unwrap {n : Nat} {k : KeyBytes} (h : r.Sound kms.rootKey made s tenant)
    (hk : kms.unwrapTenantKey r n = .ok k) : s.owner k = some tenant := by
  unfold LocalKms.unwrapTenantKey at hk
  cases hv : r.version n with
  | none => simp [hv] at hk
  | some v =>
    obtain ⟨hroot, howner⟩ := h.wrapped v (mem_of_find?_eq_some hv)
    rw [hv] at hk
    dsimp only at hk
    unfold openSealed at hk
    rw [if_pos hroot] at hk
    cases hk
    exact howner

theorem rising_next {n : Nat} (hrising : r.versions.Pairwise fun v v' => v.version < v'.version)
    (hnext : LocalKms.nextVersion r = some n) : ∀ v ∈ r.versions, v.version < n := by
  unfold LocalKms.nextVersion at hnext
  cases hlast : r.versions.getLast? with
  | none =>
    rw [getLast?_eq_none_iff.mp hlast]
    simp
  | some last =>
    rw [hlast] at hnext
    dsimp only at hnext
    split at hnext
    . cases hnext
      obtain ⟨before, hbefore⟩ := getLast?_eq_some_iff.mp hlast
      rw [hbefore, pairwise_append] at hrising
      rw [hbefore]
      intro v hv
      rcases mem_append.mp hv with hold | hnew
      . exact Nat.lt_succ_of_lt (hrising.2.2 v hold last (mem_singleton_self _))
      . rw [mem_singleton.mp hnew]
        exact Nat.lt_succ_self _
    . cases hnext

structure Active (kms : LocalKms) (made : Call → Prop) (s t : Disk) (tenant : String) (r : TenantKeyRecord)
    : Prop where
  record : t.record tenant = some r
  active : r.destroyed = false
  grows : Grows s t
  sound : t.Sound kms.rootKey made

section

variable {β : Type} {post : Except (Option Error) β → Disk → Prop}

theorem works_get {f : Option TenantKeyRecord → Action β} (h : s.Sound kms.rootKey made)
    (hf : (discipline kms).Works made post (f (s.record tenant)).run s)
    : (discipline kms).Works made post (FileKmsStore.get tenant >>= f).run s :=
  ⟨h, Grows.refl s, hf⟩

theorem works_generate {purpose : Option String} {f : KeyBytes → Action β} (h : s.Sound kms.rootKey made)
    (hf : (discipline kms).Works made post (f (.generated s.keys.length)).run
      { s with keys := s.keys ++ [purpose] })
    : (discipline kms).Works made post (generateKey purpose >>= f).run s :=
  ⟨sound_generate h purpose, grows_generate s purpose, hf⟩

theorem works_put {f : Unit → Action β} (h : s.Sound kms.rootKey made)
    (hr : r.Sound kms.rootKey made s r.tenant)
    (hdestroyed : ∀ o, s.record r.tenant = some o → o.destroyed = true → r.destroyed = true)
    (hversions : ∀ o, s.record r.tenant = some o → r.destroyed = true ∨ o.versions <+: r.versions)
    (hf : (discipline kms).Works made post (f ()).run { s with kms := s.kms.insert r.tenant r })
    : (discipline kms).Works made post (FileKmsStore.put r >>= f).run s :=
  ⟨h, Grows.refl s, sound_put h hr, grows_put hdestroyed hversions, hf⟩

theorem works_put_last {post : Except (Option Error) Unit → Disk → Prop} (h : s.Sound kms.rootKey made)
    (hr : r.Sound kms.rootKey made s r.tenant)
    (hdestroyed : ∀ o, s.record r.tenant = some o → o.destroyed = true → r.destroyed = true)
    (hversions : ∀ o, s.record r.tenant = some o → r.destroyed = true ∨ o.versions <+: r.versions)
    (hpost : post (.ok ()) { s with kms := s.kms.insert r.tenant r })
    : (discipline kms).Works made post (FileKmsStore.put r).run s :=
  ⟨h, Grows.refl s, sound_put h hr, grows_put hdestroyed hversions, hpost⟩

theorem works_bind {γ : Type} {m : Action γ} {f : γ → Action β}
    (h : (discipline kms).Works made
      (fun out t =>
        match out with
        | .ok c => (discipline kms).Works made post (f c).run t
        | .error e => post (.error e) t)
      m.run s)
    : (discipline kms).Works made post (m >>= f).run s := by
  apply Works.bind
  have hcont : (fun out t => (discipline kms).Works made post (ExceptT.bindCont f out) t)
      = fun out t =>
        match out with
        | .ok c => (discipline kms).Works made post (f c).run t
        | .error e => post (.error e) t := by
    funext out t
    cases out with
    | ok c => rfl
    | error e => rfl
  rw [hcont]
  exact h

theorem works_some {γ : Type} {c : γ} {f : γ → Action β} (h : (discipline kms).Works made post (f c).run s)
    : (discipline kms).Works made post (orPanic (some c) >>= f).run s :=
  h

theorem works_ok {γ : Type} {c : γ} {f : γ → Action β} (h : (discipline kms).Works made post (f c).run s)
    : (discipline kms).Works made post (orFail (.ok c) >>= f).run s :=
  h

theorem looks_get {f : Option TenantKeyRecord → Action β}
    (hf : ∀ made t, t.Sound kms.rootKey made → Grows s t →
      (discipline kms).Looks post (f (t.record tenant)).run t)
    : (discipline kms).Looks post (FileKmsStore.get tenant >>= f).run s :=
  fun made t h hle => ⟨rfl, hf made t h hle⟩

theorem looks_some {γ : Type} {c : γ} {f : γ → Action β} (h : (discipline kms).Looks post (f c).run s)
    : (discipline kms).Looks post (orPanic (some c) >>= f).run s :=
  h

theorem looks_ok {γ : Type} {c : γ} {f : γ → Action β} (h : (discipline kms).Looks post (f c).run s)
    : (discipline kms).Looks post (orFail (.ok c) >>= f).run s :=
  h

theorem looks_bind {γ : Type} {m : Action γ} {f : γ → Action β}
    (h : (discipline kms).Looks
      (fun out t =>
        match out with
        | .ok c => (discipline kms).Looks post (f c).run t
        | .error e => post (.error e) t)
      m.run s)
    : (discipline kms).Looks post (m >>= f).run s := by
  apply Looks.bind
  have hcont : (fun out t => (discipline kms).Looks post (ExceptT.bindCont f out) t)
      = fun out t =>
        match out with
        | .ok c => (discipline kms).Looks post (f c).run t
        | .error e => post (.error e) t := by
    funext out t
    cases out with
    | ok c => rfl
    | error e => rfl
  rw [hcont]
  exact h

end

theorem works_recordOrProvision (h : s.Sound kms.rootKey made)
    : (discipline kms).Works made (fun out t => ∀ r, out = .ok r → Active kms made s t tenant r)
        (kms.recordOrProvision tenant).run s := by
  unfold LocalKms.recordOrProvision
  apply works_get h
  cases hr : s.record tenant with
  | some r =>
    dsimp only
    split
    . rintro r' ⟨⟩
    . next hactive =>
      rintro r' ⟨⟩
      exact ⟨hr, by simpa using hactive, Grows.refl s, h⟩
  | none =>
    unfold LocalKms.provision
    dsimp only
    apply works_generate h
    have hsound : TenantKeyRecord.Sound kms.rootKey made { s with keys := s.keys ++ [some tenant] } tenant
        { tenant, versions := [⟨1, ⟨kms.rootKey, .generated s.keys.length⟩⟩], destroyed := false } := by
      constructor
      . rfl
      . simp
      . simp
      . exact pairwise_singleton _ _
      . intro v hv
        cases mem_singleton.mp hv
        exact ⟨rfl, owner_generate s tenant⟩
    have hnone (o : TenantKeyRecord) (ho : Disk.record { s with keys := s.keys ++ [some tenant] } tenant = some o)
        : False := by
      have ho' : s.record tenant = some o := ho
      simp [hr] at ho'
    apply works_put (sound_generate h _) hsound
    . exact fun o ho => (hnone o ho).elim
    . exact fun o ho => (hnone o ho).elim
    . rintro r' ⟨⟩
      refine ⟨?_, rfl, ?_, ?_⟩
      . rw [record_put, if_pos rfl]
      . apply (grows_generate s (some tenant)).trans
        exact grows_put (fun o ho => (hnone o ho).elim) (fun o ho => (hnone o ho).elim)
      . exact sound_put (sound_generate h _) hsound

theorem Active.not_destroyed {t : Disk} (h : Active kms made s t tenant r) : ¬Destroyed s tenant := by
  intro hdestroyed
  obtain ⟨r', hr', hdestroyed'⟩ := hdestroyed.mono h.grows
  rw [h.record] at hr'
  cases hr'
  simp [h.active] at hdestroyed'

theorem Active.exists_current {t : Disk} (h : Active kms made s t tenant r)
    : ∃ v ∈ r.versions, r.currentVersion = some v := by
  have hne := (h.sound tenant r h.record).provisioned h.active
  exact ⟨r.versions.getLast hne, getLast_mem hne, getLast?_eq_some_getLast hne⟩

theorem works_generateDataKey (h : s.Sound kms.rootKey made)
    : (discipline kms).Works made
        (fun out t => ∀ p w, out = .ok (p, w) → Issues t tenant w p ∧ ¬Destroyed s tenant)
        (kms.generateDataKey tenant).run s := by
  unfold LocalKms.generateDataKey
  apply works_bind
  apply Works.imp h _ (works_recordOrProvision h)
  intro out t ht hle hactive
  cases out with
  | error e => simp
  | ok r =>
    have hr := hactive r rfl
    have hsound := hr.sound tenant r hr.record
    obtain ⟨v, hv, hcurrent⟩ := hr.exists_current
    dsimp only
    rw [hcurrent]
    apply works_some
    rw [unwrapTenantKey_of_mem hsound hv]
    apply works_ok
    apply works_generate ht
    rintro p w ⟨⟩
    refine ⟨⟨⟨r, hr.record, Or.inr ⟨rfl, v, hsound.version hv, rfl⟩⟩, ?_⟩, hr.not_destroyed⟩
    exact owner_mono (hsound.wrapped v hv).2 (prefix_append _ _)

theorem works_rotateTenantKey (h : s.Sound kms.rootKey made)
    : (discipline kms).Works made
        (fun out t => ∀ n, out = .ok n → HasVersion t tenant n ∧ (∀ m, HasVersion s tenant m → m < n)
          ∧ ¬Destroyed s tenant)
        (kms.rotateTenantKey tenant).run s := by
  unfold LocalKms.rotateTenantKey
  apply works_bind
  apply Works.imp h _ (works_recordOrProvision h)
  intro out t ht hle hactive
  cases out with
  | error e => simp
  | ok r =>
    have hr := hactive r rfl
    have hsound := hr.sound tenant r hr.record
    have hnamed := hsound.named
    subst hnamed
    obtain ⟨v, hv, hcurrent⟩ := hr.exists_current
    dsimp only
    cases hnext : LocalKms.nextVersion r with
    | none => rintro n ⟨⟩
    | some n =>
      apply works_some
      apply works_generate ht
      have hrising := rising_next hsound.rising hnext
      have hput : TenantKeyRecord.Sound kms.rootKey made { t with keys := t.keys ++ [some r.tenant] } r.tenant
          { r with versions := r.versions ++ [⟨n, ⟨kms.rootKey, .generated t.keys.length⟩⟩] } := by
        have hold := hsound.mono (t := { t with keys := t.keys ++ [some r.tenant] }) (prefix_append _ _)
        refine ⟨rfl, hsound.shredded, by simp, ?_, ?_⟩
        . rw [pairwise_append]
          refine ⟨hsound.rising, pairwise_singleton _ _, ?_⟩
          intro v hv v' hv'
          rw [mem_singleton.mp hv']
          exact hrising v hv
        . apply forall_mem_snoc hold.wrapped
          exact ⟨rfl, owner_generate t r.tenant⟩
      have hrecord (o : TenantKeyRecord)
          (ho : Disk.record { t with keys := t.keys ++ [some r.tenant] } r.tenant = some o) : o = r := by
        have ho' : t.record r.tenant = some o := ho
        rw [hr.record] at ho'
        exact (Option.some.inj ho').symm
      apply works_put (sound_generate ht _)
      . exact hput
      . intro o ho
        rw [hrecord o ho]
        exact id
      . intro o ho
        rw [hrecord o ho]
        exact Or.inr (prefix_append _ _)
      . rintro n' ⟨⟩
        refine ⟨keeps_put (Or.inr ?_), ?_, hr.not_destroyed⟩
        . simp
        . intro m hm
          obtain ⟨r', hr', hkeeps⟩ := hm.mono hr.grows
          rw [hr.record] at hr'
          cases hr'
          rcases hkeeps with hdestroyed | hmem
          . simp [hr.active] at hdestroyed
          . obtain ⟨v, hv, rfl⟩ := mem_map.mp hmem
            exact hrising v hv

theorem works_activeRecord (h : s.Sound kms.rootKey made)
    : (discipline kms).Works made (fun out t => ∀ r, out = .ok r → Active kms made s t tenant r)
        (LocalKms.activeRecord tenant).run s := by
  unfold LocalKms.activeRecord
  apply works_get h
  cases hr : s.record tenant with
  | none => rintro r ⟨⟩
  | some r =>
    dsimp only
    split
    . rintro r' ⟨⟩
    . next hactive =>
      rintro r' ⟨⟩
      exact ⟨hr, by simpa using hactive, Grows.refl s, h⟩

theorem works_destroyTenantKey (h : s.Sound kms.rootKey made) (hmade : made (.destroyTenantKey tenant))
    : (discipline kms).Works made (fun out t => ∀ u, out = .ok u → Destroyed t tenant ∧ ¬Destroyed s tenant)
        (LocalKms.destroyTenantKey tenant).run s := by
  unfold LocalKms.destroyTenantKey
  apply works_bind
  apply Works.imp h _ (works_activeRecord h)
  intro out t ht hle hactive
  cases out with
  | error e => simp
  | ok r =>
    have hr := hactive r rfl
    have hsound := hr.sound tenant r hr.record
    obtain rfl := hsound.named
    have hput : TenantKeyRecord.Sound kms.rootKey made t r.tenant { r with versions := [], destroyed := true } := by
      constructor
      . rfl
      . exact fun _ => hmade
      . simp
      . exact List.Pairwise.nil
      . simp
    dsimp only
    apply works_put_last ht hput
    . exact fun _ _ _ => rfl
    . exact fun _ _ => Or.inl rfl
    . intro u hu
      refine ⟨⟨{ r with versions := [], destroyed := true }, ?_, rfl⟩, hr.not_destroyed⟩
      exact (record_put _ _ _).trans (if_pos rfl)

theorem looks_activeRecord
    : (discipline kms).Looks
        (fun out t =>
          match out with
          | .ok r => ∃ made, Active kms made s t tenant r
          | .error _ => ∀ q, Keeps s tenant q → Destroyed t tenant)
        (LocalKms.activeRecord tenant).run s := by
  unfold LocalKms.activeRecord
  apply looks_get
  intro made t ht hle
  cases hr : t.record tenant with
  | none =>
    rintro q ⟨r, hr', -⟩
    obtain ⟨r', hr'', -⟩ := hle.record tenant r hr'
    simp [hr] at hr''
  | some r =>
    dsimp only
    split
    . next hdestroyed => exact fun _ _ => ⟨r, hr, hdestroyed⟩
    . next hactive => exact ⟨made, hr, by simpa using hactive, hle, ht⟩

theorem Active.opens {t : Disk} {w : WrappedDataKey} {p : KeyBytes} (h : Active kms made s t tenant r)
    (hw : Issues s tenant w p) : Opens w p r := by
  obtain ⟨r', hr', hkeeps⟩ := (hw.mono h.grows).opens
  rw [h.record] at hr'
  cases hr'
  rcases hkeeps with hdestroyed | hopens
  . simp [h.active] at hdestroyed
  . exact hopens

theorem owner_ne {t : Disk} {k : KeyBytes} {w : WrappedDataKey} {other : String} {n : Nat}
    (hr : Active kms made s t tenant r) (hk : kms.unwrapTenantKey r n = .ok k) (hne : other ≠ tenant)
    (howner : s.owner w.wrapped.key = some other) : w.wrapped.key ≠ k := by
  intro heq
  have hother := owner_mono howner hr.grows.keys
  rw [heq, owner_of_unwrap (hr.sound tenant r hr.record) hk] at hother
  exact hne (Option.some.inj hother).symm

theorem looks_unwrapDataKey (w : WrappedDataKey)
    : (discipline kms).Looks (Meets s (.unwrapDataKey tenant w)) (kms.serve (.unwrapDataKey tenant w)).run s := by
  unfold LocalKms.serve LocalKms.unwrapDataKey
  apply looks_bind
  apply looks_bind
  apply Looks.imp _ looks_activeRecord
  intro out t hout
  cases out with
  | error e =>
    apply Meets.error
    rintro _ _ p (hc | hc) hw
    . cases hc
      exact hout _ hw.opens
    . cases hc
  | ok r =>
    obtain ⟨made, hr⟩ := hout
    have hsound := hr.sound tenant r hr.record
    dsimp only
    cases hkey : kms.unwrapTenantKey r w.tenantKeyVersion with
    | error e =>
      apply Meets.error
      rintro _ _ p (hc | hc) hw
      . cases hc
        simp [(hr.opens hw).unwrap hsound] at hkey
      . cases hc
    | ok k =>
      apply looks_ok
      have howner (other : String) (hne : other ≠ tenant) (howner : s.owner w.wrapped.key = some other) :=
        owner_ne hr hkey hne howner
      by_cases hk : w.wrapped.key = k
      . rw [show openSealed k w.wrapped = .ok w.wrapped.plaintext from if_pos hk]
        constructor
        . exact fun hdestroyed => absurd hdestroyed hr.not_destroyed
        . simp
        . rintro _ _ p ⟨⟩ hw
          rw [← (hr.opens hw).1]
          exact Or.inl rfl
        . simp
        . rintro other _ (hc | hc) hne hother
          . cases hc
            exact absurd hk (howner other hne hother)
          . cases hc
        . simp
        . simp
      . rw [show openSealed k w.wrapped = .error _ from if_neg hk]
        apply Meets.error
        rintro _ _ p (hc | hc) hw
        . cases hc
          have hopen := (hr.opens hw).unwrap hsound
          rw [hkey] at hopen
          exact absurd (Except.ok.inj hopen).symm hk
        . cases hc

theorem looks_rewrapDataKey (w : WrappedDataKey)
    : (discipline kms).Looks (Meets s (.rewrapDataKey tenant w)) (kms.serve (.rewrapDataKey tenant w)).run s := by
  unfold LocalKms.serve LocalKms.rewrapDataKey
  apply looks_bind
  apply looks_bind
  apply Looks.imp _ looks_activeRecord
  intro out t hout
  cases out with
  | error e =>
    apply Meets.error
    rintro _ _ p (hc | hc) hw
    . cases hc
    . cases hc
      exact hout _ hw.opens
  | ok r =>
    obtain ⟨made, hr⟩ := hout
    have hsound := hr.sound tenant r hr.record
    obtain ⟨v, hv, hcurrent⟩ := hr.exists_current
    dsimp only
    cases hkey : kms.unwrapTenantKey r w.tenantKeyVersion with
    | error e =>
      apply Meets.error
      rintro _ _ p (hc | hc) hw
      . cases hc
      . cases hc
        simp [(hr.opens hw).unwrap hsound] at hkey
    | ok k =>
      apply looks_ok
      by_cases hk : w.wrapped.key = k
      . rw [show openSealed k w.wrapped = .ok w.wrapped.plaintext from if_pos hk]
        apply looks_ok
        rw [hcurrent]
        apply looks_some
        rw [unwrapTenantKey_of_mem hsound hv]
        apply looks_ok
        constructor
        . exact fun hdestroyed => absurd hdestroyed hr.not_destroyed
        . simp
        . simp
        . rintro _ _ p ⟨⟩ hw
          left
          refine ⟨_, rfl, ?_, (hsound.wrapped v hv).2⟩
          exact ⟨r, hr.record, Or.inr ⟨(hr.opens hw).1, v, hsound.version hv, rfl⟩⟩
        . rintro other _ (hc | hc) hne hother
          . cases hc
          . cases hc
            exact absurd hk (owner_ne hr hkey hne hother)
        . simp
        . simp
      . rw [show openSealed k w.wrapped = .error _ from if_neg hk]
        apply Meets.error
        rintro _ _ p (hc | hc) hw
        . cases hc
        . cases hc
          have hopen := (hr.opens hw).unwrap hsound
          rw [hkey] at hopen
          exact absurd (Except.ok.inj hopen).symm hk

theorem obeyed : (discipline kms).Obeyed := by
  constructor
  . intro made c s hlocked hmade h
    cases c with
    | generateDataKey tenant =>
      apply works_bind
      apply Works.imp h _ (works_generateDataKey h)
      intro out t ht hle hout
      cases out with
      | error e => exact Meets.error e (by simp)
      | ok pw =>
        obtain ⟨hissues, hactive⟩ := hout pw.1 pw.2 rfl
        constructor
        . exact fun hdestroyed => absurd hdestroyed hactive
        . rintro _ p w ⟨⟩ ha
          cases ha
          exact hissues
        . simp
        . simp
        . simp
        . simp
        . simp
    | rotateTenantKey tenant =>
      apply works_bind
      apply Works.imp h _ (works_rotateTenantKey h)
      intro out t ht hle hout
      cases out with
      | error e => exact Meets.error e (by simp)
      | ok n =>
        obtain ⟨hversion, hrising, hactive⟩ := hout n rfl
        constructor
        . exact fun hdestroyed => absurd hdestroyed hactive
        . simp
        . simp
        . simp
        . simp
        . rintro _ m ⟨⟩ ha
          cases ha
          exact ⟨hversion, hrising⟩
        . simp
    | destroyTenantKey tenant =>
      apply works_bind
      apply Works.imp h _ (works_destroyTenantKey h hmade)
      intro out t ht hle hout
      cases out with
      | error e => exact Meets.error e (by simp)
      | ok u =>
        obtain ⟨hdestroyed, hactive⟩ := hout u rfl
        constructor
        . exact fun hdestroyed => absurd hdestroyed hactive
        . simp
        . simp
        . simp
        . simp
        . simp
        . rintro _ ⟨⟩ -
          exact hdestroyed
    | unwrapDataKey tenant w => cases hlocked
    | rewrapDataKey tenant w => cases hlocked
  . intro made c s hlocked h
    cases c with
    | unwrapDataKey tenant w => exact looks_unwrapDataKey w
    | rewrapDataKey tenant w => exact looks_rewrapDataKey w
    | generateDataKey tenant | rotateTenantKey tenant | destroyTenantKey tenant => cases hlocked

end

section

variable (s : Service.State Call Op Res Disk Answer)

def CalledAt (k : Nat) (c : Call) : Prop :=
  ∃ now, s.history[k]? = some ⟨.called c, now⟩

-- At the place `j` the call that was made at the place `i` is answered.
def ReturnedAt (j i : Nat) (c : Call) (a : Answer) : Prop :=
  ∃ now, s.history[j]? = some ⟨.returned i c a, now⟩

inductive Issued : Nat → String → WrappedDataKey → KeyBytes → Prop where
  | generated {n j i : Nat} {tenant : String} {p : KeyBytes} {w : WrappedDataKey} : j < n →
    ReturnedAt s j i (.generateDataKey tenant) (.ok (.dataKey p w)) → Issued n tenant w p
  | rewrapped {n j i : Nat} {tenant : String} {p : KeyBytes} {w w' : WrappedDataKey} : j < n →
    ReturnedAt s j i (.rewrapDataKey tenant w) (.ok (.rewrapped w')) → Issued i tenant w p →
    Issued n tenant w' p

structure Lifecycle : Prop where
  -- Until a call to destroy the key of the tenant is made, what was wrapped for it opens.
  opens : ∀ j i tenant w p a, ReturnedAt s j i (.unwrapDataKey tenant w) a → Issued s i tenant w p →
    (∀ k < j, ¬CalledAt s k (.destroyTenantKey tenant)) → a = .ok (.key p)
  rewraps : ∀ j i tenant w p a, ReturnedAt s j i (.rewrapDataKey tenant w) a → Issued s i tenant w p →
    (∀ k < j, ¬CalledAt s k (.destroyTenantKey tenant)) → ∃ w', a = .ok (.rewrapped w')
  refuses : ∀ j i tenant tenant' w p c a, ReturnedAt s j i c a →
    c = .unwrapDataKey tenant' w ∨ c = .rewrapDataKey tenant' w → Issued s i tenant w p → tenant ≠ tenant' →
    ∃ e, a = .error e
  rises : ∀ j i j' i' tenant n n', ReturnedAt s j i (.rotateTenantKey tenant) (.ok (.version n)) →
    ReturnedAt s j' i' (.rotateTenantKey tenant) (.ok (.version n')) → j < i' → n < n'
  distinct : ∀ j i j' i' tenant n n', ReturnedAt s j i (.rotateTenantKey tenant) (.ok (.version n)) →
    ReturnedAt s j' i' (.rotateTenantKey tenant) (.ok (.version n')) → i ≠ i' → n ≠ n'
  -- A version that was returned is there until the key of the tenant is destroyed.
  keeps : ∀ j i tenant n, ReturnedAt s j i (.rotateTenantKey tenant) (.ok (.version n)) →
    HasVersion s.shared tenant n
  shreds : ∀ j i j' i' c a, ReturnedAt s j i (.destroyTenantKey c.tenant) (.ok .destroyed) →
    ReturnedAt s j' i' c a → j < i' → ∃ e, a = .error e

variable {s} {kms : LocalKms}

theorem ReturnedAt.meets (h : (discipline kms).Kept s) {j i : Nat} {c : Call} {a : Answer}
    (ha : ReturnedAt s j i c a)
    : ∃ s₀ start now, s.history[i]? = some ⟨.called c, s₀⟩ ∧ Grows s₀ start
        ∧ s.history[j]? = some ⟨.returned i c a, now⟩ ∧ Meets start c a now := by
  obtain ⟨now, hnow⟩ := ha
  obtain ⟨-, ⟨s₀, start, hcall, hle, hmeets⟩, -⟩ := h.chronicle.answered j i c a now hnow
  exact ⟨s₀, start, now, hcall, hle, hnow, hmeets⟩

theorem ReturnedAt.served (h : (discipline kms).Kept s) {j i : Nat} {tenant : String} {a : Answer}
    (ha : ReturnedAt s j i (.rotateTenantKey tenant) a)
    : ∃ x ∈ s.served, x.since = i ∧ Meets x.start (.rotateTenantKey tenant) a x.finish := by
  obtain ⟨now, hnow⟩ := ha
  obtain ⟨-, -, hserved⟩ := h.chronicle.answered j i _ a now hnow
  obtain ⟨x, hx, hsince, hcall, hanswer⟩ := hserved rfl
  have hmeets := (h.ordered.served x hx).1
  rw [hcall, hanswer] at hmeets
  exact ⟨x, hx, hsince, hmeets⟩

theorem issues_of_issued (h : (discipline kms).Kept s) {n : Nat} {tenant : String} {w : WrappedDataKey}
    {p : KeyBytes} (hissued : Issued s n tenant w p) {m : Nat} {x : Service.Entry Call Disk Answer}
    (hx : s.history[m]? = some x) (hnm : n ≤ m) : Issues x.now tenant w p := by
  induction hissued generalizing m x with
  | generated hjn ha =>
    obtain ⟨s₀, start, now, -, -, hnow, hmeets⟩ := ha.meets h
    exact (hmeets.generated _ _ _ rfl rfl).mono (h.le_of_le hnow hx (by omega))
  | rewrapped hjn ha hw ih =>
    obtain ⟨s₀, start, now, hcall, hle, hnow, hmeets⟩ := ha.meets h
    have hstart := (ih hcall (Nat.le_refl _)).mono hle
    rcases hmeets.rewrapped _ _ _ rfl hstart with ⟨w'', ha', hw''⟩ | ⟨-, e, ha'⟩
    . cases ha'
      exact hw''.mono (h.le_of_le hnow hx (by omega))
    . cases ha'

theorem not_destroyed_of_not_called (h : (discipline kms).Kept s) {j : Nat} {tenant : String}
    {x : Service.Entry Call Disk Answer} (hx : s.history[j]? = some x)
    (hnot : ∀ k < j, ¬CalledAt s k (.destroyTenantKey tenant)) : ¬Destroyed x.now tenant := by
  rintro ⟨r, hr, hdestroyed⟩
  obtain ⟨k, now, hk, hcall⟩ := (h.chronicle.invs j x hx tenant r hr).shredded hdestroyed
  exact hnot k hk ⟨now, hcall⟩

theorem HasVersion.lt_of_rotated {s start now : Disk} {tenant : String} {m n : Nat}
    (hm : HasVersion s tenant m) (hle : Grows s start)
    (hn : Meets start (.rotateTenantKey tenant) (.ok (.version n)) now) : m < n :=
  (hn.rotated tenant n rfl rfl).2 m (hm.mono hle)

end

theorem lifecycle (kms : LocalKms) (moves : List (Service.Move Call))
    : Lifecycle (kms.service.run { shared := {} } moves) := by
  have h : (discipline kms).Kept (kms.service.run { shared := {} } moves) := by
    apply Service.Discipline.kept_run obeyed
    intro tenant r hr
    have hnone : (∅ : Document)[tenant]? = none := Std.ExtTreeMap.getElem?_empty
    exact absurd (hnone.symm.trans hr) (by simp)
  constructor
  . intro j i tenant w p a ha hw hnot
    obtain ⟨s₀, start, now, hcall, hle, hnow, hmeets⟩ := ha.meets h
    have hstart := (issues_of_issued h hw hcall (Nat.le_refl _)).mono hle
    rcases hmeets.unwrapped tenant w p rfl hstart with hopen | hdestroyed
    . exact hopen
    . exact absurd hdestroyed (not_destroyed_of_not_called h hnow hnot)
  . intro j i tenant w p a ha hw hnot
    obtain ⟨s₀, start, now, hcall, hle, hnow, hmeets⟩ := ha.meets h
    have hstart := (issues_of_issued h hw hcall (Nat.le_refl _)).mono hle
    rcases hmeets.rewrapped tenant w p rfl hstart with ⟨w', hopen, -⟩ | ⟨hdestroyed, -⟩
    . exact ⟨w', hopen⟩
    . exact absurd hdestroyed (not_destroyed_of_not_called h hnow hnot)
  . intro j i tenant tenant' w p c a ha hc hw hne
    obtain ⟨s₀, start, now, hcall, hle, hnow, hmeets⟩ := ha.meets h
    have hstart := (issues_of_issued h hw hcall (Nat.le_refl _)).mono hle
    have hctenant : c.tenant = tenant' := by
      rcases hc with rfl | rfl <;> rfl
    rw [← hctenant] at hc hne
    exact hmeets.refused tenant w hc hne hstart.owned
  . intro j i j' i' tenant n n' ha ha' hlt
    obtain ⟨-, start, now, -, -, hnow, hmeets⟩ := ha.meets h
    obtain ⟨s₀, start', now', hcall', hle', hnow', hmeets'⟩ := ha'.meets h
    have hn := (hmeets.rotated tenant n rfl rfl).1
    exact (hn.mono (h.le_of_le hnow hcall' (by omega))).lt_of_rotated hle' hmeets'
  . rintro j i j' i' tenant n n' ha ha' hne rfl
    obtain ⟨x, hx, rfl, hn⟩ := ha.served h
    obtain ⟨y, hy, rfl, hn'⟩ := ha'.served h
    rcases h.served_apart hx hy hne with hle | hle
    . exact absurd ((hn.rotated tenant n rfl rfl).1.lt_of_rotated hle hn') (Nat.lt_irrefl n)
    . exact absurd ((hn'.rotated tenant n rfl rfl).1.lt_of_rotated hle hn) (Nat.lt_irrefl n)
  . intro j i tenant n ha
    obtain ⟨-, start, now, -, -, hnow, hmeets⟩ := ha.meets h
    exact (hmeets.rotated tenant n rfl rfl).1.mono (h.reached _ (mem_of_getElem? hnow))
  . intro j i j' i' c a ha ha' hlt
    obtain ⟨-, start, now, -, -, hnow, hmeets⟩ := ha.meets h
    obtain ⟨s₀, start', now', hcall', hle', hnow', hmeets'⟩ := ha'.meets h
    have hdestroyed := hmeets.destroyed _ rfl rfl
    exact hmeets'.shredded ((hdestroyed.mono (h.le_of_le hnow hcall' (by omega))).mono hle')

end Wovyr.Kms
