import Wovyr.Provider.Cache

/-!
This module contains what the caches hold at a moment, without the traces of when an entry was used:
looking something up does not change it, and storing something adds it as long as it fits.
-/

namespace Wovyr.Provider

structure Item where
  response : ChatResponse
  createdMs : Nat
  producer : Nat

def CacheEntry.item (e : CacheEntry) : Item :=
  { response := e.response, createdMs := e.createdMs, producer := e.producer }

def Item.unexpired (nowMs ttlMs : Nat) (i : Item) : Bool :=
  decide (nowMs - i.createdMs ≤ ttlMs)

namespace ExactCache

variable (c d : ExactCache) (key : String) (nowMs ttlMs : Nat)

def view (key : String) : Option Item :=
  (c.entries[key]?.map CacheEntry.item).filter (Item.unexpired nowMs ttlMs)

def Fits : Prop :=
  c.maxEntries = 0 ∨ ∀ e, ((c.sweep nowMs ttlMs).insert key e).size ≤ c.maxEntries

theorem get_fst : (c.get key nowMs ttlMs).1.map CacheEntry.item = c.view nowMs ttlMs key := by
  unfold get view
  cases hentry : c.entries[key]? with
  | none => rfl
  | some e =>
    by_cases hold : nowMs - e.createdMs > ttlMs
    . have hexpired : e.item.unexpired nowMs ttlMs = false := decide_eq_false (by
        show ¬nowMs - e.createdMs ≤ ttlMs
        omega)
      simp only [hold, if_true, Option.map_some, Option.filter_some, hexpired]
      rfl
    . have hfresh : e.item.unexpired nowMs ttlMs = true := decide_eq_true (by
        show nowMs - e.createdMs ≤ ttlMs
        omega)
      simp only [hold, if_false, Option.map_some, Option.filter_some, hfresh, if_true]

theorem view_get : (c.get key nowMs ttlMs).2.view nowMs ttlMs = c.view nowMs ttlMs := by
  funext k
  unfold get view
  cases hentry : c.entries[key]? with
  | none => rfl
  | some e =>
    by_cases hold : nowMs - e.createdMs > ttlMs
    . have hexpired : e.item.unexpired nowMs ttlMs = false := decide_eq_false (by
        show ¬nowMs - e.createdMs ≤ ttlMs
        omega)
      simp only [hold, if_true, Map.getElem?_erase]
      by_cases hk : key = k
      . subst hk
        simp only [if_true, hentry, Option.map_none, Option.map_some, Option.filter_none,
          Option.filter_some, hexpired]
        rfl
      . simp only [hk, if_false]
    . simp only [hold, if_false, Map.getElem?_insert]
      by_cases hk : key = k
      . subst hk
        simp only [if_true, hentry, Option.map_some]
        rfl
      . simp only [hk, if_false]

@[simp]
theorem maxEntries_get : (c.get key nowMs ttlMs).2.maxEntries = c.maxEntries := by
  unfold get
  cases c.entries[key]? with
  | none => rfl
  | some e =>
    by_cases hold : nowMs - e.createdMs > ttlMs
    . simp only [hold, if_true]
    . simp only [hold, if_false]

theorem view_later {nowMs nowMs' : Nat} (h : nowMs ≤ nowMs') (k : String)
    : c.view nowMs' ttlMs k = (c.view nowMs ttlMs k).filter (Item.unexpired nowMs' ttlMs) := by
  unfold view
  rw [Option.filter_filter]
  congr 1
  funext i
  simp only [Item.unexpired, ← Bool.decide_and, decide_eq_decide]
  omega

theorem getElem?_sweep (k : String)
    : (c.sweep nowMs ttlMs)[k]?.map CacheEntry.item = c.view nowMs ttlMs k := by
  unfold sweep view
  rw [Std.ExtTreeMap.getElem?_filter']
  cases c.entries[k]? with
  | none => rfl
  | some e =>
    have hunexpired : e.item.unexpired nowMs ttlMs = decide (nowMs - e.createdMs ≤ ttlMs) := rfl
    rw [Option.map_some, Option.filter_some, Option.filter_some, hunexpired]
    split
    . rfl
    . rfl

theorem mem_sweep {k : String} : k ∈ c.sweep nowMs ttlMs ↔ (c.view nowMs ttlMs k).isSome := by
  rw [← getElem?_sweep, Option.isSome_map, Std.ExtTreeMap.mem_iff_isSome_getElem?]

theorem of_getElem?_evict {maxEntries n : Nat} {entries : Std.ExtTreeMap String CacheEntry} {k : String}
    {e : CacheEntry} (h : (evict maxEntries n entries)[k]? = some e) : entries[k]? = some e := by
  induction n generalizing entries with
  | zero => exact h
  | succ n ih =>
    unfold evict at h
    split at h
    . cases hvictim : entries.toList.argmin fun e => e.2.lastAccess with
      | none =>
        rw [hvictim] at h
        exact h
      | some victim =>
        rw [hvictim] at h
        have hrest := ih h
        exact Map.of_erase hrest
    . exact h

theorem evict_of_le {maxEntries n : Nat} {entries : Std.ExtTreeMap String CacheEntry}
    (h : entries.size ≤ maxEntries) : evict maxEntries n entries = entries := by
  cases n with
  | zero => rfl
  | succ n =>
    unfold evict
    rw [if_neg (by omega)]

variable {key nowMs ttlMs} {response : ChatResponse} {producer : Nat}

def stored (nowMs : Nat) (response : ChatResponse) (producer : Nat) : Item :=
  { response, createdMs := nowMs, producer }

theorem insert_of_eq_zero (h : c.maxEntries = 0) : c.insert key nowMs ttlMs response producer = c := by
  unfold insert
  rw [if_pos h]

@[simp]
theorem maxEntries_insert : (c.insert key nowMs ttlMs response producer).maxEntries = c.maxEntries := by
  unfold insert
  split
  . rfl
  . rfl

theorem of_view_insert {k : String} {i : Item}
    (h : (c.insert key nowMs ttlMs response producer).view nowMs ttlMs k = some i)
    : c.view nowMs ttlMs k = some i ∨ key = k ∧ i = stored nowMs response producer := by
  unfold insert at h
  split at h
  . exact Or.inl h
  . unfold view at h
    obtain ⟨hentry, _⟩ := Option.filter_eq_some_iff.mp h
    obtain ⟨e, he, rfl⟩ := Option.map_eq_some_iff.mp hentry
    have hkept := of_getElem?_evict he
    rw [Map.getElem?_insert] at hkept
    split at hkept
    . rename_i hk
      cases hkept
      exact Or.inr ⟨hk, rfl⟩
    . left
      rw [← getElem?_sweep, hkept]
      rfl

theorem view_insert (hmax : c.maxEntries ≠ 0) (hfits : c.Fits key nowMs ttlMs)
    : (c.insert key nowMs ttlMs response producer).view nowMs ttlMs
        =
      Function.update (c.view nowMs ttlMs) key (some (stored nowMs response producer)) := by
  funext k
  unfold insert
  rw [if_neg hmax]
  have hsize := hfits.resolve_left hmax
    { response, createdMs := nowMs, lastAccess := c.nextTick, producer }
  simp only [evict_of_le hsize]
  unfold view
  simp only [Map.getElem?_insert]
  by_cases hk : key = k
  . subst hk
    simp [Item.unexpired, CacheEntry.item, stored]
  . rw [if_neg hk, Function.update_of_ne (Ne.symm hk), getElem?_sweep]
    unfold view
    rw [Option.filter_filter]
    simp

theorem Fits.of_view (h : c.Fits key nowMs ttlMs) (hmax : c.maxEntries = d.maxEntries)
    (hview : ∀ k, (d.view nowMs ttlMs k).isSome → (c.view nowMs ttlMs k).isSome)
    : d.Fits key nowMs ttlMs := by
  unfold Fits
  rw [← hmax]
  rcases h with hzero | hsize
  . exact Or.inl hzero
  . right
    intro e
    refine Nat.le_trans (Map.size_le_of_subset ?_) (hsize e)
    intro k hk
    rw [Std.ExtTreeMap.mem_insert, mem_sweep] at hk ⊢
    exact hk.imp id (hview k)

theorem Fits.of_lt (h : (c.sweep nowMs ttlMs).size < c.maxEntries) : c.Fits key nowMs ttlMs := by
  right
  intro e
  have hsize := Std.ExtTreeMap.size_insert_le (t := c.sweep nowMs ttlMs) (k := key) (v := e)
  omega

end ExactCache

namespace InMemorySemanticCache

variable {V S : Type} {floats : Floats V S} {paramKey embeddingModel : String} {embedding : V}
  {nowMs ttlMs : Nat} {response : ChatResponse} {producer : Nat}

def Fits (c : InMemorySemanticCache V) : Prop :=
  c.maxEntries = 0 ∨ c.entries.length < c.maxEntries

def Serves (floats : Floats V S) (paramKey : String) (embedding : V) (e : SemanticEntry V) : Prop :=
  e.paramKey = paramKey ∧ floats.clears (floats.cosineSimilarity embedding e.embedding) = true

theorem better_of_not_serves {e : SemanticEntry V} (h : ¬Serves floats paramKey embedding e)
    (best : Option (S × SemanticEntry V))
    : better floats paramKey embeddingModel embedding nowMs ttlMs best e = best := by
  unfold better
  split
  . rename_i hcompatible
    unfold compatible at hcompatible
    simp only [Bool.and_eq_true, beq_iff_eq] at hcompatible
    have hfar : floats.clears (floats.cosineSimilarity embedding e.embedding) = false := by
      apply Bool.eq_false_iff.mpr
      exact fun hclears => h ⟨hcompatible.1.1, hclears⟩
    simp only [hfar, Bool.false_and, Bool.false_eq_true, if_false]
  . rfl

theorem foldl_better_filter {keep : SemanticEntry V → Bool} {entries : List (SemanticEntry V)}
    (h : ∀ e ∈ entries, Serves floats paramKey embedding e → keep e = true)
    (best : Option (S × SemanticEntry V))
    : (entries.filter keep).foldl (better floats paramKey embeddingModel embedding nowMs ttlMs) best
        =
      entries.foldl (better floats paramKey embeddingModel embedding nowMs ttlMs) best := by
  induction entries generalizing best with
  | nil => rfl
  | cons e entries ih =>
    have hrest := ih (fun x hx => h x (List.mem_cons_of_mem _ hx))
    by_cases hkeep : keep e = true
    . rw [List.filter_cons_of_pos hkeep, List.foldl_cons, List.foldl_cons, hrest]
    . have hnot : ¬Serves floats paramKey embedding e :=
        fun hserves => hkeep (h e List.mem_cons_self hserves)
      rw [List.filter_cons_of_neg hkeep, List.foldl_cons, better_of_not_serves hnot, hrest]

theorem of_foldl_better {entries : List (SemanticEntry V)} {best : Option (S × SemanticEntry V)}
    {b : S × SemanticEntry V}
    (h : entries.foldl (better floats paramKey embeddingModel embedding nowMs ttlMs) best = some b)
    : best = some b ∨ b.2 ∈ entries ∧ Serves floats paramKey embedding b.2 := by
  induction entries generalizing best with
  | nil => exact Or.inl h
  | cons e entries ih =>
    rw [List.foldl_cons] at h
    rcases ih h with hbetter | ⟨hmem, hserves⟩
    . by_cases hserves : Serves floats paramKey embedding e
      . unfold better at hbetter
        split at hbetter
        . dsimp only at hbetter
          split at hbetter
          . cases hbetter
            exact Or.inr ⟨List.mem_cons_self, hserves⟩
          . exact Or.inl hbetter
        . exact Or.inl hbetter
      . rw [better_of_not_serves hserves] at hbetter
        exact Or.inl hbetter
    . exact Or.inr ⟨List.mem_cons_of_mem _ hmem, hserves⟩

theorem of_lookup {c : InMemorySemanticCache V} {e : SemanticEntry V}
    (h : c.lookup floats paramKey embeddingModel embedding nowMs ttlMs = some e)
    : e ∈ c.entries ∧ Serves floats paramKey embedding e := by
  obtain ⟨b, hb, rfl⟩ := Option.map_eq_some_iff.mp h
  rcases of_foldl_better hb with hnone | hfound
  . cases hnone
  . exact hfound

theorem mem_of_mem_evict {maxEntries n : Nat} {entries : List (SemanticEntry V)} {e : SemanticEntry V}
    (h : e ∈ evict maxEntries n entries) : e ∈ entries := by
  induction n generalizing entries with
  | zero => exact h
  | succ n ih =>
    unfold evict at h
    split at h
    . cases hold : oldest? entries with
      | none =>
        rw [hold] at h
        exact h
      | some i =>
        rw [hold] at h
        exact List.mem_of_mem_eraseIdx (ih h)
    . exact h

theorem evict_of_le {maxEntries n : Nat} {entries : List (SemanticEntry V)}
    (h : entries.length ≤ maxEntries) : evict maxEntries n entries = entries := by
  cases n with
  | zero => rfl
  | succ n =>
    unfold evict
    rw [if_neg (by omega)]

variable {c : InMemorySemanticCache V}

def stored (paramKey embeddingModel : String) (embedding : V) (nowMs : Nat) (response : ChatResponse)
    (producer : Nat) : SemanticEntry V :=
  { embedding, paramKey, embeddingModel, response, createdMs := nowMs, producer }

theorem store_of_eq_zero (h : c.maxEntries = 0)
    : c.store paramKey embeddingModel embedding nowMs response producer = c := by
  unfold store
  rw [if_pos h]

@[simp]
theorem maxEntries_store
    : (c.store paramKey embeddingModel embedding nowMs response producer).maxEntries = c.maxEntries := by
  unfold store
  split
  . rfl
  . rfl

theorem of_mem_store {e : SemanticEntry V}
    (h : e ∈ (c.store paramKey embeddingModel embedding nowMs response producer).entries)
    : e ∈ c.entries ∨ e = stored paramKey embeddingModel embedding nowMs response producer := by
  unfold store at h
  split at h
  . exact Or.inl h
  . rcases List.mem_append.mp (mem_of_mem_evict h) with hold | hnew
    . exact Or.inl hold
    . exact Or.inr (List.mem_singleton.mp hnew)

theorem entries_store (hmax : c.maxEntries ≠ 0) (hfits : c.Fits)
    : (c.store paramKey embeddingModel embedding nowMs response producer).entries
        =
      c.entries ++ [stored paramKey embeddingModel embedding nowMs response producer] := by
  unfold store
  rw [if_neg hmax]
  apply evict_of_le
  have hroom := hfits.resolve_left hmax
  simp only [List.length_append, List.length_cons, List.length_nil]
  omega

end Wovyr.Provider.InMemorySemanticCache
