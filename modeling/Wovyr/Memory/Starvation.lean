import Wovyr.Memory.Engine

/-!
This module contains what a query over the index of a store gives: how many of the records it may give it does give,
where the search behind it is cut.
-/

namespace Wovyr.Memory

open List

section Keys

variable {F : Type} {f : F32 F} {k : String}

theorem mem_foldl {α : Type} {step : Relevance F → α → Relevance F} {id : α → String}
    (hstep : ∀ m a, k ∈ step m a ↔ k ∈ m ∨ k = id a) (l : List α) (m : Relevance F)
    : k ∈ l.foldl step m ↔ k ∈ m ∨ k ∈ l.map id := by
  induction l generalizing m with
  | nil => simp
  | cons a l ih => rw [foldl_cons, ih, hstep, map_cons, mem_cons, or_assoc]

theorem mem_insert_iff {m : Relevance F} {id : String} {v : F} : k ∈ m.insert id v ↔ k ∈ m ∨ k = id := by
  rw [Std.ExtTreeMap.mem_insert, Std.LawfulEqCmp.compare_eq_iff_eq, eq_comm, or_comm]

theorem mem_collect (scores : List (String × F)) : k ∈ collect scores ↔ k ∈ scores.map (·.1) := by
  have hinsert (m : Relevance F) (entry : String × F) : k ∈ m.insert entry.1 entry.2 ↔ k ∈ m ∨ k = entry.1 :=
    mem_insert_iff
  have hmem := mem_foldl hinsert scores ∅
  rw [or_iff_right Std.ExtTreeMap.not_mem_empty] at hmem
  exact hmem

theorem mem_normalize (hits : List (String × F)) : k ∈ normalize f hits ↔ k ∈ hits.map (·.1) := by
  rw [normalize, mem_collect, map_map]
  rfl

theorem mem_reciprocalRankFusion (c : F) (a b : List String)
    : k ∈ reciprocalRankFusion f c [a, b] ↔ k ∈ a ∨ k ∈ b := by
  have hlist (l : List String) (m : Relevance F) (step : Relevance F → String × Nat → Relevance F)
      (hstep : ∀ m entry, k ∈ step m entry ↔ k ∈ m ∨ k = entry.1) : k ∈ l.zipIdx.foldl step m ↔ k ∈ m ∨ k ∈ l := by
    rw [mem_foldl hstep, zipIdx_map_fst]
  rw [reciprocalRankFusion]
  dsimp only
  have hinsert (m : Relevance F) (entry : String × Nat) : k ∈ m.insert entry.1
      (f.add (m[entry.1]?.getD (f.lit 0)) (f.div (f.lit 1) (f.add c (f.add (f.lit entry.2) (f.lit 1)))))
        ↔ k ∈ m ∨ k = entry.1 := mem_insert_iff
  split
  next =>
    rw [Std.ExtTreeMap.mem_map, foldl_cons, foldl_cons, foldl_nil, hlist b _ _ hinsert,
      hlist a _ _ hinsert]
    simp
  next =>
    rw [foldl_cons, foldl_cons, foldl_nil, hlist b _ _ hinsert, hlist a _ _ hinsert]
    simp

end Keys

section Rank

variable {F : Type} {f : F32 F}

theorem bestMmr_lt (lambda : F) (selected : List (ScoredMemory F)) {remaining : List (ScoredMemory F)}
    (hne : remaining ≠ []) : bestMmr f lambda selected remaining < remaining.length := by
  have hfoldl {step : Nat × F → ScoredMemory F × Nat → Nat × F} (l : List (ScoredMemory F × Nat)) (best : Nat × F)
      (hstep : ∀ best entry, (step best entry).1 = best.1 ∨ (step best entry).1 = entry.2)
      (hl : ∀ entry ∈ l, entry.2 < remaining.length) (hbest : best.1 < remaining.length)
      : (l.foldl step best).1 < remaining.length := by
    induction l generalizing best with
    | nil => exact hbest
    | cons entry l ih =>
      apply ih _ fun e he => hl e (mem_cons_of_mem entry he)
      cases hstep best entry with
      | inl h => rwa [h]
      | inr h =>
        rw [h]
        exact hl entry mem_cons_self
  apply hfoldl
  . intro best entry
    split
    next => exact .inr rfl
    next => exact .inl rfl
  . intro entry hentry
    have := (mem_zipIdx hentry).2.1
    omega
  . exact length_pos_iff.mpr hne

theorem mmrSelect_spec (lambda : F) (limit : Nat) (selected remaining : List (ScoredMemory F))
    : (mmrSelect f lambda selected remaining limit).length = selected.length + min limit remaining.length
        ∧ mmrSelect f lambda selected remaining limit ⊆ selected ++ remaining := by
  induction limit generalizing selected remaining with
  | zero => simp [mmrSelect]
  | succ limit ih =>
    rw [mmrSelect]
    by_cases hne : remaining = []
    . rw [hne]
      simp
    . have hlt := bestMmr_lt (f := f) lambda selected hne
      have hget := getElem?_eq_getElem hlt
      rw [hget]
      obtain ⟨hlength, hsubset⟩ := ih (selected ++ [remaining[bestMmr f lambda selected remaining]])
        (remaining.eraseIdx (bestMmr f lambda selected remaining))
      refine ⟨?_, ?_⟩
      . rw [hlength, length_append, length_eraseIdx_of_lt hlt, length_singleton]
        omega
      . intro x hx
        have hmem := hsubset hx
        simp only [mem_append, mem_singleton] at hmem ⊢
        rcases hmem with (h | rfl) | h
        . exact .inl h
        . exact .inr (getElem_mem hlt)
        . exact .inr (mem_of_mem_eraseIdx h)

theorem rank_spec (records : List (MemoryRecord F)) (relevance : Relevance F) (q : MemoryQuery F) (nowMs : Nat)
    : (rank f records relevance q nowMs).length = min (max q.limit 1) records.length
        ∧ ∀ x ∈ rank f records relevance q nowMs, x.record ∈ records := by
  rw [rank]
  generalize hscored : (records.map (score f relevance q (records.foldl (fun m r => max m r.seq) 0) nowMs)).insertionSort
    (fun a b => better f (a.record.id, a.score) (b.record.id, b.score)) = scored
  have hlength : scored.length = records.length := by
    rw [← hscored, length_insertionSort, length_map]
  have hrecord : ∀ x ∈ scored, x.record ∈ records := by
    intro x hx
    rw [← hscored, mem_insertionSort] at hx
    obtain ⟨r, hr, rfl⟩ := mem_map.mp hx
    exact hr
  split
  next =>
    obtain ⟨hselected, hsubset⟩ :=
      mmrSelect_spec (f := f) (f.sub (f.lit 1) (f.clamp q.diversity)) (max q.limit 1) [] scored
    refine ⟨?_, fun x hx => hrecord x (by simpa using hsubset hx)⟩
    rw [hselected, hlength, length_nil, Nat.zero_add]
  next => exact ⟨by rw [length_take, hlength], fun x hx => hrecord x (mem_of_mem_take hx)⟩

end Rank

namespace MemoryEngine

variable {σ F : Type}

def fetched (limit : Nat) : Nat :=
  max (min (limit * 4) (2 ^ 64 - 1)) 50

def overfetched (q : MemoryQuery F) (hits : List (String × F)) : List String :=
  (hits.take (fetched q.limit)).map (·.1)

def hitIds (q : MemoryQuery F) (ids : List (String × F) → List String) (vectors keywords : List (String × F))
    : List String :=
  match q.strategy with
  | .vector => ids vectors
  | .keyword => ids keywords
  | .hybrid => ids vectors ++ ids keywords

/--
A store whose searches give the best of all matches in a namespace, and that gives the records behind their ids.
-/
structure Searches (engine : MemoryEngine F) (store : MemoryStore σ F) (s : σ) (q : MemoryQuery F)
    (records : List (MemoryRecord F)) (vectors keywords : List (String × F)) : Prop where
  pushdown : store.supportsPushdown = true
  vector : q.strategy ≠ .keyword →
    ∃ v, engine.embed q.text = .ok v ∧ ∀ k, store.vectorSearch s q.ns v k = .ok (some (vectors.take k))
  keyword : q.strategy ≠ .vector → ∀ k, store.keywordSearch s q.ns q.text k = .ok (some (keywords.take k))
  get : ∀ ids, ∃ found, store.get s ids = .ok found ∧ found.Perm (records.filter fun r => ids.contains r.id)

section

variable {engine : MemoryEngine F} {store : MemoryStore σ F} {s : σ} {q : MemoryQuery F}
  {records : List (MemoryRecord F)} {vectors keywords : List (String × F)}

def admitted (engine : MemoryEngine F) (q : MemoryQuery F) (records : List (MemoryRecord F)) (ids : List String)
    : List (MemoryRecord F) :=
  records.filter fun r => passesFilters engine.f32 r q && ids.contains r.id

theorem pushedRelevance_eq (h : Searches engine store s q records vectors keywords)
    : ∃ relevance, engine.pushedRelevance store s q = .ok (some relevance)
        ∧ ∀ id, id ∈ relevance ↔ id ∈ hitIds q (overfetched q) vectors keywords := by
  unfold pushedRelevance hitIds overfetched fetched
  cases hstrategy : q.strategy with
  | vector =>
    obtain ⟨v, hembed, hvector⟩ := h.vector (by rw [hstrategy]; nofun)
    simp only [hembed, hvector, bind, Except.bind]
    exact ⟨_, rfl, fun id => mem_normalize _⟩
  | keyword =>
    have hkeyword := h.keyword (by rw [hstrategy]; nofun)
    simp only [hkeyword]
    exact ⟨_, rfl, fun id => mem_normalize _⟩
  | hybrid =>
    obtain ⟨v, hembed, hvector⟩ := h.vector (by rw [hstrategy]; nofun)
    have hkeyword := h.keyword (by rw [hstrategy]; nofun)
    simp only [hembed, hvector, hkeyword, bind, Except.bind]
    refine ⟨_, rfl, fun id => ?_⟩
    rw [mem_reciprocalRankFusion, mem_append]

theorem fusedPushdown_eq (h : Searches engine store s q records vectors keywords)
    : ∃ found relevance, engine.fusedPushdown store s q = .ok (some (found, relevance))
        ∧ found.Perm (admitted engine q records (hitIds q (overfetched q) vectors keywords)) := by
  obtain ⟨relevance, hrelevance, hmem⟩ := pushedRelevance_eq h
  have hadmitted : (records.filter fun r => relevance.keys.contains r.id).filter (passesFilters engine.f32 · q)
      = admitted engine q records (hitIds q (overfetched q) vectors keywords) := by
    rw [filter_filter, admitted]
    apply filter_congr
    intro r _
    have hcontains : relevance.keys.contains r.id = (hitIds q (overfetched q) vectors keywords).contains r.id := by
      rw [Bool.eq_iff_iff, contains_iff_mem, contains_iff_mem, Std.ExtTreeMap.mem_keys, hmem]
    rw [hcontains]
  unfold fusedPushdown
  rw [hrelevance]
  by_cases hempty : relevance.isEmpty
  . refine ⟨[], ∅, ?_, ?_⟩
    . show (if relevance.isEmpty = true then _ else _) = _
      rw [if_pos hempty]
      rfl
    . rw [← hadmitted]
      rw [Std.ExtTreeMap.isEmpty_iff] at hempty
      rw [hempty]
      simp
  . obtain ⟨found, hget, hperm⟩ := h.get relevance.keys
    refine ⟨found.filter (passesFilters engine.f32 · q), relevance, ?_, ?_⟩
    . show (if relevance.isEmpty = true then _ else _) = _
      rw [if_neg hempty, hget]
      rfl
    . rw [← hadmitted]
      exact hperm.filter _

theorem attachParents_spec (h : Searches engine store s q records vectors keywords) (results : List (ScoredMemory F))
    : ∃ attached, attachParents store s q results = .ok attached
        ∧ attached.map (·.record) = results.map (·.record) := by
  unfold attachParents
  by_cases hempty : (btreeSet (results.filterMap (·.record.parentId))).isEmpty
  . exact ⟨results, if_pos hempty, rfl⟩
  . obtain ⟨found, hget, -⟩ := h.get (btreeSet (results.filterMap (·.record.parentId)))
    refine ⟨_, (if_neg hempty).trans (by rw [hget]; rfl), ?_⟩
    rw [map_map]
    apply map_congr_left
    intro x _
    rw [Function.comp_apply]
    split <;> rfl

theorem query_eq (h : Searches engine store s q records vectors keywords)
    : ∃ results, engine.query store s q = .ok results
        ∧ results.length = min (max q.limit 1)
          (admitted engine q records (hitIds q (overfetched q) vectors keywords)).length
        ∧ ∀ x ∈ results, x.record ∈ records ∧ passesFilters engine.f32 x.record q := by
  obtain ⟨found, relevance, hfused, hperm⟩ := fusedPushdown_eq h
  obtain ⟨hlength, hmem⟩ :=
    rank_spec (f := engine.f32) found (engine.applyRerank q found relevance) q engine.nowMs
  rw [hperm.length_eq] at hlength
  have hpasses : ∀ x ∈ engine.ranked q (found, relevance),
      x.record ∈ records ∧ passesFilters engine.f32 x.record q := by
    intro x hx
    have hadmitted := hperm.mem_iff.mp (hmem x hx)
    rw [admitted, mem_filter, Bool.and_eq_true] at hadmitted
    exact ⟨hadmitted.1, hadmitted.2.1⟩
  unfold query
  rw [h.pushdown, if_pos rfl, hfused]
  by_cases hparents : q.expandParents
  . obtain ⟨attached, hattached, hsame⟩ := attachParents_spec h (engine.ranked q (found, relevance))
    refine ⟨attached, ?_, ?_, ?_⟩
    . show (if q.expandParents = true then _ else _) = _
      rw [if_pos hparents, hattached]
    . have hsize := congrArg length hsame
      rw [length_map, length_map] at hsize
      rw [hsize]
      exact hlength
    . intro x hx
      have hrecord : x.record ∈ (engine.ranked q (found, relevance)).map (·.record) := by
        rw [← hsame]
        exact mem_map_of_mem hx
      obtain ⟨y, hy, hxy⟩ := mem_map.mp hrecord
      rw [← hxy]
      exact hpasses y hy
  . refine ⟨_, ?_, hlength, hpasses⟩
    show (if q.expandParents = true then _ else _) = _
    rw [if_neg hparents]
    rfl

/--
A query gives what it is asked for of the matches that pass its filters, and nothing else. It is asked for one record
at least.
-/
structure Served (engine : MemoryEngine F) (store : MemoryStore σ F) (s : σ) (q : MemoryQuery F)
    (records : List (MemoryRecord F)) (vectors keywords : List (String × F)) : Prop where
  count : ∃ results, engine.query store s q = .ok results
    ∧ results.length = min (max q.limit 1)
      (admitted engine q records (hitIds q (·.map (·.1)) vectors keywords)).length
  passing : ∀ results, engine.query store s q = .ok results →
    ∀ x ∈ results, x.record ∈ records ∧ passesFilters engine.f32 x.record q

def Enough (engine : MemoryEngine F) (q : MemoryQuery F) (records : List (MemoryRecord F))
    (vectors keywords : List (String × F)) : Prop :=
  max q.limit 1 ≤ (admitted engine q records (hitIds q (overfetched q) vectors keywords)).length
    ∨ ∀ r ∈ records, passesFilters engine.f32 r q → r.id ∈ hitIds q (·.map (·.1)) vectors keywords →
      r.id ∈ hitIds q (overfetched q) vectors keywords

theorem hitIds_subset : hitIds q (overfetched q) vectors keywords ⊆ hitIds q (·.map (·.1)) vectors keywords := by
  have htake (hits : List (String × F)) : overfetched q hits ⊆ hits.map (·.1) := by
    intro id hid
    obtain ⟨hit, hhit, rfl⟩ := mem_map.mp hid
    exact mem_map_of_mem (mem_of_mem_take hhit)
  unfold hitIds
  cases q.strategy with
  | vector => exact htake vectors
  | keyword => exact htake keywords
  | hybrid =>
    intro id hid
    rw [mem_append] at hid ⊢
    exact hid.imp (fun h => htake vectors h) (fun h => htake keywords h)

theorem admitted_sublist
    : (admitted engine q records (hitIds q (overfetched q) vectors keywords)).Sublist
        (admitted engine q records (hitIds q (·.map (·.1)) vectors keywords)) := by
  unfold admitted
  apply monotone_filter_right
  intro r hr
  rw [Bool.and_eq_true, contains_iff_mem] at hr ⊢
  exact ⟨hr.1, hitIds_subset hr.2⟩

theorem served_iff_enough (h : Searches engine store s q records vectors keywords)
    : Served engine store s q records vectors keywords ↔ Enough engine q records vectors keywords := by
  obtain ⟨results, hquery, hlength, hpasses⟩ := query_eq h
  have hsublist : (admitted engine q records (hitIds q (overfetched q) vectors keywords)).Sublist
      (admitted engine q records (hitIds q (·.map (·.1)) vectors keywords)) := admitted_sublist
  have hle := hsublist.length_le
  constructor
  . intro hserved
    obtain ⟨results', hquery', hcount⟩ := hserved.count
    rw [hquery] at hquery'
    cases hquery'
    by_cases henough : max q.limit 1 ≤ (admitted engine q records (hitIds q (overfetched q) vectors keywords)).length
    . exact .inl henough
    . right
      have hsame := hsublist.eq_of_length (by omega)
      intro r hr hpass hid
      have hadmitted : r ∈ admitted engine q records (hitIds q (·.map (·.1)) vectors keywords) := by
        rw [admitted, mem_filter, Bool.and_eq_true, contains_iff_mem]
        exact ⟨hr, hpass, hid⟩
      rw [← hsame, admitted, mem_filter, Bool.and_eq_true, contains_iff_mem] at hadmitted
      exact hadmitted.2.2
  . intro henough
    refine ⟨⟨results, hquery, ?_⟩, ?_⟩
    . cases henough with
      | inl henough => omega
      | inr hall =>
        have hsame : admitted engine q records (hitIds q (overfetched q) vectors keywords)
            = admitted engine q records (hitIds q (·.map (·.1)) vectors keywords) := by
          unfold admitted
          apply filter_congr
          intro r hr
          rw [Bool.eq_iff_iff, Bool.and_eq_true, Bool.and_eq_true, contains_iff_mem, contains_iff_mem]
          exact and_congr_right fun hpass => ⟨fun hid => hitIds_subset hid, hall r hr hpass⟩
        rw [hlength, hsame]
    . intro results' hquery'
      rw [hquery] at hquery'
      cases hquery'
      exact hpasses

def matched (s : InMemoryStore Rat) (ns : Option String) : List (String × Rat) :=
  (InMemoryStore.filterNs s.inner ns).map fun r => (r.id, 1)

def indexed : MemoryStore (InMemoryStore Rat) Rat :=
  { InMemoryStore.store with
    supportsPushdown := true
    vectorSearch := fun s ns _ k => .ok (some ((matched s ns).take k))
    keywordSearch := fun s ns _ k => .ok (some ((matched s ns).take k)) }

theorem searches_indexed (s : InMemoryStore Rat) (q : MemoryQuery Rat)
    : Searches noteTaker indexed s q s.inner (matched s q.ns) (matched s q.ns) where
  pushdown := rfl
  vector := fun _ => ⟨[1], rfl, fun _ => rfl⟩
  keyword := fun _ _ => rfl
  get := fun _ => ⟨_, rfl, .refl _⟩

def openNote : MemoryRecord Rat where
  id := "open"
  ns := "team"
  content := "note"
  importance := 0

def crowded (hidden : Nat) : InMemoryStore Rat where
  inner := (range hidden).map (fun i => { openNote with id := toString i, requiredScopes := ["secret"] }) ++ [openNote]

def notesQuery : MemoryQuery Rat :=
  { MemoryQuery.new .exact "note" with ns := some "team", strategy := .keyword }

theorem served_crowded
    : Served noteTaker indexed (crowded 2) notesQuery (crowded 2).inner (matched (crowded 2) notesQuery.ns)
        (matched (crowded 2) notesQuery.ns) := by
  apply (served_iff_enough (searches_indexed (crowded 2) notesQuery)).mpr
  right
  intro r _ _ hid
  have hall : hitIds notesQuery (overfetched notesQuery) (matched (crowded 2) notesQuery.ns)
      (matched (crowded 2) notesQuery.ns)
        = hitIds notesQuery (·.map (·.1)) (matched (crowded 2) notesQuery.ns) (matched (crowded 2) notesQuery.ns) := by
    decide
  rw [hall]
  exact hid

theorem not_served_crowded
    : ¬Served noteTaker indexed (crowded 50) notesQuery (crowded 50).inner (matched (crowded 50) notesQuery.ns)
        (matched (crowded 50) notesQuery.ns) := by
  intro h
  obtain ⟨results, hquery, hlength, -⟩ := query_eq (searches_indexed (crowded 50) notesQuery)
  obtain ⟨results', hquery', hcount⟩ := h.count
  rw [hquery] at hquery'
  cases hquery'
  rw [hlength] at hcount
  revert hcount
  decide

end

end Wovyr.Memory.MemoryEngine
