import Mathlib.Data.List.Nodup
import Wovyr.Lib.Run
import Wovyr.Workflow.Stores

/-!
This module contains when the store over files gives the same answers as the one in memory.
-/

namespace Wovyr

open Std.ExtTreeMap List

namespace Workflow

def StoreOp.Within (ids : Set String) (events : Set WorkflowEvent) (states : Set ExecutionState)
    : StoreOp → Prop
  | .append id event => id ∈ ids ∧ event ∈ events
  | .load id | .loadPage id _ _ | .latest id => id ∈ ids
  | .save snapshot => snapshot.executionId ∈ ids ∧ snapshot ∈ states
  | .list _ | .reopen => True

-- The JSON of an event is a single line, which is not blank.
def Codec.Lined (codec : Codec) : Prop :=
  ∀ event, Lines.IsLine (codec.encodeEvent event)
    ∧ FileStore.isBlank (codec.encodeEvent event) = false

structure Codec.Legible (codec : Codec) (ids : Set String) (events : Set WorkflowEvent)
    (states : Set ExecutionState) : Prop where
  stems : ∀ id ∈ ids, ∀ id' ∈ ids, FileStore.stem id = FileStore.stem id' → id = id'
  events : ∀ event ∈ events, codec.decodeEvent (codec.encodeEvent event) = .ok event
  states : ∀ s ∈ states, s.executionId ∈ ids → codec.decodeState (codec.encodeState s) = .ok s

theorem applyFilter_perm {l l' : List ExecutionState} (hperm : l.Perm l')
    (hinj : ∀ s ∈ l, ∀ t ∈ l, s.executionId = t.executionId → s = t) (filter : ExecutionFilter)
    : applyFilter l filter = applyFilter l' filter := by
  let le := fun (a b : ExecutionState) => decide (a.executionId ≤ b.executionId)
  have hsorted (l : List ExecutionState)
      : ((l.filter filter.matchesState).mergeSort le).Pairwise fun a b => le a b = true := by
    apply pairwise_mergeSort
    . intro a b c hab hbc
      simp only [le, decide_eq_true_eq] at hab hbc ⊢
      exact String.le_trans hab hbc
    . intro a b
      simp only [le, Bool.or_eq_true, decide_eq_true_eq]
      exact String.le_total _ _
  have hmem (a : ExecutionState) (l : List ExecutionState)
      (ha : a ∈ (l.filter filter.matchesState).mergeSort le) : a ∈ l :=
    mem_of_mem_filter ((mergeSort_perm _ _).mem_iff.mp ha)
  have hsame : (l.filter filter.matchesState).mergeSort le = (l'.filter filter.matchesState).mergeSort le := by
    apply List.Perm.eq_of_pairwise _ (hsorted l) (hsorted l')
    . exact (mergeSort_perm _ _).trans ((hperm.filter _).trans (mergeSort_perm _ _).symm)
    . intro a b ha hb hab hba
      simp only [le, decide_eq_true_eq] at hab hba
      exact hinj a (hmem a l ha) b (hperm.mem_iff.mpr (hmem b l' hb)) (String.le_antisymm hab hba)
  unfold applyFilter
  dsimp only
  rw [hsame]

namespace FileStore

theorem events_ne_checkpoint (id id' : String) : eventsPath id ≠ checkpointPath id' := by
  intro heq
  have hlast := congrArg (getLast? ∘ String.toList) heq
  simp [eventsPath, checkpointPath, getLast?_append] at hlast

theorem not_checkpoint_events (id : String)
    : ".checkpoint.json".toList.isSuffixOf (eventsPath id).toList = false := by
  rw [Bool.eq_false_iff]
  intro h
  obtain ⟨pre, hpre⟩ := isSuffixOf_iff_suffix.mp h
  have hlast := congrArg getLast? hpre
  simp [eventsPath, getLast?_append] at hlast

theorem checkpoint_suffix (id : String)
    : ".checkpoint.json".toList.isSuffixOf (checkpointPath id).toList = true := by
  rw [isSuffixOf_iff_suffix, checkpointPath, String.toList_append]
  exact suffix_append _ _

theorem stem_of_eventsPath {id id' : String} (h : eventsPath id = eventsPath id') : stem id = stem id' := by
  unfold eventsPath at h
  rwa [String.append_left_inj] at h

theorem stem_of_checkpointPath {id id' : String} (h : checkpointPath id = checkpointPath id')
    : stem id = stem id' := by
  unfold checkpointPath at h
  rwa [String.append_left_inj] at h

theorem loadLines_eq (dir : Std.ExtTreeMap String String) (path : String)
    : loadLines dir path = Lines.lines (dir[path]?.getD "") := by
  unfold loadLines
  cases dir[path]? with
  | none => rfl
  | some contents => rfl

section

variable {codec : Codec} {ids : Set String} {events : Set WorkflowEvent} {states : Set ExecutionState}
  {m : InMemoryStore} {f : FileStore}

structure Mirrors (codec : Codec) (ids : Set String) (events : Set WorkflowEvent)
    (states : Set ExecutionState) (f : FileStore) (m : InMemoryStore) : Prop where
  log : ∀ id ∈ ids, f.dir[eventsPath id]?.getD "" = Lines.unlines ((m.load id).map codec.encodeEvent)
  logged : ∀ id ∈ ids, ∀ event ∈ m.load id, event ∈ events
  seqs : ∀ id ∈ ids, ∀ seq, f.seqs[id]? = some seq → seq = (m.load id).length
  checkpoints : ∀ id ∈ ids, f.dir[checkpointPath id]? = (m.latest id).map codec.encodeState
  saved : ∀ id s, m.latest id = some s → s.executionId = id ∧ id ∈ ids ∧ s ∈ states
  names : ∀ name ∈ f.dir, ∃ id ∈ ids, name = eventsPath id ∨ name = checkpointPath id

theorem Mirrors.lines (hlined : codec.Lined) (h : Mirrors codec ids events states f m) {id : String}
    (hid : id ∈ ids) : loadLines f.dir (eventsPath id) = (m.load id).map codec.encodeEvent := by
  rw [loadLines_eq, h.log id hid, Lines.lines_unlines]
  intro l hl
  obtain ⟨event, -, rfl⟩ := mem_map.mp hl
  exact (hlined event).1

theorem readPage_encoded (hlined : codec.Lined) {log : List WorkflowEvent}
    (hlog : ∀ event ∈ log, codec.decodeEvent (codec.encodeEvent event) = .ok event) (limit : Nat)
    : readPage codec limit (log.map codec.encodeEvent) = .ok (log.take limit) := by
  induction log generalizing limit with
  | nil => cases limit <;> rfl
  | cons event log ih =>
    cases limit with
    | zero => rfl
    | succ limit =>
      rw [map_cons, readPage, if_neg (by simp [(hlined event).2]), hlog event mem_cons_self]
      dsimp only
      rw [ih (fun event' h => hlog event' (mem_cons_of_mem _ h))]
      rfl

theorem Mirrors.loadPage (hlined : codec.Lined) (hlegible : codec.Legible ids events states)
    (h : Mirrors codec ids events states f m) {id : String} (hid : id ∈ ids) (offset limit : Nat)
    : f.loadPage codec id offset limit = .ok (m.loadPage id offset limit) := by
  unfold FileStore.loadPage
  rw [h.lines hlined hid, ← map_drop]
  apply readPage_encoded hlined
  intro event hevent
  exact hlegible.events event (h.logged id hid event (mem_of_mem_drop hevent))

theorem Mirrors.load (hlined : codec.Lined) (hlegible : codec.Legible ids events states)
    (h : Mirrors codec ids events states f m) {id : String} (hid : id ∈ ids)
    : f.load codec id = .ok (m.load id) := by
  unfold FileStore.load
  have hfull : ((m.load id).map codec.encodeEvent).filter (fun line => !isBlank line)
      = (m.load id).map codec.encodeEvent := by
    rw [filter_eq_self]
    intro line hline
    obtain ⟨event, -, rfl⟩ := mem_map.mp hline
    rw [(hlined event).2]
    rfl
  rw [h.lines hlined hid, hfull, Fallible.mapM_map (h := fun event => event), map_id']
  intro event hevent
  exact hlegible.events event (h.logged id hid event hevent)

theorem Mirrors.latest (hlegible : codec.Legible ids events states)
    (h : Mirrors codec ids events states f m) {id : String} (hid : id ∈ ids)
    : f.latest codec id = .ok (m.latest id) := by
  unfold FileStore.latest
  rw [h.checkpoints id hid]
  cases hlatest : m.latest id with
  | none => rfl
  | some s =>
    obtain ⟨hkey, -, hs⟩ := h.saved id s hlatest
    rw [Option.map_some]
    dsimp only
    rw [hlegible.states s hs (hkey ▸ hid)]
    rfl

theorem Mirrors.append (hlined : codec.Lined) (hlegible : codec.Legible ids events states)
    (h : Mirrors codec ids events states f m) {id : String} (hid : id ∈ ids) {event : WorkflowEvent}
    (hevent : event ∈ events)
    : (f.append codec id event).1 = (m.append id event).1
        ∧ Mirrors codec ids events states (f.append codec id event).2 (m.append id event).2 := by
  have hload (id' : String) : (m.append id event).2.load id'
      = if id = id' then m.load id ++ [event] else m.load id' := by
    unfold InMemoryStore.append InMemoryStore.load
    dsimp only
    rw [Map.getElem?_insert]
    split
    . rfl
    . rfl
  have hdir (path : String) : (f.append codec id event).2.dir[path]?
      = if eventsPath id = path
        then some (Lines.unlines ((m.load id ++ [event]).map codec.encodeEvent)) else f.dir[path]? := by
    unfold FileStore.append
    dsimp only
    rw [Map.getElem?_insert, h.log id hid, map_append, map_singleton, Lines.unlines_append]
  have hlength : (m.append id event).1 = (m.load id ++ [event]).length := rfl
  have hseq : (f.append codec id event).1 = (m.append id event).1 := by
    unfold FileStore.append
    dsimp only
    rw [hlength]
    split
    next last hlast => rw [h.seqs id hid last hlast, length_append, length_singleton]
    next =>
      rw [loadLines_eq, Map.getElem?_insert, if_pos rfl, Option.getD_some, h.log id hid,
        ← Lines.unlines_append, Lines.lines_unlines]
      . simp
      . intro l hl
        rw [mem_append, mem_singleton] at hl
        rcases hl with hl | rfl
        . obtain ⟨event', -, rfl⟩ := mem_map.mp hl
          exact (hlined event').1
        . exact (hlined event).1
  refine ⟨hseq, ?_, ?_, ?_, ?_, ?_, ?_⟩
  . intro id' hid'
    rw [hdir, hload]
    by_cases heq : id = id'
    . subst heq
      rw [if_pos rfl, if_pos rfl, Option.getD_some]
    . rw [if_neg heq, if_neg, h.log id' hid']
      exact fun hpath => heq (hlegible.stems id hid id' hid' (stem_of_eventsPath hpath))
  . intro id' hid' event' hevent'
    rw [hload] at hevent'
    split at hevent'
    . rw [mem_append, mem_singleton] at hevent'
      rcases hevent' with hold | rfl
      . exact h.logged id hid event' hold
      . exact hevent
    . exact h.logged id' hid' event' hevent'
  . intro id' hid' seq hfound
    have hcached : (f.append codec id event).2.seqs[id']?
        = if id = id' then some (f.append codec id event).1 else f.seqs[id']? := by
      show (f.seqs.insert id (f.append codec id event).1)[id']? = _
      rw [Map.getElem?_insert]
    rw [hcached] at hfound
    rw [hload]
    split at hfound
    next heq =>
      cases hfound
      rw [if_pos heq, hseq, hlength]
    next hne =>
      rw [if_neg hne]
      exact h.seqs id' hid' seq hfound
  . intro id' hid'
    rw [hdir, if_neg (events_ne_checkpoint id id')]
    exact h.checkpoints id' hid'
  . exact h.saved
  . intro name hname
    unfold FileStore.append at hname
    dsimp only at hname
    rw [mem_insert, Std.LawfulEqCmp.compare_eq_iff_eq] at hname
    rcases hname with rfl | hname
    . exact ⟨id, hid, .inl rfl⟩
    . exact h.names name hname

theorem Mirrors.save (hlegible : codec.Legible ids events states) (h : Mirrors codec ids events states f m)
    {s : ExecutionState} (hid : s.executionId ∈ ids) (hs : s ∈ states)
    : Mirrors codec ids events states (f.save codec s) (m.save s) := by
  have hdir (path : String) : (f.save codec s).dir[path]?
      = if checkpointPath s.executionId = path then some (codec.encodeState s) else f.dir[path]? := by
    unfold FileStore.save
    rw [Map.getElem?_insert]
  have hlatest (id : String) : (m.save s).latest id
      = if s.executionId = id then some s else m.latest id := by
    unfold InMemoryStore.save InMemoryStore.latest
    rw [Map.getElem?_insert]
  refine ⟨?_, h.logged, h.seqs, ?_, ?_, ?_⟩
  . intro id hid'
    rw [hdir, if_neg (events_ne_checkpoint id s.executionId).symm]
    exact h.log id hid'
  . intro id hid'
    rw [hdir, hlatest]
    by_cases heq : s.executionId = id
    . subst heq
      rw [if_pos rfl, if_pos rfl, Option.map_some]
    . rw [if_neg heq, if_neg, h.checkpoints id hid']
      exact fun hpath => heq (hlegible.stems _ hid id hid' (stem_of_checkpointPath hpath))
  . intro id t ht
    rw [hlatest] at ht
    split at ht
    next heq =>
      cases ht
      exact ⟨heq, heq ▸ hid, hs⟩
    next => exact h.saved id t ht
  . intro name hname
    unfold FileStore.save at hname
    dsimp only at hname
    rw [mem_insert, Std.LawfulEqCmp.compare_eq_iff_eq] at hname
    rcases hname with rfl | hname
    . exact ⟨s.executionId, hid, .inr rfl⟩
    . exact h.names name hname

theorem Mirrors.names_perm (hlegible : codec.Legible ids events states)
    (h : Mirrors codec ids events states f m)
    : (f.dir.keys.filter (".checkpoint.json".toList.isSuffixOf ·.toList)).Perm
        (m.checkpoints.keys.map checkpointPath) := by
  have hinj : ∀ id ∈ m.checkpoints.keys, ∀ id' ∈ m.checkpoints.keys,
      checkpointPath id = checkpointPath id' → id = id' := by
    have hids (id : String) (hid : id ∈ m.checkpoints.keys) : id ∈ ids := by
      rw [Std.ExtTreeMap.mem_keys, mem_iff_isSome_getElem?] at hid
      obtain ⟨s, hs⟩ := Option.isSome_iff_exists.mp hid
      exact (h.saved id s hs).2.1
    exact fun id hid id' hid' heq => hlegible.stems id (hids id hid) id' (hids id' hid')
      (stem_of_checkpointPath heq)
  apply (perm_ext_iff_of_nodup _ _).mpr
  . intro name
    rw [List.mem_filter, Std.ExtTreeMap.mem_keys, mem_map]
    constructor
    . rintro ⟨hname, hsuffix⟩
      obtain ⟨id, hid, rfl | rfl⟩ := h.names name hname
      . rw [not_checkpoint_events] at hsuffix
        cases hsuffix
      . refine ⟨id, ?_, rfl⟩
        rw [mem_iff_isSome_getElem?, h.checkpoints id hid, Option.isSome_map] at hname
        rw [Std.ExtTreeMap.mem_keys, mem_iff_isSome_getElem?]
        exact hname
    . rintro ⟨id, hid, rfl⟩
      refine ⟨?_, checkpoint_suffix id⟩
      rw [Std.ExtTreeMap.mem_keys, mem_iff_isSome_getElem?] at hid
      obtain ⟨s, hs⟩ := Option.isSome_iff_exists.mp hid
      rw [mem_iff_isSome_getElem?, h.checkpoints id (h.saved id s hs).2.1, Option.isSome_map]
      exact hid
  . exact nodup_keys.filter _
  . exact List.Nodup.map_on hinj nodup_keys

theorem Mirrors.list (hlegible : codec.Legible ids events states)
    (h : Mirrors codec ids events states f m) (scan scan' : Scan) (filter : ExecutionFilter)
    : f.list codec scan filter = .ok (m.list scan' filter) := by
  have hread : (m.checkpoints.keys.map checkpointPath).mapM
      (fun name => codec.decodeState (f.dir[name]?.getD "")) = .ok m.checkpoints.values := by
    rw [Map.values_eq, ← map_fst_toList_eq_keys, List.map_map]
    apply Fallible.mapM_map
    rintro ⟨id, s⟩ hs
    rw [mem_toList_iff_getElem?_eq_some] at hs
    obtain ⟨hkey, hid, hstates⟩ := h.saved id s hs
    have hlatest : m.latest id = some s := hs
    dsimp only [Function.comp_apply]
    rw [h.checkpoints id hid, hlatest]
    exact hlegible.states s hstates (hkey ▸ hid)
  have hperm : (m.checkpoints.keys.map checkpointPath).Perm
      ((scan.names f.dir.keys).filter (".checkpoint.json".toList.isSuffixOf ·.toList)) :=
    (h.names_perm hlegible).symm.trans ((scan.names_perm _).filter _).symm
  obtain ⟨found, hfound, hsame⟩ := Fallible.mapM_perm hperm hread
  unfold FileStore.list InMemoryStore.list
  dsimp only
  rw [hfound]
  show Except.ok (applyFilter found filter) = _
  rw [applyFilter_perm ((scan'.entries_perm _).trans hsame)]
  intro s hs t ht heq
  rw [(scan'.entries_perm _).mem_iff, Map.mem_values] at hs ht
  obtain ⟨id, hs⟩ := hs
  obtain ⟨id', ht⟩ := ht
  have hkey := (h.saved id s hs).1
  have hkey' := (h.saved id' t ht).1
  rw [heq, hkey'] at hkey
  subst hkey
  exact Option.some.inj (hs.symm.trans ht)

theorem Mirrors.step (hlined : codec.Lined) (hlegible : codec.Legible ids events states)
    (h : Mirrors codec ids events states f m) (scan scan' : Scan) {op : StoreOp}
    (hop : op.Within ids events states)
    : (f.step codec scan op).1 = (m.step scan' op).1
        ∧ Mirrors codec ids events states (f.step codec scan op).2 (m.step scan' op).2 := by
  cases op with
  | append id event =>
    obtain ⟨hseq, hnext⟩ := h.append hlined hlegible hop.1 hop.2
    exact ⟨congrArg StoreResult.appended hseq, hnext⟩
  | load id => exact ⟨congrArg StoreResult.events (h.load hlined hlegible hop), h⟩
  | loadPage id offset limit =>
    exact ⟨congrArg StoreResult.events (h.loadPage hlined hlegible hop offset limit), h⟩
  | save snapshot => exact ⟨rfl, h.save hlegible hop.1 hop.2⟩
  | latest id => exact ⟨congrArg StoreResult.snapshot (h.latest hlegible hop), h⟩
  | list filter => exact ⟨congrArg StoreResult.snapshots (h.list hlegible scan scan' filter), h⟩
  | reopen =>
    refine ⟨rfl, h.log, h.logged, ?_, h.checkpoints, h.saved, h.names⟩
    intro id _ seq hseq
    simp [FileStore.step] at hseq

-- Over the files of an empty directory, everything is answered as it is in memory.
def Refines (codec : Codec) (ids : Set String) (events : Set WorkflowEvent) (states : Set ExecutionState)
    : Prop :=
  ∀ scan scan' ops, (∀ op ∈ ops, StoreOp.Within ids events states op) →
    answers (FileStore.step codec scan) {} ops = answers (InMemoryStore.step scan') {} ops

theorem refines_of_legible (hlined : codec.Lined) (hlegible : codec.Legible ids events states)
    : Refines codec ids events states := by
  intro scan scan' ops hops
  have hempty : Mirrors codec ids events states {} {} :=
    ⟨by simp [InMemoryStore.load, Lines.unlines], by simp [InMemoryStore.load], by simp,
      by simp [InMemoryStore.latest], by simp [InMemoryStore.latest], by simp⟩
  exact answers_eq (fun f m op h hop => h.step hlined hlegible scan scan' hop) hempty hops

theorem load_first (hlined : codec.Lined) {id id' : String} (hstem : stem id = stem id') (event : WorkflowEvent)
    : ((({} : FileStore).append codec id event).2.load codec id')
        = [codec.encodeEvent event].mapM codec.decodeEvent := by
  have hpath : eventsPath id' = eventsPath id := by
    unfold eventsPath
    rw [hstem]
  unfold FileStore.load FileStore.append
  dsimp only
  rw [hpath, loadLines_eq, Map.getElem?_insert, if_pos rfl, Option.getD_some]
  have hline : Lines.lines ((({} : FileStore).dir[eventsPath id]?).getD "" ++ codec.encodeEvent event ++ "\n")
      = [codec.encodeEvent event] := by
    have hone : Lines.lines (Lines.unlines [codec.encodeEvent event]) = [codec.encodeEvent event] :=
      Lines.lines_unlines (by simp [(hlined event).1])
    simpa [Lines.unlines] using hone
  rw [hline]
  simp [(hlined event).2]

end

end FileStore

open FileStore

/--
Over a file system that maps names to contents, the file store answers whatever is asked for executions
with these ids, of which these events and snapshots are stored, as the store in memory does, if and only
if no two of the ids have the same sanitised form and the codec gives back what is stored.
-/
theorem fileStore_refines_iff (codec : Codec) (hlined : codec.Lined) (ids : Set String)
    (events : Set WorkflowEvent) (states : Set ExecutionState) (hids : ids.Nonempty)
    (hevents : events.Nonempty)
    : Refines codec ids events states ↔ codec.Legible ids events states := by
  refine ⟨?_, refines_of_legible hlined⟩
  intro hrefines
  let still : Scan := ⟨fun l => l, fun l => l, .refl, .refl⟩
  obtain ⟨id₀, hid₀⟩ := hids
  obtain ⟨event₀, hevent₀⟩ := hevents
  have hload (id id' : String) (hid : id ∈ ids) (hid' : id' ∈ ids) (event : WorkflowEvent)
      (hevent : event ∈ events)
      : (({} : FileStore).append codec id event).2.load codec id'
        = .ok ((({} : InMemoryStore).append id event).2.load id') := by
    have hanswers := hrefines still still [.append id event, .load id'] (by
      simp [StoreOp.Within, hid, hid', hevent])
    simp only [answers, step, InMemoryStore.step, cons.injEq, StoreResult.events.injEq,
      and_true] at hanswers
    exact hanswers.2
  have hown (id id' : String) (event : WorkflowEvent)
      : (({} : InMemoryStore).append id event).2.load id' = if id = id' then [event] else [] := by
    unfold InMemoryStore.append InMemoryStore.load
    dsimp only
    rw [Map.getElem?_insert]
    split
    . simp
    . simp
  refine ⟨?_, ?_, ?_⟩
  . intro id hid id' hid' hstem
    by_contra hne
    have hlog := hload id id' hid hid' event₀ hevent₀
    rw [load_first hlined hstem, hown, if_neg hne, Fallible.mapM_cons] at hlog
    cases hdecoded : codec.decodeEvent (codec.encodeEvent event₀) with
    | error err => simp [hdecoded] at hlog
    | ok event => simp [hdecoded, Except.map, pure, Except.pure] at hlog
  . intro event hevent
    have hlog := hload id₀ id₀ hid₀ hid₀ event hevent
    rw [load_first hlined rfl, hown, if_pos rfl, Fallible.mapM_cons] at hlog
    cases hdecoded : codec.decodeEvent (codec.encodeEvent event) with
    | error err => simp [hdecoded] at hlog
    | ok event' => simpa [hdecoded, Except.map, pure, Except.pure] using hlog
  . intro s hs hid
    have hanswers := hrefines still still [.save s, .latest s.executionId] (by
      simp [StoreOp.Within, hid, hs])
    simp only [answers, step, InMemoryStore.step, cons.injEq, StoreResult.snapshot.injEq,
      and_true, true_and] at hanswers
    unfold latest save InMemoryStore.latest InMemoryStore.save at hanswers
    dsimp only at hanswers
    rw [Map.getElem?_insert, if_pos rfl, Map.getElem?_insert, if_pos rfl] at hanswers
    dsimp only at hanswers
    cases hdecoded : codec.decodeState (codec.encodeState s) with
    | error err => simp [hdecoded, Except.map] at hanswers
    | ok s' => simpa [hdecoded, Except.map] using hanswers

namespace FileStore

def placed (id : String) : ExecutionState where
  executionId := id
  workflowName := "order"
  workflowVersion := "1"
  status := .running
  vars := ∅
  activities := ∅
  completedOrder := []
  definitionHash := none
  version := 1

def validated : Codec where
  encodeEvent
    | .workflowValidated => "\x7b\"v\":1,\"type\":\"workflow_validated\"\x7d"
    | _ => "\x7b\"v\":1\x7d"
  decodeEvent line :=
    if line = "\x7b\"v\":1,\"type\":\"workflow_validated\"\x7d" then
      .ok .workflowValidated
    else
      .error (.config "missing field")
  encodeState s := s.executionId
  decodeState text := .ok (placed text)

theorem lined_validated : validated.Lined := by
  have hline (line : String) (hfeed : '\n' ∉ line.toList) (hreturn : line.toList.getLast? ≠ some '\r')
      (hblank : isBlank line = false) : Lines.IsLine line ∧ isBlank line = false :=
    ⟨⟨hfeed, hreturn⟩, hblank⟩
  intro event
  unfold validated
  dsimp only
  split
  . exact hline _ (by decide) (by decide) (by decide)
  . exact hline _ (by decide) (by decide) (by decide)

end FileStore

theorem fileStore_refines_iff_validated
    : Refines validated {"order-1", "order-2"} {.workflowValidated} {placed "order-1", placed "order-2"} := by
  apply (fileStore_refines_iff validated lined_validated _ _ _ ⟨"order-1", by simp⟩ ⟨.workflowValidated, by simp⟩).mpr
  have hstems : stem "order-1" ≠ stem "order-2" := by decide
  refine ⟨?_, ?_, ?_⟩
  . rintro id (rfl | rfl) id' (rfl | rfl) hstem
    . rfl
    . exact absurd hstem hstems
    . exact absurd hstem.symm hstems
    . rfl
  . rintro event rfl
    rfl
  . rintro s (rfl | rfl) -
    . rfl
    . rfl

theorem fileStore_mixes
    : ¬Refines validated {"order:1", "order_1"} {.workflowValidated} ∅
        ∧ (({} : FileStore).append validated "order:1" .workflowValidated).2.load
            validated "order_1" = .ok [.workflowValidated]
        ∧ (({} : InMemoryStore).append "order:1" .workflowValidated).2.load "order_1" = [] := by
  have hfile : (({} : FileStore).append validated "order:1" .workflowValidated).2.load
      validated "order_1" = .ok [.workflowValidated] := by
    decide
  have hmemory : (({} : InMemoryStore).append "order:1" .workflowValidated).2.load "order_1" = [] := by
    decide
  refine ⟨?_, hfile, hmemory⟩
  intro hrefines
  let still : Scan := ⟨fun l => l, fun l => l, .refl, .refl⟩
  have hanswers := hrefines still still [.append "order:1" .workflowValidated, .load "order_1"] (by
    simp [StoreOp.Within])
  simp only [answers, step, InMemoryStore.step, cons.injEq, StoreResult.events.injEq, hfile,
    hmemory, Except.ok.injEq] at hanswers
  exact absurd hanswers.2.1 (by simp)

end Wovyr.Workflow
