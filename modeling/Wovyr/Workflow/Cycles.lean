import Wovyr.Lib.Acyclic
import Wovyr.Lib.Map
import Wovyr.Workflow.Definition

/-!
This module contains the proof that the cycle check of a definition is exact: the counters of the algorithm
are the numbers of transitions from activities that are not visited yet.
-/

namespace Wovyr.Workflow.Definition

open List

section

variable (transitions : List Transition)

def Edge (a b : String) : Prop :=
  ∃ t ∈ transitions, t.source = a ∧ t.target = b

def lowerChecked (indegree : Std.ExtTreeMap String Nat) (queue : List String)
    : List Transition → Option (Std.ExtTreeMap String Nat × List String)
  | [] => some (indegree, queue)
  | t :: rest =>
    match indegree[t.target]? with
    | some (degree + 1) =>
      lowerChecked (indegree.insert t.target degree) (if degree = 0 then t.target :: queue else queue) rest
    | _ => none

-- The loop, which has no result either if the rounds do not suffice.
def kahnChecked : Nat → Std.ExtTreeMap String Nat → List String → Nat → Option Nat
  | 0, _, _, _ => none
  | _ + 1, _, [], visited => some visited
  | rounds + 1, indegree, node :: queue, visited =>
    (lowerChecked indegree queue (transitions.filter (·.source == node))).bind fun (indegree, queue) =>
      kahnChecked rounds indegree queue (visited + 1)

def inDegree (done : List String) (id : String) : Nat :=
  transitions.countP fun t => t.target = id && t.source ∉ done

end

section

variable {transitions : List Transition}

theorem lower_of_lowerChecked {indegree indegree' : Std.ExtTreeMap String Nat} {queue queue' : List String}
    {ts : List Transition} (h : lowerChecked indegree queue ts = some (indegree', queue'))
    : lower indegree queue ts = (indegree', queue') := by
  induction ts generalizing indegree queue with
  | nil =>
    cases h
    rfl
  | cons t ts ih =>
    unfold lowerChecked at h
    split at h
    next degree hdegree =>
      unfold lower
      rw [hdegree]
      exact ih h
    next => cases h

theorem visited_le {rounds visited visited' : Nat} {indegree : Std.ExtTreeMap String Nat} {queue : List String}
    (h : kahnChecked transitions rounds indegree queue visited = some visited') : visited ≤ visited' := by
  induction rounds generalizing indegree queue visited with
  | zero => cases h
  | succ rounds ih =>
    cases queue with
    | nil =>
      cases h
      exact Nat.le_refl _
    | cons node queue =>
      obtain ⟨next, -, hrest⟩ := Option.bind_eq_some_iff.mp h
      exact (Nat.le_succ _).trans (ih hrest)

theorem kahn_of_kahnChecked {rounds visited visited' gas : Nat} {indegree : Std.ExtTreeMap String Nat}
    {queue : List String} (h : kahnChecked transitions rounds indegree queue visited = some visited')
    (hgas : visited' ≤ visited + gas) : kahn transitions gas indegree queue visited = visited' := by
  induction rounds generalizing indegree queue visited gas with
  | zero => cases h
  | succ rounds ih =>
    cases queue with
    | nil =>
      cases h
      cases gas with
      | zero => rfl
      | succ gas => rfl
    | cons node queue =>
      obtain ⟨⟨indegree', queue'⟩, hlower, hrest⟩ := Option.bind_eq_some_iff.mp h
      have hle := visited_le hrest
      cases gas with
      | zero => omega
      | succ gas =>
        unfold kahn
        rw [lower_of_lowerChecked hlower]
        exact ih hrest (by omega)

/--
Between two rounds, the activities that are visited have no predecessor left, those in the queue are the others
without one, and the counters are the numbers of predecessors that are left.
-/
structure Progress (transitions : List Transition) (ids : List String) (indegree : Std.ExtTreeMap String Nat)
    (queue done : List String) : Prop where
  nodup : (queue ++ done).Nodup
  within : ∀ id ∈ queue ++ done, id ∈ ids
  counts : ∀ id ∈ ids, indegree[id]? = some (inDegree transitions done id)
  zero : ∀ id ∈ ids, id ∈ queue ++ done ↔ inDegree transitions done id = 0
  acc : ∀ id ∈ done, Acc (Edge transitions) id

-- The counters in the middle of a round: the transitions `ts` from the visited activity are still counted.
structure Lowering (transitions : List Transition) (ids : List String) (indegree : Std.ExtTreeMap String Nat)
    (queue done : List String) (ts : List Transition) : Prop where
  nodup : (queue ++ done).Nodup
  within : ∀ id ∈ queue ++ done, id ∈ ids
  counts : ∀ id ∈ ids,
    indegree[id]? = some (inDegree transitions done id + ts.countP fun t => t.target = id)
  zero : ∀ id ∈ ids, id ∈ queue ++ done ↔ inDegree transitions done id + (ts.countP fun t => t.target = id) = 0

theorem lowerChecked_spec {ids done : List String} {ts : List Transition} (htargets : ∀ t ∈ ts, t.target ∈ ids)
    {indegree : Std.ExtTreeMap String Nat} {queue : List String}
    (h : Lowering transitions ids indegree queue done ts)
    : ∃ indegree' queue', lowerChecked indegree queue ts = some (indegree', queue')
        ∧ Lowering transitions ids indegree' queue' done [] := by
  induction ts generalizing indegree queue with
  | nil => exact ⟨indegree, queue, rfl, h⟩
  | cons t ts ih =>
    have htarget := htargets t mem_cons_self
    have hcount (id : String) : (t :: ts).countP (fun t => t.target = id)
        = ts.countP (fun t => t.target = id) + if t.target = id then 1 else 0 := by
      rw [countP_cons]
      simp
    have hdegree := h.counts t.target htarget
    rw [hcount, if_pos rfl, ← Nat.add_assoc] at hdegree
    have hfresh : t.target ∉ queue ++ done := by
      intro hmem
      have := (h.zero t.target htarget).mp hmem
      rw [hcount, if_pos rfl] at this
      omega
    unfold lowerChecked
    rw [hdegree]
    dsimp only
    apply ih (fun t' ht' => htargets t' (mem_cons_of_mem _ ht'))
    generalize hrest : inDegree transitions done t.target + ts.countP (fun t' => t'.target = t.target) = degree
    refine ⟨?_, ?_, ?_, ?_⟩
    . split
      . exact nodup_cons.mpr ⟨hfresh, h.nodup⟩
      . exact h.nodup
    . intro id hid
      split at hid
      . cases mem_cons.mp hid with
        | inl heq => exact heq ▸ htarget
        | inr hid => exact h.within id hid
      . exact h.within id hid
    . intro id hid
      rw [Map.getElem?_insert]
      by_cases heq : t.target = id
      . subst heq
        rw [if_pos rfl, hrest]
      . rw [if_neg heq, h.counts id hid, hcount, if_neg heq, Nat.add_zero]
    . intro id hid
      by_cases heq : t.target = id
      . subst heq
        rw [hrest]
        by_cases hzero : degree = 0
        . rw [if_pos hzero]
          exact iff_of_true mem_cons_self hzero
        . rw [if_neg hzero]
          exact iff_of_false hfresh hzero
      . have hiff := h.zero id hid
        rw [hcount, if_neg heq, Nat.add_zero] at hiff
        rw [← hiff]
        split
        . rw [cons_append, mem_cons, or_iff_right (Ne.symm heq)]
        . rfl

theorem inDegree_visit {done : List String} {node : String} (hfresh : node ∉ done) (id : String)
    : inDegree transitions (node :: done) id
        + ((transitions.filter (·.source == node)).countP fun t => t.target = id) = inDegree transitions done id := by
  unfold inDegree
  induction transitions with
  | nil => rfl
  | cons t ts ih =>
    rw [filter_cons, countP_cons, countP_cons, ← ih]
    by_cases hsource : t.source = node
    . by_cases htarget : t.target = id
      . simp [hsource, htarget, hfresh]
        omega
      . simp [hsource, htarget]
    . simp [hsource]
      omega

theorem inDegree_eq_zero {done : List String} {id : String}
    : inDegree transitions done id = 0 ↔ ∀ t ∈ transitions, t.target = id → t.source ∈ done := by
  unfold inDegree
  rw [countP_eq_zero]
  simp

theorem Progress.length_le {ids : List String} {indegree : Std.ExtTreeMap String Nat} {queue done : List String}
    (h : Progress transitions ids indegree queue done) : queue.length + done.length ≤ ids.length := by
  rw [← length_append]
  exact (subperm_of_subset h.nodup h.within).length_le

theorem Progress.round {ids : List String} (htargets : ∀ t ∈ transitions, t.target ∈ ids)
    {indegree : Std.ExtTreeMap String Nat} {node : String} {queue done : List String}
    (h : Progress transitions ids indegree (node :: queue) done)
    : ∃ indegree' queue',
        lowerChecked indegree queue (transitions.filter (·.source == node)) = some (indegree', queue')
          ∧ Progress transitions ids indegree' queue' (node :: done) := by
  have hperm : (queue ++ node :: done).Perm (node :: queue ++ done) := perm_middle
  have hfresh : node ∉ done := by
    have hnodup := hperm.nodup_iff.mpr h.nodup
    exact (nodup_cons.mp (nodup_append.mp hnodup).2.1).1
  have hlowering : Lowering transitions ids indegree queue (node :: done) (transitions.filter (·.source == node)) := by
    refine ⟨hperm.nodup_iff.mpr h.nodup, ?_, ?_, ?_⟩
    . intro id hid
      exact h.within id (hperm.mem_iff.mp hid)
    . intro id hid
      rw [inDegree_visit hfresh]
      exact h.counts id hid
    . intro id hid
      rw [inDegree_visit hfresh, hperm.mem_iff]
      exact h.zero id hid
  obtain ⟨indegree', queue', hlower, hdone⟩ :=
    lowerChecked_spec (fun t ht => htargets t (mem_of_mem_filter ht)) hlowering
  refine ⟨indegree', queue', hlower, hdone.nodup, hdone.within, ?_, ?_, ?_⟩
  . intro id hid
    simpa using hdone.counts id hid
  . intro id hid
    simpa using hdone.zero id hid
  . intro id hid
    cases mem_cons.mp hid with
    | inr hid => exact h.acc id hid
    | inl heq =>
      subst heq
      have hnode := (h.zero id (h.within id mem_cons_self)).mp mem_cons_self
      constructor
      rintro source ⟨t, ht, rfl, htarget⟩
      exact h.acc t.source ((inDegree_eq_zero).mp hnode t ht htarget)

theorem Progress.run {ids : List String} (htargets : ∀ t ∈ transitions, t.target ∈ ids) {rounds : Nat}
    {indegree : Std.ExtTreeMap String Nat} {queue done : List String}
    (h : Progress transitions ids indegree queue done) (hrounds : ids.length < rounds + done.length)
    : ∃ indegree' done', kahnChecked transitions rounds indegree queue done.length = some done'.length
        ∧ Progress transitions ids indegree' [] done' := by
  induction rounds generalizing indegree queue done with
  | zero =>
    have := h.length_le
    omega
  | succ rounds ih =>
    cases queue with
    | nil => exact ⟨indegree, done, rfl, h⟩
    | cons node queue =>
      obtain ⟨indegree', queue', hlower, hnext⟩ := h.round htargets
      obtain ⟨indegree'', done'', hrun, hend⟩ := ih hnext (by rw [length_cons]; omega)
      refine ⟨indegree'', done'', ?_, hend⟩
      unfold kahnChecked
      rw [hlower]
      exact hrun

theorem Progress.all_visited_iff {ids : List String} (hnodup : ids.Nodup)
    (hedges : ∀ t ∈ transitions, t.source ∈ ids ∧ t.target ∈ ids) {indegree : Std.ExtTreeMap String Nat}
    {done : List String} (h : Progress transitions ids indegree [] done)
    : done.length = ids.length ↔ Acyclic (Edge transitions) := by
  constructor
  . intro hlength
    have hall : ids ⊆ done :=
      ((subperm_of_subset h.nodup h.within).perm_of_length_le hlength.ge).symm.subset
    apply Acyclic.of_acc
    rintro a b ⟨t, ht, rfl, rfl⟩
    exact h.acc t.target (hall (hedges t ht).2)
  . intro hacyclic
    have hall : ids ⊆ done := by
      by_contra hsome
      obtain ⟨left, hleft, hnot⟩ := Set.not_subset.mp hsome
      -- Of the activities that are left, one has no predecessor among them.
      obtain ⟨id, ⟨hid, hiddone⟩, hfirst⟩ := hacyclic.exists_unreferenced (s := { id | id ∈ ids ∧ id ∉ done })
        ((finite_toSet ids).subset fun id h => h.1) ⟨left, hleft, hnot⟩
      apply hiddone
      rw [← nil_append done, h.zero id hid, inDegree_eq_zero]
      intro t ht htarget
      by_contra hsource
      exact hfirst t.source ⟨(hedges t ht).1, hsource⟩ ⟨t, ht, rfl, htarget⟩
    exact Nat.le_antisymm (by simpa using h.length_le) (subperm_of_subset hnodup hall).length_le

end

theorem getElem?_foldl_zero (ids : List String) (degrees : Std.ExtTreeMap String Nat) (id : String)
    : (ids.foldl (fun degrees id => degrees.insert id 0) degrees)[id]?
        = if id ∈ ids then some 0 else degrees[id]? := by
  induction ids generalizing degrees with
  | nil => rfl
  | cons first ids ih =>
    rw [foldl_cons, ih, Map.getElem?_insert]
    by_cases hid : id ∈ ids
    . rw [if_pos hid, if_pos (mem_cons_of_mem _ hid)]
    . rw [if_neg hid]
      by_cases heq : first = id
      . rw [if_pos heq, if_pos (by rw [heq]; exact mem_cons_self)]
      . rw [if_neg heq, if_neg]
        rw [mem_cons, not_or]
        exact ⟨Ne.symm heq, hid⟩

theorem getElem?_foldl_count (ts : List Transition) {degrees : Std.ExtTreeMap String Nat} {id : String} {n : Nat}
    (h : degrees[id]? = some n)
    : (ts.foldl (fun degrees t => degrees.insert t.target (degrees[t.target]?.getD 0 + 1)) degrees)[id]?
        = some (n + ts.countP fun t => t.target = id) := by
  induction ts generalizing degrees n with
  | nil => exact h
  | cons t ts ih =>
    have hnext : (degrees.insert t.target (degrees[t.target]?.getD 0 + 1))[id]?
        = some (n + if t.target = id then 1 else 0) := by
      rw [Map.getElem?_insert]
      by_cases heq : t.target = id
      . rw [if_pos heq, if_pos heq, heq, h]
        rfl
      . rw [if_neg heq, if_neg heq, h, Nat.add_zero]
    rw [foldl_cons, ih hnext, countP_cons]
    simp only [decide_eq_true_eq, Option.some.injEq]
    omega

def ids (d : Definition) : List String :=
  d.spec.activities.map (·.id)

theorem getElem?_foldl_notMem (ts : List Transition) {degrees : Std.ExtTreeMap String Nat} {id : String}
    (h : ∀ t ∈ ts, t.target ≠ id)
    : (ts.foldl (fun degrees t => degrees.insert t.target (degrees[t.target]?.getD 0 + 1)) degrees)[id]?
        = degrees[id]? := by
  induction ts generalizing degrees with
  | nil => rfl
  | cons t ts ih =>
    rw [foldl_cons, ih (fun t' ht' => h t' (mem_cons_of_mem _ ht')), Map.getElem?_insert,
      if_neg (h t mem_cons_self)]

theorem foldl_activities (d : Definition)
    : d.spec.activities.foldl (fun degrees a => degrees.insert a.id 0) (∅ : Std.ExtTreeMap String Nat)
        = d.ids.foldl (fun degrees id => degrees.insert id 0) ∅ := by
  unfold ids
  rw [foldl_map]

theorem getElem?_indegrees {d : Definition} {id : String} (hid : id ∈ d.ids)
    : d.indegrees[id]? = some (inDegree d.spec.transitions [] id) := by
  unfold indegrees
  rw [foldl_activities, getElem?_foldl_count (n := 0)]
  . rw [Nat.zero_add]
    unfold inDegree
    simp
  . rw [getElem?_foldl_zero, if_pos hid]

theorem mem_ids_of_indegrees {d : Definition} (hedges : ∀ t ∈ d.spec.transitions, t.target ∈ d.ids) {id : String}
    {n : Nat} (h : d.indegrees[id]? = some n) : id ∈ d.ids := by
  by_contra hid
  unfold indegrees at h
  rw [foldl_activities, getElem?_foldl_notMem, getElem?_foldl_zero, if_neg hid] at h
  . cases h
  . rintro t ht rfl
    exact hid (hedges t ht)

def initialQueue (d : Definition) : List String :=
  ((d.indegrees.toList.filter (·.2 == 0)).map Prod.fst).reverse

theorem mem_initialQueue {d : Definition} {id : String} : id ∈ d.initialQueue ↔ d.indegrees[id]? = some 0 := by
  unfold initialQueue
  rw [mem_reverse, mem_map]
  constructor
  . rintro ⟨⟨key, n⟩, hmem, rfl⟩
    rw [mem_filter, Std.ExtTreeMap.mem_toList_iff_getElem?_eq_some, beq_iff_eq] at hmem
    exact hmem.1.trans (congrArg some hmem.2)
  . intro h
    refine ⟨(id, 0), ?_, rfl⟩
    rw [mem_filter, Std.ExtTreeMap.mem_toList_iff_getElem?_eq_some]
    exact ⟨h, rfl⟩

theorem progress_initial {d : Definition} (hedges : ∀ t ∈ d.spec.transitions, t.target ∈ d.ids)
    : Progress d.spec.transitions d.ids d.indegrees d.initialQueue [] := by
  refine ⟨?_, ?_, ?_, ?_, forall_mem_nil _⟩
  . rw [append_nil]
    unfold initialQueue
    rw [nodup_reverse]
    have hkeys : (d.indegrees.toList.map Prod.fst).Nodup := by
      rw [Std.ExtTreeMap.map_fst_toList_eq_keys]
      exact Std.ExtTreeMap.nodup_keys
    exact hkeys.sublist (filter_sublist.map Prod.fst)
  . intro id hid
    rw [append_nil, mem_initialQueue] at hid
    exact mem_ids_of_indegrees hedges hid
  . intro id hid
    exact getElem?_indegrees hid
  . intro id hid
    rw [append_nil, mem_initialQueue, getElem?_indegrees hid, Option.some.injEq]

/--
For activities with unique ids and transitions between them, the cycle check accepts the definition exactly if
the transitions have no cycle, and its loop comes to an end without a counter that underflows.
-/
theorem checkAcyclic_exact (d : Definition) (hnodup : d.ids.Nodup)
    (hedges : ∀ t ∈ d.spec.transitions, t.source ∈ d.ids ∧ t.target ∈ d.ids)
    : (d.checkAcyclic = .ok () ↔ Acyclic (Edge d.spec.transitions))
        ∧ ∃ visited, kahnChecked d.spec.transitions (d.spec.activities.length + 1) d.indegrees d.initialQueue 0
            = some visited
          ∧ kahn d.spec.transitions d.spec.activities.length d.indegrees d.initialQueue 0 = visited := by
  have hlength : d.ids.length = d.spec.activities.length := length_map _
  have hrounds : d.ids.length < d.spec.activities.length + 1 + ([] : List String).length := by
    rw [hlength, length_nil]
    omega
  obtain ⟨indegree, done, hrun, hend⟩ :=
    (progress_initial fun t ht => (hedges t ht).2).run (fun t ht => (hedges t ht).2) hrounds
  have hle : done.length ≤ d.spec.activities.length := by
    rw [← hlength]
    simpa using hend.length_le
  have hkahn := kahn_of_kahnChecked hrun ((Nat.zero_add d.spec.activities.length).symm ▸ hle)
  refine ⟨?_, done.length, hrun, hkahn⟩
  rw [← hend.all_visited_iff hnodup hedges, hlength]
  unfold checkAcyclic
  dsimp only
  show (if kahn d.spec.transitions d.spec.activities.length d.indegrees d.initialQueue 0 ≠ _ then _ else _) = _ ↔ _
  rw [show kahn d.spec.transitions d.spec.activities.length d.indegrees d.initialQueue 0 = done.length from hkahn]
  split
  next hne => exact iff_of_false nofun hne
  next heq => exact iff_of_true rfl (not_not.mp heq)

namespace Diamond

def definition : Definition where
  metadata := { name := "diamond" }
  spec := {
    activities := ["a", "b", "c", "d"].map fun id => { id, activityType := "function" }
    transitions := [("a", "b"), ("a", "c"), ("a", "c"), ("b", "d"), ("c", "d")].map fun (source, target) =>
      { source, target } }

end Diamond

theorem checkAcyclic_exact_diamond
    : Diamond.definition.checkAcyclic = .ok () ∧ Acyclic (Edge Diamond.definition.spec.transitions) := by
  have hexact := checkAcyclic_exact Diamond.definition (by decide) (by decide)
  have hok : Diamond.definition.checkAcyclic = .ok () := by decide
  exact ⟨hok, hexact.1.mp hok⟩

end Wovyr.Workflow.Definition
