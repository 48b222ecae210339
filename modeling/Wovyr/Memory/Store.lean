import Std.Data.String.ToNat
import Wovyr.Common
import Wovyr.Lib.Map
import Wovyr.Lib.Prog
import Wovyr.Memory.Record

/-!
This module contains the stores of memory records: in memory, in files and behind encryption. Reading
and writing a file does not fail, and the JSON of a record is the record.
-/

namespace Wovyr.Memory

variable {σ F : Type}

def makeId (ns : String) (seq : Nat) : String :=
  "mem-" ++ ns ++ "-" ++ toString seq

theorem makeId_inj {ns ns' : String} {n n' : Nat} (h : makeId ns n = makeId ns' n')
    : ns = ns' ∧ n = n' := by
  have hdigits (n : Nat) : '-' ∉ (toString n).toList := by
    intro hmem
    have hdigit := Nat.isDigit_of_mem_toDigits (by omega) (by omega)
      (show '-' ∈ Nat.toDigits 10 n by simpa using hmem)
    simp [Char.isDigit] at hdigit
  have htail : ns ++ "-" ++ toString n = ns' ++ "-" ++ toString n' := by
    unfold makeId at h
    simpa only [String.append_assoc, String.append_right_inj] using h
  rcases (Text.joined_eq_iff (by rfl) _ _ _ _).mp htail with ⟨rfl, hn⟩ | ⟨x, -, hn⟩ | ⟨x, -, hn⟩
  . exact ⟨rfl, Nat.repr_injective hn⟩
  . exact absurd (by simp [hn]) (hdigits n)
  . exact absurd (by simp [hn]) (hdigits n')

namespace MemoryRecord

variable (r x c : MemoryRecord F)

def stamp (seq : Nat) : MemoryRecord F :=
  { r with seq, id := makeId r.ns seq }

structure Stored : Prop where
  eq : x = { r with id := x.id, seq := x.seq, content := x.content }
  plain : r.sensitive = false → x.content = r.content

structure Read : Prop where
  eq : c = { x with content := c.content }
  plain : x.sensitive = false → c = x

variable {r x c}

theorem stored_stamp (seq : Nat) : r.Stored (r.stamp seq) := by
  constructor
  . rfl
  . exact fun _ => rfl

theorem read_self : x.Read x := by
  constructor
  . rfl
  . exact fun _ => rfl

end MemoryRecord

/--
The trait of the stores. `put` gives the record as it is stored, where the source gives the id of it.
The last fields say what the trait promises.
-/
structure MemoryStore (σ F : Type) where
  put : MemoryRecord F → Prog σ Error (MemoryRecord F)
  all : σ → Option String → Except Error (List (MemoryRecord F))
  get : σ → List String → Except Error (List (MemoryRecord F)) :=
    fun s ids => (all s none).map (List.filter fun r => ids.contains r.id)
  delete : List String → Prog σ Error Unit
  update : MemoryRecord F → Prog σ Error Unit
  supportsPushdown : Bool := false
  vectorSearch : σ → Option String → List F → Nat → Except Error (Option (List (String × F))) :=
    fun _ _ _ _ => .ok none
  keywordSearch : σ → Option String → String → Nat → Except Error (Option (List (String × F))) :=
    fun _ _ _ _ => .ok none
  records : σ → List (MemoryRecord F)
  -- The id that the next record of a namespace gets.
  nextId : σ → String → String
  put_ok : ∀ r s x t, put r s = (.ok x, t) →
    r.Stored x ∧ x.id = nextId s r.ns ∧ (records t).Perm (x :: records s)
  put_state : ∀ r s o t, put r s = (o, t) → (∀ x, o ≠ .ok x) → t = s
  all_ok : ∀ s ns rs, all s ns = .ok rs → ∀ c ∈ rs, ∃ x ∈ records s, x.Read c
  delete_subperm : ∀ ids s, (records (delete ids s).2).Subperm (records s)
  delete_keeps : ∀ ids s, ∀ x ∈ records s, x.id ∉ ids → x ∈ records (delete ids s).2
  update_ids : ∀ r s, ((records (update r s).2).map (·.id)).Perm ((records s).map (·.id))

def replace (record : MemoryRecord F) (records : List (MemoryRecord F))
    : Option (List (MemoryRecord F)) :=
  (records.findIdx? fun r => r.id == record.id).map fun i => records.set i record

theorem map_id_replace {record : MemoryRecord F} {records records' : List (MemoryRecord F)}
    (h : replace record records = some records')
    : records'.map (·.id) = records.map (·.id) := by
  unfold replace at h
  obtain ⟨i, hi, rfl⟩ := Option.map_eq_some_iff.mp h
  obtain ⟨hlt, hid, -⟩ := List.findIdx?_eq_some_iff_getElem.mp hi
  rw [List.map_set]
  apply List.ext_getElem
  . simp
  . intro j hj hj'
    rw [List.getElem_set]
    split
    . next heq =>
      subst heq
      simpa using (beq_iff_eq.mp hid).symm
    . rfl

def notFoundForUpdate (record : MemoryRecord F) : Error :=
  .notFound s!"memory record `{record.id}` not found for update"

structure InMemoryStore (F : Type) where
  inner : List (MemoryRecord F) := []

namespace InMemoryStore

def put (record : MemoryRecord F) : Prog (InMemoryStore F) Error (MemoryRecord F) := fun s =>
  let record := record.stamp (s.inner.length + 1)
  (.ok record, { inner := s.inner ++ [record] })

def filterNs (records : List (MemoryRecord F)) : Option String → List (MemoryRecord F)
  | some ns => records.filter (·.ns == ns)
  | none => records

def all (s : InMemoryStore F) (ns : Option String) : Except Error (List (MemoryRecord F)) :=
  .ok (filterNs s.inner ns)

def delete (ids : List String) : Prog (InMemoryStore F) Error Unit :=
  Prog.modify fun s => { inner := s.inner.filter fun r => !ids.contains r.id }

def update (record : MemoryRecord F) : Prog (InMemoryStore F) Error Unit := fun s =>
  match replace record s.inner with
  | some inner => (.ok (), { inner })
  | none => (.err (notFoundForUpdate record), s)

def store : MemoryStore (InMemoryStore F) F where
  put := put
  all := all
  delete := delete
  update := update
  records := inner
  nextId s ns := makeId ns (s.inner.length + 1)
  put_ok := by
    rintro r s x t ⟨⟩
    exact ⟨MemoryRecord.stored_stamp _, rfl, List.perm_append_singleton _ _⟩
  put_state := by
    rintro r s o t ⟨⟩ h
    exact absurd rfl (h _)
  all_ok := by
    rintro s ns rs ⟨⟩ c hc
    refine ⟨c, ?_, MemoryRecord.read_self⟩
    cases ns with
    | none => exact hc
    | some ns => exact (List.mem_filter.mp hc).1
  delete_subperm := by
    intro ids s
    exact List.filter_sublist.subperm
  delete_keeps := by
    intro ids s x hx hid
    apply List.mem_filter.mpr
    simpa using ⟨hx, hid⟩
  update_ids := by
    intro r s
    unfold update
    split
    . next inner h => rw [map_id_replace h]
    . exact .refl _

end InMemoryStore

structure Directory where
  read : List String → List String
  perm : ∀ names, (read names).Perm names

structure FileStore (F : Type) where
  files : Std.ExtTreeMap String (List (MemoryRecord F)) := ∅

namespace FileStore

def stem (ns : String) : String :=
  String.ofList (ns.toList.map fun c => if c.isAlphanum || c == '-' || c == '_' then c else '_')

def readNs (s : FileStore F) (stem : String) : List (MemoryRecord F) :=
  (s.files[stem]?).getD []

def put (record : MemoryRecord F) : Prog (FileStore F) Error (MemoryRecord F) := fun s =>
  let records := s.readNs (stem record.ns)
  let record := record.stamp (records.length + 1)
  (.ok record, { files := s.files.insert (stem record.ns) (records ++ [record]) })

-- The file `.jsonl` has no extension, so it is not found in the directory.
def isListed (stem : String) : Bool :=
  stem != ""

def all (dir : Directory) (s : FileStore F) : Option String → Except Error (List (MemoryRecord F))
  | some ns => .ok (s.readNs (stem ns))
  | none => .ok (((dir.read s.files.keys).filter isListed).flatMap s.readNs)

def kept (ids : List String) (stem : String) (records : List (MemoryRecord F)) : List (MemoryRecord F) :=
  if isListed stem && records.any (fun r => ids.contains r.id) then
    records.filter fun r => !ids.contains r.id
  else
    records

def delete (ids : List String) : Prog (FileStore F) Error Unit :=
  Prog.modify fun s => { files := s.files.map (kept ids) }

def update (record : MemoryRecord F) : Prog (FileStore F) Error Unit := fun s =>
  match replace record (s.readNs (stem record.ns)) with
  | some records => (.ok (), { files := s.files.insert (stem record.ns) records })
  | none => (.err (notFoundForUpdate record), s)

def records (s : FileStore F) : List (MemoryRecord F) :=
  s.files.toList.flatMap (·.2)

theorem mem_records {s : FileStore F} {stem : String} {r : MemoryRecord F} (h : r ∈ s.readNs stem)
    : r ∈ s.records := by
  unfold readNs at h
  cases hfile : s.files[stem]? with
  | none => simp [hfile] at h
  | some file =>
    rw [hfile] at h
    apply List.mem_flatMap.mpr
    exact ⟨(stem, file), Std.ExtTreeMap.mem_toList_iff_getElem?_eq_some.mpr hfile, h⟩

theorem records_insert (s : FileStore F) (stem : String)
    : ∃ rest, s.records.Perm (s.readNs stem ++ rest)
        ∧ ∀ file, ({ files := s.files.insert stem file } : FileStore F).records.Perm (file ++ rest) := by
  refine ⟨(s.files.erase stem).toList.flatMap (·.2), ?_, ?_⟩
  . unfold records readNs
    cases hfile : s.files[stem]? with
    | some file => exact (Map.toList_perm_erase hfile).flatMap_right _
    | none =>
      have herase : s.files.erase stem = s.files := by
        apply Std.ExtTreeMap.ext_getElem?
        intro k
        rw [Map.getElem?_erase]
        split
        . next heq => rw [← heq, hfile]
        . rfl
      simp [herase]
  . intro file
    exact (Map.toList_insert_perm s.files stem file).flatMap_right _

theorem kept_sublist (ids : List String) (stem : String) (records : List (MemoryRecord F))
    : (kept ids stem records).Sublist records := by
  unfold kept
  split
  . exact List.filter_sublist
  . exact .refl _

theorem mem_kept {ids : List String} {stem : String} {records : List (MemoryRecord F)}
    {r : MemoryRecord F} (h : r ∈ records) (hid : r.id ∉ ids) : r ∈ kept ids stem records := by
  unfold kept
  split
  . simp [h, hid]
  . exact h

def store (dir : Directory) : MemoryStore (FileStore F) F where
  put := put
  all := all dir
  delete := delete
  update := update
  records := records
  nextId s ns := makeId ns ((s.readNs (stem ns)).length + 1)
  put_ok := by
    rintro r s x t ⟨⟩
    refine ⟨MemoryRecord.stored_stamp _, rfl, ?_⟩
    obtain ⟨rest, hold, hnew⟩ := s.records_insert (stem r.ns)
    apply (hnew _).trans
    rw [List.append_assoc]
    exact List.perm_middle.trans (hold.symm.cons _)
  put_state := by
    rintro r s o t ⟨⟩ h
    exact absurd rfl (h _)
  all_ok := by
    rintro s ns rs hrs c hc
    refine ⟨c, ?_, MemoryRecord.read_self⟩
    cases ns with
    | some ns =>
      cases hrs
      exact mem_records hc
    | none =>
      cases hrs
      obtain ⟨stem, -, hmem⟩ := List.mem_flatMap.mp hc
      exact mem_records hmem
  delete_subperm := by
    intro ids s
    show ((s.files.map (kept ids)).toList.flatMap (·.2)).Subperm _
    rw [Std.ExtTreeMap.toList_map, List.flatMap_map]
    apply List.Sublist.subperm
    unfold records
    induction s.files.toList with
    | nil => exact .refl _
    | cons file files ih => exact (kept_sublist ids _ _).append ih
  delete_keeps := by
    intro ids s x hx hid
    show x ∈ (s.files.map (kept ids)).toList.flatMap (·.2)
    rw [Std.ExtTreeMap.toList_map, List.flatMap_map]
    obtain ⟨file, hfile, hmem⟩ := List.mem_flatMap.mp hx
    exact List.mem_flatMap.mpr ⟨file, hfile, mem_kept hmem hid⟩
  update_ids := by
    intro r s
    unfold update
    split
    . next file h =>
      obtain ⟨rest, hold, hnew⟩ := s.records_insert (stem r.ns)
      apply ((hnew file).map _).trans
      rw [List.map_append, map_id_replace h, ← List.map_append]
      exact (hold.map _).symm
    . exact .refl _

end FileStore

-- `envelope::seal` and `open` through the KMS, for a tenant, with the sealed data as JSON.
structure Envelope where
  sealData : String → String → Except Error String
  openData : String → String → Except Error String

namespace EncryptingMemoryStore

variable (envelope : Envelope) (inner : MemoryStore σ F)

def sealIfSensitive (record : MemoryRecord F) : Except Error (MemoryRecord F) :=
  if record.sensitive then
    (envelope.sealData record.ns record.content).map fun content => { record with content }
  else
    .ok record

def unsealIfSensitive (record : MemoryRecord F) : Except Error (MemoryRecord F) :=
  if record.sensitive then
    (envelope.openData record.ns record.content).map fun content => { record with content }
  else
    .ok record

def put (record : MemoryRecord F) : Prog σ Error (MemoryRecord F) := do
  let sealed ← Prog.ofExcept (sealIfSensitive envelope record)
  inner.put sealed

def all (s : σ) (ns : Option String) : Except Error (List (MemoryRecord F)) := do
  let records ← inner.all s ns
  records.mapM (unsealIfSensitive envelope)

def get (s : σ) (ids : List String) : Except Error (List (MemoryRecord F)) := do
  let records ← inner.get s ids
  records.mapM (unsealIfSensitive envelope)

def update (record : MemoryRecord F) : Prog σ Error Unit := do
  let sealed ← Prog.ofExcept (sealIfSensitive envelope record)
  inner.update sealed

variable {envelope inner} {r x c : MemoryRecord F}

theorem stored_sealIfSensitive {r' : MemoryRecord F} (h : sealIfSensitive envelope r = .ok r')
    (hstored : r'.Stored x) : r.Stored x := by
  obtain ⟨heq, hplain⟩ := hstored
  unfold sealIfSensitive at h
  split at h
  . next hsensitive =>
    cases hdata : envelope.sealData r.ns r.content with
    | error e => simp [hdata, Except.map] at h
    | ok content =>
      simp only [hdata, Except.map, Except.ok.injEq] at h
      subst h
      constructor
      . exact heq
      . simp [hsensitive]
  . cases h
    exact ⟨heq, hplain⟩

theorem read_unsealIfSensitive {c' : MemoryRecord F} (h : unsealIfSensitive envelope c = .ok c')
    (hread : x.Read c) : x.Read c' := by
  obtain ⟨heq, hplain⟩ := hread
  unfold unsealIfSensitive at h
  split at h
  . next hsensitive =>
    cases hdata : envelope.openData c.ns c.content with
    | error e => simp [hdata, Except.map] at h
    | ok content =>
      simp only [hdata, Except.map, Except.ok.injEq] at h
      subst h
      rw [heq] at hsensitive ⊢
      constructor
      . rfl
      . intro hnot
        simp [hnot] at hsensitive
  . cases h
    exact ⟨heq, hplain⟩

variable (envelope inner)

def store : MemoryStore σ F where
  put := put envelope inner
  all := all envelope inner
  get := get envelope inner
  delete := inner.delete
  update := update envelope inner
  records := inner.records
  nextId := inner.nextId
  put_ok := by
    intro r s x t h
    unfold put at h
    cases hsealed : sealIfSensitive envelope r with
    | error e =>
      rw [hsealed] at h
      cases h
    | ok r' =>
      rw [hsealed] at h
      obtain ⟨hstored, hid, hperm⟩ := inner.put_ok r' s x t h
      have hstored' := stored_sealIfSensitive hsealed hstored
      refine ⟨hstored', ?_, hperm⟩
      rw [hid, show r'.ns = x.ns by rw [hstored.eq], show r.ns = x.ns by rw [hstored'.eq]]
  put_state := by
    intro r s o t h ho
    unfold put at h
    cases hsealed : sealIfSensitive envelope r with
    | error e =>
      rw [hsealed] at h
      cases h
      rfl
    | ok r' =>
      rw [hsealed] at h
      exact inner.put_state r' s o t h ho
  all_ok := by
    intro s ns rs h c hc
    unfold all at h
    cases hinner : inner.all s ns with
    | error e =>
      rw [hinner] at h
      cases h
    | ok records =>
      rw [hinner] at h
      obtain ⟨c', hc', hopen⟩ := Fallible.exists_of_mapM h c hc
      obtain ⟨x, hx, hread⟩ := inner.all_ok s ns records hinner c' hc'
      exact ⟨x, hx, read_unsealIfSensitive hopen hread⟩
  delete_subperm := inner.delete_subperm
  delete_keeps := inner.delete_keeps
  update_ids := by
    intro r s
    unfold update
    cases hsealed : sealIfSensitive envelope r with
    | error e => exact .refl _
    | ok r' => exact inner.update_ids r' s

end Wovyr.Memory.EncryptingMemoryStore
