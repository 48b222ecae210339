import Wovyr.Server.Ui.Activity
import Wovyr.Ui.Acceptance

/-!
This module contains what the stored form of a frame says about where the frame comes from: the activities of
type `ui` stamp it, a frame without a workflow is not stamped at all.
-/

namespace Wovyr.Server.Ui

open Wovyr.Ui Workflow Server.Workflows

theorem find?_of_nodup_keys {fields : List (String × Value)} (h : (fields.map Prod.fst).Nodup)
    {key : String} {value : Value} (hmem : (key, value) ∈ fields)
    : fields.find? (·.1 == key) = some (key, value) := by
  have := @find?_eq_of_nodup _ (fun field : String × Value => some field.1) fields (key, value) key
    (by simpa [List.filterMap_eq_map'] using h) hmem rfl
  simpa using this

theorem field?_record {fields : List (String × Value)} (h : (fields.map Prod.fst).Nodup) (key : String)
    : field? key (record fields) = (fields.find? (·.1 == key)).map Prod.snd := by
  have hperm := Json.perm_sortFields fields
  have hsorted : ((Json.sortFields fields).map Prod.fst).Nodup := (hperm.map _).nodup_iff.mpr h
  simp only [record, field?]
  congr 1
  cases hfind : fields.find? (·.1 == key) with
  | none =>
    rw [List.find?_eq_none] at hfind ⊢
    intro field hfield
    exact hfind field (hperm.mem_iff.mp hfield)
  | some field =>
    obtain ⟨name, value⟩ := field
    have hname := List.find?_some hfind
    rw [beq_iff_eq] at hname
    subst hname
    apply find?_of_nodup_keys hsorted
    exact hperm.mem_iff.mpr (List.mem_of_find?_eq_some hfind)

theorem keys_optional {α : Type} (key : String) (encode : α → Value) (o : Option α)
    : ((Wovyr.Ui.optional key encode o).map Prod.fst).Sublist [key] := by
  cases o <;> simp [Wovyr.Ui.optional]

theorem find?_optional {α : Type} (name key : String) (encode : α → Value) (o : Option α)
    : (Wovyr.Ui.optional name encode o).find? (·.1 == key)
        =
      if name = key then o.map fun a => (name, encode a) else none := by
  cases o with
  | none => simp [Wovyr.Ui.optional]
  | some a => by_cases h : name = key <;> simp [Wovyr.Ui.optional, h]

def provenanceKeys : List String :=
  ["execution_id", "activity_id", "run_id", "model_id", "prompt_ref"]

def provenanceOf (p : Provenance) (key : String) : Option String :=
  if key = "execution_id" then p.executionId
  else if key = "activity_id" then p.activityId
  else if key = "run_id" then p.runId
  else if key = "model_id" then p.modelId
  else if key = "prompt_ref" then p.promptRef
  else none

theorem provenance_ext {p p' : Provenance}
    (h : ∀ key ∈ provenanceKeys, provenanceOf p key = provenanceOf p' key) : p = p' := by
  simp [provenanceKeys, provenanceOf] at h
  cases p
  cases p'
  simp_all

-- A field of the origin that a stored frame names.
def provenanceField (key : String) (frame : Value) : Option Value :=
  (field? "provenance" frame).bind (field? key)

theorem field?_provenance (p : Provenance)
    : ∀ key ∈ provenanceKeys, field? key p.toValue = (provenanceOf p key).map .string := by
  have hnodup : (((Wovyr.Ui.optional "execution_id" .string p.executionId
      ++ Wovyr.Ui.optional "activity_id" .string p.activityId
      ++ Wovyr.Ui.optional "run_id" .string p.runId ++ Wovyr.Ui.optional "model_id" .string p.modelId
      ++ Wovyr.Ui.optional "prompt_ref" .string p.promptRef).map Prod.fst) : List String).Nodup := by
    have hkeys : provenanceKeys.Nodup := by decide
    refine List.Nodup.sublist ?_ hkeys
    simp only [List.map_append]
    exact ((((keys_optional _ _ _).append (keys_optional _ _ _)).append (keys_optional _ _ _)).append
      (keys_optional _ _ _)).append (keys_optional _ _ _)
  intro key hkey
  rw [Provenance.toValue, field?_record hnodup]
  simp only [List.find?_append, find?_optional]
  simp only [provenanceKeys, List.mem_cons, List.not_mem_nil, or_false] at hkey
  rcases hkey with rfl | rfl | rfl | rfl | rfl <;> simp [provenanceOf] <;> rfl

theorem field?_frame (frame : UiFrame)
    : field? "provenance" frame.toValue
        =
      if frame.provenance = {} then none else some frame.provenance.toValue := by
  have hnodup : (([("schema_version", .string frame.schemaVersion)]
      ++ Wovyr.Ui.optional "title" .string frame.title
      ++ (if frame.provenance = {} then [] else [("provenance", frame.provenance.toValue)])
      ++ [("root", frame.root.toValue)] : List (String × Value)).map Prod.fst).Nodup := by
    have hkeys : ["schema_version", "title", "provenance", "root"].Nodup := by decide
    refine List.Nodup.sublist ?_ hkeys
    simp only [List.map_append]
    show (["schema_version"] ++ _ ++ _ ++ ["root"]).Sublist
      (["schema_version"] ++ ["title"] ++ ["provenance"] ++ ["root"])
    refine (((List.Sublist.refl _).append (keys_optional _ _ _)).append ?_).append (List.Sublist.refl _)
    split <;> simp
  rw [UiFrame.toValue, field?_record hnodup]
  simp only [List.find?_append, find?_optional]
  by_cases hempty : frame.provenance = {} <;> simp [hempty]

theorem provenanceField_toValue (frame : UiFrame) {key : String} (hkey : key ∈ provenanceKeys)
    : provenanceField key frame.toValue = (provenanceOf frame.provenance key).map .string := by
  rw [provenanceField, field?_frame]
  split
  . next hempty => simp [hempty, provenanceOf]
  . exact field?_provenance frame.provenance key hkey

inductive Path where
  | activity (executionId activityId : String)
  | standalone
deriving DecidableEq, Repr

namespace Path

def stamp : Path → Provenance → Provenance
  | .activity executionId activityId, p =>
    { p with executionId := some executionId, activityId := some activityId }
  | .standalone, p => p

def stamped : Path → Provenance
  | .activity executionId activityId =>
    { executionId := some executionId, activityId := some activityId }
  | .standalone => {}

def kept : Path → Provenance → Provenance
  | .activity _ _, p => { p with executionId := none, activityId := none }
  | .standalone, p => p

theorem stamp_eq_iff (path : Path) (p p' : Provenance)
    : path.stamp p = path.stamp p' ↔ path.kept p = path.kept p' := by
  cases path <;> simp [stamp, kept]

end Path

def RuntimeOnly (path : Path) (frame : Value) : Prop :=
  ∀ key ∈ provenanceKeys, provenanceField key frame = none
    ∨ ∃ value, provenanceOf path.stamped key = some value
        ∧ provenanceField key frame = some (.string value)

theorem runtimeOnly_iff (path : Path) (frame : UiFrame) {p : Provenance}
    (h : frame.provenance = path.stamp p) : RuntimeOnly path frame.toValue ↔ path.kept p = {} := by
  have hkeys : RuntimeOnly path frame.toValue
      ↔ ∀ key ∈ provenanceKeys, provenanceOf (path.stamp p) key = none
        ∨ provenanceOf (path.stamp p) key = provenanceOf path.stamped key := by
    apply forall₂_congr
    intro key hkey
    rw [provenanceField_toValue frame hkey, h]
    cases provenanceOf (path.stamp p) key <;> cases provenanceOf path.stamped key <;>
      simp [eq_comm]
  rw [hkeys]
  cases p
  cases path <;> simp [Path.stamp, Path.stamped, Path.kept, provenanceKeys, provenanceOf]

section

variable {ι : Type} (srv : UiHost ι)

inductive Submitted (tenant : String) : Path → Value → PendingFrame → Prop where
  | activity (desk : UiDesk ι) (ctx : ActivityContext) (executionId : String) (value : Value)
      (pending : PendingFrame) (hexecution : executionIdOf ctx = some executionId)
      (htenant : ((ctx.vars["__tenant"]?).bind asStr).getD defaultTenant = tenant)
      (hframe : field? "frame" ctx.inputs = some value)
      (hstored : (srv.parts.executeUiActivity desk ctx).executor.stored = desk.stored ++ [pending])
      : Submitted tenant (.activity executionId ctx.id) value pending
  | standalone (s t : AppState (UiDesk ι)) (value : Value) (pending : PendingFrame)
      (hpresented : presentStandalone srv tenant value s = (.ok pending, t))
      : Submitted tenant .standalone value pending

variable {srv}

theorem judged_of_submitted {tenant : String} {path : Path} {value : Value} {pending : PendingFrame}
    (h : Submitted srv tenant path value pending)
    : ∃ shown policyRef,
      srv.parts.runtime.judgeFrame srv.parts.unicode srv.parts.decode tenant value path.stamp
          = some (.ok (shown, policyRef))
        ∧ pending.frame = shown.toValue ∧ pending.frameHash = srv.parts.hash shown := by
  cases h with
  | activity desk ctx executionId value pending hexecution htenant hframe hstored =>
    unfold UiParts.executeUiActivity at hstored
    have hsame (desk' : UiDesk ι) (h : desk'.stored = desk.stored)
        : desk'.stored ≠ desk.stored ++ [pending] := by
      rw [h]
      simp
    split at hstored
    . split at hstored
      . exact absurd hstored (hsame _ rfl)
      . exact absurd hstored (hsame _ rfl)
    . rw [hexecution] at hstored
      simp only [htenant, hframe] at hstored
      split at hstored
      . exact absurd hstored (hsame _ rfl)
      . exact absurd hstored (hsame _ rfl)
      . next shown policyRef hjudge =>
        refine ⟨shown, policyRef, hjudge, ?_⟩
        unfold UiParts.present at hstored
        dsimp only at hstored
        split at hstored
        . exact absurd hstored (hsame _ rfl)
        . unfold UiDesk.upsert at hstored
          dsimp only at hstored
          split at hstored
          . cases List.append_cancel_left hstored
            exact ⟨rfl, rfl⟩
          . exact absurd hstored (hsame _ rfl)
  | standalone s t value pending hpresented =>
    unfold presentStandalone at hpresented
    obtain ⟨desk, _, -, hpresented⟩ := Prog.of_bind_ok hpresented
    obtain ⟨_, _, -, hpresented⟩ := Prog.of_bind_ok hpresented
    cases hjudge : srv.parts.runtime.judgeFrame srv.parts.unicode srv.parts.decode tenant value id with
    | none =>
      rw [hjudge] at hpresented
      cases hpresented
    | some judged =>
      rw [hjudge] at hpresented
      cases judged with
      | error e => cases hpresented
      | ok shown =>
        obtain ⟨_, _, -, hpresented⟩ := Prog.of_bind_ok hpresented
        cases hpresented
        exact ⟨shown.1, shown.2, hjudge, rfl, rfl⟩

end

section

variable (u : Unicode)

def shownUnder (source : PolicySource) (frame : UiFrame) : Option UiFrame :=
  (UiRuntime.verdictOf u source frame).bind fun verdict => verdict.1.shown frame

def stampedWith (p : Provenance) (frame : UiFrame) : UiFrame :=
  { frame with provenance := p }

theorem verdict_shown {p : Provenance} {frame : UiFrame} {verdict : Verdict} (h : verdict.isBlock = true)
    : verdict.shown (stampedWith p frame) = (verdict.shown frame).map (stampedWith p) := by
  cases verdict with
  | block rule reason => rfl
  | allow => cases h
  | redact redacted rules => cases h

theorem shown_evaluate (policy : UiPolicy) (p : Provenance) (frame : UiFrame)
    : (evaluate u policy (stampedWith p frame)).bind (·.shown (stampedWith p frame))
        =
      ((evaluate u policy frame).bind (·.shown frame)).map (stampedWith p) := by
  have hblocked : blocked u policy (stampedWith p frame) = blocked u policy frame := rfl
  unfold evaluate
  rw [hblocked]
  cases h : blocked u policy frame with
  | some verdict => exact verdict_shown (isBlock_of_blocked u h)
  | none =>
    dsimp only
    by_cases hpatterns : policy.rules.redactTextPatterns = []
    . rw [if_pos hpatterns, if_pos hpatterns]
      rfl
    . rw [if_neg hpatterns, if_neg hpatterns]
      have hroot : (stampedWith p frame).root = frame.root := rfl
      rw [hroot]
      cases redactNode u policy.rules.redactTextPatterns frame.root with
      | none => rfl
      | some redacted =>
        obtain ⟨root, hit⟩ := redacted
        cases hit <;> rfl

theorem shownUnder_stampedWith (source : PolicySource) (p : Provenance) (frame : UiFrame)
    : shownUnder u source (stampedWith p frame) = (shownUnder u source frame).map (stampedWith p) := by
  cases source with
  | unrestricted => rfl
  | floor =>
    show (hostedFloor frame).shown (stampedWith p frame) = _
    have hfloor : shownUnder u .floor frame = (hostedFloor frame).shown frame := rfl
    rw [hfloor]
    unfold hostedFloor
    split <;> rfl
  | policy policy =>
    have hpolicy (frame : UiFrame)
        : shownUnder u (.policy policy) frame = (evaluate u policy frame).bind (·.shown frame) := by
      unfold shownUnder UiRuntime.verdictOf
      dsimp only
      cases evaluate u policy frame <;> rfl
    rw [hpolicy, hpolicy]
    exact shown_evaluate u policy p frame

end

section

variable {ι : Type} {srv : UiHost ι}

theorem content_of_submitted {tenant : String} {path : Path} {value : Value} {pending : PendingFrame}
    {authored : UiFrame} (h : Submitted srv tenant path value pending)
    (hauthored : srv.parts.decode value = .ok authored)
    : ∃ source content, srv.parts.runtime.policyFor srv.parts.unicode tenant = .ok source
        ∧ shownUnder srv.parts.unicode source (stampedWith {} authored) = some content
        ∧ pending.frame = (stampedWith (path.stamp authored.provenance) content).toValue
        ∧ pending.frameHash = srv.parts.hash (stampedWith (path.stamp authored.provenance) content) := by
  obtain ⟨shown, policyRef, hjudge, hframe, hhash⟩ := judged_of_submitted h
  obtain ⟨frame, source, verdict, hvalue, hsource, hverdict, hshown⟩ :=
    (judgeFrame_eq_ok _ _).mp hjudge
  have hdecoded := ((fromValue_eq_ok _).mp hvalue).1
  rw [hauthored, Except.ok.injEq] at hdecoded
  subst hdecoded
  have hunder : shownUnder srv.parts.unicode source
      (stampedWith (path.stamp authored.provenance) (stampedWith {} authored)) = some shown := by
    unfold shownUnder
    rw [Option.bind_eq_some_iff]
    exact ⟨_, hverdict, hshown⟩
  rw [shownUnder_stampedWith, Option.map_eq_some_iff] at hunder
  obtain ⟨content, hcontent, rfl⟩ := hunder
  exact ⟨source, content, hsource, hcontent, hframe, hhash⟩

end

-- What of its author's block a path does not stamp is stored.
theorem provenance_stored {ι : Type} (srv : UiHost ι) (tenant : String) (path : Path) (value : Value)
    (pending : PendingFrame) (authored : UiFrame)
    (hsubmitted : Submitted srv tenant path value pending)
    (hauthored : srv.parts.decode value = .ok authored)
    : (RuntimeOnly path pending.frame ↔ path.kept authored.provenance = {})
        ∧
      ∀ (value' : Value) (pending' : PendingFrame) (p : Provenance),
        Submitted srv tenant path value' pending' →
        srv.parts.decode value' = .ok { authored with provenance := p } →
        (pending.frame = pending'.frame ∧ pending.frameHash = pending'.frameHash
          ↔ path.kept authored.provenance = path.kept p) := by
  obtain ⟨source, content, hsource, hcontent, hframe, hhash⟩ :=
    content_of_submitted hsubmitted hauthored
  constructor
  . rw [hframe]
    exact runtimeOnly_iff path _ rfl
  . intro value' pending' p hsubmitted' hauthored'
    obtain ⟨source', content', hsource', hcontent', hframe', hhash'⟩ :=
      content_of_submitted hsubmitted' hauthored'
    rw [hsource, Except.ok.injEq] at hsource'
    subst hsource'
    have hsame : stampedWith {} { authored with provenance := p } = stampedWith {} authored := rfl
    rw [hsame, hcontent, Option.some.injEq] at hcontent'
    subst hcontent'
    rw [hframe, hframe', hhash, hhash', ← Path.stamp_eq_iff]
    dsimp only
    constructor
    . rintro ⟨heq, -⟩
      apply provenance_ext
      intro key hkey
      have hfield := congrArg (provenanceField key) heq
      rw [provenanceField_toValue _ hkey, provenanceField_toValue _ hkey] at hfield
      exact Option.map_injective (fun _ _ => Value.string.inj) hfield
    . intro heq
      rw [heq]
      exact ⟨rfl, rfl⟩

namespace Release

def frame (provenance : Provenance) : UiFrame where
  schemaVersion := "1.0.0"
  title := none
  provenance
  root := .column [.text "Ship it?" .body, .button "ship" "Ship" .approve]

def readProvenance (value : Value) : Provenance where
  executionId := (provenanceField "execution_id" value).bind asStr
  activityId := (provenanceField "activity_id" value).bind asStr
  runId := (provenanceField "run_id" value).bind asStr
  modelId := (provenanceField "model_id" value).bind asStr
  promptRef := (provenanceField "prompt_ref" value).bind asStr

def read (value : Value) : Except String UiFrame :=
  if value = (frame (readProvenance value)).toValue then
    .ok (frame (readProvenance value))
  else
    .error "missing field `root`"

theorem read_frame (p : Provenance) : read (frame p).toValue = .ok (frame p) := by
  have hfield (o : Option String) : (o.map Value.string).bind asStr = o := by cases o <;> rfl
  have hread : readProvenance (frame p).toValue = p := by
    apply provenance_ext
    intro key hkey
    have hvalue (key : String) (h : key ∈ provenanceKeys)
        : (provenanceField key (frame p).toValue).bind asStr = provenanceOf p key := by
      rw [provenanceField_toValue (frame p) h]
      exact hfield _
    have hreads : ∀ key ∈ provenanceKeys, provenanceOf (readProvenance (frame p).toValue) key
        = (provenanceField key (frame p).toValue).bind asStr := by
      simp [provenanceKeys, provenanceOf, readProvenance]
    rw [hreads key hkey, hvalue key hkey]
  simp [read, hread]

def parts : UiParts Unit where
  unicode := .asciiOnly
  decode := read
  f64 := exactFloat64
  writeF64 := Platform.integral.writeF64
  sha := List.take 8
  runtime := { unrestricted := true }
  inner _ _ := { executor := (), progress := [], reply := .output .null }

def host : UiHost Unit where
  parts
  host := {
    engine := {
      platform := .integral
      backend := .file
      execute := parts.execute
      nowMillis _ := 0
      timers := true
      subworkflows := none }
    noChildren := rfl
    admins := none
    parseYaml _ := .error "no manifest" }
  wired := rfl

def byAuthor : Provenance where
  runId := some "run-17"
  modelId := some "gpt-x"

def forged : Provenance where
  executionId := some "exec-9"
  activityId := some "pay"

def other : Provenance where
  activityId := some "refund"

def context (p : Provenance) : ActivityContext where
  id := "ship"
  activityType := "ui"
  name := none
  inputs := .object [("frame", (frame p).toValue)]
  vars := Std.ExtTreeMap.insert ∅ "__execution_id" (.string "exec-1")
  attempt := 1

def pending (p : Provenance) : PendingFrame where
  frameId := frameIdFor parts.sha "exec-1" "ship"
  tenant := defaultTenant
  executionId := some "exec-1"
  activityId := some "ship"
  frame := (frame ((Path.activity "exec-1" "ship").stamp p)).toValue
  frameHash := parts.hash (frame ((Path.activity "exec-1" "ship").stamp p))
  policyRef := "unrestricted"
  createdAtMs := 0

theorem validate_frame (p : Provenance) : (frame p).validate = .ok () := by
  have hplain : (frame {}).validate = .ok () := by decide
  rwa [← validate_stamp (frame {}) p] at hplain

theorem judge_frame (p : Provenance) (stamp : Provenance → Provenance)
    : host.parts.runtime.judgeFrame host.parts.unicode host.parts.decode defaultTenant (frame p).toValue
          stamp
        =
      some (.ok (frame (stamp p), "unrestricted")) := by
  rw [judgeFrame_eq_ok]
  refine ⟨frame p, .unrestricted, .allow, ?_, rfl, rfl, rfl⟩
  exact (fromValue_eq_ok _).mpr ⟨read_frame p, validate_frame p⟩

theorem submitted (p : Provenance)
    : Submitted host defaultTenant (.activity "exec-1" "ship") (frame p).toValue (pending p) := by
  have hvars (key : String) (h : "__execution_id" ≠ key) : (context p).vars[key]? = none := by
    simp [context, h]
  have hexecution : executionIdOf (context p) = some "exec-1" := by
    simp [executionIdOf, context, asStr]
  have htenant : (((context p).vars["__tenant"]?).bind asStr).getD defaultTenant = defaultTenant := by
    rw [hvars "__tenant" (by decide)]
    rfl
  have hframe : field? "frame" (context p).inputs = some (frame p).toValue := by
    simp [context, field?]
  apply Submitted.activity { inner := () } (context p) "exec-1" _ _ hexecution htenant hframe
  have hundecided : ((context p).vars[(context p).id]?).or (context p).vars["event." ++ (context p).id]?
      = none := by
    rw [hvars _ (by simp [context]), hvars _ (by simp [context])]
    rfl
  have hactions (q : Provenance) : (frame q).actions ≠ [] := by
    simp [frame, UiFrame.actions, UiFrame.nodes, collect, collectAll, UiNode.button?]
  unfold UiParts.executeUiActivity
  rw [hundecided, hexecution]
  dsimp only
  rw [htenant, hframe]
  dsimp only
  rw [judge_frame]
  dsimp only
  unfold UiParts.present
  dsimp only
  rw [if_neg (hactions _)]
  simp [UiDesk.upsert, UiFrameStore.isFresh]
  rfl

end Release

open Release

theorem run_id_stored
    : Submitted host defaultTenant (.activity "exec-1" "ship")
          (frame byAuthor).toValue (pending byAuthor)
        ∧ provenanceField "run_id" (pending byAuthor).frame = some (.string "run-17")
        ∧ ¬RuntimeOnly (.activity "exec-1" "ship") (pending byAuthor).frame := by
  have hfield : provenanceField "run_id" (pending byAuthor).frame
      = some (.string "run-17") := by
    exact provenanceField_toValue _ (by decide)
  refine ⟨submitted _, hfield, ?_⟩
  intro h
  rcases h "run_id" (by decide) with hnone | ⟨value, hstamped, -⟩
  . rw [hfield] at hnone
    cases hnone
  . cases hstamped

theorem provenance_stored_forged
    : provenanceField "execution_id" (frame forged).toValue = some (.string "exec-9")
        ∧ provenanceField "execution_id" (pending forged).frame = some (.string "exec-1")
        ∧ RuntimeOnly (.activity "exec-1" "ship") (pending forged).frame
        ∧ (pending forged).frame = (pending other).frame
        ∧ (pending forged).frameHash = (pending other).frameHash := by
  have hexact := provenance_stored host defaultTenant (.activity "exec-1" "ship")
    (frame forged).toValue (pending forged) (frame forged)
    (submitted _) (read_frame forged)
  refine ⟨provenanceField_toValue _ (by decide), provenanceField_toValue _ (by decide), hexact.1.mpr rfl, ?_⟩
  exact (hexact.2 _ _ other (submitted other) (read_frame other)).mpr rfl

end Wovyr.Server.Ui
