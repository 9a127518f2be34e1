import Nodepilot.Machine.Trial
import Nodepilot.Safety.LifeCycle
import Nodepilot.Safety.Resume

/-!
# Typed jobs and the records they stand for

The scheduler is modelled on jobs whose fields have their declared types, and a state
file that is a copy of the job list.  The program has neither: the fields of a job hold
whatever the queue file had there, and the state file is a JSON document.  This module
is the bridge.  A record represents a typed job if each of its fields holds the value
of the job's (`Represents`); an assignment to a field keeps that (`Represents.set`), and
all that a move does to a job is a series of assignments (`Turn.assigns`).  So every run
on typed jobs is one on records (`runs_on_records`), whose state file `save_state` can
write and `load_state` reads back as the very copy that the typed run has kept.
-/

namespace Nodepilot

open Obeys Relation Trees

/-! ## Representation -/

/-- A number, written with or without a decimal point. -/
inductive IsNumber : Value → ℚ → Prop
  | int (n : ℤ) : IsNumber (.leaf (.int n)) n
  | float (x : ℚ) : IsNumber (.leaf (.float (.finite x))) x

/-- The value of a field of a job, which has the type that is declared for it. -/
def Stores (job : Job) (v : Value) : JobField → Prop
  | .id => v = .leaf (.str job.id)
  | .command => v = .leaf (.str job.command)
  | .cores => v = .leaf (.int job.cores)
  | .ramGb => IsNumber v job.ramGb
  | .maxcore => v = .leaf (.int job.maxcore)
  | .nprocs => v = .leaf (.int job.nprocs)
  | .dependsOn => v = .list (job.dependsOn.map fun dep => .leaf (.str dep))
  | .priority => v = .leaf (.int job.priority)
  | .exclusive => v = .leaf (.bool job.exclusive)
  | .workdir => v = .leaf (.str job.workdir)
  | .env => v = .dict (job.env.map fun entry => (.str entry.1, .leaf (.str entry.2)))
  | .status => v = .leaf (.str job.status.text)
  | .session => v = .leaf (.str job.session)
  | .cpuList => v = .leaf (.str job.cpuList)
  | .numaNode => v = .leaf (.int job.numaNode)
  | .startTime => IsNumber v job.startTime
  | .endTime => IsNumber v job.endTime
  | .failureReason => v = .leaf (.str job.failureReason)
  | .exitCode => v = .leaf (job.exitCode.elim .none .int)
  | .metadata => True

/-- A record of a job. -/
def Represents (record : JobRecord) (job : Job) : Prop :=
  ∀ field, Stores job (record.get field) field

theorem IsNumber.unique {v : Value} {x y : ℚ} (hx : IsNumber v x) (hy : IsNumber v y) : x = y := by
  cases hx with
  | int n => cases hy; rfl
  | float x => cases hy; rfl

theorem JobStatus.text_injective {a b : JobStatus} (h : a.text = b.text) : a = b := by
  cases a <;> cases b <;> first | rfl | exact absurd h (by decide)

theorem elim_int_injective {a b : Option ℤ} (h : a.elim Scalar.none .int = b.elim Scalar.none .int) :
    a = b := by
  cases a <;> cases b <;> simp_all

/-- A record represents one job only. -/
theorem Represents.unique {record : JobRecord} {a b : Job} (ha : Represents record a)
    (hb : Represents record b) : a = b := by
  have hstr : ∀ {v : Value} {s t : String}, v = .leaf (.str s) → v = .leaf (.str t) → s = t := by
    rintro v s t rfl ht
    simpa using ht
  have hint : ∀ {v : Value} {m n : ℤ}, v = .leaf (.int m) → v = .leaf (.int n) → m = n := by
    rintro v m n rfl hn
    simpa using hn
  have hdeps : a.dependsOn = b.dependsOn := by
    have h := (ha .dependsOn).symm.trans (hb .dependsOn)
    rw [Tree.list.injEq] at h
    exact List.map_injective_iff.mpr (fun s t hst => by simpa using hst) h
  have henv : a.env = b.env := by
    have h := (ha .env).symm.trans (hb .env)
    rw [Tree.dict.injEq] at h
    refine List.map_injective_iff.mpr (fun s t hst => ?_) h
    simp only [Prod.mk.injEq, Scalar.str.injEq, Tree.leaf.injEq] at hst
    exact Prod.ext hst.1 hst.2
  have hexclusive : a.exclusive = b.exclusive := by
    have h := (ha .exclusive).symm.trans (hb .exclusive)
    simpa using h
  have hcode : a.exitCode = b.exitCode := by
    have h := (ha .exitCode).symm.trans (hb .exitCode)
    rw [Tree.leaf.injEq] at h
    exact elim_int_injective h
  have hstatus : a.status = b.status :=
    JobStatus.text_injective (hstr (ha .status) (hb .status))
  have hid := hstr (ha .id) (hb .id)
  have hcommand := hstr (ha .command) (hb .command)
  have hcores := hint (ha .cores) (hb .cores)
  have hram := (ha .ramGb).unique (hb .ramGb)
  have hmaxcore := hint (ha .maxcore) (hb .maxcore)
  have hnprocs := hint (ha .nprocs) (hb .nprocs)
  have hpriority := hint (ha .priority) (hb .priority)
  have hworkdir := hstr (ha .workdir) (hb .workdir)
  have hsession := hstr (ha .session) (hb .session)
  have hcpus := hstr (ha .cpuList) (hb .cpuList)
  have hnode := hint (ha .numaNode) (hb .numaNode)
  have hstart := (ha .startTime).unique (hb .startTime)
  have hend := (ha .endTime).unique (hb .endTime)
  have hreason := hstr (ha .failureReason) (hb .failureReason)
  cases a
  cases b
  simp_all

/-! ## Assignments -/

/-- An assignment to a typed job; no field of it has a place for a surrogate. -/
def Assignment.apply (job : Job) : Assignment → Job
  | status state => { job with status := state }
  | session (.text name) => { job with session := name }
  | cpuList cpus => { job with cpuList := cpus }
  | numaNode node => { job with numaNode := node }
  | startTime now => { job with startTime := now }
  | endTime now => { job with endTime := now }
  | failureReason (.text reason) => { job with failureReason := reason }
  | exitCode rc => { job with exitCode := rc }
  | session (.surrogates _) | failureReason (.surrogates _) => job

/-- The text of the assignment is without surrogates. -/
def Assignment.typed : Assignment → Bool
  | session (.surrogates _) | failureReason (.surrogates _) => false
  | _ => true

/-- It leaves the other fields as they are. -/
theorem Stores.apply {job : Job} {v : Value} {field : JobField} (h : Stores job v field)
    {a : Assignment} (hne : field ≠ a.field) : Stores (a.apply job) v field := by
  cases a with
  | session name => cases name <;> cases field <;> first | exact h | exact absurd rfl hne
  | failureReason reason => cases reason <;> cases field <;> first | exact h | exact absurd rfl hne
  | _ => cases field <;> first | exact h | exact absurd rfl hne

theorem Stores.assigned (job : Job) {a : Assignment} (ha : a.typed = true) :
    Stores (a.apply job) (.leaf a.value) a.field := by
  cases a with
  | startTime now => exact .float now
  | endTime now => exact .float now
  | session name =>
      cases name with
      | text name => rfl
      | surrogates s => cases ha
  | failureReason reason =>
      cases reason with
      | text reason => rfl
      | surrogates s => cases ha
  | _ => rfl

/-- An assignment to the record is one to the job. -/
theorem Represents.set {record : JobRecord} {job : Job} (h : Represents record job) {a : Assignment}
    (ha : a.typed = true) : Represents (record.set a) (a.apply job) := by
  intro field
  by_cases hfield : field = a.field
  · subst hfield
    have hself : (record.set a).get a.field = .leaf a.value := Function.update_self ..
    rw [hself]
    exact .assigned job ha
  · have hother : (record.set a).get field = record.get field := Function.update_of_ne hfield ..
    rw [hother]
    exact (h field).apply hfield

/-- So is a series of them. -/
theorem Represents.assign {record : JobRecord} {job : Job} (h : Represents record job)
    {assignments : List Assignment} (htyped : ∀ a ∈ assignments, a.typed = true) :
    Represents (assignments.foldl JobRecord.set record) (assignments.foldl Assignment.apply job) := by
  induction assignments generalizing record job with
  | nil => exact h
  | cons a rest ih =>
      rw [List.forall_mem_cons] at htyped
      exact ih (h.set htyped.1) htyped.2

/-- All that happens to the jobs in a turn are assignments to fields of one of them. -/
theorem Turn.assigns {site : Site} {gated : Bool} {label : Label} {jobs jobs' : List Job}
    (h : Turn site gated label jobs jobs') :
    ∃ (i : ℕ) (assignments : List Assignment), (∀ a ∈ assignments, a.typed = true) ∧
      jobs' = jobs.modify i fun job => assignments.foldl Assignment.apply job := by
  have hnone : jobs = jobs.modify 0 fun job => ([] : List Assignment).foldl Assignment.apply job :=
    (List.modify_id ..).symm
  cases h with
  | ask => exact ⟨0, [], by simp, hnone⟩
  | save => exact ⟨0, [], by simp, hnone⟩
  | spare => exact ⟨0, [], by simp, hnone⟩
  | @reap _ i job outcome now hjob hrunning hend =>
      exact ⟨i, [.status outcome.status, .failureReason outcome.reason, .exitCode outcome.exitCode,
        .endTime now], by simp [Assignment.typed], rfl⟩
  | @skip _ i job b now hjob hpending hblocker =>
      exact ⟨i, [.status .skipped, .failureReason ↑("dependency_failed: " ++ b), .endTime now],
        by simp [Assignment.typed], rfl⟩
  | @launch _ i job placement session now hjob hpending hdeps hadmits hplaced =>
      exact ⟨i, [.cpuList placement.cpuList, .numaNode placement.node, .session session,
        .status .running, .startTime now], by simp [Assignment.typed], rfl⟩
  | @fail _ i job placement message now hjob hpending hdeps =>
      exact ⟨i, [.cpuList placement.cpuList, .numaNode placement.node, .status .failed,
        .failureReason ↑("launch_error: " ++ message), .endTime now], by simp [Assignment.typed], rfl⟩
  | @kill _ i job now hjob hrunning =>
      exact ⟨i, [.status .failed, .failureReason "killed_by_user", .endTime now],
        by simp [Assignment.typed], rfl⟩
  | @clear _ i job now hjob hrunning =>
      exact ⟨i, [.status .failed, .failureReason "zombie_at_restart", .endTime now, .cpuList ""],
        by simp [Assignment.typed], rfl⟩

/-! ## Runs -/

/-- A list of jobs is what some records represent that the orchestrator may have made of the
records of the queue. -/
def Carried (records : List JobRecord) (jobs : List Job) : Prop :=
  ∃ records', List.Forall₂ JobRecord.Touched records records' ∧ List.Forall₂ Represents records' jobs

theorem forall₂_modify {α β : Type} {R : α → β → Prop} {xs : List α} {ys : List β}
    (h : List.Forall₂ R xs ys) {f : α → α} {g : β → β} (hfg : ∀ x y, R x y → R (f x) (g y)) (i : ℕ) :
    List.Forall₂ R (xs.modify i f) (ys.modify i g) := by
  induction h generalizing i with
  | nil => cases i <;> exact .nil
  | cons hhead htail ih =>
      cases i with
      | zero => exact .cons (hfg _ _ hhead) htail
      | succ i => exact .cons hhead (ih i)

theorem JobRecord.Touched.assign {record record' : JobRecord} (h : record.Touched record')
    (assignments : List Assignment) : record.Touched (assignments.foldl JobRecord.set record') := by
  obtain ⟨before, rfl⟩ := h
  exact ⟨before ++ assignments, (List.foldl_append ..).symm⟩

/-- One turn. -/
theorem Carried.turn {records : List JobRecord} {site : Site} {gated : Bool} {label : Label}
    {jobs jobs' : List Job} (h : Carried records jobs) (hturn : Turn site gated label jobs jobs') :
    Carried records jobs' := by
  obtain ⟨records', htouched, hrepresents⟩ := h
  obtain ⟨i, assignments, htyped, rfl⟩ := hturn.assigns
  refine ⟨records'.modify i fun record => assignments.foldl JobRecord.set record, ?_,
    forall₂_modify hrepresents (fun _ _ hr => hr.assign htyped) i⟩
  have hmodified := forall₂_modify htouched (f := id)
    (fun _ _ ht => ht.assign assignments) i
  rwa [List.modify_id] at hmodified

/-! ## Snapshots -/

theorem IsNumber.plain {v : Value} {x : ℚ} (h : IsNumber v x) : Value.Plain v := by
  cases h <;> simp [Value.Plain, Scalar.plain]

/-- All fields of a typed job are plain, whatever its metadata are. -/
theorem Stores.plain {job : Job} {v : Value} {field : JobField} (h : Stores job v field)
    (hfield : field ≠ .metadata) : Value.Plain v := by
  cases field with
  | metadata => exact absurd rfl hfield
  | ramGb => exact IsNumber.plain h
  | startTime => exact IsNumber.plain h
  | endTime => exact IsNumber.plain h
  | exitCode =>
      obtain rfl := h
      cases job.exitCode <;> simp [Value.Plain, Scalar.plain]
  | dependsOn =>
      obtain rfl := h
      simp [Value.Plain, Scalar.plain]
  | env =>
      obtain rfl := h
      refine (Tree.every_dict _).mpr ⟨fun k hk => ?_, fun item hitem => ?_⟩
      · simp only [List.map_map, List.mem_map] at hk
        obtain ⟨entry, -, rfl⟩ := hk
        rfl
      · obtain ⟨entry, -, rfl⟩ := List.mem_map.mp hitem
        simp [Scalar.plain]
  | _ =>
      obtain rfl := h
      simp [Value.Plain, Scalar.plain]

/-- No assignment is to the metadata. -/
theorem JobRecord.Touched.metadata {record record' : JobRecord} (h : record.Touched record') :
    record'.get .metadata = record.get .metadata := by
  obtain ⟨assignments, rfl⟩ := h
  induction assignments generalizing record with
  | nil => rfl
  | cons a rest ih =>
      have hother : JobField.metadata ≠ a.field := by cases a <;> exact JobField.noConfusion
      exact ih.trans (Function.update_of_ne hother ..)

/-! ## Ids -/

/-- The ids that are accepted are distinct. -/
theorem nodup_of_validate (py : Interpreter) {records : List JobRecord} {jobs : List Job}
    (hrepresents : List.Forall₂ Represents records jobs) {seen : List Scalar}
    (h : validateUniqueIdsFrom py seen records = .ok ()) :
    (jobs.map Job.id).Nodup ∧ ∀ job ∈ jobs, Scalar.str job.id ∉ seen := by
  induction hrepresents generalizing seen with
  | nil => exact ⟨.nil, fun job hjob => by cases hjob⟩
  | @cons record job records jobs hhead _ ih =>
      rw [validateUniqueIdsFrom, show record.get .id = .leaf (.str job.id) from hhead .id] at h
      simp only [Value.hashable, pure_bind] at h
      by_cases hseen : seen.contains (Scalar.str job.id).canonical = true
      · rw [if_pos hseen] at h
        cases h
      · rw [if_neg hseen] at h
        obtain ⟨hnodup, hunseen⟩ := ih h
        have hfresh : Scalar.str job.id ∉ seen := fun hmem => hseen (List.contains_iff_mem.mpr hmem)
        refine ⟨?_, fun other hother => ?_⟩
        · rw [List.map_cons, List.nodup_cons]
          refine ⟨fun hmem => ?_, hnodup⟩
          obtain ⟨other, hother, hid⟩ := List.mem_map.mp hmem
          exact hunseen other hother (List.mem_cons.mpr (.inl (congrArg Scalar.str hid)))
        · rcases List.mem_cons.mp hother with rfl | hlater
          · exact hfresh
          · exact fun hmem => hunseen other hlater (List.mem_cons_of_mem _ hmem)

/-- The entries of a block, if there are any. -/
def blockItems : Option Value → List (Scalar × Value)
  | some (.dict items) => items
  | _ => []

/-- The entries of the `global` block, if the queue file has one. -/
def globalItems : Value → List (Scalar × Value)
  | .dict items => blockItems (getKey "global" items)
  | _ => []

/-- What loading a queue comes to: its config is that of the `global` block, and its ids have been
validated. -/
theorem loadQueue_eq_ok (py : Interpreter) (host : HostSize) {doc : Value} {config : ConfigRecord}
    {records : List JobRecord} (h : loadQueue py host doc = .ok (config, records)) :
    (∃ block, configFromGlobal host block = .ok config ∧ blockItems block = globalItems doc) ∧
      validateUniqueIds py records = .ok () := by
  have hentries : ∀ {raw : List Value} {config' : ConfigRecord},
      ((raw.mapM (jobFromDict py)) >>= fun jobs => validateUniqueIds py jobs >>= fun _ =>
        (pure (config', jobs) : Except Exc (ConfigRecord × List JobRecord))) = .ok (config, records) →
      config' = config ∧ validateUniqueIds py records = .ok () := by
    intro raw config' h
    obtain ⟨records', -, h⟩ := except_bind_eq_ok.mp h
    obtain ⟨⟨⟩, hvalid, hpure⟩ := except_bind_eq_ok.mp h
    cases hpure
    exact ⟨rfl, hvalid⟩
  -- a document that is not true has no entries, as the empty one it is replaced by
  have hitems : globalItems doc = globalItems (if doc.truthy then doc else .dict []) := by
    cases htruthy : doc.truthy with
    | true => rfl
    | false =>
        cases doc with
        | dict items =>
            cases items with
            | nil => rfl
            | cons item rest => cases htruthy
        | leaf a => rfl
        | list xs => rfl
  rw [hitems]
  unfold loadQueue at h
  generalize (if doc.truthy then doc else .dict [] : Value) = read at h ⊢
  cases read with
  | leaf a => cases h
  | list items =>
      simp only [pure_bind] at h
      obtain ⟨config', hconfig, h⟩ := except_bind_eq_ok.mp h
      obtain ⟨rfl, hvalid⟩ := hentries h
      exact ⟨⟨_, hconfig, rfl⟩, hvalid⟩
  | dict items =>
      simp only [pure_bind] at h
      obtain ⟨config', hconfig, h⟩ := except_bind_eq_ok.mp h
      split at h
      · obtain ⟨rfl, hvalid⟩ := hentries h
        exact ⟨⟨_, hconfig, rfl⟩, hvalid⟩
      · cases h

/-! ## Runs on records -/

/-- Every run of the scheduler on typed jobs is one on the records of the queue file that stand for
them.  At every moment the jobs, and the copy of them in the state file, are represented by records
that the orchestrator's assignments have made of the loaded ones; these can be saved, and what is
loaded again are the same records, which represent no other jobs, whatever unknown keys have been
added to the file meanwhile. -/
theorem runs_on_records {W : Type} [Host W] (py : Interpreter) (host : HostSize) (doc : Value)
    (hdoc : YamlBuilt doc) (config : ConfigRecord) (records : List JobRecord) (site : Site)
    (gated : Bool) (s : Sys W) (hload : loadQueue py host doc = .ok (config, records))
    (hqueue : List.Forall₂ Represents records site.queue)
    (hmetadata : ∀ record ∈ records, Value.Plain (record.get .metadata))
    (h : Reached site gated s) (jobs : List Job) (hjobs : jobs = s.jobs ∨ s.stateFile = some jobs)
    (path : String) (now : ℚ) :
    (jobs.map Job.id).Nodup ∧ ∃ records' file,
      List.Forall₂ JobRecord.Touched records records' ∧ List.Forall₂ Represents records' jobs ∧
      (∀ jobs', List.Forall₂ Represents records' jobs' → jobs' = jobs) ∧
      saveStateFile py now records' = .ok file ∧
      ∀ file', AnnotatedFile file file' → loadStateFile py path file' = .ok records' := by
  have hkept : ∀ label jobs jobs', Turn site gated label jobs jobs' →
      (jobs.map Job.id = site.queue.map Job.id ∧ Carried records jobs) →
      jobs'.map Job.id = site.queue.map Job.id ∧ Carried records jobs' := by
    rintro label jobs jobs' hturn ⟨hids, hcarried⟩
    exact ⟨hturn.progress.ids.trans hids, hcarried.turn hturn⟩
  have hstart : Carried records site.queue :=
    ⟨records, List.forall₂_same.mpr fun _ _ => ⟨[], rfl⟩, hqueue⟩
  obtain ⟨hnow, hfile⟩ := h.jobs (J := fun jobs => jobs.map Job.id = site.queue.map Job.id ∧
    Carried records jobs) ⟨rfl, hstart⟩ hkept
  obtain ⟨hids, records', htouched, hrepresents⟩ :
      jobs.map Job.id = site.queue.map Job.id ∧ Carried records jobs := by
    rcases hjobs with rfl | hsaved
    · exact hnow
    · exact hfile jobs hsaved
  have hdistinct : ∀ record ∈ records', ∀ field, Tree.Distinct (record.get field) := by
    intro record hrecord
    obtain ⟨loaded, hloaded, htouch⟩ := exists_of_forall₂ htouched hrecord
    exact htouch.distinct (loadQueue_distinct py host hdoc.distinct hload loaded hloaded)
  have hplain : ∀ record ∈ records', record.Plain := by
    intro record hrecord field
    by_cases hfield : field = .metadata
    · subst hfield
      obtain ⟨loaded, hloaded, htouch⟩ := exists_of_forall₂ htouched hrecord
      rw [htouch.metadata]
      exact hmetadata loaded hloaded
    · obtain ⟨job, -, hjob⟩ := exists_of_forall₂ hrepresents.flip hrecord
      exact (hjob field).plain hfield
  obtain ⟨file, hsave, hread⟩ := (snapshot_resumes_iff py path now hdistinct).mpr hplain
  refine ⟨?_, records', file, htouched, hrepresents, fun jobs' hjobs' => ?_, hsave, fun file' hfile' => ?_⟩
  · rw [hids]
    exact (nodup_of_validate py hqueue (loadQueue_eq_ok py host hload).2).1
  · have hunique : Relator.RightUnique Represents := fun _ _ _ ha hb => ha.unique hb
    exact hunique.forall₂ hjobs' hrepresents
  · rw [loadStateFile_ignores py path hsave hfile']
    exact hread

/-! ## A queue of one job -/

/-- The defaults of the records are those of the typed jobs. -/
theorem represents_annotatedJob (metadata : Value) :
    Represents (annotatedJob metadata) { id := "a", command := "true" } := by
  intro field
  cases field with
  | ramGb => exact .float 4
  | startTime => exact .float 0
  | endTime => exact .float 0
  | metadata => trivial
  | _ => rfl

def annotatedSite : Site :=
  smallSite [{ id := "a", command := "true" }] smallConfig reserved_smallConfig

/-- The job of that queue, running, is written to the state file and read back. -/
theorem runs_on_records_annotated : ∃ (s : Sys World) (jobs : List Job), s.stateFile = some jobs ∧
    jobs.map Job.status = [.running] ∧ ∃ records file, List.Forall₂ Represents records jobs ∧
      saveStateFile silent 0 records = .ok file ∧
      loadStateFile silent "nodepilot_state.json" file = .ok records := by
  obtain ⟨⟨⟩, s, hrun, hhoped⟩ := of_returns (show returns ((do
      let _ ← tick annotatedSite
      saveState) (fresh annotatedSite {})) (fun s =>
        s.stateFile.map (fun jobs => jobs.map Job.status) == some [.running]) = true by
      decide +kernel)
  obtain ⟨changed, s₁, htick, hsave⟩ := bind_eq_ok.mp hrun
  have hreached : Reached annotatedSite true s :=
    .op .saveState (reached_of_tick htick) trivial hsave
  obtain ⟨jobs, hfile, hstatus⟩ := Option.map_eq_some_iff.mp (beq_iff_eq.mp hhoped)
  obtain ⟨config, hload⟩ := loadQueue_annotatedDoc (.dict [])
  have hbuilt : YamlBuilt (annotatedDoc (.dict [])) := by
    apply yamlBuilt_annotatedDoc
    simp [YamlBuilt]
  obtain ⟨-, records, file, -, hrepresents, -, hsaved, hread⟩ := runs_on_records silent ⟨8, 16⟩ _ hbuilt
    config _ annotatedSite true s hload (.cons (represents_annotatedJob _) .nil)
    (fun record hrecord => by
      rw [List.mem_singleton.mp hrecord]
      simp [Value.Plain, annotatedJob]) hreached jobs (.inr hfile) "nodepilot_state.json" 0
  refine ⟨s, jobs, hfile, hstatus, records, file, hrepresents, hsaved, hread file ?_⟩
  obtain ⟨gs, -, hsame⟩ := (saveStateFile_eq_ok silent).mp hsaved
  exact ⟨_, _, _, List.forall₂_same.mpr fun record _ => .refl record, hsame, hsame⟩

end Nodepilot
