import Nodepilot.Model.Snapshot

/-!
# What a resumed run starts from

A snapshot goes through two translations, from a job to a record of its fields and
from values to a JSON document, and comes back through their inverses.  The first
loses nothing, whatever is added to the records meanwhile; so a job is read back
field by field, and a field comes back as it was if and only if its value does
(`Trees.Coding.round_trip_iff`).
-/

namespace Nodepilot

open Trees

/-! ## What JSON keeps -/

namespace Scalar

/-- JSON has a notation for the scalar that is read back as the same. -/
def plain : Scalar → Bool
  | none | bool _ | int _ | str _ => true
  | surrogates s => !CodePoint.paired s.points
  | float (.nan object) => object == .decoder
  | float _ => true
  | date _ | datetime _ _ | bytes _ => false

/-- JSON has the key, and it is read back as the same. -/
def plainKey : Scalar → Bool
  | str _ => true
  | surrogates s => !CodePoint.paired s.points
  | _ => false

end Scalar

/-- All keys are strings, no date, no bytes and no `nan` of PyYAML occur, and in no string does a low
surrogate come right after a high one. -/
def Value.Plain (v : Value) : Prop :=
  v.Every (fun a => a.plain = true) fun ks => ∀ k ∈ ks, k.plainKey = true

/-- All fields of a job are plain. -/
def JobRecord.Plain (job : JobRecord) : Prop :=
  ∀ field, Value.Plain (job.get field)

/-- What a string of a document is read as is plain. -/
theorem JsonText.plain_scalar (t : JsonText) :
    t.str.scalar.plain = true ∧ t.str.scalar.plainKey = true := by
  obtain ⟨str, hunpaired⟩ := t
  cases str with
  | text s => exact ⟨rfl, rfl⟩
  | surrogates s =>
      have hplain : (!CodePoint.paired s.points) = true := by
        rw [Bool.not_eq_true']
        exact hunpaired
      exact ⟨hplain, hplain⟩

theorem dumpText_of_unpaired {s : PyStr} (h : s.paired = false) : (dumpText s).str = s :=
  congrArg JsonText.str (dumpText_str ⟨s, h⟩)

section

variable (py : Interpreter)

theorem keepsLeaf_iff (a : Scalar) : (json py).KeepsLeaf a ↔ a.plain = true := by
  constructor
  · rintro ⟨a', hdump, hload⟩
    change dumpScalar a = .ok a' at hdump
    change loadScalar a' = a at hload
    subst hload
    cases a' with
    | str s => exact s.plain_scalar.1
    | _ => rfl
  · intro h
    cases a with
    | float x =>
        cases x with
        | nan object =>
            obtain rfl : object = .decoder := by simpa [Scalar.plain] using h
            exact ⟨_, rfl, rfl⟩
        | _ => exact ⟨_, rfl, rfl⟩
    | surrogates s =>
        have hunpaired : (PyStr.surrogates s).paired = false := by
          rwa [Scalar.plain, Bool.not_eq_true'] at h
        exact ⟨_, rfl, congrArg PyStr.scalar (dumpText_of_unpaired hunpaired)⟩
    | date _ => cases h
    | datetime _ _ => cases h
    | bytes _ => cases h
    | _ => exact ⟨_, rfl, rfl⟩

theorem keepsKey_iff (k : Scalar) : (json py).KeepsKey k ↔ k.plainKey = true := by
  constructor
  · rintro ⟨s, -, rfl⟩
    exact s.plain_scalar.2
  · intro h
    cases k with
    | str s => exact ⟨s, rfl, rfl⟩
    | surrogates s =>
        have hunpaired : (PyStr.surrogates s).paired = false := by
          rwa [Scalar.plainKey, Bool.not_eq_true'] at h
        exact ⟨_, rfl, congrArg PyStr.scalar (dumpText_of_unpaired hunpaired)⟩
    | _ => cases h

/-- Which values JSON keeps. -/
theorem roundTrips_iff_plain {v : Value} (h : v.Distinct) :
    (json py).RoundTrips v ↔ Value.Plain v := by
  have hleaf : (json py).KeepsLeaf = fun a => a.plain = true :=
    funext fun a => propext (keepsLeaf_iff py a)
  have hkey : (json py).KeepsKey = fun k => k.plainKey = true :=
    funext fun k => propext (keepsKey_iff py k)
  rw [Coding.round_trip_iff _ h, hleaf, hkey]
  rfl

end

/-! ## Records -/

/-- The key is the name of a field of a job. -/
def JsonText.known (key : JsonText) : Bool :=
  match key.str with
  | .text s => (JobField.all.map JobField.name).contains s
  | .surrogates _ => false

/-- A saved record to which unknown keys may have been added. -/
inductive Annotated : List (JsonText × Json) → List (JsonText × Json) → Prop
  | nil : Annotated [] []
  | kept (branch : JsonText × Json) {record record' : List (JsonText × Json)}
      (h : Annotated record record') : Annotated (branch :: record) (branch :: record')
  | added (branch : JsonText × Json) {record record' : List (JsonText × Json)}
      (hunknown : branch.1.known = false) (h : Annotated record record') :
      Annotated record (branch :: record')

/-- The file of some records. -/
def fileOf (savedAt : Json) (records : List (List (JsonText × Json))) : Json :=
  .dict [("saved_at", savedAt), ("jobs", .list (records.map .dict))]

/-- A saved file to whose job records unknown keys may have been added. -/
def AnnotatedFile (file file' : Json) : Prop :=
  ∃ savedAt records records', List.Forall₂ Annotated records records' ∧
    file = fileOf savedAt records ∧ file' = fileOf savedAt records'

theorem Annotated.refl (record : List (JsonText × Json)) : Annotated record record := by
  induction record with
  | nil => exact .nil
  | cons branch rest ih => exact .kept branch ih

/-- The known branches are those of the record. -/
theorem Annotated.filter_eq {record record' : List (JsonText × Json)} (h : Annotated record record') :
    (record'.filter fun branch => branch.1.known) = record.filter fun branch => branch.1.known := by
  induction h with
  | nil => rfl
  | kept branch _ ih => rw [List.filter_cons, List.filter_cons, ih]
  | added branch hunknown _ ih =>
      rw [List.filter_cons, hunknown, if_neg Bool.false_ne_true, ih]

/-- The record of a job whose fields are written as documents. -/
def recordOf (g : JobField → Json) : List (JsonText × Json) :=
  JobField.all.map fun field => (field.name, g field)

/-- The value of a field among the branches of all of them. -/
theorem getKey_fields (v : JobField → Value) (field : JobField) :
    getKey field.name (JobField.all.map fun f => (Scalar.str f.name, v f)) = some (v field) := by
  have hfind : JobField.all.find? (fun f => Scalar.str f.name == Scalar.str field.name) =
      some field := by
    cases hfound : JobField.all.find? fun f => Scalar.str f.name == Scalar.str field.name with
    | none =>
        have hnot := List.find?_eq_none.mp hfound field (JobField.mem_all field)
        simp at hnot
    | some g =>
        have hname := List.find?_some hfound
        simp only [beq_iff_eq, Scalar.str.injEq] at hname
        rw [JobField.name_injective hname]
  rw [getKey, List.find?_map, Function.comp_def, hfind]
  rfl

theorem nodup_fieldTexts : (JobField.all.map fun field => (field.name : JsonText)).Nodup := by
  refine List.Nodup.of_map JsonText.str ?_
  rw [List.map_map]
  refine List.Nodup.map (fun f g hname => ?_) (List.Nodup.of_map _ JobField.nodup_names)
  exact JobField.name_injective (PyStr.text.inj hname)

section

variable (py : Interpreter)

/-- A record that has all fields is a job with their values. -/
theorem jobFromDict_of_fields {items : List (Scalar × Value)} {v : JobField → Value}
    (h : keepKnown (JobField.all.map JobField.name) items =
      JobField.all.map fun field => (.str field.name, v field)) :
    jobFromDict py (.dict items) = .ok ⟨v⟩ := by
  have hid : getKey "id" (keepKnown (JobField.all.map JobField.name) items) = some (v .id) := by
    rw [h]
    exact getKey_fields v .id
  have hcommand : getKey "command" (keepKnown (JobField.all.map JobField.name) items) =
      some (v .command) := by
    rw [h]
    exact getKey_fields v .command
  have hfields : (fun field : JobField => (getKey field.name
      (keepKnown (JobField.all.map JobField.name) items)).getD field.default) = v := by
    funext field
    rw [h, getKey_fields, Option.getD_some]
  simp only [jobFromDict, Value.items, pure_bind, hid, hcommand, hfields]
  rfl

/-- A key of a document is known if it is read as a known one. -/
theorem keepKnown_back (branches : List (JsonText × Value)) :
    keepKnown (JobField.all.map JobField.name)
        (branches.map fun item => ((json py).keyBack item.1, item.2)) =
      (branches.filter fun item => item.1.known).map fun item => ((json py).keyBack item.1, item.2) := by
  rw [keepKnown, List.filter_map]
  congr 1
  refine List.filter_congr fun item _ => ?_
  obtain ⟨⟨str, hunpaired⟩, v⟩ := item
  cases str <;> rfl

/-- A record that is read, whatever has been added to it. -/
theorem jobFromDict_annotated {g : JobField → Json} {record : List (JsonText × Json)}
    (h : Annotated (recordOf g) record) :
    jobFromDict py ((json py).decode (.dict record)) =
      .ok ⟨fun field => (json py).decode (g field)⟩ := by
  have hrecord : (record.filter fun branch => branch.1.known) = recordOf g := by
    rw [h.filter_eq, List.filter_eq_self]
    intro branch hbranch
    obtain ⟨field, hfield, rfl⟩ := List.mem_map.mp hbranch
    exact List.contains_iff_mem.mpr (List.mem_map_of_mem hfield)
  rw [Coding.decode]
  refine jobFromDict_of_fields py ?_
  calc keepKnown (JobField.all.map JobField.name)
        ((dictOf ((json py).decodeBranches record)).map fun item => ((json py).keyBack item.1, item.2))
      = ((dictOf ((json py).decodeBranches record)).filter fun item => item.1.known).map
            fun item => ((json py).keyBack item.1, item.2) := keepKnown_back py _
    _ = (dictOf ((recordOf g).map fun item => (item.1, (json py).decode item.2))).map
            fun item => ((json py).keyBack item.1, item.2) := by
        rw [filter_dictOf, Coding.decodeBranches_eq_map, List.filter_map, ← hrecord]
        rfl
    _ = JobField.all.map fun field => (Scalar.str field.name, (json py).decode (g field)) := by
        rw [recordOf, List.map_map, dictOf_of_nodup, List.map_map]
        · rfl
        · rw [List.map_map]
          exact nodup_fieldTexts

/-- A job as `json.dumps` writes it. -/
theorem encode_jobToDict {job : JobRecord} {u : Json} :
    (json py).encode (jobToDict job) = .ok u ↔
      ∃ g, (∀ field, (json py).encode (job.get field) = .ok (g field)) ∧ u = .dict (recordOf g) := by
  rw [jobToDict, Coding.encode, Coding.map_eq_ok]
  simp only [Coding.encodeBranches_eq_ok, List.forall₂_map_left_iff]
  constructor
  · rintro ⟨branches, hbranches, rfl⟩
    have hfields : ∀ field, ∃ u, (json py).encode (job.get field) = .ok u := by
      intro field
      obtain ⟨u, -, hu⟩ := exists_forall₂.mp ⟨_, hbranches⟩ field (JobField.mem_all field)
      exact ⟨_, hu⟩
    choose g hg using hfields
    refine ⟨g, hg, congrArg Tree.dict (eq_map_of_forall₂ hbranches fun field u hu => ?_)⟩
    have hname : u.1 = field.name := (Except.ok.inj hu.1).symm
    have hvalue : u.2 = g field := Except.ok.inj (hu.2.symm.trans (hg field))
    exact Prod.ext hname hvalue
  · rintro ⟨g, hg, rfl⟩
    refine ⟨recordOf g, ?_, rfl⟩
    rw [recordOf, List.forall₂_map_right_iff, List.forall₂_same]
    exact fun field _ => ⟨rfl, hg field⟩

/-- The snapshot of some jobs. -/
theorem saveStateFile_eq_ok {now : ℚ} {jobs : List JobRecord} {file : Json} :
    saveStateFile py now jobs = .ok file ↔
      ∃ gs : List (JobField → Json),
        List.Forall₂ (fun job g => ∀ field, (json py).encode (job.get field) = .ok (g field))
          jobs gs ∧
        file = fileOf (.leaf (.float now)) (gs.map recordOf) := by
  have hfile : saveStateFile py now jobs = .ok file ↔
      ∃ us, List.Forall₂ (fun job u => (json py).encode (jobToDict job) = .ok u) jobs us ∧
        file = .dict [("saved_at", .leaf (.float now)), ("jobs", .list us)] := by
    rw [saveStateFile, payload, Coding.encode, Coding.map_eq_ok]
    simp only [Coding.encodeBranches, Coding.encode, Coding.bind_eq_ok, Coding.map_eq_ok,
      Coding.encodeItems_eq_ok, List.forall₂_map_left_iff]
    constructor
    · rintro ⟨_, ⟨_, hsaved, _, ⟨_, hnow, rfl⟩, _, ⟨_, hjobs, _, ⟨us, hus, rfl⟩, _, hnil, hrest⟩,
        hall⟩, rfl⟩
      cases hsaved
      cases hnow
      cases hjobs
      cases hnil
      cases hrest
      cases hall
      exact ⟨us, hus, rfl⟩
    · rintro ⟨us, hus, rfl⟩
      exact ⟨_, ⟨_, rfl, _, ⟨_, rfl, rfl⟩, _, ⟨_, rfl, _, ⟨us, hus, rfl⟩, _, rfl, rfl⟩, rfl⟩, rfl⟩
  rw [hfile]
  constructor
  · rintro ⟨us, hus, rfl⟩
    have hchosen : ∀ (jobs : List JobRecord) (us : List Json),
        List.Forall₂ (fun job u => (json py).encode (jobToDict job) = .ok u) jobs us →
          ∃ gs : List (JobField → Json),
            List.Forall₂ (fun job g => ∀ field, (json py).encode (job.get field) = .ok (g field))
              jobs gs ∧ us = (gs.map recordOf).map Tree.dict := by
      intro jobs us hus
      induction hus with
      | nil => exact ⟨[], .nil, rfl⟩
      | cons hhead _ ih =>
          obtain ⟨g, hg, rfl⟩ := (encode_jobToDict py).mp hhead
          obtain ⟨gs, hgs, rfl⟩ := ih
          exact ⟨g :: gs, .cons hg hgs, rfl⟩
    obtain ⟨gs, hgs, rfl⟩ := hchosen jobs us hus
    exact ⟨gs, hgs, rfl⟩
  · rintro ⟨gs, hgs, rfl⟩
    refine ⟨(gs.map recordOf).map Tree.dict, ?_, rfl⟩
    rw [List.map_map, List.forall₂_map_right_iff]
    exact hgs.imp fun job g hg => (encode_jobToDict py).mpr ⟨g, hg, rfl⟩

/-- What is read from the file of some records. -/
theorem loadStateFile_annotated (path : String) (savedAt : Json) {gs : List (JobField → Json)}
    {records : List (List (JsonText × Json))}
    (h : List.Forall₂ (fun g record => Annotated (recordOf g) record) gs records) :
    loadStateFile py path (fileOf savedAt records) =
      .ok (gs.map fun g => ⟨fun field => (json py).decode (g field)⟩) := by
  have hjobs : (records.map fun record => (json py).decode (.dict record)).mapM (jobFromDict py) =
      .ok (gs.map fun g => ⟨fun field => (json py).decode (g field)⟩) := by
    induction h with
    | nil => rfl
    | cons hhead _ ih =>
        rw [List.map_cons, List.mapM_cons, jobFromDict_annotated py hhead, ih]
        rfl
  have hread : (json py).decode (fileOf savedAt records) =
      .dict [(.str "saved_at", (json py).decode savedAt),
        (.str "jobs", .list (records.map fun record => (json py).decode (.dict record)))] := by
    have hdistinct : (("saved_at" : String) : JsonText) ≠ ("jobs" : String) := by decide
    rw [fileOf, Coding.decode, Coding.decodeBranches_eq_map, dictOf_of_nodup (by simpa using hdistinct)]
    simp only [List.map_cons, List.map_nil, Coding.decode, Coding.decodeItems_eq_map, List.map_map]
    rfl
  rw [loadStateFile, hread]
  exact hjobs

/-- Which snapshots are read back as they were. -/
theorem snapshot_resumes_iff (path : String) (now : ℚ) {jobs : List JobRecord}
    (h : ∀ job ∈ jobs, ∀ field, Tree.Distinct (job.get field)) :
    (∃ file, saveStateFile py now jobs = .ok file ∧ loadStateFile py path file = .ok jobs) ↔
      ∀ job ∈ jobs, job.Plain := by
  have hrefl : ∀ gs : List (JobField → Json),
      List.Forall₂ (fun g record => Annotated (recordOf g) record) gs (gs.map recordOf) := by
    intro gs
    rw [List.forall₂_map_right_iff, List.forall₂_same]
    exact fun g _ => .refl _
  have hchoice : (∃ file, saveStateFile py now jobs = .ok file ∧
        loadStateFile py path file = .ok jobs) ↔
      ∃ gs : List (JobField → Json),
        List.Forall₂ (fun job g => ∀ field, (json py).encode (job.get field) = .ok (g field))
          jobs gs ∧
        (gs.map fun g => (⟨fun field => (json py).decode (g field)⟩ : JobRecord)) = jobs := by
    constructor
    · rintro ⟨file, hsave, hload⟩
      obtain ⟨gs, hgs, rfl⟩ := (saveStateFile_eq_ok py).mp hsave
      rw [loadStateFile_annotated py path _ (hrefl gs)] at hload
      exact ⟨gs, hgs, Except.ok.inj hload⟩
    · rintro ⟨gs, hgs, hback⟩
      refine ⟨_, (saveStateFile_eq_ok py).mpr ⟨gs, hgs, rfl⟩, ?_⟩
      rw [loadStateFile_annotated py path _ (hrefl gs), hback]
  rw [hchoice]
  simp only [forall₂_and_map_eq]
  rw [exists_forall₂]
  refine forall₂_congr fun job hjob => ?_
  constructor
  · rintro ⟨g, hg, hback⟩ field
    rw [← roundTrips_iff_plain py (h job hjob field)]
    exact ⟨g field, hg field, congrFun (congrArg JobRecord.get hback) field⟩
  · intro hplain
    have hfields : ∀ field, (json py).RoundTrips (job.get field) := fun field =>
      (roundTrips_iff_plain py (h job hjob field)).mpr (hplain field)
    choose g hg hback using hfields
    exact ⟨g, hg, congrArg JobRecord.mk (funext hback)⟩

/-- Unknown keys in a snapshot make no difference. -/
theorem loadStateFile_ignores (path : String) {now : ℚ} {jobs : List JobRecord} {file file' : Json}
    (hsave : saveStateFile py now jobs = .ok file) (h : AnnotatedFile file file') :
    loadStateFile py path file' = loadStateFile py path file := by
  obtain ⟨gs, -, rfl⟩ := (saveStateFile_eq_ok py).mp hsave
  obtain ⟨savedAt, records, records', hrecords, hfile, rfl⟩ := h
  simp only [fileOf, Tree.dict.injEq, List.cons.injEq, Prod.mk.injEq, true_and, Tree.list.injEq,
    and_true] at hfile
  obtain ⟨rfl, hsame⟩ := hfile
  have hback : gs.map recordOf = records :=
    List.map_injective_iff.mpr (fun _ _ => Tree.dict.inj) hsame
  subst hback
  rw [loadStateFile_annotated py path _ (List.forall₂_map_left_iff.mp hrecords),
    loadStateFile_annotated py path _ (List.forall₂_map_left_iff.mp
      ((List.forall₂_same ..).mpr fun record _ => Annotated.refl record))]

end

/-! ## Loaded queues -/

/-- A job as the orchestrator may have left it. -/
def JobRecord.Touched (job job' : JobRecord) : Prop :=
  ∃ assignments : List Assignment, job' = assignments.foldl JobRecord.set job

theorem getKey_eq_some {name : String} {items : List (Scalar × Value)} {v : Value}
    (h : getKey name items = some v) : (Scalar.str name, v) ∈ items := by
  obtain ⟨item, hfind, rfl⟩ := Option.map_eq_some_iff.mp h
  have hkey : item.1 = .str name := by simpa using List.find?_some hfind
  rw [← hkey]
  exact List.mem_of_find?_eq_some hfind

theorem distinct_of_getKey {name : String} {items : List (Scalar × Value)} {v : Value}
    (hitems : Tree.Distinct (.dict items)) (h : getKey name items = some v) : v.Distinct :=
  ((Tree.every_dict items).mp hitems).2 _ (getKey_eq_some h)

theorem JobField.default_distinct (field : JobField) : field.default.Distinct := by
  cases field <;> simp [JobField.default, Tree.Distinct]

/-- The fields of a job come from its entry. -/
theorem jobFromDict_distinct (py : Interpreter) {data : Value} {job : JobRecord}
    (hdata : data.Distinct) (h : jobFromDict py data = .ok job) (field : JobField) :
    Tree.Distinct (job.get field) := by
  obtain ⟨items, hitems, h⟩ := except_bind_eq_ok.mp h
  cases data with
  | leaf a => cases hitems
  | list items => cases hitems
  | dict items =>
      cases hitems
      simp only at h
      split at h
      · cases h
      cases h
      change Tree.Distinct (Option.getD _ _)
      cases hkey : getKey field.name (keepKnown (JobField.all.map JobField.name) items) with
      | none => exact field.default_distinct
      | some v =>
          have hmem : (Scalar.str field.name, v) ∈ items :=
            (List.mem_filter.mp (getKey_eq_some hkey)).1
          exact ((Tree.every_dict items).mp hdata).2 _ hmem

/-- The fields of a loaded job come from the document. -/
theorem loadQueue_distinct (py : Interpreter) (host : HostSize) {doc : Value}
    {config : ConfigRecord} {jobs : List JobRecord} (hdoc : doc.Distinct)
    (h : loadQueue py host doc = .ok (config, jobs)) :
    ∀ job ∈ jobs, ∀ field, Tree.Distinct (job.get field) := by
  have hload : ∃ raw : List Value, (∀ v ∈ raw, v.Distinct) ∧
      raw.mapM (jobFromDict py) = .ok jobs := by
    have hread : Tree.Distinct (if doc.truthy then doc else .dict [] : Value) := by
      split
      · exact hdoc
      · exact (Tree.every_dict []).mpr ⟨.nil, nofun⟩
    unfold loadQueue at h
    generalize (if doc.truthy then doc else .dict [] : Value) = read at h hread
    cases read with
    | leaf a => cases h
    | list items =>
        simp only [pure_bind] at h
        obtain ⟨config', -, h⟩ := except_bind_eq_ok.mp h
        obtain ⟨jobs', hjobs, h⟩ := except_bind_eq_ok.mp h
        obtain ⟨-, -, h⟩ := except_bind_eq_ok.mp h
        cases h
        exact ⟨items, (Tree.every_list items).mp hread, hjobs⟩
    | dict items =>
        simp only [pure_bind] at h
        obtain ⟨config', -, h⟩ := except_bind_eq_ok.mp h
        have hdefault : Tree.Distinct ((getKey "jobs" items).getD (.list [])) := by
          cases hkey : getKey "jobs" items with
          | none => exact (Tree.every_list []).mpr nofun
          | some v => exact distinct_of_getKey hread hkey
        split at h
        · rename_i entries hentries
          obtain ⟨jobs', hjobs, h⟩ := except_bind_eq_ok.mp h
          obtain ⟨-, -, h⟩ := except_bind_eq_ok.mp h
          cases h
          rw [hentries] at hdefault
          exact ⟨entries, (Tree.every_list entries).mp hdefault, hjobs⟩
        · cases h
  obtain ⟨raw, hraw, hmap⟩ := hload
  intro job hjob field
  obtain ⟨v, hv, hfrom⟩ := exists_of_forall₂ (Coding.mapM_eq_ok.mp hmap) hjob
  exact jobFromDict_distinct py (hraw v hv) hfrom field

theorem JobRecord.Touched.distinct {job job' : JobRecord} (h : job.Touched job')
    (hjob : ∀ field, Tree.Distinct (job.get field)) (field : JobField) :
    Tree.Distinct (job'.get field) := by
  obtain ⟨assignments, rfl⟩ := h
  induction assignments generalizing job with
  | nil => exact hjob field
  | cons a rest ih =>
      refine ih fun f => ?_
      by_cases hf : f = a.field
      · subst hf
        simp [JobRecord.set, Tree.Distinct]
      · simpa [JobRecord.set, Function.update_of_ne hf] using hjob f

/-- A loaded queue, with whatever the orchestrator has assigned, is read back from its snapshot
if and only if all of it is plain; and what is read ignores unknown keys. -/
theorem resume_fidelity (py : Interpreter) (host : HostSize) (doc : Value) (hdoc : YamlBuilt doc)
    (config : ConfigRecord) (jobs jobs' : List JobRecord)
    (hload : loadQueue py host doc = .ok (config, jobs))
    (htouched : List.Forall₂ JobRecord.Touched jobs jobs') (path : String) (now : ℚ) :
    ((∃ file, saveStateFile py now jobs' = .ok file ∧ loadStateFile py path file = .ok jobs') ↔
      ∀ job ∈ jobs', job.Plain) ∧
    ∀ file file', saveStateFile py now jobs' = .ok file → AnnotatedFile file file' →
      loadStateFile py path file' = loadStateFile py path file := by
  have hdistinct : ∀ job' ∈ jobs', ∀ field, Tree.Distinct (job'.get field) := by
    intro job' hjob'
    obtain ⟨job, hjob, htouch⟩ := exists_of_forall₂ htouched hjob'
    exact htouch.distinct (loadQueue_distinct py host hdoc.distinct hload job hjob)
  exact ⟨snapshot_resumes_iff py path now hdistinct,
    fun file file' hsave hfile => loadStateFile_ignores py path hsave hfile⟩

/-- A queue of one job with some metadata. -/
def annotatedDoc (metadata : Value) : Value :=
  .list [.dict [(.str "id", .leaf (.str "a")), (.str "command", .leaf (.str "true")),
    (.str "metadata", metadata)]]

/-- The job of that queue. -/
def annotatedJob (metadata : Value) : JobRecord where
  get
    | .id => .leaf (.str "a")
    | .command => .leaf (.str "true")
    | .metadata => metadata
    | field => field.default

/-- An interpreter that prints nothing. -/
def silent : Interpreter := ⟨fun _ => "", fun _ => ""⟩

theorem yamlBuilt_annotatedDoc {metadata : Value} (h : YamlBuilt metadata) :
    YamlBuilt (annotatedDoc metadata) := by
  unfold YamlBuilt at h
  simp [YamlBuilt, annotatedDoc, Scalar.canonical, h]

theorem loadQueue_annotatedDoc (metadata : Value) :
    ∃ config, loadQueue silent ⟨8, 16⟩ (annotatedDoc metadata) =
      .ok (config, [annotatedJob metadata]) := by
  have hjob : (⟨fun field => (getKey field.name (keepKnown (JobField.all.map JobField.name)
      [(.str "id", .leaf (.str "a")), (.str "command", .leaf (.str "true")),
        (.str "metadata", metadata)])).getD field.default⟩ : JobRecord) = annotatedJob metadata :=
    congrArg JobRecord.mk (funext fun field => by cases field <;> rfl)
  rw [← hjob]
  exact ⟨_, rfl⟩

/-- A running job whose metadata counts its retries. -/
theorem resume_fidelity_retries :
    ∃ file, saveStateFile silent 0 [(annotatedJob
        (.dict [(.str "retries", .leaf (.int 2))])).set (.status .running)] = .ok file ∧
      loadStateFile silent "nodepilot_state.json" file = .ok [(annotatedJob
        (.dict [(.str "retries", .leaf (.int 2))])).set (.status .running)] := by
  obtain ⟨config, hload⟩ := loadQueue_annotatedDoc (.dict [(.str "retries", .leaf (.int 2))])
  have hbuilt : YamlBuilt (annotatedDoc (.dict [(.str "retries", .leaf (.int 2))])) := by
    apply yamlBuilt_annotatedDoc
    simp [YamlBuilt, Scalar.canonical]
  refine (resume_fidelity silent ⟨8, 16⟩ _ hbuilt config _ _ hload
    (.cons ⟨[.status .running], rfl⟩ .nil) "nodepilot_state.json" 0).1.mpr ?_
  intro job hjob field
  obtain rfl := List.mem_singleton.mp hjob
  cases field <;>
    simp [Value.Plain, JobRecord.set, Assignment.field, Assignment.value, annotatedJob,
      JobField.default, Scalar.plain, Scalar.plainKey]

/-- Metadata with a number for a key is read back with a text for it. -/
theorem resume_changes_keys :
    ¬ ∀ (py : Interpreter) (host : HostSize) (doc : Value), YamlBuilt doc →
      ∀ (config : ConfigRecord) (jobs jobs' : List JobRecord),
        loadQueue py host doc = .ok (config, jobs) →
        List.Forall₂ JobRecord.Touched jobs jobs' → ∀ (path : String) (now : ℚ),
          ∃ file, saveStateFile py now jobs' = .ok file ∧
            loadStateFile py path file = .ok jobs' := by
  intro h
  have hbuilt : YamlBuilt (annotatedDoc (.dict [(.int 1, .leaf (.str "x"))])) := by
    apply yamlBuilt_annotatedDoc
    simp [YamlBuilt, Scalar.canonical]
  obtain ⟨config, hload⟩ := loadQueue_annotatedDoc (.dict [(.int 1, .leaf (.str "x"))])
  obtain ⟨file, hsave, hread⟩ := h silent ⟨8, 16⟩ _ hbuilt config _ _ hload
    (.cons ⟨[], rfl⟩ .nil) "nodepilot_state.json" 0
  have hplain := (snapshot_resumes_iff silent "nodepilot_state.json" 0
    (loadQueue_distinct silent ⟨8, 16⟩ hbuilt.distinct hload)).mp ⟨file, hsave, hread⟩
  have hmetadata := hplain _ (List.mem_singleton_self _) .metadata
  simp [Value.Plain, annotatedJob, Scalar.plainKey] at hmetadata

end Nodepilot
