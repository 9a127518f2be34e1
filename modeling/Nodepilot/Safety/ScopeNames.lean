import Nodepilot.Lib.Commutes
import Nodepilot.Machine.Trial
import Nodepilot.Safety.Zombies

/-!
# Scopes and the jobs they belong to

A restart knows the scope of a job by its unit name alone, and the name keeps only
the letters, digits and `-` of an id: every other character becomes `_`.  So two
ids have one name exactly when they look alike (`scopeUnitName_eq_iff`), and then
the scope of one job speaks for the other.

Where no two ids of the queue look alike, scopes tell its jobs apart
(`scopes_tell_apart_iff`).  For the decision of a restart that means that it is the
same with and without the scopes of the other jobs: `World.without` takes directories
away from a host, and a program that asks for none of them does on the smaller
host what it does on the larger (`Overlooks`).
-/

namespace Nodepilot

open Obeys

/-! ## Names -/

/-- A character a unit name has no room for, or the `_` that stands for those. -/
def Replaced (site : Site) (c : Char) : Prop :=
  isalnum site c = false ∧ c ≠ '-'

/-- The ids differ only in characters that are replaced. -/
def LookAlike (site : Site) (a b : String) : Prop :=
  List.Forall₂ (fun c d => c = d ∨ Replaced site c ∧ Replaced site d) a.toList b.toList

/-- The character `scope_unit_name` puts in the place of one of the id. -/
def unitChar (site : Site) (c : Char) : Char :=
  if isalnum site c || c == '-' || c == '_' then c else '_'

theorem scopeUnitName_eq (site : Site) (id : String) :
    scopeUnitName site id =
      "nodepilot-" ++ String.ofList (id.toList.map (unitChar site)) ++ ".scope" := rfl

theorem isalnum_underscore (site : Site) : isalnum site '_' = false := by
  simp [isalnum]

theorem unitChar_of_replaced {site : Site} {c : Char} (h : Replaced site c) :
    unitChar site c = '_' := by
  unfold unitChar
  by_cases hc : c = '_'
  · simp [hc]
  · simp [h.1, h.2, hc]

theorem unitChar_of_not_replaced {site : Site} {c : Char} (h : ¬ Replaced site c) :
    unitChar site c = c := by
  unfold unitChar
  rw [Replaced, not_and_or, Bool.not_eq_false, not_not] at h
  rcases h with halnum | rfl
  · simp [halnum]
  · simp

theorem unitChar_eq_iff {site : Site} {c d : Char} :
    unitChar site c = unitChar site d ↔ c = d ∨ Replaced site c ∧ Replaced site d := by
  have hplaceholder : Replaced site '_' := ⟨isalnum_underscore site, by decide⟩
  constructor
  · intro h
    by_cases hc : Replaced site c <;> by_cases hd : Replaced site d
    · exact .inr ⟨hc, hd⟩
    · -- the character that stays cannot be the placeholder
      rw [unitChar_of_replaced hc, unitChar_of_not_replaced hd] at h
      exact absurd (h ▸ hplaceholder) hd
    · rw [unitChar_of_not_replaced hc, unitChar_of_replaced hd] at h
      exact absurd (h ▸ hplaceholder) hc
    · rw [unitChar_of_not_replaced hc, unitChar_of_not_replaced hd] at h
      exact .inl h
  · rintro (rfl | ⟨hc, hd⟩)
    · rfl
    · rw [unitChar_of_replaced hc, unitChar_of_replaced hd]

/-- Two ids have one unit name if and only if they look alike. -/
theorem scopeUnitName_eq_iff {site : Site} {a b : String} :
    scopeUnitName site a = scopeUnitName site b ↔ LookAlike site a b := by
  calc scopeUnitName site a = scopeUnitName site b
      ↔ a.toList.map (unitChar site) = b.toList.map (unitChar site) := by
        rw [scopeUnitName_eq, scopeUnitName_eq, String.append_left_inj, String.append_right_inj,
          String.ofList_inj]
    _ ↔ List.Forall₂ (fun c d => unitChar site c = unitChar site d) a.toList b.toList := by
        rw [← List.forall₂_eq_eq_eq, List.forall₂_map_left_iff, List.forall₂_map_right_iff]
    _ ↔ LookAlike site a b := by
        simp only [unitChar_eq_iff, LookAlike]

/-! ## Paths -/

theorem unitChar_ne_slash (site : Site) (c : Char) : unitChar site c ≠ '/' := by
  have hslash : isalnum site '/' = false := by
    simp [isalnum]
  unfold unitChar
  split
  · rename_i h
    rintro rfl
    simp [hslash] at h
  · decide

theorem slash_not_mem_unit (site : Site) (id : String) :
    '/' ∉ (scopeUnitName site id).toList := by
  rw [scopeUnitName_eq]
  simp only [String.toList_append, String.toList_ofList, List.mem_append, List.mem_map, not_or,
    not_exists, not_and]
  exact ⟨⟨by decide, fun c _ => unitChar_ne_slash site c⟩, by decide⟩

theorem joinPath_unit (site : Site) (base id : String) :
    joinPath base (scopeUnitName site id) = base ++ "/" ++ scopeUnitName site id := by
  rw [joinPath, if_neg]
  rw [scopeUnitName_eq]
  simp

/-- What comes after the last of a mark. -/
theorem eq_of_append_mark {α : Type} {mark : α} {before before' after after' : List α}
    (hafter : mark ∉ after) (hafter' : mark ∉ after')
    (h : before ++ mark :: after = before' ++ mark :: after') : after = after' := by
  rcases List.append_eq_append_iff.mp h with ⟨mid, -, hmid⟩ | ⟨mid, -, hmid⟩
  · cases mid with
    | nil => exact (List.cons.inj hmid).2
    | cons c rest =>
        obtain ⟨-, rfl⟩ := List.cons.inj hmid
        simp at hafter
  · cases mid with
    | nil => exact (List.cons.inj hmid).2.symm
    | cons c rest =>
        obtain ⟨-, rfl⟩ := List.cons.inj hmid
        simp at hafter'

/-- The last part of a scope's path is its unit name. -/
theorem joinPath_unit_inj {site : Site} {base base' id id' : String}
    (h : joinPath base (scopeUnitName site id) = joinPath base' (scopeUnitName site id')) :
    scopeUnitName site id = scopeUnitName site id' := by
  rw [joinPath_unit, joinPath_unit] at h
  have hchars := congrArg String.toList h
  simp only [String.toList_append, List.append_assoc] at hchars
  exact String.toList_inj.mp
    (eq_of_append_mark (slash_not_mem_unit site id) (slash_not_mem_unit site id') hchars)

theorem count_slash_unit (site : Site) (id : String) :
    (scopeUnitName site id).toList.count '/' = 0 :=
  List.count_eq_zero.mpr (slash_not_mem_unit site id)

theorem length_unit (site : Site) (id : String) : 16 ≤ (scopeUnitName site id).toList.length := by
  rw [scopeUnitName_eq]
  simp only [String.toList_append, List.length_append]
  have hprefix : "nodepilot-".toList.length = 10 := by decide
  have hsuffix : ".scope".toList.length = 6 := by decide
  omega

/-- No directory that may be the slice is one that may be a scope of it. -/
theorem candidate_ne_unit {site : Site} {uid : ℕ} {sliceName cand cand' id : String}
    (hcand : cand ∈ sliceDirCandidates uid sliceName)
    (hcand' : cand' ∈ sliceDirCandidates uid sliceName) :
    cand ≠ joinPath cand' (scopeUnitName site id) := by
  rw [joinPath_unit]
  intro h
  have hcount := congrArg (fun path : String => path.toList.count '/') h
  have hlength := congrArg (fun path : String => path.toList.length) h
  have hunit := count_slash_unit site id
  have hlong := length_unit site id
  simp only [String.toList_append, List.count_append, List.length_append, hunit] at hcount hlength
  have hslash : "/".toList.count '/' = 1 := by decide
  have hslash' : "/".toList.length = 1 := by decide
  simp only [sliceDirCandidates, List.mem_cons, List.not_mem_nil, or_false] at hcand hcand'
  unfold joinPath at hcand hcand'
  by_cases habsolute : ['/'].isPrefixOf sliceName.toList = true
  · -- an absolute name is the only candidate
    simp only [habsolute, if_true, or_self] at hcand hcand'
    rw [hcand, hcand'] at hlength
    omega
  · simp only [habsolute, Bool.false_eq_true, if_false] at hcand hcand'
    have happ : "/app.slice".toList.count '/' = 1 := by decide
    have happ' : "/app.slice".toList.length = 10 := by decide
    have huser : "/user.slice/user-".toList.count '/' = 2 := by decide
    have hslice : ".slice/user@".toList.count '/' = 1 := by decide
    rcases hcand with rfl | rfl | rfl <;> rcases hcand' with rfl | rfl | rfl <;>
      simp only [String.toList_append, List.count_append, List.length_append] at hcount hlength <;>
      omega

/-! ## A host without certain directories -/

/-- The event makes one of the directories. -/
def Event.makes (gone : String → Bool) : Event → Bool
  | mkdir path => gone path
  | _ => false

theorem Event.failure_of_makes {gone : String → Bool} {event : Event}
    (h : event.makes gone = true) : event.failure = none := by
  cases event with
  | mkdir path => rfl
  | _ => cases h

namespace World

/-- The host on which some directories never are. -/
def without (gone : String → Bool) (w : World) : World :=
  { w with
    dirs := w.dirs.filter fun dir => !gone dir
    agenda := w.agenda.map fun batch => batch.filter fun event => !event.makes gone }

theorem apply_without (gone : String → Bool) (w : World) (event : Event) :
    (if event.makes gone then w.without gone else event.apply (w.without gone)) =
      (event.apply w).without gone := by
  cases event with
  | mkdir path =>
      have hmakes : (Event.mkdir path).makes gone = gone path := rfl
      rw [hmakes]
      cases hgone : gone path with
      | true => simp [without, Event.apply, hgone]
      | false => simp [without, Event.apply, hgone]
  | rmdir path =>
      simp only [Event.makes, Bool.false_eq_true, if_false, without, Event.apply,
        List.filter_filter, Bool.and_comm]
  | arrive other =>
      simp only [Event.makes, Bool.false_eq_true, if_false, Event.apply]
      have hsame : (w.without gone).pidInUse other.pid = w.pidInUse other.pid := rfl
      rw [hsame]
      split <;> rfl
  | _ => rfl

theorem foldl_apply_without (gone : String → Bool) (batch : List Event) (w : World) :
    (batch.filter fun event => !event.makes gone).foldl Event.apply (w.without gone) =
      (batch.foldl Event.apply w).without gone := by
  induction batch generalizing w with
  | nil => rfl
  | cons event rest ih =>
      rw [List.foldl_cons, ← ih, ← apply_without]
      cases hmakes : event.makes gone with
      | true => simp [hmakes]
      | false => simp [hmakes]

theorem advance_without (gone : String → Bool) (w : World) :
    (w.without gone).advance = w.advance.without gone := by
  unfold advance
  cases hagenda : w.agenda with
  | nil => simp [without, hagenda]
  | cons batch rest =>
      rw [← foldl_apply_without]
      simp [without, hagenda]

theorem failure_without (gone : String → Bool) (w : World) :
    (w.without gone).failure = w.failure := by
  have hbatch : ∀ batch : List Event,
      (batch.filter fun event => !event.makes gone).findSome? Event.failure =
        batch.findSome? Event.failure := by
    intro batch
    induction batch with
    | nil => rfl
    | cons event rest ih =>
        cases hmakes : event.makes gone with
        | true => simp [hmakes, Event.failure_of_makes hmakes, ih]
        | false => simp [List.findSome?_cons, hmakes, ih]
  unfold failure
  cases hagenda : w.agenda with
  | nil => simp [without, hagenda]
  | cons batch rest =>
      simp only [without, hagenda, List.map_cons]
      exact hbatch batch

theorem signal_without (w : World) (gone : String → Bool) (pid : ℤ) :
    (w.without gone).signal pid = carry (without gone) (w.signal pid) := by
  have hprocs : (w.without gone).procs = w.procs := rfl
  have hothers : (w.without gone).others = w.others := rfl
  unfold signal
  rw [hprocs, hothers]
  by_cases htaken : w.procs.any (hasPid pid) = true
  · simp [htaken]
  · cases w.others.find? fun o => (o.pid : ℤ) == pid with
    | none => simp [htaken]
    | some o =>
        by_cases hours : o.ours = true
        · simp [htaken, hours]
        · simp [htaken, hours]

/-- An operation whose answer does not depend on the directories. -/
def Overlooked (gone : String → Bool) {α : Type} (c : Syscall α) : Prop :=
  ∀ w : World, (w.without gone).effect c = carry (without gone) (w.effect c)

theorem answer_without {gone : String → Bool} {α : Type} {c : Syscall α} (h : Overlooked gone c)
    (w : World) : (w.without gone).answer c = carry (without gone) (w.answer c) := by
  unfold answer
  rw [failure_without, advance_without, h]
  cases w.failure with
  | none => rfl
  | some e =>
      dsimp only
      split <;> rfl

end World

/-- The orchestrator on the host without the directories. -/
def Sys.without (gone : String → Bool) (s : Sys World) : Sys World :=
  { s with world := s.world.without gone }

/-- A program for which it makes no difference whether the directories are there. -/
abbrev Overlooks {α : Type} (gone : String → Bool) (m : M World α) : Prop :=
  Commutes (fun _ => True) (Sys.without gone) m

namespace Overlooks

variable {gone : String → Bool} {α : Type}

theorem call {c : Syscall α} (h : World.Overlooked gone c) : Overlooks gone (call c) where
  same s _ := by
    have hanswer : Host.answer c (s.world.without gone) =
        carry (World.without gone) (Host.answer c s.world) := World.answer_without h s.world
    unfold Nodepilot.call
    simp only [Sys.without, hanswer]
    cases Host.answer c s.world <;> rfl
  keeps _ _ _ _ _ := trivial
  raises _ _ _ _ _ := trivial

theorem liftExcept (x : Except Exc α) : Overlooks gone (liftExcept x : M World α) := by
  cases x with
  | ok a => exact .pure a
  | error e => exact .throw e

theorem setJob (i : ℕ) (f : Job → Job) : Overlooks gone (setJob i f : M World Unit) :=
  .modify (fun _ _ => rfl) fun _ _ => trivial

theorem isDir {path : String} (h : gone path = false) :
    Overlooks gone (Nodepilot.call (.isDir path)) := by
  refine call fun w => ?_
  simp [World.effect, World.without, h]

theorem probe (pid : ℤ) : Overlooks gone (probe (W := World) pid) := by
  exact tryExcept_commutes (.bind (call fun w => w.signal_without gone pid) fun _ => .pure none)
    fun e => .pure _

theorem pidAlive (pid : ℤ) : Overlooks gone (pidAlive (W := World) pid) := by
  refine .bind (probe pid) fun answer => ?_
  cases answer with
  | some answer => exact .pure answer
  | none =>
      refine tryExcept_commutes (.bind (call fun w => ?_) fun text => .pure _) fun e => .pure _
      have hstat : ∀ entry, (w.without gone).statOf entry = w.statOf entry := fun _ => rfl
      simp only [World.effect, hstat]
      split <;> rfl

theorem tmuxAlive (name : String) : Overlooks gone (tmuxAlive (W := World) name) := by
  refine .bind (call fun w => rfl) fun found => ?_
  cases found with
  | false => exact .pure false
  | true => exact .bind (call fun w => rfl) fun rc => .pure _

theorem isAlive (job : Job) : Overlooks gone (isAlive (W := World) job) := by
  unfold Nodepilot.isAlive
  cases tracked job.session with
  | tmux name => exact tmuxAlive name
  | nothing => exact .pure false
  | pid digits =>
      refine .bind (liftExcept _) fun pid => .get_bind (fun _ _ => rfl) fun s _ => ?_
      cases s.procs.lookup pid with
      | none => exact pidAlive pid
      | some proc =>
          refine .bind (call fun w => ?_) fun rc => .pure _
          have hprocs : (w.without gone).procs = w.procs := rfl
          simp only [World.effect, hprocs]
          split
          · rfl
          · split <;> rfl

theorem firstDir {cands : List String} (h : ∀ cand ∈ cands, gone cand = false) :
    Overlooks gone (firstDir (W := World) cands) := by
  induction cands with
  | nil => exact .pure none
  | cons cand rest ih =>
      refine .bind (isDir (h cand (List.mem_cons_self ..))) fun found => ?_
      cases found with
      | true => exact .pure _
      | false => exact ih fun cand hcand => h cand (List.mem_cons_of_mem _ hcand)

end Overlooks

/-! ## Which scope is whose -/

/-- Every scope of a slice is one created for a launch of one of the ids. -/
def ScopesFrom (site : Site) (sliceName : String) (created : Set String) (w : World) : Prop :=
  ∀ cand ∈ sliceDirCandidates 1000 sliceName, ∀ id : String,
    w.dirs.contains (joinPath cand (scopeUnitName site id)) = true →
      ∃ launched ∈ created, scopeUnitName site launched = scopeUnitName site id

/-- A path is that of the scope of another job than the one of an id. -/
def foreignScope (site : Site) (jobs : List Job) (id path : String) : Bool :=
  (sliceDirCandidates 1000 site.config.memorySlice).any fun cand =>
    jobs.any fun other => other.id != id && path == joinPath cand (scopeUnitName site other.id)

/-- The scopes tell the jobs of a list apart. -/
structure ScopesTellApart (site : Site) (jobs : List Job) : Prop where
  names : (jobs.map fun job => scopeUnitName site job.id).Nodup
  /-- A scope that is found active was created for the job itself. -/
  active : ∀ job ∈ jobs, ∀ created : Set String, (∀ id ∈ created, id ∈ jobs.map Job.id) →
    ∀ (sliceName : String) (s s' : Sys World),
      scopeIsActive site job.id sliceName s = .ok true s' →
      ScopesFrom site sliceName created s'.world → job.id ∈ created
  /-- A restart decides on a job as if no other job had a scope. -/
  verdict : ∀ (s : Sys World) (i : ℕ) (job : Job), s.jobs.map Job.id = jobs.map Job.id →
    s.jobs[i]? = some job →
      reconcileJob site i (s.without (foreignScope site jobs job.id)) =
        carry (Sys.without (foreignScope site jobs job.id)) (reconcileJob site i s)

theorem foreignScope_candidate {site : Site} {jobs : List Job} {id cand : String}
    (hcand : cand ∈ sliceDirCandidates 1000 site.config.memorySlice) :
    foreignScope site jobs id cand = false := by
  unfold foreignScope
  rw [List.any_eq_false]
  intro cand' hcand' hany
  obtain ⟨other, -, hother⟩ := List.any_eq_true.mp hany
  rw [Bool.and_eq_true, beq_iff_eq] at hother
  exact candidate_ne_unit hcand hcand' hother.2

/-- Where the names differ the scope of a job is foreign to no path of its own. -/
theorem foreignScope_own {site : Site} {jobs : List Job} {id cg : String}
    (hid : id ∈ jobs.map Job.id)
    (hnames : (jobs.map fun job => scopeUnitName site job.id).Nodup) :
    foreignScope site jobs id (joinPath cg (scopeUnitName site id)) = false := by
  obtain ⟨job, hjob, rfl⟩ := List.mem_map.mp hid
  unfold foreignScope
  rw [List.any_eq_false]
  intro cand hcand hany
  obtain ⟨other, hother, hforeign⟩ := List.any_eq_true.mp hany
  rw [Bool.and_eq_true, bne_iff_ne, beq_iff_eq] at hforeign
  have hunit := joinPath_unit_inj hforeign.2
  have hsame : job = other := List.inj_on_of_nodup_map hnames hjob hother hunit
  exact hforeign.1 (congrArg Job.id hsame.symm)

theorem firstDir_mem {cands : List String} {s s' : Sys World} {cg : String}
    (h : firstDir cands s = .ok (some cg) s') : cg ∈ cands := by
  induction cands generalizing s with
  | nil => cases h
  | cons cand rest ih =>
      obtain ⟨found, s₁, -, h⟩ := bind_eq_ok.mp h
      cases found with
      | true =>
          cases h
          exact List.mem_cons_self ..
      | false => exact List.mem_cons_of_mem _ (ih h)

/-- An active scope is a directory of the slice. -/
theorem scopeIsActive_dir {site : Site} {id sliceName : String} {s s' : Sys World}
    (h : scopeIsActive site id sliceName s = .ok true s') :
    ∃ cand ∈ sliceDirCandidates 1000 sliceName,
      s'.world.dirs.contains (joinPath cand (scopeUnitName site id)) = true := by
  obtain ⟨found, s₁, hdir, h⟩ := bind_eq_ok.mp h
  obtain ⟨uid, s₂, huid, hfirst⟩ := bind_eq_ok.mp hdir
  obtain ⟨w₂, hanswer, rfl⟩ := call_eq_ok.mp huid
  cases answer_ok hanswer
  cases found with
  | none => cases h
  | some cg =>
      obtain ⟨w', hanswer', rfl⟩ := call_eq_ok.mp h
      have heffect := answer_ok hanswer'
      simp only [World.effect, EStateM.Result.ok.injEq] at heffect
      obtain ⟨hcontains, rfl⟩ := heffect
      exact ⟨cg, firstDir_mem hfirst, hcontains⟩

theorem getuid_eq {s s' : Sys World} {uid : ℕ} (h : call .getuid s = .ok uid s') : uid = 1000 := by
  obtain ⟨w, hanswer, rfl⟩ := call_eq_ok.mp h
  cases answer_ok hanswer
  rfl

theorem overlooks_aliveScope {site : Site} {jobs : List Job} {job : Job}
    (hid : job.id ∈ jobs.map Job.id)
    (hnames : (jobs.map fun job => scopeUnitName site job.id).Nodup) :
    Overlooks (foreignScope site jobs job.id) (aliveScope (W := World) site job) := by
  unfold aliveScope
  split
  · exact .pure false
  · have hdir : Overlooks (foreignScope site jobs job.id)
        (cgroupDir (W := World) site.config.memorySlice) := by
      refine .bind_of (R := fun uid => uid = 1000) (Overlooks.call fun w => rfl)
        (fun s uid s' h => getuid_eq h) ?_
      rintro uid rfl
      exact Overlooks.firstDir fun cand hcand => foreignScope_candidate hcand
    refine .bind hdir fun cg => ?_
    cases cg with
    | none => exact .pure false
    | some cg => exact Overlooks.isDir (foreignScope_own hid hnames)

/-- The decision on a job is the same without the scopes of the others. -/
theorem reconcileJob_overlooks {site : Site} {jobs : List Job}
    (hnames : (jobs.map fun job => scopeUnitName site job.id).Nodup)
    {s : Sys World} {i : ℕ} {job : Job} (hids : s.jobs.map Job.id = jobs.map Job.id)
    (hjob : s.jobs[i]? = some job) :
    reconcileJob site i (s.without (foreignScope site jobs job.id)) =
      carry (Sys.without (foreignScope site jobs job.id)) (reconcileJob site i s) := by
  have hid : job.id ∈ jobs.map Job.id :=
    hids ▸ List.mem_map_of_mem (List.mem_of_getElem? hjob)
  have hread : ∀ t : Sys World, t.jobs[i]? = some job →
      reconcileJob site i t =
        (if job.status ≠ .running then pure false
        else do
          let proc ← isAlive job
          let scope ← aliveScope site job
          if !proc && !scope then
            setJob i fun j => { j with status := .failed, failureReason := "zombie_at_restart" }
            let now ← call .time
            setJob i fun j => { j with endTime := now, cpuList := "" }
            pure true
          else pure false : M World Bool) t := by
    intro t ht
    simp only [reconcileJob, bind, EStateM.bind, get_apply, ht]
  rw [hread _ hjob, hread (s.without (foreignScope site jobs job.id)) hjob]
  refine Commutes.same (P := fun _ => True) ?_ s trivial
  split
  · exact .pure false
  · refine .bind (Overlooks.isAlive job) fun proc => ?_
    refine .bind (overlooks_aliveScope hid hnames) fun scope => ?_
    split
    · refine .bind (Overlooks.setJob i _) fun _ => .bind (Overlooks.call fun w => rfl) fun now => ?_
      exact .bind (Overlooks.setJob i _) fun _ => .pure true
    · exact .pure false

/-- The scopes tell the jobs of a list apart if and only if no two of its ids look alike. -/
theorem scopes_tell_apart_iff (site : Site) (jobs : List Job) :
    ScopesTellApart site jobs ↔ jobs.Pairwise fun a b => ¬ LookAlike site a.id b.id := by
  have hnames : (jobs.map fun job => scopeUnitName site job.id).Nodup ↔
      jobs.Pairwise fun a b => ¬ LookAlike site a.id b.id := by
    rw [List.Nodup, List.pairwise_map]
    simp only [ne_eq, scopeUnitName_eq_iff]
  rw [← hnames]
  constructor
  · exact ScopesTellApart.names
  · intro hnodup
    refine ⟨hnodup, ?_, fun s i job hids hjob => reconcileJob_overlooks hnodup hids hjob⟩
    intro job hjob created hcreated sliceName s s' hactive hfrom
    obtain ⟨cand, hcand, hdir⟩ := scopeIsActive_dir hactive
    obtain ⟨launched, hlaunched, hunit⟩ := hfrom cand hcand job.id hdir
    obtain ⟨other, hother, rfl⟩ := List.mem_map.mp (hcreated launched hlaunched)
    have hsame : other = job := List.inj_on_of_nodup_map hnodup hother hjob hunit
    exact hsame ▸ hlaunched

/-- Two jobs with different ids and one unit name, recorded running with the pids 77 and 78. -/
def dottedJobs : List Job :=
  [{ scopedJob (pidSession 77) with id := "a.b" }, { scopedJob (pidSession 78) with id := "a_b" }]

/-- A restart after the first of them has ended, while the second runs in its scope. -/
def dottedStart : Sys World :=
  { jobs := dottedJobs,
    world :=
      { others := [⟨78, true, World.statText 78 "bash" false⟩]
        dirs := [scopeDir, scopeDir ++ "/nodepilot-a_b.scope"] } }

/-- The restart spares the job that has ended, for the scope of the other, and frees it where
that scope is not there. -/
theorem scopes_tell_apart_fails : (dottedJobs.map Job.id).Nodup ∧
    ¬ ScopesTellApart scopeSite dottedJobs ∧
    returns (reconcileZombies scopeSite dottedStart)
      (fun s => s.jobs.map Job.status == [.running, .running]) = true ∧
    returns
      (reconcileZombies scopeSite (dottedStart.without (foreignScope scopeSite dottedJobs "a.b")))
      (fun s => s.jobs.map Job.status == [.failed, .running]) = true := by
  refine ⟨by decide, fun h => ?_, by decide +kernel, by decide +kernel⟩
  have hsame : scopeUnitName scopeSite "a.b" = scopeUnitName scopeSite "a_b" := by decide
  have hnames := List.nodup_cons.mp h.names
  exact hnames.1 (List.mem_singleton.mpr hsame)

end Nodepilot
