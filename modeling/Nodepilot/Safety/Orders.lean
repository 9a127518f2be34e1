import Nodepilot.Safety.Commands

/-!
# What is run

A `Recorder` is a host that keeps every command line it is handed.  Over it, an invariant
of the whole scheduler says what these lines are: each is the command of a job of the
queue, with its environment and in its directory, behind a prefix that names exactly the
cores that were allocated for the job and written into it, and in the scope of the job.

Both backends and every way a run can go are covered: any operations in any order, any
answers of the host, exceptions, deaths and restarts.
-/

namespace Nodepilot

open Obeys Relation

/-! ## Orders -/

/-- A command line handed to the host. -/
inductive Order
  | child (job : Job) (argv : List String) (workdir : String) (env : List (String × String))
  | session (job : Job) (name line : String) (env : List (String × String))

namespace Order

def job : Order → Job
  | child job _ _ _ => job
  | session job _ _ _ => job

def env : Order → List (String × String)
  | child _ _ _ env => env
  | session _ _ _ env => env

/-- The directory and the arguments of an order; those of a session are read from its line. -/
def command : Order → Option (String × List String)
  | child _ argv workdir _ => some (workdir, argv)
  | session _ _ line _ =>
      match (Shlex.split line.toList).map fun words => words.map String.ofList with
      | some ("cd" :: directory :: "&&" :: "exec" :: argv) => some (directory, argv)
      | _ => none

end Order

/-- The order an operation gives. -/
def ordersOf {α : Type} : Syscall α → List Order
  | .popen job argv workdir env => [.child job argv workdir env]
  | .tmuxNewSession job session commandLine env => [.session job session commandLine env]
  | _ => []

/-- A host that keeps the orders it is given. -/
structure Recorder (W : Type) where
  world : W
  orders : List Order := []

instance {W : Type} [Host W] : Host (Recorder W) where
  answer c r :=
    match Host.answer c r.world with
    | .ok a w => .ok a ⟨w, ordersOf c ++ r.orders⟩
    | .error e w => .error e ⟨w, ordersOf c ++ r.orders⟩
  raises_only c r r' e h := by
    cases hanswer : Host.answer c r.world with
    | ok a w =>
        rw [hanswer] at h
        cases h
    | error e' w =>
        rw [hanswer] at h
        cases h
        exact Host.raises_only c r.world w e hanswer


/-! ## What orders are given -/

/-- A job as it was declared. -/
def Job.declared (job : Job) : Job :=
  { job with
    status := .pending, session := "", cpuList := "", numaNode := -1, startTime := 0, endTime := 0,
    failureReason := "", exitCode := none }

/-- An order for a job on the placement that is written into it. -/
structure Proper (W : Type) [Host W] (site : Site) (o : Order) : Prop where
  env : o.env = o.job.env
  built : ∃ occupied placement directory argv words,
    allocate o.job.cores occupied site.numaNodes (allocateOptions site o.job) = .ok (some placement) ∧
    o.job.cpuList = placement.cpuList ∧ o.job.numaNode = placement.node ∧
    o.command = some (directory, argv) ∧ (o.job.workdir ≠ "" → directory = o.job.workdir) ∧
    Prefixed W placement.cpuList (policyText placement.interleave placement.node) words ∧
    Wrapped W site o.job (words ++ ["bash", "-lc", o.job.command]) argv

variable {W : Type} [Host W]

/-- What is kept: the jobs are those of the queue, and every order is proper. -/
structure Accounted (site : Site) (s : Sys (Recorder W)) : Prop where
  jobs : s.jobs.map Job.declared = site.queue.map Job.declared
  file : ∀ saved, s.stateFile = some saved → saved.map Job.declared = site.queue.map Job.declared
  orders : ∀ o ∈ s.world.orders, Proper W site o ∧ ∃ queued ∈ site.queue, o.job.declared = queued.declared

/-- A program that keeps the account, whether it returns or raises. -/
abbrev Accounts {α : Type} (site : Site) (m : M (Recorder W) α) : Prop :=
  Obeys (fun _ _ => True) (fun _ s' => Accounted site s') (Accounted site) m fun _ => Accounted site

/-! ## Rules -/

section Rules

variable {α β : Type} {site : Site}

/-- An operation that starts nothing gives no order. -/
theorem orders_after {c : Syscall α} (hc : c.starts = false) (r : Recorder W) :
    (after c r).orders = r.orders := by
  have hnone : ordersOf c = [] := by
    cases c <;> first | rfl | cases hc
  cases hanswer : Host.answer c r.world with
  | ok a w =>
      have hok : Host.answer c r = .ok a ⟨w, ordersOf c ++ r.orders⟩ := by
        simp only [Host.answer, hanswer]
      rw [after_of_ok hok, hnone]
      rfl
  | error e w =>
      have herror : Host.answer c r = .error e ⟨w, ordersOf c ++ r.orders⟩ := by
        simp only [Host.answer, hanswer]
      rw [after_of_error herror, hnone]
      rfl

theorem orders_tended {r r' : Recorder W} (h : Tended r r') : r'.orders = r.orders := by
  induction h with
  | refl => rfl
  | tail _ hlast ih =>
      obtain ⟨α, c, hc, rfl⟩ := hlast
      exact (orders_after hc _).trans ih

/-- What the account does not speak of may change. -/
theorem Accounted.of_same {s s' : Sys (Recorder W)} (h : Accounted site s) (hjobs : s'.jobs = s.jobs)
    (hfile : s'.stateFile = s.stateFile) (horders : s'.world.orders = s.world.orders) :
    Accounted site s' where
  jobs := by rw [hjobs, h.jobs]
  file saved hsaved := h.file saved (hfile ▸ hsaved)
  orders o ho := h.orders o (horders ▸ ho)

/-- A program that looks around. -/
theorem accounts_of_looking {m : M (Recorder W) α} (h : Looking m) : Accounts site m where
  returns hs hm := by
    obtain ⟨w, hseen, rfl⟩ := h.of_ok hm
    exact ⟨.single trivial, hs.of_same rfl rfl (orders_tended (Seen.tended hseen))⟩
  raises {s _ _} hs hm := by
    obtain ⟨w, hseen, rfl⟩ := h.of_error hm
    exact ⟨s, .refl, hs.of_same rfl rfl (orders_tended (Seen.tended hseen))⟩

theorem accounts_of_quiet {m : M (Recorder W) α} (h : Quiet m) : Accounts site m :=
  accounts_of_looking h.looking

/-- The rest of a program after one that only asks. -/
theorem accounts_quiet_bind {m : M (Recorder W) α} {f : α → M (Recorder W) β} (h : Quiet m)
    (hf : ∀ s a s', m s = .ok a s' → Accounts site (f a)) : Accounts site (m >>= f) where
  returns hs hm := by
    obtain ⟨a, s₁, hfirst, hrest⟩ := bind_eq_ok.mp hm
    exact (hf _ a s₁ hfirst).returns ((accounts_of_quiet h).returns hs hfirst).2 hrest |>.imp_left
      fun _ => .single trivial
  raises {s _ _} hs hm := by
    rcases bind_eq_error.mp hm with hfirst | ⟨a, s₁, hfirst, hrest⟩
    · exact (accounts_of_quiet h).raises hs hfirst
    · obtain ⟨mid, -, hkept⟩ := (hf _ a s₁ hfirst).raises ((accounts_of_quiet h).returns hs hfirst).2 hrest
      exact ⟨s, .refl, hkept⟩

theorem accounts_liftExcept_bind {x : Except Exc α} {f : α → M (Recorder W) β}
    (hf : ∀ a, x = .ok a → Accounts site (f a)) : Accounts site (liftExcept x >>= f) :=
  accounts_quiet_bind (.liftExcept x) fun _ a _ h => hf a (liftExcept_eq_ok.mp h).1

theorem accounts_tryExcept {m : M (Recorder W) α} {caught : ExcClass → Bool}
    {handler : Exc → M (Recorder W) α} (hm : Accounts site m) (hhandler : ∀ e, Accounts site (handler e)) :
    Accounts site (tryExcept m caught handler) where
  returns hs h := by
    rcases tryExcept_eq_ok.mp h with h | ⟨e, s₁, hbody, -, h⟩
    · exact hm.returns hs h
    · obtain ⟨mid, -, hkept⟩ := hm.raises hs hbody
      exact ⟨.single trivial, ((hhandler e).returns hkept h).2⟩
  raises {s _ _} hs h := by
    rcases tryExcept_eq_error.mp h with ⟨h, -⟩ | ⟨e, s₁, hbody, -, h⟩
    · exact hm.raises hs h
    · obtain ⟨mid, -, hkept⟩ := hm.raises hs hbody
      obtain ⟨mid', -, hkept'⟩ := (hhandler e).raises hkept h
      exact ⟨s, .refl, hkept'⟩

theorem accounts_get_bind {f : Sys (Recorder W) → M (Recorder W) β}
    (hf : ∀ s, Accounted site s → Accounts site (f s)) : Accounts site (get >>= f) :=
  .get_bind fun s₀ hs₀ => (hf s₀ hs₀).weaken (fun _ hs => by subst hs; exact hs₀) fun _ _ h => h

theorem accounts_modify {f : Sys (Recorder W) → Sys (Recorder W)} (hjobs : ∀ s, (f s).jobs = s.jobs)
    (hfile : ∀ s, (f s).stateFile = s.stateFile)
    (horders : ∀ s, (f s).world.orders = s.world.orders) : Accounts site (modify f) :=
  .modify fun s hs => ⟨trivial, hs.of_same (hjobs s) (hfile s) (horders s)⟩

/-- Writing runtime fields of a job. -/
theorem accounts_setJob {i : ℕ} {f : Job → Job} (hf : ∀ job, (f job).declared = job.declared) :
    Accounts (W := W) site (setJob i f) :=
  .modify fun _ hs => ⟨trivial, (map_modify_of_eq hf).trans hs.jobs, hs.file, hs.orders⟩

theorem accounts_sweep {ι : Type} {body : ι → M (Recorder W) Bool} {items : List ι}
    (h : ∀ i, Accounts site (body i)) : Accounts site (sweep body items) :=
  sweep_inv fun i _ => h i

theorem accounts_bind {m : M (Recorder W) α} {f : α → M (Recorder W) β} (hm : Accounts site m)
    (hf : ∀ a, Accounts site (f a)) : Accounts site (m >>= f) :=
  .bind hm hf

theorem accounts_pure (a : α) : Accounts (W := W) site (pure a) :=
  .pure fun _ hs => hs

end Rules

/-! ## Starts -/

section Starts

variable {site : Site} {job : Job}

/-- A proper order may be given for a job of the queue. -/
theorem accounts_order {α : Type} {c : Syscall α} (hproper : ∀ o ∈ ordersOf c, Proper W site o ∧
    ∃ queued ∈ site.queue, o.job.declared = queued.declared) :
    Accounts (W := W) site (call c) := by
  have hkept : ∀ (s : Sys (Recorder W)) (w : W), Accounted site s →
      Accounted site { s with world := ⟨w, ordersOf c ++ s.world.orders⟩ } := fun s w hs =>
    ⟨hs.jobs, hs.file, fun o ho => (List.mem_append.mp ho).elim (hproper o) (hs.orders o)⟩
  refine ⟨fun {s _ _} hs h => ?_, fun {s _ _} hs h => ?_⟩
  · obtain ⟨r, hanswer, rfl⟩ := call_eq_ok.mp h
    refine ⟨.single trivial, ?_⟩
    simp only [Host.answer] at hanswer
    split at hanswer
    · cases hanswer
      exact hkept s _ hs
    · cases hanswer
  · obtain ⟨r, hanswer, rfl⟩ := call_eq_error.mp h
    refine ⟨s, .refl, ?_⟩
    simp only [Host.answer] at hanswer
    split at hanswer
    · cases hanswer
    · cases hanswer
      exact hkept s _ hs

/-- The directory a job is run in. -/
theorem workdirOf_eq_ok {s s' : Sys (Recorder W)} {workdir : String}
    (h : workdirOf job s = .ok workdir s') : job.workdir ≠ "" → workdir = job.workdir := by
  intro hne
  rw [workdirOf, if_pos hne] at h
  cases h
  rfl

theorem Finds.recorder {program : String} (h : Finds W program) : Finds (Recorder W) program := by
  intro r r' b hanswer
  simp only [Host.answer] at hanswer
  split at hanswer
  · rename_i hinner
    cases hanswer
    exact h _ _ _ hinner
  · cases hanswer

theorem HasBus.recorder (h : HasBus W) : HasBus (Recorder W) := by
  intro r r' b hanswer
  simp only [Host.answer] at hanswer
  split at hanswer
  · rename_i hinner
    cases hanswer
    exact h _ _ _ hinner
  · cases hanswer

theorem Prefixed.of_recorder {cpuList policy : String} {words : List String}
    (h : Prefixed (Recorder W) cpuList policy words) : Prefixed W cpuList policy words := by
  cases h with
  | bare h => exact .bare (h.imp_right fun ⟨hnumactl, htaskset⟩ =>
      ⟨fun hfinds => hnumactl hfinds.recorder, fun hfinds => htaskset hfinds.recorder⟩)
  | numactl h => exact .numactl h
  | taskset h hnot => exact .taskset h fun hfinds => hnot hfinds.recorder

theorem Wrapped.of_recorder {placed argv : List String}
    (h : Wrapped (Recorder W) site job placed argv) : Wrapped W site job placed argv := by
  cases h with
  | bare h => exact .bare (h.imp_right fun hnot hall => hnot ⟨hall.1.recorder, hall.2.recorder⟩)
  | scope h => exact .scope h

/-- The order of either backend is proper. -/
theorem proper_of_built {placement : Placement} {occupied : Finset ℤ} {argv : List String}
    {workdir : String} {s s' : Sys (Recorder W)}
    (hplaced : allocate job.cores occupied site.numaNodes (allocateOptions site job) = .ok (some placement))
    (hcpus : job.cpuList = placement.cpuList) (hnode : job.numaNode = placement.node)
    (hbuild : buildCommand site job placement s = .ok argv s')
    (hworkdir : job.workdir ≠ "" → workdir = job.workdir) :
    Proper W site (.child job argv workdir job.env) ∧
    Proper W site (.session job (sessionName job.id)
      ("cd " ++ shellQuote workdir ++ " && exec " ++ " ".intercalate (argv.map shellQuote)) job.env) := by
  obtain ⟨words, hprefix, hwrapped⟩ := buildCommand_eq_ok hbuild
  have hboth : ∀ o : Order, o.job = job → o.env = job.env → o.command = some (workdir, argv) →
      Proper W site o := by
    rintro o rfl henv hcommand
    exact ⟨henv, occupied, placement, workdir, argv, words, hplaced, hcpus, hnode, hcommand, hworkdir,
      hprefix.of_recorder, hwrapped.of_recorder⟩
  refine ⟨hboth _ rfl rfl rfl, hboth _ rfl rfl ?_⟩
  rw [Order.command, split_sessionLine]
  simp

theorem accounts_start {placement : Placement} {occupied : Finset ℤ} {argv : List String} {i : ℕ}
    {s s' : Sys (Recorder W)} (hqueued : ∃ queued ∈ site.queue, job.declared = queued.declared)
    (hplaced : allocate job.cores occupied site.numaNodes (allocateOptions site job) = .ok (some placement))
    (hcpus : job.cpuList = placement.cpuList) (hnode : job.numaNode = placement.node)
    (hbuild : buildCommand site job placement s = .ok argv s') :
    Accounts (W := W) site (start site i job argv) := by
  refine accounts_quiet_bind (quiet_workdirOf job) fun s₁ workdir s₂ hworkdir => ?_
  obtain ⟨hchild, hsession⟩ := proper_of_built hplaced hcpus hnode hbuild (workdirOf_eq_ok hworkdir)
  have hnote : Accounts (W := W) site (noteStart i) :=
    accounts_modify (fun _ => rfl) (fun _ => rfl) fun _ => rfl
  split
  · have hkill : Accounts (W := W) site (call (.tmuxKillSession (sessionName job.id))) :=
      accounts_order fun o ho => absurd ho List.not_mem_nil
    refine accounts_bind hkill fun _ => accounts_bind (accounts_order fun o ho => ?_) fun _ =>
      accounts_bind hnote fun _ => accounts_setJob fun _ => rfl
    rw [List.mem_singleton.mp ho]
    exact ⟨hsession, hqueued⟩
  · refine accounts_bind (accounts_order fun o ho => ?_) fun proc => accounts_bind hnote fun _ =>
      accounts_bind (accounts_setJob fun _ => rfl) fun _ =>
      accounts_bind (accounts_modify (fun _ => rfl) (fun _ => rfl) fun _ => rfl) fun _ =>
      accounts_bind (accounts_of_quiet (quiet_setOomScoreAdj _ _)) fun _ => accounts_pure _
    rw [List.mem_singleton.mp ho]
    exact ⟨hchild, hqueued⟩

end Starts

/-! ## The functions of the scheduler -/

section Functions

variable {site : Site}

theorem accounts_time : Accounts (W := W) site (call .time) :=
  accounts_of_quiet (.call rfl)

theorem Accounted.declared {s : Sys (Recorder W)} (h : Accounted site s) {i : ℕ} {job : Job}
    (hjob : s.jobs[i]? = some job) : ∃ queued ∈ site.queue, job.declared = queued.declared := by
  have hmem : job.declared ∈ site.queue.map Job.declared := by
    rw [← h.jobs]
    exact List.mem_map_of_mem (List.mem_of_getElem? hjob)
  obtain ⟨queued, hqueued, heq⟩ := List.mem_map.mp hmem
  exact ⟨queued, hqueued, heq.symm⟩

theorem accounts_launch (i : ℕ) : Accounts (W := W) site (launch site i) := by
  refine accounts_get_bind fun s hs => ?_
  cases hjob : s.jobs[i]? with
  | none => exact accounts_pure _
  | some job =>
      refine accounts_liftExcept_bind fun occupied _ => accounts_liftExcept_bind fun found hfound => ?_
      cases found with
      | none => exact accounts_pure _
      | some placement =>
          refine accounts_bind (accounts_setJob fun _ => rfl) fun _ =>
            accounts_quiet_bind (quiet_buildCommand site _ placement) fun s₁ argv s₂ hbuild => ?_
          have hqueued := hs.declared hjob
          have hstart : Accounts (W := W) site (start site i (job.place placement) argv) :=
            accounts_start (show ∃ queued ∈ site.queue, (job.place placement).declared = queued.declared from
              hqueued) hfound rfl rfl hbuild
          refine accounts_bind (accounts_tryExcept (accounts_bind hstart fun _ => accounts_pure _)
            fun e => accounts_pure _) fun failure => ?_
          cases failure with
          | some e =>
              exact accounts_bind (accounts_setJob fun _ => rfl) fun _ => accounts_bind accounts_time
                fun now => accounts_bind (accounts_setJob fun _ => rfl) fun _ => accounts_pure _
          | none =>
              exact accounts_bind (accounts_setJob fun _ => rfl) fun _ => accounts_bind accounts_time
                fun now => accounts_bind (accounts_setJob fun _ => rfl) fun _ => accounts_pure _

theorem accounts_launchPending : Accounts (W := W) site (launchPending site) := by
  refine accounts_get_bind fun s _ => accounts_sweep fun i => accounts_get_bind fun s _ => ?_
  split
  · exact accounts_pure _
  · split
    · refine accounts_bind (accounts_of_quiet (quiet_canLaunch _ _ _)) fun decision => ?_
      split
      · exact accounts_launch i
      · exact accounts_pure _
    · exact accounts_pure _

theorem accounts_forget (job : Job) : Accounts (W := W) site (forget job) := by
  unfold forget
  split
  · exact accounts_liftExcept_bind fun pid _ => accounts_modify (fun _ => rfl) (fun _ => rfl) fun _ => rfl
  · exact accounts_pure _

theorem accounts_reap (job : Job) : Accounts (W := W) site (reap job) := by
  refine accounts_bind (accounts_of_looking (looking_returncode job)) fun code =>
    accounts_bind (accounts_forget job) fun _ => ?_
  split
  · exact accounts_bind (accounts_of_quiet (quiet_journalReportsOom 5)) fun hint => accounts_pure _
  · exact accounts_pure _

theorem accounts_reapFinished : Accounts (W := W) site (reapFinished site) := by
  refine accounts_get_bind fun s _ => accounts_sweep fun i => accounts_get_bind fun s _ => ?_
  split
  · exact accounts_pure _
  · rename_i job _
    split
    · exact accounts_pure _
    · refine accounts_bind (accounts_of_looking (looking_isAlive job)) fun alive => ?_
      split
      · exact accounts_pure _
      · refine accounts_bind (accounts_reap job) fun outcome => accounts_bind (accounts_setJob fun _ => rfl)
          fun _ => accounts_bind accounts_time fun now => accounts_bind (accounts_setJob fun _ => rfl)
          fun _ => ?_
        split
        · exact accounts_bind (accounts_bind accounts_time fun _ =>
            accounts_modify (fun _ => rfl) (fun _ => rfl) fun _ => rfl) fun _ => accounts_pure _
        · exact accounts_pure _

theorem accounts_markPasses (fuel : ℕ) : Accounts (W := W) site (markPasses fuel) := by
  have hmark : ∀ i, Accounts (W := W) site (markJob i) := fun i => by
    refine accounts_get_bind fun s _ => ?_
    split
    · exact accounts_pure _
    · split
      · exact accounts_pure _
      · split
        · exact accounts_pure _
        · exact accounts_bind (accounts_setJob fun _ => rfl) fun _ => accounts_bind accounts_time
            fun now => accounts_bind (accounts_setJob fun _ => rfl) fun _ => accounts_pure _
  induction fuel with
  | zero => exact accounts_pure _
  | succ fuel ih =>
      refine accounts_get_bind fun s _ => accounts_bind (accounts_sweep hmark) fun progressed => ?_
      split
      · exact accounts_bind ih fun _ => accounts_pure _
      · exact accounts_pure _

theorem accounts_markDeadDependents : Accounts (W := W) site markDeadDependents :=
  accounts_get_bind fun _ _ => accounts_markPasses _

theorem accounts_tick : Accounts (W := W) site (tick site) :=
  accounts_bind accounts_reapFinished fun _ => accounts_bind accounts_markDeadDependents fun _ =>
    accounts_bind (accounts_of_quiet quiet_enforcePins) fun _ =>
      accounts_bind accounts_launchPending fun _ => accounts_pure _

theorem accounts_saveState : Accounts (W := W) site saveState := by
  refine accounts_bind accounts_time fun _ => accounts_bind (accounts_of_quiet (.call rfl)) fun _ => ?_
  refine .modify fun s hs => ⟨trivial, hs.jobs, fun saved hsaved => ?_, hs.orders⟩
  cases hsaved
  exact hs.jobs

theorem accounts_reconcileZombies : Accounts (W := W) site (reconcileZombies site) := by
  refine accounts_get_bind fun s _ => accounts_bind (accounts_sweep fun i => accounts_get_bind fun s _ => ?_)
    fun cleared => ?_
  · split
    · exact accounts_pure _
    · rename_i job _
      split
      · exact accounts_pure _
      · refine accounts_bind (accounts_of_looking (looking_isAlive job)) fun proc =>
          accounts_bind (accounts_of_quiet (quiet_aliveScope site job)) fun scope => ?_
        split
        · exact accounts_bind (accounts_setJob fun _ => rfl) fun _ => accounts_bind accounts_time
            fun now => accounts_bind (accounts_setJob fun _ => rfl) fun _ => accounts_pure _
        · exact accounts_pure _
  · split
    · exact accounts_saveState
    · exact accounts_pure _

theorem accounts_killJob (job : Job) : Accounts (W := W) site (killJob job) where
  returns hs h := by
    obtain ⟨procs, w, htended, rfl⟩ := handled_of_path ((killJob_handled job).returns trivial h).1
    exact ⟨.single trivial, hs.of_same rfl rfl (orders_tended htended)⟩
  raises {s _ _} hs h := by
    obtain ⟨mid, hpath, rfl⟩ := (killJob_handled job).raises trivial h
    obtain ⟨procs, w, htended, rfl⟩ := handled_of_path hpath
    exact ⟨s, .refl, hs.of_same rfl rfl (orders_tended htended)⟩

theorem accounts_kill (jobId : String) : Accounts (W := W) site (kill jobId) := by
  refine accounts_get_bind fun s _ => ?_
  split
  · exact accounts_pure _
  · split
    · exact accounts_pure _
    · refine accounts_bind (accounts_killJob _) fun _ => accounts_bind ?_ fun _ =>
        accounts_bind accounts_saveState fun _ => accounts_pure _
      exact accounts_bind (accounts_setJob fun _ => rfl) fun _ => accounts_bind accounts_time
        fun now => accounts_setJob fun _ => rfl

theorem Op.accounts (site : Site) (op : Op) : Accounts (W := W) site (op.program site) := by
  have hdrop : ∀ {α : Type} {m : M (Recorder W) α}, Accounts site m → Accounts site (do let _ ← m) :=
    fun h => accounts_bind h fun _ => accounts_pure _
  cases op with
  | reapFinished => exact hdrop accounts_reapFinished
  | markDeadDependents => exact hdrop accounts_markDeadDependents
  | enforcePins => exact accounts_of_quiet quiet_enforcePins
  | launchPending => exact hdrop accounts_launchPending
  | launch i => exact hdrop (accounts_launch i)
  | tick => exact hdrop accounts_tick
  | saveState => exact accounts_saveState
  | reconcileZombies => exact accounts_reconcileZombies
  | kill jobId => exact hdrop (accounts_kill jobId)

end Functions

/-! ## Runs -/

/-- The states of the runs of a site on a host that keeps its orders. -/
inductive Watched (site : Site) : Sys (Recorder W) → Prop
  | fresh (w : W) : Watched site (fresh site ⟨w, []⟩)
  /-- The world moves on its own. -/
  | world {s : Sys (Recorder W)} (w : W) (h : Watched site s) :
      Watched site { s with world := ⟨w, s.world.orders⟩ }
  | op {s s' : Sys (Recorder W)} (op : Op) (h : Watched site s) (hop : op.program site s = .ok () s') :
      Watched site s'
  /-- An operation raises, which ends the process. -/
  | raise {s s' : Sys (Recorder W)} {e : Exc} (op : Op) (h : Watched site s)
      (hop : op.program site s = .error e s') : Watched site s'
  /-- An orchestrator loads the state file. -/
  | resume {s s' : Sys (Recorder W)} (h : Watched site s) (hload : fromQueue site s = .ok () s') :
      Watched site s'

theorem Watched.accounted {site : Site} {s : Sys (Recorder W)} (h : Watched site s) : Accounted site s := by
  induction h with
  | fresh w => exact ⟨rfl, fun _ h => (by cases h), fun _ h => absurd h List.not_mem_nil⟩
  | world w h ih => exact ih.of_same rfl rfl rfl
  | op op h hop ih => exact ((op.accounts site).returns ih hop).2
  | raise op h hop ih =>
      obtain ⟨-, -, hkept⟩ := (op.accounts site).raises ih hop
      exact hkept
  | @resume s s' h hload ih =>
      obtain ⟨w, hlater, rfl⟩ := fromQueue_eq_ok hload
      have horders : w.orders = s.world.orders := orders_tended (Seen.tended (Later.seen hlater))
      refine ⟨?_, ih.file, fun o ho => ih.orders o (horders ▸ ho)⟩
      cases hfile : s.stateFile with
      | none => rfl
      | some saved => exact ih.file saved hfile

/-- A placement is interleaved as its options say. -/
theorem interleave_of_allocate {nCores : ℤ} {occupied : Finset ℤ} {numaNodes : List (ℤ × String)}
    {options : AllocateOptions} {placement : Placement} (hpos : 0 < nCores)
    (h : allocate nCores occupied numaNodes options = .ok (some placement)) :
    placement.interleave = options.willInterleave := by
  rw [allocate, if_neg (not_le.mpr hpos)] at h
  obtain ⟨found, -, h⟩ := except_bind_eq_ok.mp h
  cases hsort : found.insertionSort (fun a b => a.key ≤ b.key) with
  | nil => simp [hsort] at h
  | cons best others =>
      simp only [hsort] at h
      cases h
      rfl

/-- Every command line that is ever handed to the host is for a job of the queue, with its
environment and in its directory, and ends with its command as it was queued.  In front of
that is a prefix only, which is for exactly as many cores as the job asks for, those and no
others being written into it, and for its node; around it the scope of the job only.  Both
are left out only if there is nothing to confine or the host has no program for it. -/
theorem orders_composed (site : Site) (s : Sys (Recorder W)) (h : Watched site s) :
    ∀ o ∈ s.world.orders, ∃ queued ∈ site.queue, o.job.declared = queued.declared ∧ o.env = queued.env ∧
      ∃ directory argv words, o.command = some (directory, argv) ∧
        (queued.workdir ≠ "" → directory = queued.workdir) ∧
        Wrapped W site queued (words ++ ["bash", "-lc", queued.command]) argv ∧
        (queued.cores ≤ 0 → words = []) ∧
        (0 < queued.cores → ∃ cores, parseCpuList o.job.cpuList = .ok cores ∧
          (cores.card : ℤ) = queued.cores ∧ Prefixed W o.job.cpuList
            (policyText (allocateOptions site queued).willInterleave o.job.numaNode) words) := by
  intro o ho
  obtain ⟨⟨henv, occupied, placement, directory, argv, words, hplaced, hcpus, hnode, hcommand, hworkdir,
    hprefix, hwrapped⟩, queued, hqueued, hdeclared⟩ := h.accounted.orders o ho
  have hsame : ∀ {β : Type} (f : Job → β), (∀ job, f job.declared = f job) → f o.job = f queued :=
    fun f hf => by rw [← hf o.job, hdeclared, hf queued]
  have hcores : o.job.cores = queued.cores := hsame Job.cores fun _ => rfl
  have hram : o.job.ramGb = queued.ramGb := hsame Job.ramGb fun _ => rfl
  have hoptions : allocateOptions site o.job = allocateOptions site queued := by
    rw [allocateOptions, allocateOptions, hram]
  rw [hcores, hoptions] at hplaced
  refine ⟨queued, hqueued, hdeclared, henv.trans (hsame Job.env fun _ => rfl), directory, argv, words,
    hcommand, ?_, ?_, fun hnonpos => ?_, fun hpos => ?_⟩
  · rw [← hsame Job.workdir fun _ => rfl]
    exact hworkdir
  · rw [hsame Job.command fun _ => rfl] at hwrapped
    cases hwrapped with
    | bare h => exact .bare h
    | scope h =>
        rw [hsame Job.id fun _ => rfl, hram]
        exact .scope h
  · -- a job that asks for no cores is placed on none
    have hempty := allocate_of_nonpos hnonpos hplaced
    cases hprefix with
    | bare => rfl
    | numactl hne => exact absurd hempty hne
    | taskset hne => exact absurd hempty hne
  · obtain ⟨-, -, block, -, -, hblock, hcard, -⟩ := allocate_spec hpos hplaced
    rw [interleave_of_allocate hpos hplaced, ← hcpus, ← hnode] at hprefix
    exact ⟨block, hcpus ▸ hblock, hcard, hprefix⟩

/-! ## A session -/

/-- A job whose text and directory need quotes. -/
def quotedJob : Job :=
  { id := "a", command := "echo 'a b'", cores := 2, ramGb := 33 / 2, workdir := "/data dir" }

def quotedSite : Site :=
  smallSite [quotedJob]
    { smallConfig with runner := "tmux", memorySlice := "n.slice" } reserved_smallConfig

/-- A host with everything a job can be wrapped in. -/
def quotedStart : Sys (Recorder World) :=
  fresh quotedSite ⟨{ programs := ["numactl", "tmux", "systemd-run"] }, []⟩

/-- The one order a program gives is as hoped. -/
def orders (result : EStateM.Result Exc (Sys (Recorder World)) Unit) (hoped : Order → Bool) : Bool :=
  match result with
  | .ok _ s => s.world.orders.length == 1 && s.world.orders.all hoped
  | .error _ _ => false

theorem of_orders {result : EStateM.Result Exc (Sys (Recorder World)) Unit} {hoped : Order → Bool}
    (h : orders result hoped = true) :
    ∃ s o, result = .ok () s ∧ s.world.orders = [o] ∧ hoped o = true := by
  cases result with
  | ok a s =>
      obtain ⟨hone, hall⟩ := Bool.and_eq_true_iff.mp h
      obtain ⟨o, ho⟩ := List.length_eq_one_iff.mp (beq_iff_eq.mp hone)
      rw [ho] at hall
      exact ⟨s, o, rfl, ho, by simpa using hall⟩
  | error e s => cases h

/-- The arguments that are read back from the line of the session. -/
def quotedArgv : List String :=
  ["systemd-run", "--user", "--scope", "--quiet", "--collect", "--no-block", "--slice=n.slice",
    "--unit=nodepilot-a.scope", "-p", "MemoryMax=16.5G", "-p", "MemorySwapMax=0", "-p",
    "MemoryHigh=12.5G", "numactl", "--physcpubind=0-1", "--membind=0", "bash", "-lc", "echo 'a b'"]

/-- The line of a session has the job in it as it was queued. -/
theorem orders_composed_session : ∃ (s : Sys (Recorder World)) (o : Order),
    Watched quotedSite s ∧ s.world.orders = [o] ∧ o.env = quotedJob.env ∧
    o.command = some ("/data dir", quotedArgv) ∧
    ∃ cores, parseCpuList o.job.cpuList = .ok cores ∧ (cores.card : ℤ) = 2 := by
  obtain ⟨s, o, hrun, ho, hhoped⟩ := of_orders
    (show orders (Op.tick.program quotedSite quotedStart) (fun o =>
      o.command == some ("/data dir", quotedArgv)) = true by decide +kernel)
  have hwatched : Watched quotedSite s := .op .tick (.fresh _) hrun
  have hmem : o ∈ s.world.orders := by
    rw [ho]
    exact List.mem_singleton_self o
  obtain ⟨queued, hqueued, -, henv, directory, argv, words, -, -, -, -, hcores⟩ :=
    orders_composed quotedSite s hwatched o hmem
  have hone : queued = quotedJob := List.mem_singleton.mp hqueued
  subst hone
  obtain ⟨cores, hparse, hcard, -⟩ := hcores (by decide)
  exact ⟨s, o, hwatched, ho, henv, beq_iff_eq.mp hhoped, cores, hparse, hcard⟩

end Nodepilot
