import Nodepilot.Safety.Exclusivity
import Nodepilot.Safety.Placement
import Nodepilot.Safety.Stuck

/-!
# No priority inversion within a launch pass

A pass does not wait for a job it has to turn down: it goes on to the next one.  Still
no job overtakes one that is before it in the order and asks for no more.  Within a
pass the running jobs only grow and so do the occupied CPUs; and whatever turns down the
smaller request at one moment turns down the larger one at every later moment.  This is
shown for admission control (`Lets.anti`) and for the allocator (`placeable_anti`), each
in the demand and in what is running.

A turn of the pass is cut in two at the call of `self.runner.start` (`launchCandidate_eq`), and
that the call is made (`StartAttempted`) says how `launchPending` goes on from it.
-/

namespace Nodepilot

open Obeys Relation

variable {W : Type} [Host W]

/-! ## The attempt to start a job -/

/-- `_launch` up to `self.runner.start`: the job and the command line that is called with, if it
is. -/
def placed (site : Site) (i : ℕ) : M W (Option (Job × List String)) := do
  let s ← get
  match s.jobs[i]? with
  | none => pure none
  | some job =>
      let occupied ← liftExcept (occupiedCores site s.jobs)
      match ← liftExcept
          (allocate job.cores occupied site.numaNodes (allocateOptions site job)) with
      | none => pure none
      | some placement =>
          setJob i (Job.place placement)
          let argv ← buildCommand site (job.place placement) placement
          pure (some (job.place placement, argv))

/-- The turn of an index in a launch pass up to `self.runner.start`. -/
def upToStart (site : Site) (i : ℕ) : M W (Option (Job × List String)) := do
  let s ← get
  match s.jobs[i]? with
  | none => pure none
  | some job =>
      if depsSatisfied s.jobs job then
        let decision ← canLaunch site.config job s.jobs
        if decision.ok then placed site i else pure none
      else pure none

/-- `_launch` from `self.runner.start` on. -/
def fromStart (site : Site) (i : ℕ) (job : Job) (argv : List String) : M W Bool := do
  let failure ← tryExcept
    (do
      start site i job argv
      pure none)
    (fun cls => cls.isOSError || cls == .runtimeError)
    fun e => pure (some e)
  match failure with
  | some e =>
      setJob i fun j =>
        { j with status := .failed, failureReason := "launch_error: " ++ e.message }
      let now ← call .time
      setJob i fun j => { j with endTime := now }
      pure true
  | none =>
      setJob i fun j => { j with status := .running }
      let now ← call .time
      setJob i fun j => { j with startTime := now }
      pure true

/-- The rest of a turn, which starts nothing where the start was not reached. -/
def finishTurn (site : Site) (i : ℕ) : Option (Job × List String) → M W Bool
  | none => pure false
  | some (job, argv) => fromStart site i job argv

theorem launch_eq (site : Site) (i : ℕ) :
    launch (W := W) site i = placed site i >>= finishTurn site i := by
  funext s
  unfold launch placed
  rw [bind_assoc]
  refine congrFun (bind_congr fun s₀ => ?_) s
  cases s₀.jobs[i]? with
  | none => rfl
  | some job =>
      simp only [bind_assoc]
      refine bind_congr fun occupied => bind_congr fun placement => ?_
      cases placement with
      | none => rfl
      | some placement =>
          simp only [bind_assoc, pure_bind]
          rfl

/-- A turn of the pass is its way up to the start and what comes from there on. -/
theorem launchCandidate_eq (site : Site) (i : ℕ) :
    launchCandidate (W := W) site i = upToStart site i >>= finishTurn site i := by
  unfold launchCandidate upToStart
  rw [bind_assoc]
  refine bind_congr fun s₀ => ?_
  cases s₀.jobs[i]? with
  | none => rfl
  | some job =>
      dsimp only
      split_ifs with hdeps
      · rw [bind_assoc]
        refine bind_congr fun decision => ?_
        split_ifs with hok
        · exact launch_eq site i
        · rfl
      · rfl

/-- In the launch pass from a state, once the turns of the indices before have been taken,
`self.runner.start` is called for the job at an index, in a state the pass goes on from with that
call. -/
inductive StartAttempted (site : Site) (s : Sys W) (before : List ℕ) (i : ℕ) (s' : Sys W) : Prop
  | mk {after : List ℕ} {earlier : Bool} {mid : Sys W} {job : Job} {argv : List String}
      (horder : pendingOrder s.jobs = before ++ i :: after)
      (hturns : sweep (launchCandidate site) before s = .ok earlier mid)
      (hcall : upToStart site i mid = .ok (some (job, argv)) s')
      (hpass : launchPending site s = (do
        let this ← fromStart site i job argv
        let later ← sweep (launchCandidate site) after
        pure (earlier || (this || later))) s') : StartAttempted site s before i s'

/-- The pass from any of its turns on. -/
theorem launchPending_eq {site : Site} {s mid : Sys W} {before after : List ℕ} {i : ℕ} {earlier : Bool}
    (horder : pendingOrder s.jobs = before ++ i :: after)
    (hturns : sweep (launchCandidate site) before s = .ok earlier mid) :
    launchPending site s = (do
      let call ← upToStart site i
      let this ← finishTurn site i call
      let later ← sweep (launchCandidate site) after
      pure (earlier || (this || later))) mid := by
  have hpass : launchPending site s = sweep (launchCandidate site) (before ++ i :: after) s := by
    rw [← horder]
    rfl
  rw [hpass, sweep_append hturns, sweep, launchCandidate_eq]
  simp only [bind_assoc, pure_bind]

/-- Wherever the turns of a pass get to a start, the pass makes it. -/
theorem StartAttempted.of_turns {site : Site} {s mid s' : Sys W} {before after : List ℕ} {i : ℕ}
    {earlier : Bool} {job : Job} {argv : List String}
    (horder : pendingOrder s.jobs = before ++ i :: after)
    (hturns : sweep (launchCandidate site) before s = .ok earlier mid)
    (hcall : upToStart site i mid = .ok (some (job, argv)) s') : StartAttempted site s before i s' := by
  refine .mk horder hturns hcall ?_
  rw [launchPending_eq horder hturns, bind_of_ok hcall]
  rfl

/-- What a turn has found out that gets to the start. -/
inductive ReachesStart (site : Site) (i : ℕ) (s : Sys W) : Sys W → Prop
  | mk {job : Job} {decision : Decision} {w : W} {occupied : Finset ℤ} {placement : Placement}
      {argv : List String} {s' : Sys W}
      (hjob : s.jobs[i]? = some job) (hdeps : depsSatisfied s.jobs job = true)
      (hdecision : canLaunch site.config job s.jobs s = .ok decision { s with world := w })
      (hok : decision.ok = true)
      (hoccupied : occupiedCores site s.jobs = .ok occupied)
      (hplaced : allocate job.cores occupied site.numaNodes (allocateOptions site job) =
        .ok (some placement))
      (hbuild : buildCommand site (job.place placement) placement (placing s i placement w) =
        .ok argv s') :
      ReachesStart site i s s'

theorem upToStart_eq_some {site : Site} {i : ℕ} {s s' : Sys W} :
    (∃ call, upToStart site i s = .ok (some call) s') ↔ ReachesStart site i s s' := by
  constructor
  · rintro ⟨call, h⟩
    obtain ⟨s₀, s₁, hget, h⟩ := bind_eq_ok.mp h
    cases hget
    cases hjob : s.jobs[i]? with
    | none =>
        simp only [hjob] at h
        cases h
    | some job =>
        simp only [hjob] at h
        split at h
        · rename_i hdeps
          obtain ⟨decision, s₁, hdecision, h⟩ := bind_eq_ok.mp h
          obtain ⟨w, -, rfl⟩ := (quiet_canLaunch _ _ _).of_ok hdecision
          split at h
          · rename_i hok
            obtain ⟨s₂, s₃, hget, h⟩ := bind_eq_ok.mp h
            cases hget
            simp only [hjob] at h
            obtain ⟨occupied, s₃, hlift, h⟩ := bind_eq_ok.mp h
            obtain ⟨hoccupied, rfl⟩ := liftExcept_eq_ok.mp hlift
            obtain ⟨placement, s₄, hlift', h⟩ := bind_eq_ok.mp h
            obtain ⟨hplaced, rfl⟩ := liftExcept_eq_ok.mp hlift'
            cases placement with
            | none => cases h
            | some placement =>
                obtain ⟨⟨⟩, s₅, hset, h⟩ := bind_eq_ok.mp h
                cases hset
                obtain ⟨argv, s₆, hbuild, hpure⟩ := bind_eq_ok.mp h
                cases hpure
                exact .mk hjob hdeps hdecision hok hoccupied hplaced hbuild
          · cases h
        · cases h
  · rintro @⟨job, decision, w, occupied, placement, argv, _, hjob, hdeps, hdecision, hok,
      hoccupied, hplaced, hbuild⟩
    refine ⟨(job.place placement, argv), bind_eq_ok.mpr ⟨s, s, rfl, ?_⟩⟩
    simp only [hjob]
    rw [if_pos hdeps]
    refine bind_eq_ok.mpr ⟨decision, _, hdecision, ?_⟩
    rw [if_pos hok]
    refine bind_eq_ok.mpr ⟨_, _, rfl, ?_⟩
    simp only [hjob]
    refine bind_eq_ok.mpr ⟨occupied, _, liftExcept_eq_ok.mpr ⟨hoccupied, rfl⟩, ?_⟩
    refine bind_eq_ok.mpr ⟨some placement, _, liftExcept_eq_ok.mpr ⟨hplaced, rfl⟩, ?_⟩
    refine bind_eq_ok.mpr ⟨⟨⟩, _, rfl, ?_⟩
    exact bind_eq_ok.mpr ⟨argv, s', hbuild, rfl⟩

/-- A turn says that it has changed something exactly if it got to the start. -/
theorem reachesStart_iff {site : Site} {i : ℕ} {s s' : Sys W} {changed : Bool}
    (h : launchCandidate site i s = .ok changed s') :
    changed = true ↔ ∃ mid, ReachesStart site i s mid := by
  constructor
  · rintro rfl
    obtain ⟨s₀, s₁, hget, h⟩ := bind_eq_ok.mp h
    cases hget
    cases hjob : s.jobs[i]? with
    | none =>
        simp only [hjob] at h
        cases h
    | some job =>
        simp only [hjob] at h
        split at h
        · rename_i hdeps
          obtain ⟨decision, s₁, hdecision, h⟩ := bind_eq_ok.mp h
          obtain ⟨w, -, rfl⟩ := (quiet_canLaunch _ _ _).of_ok hdecision
          split at h
          · rename_i hok
            obtain ⟨s₂, s₃, hget, h⟩ := bind_eq_ok.mp h
            cases hget
            simp only [hjob] at h
            obtain ⟨occupied, s₃, hlift, h⟩ := bind_eq_ok.mp h
            obtain ⟨hoccupied, rfl⟩ := liftExcept_eq_ok.mp hlift
            obtain ⟨placement, s₄, hlift', h⟩ := bind_eq_ok.mp h
            obtain ⟨hplaced, rfl⟩ := liftExcept_eq_ok.mp hlift'
            cases placement with
            | none => cases h
            | some placement =>
                obtain ⟨⟨⟩, s₅, hset, h⟩ := bind_eq_ok.mp h
                cases hset
                obtain ⟨argv, s₆, hbuild, -⟩ := bind_eq_ok.mp h
                exact ⟨s₆, .mk hjob hdeps hdecision hok hoccupied hplaced hbuild⟩
          · cases h
        · cases h
  · rintro ⟨mid, @⟨job, decision, w, occupied, placement, argv, _, hjob, hdeps, hdecision, hok,
      hoccupied, hplaced, hbuild⟩⟩
    cases changed with
    | true => rfl
    | false =>
        rcases launchCandidate_eq_false hjob hdeps h with ⟨refusal, hrefused, hno⟩ |
          ⟨taken, htaken, hnone⟩
        · rw [hdecision] at hrefused
          cases hrefused
          rw [hok] at hno
          cases hno
        · rw [hoccupied] at htaken
          cases htaken
          rw [hplaced] at hnone
          cases hnone

/-! ## The order of the turns -/

/-- `a` comes before `b` in a pass, or they are alike by priority and id. -/
def Job.foregoes (a b : Job) : Prop :=
  a.priority < b.priority ∨ (a.priority = b.priority ∧ a.id ≤ b.id)

instance (a b : Job) : Decidable (a.foregoes b) :=
  inferInstanceAs (Decidable (a.priority < b.priority ∨ (a.priority = b.priority ∧ a.id ≤ b.id)))

theorem Job.foregoes_iff {a b : Job} :
    a.foregoes b ↔ toLex (a.priority, a.id) ≤ toLex (b.priority, b.id) := by
  rw [Prod.Lex.toLex_le_toLex]
  exact Iff.rfl

/-- The order of a pass is that of the source. -/
theorem pendingOrder_sorted (jobs : List Job) :
    (pendingOrder jobs).Pairwise fun i j => ∀ a b, jobs[i]? = some a → jobs[j]? = some b →
      a.foregoes b := by
  have htotal : Std.Total fun a b : Job × ℕ => a.1.foregoes b.1 := by
    refine ⟨fun a b => ?_⟩
    rw [Job.foregoes_iff, Job.foregoes_iff]
    exact le_total _ _
  have htrans : IsTrans (Job × ℕ) fun a b => a.1.foregoes b.1 := by
    refine ⟨fun a b c hab hbc => ?_⟩
    rw [Job.foregoes_iff] at hab hbc ⊢
    exact hab.trans hbc
  have hsorted := List.pairwise_insertionSort (fun a b : Job × ℕ => a.1.foregoes b.1)
    (jobs.zipIdx.filter fun entry => entry.1.status == .pending)
  rw [pendingOrder, List.pairwise_map]
  refine hsorted.imp_of_mem fun {x y} hx hy hxy a b ha hb => ?_
  have hentry : ∀ {x : Job × ℕ} {a : Job}, x ∈ (jobs.zipIdx.filter fun entry =>
      entry.1.status == .pending).insertionSort (fun a b : Job × ℕ => a.1.foregoes b.1) →
      jobs[x.2]? = some a → x.1 = a := by
    intro x a hx ha
    have hmem := List.mem_of_mem_filter ((List.mem_insertionSort _).mp hx)
    rw [List.mem_zipIdx_iff_getElem?, ha] at hmem
    exact (Option.some.inj hmem).symm
  rw [← hentry hx ha, ← hentry hy hb]
  exact hxy

/-! ## Admission control -/

/-- The readings a pass takes do not change between two worlds: the pause file is there or is
not, the clock stands, and the memory stays as it is. -/
structure Frozen (config : Config) (w w' : W) (pause : Bool) (now : ℚ)
    (used cap free : Option ℚ) : Prop extends Steady config w w' used cap free where
  pauseFile : ∀ (s s' : Sys W) (b : Bool), Onward w s.world → Onward s'.world w' →
    paused config s = .ok b s' → b = pause
  clock : ∀ (v v' : W) (t : ℚ), Onward w v → Onward v' w' → Host.answer .time v = .ok t v' →
    t = now

/-- Nothing `can_launch` looks at speaks against a job. -/
structure Lets (config : Config) (pause : Bool) (now : ℚ) (used cap free : Option ℚ)
    (cooldownUntil : ℚ) (job : Job) (running : List Job) : Prop where
  unpaused : pause = false
  cool : cooldownUntil ≤ now
  room : Room config job running
  fits : Fits config used cap free job.ramGb
  declared : used = none → (running.map Job.ramGb).sum + job.ramGb ≤ config.ramBudgetGb

/-- Where the readings do not change, `can_launch` lets a job pass exactly if nothing speaks
against it. -/
theorem canLaunch_ok_iff {config : Config} {job : Job} {jobs : List Job} {w w' : W} {pause : Bool}
    {now : ℚ} {used cap free : Option ℚ} (hfrozen : Frozen config w w' pause now used cap free)
    {s s' : Sys W} {decision : Decision} (hbefore : Onward w s.world)
    (hafter : Onward s'.world w') (h : canLaunch config job jobs s = .ok decision s') :
    decision.ok = true ↔
      Lets config pause now used cap free s.cooldownUntil job (running jobs) := by
  obtain ⟨paused, s₁, hpause, h⟩ := bind_eq_ok.mp h
  obtain ⟨w₁, hlater, rfl⟩ := paused_eq_ok hpause
  cases paused with
  | true =>
      cases h
      have hpaused : true = pause := hfrozen.pauseFile _ _ _ hbefore hafter hpause
      refine ⟨nofun, fun hlets => ?_⟩
      rw [← hpaused] at hlets
      cases hlets.unpaused
  | false =>
      obtain ⟨remaining, s₂, hcooldown, h⟩ := bind_eq_ok.mp h
      obtain ⟨t, s₃, hcall, hrest⟩ := bind_eq_ok.mp hcooldown
      obtain ⟨w₂, htime, rfl⟩ := time_eq_ok hcall
      cases hrest
      have hbefore₂ : Onward w w₂ :=
        (hbefore.trans (Later.onward hlater)).trans (Onward.of_ok htime)
      -- what is left of the decision comes after the clock was read
      have hcut : Onward w₂ s'.world →
          (pause = false ∧ t = now) := by
        intro hrest
        have hfalse : false = pause := by
          refine hfrozen.pauseFile _ _ _ hbefore ?_ hpause
          exact ((Onward.of_ok htime).trans hrest).trans hafter
        refine ⟨hfalse.symm, hfrozen.clock _ _ _ ?_ (hrest.trans hafter) htime⟩
        exact hbefore.trans (Later.onward hlater)
      split at h
      · rename_i hactive
        cases h
        obtain ⟨-, rfl⟩ := hcut (.refl _)
        refine ⟨nofun, fun hlets => ?_⟩
        have hcool := hlets.cool
        rcases lt_max_iff.mp hactive with habsurd | hpositive
        · exact absurd habsurd (lt_irrefl 0)
        · exact absurd (sub_pos.mp hpositive) (not_lt.mpr hcool)
      · rename_i hover
        have hcool : s.cooldownUntil ≤ t := by
          by_contra hearly
          exact hover (lt_max_of_lt_right (sub_pos.mpr (not_le.mp hearly)))
        cases hcounts : checkCounts config job (running jobs) with
        | some rejection =>
            simp only [hcounts] at h
            cases h
            rw [checkCounts_rejects hcounts]
            refine ⟨nofun, fun hlets => ?_⟩
            rw [checkCounts_eq_none_iff.mpr hlets.room] at hcounts
            cases hcounts
        | none =>
            simp only [hcounts] at h
            have hroom := checkCounts_eq_none_iff.mp hcounts
            obtain ⟨ramDecision, s₃, hram, h⟩ := bind_eq_ok.mp h
            obtain ⟨w₃, hlater', rfl⟩ := (quiet_checkRam _ _ _).of_ok hram
            have hdecision : s' = { s with world := w₃ } ∧ decision.ok = ramDecision.ok := by
              split at h
              · cases h
                exact ⟨rfl, rfl⟩
              · rename_i haccepted
                cases h
                refine ⟨rfl, ?_⟩
                rw [advise_ok]
                simpa using haccepted
            obtain ⟨rfl, hsame⟩ := hdecision
            obtain ⟨hunpaused, rfl⟩ := hcut (Later.onward hlater')
            have hmemory := checkRam_ok_iff hfrozen.toSteady (s := { s with world := w₂ }) hbefore₂
              hafter hram
            rw [hsame, hmemory]
            constructor
            · rintro ⟨hfits, hdeclared⟩
              exact ⟨hunpaused, hcool, hroom, hfits, hdeclared⟩
            · intro hlets
              exact ⟨hlets.fits, hlets.declared⟩

/-! ## A smaller request at an earlier moment -/

/-- `a` asks for no more than `b`. -/
structure AsksLess (a b : Job) : Prop where
  cores : a.cores ≤ b.cores
  ramGb : a.ramGb ≤ b.ramGb
  exclusive : a.exclusive = true → b.exclusive = true

/-- Among the jobs that run later are those that run now, and what else runs declares no
negative amount. -/
structure RunsOn (jobs later : List Job) : Prop where
  perm : ∃ new, (running later).Perm (new ++ running jobs)
  cores : ∀ job ∈ later, 0 ≤ job.cores
  ramGb : ∀ job ∈ later, 0 ≤ job.ramGb

section

omit [Host W]

variable {jobs later : List Job} {a b : Job}

theorem RunsOn.mem (h : RunsOn jobs later) {job : Job} (hmem : job ∈ running jobs) :
    job ∈ running later := by
  obtain ⟨new, hperm⟩ := h.perm
  exact hperm.mem_iff.mpr (List.mem_append_right new hmem)

/-- What the running jobs hold together has not become less. -/
theorem RunsOn.sum_le {β : Type} [AddCommGroup β] [LinearOrder β] [IsOrderedAddMonoid β]
    (h : RunsOn jobs later) {f : Job → β} (hf : ∀ job ∈ later, 0 ≤ f job) :
    ((running jobs).map f).sum ≤ ((running later).map f).sum := by
  obtain ⟨new, hperm⟩ := h.perm
  have hnew : 0 ≤ (new.map f).sum := by
    apply List.sum_nonneg
    intro x hx
    obtain ⟨job, hjob, rfl⟩ := List.mem_map.mp hx
    have hrunning : job ∈ running later := hperm.mem_iff.mpr (List.mem_append_left _ hjob)
    exact hf job (List.mem_of_mem_filter hrunning)
  calc ((running jobs).map f).sum ≤ (new.map f).sum + ((running jobs).map f).sum :=
        le_add_of_nonneg_left hnew
    _ = ((new ++ running jobs).map f).sum := by rw [List.map_append, List.sum_append]
    _ = ((running later).map f).sum := (hperm.map f).sum_eq.symm

theorem Room.anti {config : Config} (h : Room config b (running later)) (hon : RunsOn jobs later)
    (hless : AsksLess a b) : Room config a (running jobs) where
  mutex j hj := h.mutex j (hon.mem hj)
  alone hexclusive := by
    have hnone := h.alone (hless.exclusive hexclusive)
    apply List.eq_nil_iff_forall_not_mem.mpr
    intro j hj
    have hlater := hon.mem hj
    rw [hnone] at hlater
    exact List.not_mem_nil hlater
  cap := by
    obtain ⟨new, hperm⟩ := hon.perm
    have hlength : (running later).length = new.length + (running jobs).length := by
      rw [hperm.length_eq, List.length_append]
    have hcap := h.cap
    omega
  cores := by
    have hsum := hon.sum_le hon.cores
    calc ((running jobs).map Job.cores).sum + a.cores
        ≤ ((running later).map Job.cores).sum + b.cores := add_le_add hsum hless.cores
      _ ≤ config.coreBudget := h.cores

theorem Fits.anti {config : Config} {used cap free : Option ℚ}
    (h : Fits config used cap free b.ramGb) (hless : AsksLess a b) :
    Fits config used cap free a.ramGb := by
  have hram := hless.ramGb
  cases used with
  | some u =>
      simp only [Fits] at h ⊢
      linarith
  | none =>
      simp only [Fits] at h ⊢
      intro f hf
      have hfree := h f hf
      linarith

/-- What lets a job pass lets one pass that asks for no more, at a moment at which no more
runs. -/
theorem Lets.anti {config : Config} {pause : Bool} {now : ℚ} {used cap free : Option ℚ}
    {cooldownUntil : ℚ} (h : Lets config pause now used cap free cooldownUntil b (running later))
    (hon : RunsOn jobs later) (hless : AsksLess a b) :
    Lets config pause now used cap free cooldownUntil a (running jobs) where
  unpaused := h.unpaused
  cool := h.cool
  room := h.room.anti hon hless
  fits := h.fits.anti hless
  declared hused := by
    have hsum := hon.sum_le hon.ramGb
    have hdeclared := h.declared hused
    have hram := hless.ramGb
    linarith

theorem RunsOn.occupied_subset {site : Site} (h : RunsOn jobs later) {taken occupied : Finset ℤ}
    (htaken : occupiedCores site jobs = .ok taken)
    (hoccupied : occupiedCores site later = .ok occupied) : taken ⊆ occupied := by
  intro c hc
  rcases mem_occupiedFrom htaken hc with hreserved | ⟨job, hmem, hin⟩
  · exact subset_occupiedFrom hoccupied hreserved
  · obtain ⟨hlater, hrunning⟩ := List.mem_filter.mp (h.mem hmem)
    exact blockOf_subset_occupiedFrom hoccupied hlater (by simpa using hrunning) hin

/-- Where a job is given a block, one that asks for no more is given one at a moment at which
no more is occupied. -/
theorem placeable_anti {site : Site} (hon : RunsOn jobs later) (hless : AsksLess a b)
    {placement : Placement} (hplaced : Placeable site later b placement) {taken : Finset ℤ}
    (htaken : occupiedCores site jobs = .ok taken) :
    allocate a.cores taken site.numaNodes (allocateOptions site a) ≠ .ok none := by
  intro hnone
  obtain ⟨occupied, hoccupied, hplaced⟩ := hplaced
  obtain ⟨hpos, hnot⟩ := not_eligible_of_allocate hnone
  have hposB : 0 < b.cores := hpos.trans_le hless.cores
  obtain ⟨spec, nodeCores, block, hnode, hparse, -, hcard, hinside, hdisjoint⟩ :=
    allocate_spec hposB hplaced
  have hfree : block ⊆ nodeCores \ taken := by
    intro c hc
    refine Finset.mem_sdiff.mpr ⟨hinside hc, fun hin => ?_⟩
    exact Finset.disjoint_left.mp hdisjoint hc (hon.occupied_subset htaken hoccupied hin)
  have hroom : a.cores ≤ (nodeCores \ taken).card := by
    calc a.cores ≤ b.cores := hless.cores
      _ = block.card := hcard.symm
      _ ≤ (nodeCores \ taken).card := by exact_mod_cast Finset.card_le_card hfree
  -- `_launch` calls the allocator without a memory cap for the nodes
  have hgate : (allocateOptions site a).PassesGate placement.node := by
    intro hgated
    simp [AllocateOptions.gateRam, allocateOptions] at hgated
  exact hnot placement.node nodeCores ⟨⟨spec, hnode, hparse⟩, hroom, hgate⟩

end

/-! ## Along a pass -/

/-- The running jobs only grow along the moves of a pass. -/
theorem running_perm_of_path {site : Site} {s s' : Sys W}
    (hpath : ReflTransGen (Step site true Label.inPass) s s') :
    ∃ new, (running s'.jobs).Perm (new ++ running s.jobs) := by
  induction hpath with
  | refl => exact ⟨[], .refl _⟩
  | tail _ hlast ih =>
      obtain ⟨new, hperm⟩ := ih
      obtain ⟨label, hlabel, hmove⟩ := hlast
      rcases hmove.grants hlabel with ⟨-, hrunning⟩ | ⟨i, job, w, hgrants⟩
      · refine ⟨new, ?_⟩
        rw [hrunning]
        exact hperm
      · obtain ⟨started, -, hmore⟩ := hgrants.running
        exact ⟨started :: new, hmore.trans (hperm.cons started)⟩

/-- The turns of some waiting jobs are moves of a pass, and touch no other job. -/
theorem turns_of_sweep {site : Site} {items : List ℕ} {s s' : Sys W} {changed : Bool}
    (hwaiting : ∀ i ∈ items, s.pendingAt i) (hnodup : items.Nodup)
    (h : sweep (launchCandidate site) items s = .ok changed s') :
    ReflTransGen (Step site true Label.inPass) s s' ∧
      ∀ j, j ∉ items → s'.jobs[j]? = s.jobs[j]? := by
  induction items generalizing s changed with
  | nil =>
      cases h
      exact ⟨.refl, fun _ _ => rfl⟩
  | cons i rest ih =>
      obtain ⟨first, s₁, hfirst, h⟩ := bind_eq_ok.mp h
      obtain ⟨later, s₂, hrest, hpure⟩ := bind_eq_ok.mp h
      cases hpure
      have hturn := launchCandidate_turn (hwaiting i (List.mem_cons_self ..)) hfirst
      have hnext := (launchCandidate_obeys site i rest).returns ⟨hwaiting, hnodup⟩ hfirst
      obtain ⟨hpath, hothers⟩ := ih hnext.2.1 hnext.2.2 hrest
      refine ⟨hnext.1.trans hpath, fun j hj => ?_⟩
      have hne : j ≠ i := fun heq => hj (heq ▸ List.mem_cons_self ..)
      have hout : j ∉ rest := fun hin => hj (List.mem_cons_of_mem _ hin)
      exact (hothers j hout).trans (others_of_launched hne hturn)

/-- Dependencies that are done stay done. -/
theorem depsSatisfied_of_progress {jobs jobs' : List Job} (hids : (jobs.map Job.id).Nodup)
    (hprogress : Progress jobs jobs') {job : Job} (h : depsSatisfied jobs job = true) :
    depsSatisfied jobs' job = true := by
  have hids' : (jobs'.map Job.id).Nodup := by
    rw [hprogress.ids]
    exact hids
  apply List.all_eq_true.mpr
  intro dep hdep
  obtain ⟨upstream, hmem, rfl, hdone⟩ := depsSatisfied_done h dep hdep
  have hsettled : upstream.status.settled = true := by
    rw [hdone]
    rfl
  rw [byId_of_mem hids' (hprogress.mem_of_settled hmem hsettled)]
  exact beq_iff_eq.mpr hdone

/-- A turn of a job whose start is not attempted: admission control or the allocator has
turned the job down. -/
theorem refused_of_not_reached {site : Site} {i : ℕ} {job : Job} {s s' : Sys W} {changed : Bool}
    (hjob : s.jobs[i]? = some job) (hdeps : depsSatisfied s.jobs job = true)
    (h : launchCandidate site i s = .ok changed s') (hnot : ∀ mid, ¬ ReachesStart site i s mid) :
    (∃ decision, canLaunch site.config job s.jobs s = .ok decision s' ∧ decision.ok = false) ∨
      ∃ occupied, occupiedCores site s.jobs = .ok occupied ∧
        allocate job.cores occupied site.numaNodes (allocateOptions site job) = .ok none := by
  have hfalse : changed = false := by
    by_contra htrue
    obtain ⟨mid, hreached⟩ := (reachesStart_iff h).mp (Bool.not_eq_false changed ▸ htrue)
    exact hnot mid hreached
  subst hfalse
  exact launchCandidate_eq_false hjob hdeps h

/-- A pass does not touch the cooldown. -/
theorem cooldown_of_pass {site : Site} {s s' : Sys W}
    (hpath : ReflTransGen (Step site true Label.inPass) s s') :
    s'.cooldownUntil = s.cooldownUntil := by
  induction hpath with
  | refl => rfl
  | tail _ hlast ih =>
      obtain ⟨label, hlabel, hmove⟩ := hlast
      rw [← ih]
      cases hmove with
      | ask hask =>
          obtain ⟨α, c, -, rfl⟩ := hask
          rfl
      | probe hjob hrunning halive => rfl
      | launch hchosen hstarted htime => exact hstarted.cooldown
      | fail hchosen hunstarted htime => rfl
      | _ => cases hlabel

/-! ## No inversion -/

/-- A job that comes before another in the order of a pass has its turn before. -/
theorem mem_before {jobs : List Job} {before after : List ℕ} {a b : ℕ} {A B : Job}
    (horder : pendingOrder jobs = before ++ b :: after) (hA : jobs[a]? = some A)
    (hB : jobs[b]? = some B) (hpending : A.status = .pending)
    (hfirst : A.priority < B.priority ∨ (A.priority = B.priority ∧ A.id < B.id)) :
    a ∈ before := by
  have hnot : ¬ B.foregoes A := by
    rintro (hlower | ⟨hequal, hid⟩)
    · rcases hfirst with hlt | ⟨hsame, -⟩
      · exact absurd hlt (lt_asymm hlower)
      · exact absurd hsame hlower.ne'
    · rcases hfirst with hlt | ⟨-, hlt⟩
      · exact absurd hequal hlt.ne'
      · exact absurd hlt (not_lt.mpr hid)
  have hmem : a ∈ before ++ b :: after := by
    rw [← horder]
    exact mem_pendingOrder.mpr ⟨A, hA, hpending⟩
  have hsorted := pendingOrder_sorted jobs
  rw [horder, List.pairwise_append, List.pairwise_cons] at hsorted
  rcases List.mem_append.mp hmem with hbefore | hrest
  · exact hbefore
  · rcases List.mem_cons.mp hrest with rfl | hafter
    · rw [hA] at hB
      cases hB
      exact absurd (Or.inr ⟨rfl, le_refl A.id⟩) hnot
    · exact absurd (hsorted.2.1.1 a hafter B A hB hA) hnot

/-- Where the readings do not change, what has turned down a job at its turn turns down, later
in the pass, every job that asks for no less. -/
theorem refused_later {site : Site} {b : ℕ} {A B : Job} {w : W} {pause : Bool} {now : ℚ}
    {used cap free : Option ℚ} {s s₁ mid s' : Sys W}
    (hfrozen : Frozen site.config w s'.world pause now used cap free)
    (hbefore : Onward w s.world) (hworld : Onward s.world s₁.world)
    (hrest : Onward s₁.world mid.world) (hcooldown : mid.cooldownUntil = s.cooldownUntil)
    (hrefused : (∃ decision, canLaunch site.config A s.jobs s = .ok decision s₁ ∧
        decision.ok = false) ∨
      ∃ occupied, occupiedCores site s.jobs = .ok occupied ∧
        allocate A.cores occupied site.numaNodes (allocateOptions site A) = .ok none)
    (hon : RunsOn s.jobs mid.jobs) (hless : AsksLess A B) (hB : mid.jobs[b]? = some B) :
    ¬ ReachesStart site b mid s' := by
  rintro @⟨job, decision, v, occupied, placement, argv, _, hjob, -, hdecision, hok, hoccupied,
    hplaced, hbuild⟩
  rw [hB] at hjob
  cases hjob
  have hmid : Onward w mid.world := (hbefore.trans hworld).trans hrest
  obtain ⟨v', hlater, hv'⟩ := (quiet_buildCommand site _ placement).of_ok hbuild
  have hlast : Onward v s'.world := by
    rw [hv']
    exact Later.onward hlater
  obtain ⟨v₁, hlater₁, hv₁⟩ := (quiet_canLaunch _ _ _).of_ok hdecision
  have hstep : Onward mid.world v := by
    have heq : v = v₁ := congrArg Sys.world hv₁
    rw [heq]
    exact Later.onward hlater₁
  have hlets := (canLaunch_ok_iff hfrozen hmid hlast hdecision).mp hok
  rcases hrefused with ⟨refusal, hrefusal, hno⟩ | ⟨taken, htaken, hnone⟩
  · rw [hcooldown] at hlets
    have hletsA := hlets.anti hon hless
    have hafter : Onward s₁.world s'.world := (hrest.trans hstep).trans hlast
    have hyes := (canLaunch_ok_iff hfrozen hbefore hafter hrefusal).mpr hletsA
    rw [hno] at hyes
    cases hyes
  · exact placeable_anti hon hless ⟨occupied, hoccupied, hplaced⟩ htaken hnone

/-- No priority inversion: in a launch pass over which pause file, clock and memory readings do
not change, a start of `B` is attempted only after one of any `A` that is before `B` in the
order, has its dependencies done as the pass begins and asks for no more. -/
theorem no_priority_inversion (site : Site) (s s' : Sys W) (a b : ℕ) (A B : Job)
    (before : List ℕ) (pause : Bool) (now : ℚ) (used cap free : Option ℚ)
    (hids : (s.jobs.map Job.id).Nodup)
    (hcores : ∀ job ∈ s.jobs, 0 ≤ job.cores) (hram : ∀ job ∈ s.jobs, 0 ≤ job.ramGb)
    (hA : s.jobs[a]? = some A) (hB : s.jobs[b]? = some B) (hpending : A.status = .pending)
    (hdeps : depsSatisfied s.jobs A = true)
    (hfirst : A.priority < B.priority ∨ (A.priority = B.priority ∧ A.id < B.id))
    (hless : AsksLess A B) (hattempt : StartAttempted site s before b s')
    (hfrozen : Frozen site.config s.world s'.world pause now used cap free) :
    ∃ earlier t, earlier ++ [a] <+: before ∧ StartAttempted site s earlier a t := by
  obtain @⟨after, changed, mid, job, argv, horder, hsweep, hcall, -⟩ := hattempt
  have hreached : ReachesStart site b mid s' := upToStart_eq_some.mp ⟨_, hcall⟩
  have hmem : a ∈ before := mem_before horder hA hB hpending hfirst
  obtain ⟨earlier, later, rfl⟩ := List.append_of_mem hmem
  have hnodup : (earlier ++ a :: later ++ b :: after).Nodup := by
    rw [← horder]
    exact nodup_pendingOrder s.jobs
  have hwaiting : ∀ i ∈ earlier ++ a :: later ++ b :: after, s.pendingAt i := by
    intro i hi
    rw [← horder] at hi
    exact mem_pendingOrder.mp hi
  -- the turns up to the one of `A`
  obtain ⟨b₁, b₂, s₁, hearlier, hrest⟩ := sweep_append_eq_ok hsweep
  obtain ⟨first, s₂, hturn, hrest'⟩ := bind_eq_ok.mp hrest
  obtain ⟨last, s₃, hlater, hpure⟩ := bind_eq_ok.mp hrest'
  cases hpure
  have hnodup₁ := (List.nodup_append.mp hnodup).1
  obtain ⟨hpath₁, hsame₁⟩ := turns_of_sweep
    (fun i hi => hwaiting i (by simp [hi])) (List.nodup_append.mp hnodup₁).1 hearlier
  have hkept : ∀ i ∈ a :: later, s₁.jobs[i]? = s.jobs[i]? := by
    intro i hi
    refine hsame₁ i fun hin => ?_
    exact (List.nodup_append.mp hnodup₁).2.2 i hin i hi rfl
  have hA₁ : s₁.jobs[a]? = some A := (hkept a (List.mem_cons_self ..)).trans hA
  have hdeps₁ := depsSatisfied_of_progress hids (progress_of_path hpath₁) hdeps
  by_cases hstart : ∃ t, ReachesStart site a s₁ t
  · obtain ⟨t, hstart⟩ := hstart
    obtain ⟨⟨job, argv⟩, hcall⟩ := upToStart_eq_some.mpr hstart
    have horder' : pendingOrder s.jobs = earlier ++ a :: (later ++ b :: after) := by
      rw [horder]
      simp
    exact ⟨earlier, t, ⟨later, by simp⟩, .of_turns horder' hearlier hcall⟩
  · -- `A` was turned down, and then `B` is
    exfalso
    have hrefused := refused_of_not_reached hA₁ hdeps₁ hturn fun t ht => hstart ⟨t, ht⟩
    have hwaiting₁ : ∀ i ∈ a :: later, s₁.pendingAt i := by
      intro i hi
      rw [Sys.pendingAt, hkept i hi]
      exact hwaiting i (List.mem_append_left _ (List.mem_append_right _ hi))
    have hnodup₂ := (List.nodup_append.mp hnodup₁).2.1
    obtain ⟨hpath₂, hsame₂⟩ := turns_of_sweep hwaiting₁ hnodup₂ hrest
    obtain ⟨hpathA, hnext⟩ :=
      (launchCandidate_obeys site a later).returns ⟨hwaiting₁, hnodup₂⟩ hturn
    obtain ⟨hpathL, -⟩ := turns_of_sweep hnext.1 hnext.2 hlater
    have hprogress : Progress s.jobs mid.jobs :=
      (progress_of_path hpath₁).trans (progress_of_path hpath₂)
    have hon : RunsOn s₁.jobs mid.jobs := by
      refine ⟨running_perm_of_path hpath₂, fun job hjob => ?_, fun job hjob => ?_⟩
      · obtain ⟨i, hi⟩ := List.mem_iff_getElem?.mp hjob
        obtain ⟨old, hold, hdeclared, -⟩ := hprogress.back hi
        rw [← hdeclared.cores]
        exact hcores old (List.mem_of_getElem? hold)
      · obtain ⟨i, hi⟩ := List.mem_iff_getElem?.mp hjob
        obtain ⟨old, hold, hdeclared, -⟩ := hprogress.back hi
        rw [← hdeclared.ramGb]
        exact hram old (List.mem_of_getElem? hold)
    have hBout : b ∉ earlier ++ a :: later := by
      intro hin
      exact (List.nodup_append.mp hnodup).2.2 b hin b (List.mem_cons_self ..) rfl
    have hBmid : mid.jobs[b]? = some B := by
      rw [hsame₂ b fun hin => hBout (List.mem_append_right _ hin),
        hsame₁ b fun hin => hBout (List.mem_append_left _ hin)]
      exact hB
    exact refused_later hfrozen (onward_of_path hpath₁) (onward_of_path hpathA)
      (onward_of_path hpathL) (cooldown_of_pass hpath₂) hrefused hon hless hBmid hreached

/-! ## On the machine -/

/-- On a machine without files on which nothing happens a pass finds nothing changed. -/
theorem frozen_bare (queue : List Job) {w' : World} (hclock : w'.clock = 0) :
    Frozen (smallSite queue).config ({} : World) w' false 0 none none none where
  toSteady := (unchanging_bare queue w').toSteady
  pauseFile := by
    rintro s s' b - - hpause
    cases hpause
    rfl
  clock := by
    intro v v' t hbefore hafter htime
    obtain ⟨hlow, hhigh⟩ := wallClock.read htime
    have hstart : (0 : ℚ) ≤ v.clock := wallClock.onward hbefore
    have hend : v'.clock ≤ w'.clock := wallClock.onward hafter
    rw [hclock] at hend
    exact le_antisymm (hhigh.trans hend) (hstart.trans hlow)

/-- Two jobs that fit a node each and, between them, one too large for the machine. -/
def rankedJobs : List Job :=
  [{ id := "b", command := "true", priority := 2, cores := 3 },
   { id := "a", command := "true", priority := 1, cores := 2 },
   { id := "c", command := "true", priority := 1, cores := 100 }]

/-- The start of the last job in the order comes after that of the first. -/
theorem no_priority_inversion_rankedJobs : ∃ earlier t, earlier ++ [1] <+: [1, 2] ∧
    StartAttempted (smallSite rankedJobs) (fresh (smallSite rankedJobs) ({} : World)) earlier 1 t := by
  have hruns : returns ((sweep (launchCandidate (smallSite rankedJobs)) [1, 2] >>= fun _ => do
      match ← upToStart (smallSite rankedJobs) 0 with
      | some _ => pure ()
      | none => throw ⟨.runtimeError, ""⟩)
      (fresh (smallSite rankedJobs) {})) (fun s => s.world.clock == 0) = true := by
    decide +kernel
  obtain ⟨⟨⟩, s', hends, hclock⟩ := of_returns hruns
  rw [beq_iff_eq] at hclock
  have hattempt : StartAttempted (smallSite rankedJobs) (fresh (smallSite rankedJobs) {}) [1, 2] 0
      s' := by
    obtain ⟨changed, mid, hsweep, hends⟩ := bind_eq_ok.mp hends
    obtain ⟨call, t, hreach, hends⟩ := bind_eq_ok.mp hends
    have horder : pendingOrder (fresh (smallSite rankedJobs) ({} : World)).jobs = [1, 2] ++ 0 :: [] := by
      decide
    cases call with
    | some call =>
        cases hends
        exact .of_turns horder hsweep hreach
    | none => cases hends
  exact no_priority_inversion (smallSite rankedJobs) _ s' 1 0 _ _ [1, 2] false 0 none none none
    (by decide) (by decide) (by decide) rfl rfl rfl (by decide) (by decide)
    ⟨by decide, by decide, by decide⟩ hattempt (frozen_bare rankedJobs hclock)

end Nodepilot
