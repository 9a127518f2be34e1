import Nodepilot.Steps.Turn

/-!
# Loops that change nothing

What it means that a loop of the scheduler says it has changed nothing: the passes
over the dependents leave no waiting job with a dead or unknown dependency, and a
launch pass has turned down every waiting job whose dependencies are done, each
for a reason that is read off the decision or the allocator.  Where no job runs
the reserved CPUs are the only occupied ones, so a refusal is one of the idle
machine.
-/

namespace Nodepilot

open Obeys Relation

variable {W : Type}

/-! ## Nothing runs -/

/-- No job of the list is running. -/
def AllIdle (jobs : List Job) : Prop :=
  ∀ job ∈ jobs, job.status ≠ .running

instance (jobs : List Job) : Decidable (AllIdle jobs) :=
  inferInstanceAs (Decidable (∀ job ∈ jobs, job.status ≠ .running))

theorem AllIdle.running_eq {jobs : List Job} (h : AllIdle jobs) : running jobs = [] := by
  apply List.filter_eq_nil_iff.mpr
  intro job hmem
  simpa using h job hmem

theorem AllIdle.occupiedCores_eq {jobs : List Job} (site : Site) (h : AllIdle jobs) :
    occupiedCores site jobs = .ok site.reserved := by
  unfold occupiedCores
  induction jobs with
  | nil => rfl
  | cons job rest ih =>
      have hfirst : job.status ≠ .running := h job (List.mem_cons_self ..)
      rw [occupiedFrom, if_neg fun hrunning => hfirst hrunning.1]
      exact ih fun other hmem => h other (List.mem_cons_of_mem job hmem)

/-! ## Reaps and dependents -/

/-- No waiting job has a dependency that can never be done. -/
def Unblocked (jobs : List Job) : Prop :=
  ∀ job ∈ jobs, job.status = .pending → blocker jobs job.dependsOn = none

section

variable [Host W] {s s' : Sys W}

theorem reapFinished_eq_false {site : Site} (h : reapFinished site s = .ok false s') :
    ReflTransGen (Step site true Label.inAsk) s s' := by
  obtain ⟨s₀, s₁, hget, h⟩ := bind_eq_ok.mp h
  cases hget
  have hturn : ∀ i ∈ List.range s.jobs.length, ∀ s₁ s₂ : Sys W, True →
      reapJob site i s₁ = .ok false s₂ →
      ReflTransGen (Step site true Label.inAsk) s₁ s₂ ∧ True := by
    intro i _ s₁ s₂ _ hreap
    rcases reapJob_turn true hreap with ⟨hchanged, -⟩ | ⟨-, hasks, -⟩
    · cases hchanged
    · exact ⟨hasks, trivial⟩
  exact (sweep_eq_false hturn trivial h).1

/-- A pass over the dependents that skips none leaves none to skip. -/
theorem unblocked_of_sweep (site : Site)
    (h : sweep markJob (List.range s.jobs.length) s = .ok false s') :
    s' = s ∧ Unblocked s.jobs := by
  have hmarked : ∀ (i : ℕ) (s₁ s₂ : Sys W), markJob i s₁ = .ok false s₂ →
      s₂ = s₁ ∧ ∀ job, s₁.jobs[i]? = some job → job.status = .pending →
        blocker s₁.jobs job.dependsOn = none := by
    intro i s₁ s₂ hmark
    have hturn := @markJob_turn _ _ site i s₁ s₂ false true hmark
    rcases hturn with ⟨hchanged, -⟩ | ⟨-, hsame, hnone⟩
    · cases hchanged
    · exact ⟨hsame, hnone⟩
  have hturn : ∀ i ∈ List.range s.jobs.length, ∀ s₁ s₂ : Sys W, s₁ = s →
      markJob i s₁ = .ok false s₂ → ReflTransGen (Step site true Label.inAsk) s₁ s₂ ∧ s₂ = s := by
    rintro i _ s₁ s₂ rfl hmark
    obtain ⟨rfl, -⟩ := hmarked i s₁ s₂ hmark
    exact ⟨.refl, rfl⟩
  obtain ⟨-, hsame, hturns⟩ := sweep_eq_false hturn rfl h
  refine ⟨hsame, fun job hmem hpending => ?_⟩
  obtain ⟨i, hi⟩ := List.mem_iff_getElem?.mp hmem
  have hrange : i ∈ List.range s.jobs.length :=
    List.mem_range.mpr (List.getElem?_eq_some_iff.mp hi).1
  obtain ⟨s₁, s₂, -, rfl, hmark, -⟩ := hturns i hrange
  exact (hmarked i _ s₂ hmark).2 job hi hpending

theorem markDeadDependents_eq_false (site : Site) (h : markDeadDependents s = .ok false s') :
    s' = s ∧ Unblocked s.jobs := by
  obtain ⟨s₀, s₁, hget, h⟩ := bind_eq_ok.mp h
  cases hget
  obtain ⟨s₀, s₁, hget, h⟩ := bind_eq_ok.mp h
  cases hget
  obtain ⟨progressed, s₁, hsweep, h⟩ := bind_eq_ok.mp h
  cases progressed with
  | true =>
      obtain ⟨later, s₂, -, hpure⟩ := bind_eq_ok.mp h
      cases hpure
  | false =>
      cases h
      exact unblocked_of_sweep site hsweep

/-! ## Refusals -/

theorem paused_eq_ok {config : Config} {pause : Bool} (h : paused config s = .ok pause s') :
    ∃ w, Later s.world w ∧ s' = { s with world := w } :=
  (quiet_paused config).of_ok h

/-- Why admission control turns a job down. -/
theorem canLaunch_refused {config : Config} {job : Job} {jobs : List Job} {decision : Decision}
    (h : canLaunch config job jobs s = .ok decision s') (hno : decision.ok = false) :
    paused config s = .ok true s' ∨
      (∃ w now, Later s.world w ∧ Host.answer .time w = .ok now s'.world ∧ now < s.cooldownUntil) ∨
      checkCounts config job (running jobs) = some decision ∨
      ∃ w, Later s.world w ∧
        checkRam config job (running jobs) { s with world := w } = .ok decision s' := by
  obtain ⟨pause, s₁, hpause, h⟩ := bind_eq_ok.mp h
  cases pause with
  | true =>
      cases h
      exact Or.inl hpause
  | false =>
      obtain ⟨w₁, hlater, rfl⟩ := paused_eq_ok hpause
      obtain ⟨remaining, s₂, hcooldown, h⟩ := bind_eq_ok.mp h
      obtain ⟨now, s₃, hcall, hrest⟩ := bind_eq_ok.mp hcooldown
      obtain ⟨w₂, htime, rfl⟩ := time_eq_ok hcall
      cases hrest
      split at h
      · rename_i hactive
        cases h
        have hbefore : now < s.cooldownUntil := by
          rcases lt_max_iff.mp hactive with habsurd | hpositive
          · exact absurd habsurd (lt_irrefl 0)
          · exact sub_pos.mp hpositive
        exact Or.inr (Or.inl ⟨w₁, now, hlater, htime, hbefore⟩)
      · cases hcounts : checkCounts config job (running jobs) with
        | some rejection =>
            simp only [hcounts] at h
            cases h
            exact Or.inr (Or.inr (Or.inl rfl))
        | none =>
            simp only [hcounts] at h
            obtain ⟨ramDecision, s₃, hram, h⟩ := bind_eq_ok.mp h
            split at h
            · cases h
              exact Or.inr (Or.inr (Or.inr ⟨w₂, hlater.trans (.of_ok rfl htime), hram⟩))
            · cases h
              rw [advise_ok] at hno
              cases hno

theorem launch_eq_false {site : Site} {i : ℕ} {job : Job} (hjob : s.jobs[i]? = some job)
    (h : launch site i s = .ok false s') : ∃ occupied, occupiedCores site s.jobs = .ok occupied ∧
      allocate job.cores occupied site.numaNodes (allocateOptions site job) = .ok none := by
  obtain ⟨s₀, s₁, hget, h⟩ := bind_eq_ok.mp h
  cases hget
  simp only [hjob] at h
  obtain ⟨occupied, s₁, hlift, h⟩ := bind_eq_ok.mp h
  obtain ⟨hoccupied, rfl⟩ := liftExcept_eq_ok.mp hlift
  obtain ⟨placement, s₁, hlift', h⟩ := bind_eq_ok.mp h
  obtain ⟨hplaced, rfl⟩ := liftExcept_eq_ok.mp hlift'
  cases placement with
  | none => exact ⟨occupied, hoccupied, hplaced⟩
  | some placement =>
      obtain ⟨⟨⟩, s₁, -, h⟩ := bind_eq_ok.mp h
      obtain ⟨argv, s₂, -, h⟩ := bind_eq_ok.mp h
      obtain ⟨failure, s₃, -, h⟩ := bind_eq_ok.mp h
      -- started or failed, the source says that something has changed
      cases failure with
      | none =>
          obtain ⟨⟨⟩, s₄, -, h⟩ := bind_eq_ok.mp h
          obtain ⟨now, s₅, -, h⟩ := bind_eq_ok.mp h
          obtain ⟨⟨⟩, s₆, -, h⟩ := bind_eq_ok.mp h
          cases h
      | some e =>
          obtain ⟨⟨⟩, s₄, -, h⟩ := bind_eq_ok.mp h
          obtain ⟨now, s₅, -, h⟩ := bind_eq_ok.mp h
          obtain ⟨⟨⟩, s₆, -, h⟩ := bind_eq_ok.mp h
          cases h

/-- A candidate with its dependencies done that was not started was turned down by admission
control, or no block of CPUs was free. -/
theorem launchCandidate_eq_false {site : Site} {i : ℕ} {job : Job} (hjob : s.jobs[i]? = some job)
    (hdeps : depsSatisfied s.jobs job = true) (h : launchCandidate site i s = .ok false s') :
    (∃ decision, canLaunch site.config job s.jobs s = .ok decision s' ∧ decision.ok = false) ∨
      ∃ occupied, occupiedCores site s.jobs = .ok occupied ∧
        allocate job.cores occupied site.numaNodes (allocateOptions site job) = .ok none := by
  obtain ⟨s₀, s₁, hget, h⟩ := bind_eq_ok.mp h
  cases hget
  simp only [hjob] at h
  rw [if_pos hdeps] at h
  obtain ⟨decision, s₁, hdecision, h⟩ := bind_eq_ok.mp h
  obtain ⟨w, -, rfl⟩ := (quiet_canLaunch _ _ _).of_ok hdecision
  split at h
  · exact Or.inr (launch_eq_false (s := { s with world := w }) hjob h)
  · rename_i hrefused
    cases h
    exact Or.inl ⟨decision, hdecision, Bool.eq_false_iff.mpr hrefused⟩

/-- A launch pass that starts nothing where nothing runs has turned down every waiting job
whose dependencies are done. -/
theorem launchPending_eq_false {site : Site} (hidle : AllIdle s.jobs)
    (h : launchPending site s = .ok false s') :
    ReflTransGen (Step site true Label.inAsk) s s' ∧
      ∀ job ∈ s.jobs, job.status = .pending → depsSatisfied s.jobs job = true →
        (∃ w₁ decision w₂, Onward s.world w₁ ∧ Onward w₂ s'.world ∧
          canLaunch site.config job s.jobs { s with world := w₁ } =
            .ok decision { s with world := w₂ } ∧ decision.ok = false) ∨
        allocate job.cores site.reserved site.numaNodes (allocateOptions site job) = .ok none := by
  obtain ⟨s₀, s₁, hget, h⟩ := bind_eq_ok.mp h
  cases hget
  have hturn : ∀ i ∈ pendingOrder s.jobs, ∀ s₁ s₂ : Sys W, s₁.jobs = s.jobs →
      launchCandidate site i s₁ = .ok false s₂ →
      ReflTransGen (Step site true Label.inAsk) s₁ s₂ ∧ s₂.jobs = s.jobs := by
    intro i hi s₁ s₂ hjobs hcandidate
    have hwaiting : s₁.pendingAt i := by
      rw [Sys.pendingAt, hjobs]
      exact mem_pendingOrder.mp hi
    rcases launchCandidate_turn hwaiting hcandidate with ⟨hchanged, -⟩ | ⟨-, hasks⟩
    · cases hchanged
    · exact ⟨hasks, (jobs_of_asks hasks).trans hjobs⟩
  obtain ⟨hpath, -, hturns⟩ := sweep_eq_false hturn rfl h
  refine ⟨hpath, fun job hmem hpending hdeps => ?_⟩
  obtain ⟨i, hi⟩ := List.mem_iff_getElem?.mp hmem
  obtain ⟨s₁, s₂, hbefore, hjobs, hcandidate, hafter⟩ :=
    hturns i (mem_pendingOrder.mpr ⟨job, hi, hpending⟩)
  obtain ⟨w₁, hseen, rfl⟩ := asks_eq hbefore
  rcases launchCandidate_eq_false (s := { s with world := w₁ }) hi hdeps hcandidate with
    ⟨decision, hdecision, hno⟩ | ⟨occupied, hoccupied, hplaced⟩
  · obtain ⟨w₂, -, rfl⟩ := (quiet_canLaunch _ _ _).of_ok hdecision
    obtain ⟨w₃, hseen', heq⟩ := asks_eq hafter
    have hworld : s'.world = w₃ := by rw [heq]
    rw [← hworld] at hseen'
    exact Or.inl ⟨w₁, decision, w₂, Seen.onward hseen, Seen.onward hseen', hdecision, hno⟩
  · rw [hidle.occupiedCores_eq site] at hoccupied
    cases hoccupied
    exact Or.inr hplaced

end

end Nodepilot
