import Nodepilot.Safety.PriorityOrder

/-!
# A launch pass leaves nothing to launch

A launch pass goes once through the waiting jobs and is greedy: it starts whatever passes
admission control and gets a block at its turn.  What it turned down it does not look at
again, although it has started other jobs since.  It need not: as long as the readings do
not change,

* a job that is turned down is turned down for good (`TurnedDown.onward`), since the
  running jobs and the occupied CPUs only grow in a pass and no job becomes done in it;
* after the pass every job that still waits has been turned down at its turn
  (`turned_down_of_sweep`).

So a second pass over the same readings starts nothing and changes nothing, and one that
raises has not changed anything before.
-/

namespace Nodepilot

open Obeys Relation

variable {W : Type} [Host W]

/-! ## Nothing becomes done in a pass -/

omit [Host W] in
/-- A job that is done after a turn of a pass was done before it, as it is. -/
theorem Turn.done_before {site : Site} {label : Label} {jobs jobs' : List Job}
    (h : Turn site true label jobs jobs') (hpass : label.inPass = true) {i : ℕ} {job : Job}
    (hjob : jobs'[i]? = some job) (hdone : job.status = .done) : jobs[i]? = some job := by
  have hmodified : ∀ {k : ℕ} {f : Job → Job}, (∀ old, (f old).status ≠ .done) →
      (jobs.modify k f)[i]? = some job → jobs[i]? = some job := by
    intro k f hnot hmod
    rcases getElem?_modify_cases hmod with ⟨-, hsame⟩ | ⟨old, -, -, rfl⟩
    · exact hsame
    · exact absurd hdone (hnot old)
  cases h with
  | ask => exact hjob
  | launch => exact hmodified (fun old => by simp) hjob
  | fail => exact hmodified (fun old => by simp) hjob
  | _ => cases hpass

omit [Host W] in
/-- The job that is started or fails waits no more. -/
theorem Turn.not_waiting {site : Site} {label : Label} {jobs jobs' : List Job} {i : ℕ}
    (h : Turn site true label jobs jobs') (hlabel : label = .launch i ∨ label = .fail i) {job : Job}
    (hjob : jobs'[i]? = some job) : job.status ≠ .pending := by
  have hmodified : ∀ {f : Job → Job}, (∀ old, (f old).status ≠ .pending) →
      (jobs.modify i f)[i]? = some job → job.status ≠ .pending := by
    intro f hnot hmod
    rcases getElem?_modify_cases hmod with ⟨hne, -⟩ | ⟨old, -, -, rfl⟩
    · exact absurd rfl hne
    · exact hnot old
  rcases hlabel with rfl | rfl
  · cases h with
    | launch => exact hmodified (fun old => by simp) hjob
  · cases h with
    | fail => exact hmodified (fun old => by simp) hjob

/-- A job that is done after a pass was done before it, as it is. -/
theorem done_before {site : Site} {s s' : Sys W}
    (hpath : ReflTransGen (Step site true Label.inPass) s s') {i : ℕ} {job : Job}
    (hjob : s'.jobs[i]? = some job) (hdone : job.status = .done) : s.jobs[i]? = some job := by
  induction hpath with
  | refl => exact hjob
  | tail _ hlast ih =>
      obtain ⟨label, hlabel, hmove⟩ := hlast
      exact ih (hmove.turn.done_before hlabel hjob hdone)

/-- Dependencies that are satisfied after a pass were so before it. -/
theorem depsSatisfied_of_pass {site : Site} {s s' : Sys W} (hids : (s.jobs.map Job.id).Nodup)
    (hpath : ReflTransGen (Step site true Label.inPass) s s') {job : Job}
    (h : depsSatisfied s'.jobs job = true) : depsSatisfied s.jobs job = true := by
  apply List.all_eq_true.mpr
  intro dep hdep
  obtain ⟨upstream, hmem, rfl, hdone⟩ := depsSatisfied_done h dep hdep
  obtain ⟨i, hi⟩ := List.mem_iff_getElem?.mp hmem
  have hbefore : upstream ∈ s.jobs := List.mem_of_getElem? (done_before hpath hi hdone)
  rw [byId_of_mem hids hbefore]
  exact beq_iff_eq.mpr hdone

/-- No two jobs have one id, and none asks for a negative amount. -/
structure Regular (jobs : List Job) : Prop where
  ids : (jobs.map Job.id).Nodup
  cores : ∀ job ∈ jobs, 0 ≤ job.cores
  ramGb : ∀ job ∈ jobs, 0 ≤ job.ramGb

omit [Host W] in
/-- Nothing of it changes over a run. -/
theorem Regular.of_progress {jobs jobs' : List Job} (h : Regular jobs)
    (hprogress : Progress jobs jobs') : Regular jobs' where
  ids := by
    rw [hprogress.ids]
    exact h.ids
  cores job hjob := by
    obtain ⟨i, hi⟩ := List.mem_iff_getElem?.mp hjob
    obtain ⟨old, hold, hdeclared, -⟩ := hprogress.back hi
    rw [← hdeclared.cores]
    exact h.cores old (List.mem_of_getElem? hold)
  ramGb job hjob := by
    obtain ⟨i, hi⟩ := List.mem_iff_getElem?.mp hjob
    obtain ⟨old, hold, hdeclared, -⟩ := hprogress.back hi
    rw [← hdeclared.ramGb]
    exact h.ramGb old (List.mem_of_getElem? hold)

/-! ## Turned down for good -/

/-- Nothing speaks against the job in a turn from one state to another. -/
structure Accepted (site : Site) (job : Job) (s s' : Sys W) : Prop where
  deps : depsSatisfied s.jobs job = true
  admitted : ∃ decision w, canLaunch site.config job s.jobs s = .ok decision { s with world := w } ∧
    decision.ok = true ∧ Onward w s'.world
  placed : ∃ placement, Placeable site s.jobs job placement

/-- A turn of a waiting job that changes something has found nothing that speaks against the
job. -/
theorem accepted_of_true {site : Site} {i : ℕ} {job : Job} {s s' : Sys W}
    (hjob : s.jobs[i]? = some job) (hpending : job.status = .pending)
    (h : launchCandidate site i s = .ok true s') : Accepted site job s s' := by
  have hchosen : ∃ placement w, Chosen site true i job placement s w ∧ Onward w s'.world := by
    rcases launchCandidate_turn ⟨job, hjob, hpending⟩ h with ⟨-, hmove | hmove⟩ | ⟨hfalse, -⟩
    · cases hmove with
      | launch hchosen hstarted htime =>
          have hsame := hchosen.found
          rw [hjob] at hsame
          cases hsame
          exact ⟨_, _, hchosen, hstarted.onward.trans (.of_ok htime)⟩
    · cases hmove with
      | fail hchosen hunstarted htime =>
          have hsame := hchosen.found
          rw [hjob] at hsame
          cases hsame
          exact ⟨_, _, hchosen, hunstarted.onward.trans (.of_ok htime)⟩
    · cases hfalse
  obtain ⟨placement, w, hchosen, honward⟩ := hchosen
  obtain ⟨decision, w₁, hdecision, hok, hlater⟩ := hchosen.admitted rfl
  refine ⟨hchosen.deps rfl, ⟨decision, w₁, hdecision, hok, ?_⟩, placement, hchosen.placed⟩
  exact (Later.onward hlater).trans honward

/-- A turn that raises has changed nothing, unless nothing speaks against the job. -/
theorem accepted_of_error {site : Site} {i : ℕ} {job : Job} {s s' : Sys W} {e : Exc}
    (hjob : s.jobs[i]? = some job) (hpending : job.status = .pending)
    (h : launchCandidate site i s = .error e s') :
    s' = { s with world := s'.world } ∨ Accepted site job s s' := by
  obtain ⟨s₀, s₁, hget, h⟩ := (bind_eq_error.mp h).resolve_left nofun
  cases hget
  simp only [hjob] at h
  split at h
  · rename_i hdeps
    rcases bind_eq_error.mp h with hraise | ⟨decision, s₁, hdecision, h⟩
    · obtain ⟨w, -, rfl⟩ := (quiet_canLaunch _ _ _).of_error hraise
      exact Or.inl rfl
    · obtain ⟨w, -, rfl⟩ := (quiet_canLaunch _ _ _).of_ok hdecision
      split at h
      · rename_i hok
        have honward : Onward w s'.world := by
          obtain ⟨mid, hpath, hwreck⟩ := (launch_obeys site i).raises
            (s := { s with world := w }) ⟨job, hjob, hpending⟩ h
          exact (onward_of_path hpath).trans hwreck.onward
        obtain ⟨s₀, s₁, hget, h⟩ := (bind_eq_error.mp h).resolve_left nofun
        cases hget
        simp only [hjob] at h
        rcases bind_eq_error.mp h with hraise | ⟨occupied, s₁, hoccupied, h⟩
        · obtain ⟨-, rfl⟩ := liftExcept_eq_error.mp hraise
          exact Or.inl rfl
        · obtain ⟨hcores, rfl⟩ := liftExcept_eq_ok.mp hoccupied
          rcases bind_eq_error.mp h with hraise | ⟨found, s₁, hfound, h⟩
          · obtain ⟨-, rfl⟩ := liftExcept_eq_error.mp hraise
            exact Or.inl rfl
          · obtain ⟨hplaced, rfl⟩ := liftExcept_eq_ok.mp hfound
            cases found with
            | none => cases h
            | some placement =>
                exact Or.inr ⟨hdeps, ⟨decision, w, hdecision, hok, honward⟩, placement,
                  occupied, hcores, hplaced⟩
      · cases h
  · cases h

/-- What speaks against starting a job, the readings being what they are. -/
inductive TurnedDown (site : Site) (pause : Bool) (now : ℚ) (used cap free : Option ℚ)
    (s : Sys W) (job : Job) : Prop
  | waits (h : depsSatisfied s.jobs job = false)
  | refused (h : ¬ Lets site.config pause now used cap free s.cooldownUntil job (running s.jobs))
  | deferred {occupied : Finset ℤ} (hoccupied : occupiedCores site s.jobs = .ok occupied)
      (h : allocate job.cores occupied site.numaNodes (allocateOptions site job) = .ok none)

section Readings

variable {site : Site} {pause : Bool} {now : ℚ} {used cap free : Option ℚ} {w w' : W}

/-- A turn that changes nothing has turned its job down. -/
theorem turnedDown_of_false (hfrozen : Frozen site.config w w' pause now used cap free) {i : ℕ}
    {job : Job} {s s' : Sys W} (hjob : s.jobs[i]? = some job) (hbefore : Onward w s.world)
    (hafter : Onward s'.world w') (h : launchCandidate site i s = .ok false s') :
    TurnedDown site pause now used cap free s job := by
  by_cases hdeps : depsSatisfied s.jobs job = true
  · rcases launchCandidate_eq_false hjob hdeps h with ⟨decision, hdecision, hno⟩ |
      ⟨occupied, hoccupied, hnone⟩
    · refine .refused fun hlets => ?_
      rw [(canLaunch_ok_iff hfrozen hbefore hafter hdecision).mpr hlets] at hno
      cases hno
    · exact .deferred hoccupied hnone
  · exact .waits (Bool.not_eq_true _ ▸ hdeps)

/-- What speaks against a job at a turn of the pass speaks against it ever after. -/
theorem TurnedDown.onward (hfrozen : Frozen site.config w w' pause now used cap free)
    {job : Job} {s t t' : Sys W} (hdown : TurnedDown site pause now used cap free s job)
    (hregular : Regular s.jobs) (hpath : ReflTransGen (Step site true Label.inPass) s t)
    (hbefore : Onward w t.world) (hafter : Onward t'.world w') : ¬ Accepted site job t t' := by
  rintro ⟨hdeps, ⟨decision, v, hdecision, hok, honward⟩, placement, hplaced⟩
  have hlater : Regular t.jobs := hregular.of_progress (progress_of_path hpath)
  have hon : RunsOn s.jobs t.jobs := ⟨running_perm_of_path hpath, hlater.cores, hlater.ramGb⟩
  have hless : AsksLess job job := ⟨le_rfl, le_rfl, id⟩
  cases hdown with
  | waits hwaits =>
      rw [depsSatisfied_of_pass hregular.ids hpath hdeps] at hwaits
      cases hwaits
  | refused hrefused =>
      have hlets := (canLaunch_ok_iff hfrozen hbefore (honward.trans hafter) hdecision).mp hok
      rw [cooldown_of_pass hpath] at hlets
      exact hrefused (hlets.anti hon hless)
  | deferred hoccupied hnone => exact placeable_anti hon hless hplaced hoccupied hnone

/-! ## Two passes -/

/-- The job at an index waits and has been turned down in this pass or before it. -/
structure Dismissed (site : Site) (pause : Bool) (now : ℚ) (used cap free : Option ℚ) (s : Sys W)
    (i : ℕ) (job : Job) (t : Sys W) : Prop where
  found : s.jobs[i]? = some job
  pending : job.status = .pending
  down : TurnedDown site pause now used cap free t job
  regular : Regular t.jobs
  path : ReflTransGen (Step site true Label.inPass) t s

/-- Whatever still waits after the turns of some jobs was turned down at its turn. -/
theorem dismissed_of_sweep (hfrozen : Frozen site.config w w' pause now used cap free)
    {items : List ℕ} {s s' : Sys W} {changed : Bool} (hregular : Regular s.jobs)
    (hwaiting : ∀ i ∈ items, s.pendingAt i) (hnodup : items.Nodup) (hbefore : Onward w s.world)
    (hafter : Onward s'.world w') (h : sweep (launchCandidate site) items s = .ok changed s') {i : ℕ}
    (hi : i ∈ items) {job : Job} (hjob : s'.jobs[i]? = some job) (hpending : job.status = .pending) :
    ∃ t, Dismissed site pause now used cap free s' i job t := by
  obtain ⟨earlier, later, rfl⟩ := List.append_of_mem hi
  obtain ⟨b₁, b₂, t, hearlier, hrest⟩ := sweep_append_eq_ok h
  obtain ⟨first, t', hturn, hrest'⟩ := bind_eq_ok.mp hrest
  obtain ⟨last, t'', hlater, hpure⟩ := bind_eq_ok.mp hrest'
  cases hpure
  obtain ⟨hnodup₁, hnodup₂, hapart⟩ := List.nodup_append.mp hnodup
  obtain ⟨hpath, hsame⟩ := turns_of_sweep
    (fun k hk => hwaiting k (List.mem_append_left _ hk)) hnodup₁ hearlier
  have hwaiting' : ∀ k ∈ i :: later, t.pendingAt k := by
    intro k hk
    rw [Sys.pendingAt, hsame k fun hin => hapart k hin k hk rfl]
    exact hwaiting k (List.mem_append_right _ hk)
  obtain ⟨hpath', hnext⟩ := (launchCandidate_obeys site i later).returns ⟨hwaiting', hnodup₂⟩ hturn
  obtain ⟨hpath'', hsame'⟩ := turns_of_sweep hnext.1 hnext.2 hlater
  have hjob' : t'.jobs[i]? = some job := by
    rw [← hsame' i (List.nodup_cons.mp hnodup₂).1]
    exact hjob
  -- a turn that starts or fails its job leaves it waiting no more
  rcases launchCandidate_turn (hwaiting' i (List.mem_cons_self ..)) hturn with
    ⟨-, hmoved⟩ | ⟨rfl, hasks⟩
  · rcases hmoved with hmove | hmove
    · exact absurd hpending (hmove.turn.not_waiting (.inl rfl) hjob')
    · exact absurd hpending (hmove.turn.not_waiting (.inr rfl) hjob')
  · have hthen : t.jobs[i]? = some job := by
      rw [← jobs_of_asks hasks]
      exact hjob'
    have hdown := turnedDown_of_false hfrozen hthen (hbefore.trans (onward_of_path hpath))
      ((onward_of_path hpath'').trans hafter) hturn
    exact ⟨t, hjob, hpending, hdown, hregular.of_progress (progress_of_path hpath),
      hpath'.trans hpath''⟩

theorem waiting_of_dismissed {items : List ℕ} {s : Sys W}
    (hdown : ∀ i ∈ items, ∃ job t, Dismissed site pause now used cap free s i job t) :
    ∀ i ∈ items, s.pendingAt i := by
  intro i hi
  obtain ⟨job, t, hdismissed⟩ := hdown i hi
  exact ⟨job, hdismissed.found, hdismissed.pending⟩

/-- A turn of a job that has been turned down changes nothing. -/
theorem turn_of_dismissed (hfrozen : Frozen site.config w w' pause now used cap free) {i : ℕ}
    {rest : List ℕ} {s s' : Sys W} {changed : Bool}
    (hdown : ∀ k ∈ i :: rest, ∃ job t, Dismissed site pause now used cap free s k job t)
    (hnodup : (i :: rest).Nodup) (hbefore : Onward w s.world) (hafter : Onward s'.world w')
    (h : launchCandidate site i s = .ok changed s') :
    changed = false ∧ ReflTransGen (Step site true Label.inAsk) s s' ∧
      ((∀ k ∈ rest, s'.pendingAt k) ∧ rest.Nodup) ∧
      ∀ k ∈ rest, ∃ job t, Dismissed site pause now used cap free s' k job t := by
  have hwaiting := waiting_of_dismissed hdown
  obtain ⟨job, t, hdismissed⟩ := hdown i (List.mem_cons_self ..)
  have hnext := (launchCandidate_obeys site i rest).returns ⟨hwaiting, hnodup⟩ h
  have hnot := hdismissed.down.onward hfrozen hdismissed.regular hdismissed.path hbefore hafter
  have hfalse : changed = false := by
    by_contra htrue
    rw [Bool.not_eq_false] at htrue
    subst htrue
    exact hnot (accepted_of_true hdismissed.found hdismissed.pending h)
  subst hfalse
  rcases launchCandidate_turn (hwaiting i (List.mem_cons_self ..)) h with ⟨htrue, -⟩ | ⟨-, hasks⟩
  · cases htrue
  refine ⟨rfl, hasks, hnext.2, fun k hk => ?_⟩
  obtain ⟨job, t, hdismissed⟩ := hdown k (List.mem_cons_of_mem _ hk)
  refine ⟨job, t, ?_, hdismissed.pending, hdismissed.down, hdismissed.regular,
    hdismissed.path.trans hnext.1⟩
  rw [jobs_of_asks hasks]
  exact hdismissed.found

/-- The turns of jobs that have been turned down change nothing. -/
theorem sweep_of_dismissed (hfrozen : Frozen site.config w w' pause now used cap free)
    {items : List ℕ} {s s' : Sys W} {changed : Bool}
    (hdown : ∀ i ∈ items, ∃ job t, Dismissed site pause now used cap free s i job t)
    (hnodup : items.Nodup) (hbefore : Onward w s.world) (hafter : Onward s'.world w')
    (h : sweep (launchCandidate site) items s = .ok changed s') :
    changed = false ∧ ReflTransGen (Step site true Label.inAsk) s s' := by
  induction items generalizing s changed with
  | nil =>
      cases h
      exact ⟨rfl, .refl⟩
  | cons i rest ih =>
      obtain ⟨first, s₁, hturn, h⟩ := bind_eq_ok.mp h
      obtain ⟨later, s₂, hrest, hpure⟩ := bind_eq_ok.mp h
      cases hpure
      have honward : Onward s₁.world s'.world := by
        have hnext := (launchCandidate_obeys site i rest).returns
          ⟨waiting_of_dismissed hdown, hnodup⟩ hturn
        exact onward_of_path (turns_of_sweep hnext.2.1 hnext.2.2 hrest).1
      obtain ⟨rfl, hasks, hleft, hdown'⟩ :=
        turn_of_dismissed hfrozen hdown hnodup hbefore (honward.trans hafter) hturn
      obtain ⟨hlater, hpath⟩ := ih hdown' hleft.2 (hbefore.trans (onward_of_path hasks)) hrest
      rw [hlater]
      exact ⟨rfl, hasks.trans hpath⟩

/-- Nor do they if one of them raises. -/
theorem raises_of_dismissed (hfrozen : Frozen site.config w w' pause now used cap free)
    {items : List ℕ} {s s' : Sys W} {e : Exc}
    (hdown : ∀ i ∈ items, ∃ job t, Dismissed site pause now used cap free s i job t)
    (hnodup : items.Nodup) (hbefore : Onward w s.world) (hafter : Onward s'.world w')
    (h : sweep (launchCandidate site) items s = .error e s') : s' = { s with world := s'.world } := by
  induction items generalizing s with
  | nil => cases h
  | cons i rest ih =>
      rcases bind_eq_error.mp h with hraise | ⟨first, s₁, hturn, h⟩
      · obtain ⟨job, t, hdismissed⟩ := hdown i (List.mem_cons_self ..)
        have hnot := hdismissed.down.onward hfrozen hdismissed.regular hdismissed.path hbefore hafter
        exact (accepted_of_error hdismissed.found hdismissed.pending hraise).resolve_right hnot
      · have hrest := (bind_eq_error.mp h).resolve_right nofun
        have honward : Onward s₁.world s'.world := by
          have hnext := (launchCandidate_obeys site i rest).returns
            ⟨waiting_of_dismissed hdown, hnodup⟩ hturn
          obtain ⟨mid, hpath, hwreck⟩ := (sweep_of (I := fun rest s =>
            (∀ j ∈ rest, s.pendingAt j) ∧ rest.Nodup) (launchCandidate_obeys site) rest).raises
            hnext.2 hrest
          exact (onward_of_path hpath).trans hwreck.onward
        obtain ⟨rfl, hasks, hleft, hdown'⟩ :=
          turn_of_dismissed hfrozen hdown hnodup hbefore (honward.trans hafter) hturn
        have hsame := ih hdown' hleft.2 (hbefore.trans (onward_of_path hasks)) hrest
        obtain ⟨v, -, rfl⟩ := asks_eq hasks
        exact hsame

end Readings

/-- A launch pass leaves nothing to launch: where pause file, clock and memory readings do not
change, a second pass right after it starts nothing, fails nothing and changes nothing, and if it
raises it has changed nothing either. -/
theorem second_pass (site : Site) (s s₁ s₂ : Sys W) (changed : Bool) (pause : Bool) (now : ℚ)
    (used cap free : Option ℚ) (hids : (s.jobs.map Job.id).Nodup)
    (hcores : ∀ job ∈ s.jobs, 0 ≤ job.cores) (hram : ∀ job ∈ s.jobs, 0 ≤ job.ramGb)
    (hfirst : launchPending site s = .ok changed s₁)
    (hfrozen : Frozen site.config s.world s₂.world pause now used cap free) :
    (∀ again, launchPending site s₁ = .ok again s₂ →
      again = false ∧ s₂ = { s₁ with world := s₂.world }) ∧
    ∀ e, launchPending site s₁ = .error e s₂ → s₂ = { s₁ with world := s₂.world } := by
  have hregular : Regular s.jobs := ⟨hids, hcores, hram⟩
  obtain ⟨s₀, s₃, hget, hsweep⟩ := bind_eq_ok.mp hfirst
  cases hget
  have hwaiting : ∀ i ∈ pendingOrder s.jobs, s.pendingAt i := fun i hi => mem_pendingOrder.mp hi
  obtain ⟨hpath, hsame⟩ := turns_of_sweep hwaiting (nodup_pendingOrder s.jobs) hsweep
  have hdown : Onward s₁.world s₂.world → ∀ i ∈ pendingOrder s₁.jobs, ∃ job t,
      Dismissed site pause now used cap free s₁ i job t := by
    intro hafter i hi
    obtain ⟨job, hjob, hpending⟩ := mem_pendingOrder.mp hi
    have hmem : i ∈ pendingOrder s.jobs := by
      by_contra hout
      rw [hsame i hout] at hjob
      exact hout (mem_pendingOrder.mpr ⟨job, hjob, hpending⟩)
    obtain ⟨t, hdismissed⟩ := dismissed_of_sweep hfrozen hregular hwaiting
      (nodup_pendingOrder s.jobs) (.refl _) hafter hsweep hmem hjob hpending
    exact ⟨job, t, hdismissed⟩
  refine ⟨fun again hsecond => ?_, fun e hsecond => ?_⟩
  · have hafter : Onward s₁.world s₂.world :=
      onward_of_path ((launchPending_obeys site).returns trivial hsecond).1
    obtain ⟨s₀, s₃, hget, hsweep'⟩ := bind_eq_ok.mp hsecond
    cases hget
    obtain ⟨hagain, hasks⟩ := sweep_of_dismissed hfrozen (hdown hafter)
      (nodup_pendingOrder s₁.jobs) (onward_of_path hpath) (.refl _) hsweep'
    obtain ⟨w, -, rfl⟩ := asks_eq hasks
    exact ⟨hagain, rfl⟩
  · have hafter : Onward s₁.world s₂.world := by
      obtain ⟨mid, hmid, hwreck⟩ := (launchPending_obeys site).raises trivial hsecond
      exact (onward_of_path hmid).trans hwreck.onward
    obtain ⟨s₀, s₃, hget, hsweep'⟩ := (bind_eq_error.mp hsecond).resolve_left nofun
    cases hget
    exact raises_of_dismissed hfrozen (hdown hafter) (nodup_pendingOrder s₁.jobs)
      (onward_of_path hpath) (.refl _) hsweep'

/-- Two of three jobs are started, the third has no place; then there is nothing left to do. -/
theorem second_pass_rankedJobs : ∃ s₁ s₂ : Sys World,
    launchPending (smallSite rankedJobs) (fresh (smallSite rankedJobs) {}) = .ok true s₁ ∧
    launchPending (smallSite rankedJobs) s₁ = .ok false s₂ ∧
    (running s₁.jobs).length = 2 ∧ s₂.jobs = s₁.jobs := by
  have hruns : returns ((launchPending (smallSite rankedJobs) >>= fun changed =>
      if changed then launchPending (smallSite rankedJobs) else throw ⟨.runtimeError, ""⟩)
      (fresh (smallSite rankedJobs) {}))
      (fun s => s.world.clock == 0 && (running s.jobs).length == 2) = true := by
    decide +kernel
  obtain ⟨again, s₂, hends, hoped⟩ := of_returns hruns
  obtain ⟨hclock, htwo⟩ := Bool.and_eq_true_iff.mp hoped
  obtain ⟨changed, s₁, hfirst, hends⟩ := bind_eq_ok.mp hends
  cases changed with
  | false => cases hends
  | true =>
      have hfrozen := frozen_bare rankedJobs (beq_iff_eq.mp hclock)
      obtain ⟨hagain, hsame⟩ := (second_pass (smallSite rankedJobs) _ s₁ s₂ true false 0 none
        none none (by decide) (by decide) (by decide) hfirst hfrozen).1 again hends
      subst hagain
      have hjobs : s₂.jobs = s₁.jobs := by rw [hsame]
      refine ⟨s₁, s₂, hfirst, hends, ?_, hjobs⟩
      rw [← hjobs]
      exact beq_iff_eq.mp htwo

end Nodepilot
