import Nodepilot.Steps.Move

/-!
# The loop makes only moves

One specification for each function of the scheduling loop: whatever the host
answers, and wherever the process stops, what it does is a path of moves, ended
by a wreck if it did not return.  The functions that decide what a move is (a
reap, a start) are inverted first, each once.
-/

namespace Nodepilot

open Obeys Relation

variable {W : Type} [Host W]

/-- A program that makes only moves of a certain kind. -/
abbrev Makes {α : Type} (site : Site) (gated : Bool) (kinds : Label → Bool) (m : M W α) : Prop :=
  Obeys (Step site gated kinds) (Wreck site gated) (fun _ => True) m fun _ _ => True

/-! ## Asking is moving -/

/-- A quiet program under the specification of the whole scheduler. -/
theorem Quiet.obeys {α : Type} {m : M W α} {P : Sys W → Prop} (h : Quiet m) (site : Site)
    (gated : Bool) {kinds : Label → Bool} (hask : kinds .ask = true)
    (hP : ∀ s w, P s → P { s with world := w }) :
    Obeys (Step site gated kinds) (Wreck site gated) P m fun _ => P where
  returns {s a s'} hs hm := by
    refine ⟨ReflTransGen.mono ?_ _ _ (h.returns trivial hm).1, ?_⟩
    · rintro s s' ⟨w, hasks, rfl⟩
      exact ⟨.ask, hask, .ask hasks⟩
    · obtain ⟨w, -, rfl⟩ := h.of_ok hm
      exact hP s w hs
  raises {s e s'} hs hm := by
    obtain ⟨w, hlater, rfl⟩ := h.of_error hm
    exact ⟨s, .refl, .lost rfl rfl (Later.seen hlater)⟩

theorem Later.path {site : Site} {gated : Bool} {kinds : Label → Bool} (hask : kinds .ask = true)
    {s : Sys W} {w : W} (h : Later s.world w) :
    ReflTransGen (Step site gated kinds) s { s with world := w } := by
  induction h with
  | refl => exact .refl
  | tail _ hlast ih => exact ih.tail ⟨.ask, hask, .ask hlast⟩

/-- A specification allows more kinds of moves. -/
theorem obeys_kinds {α : Type} {m : M W α} {site : Site} {gated : Bool}
    {kinds kinds' : Label → Bool} {P : Sys W → Prop} {Q : α → Sys W → Prop}
    (h : Obeys (Step site gated kinds) (Wreck site gated) P m Q)
    (hkinds : ∀ label, kinds label = true → kinds' label = true) :
    Obeys (Step site gated kinds') (Wreck site gated) P m Q :=
  h.mono (fun _ _ => Step.mono hkinds) fun _ _ hwreck => hwreck

theorem inReap_inTick (label : Label) (h : label.inReap = true) : label.inTick = true := by
  cases label with
  | ask => rfl
  | reap => rfl
  | _ => cases h

theorem inSkip_inTick (label : Label) (h : label.inSkip = true) : label.inTick = true := by
  cases label with
  | ask => rfl
  | skip => rfl
  | _ => cases h

theorem inPass_inTick (label : Label) (h : label.inPass = true) : label.inTick = true := by
  cases label with
  | ask => rfl
  | launch => rfl
  | fail => rfl
  | _ => cases h

theorem inReconcile_inStartUp (label : Label) (h : label.inReconcile = true) :
    label.inStartUp = true := by
  cases label with
  | ask => rfl
  | spare => rfl
  | clear => rfl
  | _ => cases h

theorem inSave_inStartUp (label : Label) (h : label.inSave = true) : label.inStartUp = true := by
  cases label with
  | ask => rfl
  | save => rfl
  | _ => cases h

theorem inSave_inKill (label : Label) (h : label.inSave = true) : label.inKill = true := by
  cases label with
  | ask => rfl
  | save => rfl
  | _ => cases h

theorem inTick_inRound (label : Label) (h : label.inTick = true) : label.inRound = true := by
  rw [Label.inRound, h, Bool.true_or]

theorem inSave_inRound (label : Label) (h : label.inSave = true) : label.inRound = true := by
  rw [Label.inRound, h, Bool.or_true]

/-! ## Inversion of the operations -/

theorem time_eq_ok {s s' : Sys W} {now : ℚ} (h : call .time s = .ok now s') :
    ∃ w, Host.answer .time s.world = .ok now w ∧ s' = { s with world := w } :=
  call_eq_ok.mp h

theorem time_eq_error {s s' : Sys W} {e : Exc} (h : call .time s = .error e s') :
    ∃ w, Later s.world w ∧ s' = { s with world := w } :=
  (Only.call rfl).of_error h

omit [Host W] in
/-- What `forget` does to the handles. -/
theorem forget_eq_ok {job : Job} {s s' : Sys W} (h : forget job s = .ok () s') :
    s' = { s with procs := forgotten job s.procs } := by
  unfold forget at h
  unfold forgotten
  cases htrack : tracked job.session with
  | pid digits =>
      rw [htrack] at h
      obtain ⟨pid, s₁, hlift, hmodify⟩ := bind_eq_ok.mp h
      obtain ⟨hparse, rfl⟩ := liftExcept_eq_ok.mp hlift
      cases hmodify
      simp only [hparse]
  | tmux name =>
      rw [htrack] at h
      cases h
      rfl
  | nothing =>
      rw [htrack] at h
      cases h
      rfl

omit [Host W] in
theorem forget_eq_error {job : Job} {s s' : Sys W} {e : Exc} (h : forget job s = .error e s') :
    s = s' := by
  unfold forget at h
  cases htrack : tracked job.session with
  | pid digits =>
      rw [htrack] at h
      rcases bind_eq_error.mp h with h | ⟨pid, s₁, -, h⟩
      · exact (liftExcept_eq_error.mp h).2
      · cases h
  | tmux name =>
      rw [htrack] at h
      cases h
  | nothing =>
      rw [htrack] at h
      cases h

/-- The outcome of a job is the classification of its return code, the kernel log being
read where the code alone does not decide. -/
theorem reap_eq_ok {job : Job} {s s' : Sys W} {outcome : Outcome}
    (h : reap job s = .ok outcome s') :
    ∃ rc w₁ hint w₂, returncode job s = .ok rc { s with world := w₁ } ∧ Seen s.world w₁ ∧
      Later w₁ w₂ ∧ s' = { s with procs := forgotten job s.procs, world := w₂ } ∧
      outcome = classify rc hint ∧
      (rc = some 137 ∨ rc = none → journalReportsOom 5
        { s with procs := forgotten job s.procs, world := w₁ } = .ok hint s') := by
  obtain ⟨rc, s₁, hrc, h⟩ := bind_eq_ok.mp h
  obtain ⟨w₁, hlater, rfl⟩ := (looking_returncode job).of_ok hrc
  obtain ⟨⟨⟩, s₂, hforget, h⟩ := bind_eq_ok.mp h
  rw [forget_eq_ok hforget] at h
  split at h
  · obtain ⟨hint, s₃, hjournal, h⟩ := bind_eq_ok.mp h
    obtain ⟨w₂, hlater', rfl⟩ := (quiet_journalReportsOom 5).of_ok hjournal
    cases h
    exact ⟨rc, w₁, hint, w₂, hrc, hlater, hlater', rfl, rfl, fun _ => hjournal⟩
  · rename_i hplain
    cases h
    exact ⟨rc, w₁, false, w₁, hrc, hlater, .refl _, rfl, rfl, fun h => absurd h hplain⟩

theorem reap_eq_error {job : Job} {s s' : Sys W} {e : Exc} (h : reap job s = .error e s') :
    ∃ procs w, Seen s.world w ∧ s' = { s with procs := procs, world := w } := by
  rcases bind_eq_error.mp h with h | ⟨rc, s₁, hrc, h⟩
  · obtain ⟨w, hlater, rfl⟩ := (looking_returncode job).of_error h
    exact ⟨_, w, hlater, rfl⟩
  obtain ⟨w₁, hlater, rfl⟩ := (looking_returncode job).of_ok hrc
  rcases bind_eq_error.mp h with h | ⟨⟨⟩, s₂, hforget, h⟩
  · rw [← forget_eq_error h]
    exact ⟨_, w₁, hlater, rfl⟩
  rw [forget_eq_ok hforget] at h
  split at h
  · rcases bind_eq_error.mp h with h | ⟨hint, s₃, -, h⟩
    · obtain ⟨w₂, hlater', rfl⟩ := (quiet_journalReportsOom 5).of_error h
      exact ⟨_, w₂, Seen.trans hlater (Later.seen hlater'), rfl⟩
    · cases h
  · cases h

/-- Every failed write of `oom_score_adj` is caught, so only the end of the process
comes through. -/
theorem setOomScoreAdj_eq_error {pid value : ℤ} {s s' : Sys W} {e : Exc}
    (h : setOomScoreAdj pid value s = .error e s') : e.cls = .died := by
  rcases tryExcept_eq_error.mp h with ⟨h, hcaught⟩ | ⟨e₁, s₁, -, -, h⟩
  · rcases bind_eq_error.mp h with h | ⟨⟨⟩, s₁, -, h⟩
    · obtain ⟨w, hanswer, -⟩ := call_eq_error.mp h
      rcases Host.raises_only _ _ _ _ hanswer with hdied | hmem
      · exact hdied
      · have hos : e.cls = .osError := by simpa [Syscall.raises] using hmem
        rw [hos] at hcaught
        cases hcaught
    · cases h
  · cases h

theorem start_eq_ok {site : Site} {i : ℕ} {job : Job} {argv : List String} {s s' : Sys W}
    (h : start site i job argv s = .ok () s') : Started site i job argv s s' := by
  obtain ⟨workdir, s₁, hworkdir, h⟩ := bind_eq_ok.mp h
  obtain ⟨w₁, hlater, rfl⟩ := (quiet_workdirOf job).of_ok hworkdir
  split at h
  · rename_i hrunner
    obtain ⟨rc, s₂, hcall, h⟩ := bind_eq_ok.mp h
    obtain ⟨w₂, hkill, rfl⟩ := call_eq_ok.mp hcall
    obtain ⟨⟨⟩, s₃, hcall', h⟩ := bind_eq_ok.mp h
    obtain ⟨w₃, hnew, rfl⟩ := call_eq_ok.mp hcall'
    cases h
    exact .tmux hrunner hlater hkill hnew
  · rename_i hrunner
    obtain ⟨proc, s₂, hcall, h⟩ := bind_eq_ok.mp h
    obtain ⟨w₂, hpopen, rfl⟩ := call_eq_ok.mp hcall
    obtain ⟨⟨⟩, s₃, hnote, h⟩ := bind_eq_ok.mp h
    obtain ⟨⟨⟩, s₄, hset, h⟩ := bind_eq_ok.mp h
    obtain ⟨⟨⟩, s₅, hproc, h⟩ := bind_eq_ok.mp h
    cases hnote
    cases hset
    cases hproc
    obtain ⟨adjusted, s₆, hadjust, h⟩ := bind_eq_ok.mp h
    obtain ⟨w₃, hlater', rfl⟩ := (quiet_setOomScoreAdj _ _).of_ok hadjust
    cases h
    exact .subprocess hrunner hlater hpopen hlater'

/-- A start that raises has not run the command, unless the process died on the way. -/
theorem start_eq_error {site : Site} {i : ℕ} {job : Job} {argv : List String} {s s' : Sys W}
    {e : Exc} (h : start site i job argv s = .error e s') :
    (∃ w, Unstarted site job argv s.world e w ∧ s' = { s with world := w }) ∨
      (e.cls = .died ∧ Started site i job argv s s') := by
  rcases bind_eq_error.mp h with h | ⟨workdir, s₁, hworkdir, h⟩
  · obtain ⟨w₁, hlater, rfl⟩ := (quiet_workdirOf job).of_error h
    exact .inl ⟨w₁, .getcwd hlater, rfl⟩
  obtain ⟨w₁, hlater, rfl⟩ := (quiet_workdirOf job).of_ok hworkdir
  split at h
  · rename_i hrunner
    rcases bind_eq_error.mp h with h | ⟨rc, s₂, hcall, h⟩
    · obtain ⟨w₂, hkill, rfl⟩ := call_eq_error.mp h
      exact .inl ⟨w₂, .killSession hrunner hlater hkill, rfl⟩
    obtain ⟨w₂, hkill, rfl⟩ := call_eq_ok.mp hcall
    rcases bind_eq_error.mp h with h | ⟨⟨⟩, s₃, -, h⟩
    · obtain ⟨w₃, hnew, rfl⟩ := call_eq_error.mp h
      exact .inl ⟨w₃, .newSession hrunner hlater hkill hnew, rfl⟩
    · cases h
  · rename_i hrunner
    rcases bind_eq_error.mp h with h | ⟨proc, s₂, hcall, h⟩
    · obtain ⟨w₂, hpopen, rfl⟩ := call_eq_error.mp h
      exact .inl ⟨w₂, .popen hrunner hlater hpopen, rfl⟩
    obtain ⟨w₂, hpopen, rfl⟩ := call_eq_ok.mp hcall
    rcases bind_eq_error.mp h with h | ⟨⟨⟩, s₃, hnote, h⟩
    · cases h
    rcases bind_eq_error.mp h with h | ⟨⟨⟩, s₄, hset, h⟩
    · cases h
    rcases bind_eq_error.mp h with h | ⟨⟨⟩, s₅, hproc, h⟩
    · cases h
    cases hnote
    cases hset
    cases hproc
    rcases bind_eq_error.mp h with h | ⟨adjusted, s₆, -, h⟩
    · have hdied := setOomScoreAdj_eq_error h
      obtain ⟨w₃, hlater', rfl⟩ := (quiet_setOomScoreAdj _ _).of_error h
      exact .inr ⟨hdied, .subprocess hrunner hlater hpopen hlater'⟩
    · cases h

/-- Nothing but the handles and the world moves. -/
def Handled (s s' : Sys W) : Prop :=
  ∃ procs w, Tended s.world w ∧ s' = { s with procs := procs, world := w }

theorem handled_of_path {s s' : Sys W} (h : ReflTransGen Handled s s') : Handled s s' := by
  induction h with
  | refl => exact ⟨_, _, .refl _, rfl⟩
  | tail _ hlast ih =>
      obtain ⟨procs, w, htended, rfl⟩ := ih
      obtain ⟨procs', w', htended', rfl⟩ := hlast
      exact ⟨procs', w', htended.trans htended', rfl⟩

theorem call_handled {α : Type} {c : Syscall α} (hc : c.starts = false) :
    Obeys Handled (· = ·) (fun _ => True) (call c : M W α) fun _ _ => True where
  returns _ h := by
    obtain ⟨w, hanswer, rfl⟩ := call_eq_ok.mp h
    exact ⟨.single ⟨_, w, .of_after hc (after_of_ok hanswer), rfl⟩, trivial⟩
  raises {s _ _} _ h := by
    obtain ⟨w, hanswer, rfl⟩ := call_eq_error.mp h
    exact ⟨_, .single ⟨s.procs, w, .of_after hc (after_of_error hanswer), rfl⟩, rfl⟩

/-- Killing a job touches the handles and the world. -/
theorem killJob_handled (job : Job) :
    Obeys Handled (· = ·) (fun _ => True) (killJob (W := W) job) fun _ _ => True := by
  unfold killJob
  split
  · exact .bind (call_handled rfl) fun _ => .pure fun _ _ => trivial
  · refine .bind (R := fun _ _ => True) ?_ fun pid => .bind (R := fun _ _ => True) ?_ fun _ => ?_
    · refine ⟨fun {s a s'} _ h => ?_, fun {s e s'} _ h => ?_⟩
      · obtain ⟨-, rfl⟩ := liftExcept_eq_ok.mp h
        exact ⟨.refl, trivial⟩
      · obtain ⟨-, rfl⟩ := liftExcept_eq_error.mp h
        exact ⟨s, .refl, rfl⟩
    · exact tryExcept_obeys (.bind (call_handled rfl) fun _ => call_handled rfl)
        fun _ => .pure fun _ _ => trivial
    · refine .get_bind fun s _ => ?_
      split
      · exact .pure fun _ _ => trivial
      · refine .bind (R := fun _ _ => True) ?_ fun _ => .modify fun s _ => ⟨⟨_, _, .refl _, rfl⟩, trivial⟩
        exact (tryExcept_obeys (.bind (call_handled rfl) fun _ => .pure fun _ _ => trivial)
          fun _ => .pure fun _ _ => trivial).weaken (fun _ _ => trivial) fun _ _ _ => trivial
  · exact .pure fun _ _ => trivial

/-! ## Turns -/

theorem triggerOomCooldown_eq_ok {config : Config} {s s' : Sys W}
    (h : triggerOomCooldown config s = .ok () s') :
    ∃ now w, Host.answer .time s.world = .ok now w ∧
      s' = { s with cooldownUntil := now + config.oomCooldownSeconds, world := w } := by
  obtain ⟨now, s₁, hcall, hmodify⟩ := bind_eq_ok.mp h
  obtain ⟨w, htime, rfl⟩ := time_eq_ok hcall
  cases hmodify
  exact ⟨now, w, htime, rfl⟩

theorem triggerOomCooldown_eq_error {config : Config} {s s' : Sys W} {e : Exc}
    (h : triggerOomCooldown config s = .error e s') :
    ∃ w, Later s.world w ∧ s' = { s with world := w } := by
  rcases bind_eq_error.mp h with h | ⟨now, s₁, -, h⟩
  · exact time_eq_error h
  · cases h

/-- What has only been asked is a path of asks. -/
theorem path_of_asks {site : Site} {gated : Bool} {kinds : Label → Bool} (hask : kinds .ask = true)
    {s s' : Sys W} (h : ReflTransGen (Step site gated Label.inAsk) s s') :
    ReflTransGen (Step site gated kinds) s s' := by
  refine ReflTransGen.mono (fun a b hab => hab.mono fun label hlabel => ?_) s s' h
  cases label with
  | ask => exact hask
  | _ => cases hlabel

/-- Asking changes nothing but the world. -/
theorem asks_eq {site : Site} {gated : Bool} {s s' : Sys W}
    (h : ReflTransGen (Step site gated Label.inAsk) s s') :
    ∃ w, Seen s.world w ∧ s' = { s with world := w } := by
  induction h with
  | refl => exact ⟨s.world, .refl _, rfl⟩
  | tail _ hlast ih =>
      obtain ⟨w, hseen, rfl⟩ := ih
      obtain ⟨label, hlabel, hmove⟩ := hlast
      cases hmove with
      | ask hask => exact ⟨_, hseen.trans (Later.seen (.single hask)), rfl⟩
      | probe _ _ halive =>
          obtain ⟨w', hseen', heq⟩ := (looking_isAlive _).of_ok halive
          cases heq
          exact ⟨_, hseen.trans hseen', rfl⟩
      | _ => cases hlabel

theorem jobs_of_asks {site : Site} {gated : Bool} {s s' : Sys W}
    (h : ReflTransGen (Step site gated Label.inAsk) s s') : s'.jobs = s.jobs := by
  obtain ⟨w, -, rfl⟩ := asks_eq h
  rfl

/-- A turn of `_reap_finished` reaps its job, or says that it has done nothing, and then the
job does not run or is still found alive. -/
theorem reapJob_turn {site : Site} {i : ℕ} {s s' : Sys W} {changed : Bool} (gated : Bool)
    (h : reapJob site i s = .ok changed s') :
    (changed = true ∧ Move site gated (.reap i) s s') ∨
      (changed = false ∧ ReflTransGen (Step site gated Label.inAsk) s s' ∧
        ∀ job, s.jobs[i]? = some job → job.status = .running → isAlive job s = .ok true s') := by
  obtain ⟨s₀, s₁, hget, h⟩ := bind_eq_ok.mp h
  cases hget
  cases hjob : s.jobs[i]? with
  | none =>
      simp only [hjob] at h
      cases h
      refine Or.inr ⟨rfl, .refl, fun job' hjob' => ?_⟩
      cases hjob'
  | some job =>
      simp only [hjob] at h
      split at h
      · rename_i hstatus
        cases h
        refine Or.inr ⟨rfl, .refl, fun job' hjob' hrunning => ?_⟩
        cases hjob'
        exact absurd hrunning hstatus
      · rename_i hstatus
        have hrunning : job.status = .running := not_not.mp hstatus
        obtain ⟨alive, s₁, halive, hrest⟩ := bind_eq_ok.mp h
        obtain ⟨w₁, hlater, rfl⟩ := (looking_isAlive job).of_ok halive
        cases alive with
        | true =>
            cases hrest
            refine Or.inr ⟨rfl, .single ⟨_, rfl, .probe hjob hrunning halive⟩, fun job' hjob' _ => ?_⟩
            cases hjob'
            exact halive
        | false =>
            obtain ⟨outcome, s₂, hreap, hrest⟩ := bind_eq_ok.mp hrest
            obtain ⟨rc, w', hint, w₂, -, -, -, rfl, -⟩ := reap_eq_ok hreap
            obtain ⟨⟨⟩, s₃, hset, hrest⟩ := bind_eq_ok.mp hrest
            cases hset
            obtain ⟨now, s₄, hcall, hrest⟩ := bind_eq_ok.mp hrest
            obtain ⟨w₃, htime, rfl⟩ := time_eq_ok hcall
            obtain ⟨⟨⟩, s₅, hset, hrest⟩ := bind_eq_ok.mp hrest
            cases hset
            simp only [List.modify_modify_eq] at hrest
            split at hrest
            · rename_i hoom
              obtain ⟨⟨⟩, s₆, harm, hrest⟩ := bind_eq_ok.mp hrest
              obtain ⟨now', w₄, htime', rfl⟩ := triggerOomCooldown_eq_ok harm
              cases hrest
              exact Or.inl ⟨rfl, .reap hjob hrunning halive hreap htime (.arm hoom htime')⟩
            · rename_i hplain
              cases hrest
              refine Or.inl ⟨rfl, .reap hjob hrunning halive hreap htime (.keep ?_)⟩
              tauto

theorem reapJob_obeys (site : Site) (gated : Bool) (i : ℕ) :
    Makes site gated Label.inReap (reapJob (W := W) site i) where
  returns {s changed s'} _ h := by
    rcases reapJob_turn gated h with ⟨-, hmove⟩ | ⟨-, hpath, -⟩
    · exact ⟨.single ⟨_, rfl, hmove⟩, trivial⟩
    · exact ⟨path_of_asks rfl hpath, trivial⟩
  raises {s e s'} _ h := by
    rcases bind_eq_error.mp h with h | ⟨s₀, s₁, hget, h⟩
    · cases h
    cases hget
    refine ⟨s, .refl, ?_⟩
    cases hjob : s.jobs[i]? with
    | none =>
        simp only [hjob] at h
        cases h
    | some job =>
        simp only [hjob] at h
        split at h
        · cases h
        rcases bind_eq_error.mp h with h | ⟨alive, s₁, halive, hrest⟩
        · obtain ⟨w₁, hlater, rfl⟩ := (looking_isAlive job).of_error h
          exact .lost rfl rfl hlater
        obtain ⟨w₁, hlater, rfl⟩ := (looking_isAlive job).of_ok halive
        cases alive with
        | true => cases hrest
        | false =>
            rcases bind_eq_error.mp hrest with h | ⟨outcome, s₂, hreap, hrest⟩
            · obtain ⟨procs, w₂, hlater', rfl⟩ := reap_eq_error h
              exact .lost rfl rfl (Seen.trans hlater hlater')
            obtain ⟨rc, w', hint, w₂, -, hbefore, hafter, rfl, -⟩ := reap_eq_ok hreap
            have hreaped : Seen s.world w₂ := Seen.trans hlater (hbefore.trans hafter.seen)
            rcases bind_eq_error.mp hrest with h | ⟨⟨⟩, s₃, hset, hrest⟩
            · cases h
            cases hset
            rcases bind_eq_error.mp hrest with h | ⟨now, s₄, hcall, hrest⟩
            · obtain ⟨w₃, hlater', rfl⟩ := time_eq_error h
              exact .lost rfl rfl (hreaped.trans hlater'.seen)
            obtain ⟨w₃, htime, rfl⟩ := time_eq_ok hcall
            rcases bind_eq_error.mp hrest with h | ⟨⟨⟩, s₅, hset, hrest⟩
            · cases h
            cases hset
            split at hrest
            · rcases bind_eq_error.mp hrest with h | ⟨⟨⟩, s₆, -, h⟩
              · obtain ⟨w₄, hlater', rfl⟩ := triggerOomCooldown_eq_error h
                exact .lost rfl rfl (hreaped.trans ((Later.of_ok rfl htime).trans hlater').seen)
              · cases h
            · cases hrest

theorem reapFinished_obeys (site : Site) (gated : Bool) :
    Makes site gated Label.inReap (reapFinished (W := W) site) :=
  .get_bind fun _ _ => (sweep_inv fun i _ => reapJob_obeys site gated i).weaken
    (fun _ _ => trivial) fun _ _ _ => trivial

/-- A turn of `_mark_dead_dependents` skips its job, or says that it has done nothing, and
then the job waits for no dead dependency. -/
theorem markJob_turn {site : Site} {i : ℕ} {s s' : Sys W} {changed : Bool} (gated : Bool)
    (h : markJob i s = .ok changed s') :
    (changed = true ∧ Move site gated (.skip i) s s') ∨
      (changed = false ∧ s' = s ∧ ∀ job, s.jobs[i]? = some job → job.status = .pending →
        blocker s.jobs job.dependsOn = none) := by
  obtain ⟨s₀, s₁, hget, h⟩ := bind_eq_ok.mp h
  cases hget
  cases hjob : s.jobs[i]? with
  | none =>
      simp only [hjob] at h
      cases h
      refine Or.inr ⟨rfl, rfl, fun job' hjob' => ?_⟩
      cases hjob'
  | some job =>
      simp only [hjob] at h
      split at h
      · rename_i hstatus
        cases h
        refine Or.inr ⟨rfl, rfl, fun job' hjob' hpending => ?_⟩
        cases hjob'
        exact absurd hpending hstatus
      · rename_i hstatus
        have hpending : job.status = .pending := not_not.mp hstatus
        cases hblocker : blocker s.jobs job.dependsOn with
        | none =>
            simp only [hblocker] at h
            cases h
            refine Or.inr ⟨rfl, rfl, fun job' hjob' _ => ?_⟩
            cases hjob'
            exact hblocker
        | some b =>
            simp only [hblocker] at h
            obtain ⟨⟨⟩, s₁, hset, hrest⟩ := bind_eq_ok.mp h
            cases hset
            obtain ⟨now, s₂, hcall, hrest⟩ := bind_eq_ok.mp hrest
            obtain ⟨w, htime, rfl⟩ := time_eq_ok hcall
            obtain ⟨⟨⟩, s₃, hset, hrest⟩ := bind_eq_ok.mp hrest
            cases hset
            cases hrest
            refine Or.inl ⟨rfl, ?_⟩
            simp only [List.modify_modify_eq]
            exact .skip hjob hpending hblocker htime

theorem markJob_obeys (site : Site) (gated : Bool) (i : ℕ) :
    Makes site gated Label.inSkip (markJob (W := W) i) where
  returns {s changed s'} _ h := by
    have hturn := @markJob_turn _ _ site i s s' changed gated h
    rcases hturn with ⟨-, hmove⟩ | ⟨-, rfl, -⟩
    · exact ⟨.single ⟨_, rfl, hmove⟩, trivial⟩
    · exact ⟨.refl, trivial⟩
  raises {s e s'} _ h := by
    rcases bind_eq_error.mp h with h | ⟨s₀, s₁, hget, h⟩
    · cases h
    cases hget
    refine ⟨s, .refl, ?_⟩
    cases hjob : s.jobs[i]? with
    | none =>
        simp only [hjob] at h
        cases h
    | some job =>
        simp only [hjob] at h
        split at h
        · cases h
        cases hblocker : blocker s.jobs job.dependsOn with
        | none =>
            simp only [hblocker] at h
            cases h
        | some b =>
            simp only [hblocker] at h
            rcases bind_eq_error.mp h with h | ⟨⟨⟩, s₁, hset, hrest⟩
            · cases h
            cases hset
            rcases bind_eq_error.mp hrest with h | ⟨now, s₂, -, hrest⟩
            · obtain ⟨w, hlater, rfl⟩ := time_eq_error h
              exact .lost rfl rfl hlater.seen
            · rcases bind_eq_error.mp hrest with h | ⟨⟨⟩, s₃, -, hrest⟩
              · cases h
              · cases hrest

theorem markPasses_obeys (site : Site) (gated : Bool) (fuel : ℕ) :
    Makes site gated Label.inSkip (markPasses (W := W) fuel) := by
  induction fuel with
  | zero => exact .pure fun _ _ => trivial
  | succ fuel ih =>
      refine .get_bind fun s₀ _ => .bind (R := fun _ _ => True) ?_ fun progressed => ?_
      · exact (sweep_inv fun i _ => markJob_obeys site gated i).weaken (fun _ _ => trivial)
          fun _ _ _ => trivial
      · cases progressed with
        | true => exact .bind ih fun _ => .pure fun _ _ => trivial
        | false => exact .pure fun _ _ => trivial

theorem markDeadDependents_obeys (site : Site) (gated : Bool) :
    Makes site gated Label.inSkip (markDeadDependents (W := W)) :=
  .get_bind fun _ _ => (markPasses_obeys site gated _).weaken (fun _ _ => trivial)
    fun _ _ _ => trivial

/-! ## Launching -/

/-- The job at an index is waiting. -/
def Sys.pendingAt (s : Sys W) (i : ℕ) : Prop :=
  ∃ job, s.jobs[i]? = some job ∧ job.status = .pending

/-- A launch of a chosen job: a launch, a failed one, or nothing if no block is free. -/
theorem launch_turn {site : Site} {gated : Bool} {i : ℕ} {job : Job} {s : Sys W} {w₀ : W}
    (hjob : s.jobs[i]? = some job) (hpending : job.status = .pending)
    (hdeps : gated = true → depsSatisfied s.jobs job = true)
    (hadmitted : gated = true → ∃ decision,
      canLaunch site.config job s.jobs s = .ok decision { s with world := w₀ } ∧
        decision.ok = true)
    (hlater : Later s.world w₀) :
    (∀ b s', launch site i { s with world := w₀ } = .ok b s' →
      (b = true ∧ (Move site gated (.launch i) s s' ∨ Move site gated (.fail i) s s')) ∨
        (b = false ∧ ReflTransGen (Step site gated Label.inAsk) s s')) ∧
    ∀ e s', launch site i { s with world := w₀ } = .error e s' →
      ∃ mid, ReflTransGen (Step site gated Label.inPass) s mid ∧ Wreck site gated mid s' := by
  have hchosen : ∀ {placement occupied} {w : W}, occupiedCores site s.jobs = .ok occupied →
      allocate job.cores occupied site.numaNodes (allocateOptions site job) =
        .ok (some placement) →
      Later w₀ w → Chosen site gated i job placement s w := by
    intro placement occupied w hoccupied hplaced hafter
    refine ⟨hjob, hpending, hdeps, fun hgate => ?_, ⟨occupied, hoccupied, hplaced⟩,
      hlater.trans hafter⟩
    obtain ⟨decision, hdecision, hok⟩ := hadmitted hgate
    exact ⟨decision, w₀, hdecision, hok, hafter⟩
  constructor
  · intro b s' h
    obtain ⟨s₁, s₂, hget, h⟩ := bind_eq_ok.mp h
    cases hget
    simp only [hjob] at h
    obtain ⟨occupied, s₃, hlift, h⟩ := bind_eq_ok.mp h
    obtain ⟨hoccupied, rfl⟩ := liftExcept_eq_ok.mp hlift
    obtain ⟨placement, s₄, hlift', h⟩ := bind_eq_ok.mp h
    obtain ⟨hplaced, rfl⟩ := liftExcept_eq_ok.mp hlift'
    cases placement with
    | none =>
        cases h
        exact Or.inr ⟨rfl, hlater.path rfl⟩
    | some placement =>
        obtain ⟨⟨⟩, s₅, hset, h⟩ := bind_eq_ok.mp h
        cases hset
        obtain ⟨argv, s₆, hbuild, h⟩ := bind_eq_ok.mp h
        obtain ⟨w₁, hlater', rfl⟩ := (quiet_buildCommand site _ placement).of_ok hbuild
        have hready := hchosen hoccupied hplaced hlater'
        obtain ⟨failure, s₇, htry, h⟩ := bind_eq_ok.mp h
        rcases tryExcept_eq_ok.mp htry with hbody | ⟨e, s₈, hraise, hcaught, hhandler⟩
        · -- the command runs
          obtain ⟨⟨⟩, s₈, hstart, hpure⟩ := bind_eq_ok.mp hbody
          cases hpure
          have hstarted := start_eq_ok hstart
          obtain ⟨⟨⟩, s₉, hset, h⟩ := bind_eq_ok.mp h
          cases hset
          obtain ⟨now, s₁₀, hcall, h⟩ := bind_eq_ok.mp h
          obtain ⟨w₂, htime, rfl⟩ := time_eq_ok hcall
          obtain ⟨⟨⟩, s₁₁, hset, h⟩ := bind_eq_ok.mp h
          cases hset
          cases h
          refine Or.inl ⟨rfl, Or.inl ?_⟩
          simp only [List.modify_modify_eq]
          exact .launch hready hstarted htime
        · -- the start raised, and the job is failed
          cases hhandler
          rcases bind_eq_error.mp hraise with hraise | ⟨⟨⟩, s₈, -, hpure⟩
          · rcases start_eq_error hraise with ⟨w₂, hunstarted, rfl⟩ | ⟨hdied, -⟩
            · obtain ⟨⟨⟩, s₉, hset, h⟩ := bind_eq_ok.mp h
              cases hset
              obtain ⟨now, s₁₀, hcall, h⟩ := bind_eq_ok.mp h
              obtain ⟨w₃, htime, rfl⟩ := time_eq_ok hcall
              obtain ⟨⟨⟩, s₁₁, hset, h⟩ := bind_eq_ok.mp h
              cases hset
              cases h
              refine Or.inl ⟨rfl, Or.inr ?_⟩
              simp only [List.modify_modify_eq]
              exact .fail hready hunstarted htime
            · rw [hdied] at hcaught
              cases hcaught
          · cases hpure
  · intro e s' h
    rcases bind_eq_error.mp h with h | ⟨s₁, s₂, hget, h⟩
    · cases h
    cases hget
    simp only [hjob] at h
    rcases bind_eq_error.mp h with h | ⟨occupied, s₃, hlift, h⟩
    · obtain ⟨-, rfl⟩ := liftExcept_eq_error.mp h
      exact ⟨s, .refl, .lost rfl rfl (Later.seen hlater)⟩
    obtain ⟨hoccupied, rfl⟩ := liftExcept_eq_ok.mp hlift
    rcases bind_eq_error.mp h with h | ⟨placement, s₄, hlift', h⟩
    · obtain ⟨-, rfl⟩ := liftExcept_eq_error.mp h
      exact ⟨s, .refl, .lost rfl rfl (Later.seen hlater)⟩
    obtain ⟨hplaced, rfl⟩ := liftExcept_eq_ok.mp hlift'
    cases placement with
    | none => cases h
    | some placement =>
        rcases bind_eq_error.mp h with h | ⟨⟨⟩, s₅, hset, h⟩
        · cases h
        cases hset
        rcases bind_eq_error.mp h with h | ⟨argv, s₆, hbuild, h⟩
        · obtain ⟨w₁, hlater', rfl⟩ := (quiet_buildCommand site _ placement).of_error h
          exact ⟨s, .refl, .lost rfl rfl (Later.seen (Later.trans hlater hlater'))⟩
        obtain ⟨w₁, hlater', rfl⟩ := (quiet_buildCommand site _ placement).of_ok hbuild
        have hready := hchosen hoccupied hplaced hlater'
        rcases bind_eq_error.mp h with h | ⟨failure, s₇, htry, h⟩
        · rcases tryExcept_eq_error.mp h with ⟨h, -⟩ | ⟨e₁, s₈, -, -, h⟩
          · rcases bind_eq_error.mp h with h | ⟨⟨⟩, s₈, -, h⟩
            · rcases start_eq_error h with ⟨w₂, hunstarted, rfl⟩ | ⟨-, hstarted⟩
              · exact ⟨s, .refl, .unstarted hready hunstarted rfl rfl (.refl _)⟩
              · refine ⟨s, .refl, .started hready hstarted ?_ rfl (.refl _)⟩
                cases hstarted <;> rfl
            · cases h
          · cases h
        rcases tryExcept_eq_ok.mp htry with hbody | ⟨e₁, s₈, hraise, hcaught, hhandler⟩
        · obtain ⟨⟨⟩, s₈, hstart, hpure⟩ := bind_eq_ok.mp hbody
          cases hpure
          have hstarted := start_eq_ok hstart
          rcases bind_eq_error.mp h with h | ⟨⟨⟩, s₉, hset, h⟩
          · cases h
          cases hset
          rcases bind_eq_error.mp h with h | ⟨now, s₁₀, -, h⟩
          · obtain ⟨w₂, hlater'', rfl⟩ := time_eq_error h
            refine ⟨s, .refl, .started hready hstarted ?_ rfl hlater''⟩
            cases hstarted <;> rfl
          · rcases bind_eq_error.mp h with h | ⟨⟨⟩, s₁₁, -, h⟩ <;> cases h
        · cases hhandler
          rcases bind_eq_error.mp hraise with hraise | ⟨⟨⟩, s₈, -, hpure⟩
          · rcases start_eq_error hraise with ⟨w₂, hunstarted, rfl⟩ | ⟨hdied, -⟩
            · rcases bind_eq_error.mp h with h | ⟨⟨⟩, s₉, hset, h⟩
              · cases h
              cases hset
              rcases bind_eq_error.mp h with h | ⟨now, s₁₀, -, h⟩
              · obtain ⟨w₃, hlater'', rfl⟩ := time_eq_error h
                exact ⟨s, .refl, .unstarted hready hunstarted rfl rfl hlater''⟩
              · rcases bind_eq_error.mp h with h | ⟨⟨⟩, s₁₁, -, h⟩ <;> cases h
            · rw [hdied] at hcaught
              cases hcaught
          · cases hpure

/-- The moves of a launch of one job. -/
theorem launched_path {site : Site} {gated : Bool} {i : ℕ} {s s' : Sys W} {b : Bool}
    (h : (b = true ∧ (Move site gated (.launch i) s s' ∨ Move site gated (.fail i) s s')) ∨
      (b = false ∧ ReflTransGen (Step site gated Label.inAsk) s s')) :
    ReflTransGen (Step site gated Label.inPass) s s' := by
  rcases h with ⟨-, hmove | hmove⟩ | ⟨-, hpath⟩
  · exact .single ⟨_, rfl, hmove⟩
  · exact .single ⟨_, rfl, hmove⟩
  · exact path_of_asks rfl hpath

theorem launch_obeys (site : Site) (i : ℕ) :
    Obeys (Step site false Label.inPass) (Wreck site false) (fun s => s.pendingAt i) (launch (W := W) site i)
      fun _ _ => True where
  returns {s a s'} hs h := by
    obtain ⟨job, hjob, hpending⟩ := hs
    have hturn := @launch_turn _ _ site false _ _ _ _ hjob hpending nofun nofun (.refl _)
    exact ⟨launched_path (hturn.1 a s' h), trivial⟩
  raises {s e s'} hs h := by
    obtain ⟨job, hjob, hpending⟩ := hs
    have hturn := @launch_turn _ _ site false _ _ _ _ hjob hpending nofun nofun (.refl _)
    exact hturn.2 e s' h

/-- A turn of `_launch_pending` starts its job or fails it, or says that it has done
nothing. -/
theorem launchCandidate_turn {site : Site} {i : ℕ} {s s' : Sys W} {changed : Bool}
    (hpending : s.pendingAt i) (h : launchCandidate site i s = .ok changed s') :
    (changed = true ∧ (Move site true (.launch i) s s' ∨ Move site true (.fail i) s s')) ∨
      (changed = false ∧ ReflTransGen (Step site true Label.inAsk) s s') := by
  obtain ⟨job, hjob, hpending⟩ := hpending
  obtain ⟨s₀, s₁, hget, h⟩ := bind_eq_ok.mp h
  cases hget
  simp only [hjob] at h
  split at h
  · rename_i hdeps
    obtain ⟨decision, s₁, hdecision, h⟩ := bind_eq_ok.mp h
    obtain ⟨w₀, hlater, rfl⟩ := (quiet_canLaunch _ _ _).of_ok hdecision
    split at h
    · rename_i hok
      have hturn := @launch_turn _ _ _ true _ _ _ _ hjob hpending (fun _ => hdeps)
        (fun _ => ⟨decision, hdecision, hok⟩) hlater
      exact hturn.1 changed s' h
    · cases h
      exact Or.inr ⟨rfl, Later.path rfl hlater⟩
  · cases h
    exact Or.inr ⟨rfl, .refl⟩

/-- A turn of `_launch_pending` leaves the other jobs as they were. -/
theorem others_of_launched {site : Site} {i j : ℕ} {s s' : Sys W} {b : Bool} (hne : j ≠ i)
    (h : (b = true ∧ (Move site true (.launch i) s s' ∨ Move site true (.fail i) s s')) ∨
      (b = false ∧ ReflTransGen (Step site true Label.inAsk) s s')) :
    s'.jobs[j]? = s.jobs[j]? := by
  rcases h with ⟨-, hmove | hmove⟩ | ⟨-, hpath⟩
  · cases hmove with
    | launch hchosen hstarted htime => cases hstarted <;> simp [placing, List.getElem?_modify_ne, hne.symm]
  · cases hmove with
    | fail hchosen hunstarted htime => simp [List.getElem?_modify_ne, hne.symm]
  · exact congrArg (·[j]?) (jobs_of_asks hpath)

theorem launchCandidate_obeys (site : Site) (i : ℕ) (rest : List ℕ) :
    Obeys (Step site true Label.inPass) (Wreck site true)
      (fun s => (∀ j ∈ i :: rest, s.pendingAt j) ∧ (i :: rest).Nodup)
      (launchCandidate (W := W) site i)
      fun _ s => (∀ j ∈ rest, s.pendingAt j) ∧ rest.Nodup where
  returns {s changed s'} hs h := by
    obtain ⟨hwaiting, hnodup⟩ := hs
    obtain ⟨hfresh, hrest⟩ := List.nodup_cons.mp hnodup
    have hturn := launchCandidate_turn (hwaiting i (List.mem_cons_self ..)) h
    refine ⟨launched_path hturn, fun j hj => ?_, hrest⟩
    obtain ⟨job, hjob, hpending⟩ := hwaiting j (List.mem_cons_of_mem _ hj)
    refine ⟨job, ?_, hpending⟩
    have hne : j ≠ i := fun heq => hfresh (heq ▸ hj)
    exact (others_of_launched hne hturn).trans hjob
  raises {s e s'} hs h := by
    obtain ⟨job, hjob, hpending⟩ := hs.1 i (List.mem_cons_self ..)
    rcases bind_eq_error.mp h with h | ⟨s₀, s₁, hget, h⟩
    · cases h
    cases hget
    simp only [hjob] at h
    split at h
    · rename_i hdeps
      rcases bind_eq_error.mp h with h | ⟨decision, s₁, hdecision, h⟩
      · obtain ⟨w₀, hlater, rfl⟩ := (quiet_canLaunch _ _ _).of_error h
        exact ⟨s, .refl, .lost rfl rfl (Later.seen hlater)⟩
      · obtain ⟨w₀, hlater, rfl⟩ := (quiet_canLaunch _ _ _).of_ok hdecision
        split at h
        · rename_i hok
          have hturn := @launch_turn _ _ _ true _ _ _ _ hjob hpending (fun _ => hdeps)
            (fun _ => ⟨decision, hdecision, hok⟩) hlater
          exact hturn.2 e s' h
        · cases h
    · cases h

/-! ## The order of a launch pass -/

/-- The candidates of a pass are waiting jobs, each listed once. -/
theorem mem_pendingOrder {jobs : List Job} {i : ℕ} :
    i ∈ pendingOrder jobs ↔ ∃ job, jobs[i]? = some job ∧ job.status = .pending := by
  simp only [pendingOrder, List.mem_map, List.mem_insertionSort, List.mem_filter, beq_iff_eq,
    Prod.exists, List.mk_mem_zipIdx_iff_getElem?]
  constructor
  · rintro ⟨job, j, ⟨hjob, hpending⟩, rfl⟩
    exact ⟨job, hjob, hpending⟩
  · rintro ⟨job, hjob, hpending⟩
    exact ⟨job, i, ⟨hjob, hpending⟩, rfl⟩

theorem nodup_pendingOrder (jobs : List Job) : (pendingOrder jobs).Nodup := by
  have hperm := List.perm_insertionSort
    (fun a b : Job × ℕ => a.1.priority < b.1.priority ∨
      (a.1.priority = b.1.priority ∧ a.1.id ≤ b.1.id))
    (jobs.zipIdx.filter fun entry => entry.1.status == .pending)
  refine ((hperm.map Prod.snd).nodup_iff).mpr ?_
  refine List.Nodup.sublist (List.filter_sublist.map Prod.snd) ?_
  rw [List.zipIdx_map_snd]
  exact List.nodup_range'

theorem launchPending_obeys (site : Site) :
    Makes site true Label.inPass (launchPending (W := W) site) := by
  refine .get_bind fun s₀ _ => ?_
  refine (sweep_of (I := fun rest s => (∀ j ∈ rest, s.pendingAt j) ∧ rest.Nodup)
    (launchCandidate_obeys site) _).weaken ?_ fun _ _ _ => trivial
  rintro s rfl
  exact ⟨fun j hj => mem_pendingOrder.mp hj, nodup_pendingOrder _⟩

/-! ## The loop -/

theorem tick_obeys (site : Site) :
    Makes site true Label.inTick (tick (W := W) site) := by
  refine .bind (obeys_kinds (reapFinished_obeys site true) inReap_inTick) fun reaped => ?_
  refine .bind (obeys_kinds (markDeadDependents_obeys site true) inSkip_inTick) fun marked => ?_
  refine .bind (quiet_enforcePins.obeys site true rfl fun _ _ _ => trivial) fun _ => ?_
  have hpass := obeys_kinds (launchPending_obeys (W := W) site) inPass_inTick
  exact .bind hpass fun launched => .pure fun _ _ => trivial

theorem saveState_obeys (site : Site) (gated : Bool) :
    Makes site gated Label.inSave (saveState (W := W)) := by
  have htime : Quiet (call .time : M W ℚ) := .call rfl
  have hwrite : Quiet (call .writeState : M W Unit) := .call rfl
  refine .bind (htime.obeys site gated rfl fun _ _ _ => trivial) fun now => ?_
  refine .bind (hwrite.obeys site gated rfl fun _ _ _ => trivial) fun _ => ?_
  exact .modify fun s _ => ⟨⟨_, rfl, .save⟩, trivial⟩

/-- A turn of `_reconcile_zombies` gives its job up, or says that it has done nothing. -/
theorem reconcileJob_turn {site : Site} {i : ℕ} {s s' : Sys W} {changed : Bool} (gated : Bool)
    (h : reconcileJob site i s = .ok changed s') :
    (changed = true ∧ Move site gated (.clear i) s s') ∨
      (changed = false ∧ s'.jobs = s.jobs ∧
        ReflTransGen (Step site gated Label.inReconcile) s s') := by
  obtain ⟨s₀, s₁, hget, h⟩ := bind_eq_ok.mp h
  cases hget
  cases hjob : s.jobs[i]? with
  | none =>
      simp only [hjob] at h
      cases h
      exact Or.inr ⟨rfl, rfl, .refl⟩
  | some job =>
      simp only [hjob] at h
      split at h
      · cases h
        exact Or.inr ⟨rfl, rfl, .refl⟩
      · rename_i hstatus
        have hrunning : job.status = .running := not_not.mp hstatus
        obtain ⟨proc, s₁, hproc, h⟩ := bind_eq_ok.mp h
        obtain ⟨w₁, hlater, rfl⟩ := (looking_isAlive job).of_ok hproc
        obtain ⟨scope, s₂, hscope, h⟩ := bind_eq_ok.mp h
        obtain ⟨w₂, hlater', rfl⟩ := (quiet_aliveScope site job).of_ok hscope
        split at h
        · rename_i hgone
          have hfalse : proc = false ∧ scope = false := by simpa using hgone
          rw [hfalse.1] at hproc
          rw [hfalse.2] at hscope
          obtain ⟨⟨⟩, s₃, hset, h⟩ := bind_eq_ok.mp h
          cases hset
          obtain ⟨now, s₄, hcall, h⟩ := bind_eq_ok.mp h
          obtain ⟨w₃, htime, rfl⟩ := time_eq_ok hcall
          obtain ⟨⟨⟩, s₅, hset, h⟩ := bind_eq_ok.mp h
          cases hset
          cases h
          refine Or.inl ⟨rfl, ?_⟩
          simp only [List.modify_modify_eq]
          exact .clear hjob hrunning hproc hscope htime
        · rename_i hkept
          cases h
          refine Or.inr ⟨rfl, rfl, ?_⟩
          cases proc with
          | true =>
              have hprobe : ReflTransGen (Step site gated Label.inReconcile) s { s with world := w₁ } :=
                .single ⟨_, rfl, .probe hjob hrunning hproc⟩
              exact hprobe.trans (Later.path (s := { s with world := w₁ }) rfl hlater')
          | false =>
              have hscope' : scope = true := by simpa using hkept
              rw [hscope'] at hscope
              exact .single ⟨_, rfl, .spare hjob hrunning hproc hscope⟩

theorem reconcileJob_obeys (site : Site) (gated : Bool) (i : ℕ) :
    Makes site gated Label.inReconcile (reconcileJob (W := W) site i) where
  returns {s changed s'} _ h := by
    rcases reconcileJob_turn gated h with ⟨-, hmove⟩ | ⟨-, -, hpath⟩
    · exact ⟨.single ⟨_, rfl, hmove⟩, trivial⟩
    · exact ⟨hpath, trivial⟩
  raises {s e s'} _ h := by
    rcases bind_eq_error.mp h with h | ⟨s₀, s₁, hget, h⟩
    · cases h
    cases hget
    refine ⟨s, .refl, ?_⟩
    cases hjob : s.jobs[i]? with
    | none =>
        simp only [hjob] at h
        cases h
    | some job =>
        simp only [hjob] at h
        split at h
        · cases h
        rcases bind_eq_error.mp h with h | ⟨proc, s₁, hproc, h⟩
        · obtain ⟨w₁, hlater, rfl⟩ := (looking_isAlive job).of_error h
          exact .lost rfl rfl hlater
        obtain ⟨w₁, hlater, rfl⟩ := (looking_isAlive job).of_ok hproc
        rcases bind_eq_error.mp h with h | ⟨scope, s₂, hscope, h⟩
        · obtain ⟨w₂, hlater', rfl⟩ := (quiet_aliveScope site job).of_error h
          exact .lost rfl rfl (Seen.trans hlater (Later.seen hlater'))
        obtain ⟨w₂, hlater', rfl⟩ := (quiet_aliveScope site job).of_ok hscope
        split at h
        · rcases bind_eq_error.mp h with h | ⟨⟨⟩, s₃, hset, h⟩
          · cases h
          cases hset
          rcases bind_eq_error.mp h with h | ⟨now, s₄, -, h⟩
          · obtain ⟨w₃, hlater'', rfl⟩ := time_eq_error h
            exact .lost rfl rfl (Seen.trans hlater (Later.seen (Later.trans hlater' hlater'')))
          · rcases bind_eq_error.mp h with h | ⟨⟨⟩, s₅, -, h⟩ <;> cases h
        · cases h

theorem reconcileZombies_obeys (site : Site) (gated : Bool) :
    Makes site gated Label.inStartUp (reconcileZombies (W := W) site) := by
  refine .get_bind fun s₀ _ => .bind (R := fun _ _ => True) ?_ fun cleared => ?_
  · refine (sweep_inv fun i _ => ?_).weaken (fun _ _ => trivial) fun _ _ _ => trivial
    exact obeys_kinds (reconcileJob_obeys site gated i) inReconcile_inStartUp
  · cases cleared with
    | true => exact obeys_kinds (saveState_obeys site gated) inSave_inStartUp
    | false => exact .pure fun _ _ => trivial

theorem round_obeys (site : Site) :
    Makes site true Label.inRound (round (W := W) site) := by
  refine .bind (obeys_kinds (tick_obeys site) inTick_inRound) fun changed => ?_
  cases changed with
  | true => exact obeys_kinds (saveState_obeys site true) inSave_inRound
  | false => exact .pure fun _ _ => trivial

/-- A round is a tick and perhaps a save, which leaves the jobs alone. -/
theorem round_eq_ok {site : Site} {s s' : Sys W} (h : round site s = .ok () s') :
    ∃ changed s₁, tick site s = .ok changed s₁ ∧
      ReflTransGen (Step site true Label.inSave) s₁ s' ∧ s'.jobs = s₁.jobs := by
  obtain ⟨changed, s₁, htick, hrest⟩ := bind_eq_ok.mp h
  refine ⟨changed, s₁, htick, ?_⟩
  cases changed with
  | false =>
      cases hrest
      exact ⟨.refl, rfl⟩
  | true =>
      refine ⟨((saveState_obeys site true).returns trivial hrest).1, ?_⟩
      obtain ⟨now, s₂, hcall, hrest⟩ := bind_eq_ok.mp hrest
      obtain ⟨w₂, -, rfl⟩ := call_eq_ok.mp hcall
      obtain ⟨⟨⟩, s₃, hcall, hrest⟩ := bind_eq_ok.mp hrest
      obtain ⟨w₃, -, rfl⟩ := call_eq_ok.mp hcall
      cases hrest
      rfl

theorem startUp_obeys (site : Site) :
    Makes site true Label.inStartUp (startUp (W := W) site) :=
  .bind ((quiet_setSelfOomScoreAdj _).obeys site true rfl fun _ _ _ => trivial) fun _ =>
    reconcileZombies_obeys site true

theorem runLoop_obeys (site : Site) (maxTicks : Option ℕ) (tick fuel : ℕ) :
    Makes site true Label.inRound (runLoop (W := W) site maxTicks tick fuel) := by
  induction fuel generalizing tick with
  | zero => exact .pure fun _ _ => trivial
  | succ fuel ih =>
      refine .bind (round_obeys site) fun _ => .get_bind fun s _ => ?_
      have hsleep : Quiet (call (.sleep site.config.pollInterval) : M W Unit) := .call rfl
      have hslept : Makes site true Label.inRound (call (.sleep site.config.pollInterval) : M W Unit) :=
        hsleep.obeys site true rfl fun _ _ _ => trivial
      split
      · exact .pure fun _ _ => trivial
      · split
        · exact .pure fun _ _ => trivial
        · exact .bind (hslept.weaken (fun _ _ => trivial) fun _ _ _ => trivial)
            fun _ => ih (tick + 1)

/-! ## Killing -/

theorem killTarget_eq_some {jobs : List Job} {jobId : String} {i : ℕ}
    (h : killTarget jobs jobId = some i) :
    ∃ job, jobs[i]? = some job ∧ job.id = jobId ∧ job.status = .running := by
  obtain ⟨hi, hjob, -⟩ := List.findIdx?_eq_some_iff_getElem.mp h
  simp only [Bool.and_eq_true, beq_iff_eq] at hjob
  exact ⟨jobs[i], List.getElem?_eq_getElem hi, hjob⟩

theorem kill_obeys (site : Site) (gated : Bool) (jobId : String) :
    Makes site gated Label.inKill (kill (W := W) jobId) := by
  refine .get_bind fun s₀ _ => ?_
  cases htarget : killTarget s₀.jobs jobId with
  | none => exact .pure fun _ _ => trivial
  | some i =>
      obtain ⟨job, hjob, -, hrunning⟩ := killTarget_eq_some htarget
      simp only [hjob]
      have hturn : Obeys (Step site gated Label.inKill) (Wreck site gated) (fun s => s = s₀)
          (killJob job >>= fun _ => markKilled i) fun _ _ => True := by
        constructor
        · intro s a s' hs h
          subst hs
          obtain ⟨⟨⟩, s₁, hkill, h⟩ := bind_eq_ok.mp h
          obtain ⟨procs, w₁, htended, rfl⟩ :=
            handled_of_path ((killJob_handled job).returns trivial hkill).1
          obtain ⟨⟨⟩, s₂, hset, h⟩ := bind_eq_ok.mp h
          cases hset
          obtain ⟨now, s₃, hcall, h⟩ := bind_eq_ok.mp h
          obtain ⟨w₂, htime, rfl⟩ := time_eq_ok hcall
          cases h
          simp only [List.modify_modify_eq]
          exact ⟨.single ⟨_, rfl, .kill hjob hrunning hkill htime⟩, trivial⟩
        · intro s e s' hs h
          subst hs
          rcases bind_eq_error.mp h with h | ⟨⟨⟩, s₁, hkill, h⟩
          · obtain ⟨mid, hpath, rfl⟩ := (killJob_handled job).raises trivial h
            obtain ⟨procs, w₁, htended, rfl⟩ := handled_of_path hpath
            exact ⟨s, .refl, .killed hjob hrunning rfl rfl htended⟩
          obtain ⟨procs, w₁, htended, rfl⟩ :=
            handled_of_path ((killJob_handled job).returns trivial hkill).1
          rcases bind_eq_error.mp h with h | ⟨⟨⟩, s₂, hset, h⟩
          · cases h
          cases hset
          rcases bind_eq_error.mp h with h | ⟨now, s₃, -, h⟩
          · obtain ⟨w₂, hlater, rfl⟩ := time_eq_error h
            exact ⟨s, .refl, .killed hjob hrunning rfl rfl (htended.trans hlater.seen.tended)⟩
          · cases h
      rw [show (killJob job >>= fun _ => markKilled i >>= fun _ => saveState >>= fun _ => pure true) =
        ((killJob job >>= fun _ => markKilled i) >>= fun _ => saveState >>= fun _ =>
          (pure true : M W Bool)) from by simp only [bind_assoc]]
      have hsave := obeys_kinds (saveState_obeys (W := W) site gated) inSave_inKill
      exact .bind hturn fun _ => .bind hsave fun _ => .pure fun _ _ => trivial

end Nodepilot
