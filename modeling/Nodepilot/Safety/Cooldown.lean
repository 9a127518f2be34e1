import Nodepilot.Machine.Trial
import Nodepilot.Steps.Runs

/-!
# The cooldown after an OOM kill

`cooldown_until` is one number, set again by every OOM kill, at a later instant than
the end time of the job it is set for; a launch reads the clock against it before
the start time is written.  What ties them together is kept in `Cooling`: the end
time of every OOM-killed job lies in the past and `c` seconds at most before the
deadline, and every start lies in the past.  So a start that passed the check comes
`c` seconds after every such end, and a job that ends later ends after it.

The clock is any clock of the host that does not go back.
-/

namespace Nodepilot

open Obeys Relation

variable {W : Type} [Host W]

/-! ## Clocks -/

/-- A clock that does not go back: no operation and no passing of time lowers it, and what is
read off it lies between its values before and after. -/
structure Clock (W : Type) [Host W] where
  reading : W → ℚ
  step : ∀ {α : Type} (c : Syscall α) (w : W), reading w ≤ reading (after c w)
  read : ∀ {w w' : W} {now : ℚ}, Host.answer .time w = .ok now w' →
    reading w ≤ now ∧ now ≤ reading w'

namespace Clock

variable (clock : Clock W)

theorem onward {w w' : W} (h : Onward w w') : clock.reading w ≤ clock.reading w' := by
  induction h with
  | refl => exact le_rfl
  | tail _ hlast ih =>
      obtain ⟨α, c, rfl⟩ := hlast
      exact ih.trans (clock.step c _)

end Clock

/-- A job is let pass only when the clock has reached the end of the cooldown. -/
theorem canLaunch_cool (clock : Clock W) {config : Config} {job : Job} {jobs : List Job}
    {s s' : Sys W} {decision : Decision} (h : canLaunch config job jobs s = .ok decision s')
    (hok : decision.ok = true) : s.cooldownUntil ≤ clock.reading s'.world := by
  obtain ⟨pause, s₁, hpause, h⟩ := bind_eq_ok.mp h
  obtain ⟨w₁, -, rfl⟩ := (quiet_paused config).of_ok hpause
  cases pause with
  | true =>
      cases h
      cases hok
  | false =>
      obtain ⟨remaining, s₂, hcooldown, h⟩ := bind_eq_ok.mp h
      obtain ⟨now, s₃, hcall, hrest⟩ := bind_eq_ok.mp hcooldown
      obtain ⟨w₂, htime, rfl⟩ := time_eq_ok hcall
      cases hrest
      split at h
      · cases h
        cases hok
      · rename_i hover
        have hpassed : s.cooldownUntil ≤ now := by
          by_contra hbefore
          exact hover (lt_max_of_lt_right (sub_pos.mpr (not_le.mp hbefore)))
        have hrest : ∃ w₃, Later w₂ w₃ ∧ s' = { s with world := w₃ } := by
          cases hcounts : checkCounts config job (running jobs) with
          | some rejection =>
              simp only [hcounts] at h
              cases h
              exact ⟨w₂, .refl _, rfl⟩
          | none =>
              simp only [hcounts] at h
              obtain ⟨ramDecision, s₃, hram, h⟩ := bind_eq_ok.mp h
              obtain ⟨w₃, hlater, rfl⟩ := (quiet_checkRam _ _ _).of_ok hram
              split at h
              · cases h
                exact ⟨w₃, hlater, rfl⟩
              · cases h
                exact ⟨w₃, hlater, rfl⟩
        obtain ⟨w₃, hlater, rfl⟩ := hrest
        calc s.cooldownUntil ≤ now := hpassed
          _ ≤ clock.reading w₂ := (clock.read htime).2
          _ ≤ clock.reading w₃ := clock.onward (Later.onward hlater)

/-! ## What a run has done -/

/-- The run that began in `s₀` has marked the job at an index as killed by the OOM killer. -/
structure OomKilled (s₀ s : Sys W) (i : ℕ) (a : Job) : Prop where
  found : s.jobs[i]? = some a
  failed : a.status = .failed
  reason : a.failureReason = "oom_killed"
  marked : ∀ a₀, s₀.jobs[i]? = some a₀ → a₀.status ≠ .failed

/-- The run that began in `s₀` has started the job at an index. -/
structure StartedIn (s₀ s : Sys W) (j : ℕ) (b : Job) : Prop where
  found : s.jobs[j]? = some b
  logged : ∃ new, s.starts = new ++ s₀.starts ∧ j ∈ new

/-- What holds of the deadline and the recorded times at any moment of a run. -/
structure Cooling (clock : Clock W) (c : ℚ) (s₀ s : Sys W) : Prop where
  grown : ∃ new, s.starts = new ++ s₀.starts
  ended : ∀ i a, OomKilled s₀ s i a →
    a.endTime ≤ clock.reading s.world ∧ a.endTime + c ≤ s.cooldownUntil
  begun : ∀ j b, StartedIn s₀ s j b → b.status ≠ .pending ∧ b.startTime ≤ clock.reading s.world
  apart : ∀ i a j b, OomKilled s₀ s i a → StartedIn s₀ s j b →
    b.startTime ≤ a.endTime ∨ a.endTime + c ≤ b.startTime

section

variable {clock : Clock W} {c : ℚ} {s₀ s s' : Sys W} {site : Site} {gated : Bool} {label : Label}

omit [Host W] in
theorem StartedIn.of_starts {j : ℕ} {b b' : Job} (h : StartedIn s₀ s' j b)
    (hstarts : s'.starts = s.starts) (hfound : s.jobs[j]? = some b') : StartedIn s₀ s j b' := by
  obtain ⟨new, hnew, hmem⟩ := h.logged
  exact ⟨hfound, new, by rw [← hstarts, hnew], hmem⟩

theorem Cooling.refl (s₀ : Sys W) : Cooling clock c s₀ s₀ := by
  have hnone : ∀ i a, ¬ OomKilled s₀ s₀ i a := fun i a h => h.marked a h.found h.failed
  have hnothing : ∀ j b, ¬ StartedIn s₀ s₀ j b := by
    intro j b h
    obtain ⟨new, hnew, hmem⟩ := h.logged
    rw [List.self_eq_append_left.mp hnew] at hmem
    exact List.not_mem_nil hmem
  exact ⟨⟨[], rfl⟩, fun i a h => absurd h (hnone i a), fun j b h => absurd h (hnothing j b),
    fun i a j b h => absurd h (hnone i a)⟩

/-- One step: kills and starts are old ones, or a kill is recorded now, or a start is that has
waited for the deadline. -/
theorem Cooling.step (h : Cooling clock c s₀ s) (hgrown : ∃ new, s'.starts = new ++ s.starts)
    (hclock : clock.reading s.world ≤ clock.reading s'.world)
    (hcool : ∀ i a, OomKilled s₀ s i a → a.endTime + c ≤ s'.cooldownUntil)
    (hended : ∀ i a, OomKilled s₀ s' i a → OomKilled s₀ s i a ∨
      (clock.reading s.world ≤ a.endTime ∧ a.endTime ≤ clock.reading s'.world ∧
        a.endTime + c ≤ s'.cooldownUntil))
    (hbegun : ∀ j b, StartedIn s₀ s' j b → b.status ≠ .pending ∧
      ((∃ b', StartedIn s₀ s j b' ∧ b.startTime = b'.startTime) ∨
        ((∀ i a, OomKilled s₀ s' i a → OomKilled s₀ s i a) ∧ s.cooldownUntil ≤ b.startTime ∧
          b.startTime ≤ clock.reading s'.world))) : Cooling clock c s₀ s' where
  grown := by
    obtain ⟨new, hnew⟩ := h.grown
    obtain ⟨newer, hnewer⟩ := hgrown
    exact ⟨newer ++ new, by rw [hnewer, hnew, List.append_assoc]⟩
  ended i a ha := by
    rcases hended i a ha with hold | ⟨-, hpast, hdeadline⟩
    · exact ⟨(h.ended i a hold).1.trans hclock, hcool i a hold⟩
    · exact ⟨hpast, hdeadline⟩
  begun j b hb := by
    obtain ⟨hstatus, ⟨b', hold, hstart⟩ | ⟨-, -, hpast⟩⟩ := hbegun j b hb
    · rw [hstart]
      exact ⟨hstatus, (h.begun j b' hold).2.trans hclock⟩
    · exact ⟨hstatus, hpast⟩
  apart i a j b ha hb := by
    rcases (hbegun j b hb).2 with ⟨b', hold, hstart⟩ | ⟨honly, hwaited, -⟩
    · rw [hstart]
      rcases hended i a ha with hkilled | ⟨hnow, -, -⟩
      · exact h.apart i a j b' hkilled hold
      · exact Or.inl ((h.begun j b' hold).2.trans hnow)
    · exact Or.inr ((h.ended i a (honly i a ha)).2.trans hwaited)

/-- Time passes. -/
theorem Cooling.later (h : Cooling clock c s₀ s) (hjobs : s'.jobs = s.jobs)
    (hcooldown : s'.cooldownUntil = s.cooldownUntil) (hstarts : s'.starts = s.starts)
    (hclock : clock.reading s.world ≤ clock.reading s'.world) : Cooling clock c s₀ s' := by
  refine h.step ⟨[], hstarts⟩ hclock (fun i a ha => ?_) (fun i a ha => Or.inl ?_) fun j b hb => ?_
  · rw [hcooldown]
    exact (h.ended i a ha).2
  · exact ⟨hjobs ▸ ha.found, ha.failed, ha.reason, ha.marked⟩
  · have hold : StartedIn s₀ s j b := hb.of_starts hstarts (hjobs ▸ hb.found)
    exact ⟨(h.begun j b hold).1, Or.inl ⟨b, hold, rfl⟩⟩

/-- The jobs started so far, when one job is rewritten that keeps its start time. -/
theorem Cooling.begun_of_modify {i j : ℕ} {job b : Job} {f : Job → Job} (h : Cooling clock c s₀ s)
    (hjob : s.jobs[i]? = some job) (hjobs : s'.jobs = s.jobs.modify i f)
    (hstarts : s'.starts = s.starts) (hstart : (f job).startTime = job.startTime)
    (hstatus : (f job).status ≠ .pending) (hb : StartedIn s₀ s' j b) :
    b.status ≠ .pending ∧ ∃ b', StartedIn s₀ s j b' ∧ b.startTime = b'.startTime := by
  have hfound := hb.found
  rw [hjobs] at hfound
  rcases getElem?_modify_cases hfound with ⟨-, hsame⟩ | ⟨old, rfl, hold, rfl⟩
  · have hb' := hb.of_starts hstarts hsame
    exact ⟨(h.begun j b hb').1, b, hb', rfl⟩
  · rw [hjob] at hold
    cases hold
    exact ⟨hstatus, job, hb.of_starts hstarts hjob, hstart⟩

/-- A job is rewritten without an OOM kill: it leaves its start time alone. -/
theorem Cooling.of_modify {i : ℕ} {job : Job} {f : Job → Job} (h : Cooling clock c s₀ s)
    (hjob : s.jobs[i]? = some job) (hjobs : s'.jobs = s.jobs.modify i f)
    (hcooldown : s'.cooldownUntil = s.cooldownUntil) (hstarts : s'.starts = s.starts)
    (hclock : clock.reading s.world ≤ clock.reading s'.world)
    (hplain : (f job).failureReason ≠ "oom_killed") (hstart : (f job).startTime = job.startTime)
    (hstatus : (f job).status ≠ .pending) : Cooling clock c s₀ s' := by
  refine h.step ⟨[], hstarts⟩ hclock (fun k a ha => ?_) (fun k a ha => Or.inl ?_) fun j b hb => ?_
  · rw [hcooldown]
    exact (h.ended k a ha).2
  · have hfound := ha.found
    rw [hjobs] at hfound
    rcases getElem?_modify_cases hfound with ⟨-, hsame⟩ | ⟨old, rfl, hold, rfl⟩
    · exact ⟨hsame, ha.failed, ha.reason, ha.marked⟩
    · rw [hjob] at hold
      cases hold
      exact absurd ha.reason hplain
  · obtain ⟨hnot, hold⟩ := h.begun_of_modify hjob hjobs hstarts hstart hstatus hb
    exact ⟨hnot, Or.inl hold⟩

/-- A job is reaped at an instant, and the cooldown set afterwards if it was killed. -/
theorem Cooling.reap {i : ℕ} {job : Job} {outcome : Outcome} {now : ℚ} (h : Cooling clock c s₀ s)
    (hjob : s.jobs[i]? = some job) (hjobs : s'.jobs = s.jobs.modify i (Job.finish outcome now))
    (hstarts : s'.starts = s.starts) (hbefore : clock.reading s.world ≤ now)
    (hafter : now ≤ clock.reading s'.world)
    (hkept : s.cooldownUntil = s'.cooldownUntil ∨ now + c ≤ s'.cooldownUntil)
    (harmed : outcome.status = .failed → outcome.reason = "oom_killed" → now + c ≤ s'.cooldownUntil)
    (hstatus : outcome.status ≠ .pending) : Cooling clock c s₀ s' := by
  refine h.step ⟨[], hstarts⟩ (hbefore.trans hafter) (fun k a ha => ?_) (fun k a ha => ?_)
    fun j b hb => ?_
  · -- a deadline set now lies after every one that an earlier kill has asked for
    obtain ⟨hpast, hdeadline⟩ := h.ended k a ha
    rcases hkept with hsame | hlater
    · rwa [← hsame]
    · calc a.endTime + c ≤ now + c := by
            have := hpast.trans hbefore
            linarith
        _ ≤ s'.cooldownUntil := hlater
  · have hfound := ha.found
    rw [hjobs] at hfound
    rcases getElem?_modify_cases hfound with ⟨-, hsame⟩ | ⟨old, rfl, hold, rfl⟩
    · exact Or.inl ⟨hsame, ha.failed, ha.reason, ha.marked⟩
    · exact Or.inr ⟨hbefore, hafter, harmed ha.failed ha.reason⟩
  · obtain ⟨hnot, hold⟩ := h.begun_of_modify hjob hjobs hstarts rfl hstatus hb
    exact ⟨hnot, Or.inl hold⟩

/-- A waiting job is started at an instant after the deadline. -/
theorem Cooling.launch {i : ℕ} {job : Job} {f : Job → Job} (h : Cooling clock c s₀ s)
    (hjob : s.jobs[i]? = some job) (hjobs : s'.jobs = s.jobs.modify i f)
    (hcooldown : s'.cooldownUntil = s.cooldownUntil) (hstarts : s'.starts = i :: s.starts)
    (hclock : clock.reading s.world ≤ clock.reading s'.world) (hrunning : (f job).status = .running)
    (hwaited : s.cooldownUntil ≤ (f job).startTime)
    (hstarted : (f job).startTime ≤ clock.reading s'.world) : Cooling clock c s₀ s' := by
  have hkilled : ∀ k a, OomKilled s₀ s' k a → OomKilled s₀ s k a := by
    intro k a ha
    have hfound := ha.found
    rw [hjobs] at hfound
    rcases getElem?_modify_cases hfound with ⟨-, hsame⟩ | ⟨old, rfl, hold, rfl⟩
    · exact ⟨hsame, ha.failed, ha.reason, ha.marked⟩
    · rw [hjob] at hold
      cases hold
      have hfailed := ha.failed
      rw [hrunning] at hfailed
      cases hfailed
  refine h.step ⟨[i], hstarts⟩ hclock (fun k a ha => ?_) (fun k a ha => Or.inl (hkilled k a ha))
    fun j b hb => ?_
  · rw [hcooldown]
    exact (h.ended k a ha).2
  · have hfound := hb.found
    rw [hjobs] at hfound
    rcases getElem?_modify_cases hfound with ⟨hne, hsame⟩ | ⟨old, rfl, hold, rfl⟩
    · -- another job: it is in the log of starts from before
      obtain ⟨new, hnew⟩ := h.grown
      obtain ⟨newer, hnewer, hmem⟩ := hb.logged
      have hsplit : newer = i :: new := by
        rw [hstarts, hnew, ← List.cons_append] at hnewer
        exact (List.append_cancel_right hnewer).symm
      rw [hsplit] at hmem
      have hlogged : j ∈ new := (List.mem_cons.mp hmem).resolve_left hne
      have hold : StartedIn s₀ s j b := ⟨hsame, new, hnew, hlogged⟩
      exact ⟨(h.begun j b hold).1, Or.inl ⟨b, hold, rfl⟩⟩
    · rw [hjob] at hold
      cases hold
      rw [hrunning]
      exact ⟨nofun, Or.inr ⟨hkilled, hwaited, hstarted⟩⟩

/-! ## Moves -/

theorem launchError_ne (message : String) : "launch_error: " ++ message ≠ "oom_killed" := by
  intro heq
  have hhead := congrArg (fun text => text.toList.head?) heq
  simp at hhead

theorem dependencyFailed_ne (blocker : String) :
    "dependency_failed: " ++ blocker ≠ "oom_killed" := by
  intro heq
  have hhead := congrArg (fun text => text.toList.head?) heq
  simp at hhead

/-- What a launch leaves in the state, as far as the cooldown is concerned. -/
theorem Started.cooldown {i : ℕ} {job : Job} {argv : List String}
    (h : Started site i job argv s s') : s'.cooldownUntil = s.cooldownUntil := by
  cases h <;> rfl

theorem Move.cooling (hmove : Move site true label s s')
    (h : Cooling clock site.config.oomCooldownSeconds s₀ s) :
    Cooling clock site.config.oomCooldownSeconds s₀ s' := by
  have honward : clock.reading s.world ≤ clock.reading s'.world := clock.onward hmove.onward
  cases hmove with
  | ask hask => exact h.later rfl rfl rfl honward
  | probe hjob hrunning halive => exact h.later rfl rfl rfl honward
  | spare hjob hrunning hdead hscope => exact h.later rfl rfl rfl honward
  | save => exact h.later rfl rfl rfl honward
  | @reap _ i job outcome w₁ w₂ w₃ w₄ now cooldown hjob hrunning hdead hreap htime hcooled =>
      have hasked : Onward s.world w₂ := by
        obtain ⟨v₁, hseen, heq⟩ := (looking_isAlive job).of_ok hdead
        cases heq
        obtain ⟨rc, v₂, hint, v₃, -, hseen', hlater, heq, -⟩ := reap_eq_ok hreap
        cases heq
        exact ((Seen.onward hseen).trans (Seen.onward hseen')).trans (Later.onward hlater)
      obtain ⟨hread, hread'⟩ := clock.read htime
      have hend : outcome.status = .done ∨ outcome.status = .failed := by
        obtain ⟨rc, v₂, hint, v₃, -, -, -, -, hclassify, -⟩ := reap_eq_ok hreap
        rw [hclassify]
        exact classify_status rc hint
      refine h.reap hjob rfl rfl ((clock.onward hasked).trans hread)
        (hread'.trans (clock.onward hcooled.onward)) ?_ ?_ ?_
      · cases hcooled with
        | keep hplain => exact Or.inl rfl
        | arm hoom htime' =>
            have hset := hread'.trans (clock.read htime').1
            exact Or.inr (by simpa using hset)
      · intro hfailed hreason
        cases hcooled with
        | keep hplain =>
            rcases hplain with hdone | hother
            · rw [hfailed] at hdone
              cases hdone
            · exact absurd hreason hother
        | arm hoom htime' =>
            have hset := hread'.trans (clock.read htime').1
            simpa using hset
      · rcases hend with hend | hend <;> rw [hend] <;> decide
  | skip hjob hpending hblocker htime =>
      exact h.of_modify hjob rfl rfl rfl honward (dependencyFailed_ne _) rfl nofun
  | @launch _ s₁ i job placement argv w w₂ now hchosen hstarted htime =>
      obtain ⟨decision, w₁, hdecision, hok, hlater⟩ := hchosen.admitted rfl
      have hwaited : s.cooldownUntil ≤ now := by
        calc s.cooldownUntil ≤ clock.reading w₁ := canLaunch_cool clock hdecision hok
          _ ≤ clock.reading w := clock.onward (Later.onward hlater)
          _ ≤ clock.reading s₁.world := clock.onward hstarted.onward
          _ ≤ now := (clock.read htime).1
      obtain ⟨session, hjobs⟩ := hstarted.launched
      exact h.launch (f := Job.launch placement session now) hchosen.found (hjobs now)
        hstarted.cooldown hstarted.starts_eq.1 honward rfl hwaited (clock.read htime).2
  | fail hchosen hunstarted htime =>
      exact h.of_modify hchosen.found rfl rfl rfl honward (launchError_ne _) rfl nofun
  | kill hjob hrunning hkill htime =>
      exact h.of_modify hjob rfl rfl rfl honward (by simp [Job.fail]) rfl nofun
  | clear hjob hrunning hdead hscope htime =>
      exact h.of_modify hjob rfl rfl rfl honward (by simp [Job.clear]) rfl nofun

end

/-! ## Runs -/

/-- One step of an orchestrator process: time passes on the host, or an operation of the loop
runs to its end. -/
inductive Proceeds (site : Site) (clock : Clock W) : Sys W → Sys W → Prop
  | world {s : Sys W} (w : W) (hclock : clock.reading s.world ≤ clock.reading w) :
      Proceeds site clock s { s with world := w }
  | op {s s' : Sys W} (op : Op) (hallowed : op.allowed true s)
      (hop : op.program site s = .ok () s') : Proceeds site clock s s'

theorem Cooling.of_run {site : Site} {clock : Clock W} {s₀ s : Sys W}
    (hrun : ReflTransGen (Proceeds site clock) s₀ s) :
    Cooling clock site.config.oomCooldownSeconds s₀ s := by
  induction hrun with
  | refl => exact .refl s₀
  | tail _ hlast ih =>
      cases hlast with
      | world w hclock => exact ih.later rfl rfl rfl hclock
      | op op hallowed hop =>
          refine invariant_of_path (fun v v' hstep hv => ?_)
            ((op.obeys site true).returns hallowed hop).1 ih
          obtain ⟨label, -, hmove⟩ := hstep
          exact hmove.cooling hv

/-- In every run of one process every job it has started began before a job it has marked
killed by the OOM killer ended, or a whole cooldown after that. -/
theorem oom_cooldown (site : Site) (clock : Clock W) (s₀ s : Sys W)
    (hrun : ReflTransGen (Proceeds site clock) s₀ s) (i j : ℕ) (a b : Job)
    (ha : OomKilled s₀ s i a) (hb : StartedIn s₀ s j b) :
    b.startTime ≤ a.endTime ∨ a.endTime + site.config.oomCooldownSeconds ≤ b.startTime :=
  (Cooling.of_run hrun).apart i a j b ha hb

/-! ## The clock of the machine -/

theorem clock_events (events : List Event) (w : World) :
    w.clock ≤ (events.foldl Event.apply w).clock := by
  have hevent : ∀ (event : Event) (v : World), v.clock ≤ (event.apply v).clock := by
    intro event v
    cases event with
    | elapse d => exact le_add_of_nonneg_right (le_max_left 0 d)
    | arrive other =>
        simp only [Event.apply]
        split <;> exact le_rfl
    | _ => exact le_rfl
  induction events generalizing w with
  | nil => exact le_rfl
  | cons event rest ih => exact (hevent event w).trans (ih _)

theorem clock_advance (w : World) : w.clock ≤ w.advance.clock := by
  unfold World.advance
  split
  · exact le_rfl
  · exact clock_events _ _

/-- The clock of the machine. -/
def wallClock : Clock World where
  reading w := w.clock
  step c w := by
    cases hanswer : Host.answer c w with
    | ok a w' =>
        rw [after_of_ok hanswer]
        exact (clock_advance w).trans (World.effect_keeps (answer_ok hanswer)).2.2.2
    | error e w' =>
        rw [after_of_error hanswer, answer_error hanswer]
        exact clock_advance w
  read {w w' now} h := by
    have hnow : w.advance.effect .time = .ok now w' := answer_ok h
    cases hnow
    exact ⟨clock_advance w, le_rfl⟩

/-- A job that wants to be alone, and one that waits for it to end. -/
def oomJobs : List Job :=
  [{ id := "a", command := "true", cores := 4, exclusive := true },
   { id := "b", command := "true", cores := 4 }]

/-- A host whose kernel log can be read. -/
def oomWorld : World :=
  { programs := ["journalctl"] }

/-- The first of two jobs ends by an OOM kill, and the second starts five minutes later. -/
def cooledPair : List Job → Bool
  | [a, b] => a.status == .failed && a.failureReason == "oom_killed" && a.endTime == 10 &&
      b.startTime == 310
  | _ => false

theorem cooledPair_eq_true {jobs : List Job} (h : cooledPair jobs = true) : ∃ a b : Job,
    jobs = [a, b] ∧ a.status = .failed ∧ a.failureReason = "oom_killed" ∧ a.endTime = 10 ∧
      b.startTime = 310 := by
  unfold cooledPair at h
  split at h
  · rename_i a b
    simp only [Bool.and_eq_true, beq_iff_eq] at h
    obtain ⟨⟨⟨hfailed, hreason⟩, hend⟩, hstart⟩ := h
    exact ⟨a, b, rfl, hfailed, hreason, hend, hstart⟩
  · cases h

/-- The first of two jobs is killed by the OOM killer, and the other starts when the cooldown
is over. -/
theorem oom_cooldown_pair : ∃ s₀ s : Sys World, ∃ a b : Job, OomKilled s₀ s 0 a ∧
    StartedIn s₀ s 1 b ∧ a.endTime = 10 ∧ b.startTime = 310 ∧
    (b.startTime ≤ a.endTime ∨ a.endTime + 300 ≤ b.startTime) := by
  have hends : returns ((do
      let _ ← tick (smallSite oomJobs)
      happens [.exit 0 (-9), .elapse 10, .journal "Out of memory: Killed process 1"]
      let _ ← tick (smallSite oomJobs)
      happens [.elapse 300]
      tick (smallSite oomJobs)) (fresh (smallSite oomJobs) oomWorld)) (fun s =>
        s.starts == [1, 0] && cooledPair s.jobs) = true := by
    decide +kernel
  obtain ⟨changed, s, hrun, hhoped⟩ := of_returns hends
  obtain ⟨changed₁, s₁, htick₁, hrun⟩ := bind_eq_ok.mp hrun
  obtain ⟨⟨⟩, s₂, hhappens₁, hrun⟩ := bind_eq_ok.mp hrun
  obtain ⟨changed₂, s₃, htick₂, hrun⟩ := bind_eq_ok.mp hrun
  obtain ⟨⟨⟩, s₄, hhappens₂, htick₃⟩ := bind_eq_ok.mp hrun
  cases hhappens₁
  cases hhappens₂
  have hop : ∀ {s s' : Sys World} {changed : Bool}, tick (smallSite oomJobs) s = .ok changed s' →
      Proceeds (smallSite oomJobs) wallClock s s' := fun h =>
    .op .tick trivial (bind_eq_ok.mpr ⟨_, _, h, rfl⟩)
  have hpath : ReflTransGen (Proceeds (smallSite oomJobs) wallClock)
      (fresh (smallSite oomJobs) oomWorld) s :=
    ((((ReflTransGen.single (hop htick₁)).tail (.world _ (clock_events _ _))).tail
      (hop htick₂)).tail (.world _ (clock_events _ _))).tail (hop htick₃)
  obtain ⟨hstarts, hjobs⟩ := Bool.and_eq_true_iff.mp hhoped
  rw [beq_iff_eq] at hstarts
  obtain ⟨a, b, hlist, hfailed, hreason, hend, hstart⟩ := cooledPair_eq_true hjobs
  have ha : OomKilled (fresh (smallSite oomJobs) oomWorld) s 0 a := by
    refine ⟨by rw [hlist]; rfl, hfailed, hreason, fun a₀ ha₀ => ?_⟩
    cases ha₀
    decide
  have hb : StartedIn (fresh (smallSite oomJobs) oomWorld) s 1 b :=
    ⟨by rw [hlist]; rfl, [1, 0], by rw [hstarts]; rfl, by simp⟩
  exact ⟨_, s, a, b, ha, hb, hend, hstart,
    oom_cooldown (smallSite oomJobs) wallClock _ s hpath 0 1 a b ha hb⟩

end Nodepilot
