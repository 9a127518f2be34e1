import Nodepilot.Machine.World
import Nodepilot.Steps.Quiet

/-!
# What time does to the host

Whatever happens between two operations, and whatever a harmless operation does,
the table of processes only ages: a process keeps what it is, an ended one stays
ended, one that was waited for stays so, and nothing is started (`Aged`).  The
table stays well formed (`WellFormed`): of the processes not yet waited for no two
share a pid, nor does one with a process of somebody else.
-/

namespace Nodepilot

open Relation

/-- `q` is what has become of `p`. -/
structure Ages (p q : Proc) : Prop where
  track : q.track = p.track
  job : q.job = p.job
  child : q.child = p.child
  exit : ∀ rc, p.exit = some rc → q.exit = some rc
  collected : p.collected = true → q.collected = true
  waited : q.collected = true → p.collected = true ∨ q.exit ≠ none

theorem Ages.refl (p : Proc) : Ages p p :=
  ⟨rfl, rfl, rfl, fun _ h => h, fun h => h, .inl⟩

theorem Ages.trans {p q r : Proc} (h : Ages p q) (h' : Ages q r) : Ages p r where
  track := h'.track.trans h.track
  job := h'.job.trans h.job
  child := h'.child.trans h.child
  exit rc hrc := h'.exit rc (h.exit rc hrc)
  collected hc := h'.collected (h.collected hc)
  waited hc := by
    rcases h'.waited hc with hq | hr
    · rcases h.waited hq with hp | hexit
      · exact .inl hp
      · obtain ⟨rc, hrc⟩ := Option.ne_none_iff_exists'.mp hexit
        exact .inr (by rw [h'.exit rc hrc]; exact Option.some_ne_none rc)
    · exact .inr hr

theorem Ages.alive {p q : Proc} (h : Ages p q) (hq : q.exit = none) : p.exit = none := by
  by_contra hne
  obtain ⟨rc, hrc⟩ := Option.ne_none_iff_exists'.mp hne
  rw [h.exit rc hrc] at hq
  cases hq

theorem Ages.uncollected {p q : Proc} (h : Ages p q) (hq : q.collected = false) :
    p.collected = false := by
  by_contra hne
  rw [h.collected (by simpa using hne)] at hq
  cases hq

/-- `q` is what has become of `p` with nobody ending it on purpose; if it is `spared` its
parent, the orchestrator, has not waited for it. -/
structure AgesAlone (spared : Prop) (p q : Proc) : Prop extends Ages p q where
  removedBy : q.removedBy = p.removedBy
  kept : spared → p.child = true → q.collected = p.collected

theorem AgesAlone.refl (spared : Prop) (p : Proc) : AgesAlone spared p p :=
  ⟨.refl p, rfl, fun _ _ => rfl⟩

theorem AgesAlone.trans {spared : Prop} {p q r : Proc} (h : AgesAlone spared p q)
    (h' : AgesAlone spared q r) : AgesAlone spared p r :=
  ⟨h.toAges.trans h'.toAges, h'.removedBy.trans h.removedBy, fun hspared hchild =>
    (h'.kept hspared (h.child.trans hchild)).trans (h.kept hspared hchild)⟩

/-- `w'` is what has become of `w`, nothing having been started or removed on purpose.  Of
the children of the orchestrator only those in `waited` may have been waited for. -/
structure Aged (waited : Set ℕ) (w w' : World) : Prop where
  length : w'.procs.length = w.procs.length
  procs : ∀ (k : ℕ) (p : Proc), w.procs[k]? = some p →
    ∃ q, w'.procs[k]? = some q ∧ AgesAlone (k ∉ waited) p q
  launches : w'.launches = w.launches
  programs : w'.programs = w.programs

namespace Aged

variable {waited : Set ℕ} {w w' w'' : World}

theorem refl (waited : Set ℕ) (w : World) : Aged waited w w :=
  ⟨rfl, fun _ p h => ⟨p, h, .refl _ p⟩, rfl, rfl⟩

theorem trans (h : Aged waited w w') (h' : Aged waited w' w'') : Aged waited w w'' where
  length := h'.length.trans h.length
  procs k p hp := by
    obtain ⟨q, hq, hages⟩ := h.procs k p hp
    obtain ⟨r, hr, hages'⟩ := h'.procs k q hq
    exact ⟨r, hr, hages.trans hages'⟩
  launches := h'.launches.trans h.launches
  programs := h'.programs.trans h.programs

theorem mono {waited' : Set ℕ} (h : Aged waited w w') (hsub : waited ⊆ waited') :
    Aged waited' w w' where
  length := h.length
  procs k p hp := by
    obtain ⟨q, hq, hages⟩ := h.procs k p hp
    exact ⟨q, hq, hages.toAges, hages.removedBy, fun hk => hages.kept fun hmem => hk (hsub hmem)⟩
  launches := h.launches
  programs := h.programs

/-- Where a process comes from. -/
theorem back (h : Aged waited w w') {k : ℕ} {q : Proc} (hq : w'.procs[k]? = some q) :
    ∃ p, w.procs[k]? = some p ∧ AgesAlone (k ∉ waited) p q := by
  have hk : k < w.procs.length := by
    rw [← h.length]
    exact (List.getElem?_eq_some_iff.mp hq).1
  obtain ⟨q', hq', hages⟩ := h.procs k w.procs[k] (List.getElem?_eq_getElem hk)
  rw [hq] at hq'
  cases hq'
  exact ⟨_, List.getElem?_eq_getElem hk, hages⟩

theorem of_procs_eq (hprocs : w'.procs = w.procs) (hlaunches : w'.launches = w.launches)
    (hprograms : w'.programs = w.programs) : Aged waited w w' := by
  refine ⟨by rw [hprocs], fun k p hp => ⟨p, by rw [hprocs, hp], .refl _ p⟩, ?_, ?_⟩
  · exact hlaunches
  · exact hprograms

/-- One process is rewritten. -/
theorem of_modify {i : ℕ} {f : Proc → Proc} (hprocs : w'.procs = w.procs.modify i f)
    (hlaunches : w'.launches = w.launches) (hprograms : w'.programs = w.programs)
    (hf : ∀ p, w.procs[i]? = some p → AgesAlone (i ∉ waited) p (f p)) : Aged waited w w' where
  length := by rw [hprocs, List.length_modify]
  procs k p hp := by
    rw [hprocs, List.getElem?_modify, hp]
    by_cases hik : i = k
    · subst hik
      exact ⟨f p, by simp, hf p hp⟩
    · exact ⟨p, by simp [hik], .refl _ p⟩
  launches := hlaunches
  programs := hprograms

end Aged

/-! ## A well-formed table -/

structure WellFormed (w : World) : Prop where
  pids : ∀ (j k : ℕ) (p q : Proc) (n : ℕ), w.procs[j]? = some p → w.procs[k]? = some q →
    p.track = .pid n → q.track = .pid n → p.collected = false → q.collected = false → j = k
  others : ∀ p ∈ w.procs, ∀ n, p.track = .pid n → p.collected = false → ∀ o ∈ w.others, o.pid ≠ n
  names : ∀ (j k : ℕ) (p q : Proc) (name : String), w.procs[j]? = some p → w.procs[k]? = some q →
    p.track = .session name → q.track = .session name → p.exit = none → q.exit = none → j = k
  waited : ∀ p ∈ w.procs, p.collected = true → p.exit ≠ none

theorem WellFormed.of_empty {w : World} (h : w.procs = []) : WellFormed w := by
  refine ⟨?_, ?_, ?_, ?_⟩ <;> simp [h]

theorem hasPid_iff {p : Proc} {n : ℕ} :
    World.hasPid n p = true ↔ p.collected = false ∧ p.track = .pid n := by
  unfold World.hasPid
  cases hcollected : p.collected <;> cases htrack : p.track <;> simp

theorem pidInUse_of_proc {w : World} {p : Proc} {n : ℕ} (hmem : p ∈ w.procs)
    (htrack : p.track = .pid n) (hcollected : p.collected = false) : w.pidInUse n = true := by
  rw [World.pidInUse, Bool.or_eq_true]
  left
  exact List.any_eq_true.mpr ⟨p, hmem, hasPid_iff.mpr ⟨hcollected, htrack⟩⟩

theorem pidInUse_of_other {w : World} {o : Other} (hmem : o ∈ w.others) :
    w.pidInUse o.pid = true := by
  rw [World.pidInUse, Bool.or_eq_true]
  right
  exact List.any_eq_true.mpr ⟨o, hmem, beq_self_eq_true _⟩

/-- A table whose processes have only grown older is well formed, if processes of others have
taken free pids only. -/
theorem WellFormed.of_ages {w w' : World} (h : WellFormed w)
    (hback : ∀ (k : ℕ) (q : Proc), w'.procs[k]? = some q → ∃ p, w.procs[k]? = some p ∧ Ages p q)
    (hothers : ∀ o ∈ w'.others, o ∈ w.others ∨ w.pidInUse o.pid = false) : WellFormed w' where
  pids j k p' q' n hp' hq' hpn hqn hpc hqc := by
    obtain ⟨p, hp, hpages⟩ := hback j p' hp'
    obtain ⟨q, hq, hqages⟩ := hback k q' hq'
    exact h.pids j k p q n hp hq (hpages.track.symm.trans hpn) (hqages.track.symm.trans hqn)
      (hpages.uncollected hpc) (hqages.uncollected hqc)
  others p' hmem n hpn hpc o ho := by
    obtain ⟨k, hk⟩ := List.mem_iff_getElem?.mp hmem
    obtain ⟨p, hp, hages⟩ := hback k p' hk
    have hpn' : p.track = .pid n := hages.track.symm.trans hpn
    have hpc' := hages.uncollected hpc
    rcases hothers o ho with ho | hfree
    · exact h.others p (List.mem_of_getElem? hp) n hpn' hpc' o ho
    · rintro rfl
      rw [pidInUse_of_proc (List.mem_of_getElem? hp) hpn' hpc'] at hfree
      cases hfree
  names j k p' q' name hp' hq' hpn hqn hpe hqe := by
    obtain ⟨p, hp, hpages⟩ := hback j p' hp'
    obtain ⟨q, hq, hqages⟩ := hback k q' hq'
    exact h.names j k p q name hp hq (hpages.track.symm.trans hpn) (hqages.track.symm.trans hqn)
      (hpages.alive hpe) (hqages.alive hqe)
  waited q hmem hcollected := by
    obtain ⟨k, hk⟩ := List.mem_iff_getElem?.mp hmem
    obtain ⟨p, hp, hages⟩ := hback k q hk
    rcases hages.waited hcollected with hpc | hexit
    · obtain ⟨rc, hrc⟩ := Option.ne_none_iff_exists'.mp
        (h.waited p (List.mem_of_getElem? hp) hpc)
      rw [hages.exit rc hrc]
      exact Option.some_ne_none rc
    · exact hexit

theorem WellFormed.aged {waited : Set ℕ} {w w' : World} (h : WellFormed w)
    (haged : Aged waited w w') (hothers : ∀ o ∈ w'.others, o ∈ w.others ∨ w.pidInUse o.pid = false) :
    WellFormed w' := by
  refine h.of_ages (fun k q hq => ?_) hothers
  obtain ⟨p, hp, hages⟩ := haged.back hq
  exact ⟨p, hp, hages.toAges⟩

/-! ## Events -/

theorem Event.aged (waited : Set ℕ) (w : World) (event : Event) : Aged waited w (event.apply w) := by
  cases event with
  | exit k rc =>
      refine Aged.of_modify rfl rfl rfl fun p _ => ?_
      split
      · rename_i halive
        refine ⟨⟨rfl, rfl, rfl, fun rc' h => ?_, fun h => h, .inl⟩, rfl, fun _ _ => rfl⟩
        rw [halive] at h
        cases h
      · exact .refl _ p
  | collect k =>
      refine Aged.of_modify rfl rfl rfl fun p _ => ?_
      split
      · rename_i horphan
        refine ⟨⟨rfl, rfl, rfl, fun _ h => h, fun _ => rfl, fun _ => .inr horphan.1⟩, rfl, ?_⟩
        intro _ hchild
        rw [horphan.2] at hchild
        cases hchild
      · exact .refl _ p
  | rename k comm =>
      refine Aged.of_modify rfl rfl rfl fun p _ => ?_
      exact ⟨⟨rfl, rfl, rfl, fun _ h => h, fun h => h, .inl⟩, rfl, fun _ _ => rfl⟩
  | arrive other =>
      simp only [Event.apply]
      split
      · exact .refl waited w
      · exact .of_procs_eq rfl rfl rfl
  | _ => exact .of_procs_eq rfl rfl rfl

theorem Event.aged_foldl (waited : Set ℕ) (w : World) (events : List Event) :
    Aged waited w (events.foldl Event.apply w) := by
  induction events generalizing w with
  | nil => exact .refl waited w
  | cons event events ih => exact (Event.aged waited w event).trans (ih _)

theorem Event.others (w : World) (event : Event) :
    ∀ o ∈ (event.apply w).others, o ∈ w.others ∨ w.pidInUse o.pid = false := by
  intro o ho
  cases event with
  | arrive other =>
      simp only [Event.apply] at ho
      split at ho
      · exact .inl ho
      · rename_i hfree
        rcases List.mem_append.mp ho with ho | ho
        · exact .inl ho
        · rw [List.mem_singleton.mp ho]
          exact .inr (by simpa using hfree)
  | leave pid => exact .inl (List.mem_filter.mp ho).1
  | _ => exact .inl ho

theorem Event.wellFormed_foldl {w : World} (h : WellFormed w) (events : List Event) :
    WellFormed (events.foldl Event.apply w) := by
  induction events generalizing w with
  | nil => exact h
  | cons event events ih => exact ih (h.aged (Event.aged ∅ w event) (Event.others w event))

namespace World

theorem advance_aged (waited : Set ℕ) (w : World) : Aged waited w w.advance := by
  unfold advance
  split
  · exact .refl waited w
  · rename_i batch rest _
    have hstart : Aged waited w { w with agenda := rest } := .of_procs_eq rfl rfl rfl
    exact hstart.trans (Event.aged_foldl waited _ batch)

theorem advance_wellFormed {w : World} (h : WellFormed w) : WellFormed w.advance := by
  unfold advance
  split
  · exact h
  · rename_i batch rest _
    have hstart : Aged ∅ w { w with agenda := rest } := .of_procs_eq rfl rfl rfl
    exact Event.wellFormed_foldl (h.aged hstart fun o ho => .inl ho) batch

theorem answer_eq_ok {w w' : World} {α : Type} {c : Syscall α} {a : α}
    (h : w.answer c = .ok a w') : w.advance.effect c = .ok a w' := by
  unfold answer at h
  split at h
  · split at h
    · cases h
    · exact h
  · exact h

theorem answer_eq_error {w w' : World} {α : Type} {c : Syscall α} {e : Exc}
    (h : w.answer c = .error e w') :
    (w' = w.advance ∧ (e.cls = .died ∨ (e.cls ∈ c.raises ∧ certain c = false))) ∨
      w.advance.effect c = .error e w' := by
  unfold answer at h
  split at h
  · split at h
    · rename_i hcls
      cases h
      exact .inl ⟨rfl, hcls⟩
    · exact .inr h
  · exact .inr h

/-! ## Operations -/

theorem signal_eq (w : World) (pid : ℤ) :
    w.signal pid = .ok () w ∨ w.signal pid = .error noProcess w ∨
      w.signal pid = .error ⟨.permissionError, "[Errno 1] Operation not permitted"⟩ w := by
  unfold signal
  grind

/-- An operation fails only in the ways it can, and a failed one has no effect. -/
theorem effect_eq_error {w w' : World} {α : Type} {c : Syscall α} {e : Exc}
    (h : w.effect c = .error e w') : w' = w ∧ e.cls ∈ c.raises := by
  have hsignal : ∀ pid, w.signal pid = .error e w' →
      w' = w ∧ e.cls ∈ [ExcClass.processLookupError, .permissionError, .overflowError] := by
    intro pid hpid
    rcases w.signal_eq pid with heq | heq | heq <;> rw [heq] at hpid <;> cases hpid <;>
      exact ⟨rfl, by simp [noProcess]⟩
  cases c with
  | kill0 pid => exact hsignal pid h
  | killpg pid => exact hsignal pid h
  | getpgid pid =>
      simp only [effect] at h
      rcases w.signal_eq pid with heq | heq | heq <;> rw [heq] at h
      · cases h
      · cases h
        exact ⟨rfl, by simp [noProcess, Syscall.raises]⟩
      · cases h
  | readText path => simp only [effect] at h; split at h <;> cases h; exact ⟨rfl, by simp [noFile, Syscall.raises]⟩
  | procStat entry => simp only [effect] at h; split at h <;> cases h; exact ⟨rfl, by simp [noFile, Syscall.raises]⟩
  | procComm pid => simp only [effect] at h; split at h <;> cases h; exact ⟨rfl, by simp [noFile, Syscall.raises]⟩
  | procStatus pid => simp only [effect] at h; split at h <;> cases h; exact ⟨rfl, by simp [noFile, Syscall.raises]⟩
  | poll proc => simp only [effect] at h; split at h; cases h; split at h <;> cases h
  | wait proc => simp only [effect] at h; split at h <;> cases h; exact ⟨rfl, by simp [Syscall.raises]⟩
  | tmuxKillSession name => simp only [effect] at h; split at h <;> cases h
  | tmuxNewSession job name line env =>
      simp only [effect] at h
      split at h <;> cases h
      exact ⟨rfl, by simp [Syscall.raises]⟩
  | sleep seconds =>
      simp only [effect] at h
      split_ifs at h <;> cases h <;> exact ⟨rfl, by simp [Syscall.raises]⟩
  | _ => cases h

end World

instance : Host World where
  answer c w := w.answer c
  raises_only c w w' e h := by
    rcases World.answer_eq_error h with ⟨-, hcls⟩ | heffect
    · exact hcls.imp_right And.left
    · exact .inr (World.effect_eq_error heffect).2

theorem answer_ok {w w' : World} {α : Type} {c : Syscall α} {a : α}
    (h : Host.answer c w = .ok a w') : w.advance.effect c = .ok a w' :=
  World.answer_eq_ok h

/-- An operation that raises has no effect of its own. -/
theorem answer_error {w w' : World} {α : Type} {c : Syscall α} {e : Exc}
    (h : Host.answer c w = .error e w') : w' = w.advance := by
  rcases World.answer_eq_error h with ⟨rfl, -⟩ | heffect
  · rfl
  · exact (World.effect_eq_error heffect).1

namespace World

/-- A harmless operation touches no process. -/
theorem effect_harmless {w w' : World} {α : Type} {c : Syscall α} {a : α}
    (hc : c.harmless = true) (h : w.effect c = .ok a w') :
    w'.procs = w.procs ∧ w'.others = w.others ∧ w'.launches = w.launches ∧
      w'.programs = w.programs ∧ w'.dirs = w.dirs ∧ w'.journal = w.journal := by
  have hsignal : ∀ pid, w.signal pid = .ok () w' → w' = w := by
    intro pid hpid
    rcases w.signal_eq pid with heq | heq | heq <;> rw [heq] at hpid <;> cases hpid
    rfl
  cases c with
  | kill0 pid => rw [hsignal pid h]; exact ⟨rfl, rfl, rfl, rfl, rfl, rfl⟩
  | getpgid pid =>
      simp only [effect] at h
      rcases w.signal_eq pid with heq | heq | heq <;> rw [heq] at h <;> cases h <;>
        exact ⟨rfl, rfl, rfl, rfl, rfl, rfl⟩
  | readText path => simp only [effect] at h; split at h <;> cases h; exact ⟨rfl, rfl, rfl, rfl, rfl, rfl⟩
  | procStat entry => simp only [effect] at h; split at h <;> cases h; exact ⟨rfl, rfl, rfl, rfl, rfl, rfl⟩
  | procComm pid => simp only [effect] at h; split at h <;> cases h; exact ⟨rfl, rfl, rfl, rfl, rfl, rfl⟩
  | procStatus pid => simp only [effect] at h; split at h <;> cases h; exact ⟨rfl, rfl, rfl, rfl, rfl, rfl⟩
  | sleep seconds =>
      simp only [effect] at h
      split_ifs at h
      cases h
      exact ⟨rfl, rfl, rfl, rfl, rfl, rfl⟩
  | killpg | popen | poll | wait | tmuxKillSession | tmuxNewSession => cases hc
  | _ => cases h; exact ⟨rfl, rfl, rfl, rfl, rfl, rfl⟩

/-- No operation writes a file the scheduler reads, none takes from the agenda twice, and none
sets the clock back. -/
theorem effect_keeps {w w' : World} {α : Type} {c : Syscall α} {a : α}
    (h : w.effect c = .ok a w') :
    w'.agenda = w.agenda ∧ w'.files = w.files ∧ w'.dirs = w.dirs ∧ w.clock ≤ w'.clock := by
  have hsignal : ∀ pid, w.signal pid = .ok () w' → w' = w := by
    intro pid hpid
    rcases w.signal_eq pid with heq | heq | heq <;> rw [heq] at hpid <;> cases hpid
    rfl
  cases c with
  | kill0 pid => rw [hsignal pid h]; exact ⟨rfl, rfl, rfl, le_rfl⟩
  | killpg pid => rw [hsignal pid h]; exact ⟨rfl, rfl, rfl, le_rfl⟩
  | getpgid pid =>
      simp only [effect] at h
      rcases w.signal_eq pid with heq | heq | heq <;> rw [heq] at h <;> cases h <;>
        exact ⟨rfl, rfl, rfl, le_rfl⟩
  | readText path => simp only [effect] at h; split at h <;> cases h; exact ⟨rfl, rfl, rfl, le_rfl⟩
  | procStat entry => simp only [effect] at h; split at h <;> cases h; exact ⟨rfl, rfl, rfl, le_rfl⟩
  | procComm pid => simp only [effect] at h; split at h <;> cases h; exact ⟨rfl, rfl, rfl, le_rfl⟩
  | procStatus pid => simp only [effect] at h; split at h <;> cases h; exact ⟨rfl, rfl, rfl, le_rfl⟩
  | wait proc => simp only [effect] at h; split at h <;> cases h; exact ⟨rfl, rfl, rfl, le_rfl⟩
  | tmuxKillSession name =>
      simp only [effect] at h
      split at h <;> cases h <;> exact ⟨rfl, rfl, rfl, le_rfl⟩
  | tmuxNewSession job name line env =>
      simp only [effect] at h
      split at h <;> cases h
      exact ⟨rfl, rfl, rfl, le_rfl⟩
  | poll proc =>
      simp only [effect] at h
      split at h
      · cases h
        exact ⟨rfl, rfl, rfl, le_rfl⟩
      · split at h <;> cases h <;> exact ⟨rfl, rfl, rfl, le_rfl⟩
  | sleep seconds =>
      simp only [effect] at h
      split_ifs at h with hlong hnegative
      cases h
      exact ⟨rfl, rfl, rfl, le_add_of_nonneg_right (not_lt.mp hnegative)⟩
  | _ => cases h; exact ⟨rfl, rfl, rfl, le_rfl⟩

/-- Polling collects the child if it has ended. -/
theorem effect_poll {w w' : World} {proc : Popen} {rc : Option ℤ}
    (h : w.effect (.poll proc) = .ok rc w') :
    rc = (w.procs[proc.serial]?).bind Proc.exit ∧ Aged {proc.serial} w w' ∧
      w'.others = w.others ∧ (rc = none → w' = w) := by
  simp only [effect] at h
  split at h
  · rename_i hnone
    cases h
    exact ⟨by simp [hnone], .refl _ w, rfl, fun _ => rfl⟩
  · rename_i p hp
    split at h
    · rename_i hexit
      cases h
      exact ⟨by simp [hp, hexit], .refl _ w, rfl, fun _ => rfl⟩
    · rename_i rc' hexit
      cases h
      refine ⟨by simp [hp, hexit], .of_modify rfl rfl rfl fun p' hp' => ?_, rfl, nofun⟩
      rw [hp] at hp'
      cases hp'
      refine ⟨⟨rfl, rfl, rfl, fun _ h => h, fun _ => rfl, fun _ => .inr ?_⟩, rfl, nofun⟩
      rw [hexit]
      exact Option.some_ne_none rc'

end World

/-! ## Paths of harmless operations -/

theorem after_harmless_aged {α : Type} {c : Syscall α} (hc : c.harmless = true) (w : World) :
    Aged ∅ w (after c w) := by
  cases hanswer : Host.answer c w with
  | ok a w' =>
      rw [after_of_ok hanswer]
      obtain ⟨hprocs, -, hlaunches, hprograms, -⟩ := World.effect_harmless hc (answer_ok hanswer)
      exact (w.advance_aged ∅).trans (.of_procs_eq hprocs hlaunches hprograms)
  | error e w' =>
      rw [after_of_error hanswer, answer_error hanswer]
      exact w.advance_aged ∅

theorem after_poll_aged (proc : Popen) (w : World) : Aged {proc.serial} w (after (.poll proc) w) := by
  cases hanswer : Host.answer (.poll proc) w with
  | ok rc w' =>
      rw [after_of_ok hanswer]
      obtain ⟨-, haged, -⟩ := World.effect_poll (answer_ok hanswer)
      exact (w.advance_aged _).trans haged
  | error e w' =>
      rw [after_of_error hanswer, answer_error hanswer]
      exact w.advance_aged _

theorem Later.aged {w w' : World} (h : Later w w') : Aged ∅ w w' := by
  induction h with
  | refl => exact .refl ∅ w
  | tail _ hlast ih =>
      obtain ⟨α, c, hc, rfl⟩ := hlast
      exact ih.trans (after_harmless_aged hc _)

theorem Seen.aged {w w' : World} (h : Seen w w') : Aged Set.univ w w' := by
  induction h with
  | refl => exact .refl Set.univ w
  | tail _ hlast ih =>
      rcases hlast with ⟨α, c, hc, rfl⟩ | ⟨proc, rfl⟩
      · exact ih.trans ((after_harmless_aged hc _).mono (Set.empty_subset _))
      · exact ih.trans ((after_poll_aged proc _).mono (Set.subset_univ _))

end Nodepilot
