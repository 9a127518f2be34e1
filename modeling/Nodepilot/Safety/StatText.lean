import Nodepilot.Machine.ProcTable

/-!
# Reading the fields of a process

`_pid_alive` and `_pids_for_job` split the `stat` text at its blanks and take the
third and the fifth piece for the state and the process group.  The name stands
before both, so that each blank in it moves them on by one: what stands in their
place is another field, or a word of the name (`stateField`, `groupField`).

With a name of one word the reading is right (`groupField_of_solid`).  With any other
it is right for the processes where the misplaced piece happens to say the same.
-/

namespace Nodepilot

open Obeys

/-! ## Numerals -/

theorem parseInt_intText (n : ℤ) : Text.parseInt (intText n) = some n := by
  unfold intText
  split
  · rw [Text.parseInt_minus_toDigits]
    exact congrArg some (by omega)
  · rw [Text.parseInt_toDigits]
    exact congrArg some (by omega)

theorem blank_of_mem_intText {n : ℤ} {c : Char} (hc : c ∈ intText n) : Text.blank c = false := by
  unfold intText at hc
  split at hc
  · rcases List.mem_cons.mp hc with rfl | hc
    · decide
    · exact Text.blank_of_isDigit (Text.isDigit_of_mem_toDigits hc)
  · exact Text.blank_of_isDigit (Text.isDigit_of_mem_toDigits hc)

theorem intText_ne_nil (n : ℤ) : intText n ≠ [] := by
  unfold intText
  split
  · exact List.cons_ne_nil _ _
  · exact Nat.toDigits_ne_nil

theorem words_intText (n : ℤ) : Text.words (intText n) = [intText n] :=
  Text.words_of_solid (intText_ne_nil n) fun _ hc => blank_of_mem_intText hc

/-- A letter is neither a blank nor a digit. -/
theorem letter_plain {c : Char} (h : c.isAlpha = true) :
    Text.blank c = false ∧ Text.digitValue c = none := by
  have hbounds : 65 ≤ c.toNat ∧ c.toNat ≤ 90 ∨ 97 ≤ c.toNat ∧ c.toNat ≤ 122 := by
    simpa [Char.isAlpha, Char.isUpper, Char.isLower, UInt32.le_iff_toNat_le] using h
  constructor
  · have hne : ∀ point ∈ Text.blankPoints, c.toNat ≠ point := by
      simp only [Text.blankPoints, List.forall_mem_cons, List.not_mem_nil, false_implies,
        implies_true, and_true]
      omega
    simpa [Text.blank] using fun hmem => hne _ hmem rfl
  · have hapart : ∀ z ∈ Text.digitZeros, ¬ (z ≤ c.toNat ∧ c.toNat < z + 10) := by
      simp only [Text.digitZeros, List.forall_mem_cons, List.not_mem_nil, false_implies,
        implies_true, and_true]
      omega
    rw [Text.digitValue, Option.map_eq_none_iff, List.find?_eq_none]
    intro z hz
    simpa using hapart z hz

/-! ## The pieces of a stat text -/

namespace Process

variable (p : Process)

/-- The words of the name as it stands in the text. -/
def commWords : List (List Char) :=
  Text.words ('(' :: p.comm.toList ++ [')'])

theorem words_statText : Text.words p.statText.toList =
    intText p.pid :: (p.commWords ++ [p.state] :: intText p.ppid :: intText p.pgrp ::
      Text.words p.later.toList) := by
  have hspace : Text.blank ' ' = true := by decide
  have hstate : Text.words [p.state] = [[p.state]] :=
    Text.words_of_solid (List.cons_ne_nil _ _) fun c hc => by
      rw [List.mem_singleton] at hc
      exact hc ▸ (letter_plain p.state_letter).1
  unfold statText commWords
  rw [String.toList_ofList, Text.words_append_blank hspace, Text.words_append_blank hspace,
    Text.words_append_blank hspace, Text.words_append_blank hspace,
    Text.words_append_blank hspace, hstate, words_intText, words_intText, words_intText]
  simp

theorem commWords_ne_nil : p.commWords ≠ [] :=
  Text.words_cons_ne_nil (by decide) _

/-- What stands where the state is looked for. -/
def stateField : List Char :=
  match p.commWords with
  | _ :: word :: _ => word
  | _ => [p.state]

/-- What stands where the process group is looked for. -/
def groupField : Option ℤ :=
  match p.commWords with
  | _ :: _ :: _ :: word :: _ => Text.parseInt word
  | [_, _, _] => none
  | [_, _] => some p.ppid
  | _ => some p.pgrp

theorem statAlive_statText : statAlive p.statText = (p.stateField != ['Z']) := by
  have hwords : p.commWords ≠ [] := p.commWords_ne_nil
  unfold statAlive stateField
  rw [words_statText]
  cases hcomm : p.commWords with
  | nil => exact absurd hcomm hwords
  | cons first rest =>
      cases rest with
      | nil => simp
      | cons second rest => simp

theorem statGroup_statText : statGroup p.statText = p.groupField := by
  have hstate : Text.parseInt [p.state] = none := by
    refine Text.parseInt_eq_none fun c hc => ?_
    rw [List.mem_singleton] at hc
    exact hc ▸ (letter_plain p.state_letter).2
  unfold statGroup groupField
  rw [words_statText]
  rcases hcomm : p.commWords with _ | ⟨first, _ | ⟨second, _ | ⟨third, _ | ⟨fourth, rest⟩⟩⟩⟩
  · exact absurd hcomm p.commWords_ne_nil
  · simp [parseInt_intText]
  · simp [parseInt_intText]
  · simp [hstate]
  · simp

theorem isdigit_entry : isdigit p.entry.toList = true := by
  have hdigits : ∀ c ∈ intText (p.pid : ℤ), c.isDigit = true := fun c hc =>
    isDigit_of_mem_intText (Int.natCast_nonneg p.pid) hc
  rw [isdigit, entry, String.toList_ofList, Bool.and_eq_true]
  exact ⟨by simp [intText_ne_nil], List.all_eq_true.mpr hdigits⟩

end Process

/-! ## The questions -/

section Questions

variable {t : ProcTable} {p : Process} {s : Sys ProcTable}

/-- An operation that leaves the table as it is. -/
theorem call_unchanged {α : Type} {c : Syscall α} {a : α} (hworld : s.world = t)
    (h : t.answer c = .ok a t) : call c s = .ok a s := by
  subst hworld
  have hanswer : Host.answer c s.world = .ok a s.world := h
  simp only [call, hanswer]

theorem procStat_entry (hp : p ∈ t.procs) (hreadable : p.readable = true) :
    t.answer (.procStat p.entry) = .ok p.statText t := by
  simp only [ProcTable.answer, ProcTable.find_entry_eq hp, ProcTable.read, hreadable, if_true]

/-- `_pid_alive` of a process that may be signalled says what stands in the place of the state. -/
theorem pidAlive_eq (hp : p ∈ t.procs) (hreadable : p.readable = true) (hours : p.ours = true)
    (hworld : s.world = t) : pidAlive p.pid s = .ok (p.stateField != ['Z']) s := by
  have hkill : call (.kill0 (p.pid : ℤ)) s = .ok () s :=
    call_unchanged hworld (by simp only [ProcTable.answer, ProcTable.withPid_eq hp, hours, if_true])
  have hstat : call (.procStat p.entry) s = .ok p.statText s :=
    call_unchanged hworld (procStat_entry hp hreadable)
  have hprobe : probe (p.pid : ℤ) s = .ok none s := by
    unfold probe tryExcept
    rw [bind_of_ok hkill]
    rfl
  unfold pidAlive
  rw [bind_of_ok hprobe]
  simp only [tryExcept]
  rw [bind_of_ok (show call (.procStat (String.ofList (intText p.pid))) s = _ from hstat)]
  simp only [pure_apply, p.statAlive_statText]

theorem groupPids_others (pgid : ℤ) {names : List String}
    (h : ∀ name ∈ names, isdigit name.toList = false) : groupPids pgid names s = .ok [] s := by
  induction names with
  | nil => rfl
  | cons name rest ih =>
      rw [groupPids, h name (List.mem_cons_self ..), if_neg (by decide)]
      exact ih fun other hother => h other (List.mem_cons_of_mem _ hother)

/-- The loop over `/proc` picks the processes by what stands in the place of the group. -/
theorem groupPids_eq (pgid : ℤ) (hworld : s.world = t) {procs : List Process}
    (hprocs : ∀ p ∈ procs, p ∈ t.procs ∧ p.readable = true) :
    groupPids pgid (procs.map Process.entry ++ t.otherNames) s =
      .ok ((procs.filter fun p => p.groupField = some pgid).map fun p => (p.pid : ℤ)) s := by
  induction procs with
  | nil => exact groupPids_others pgid t.otherNames_spec
  | cons p rest ih =>
      obtain ⟨hp, hreadable⟩ := hprocs p (List.mem_cons_self ..)
      have hstat : call (.procStat p.entry) s = .ok p.statText s :=
        call_unchanged hworld (procStat_entry hp hreadable)
      have hgroup : tryExcept
          (do
            let text ← call (.procStat p.entry)
            pure (statGroup text))
          (fun cls => cls.isOSError || cls == .valueError)
          (fun _ => pure none) s = .ok p.groupField s := by
        simp only [tryExcept]
        rw [bind_of_ok hstat, pure_apply, p.statGroup_statText]
      have hpid : Text.parseInt p.entry.toList = some (p.pid : ℤ) := by
        rw [Process.entry, String.toList_ofList, parseInt_intText]
      have hrest := ih fun q hq => hprocs q (List.mem_cons_of_mem _ hq)
      rw [List.map_cons, List.cons_append, groupPids, if_pos p.isdigit_entry, bind_of_ok hgroup,
        bind_of_ok hrest, hpid]
      by_cases hpgid : p.groupField = some pgid
      · simp [hpgid]
      · simp [hpgid]

/-- `_pids_for_job` of a job tracked by an existing pid. -/
theorem pidsForJob_eq {root : Process} (hroot : root ∈ t.procs)
    (hreadable : ∀ p ∈ t.procs, p.readable = true) (hworld : s.world = t) {job : Job}
    (hsession : job.session = pidSession root.pid) :
    pidsForJob job s =
      .ok ((t.procs.filter fun p => p.groupField = some root.pgrp).map fun p => (p.pid : ℤ)) s := by
  have hgetpgid : call (.getpgid (root.pid : ℤ)) s = .ok root.pgrp s :=
    call_unchanged hworld (by simp only [ProcTable.answer, ProcTable.withPid_eq hroot])
  have hlist : call .listProc s = .ok (t.procs.map Process.entry ++ t.otherNames) s :=
    call_unchanged hworld rfl
  have hgroup : tryExcept (some <$> call (.getpgid (root.pid : ℤ))) (· == .processLookupError)
      (fun _ => pure none) s = .ok (some root.pgrp) s := by
    have hmap : (some <$> call (.getpgid (root.pid : ℤ)) : M ProcTable (Option ℤ)) s =
        .ok (some root.pgrp) s := by
      rw [map_eq_pure_bind, bind_of_ok hgetpgid, pure_apply]
    simp only [tryExcept, hmap]
  have hlift : (liftExcept (pyInt (intText root.pid)) : M ProcTable ℤ) s = .ok (root.pid : ℤ) s := by
    rw [pyInt_natText]
    rfl
  unfold pidsForJob
  rw [hsession, tracked_pidSession]
  simp only
  rw [bind_of_ok hlift, bind_of_ok hgroup]
  simp only
  rw [bind_of_ok hlist]
  exact groupPids_eq root.pgrp hworld fun p hp => ⟨hp, hreadable p hp⟩

end Questions

/-! ## When the answers are right -/

/-- `_pids_for_job` returns exactly the pids of the processes of a group. -/
def ListsGroup (job : Job) (pgrp : ℤ) (s : Sys ProcTable) : Prop :=
  ∃ pids, pidsForJob job s = .ok pids s ∧
    ∀ n : ℤ, n ∈ pids ↔ ∃ p ∈ s.world.procs, (p.pid : ℤ) = n ∧ p.pgrp = pgrp

/-- `_pid_alive` tells a zombie from the rest. -/
def TellsZombie (p : Process) (s : Sys ProcTable) : Prop :=
  pidAlive p.pid s = .ok (p.state != 'Z') s

theorem listsGroup_iff {s : Sys ProcTable} (hreadable : ∀ p ∈ s.world.procs, p.readable = true)
    {root : Process} (hroot : root ∈ s.world.procs) {job : Job}
    (hsession : job.session = pidSession root.pid) :
    ListsGroup job root.pgrp s ↔
      ∀ p ∈ s.world.procs, p.groupField = some root.pgrp ↔ p.pgrp = root.pgrp := by
  have hpids := pidsForJob_eq hroot hreadable rfl hsession
  have hmem : ∀ p ∈ s.world.procs, (p.pid : ℤ) ∈ ((s.world.procs.filter fun p =>
      p.groupField = some root.pgrp).map fun p => (p.pid : ℤ)) ↔
        p.groupField = some root.pgrp := by
    intro p hp
    rw [List.mem_map]
    constructor
    · rintro ⟨q, hq, hpid⟩
      rw [List.mem_filter, decide_eq_true_eq] at hq
      rw [← ProcTable.eq_of_pid hq.1 hp (Int.natCast_inj.mp hpid)]
      exact hq.2
    · exact fun hgroup => ⟨p, List.mem_filter.mpr ⟨hp, decide_eq_true hgroup⟩, rfl⟩
  constructor
  · rintro ⟨pids, hreturned, hexact⟩ p hp
    rw [hpids, EStateM.Result.ok.injEq] at hreturned
    rw [← hmem p hp, hreturned.1, hexact]
    constructor
    · rintro ⟨q, hq, hpid, hgroup⟩
      rw [← ProcTable.eq_of_pid hq hp (Int.natCast_inj.mp hpid)]
      exact hgroup
    · exact fun hgroup => ⟨p, hp, rfl, hgroup⟩
  · intro hfields
    refine ⟨_, hpids, fun n => ?_⟩
    constructor
    · intro hn
      obtain ⟨p, hp, rfl⟩ := List.mem_map.mp hn
      rw [List.mem_filter, decide_eq_true_eq] at hp
      exact ⟨p, hp.1, rfl, (hfields p hp.1).mp hp.2⟩
    · rintro ⟨p, hp, rfl, hgroup⟩
      exact (hmem p hp).mpr ((hfields p hp).mpr hgroup)

theorem tellsZombie_iff {s : Sys ProcTable} {p : Process} (hp : p ∈ s.world.procs)
    (hreadable : p.readable = true) (hours : p.ours = true) :
    TellsZombie p s ↔ (p.stateField = ['Z'] ↔ p.state = 'Z') := by
  rw [TellsZombie, pidAlive_eq hp hreadable hours rfl]
  simp only [EStateM.Result.ok.injEq, and_true]
  constructor
  · intro h
    rw [← beq_iff_eq, ← beq_iff_eq (a := p.state), ← Bool.eq_iff_iff]
    exact Bool.not_inj h
  · intro h
    have hsame : (p.stateField == ['Z']) = (p.state == 'Z') := by
      rw [Bool.eq_iff_iff, beq_iff_eq, beq_iff_eq]
      exact h
    rw [bne, bne, hsame]

/-- The table is read rightly if and only if what stands in the place of a field says what
the field says, wherever it is asked for. -/
theorem proc_table_read_iff (s : Sys ProcTable)
    (hascii : ∀ p ∈ s.world.procs, p.readable = true) :
    (∀ root ∈ s.world.procs, ∀ job : Job, job.session = pidSession root.pid →
      (ListsGroup job root.pgrp s ↔
        ∀ p ∈ s.world.procs, p.groupField = some root.pgrp ↔ p.pgrp = root.pgrp)) ∧
    ∀ p ∈ s.world.procs, p.ours = true →
      (TellsZombie p s ↔ (p.stateField = ['Z'] ↔ p.state = 'Z')) := by
  constructor
  · intro root hroot job hsession
    exact listsGroup_iff hascii hroot hsession
  · intro p hp hours
    exact tellsZombie_iff hp (hascii p hp) hours

/-- The shell of a job. -/
def shellProcess : Process :=
  { pid := 100, comm := "bash", state := 'S', state_letter := rfl, ppid := 1, pgrp := 100 }

/-- A process in the group of the shell. -/
def helperProcess (name : String) : Process :=
  { pid := 102, comm := name, state := 'R', state_letter := rfl, ppid := 101, pgrp := 100 }

/-- A process that has ended and was not waited for. -/
def endedProcess (name : String) : Process :=
  { pid := 103, comm := name, state := 'Z', state_letter := rfl, ppid := 1, pgrp := 103 }

def helperTable (name : String) : ProcTable where
  procs := [shellProcess, helperProcess name, endedProcess name]
  pids_nodup := by
    change [100, 102, 103].Nodup
    decide
  cpus_nonempty := by simp [shellProcess, helperProcess, endedProcess]
  cpus_nonneg := by simp [shellProcess, helperProcess, endedProcess]

/-- The orchestrator of a job whose shell it is. -/
def helperStart (name : String) : Sys ProcTable :=
  { jobs := [], world := helperTable name }

def helperJob : Job :=
  { id := "a", command := "true", status := .running, session := pidSession 100 }

/-- With a name of one word both questions are answered rightly. -/
theorem proc_table_read_helper :
    ListsGroup helperJob 100 (helperStart "helper") ∧
      TellsZombie (endedProcess "helper") (helperStart "helper") := by
  have hread := proc_table_read_iff (helperStart "helper") (by decide)
  constructor
  · refine (hread.1 shellProcess (List.mem_cons_self ..) helperJob rfl).mpr ?_
    decide +kernel
  · refine (hread.2 (endedProcess "helper") ?_ rfl).mpr (by decide +kernel)
    exact List.mem_cons_of_mem _ (List.mem_cons_of_mem _ (List.mem_cons_self ..))

/-- With a name of two words the helper is not found and the process that has ended counts as
alive. -/
theorem proc_table_misread :
    (∀ p ∈ (helperStart "tmux: server").world.procs, p.readable = true) ∧
      ¬ ListsGroup helperJob 100 (helperStart "tmux: server") ∧
      ¬ TellsZombie (endedProcess "tmux: server") (helperStart "tmux: server") := by
  have hascii : ∀ p ∈ (helperStart "tmux: server").world.procs, p.readable = true := by decide
  refine ⟨hascii, ?_, ?_⟩
  · have hiff := @listsGroup_iff _ hascii shellProcess (List.mem_cons_self ..) helperJob rfl
    change ¬ ListsGroup helperJob shellProcess.pgrp (helperStart "tmux: server")
    rw [hiff]
    decide +kernel
  · have hmem : endedProcess "tmux: server" ∈ (helperStart "tmux: server").world.procs :=
      List.mem_cons_of_mem _ (List.mem_cons_of_mem _ (List.mem_cons_self ..))
    rw [tellsZombie_iff hmem (hascii _ hmem) rfl]
    decide +kernel

end Nodepilot
