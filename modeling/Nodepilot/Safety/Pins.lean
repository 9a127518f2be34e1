import Nodepilot.Lib.Confine
import Nodepilot.Safety.Exclusivity
import Nodepilot.Safety.StatText

/-!
# Pins and the processes they are set on

With the tmux backend a turn of `_enforce_pins` sets the affinity of the processes
whose command line contains a match of the job's id, whoever they belong to.  On a table
of processes a pass is a pass of confinement, with one turn for each running job
(`enforcePins_passes`); so what it does to processes of other jobs, and to those
of none, follows from the rules of `Confine`.

A name that cannot be decoded ends the pass where it is read.
-/

namespace Nodepilot

open Obeys Confine

/-! ## What a turn reads -/

/-- `enforce_pin` takes the process for the tmux server. -/
def Process.isServer (p : Process) : Bool :=
  "tmux".toList.isPrefixOf (Text.strip p.commText.toList)

theorem pgrep_words (procs : List Process) :
    ((Text.words (procs.flatMap fun p => intText p.pid ++ ['\n'])).filter isdigit).filterMap
      Text.parseInt = procs.map fun p => (p.pid : ℤ) := by
  induction procs with
  | nil => rfl
  | cons p rest ih =>
      have hdigit : isdigit (intText (p.pid : ℤ)) = true := by
        have hentry := p.isdigit_entry
        rwa [Process.entry, String.toList_ofList] at hentry
      have hsplit : Text.words ((p :: rest).flatMap fun p => intText p.pid ++ ['\n']) =
          intText p.pid :: Text.words (rest.flatMap fun p => intText p.pid ++ ['\n']) := by
        rw [List.flatMap_cons, List.append_assoc, List.singleton_append,
          Text.words_append_blank (by decide), words_intText]
        rfl
      rw [hsplit, List.filter_cons_of_pos hdigit, List.filterMap_cons, parseInt_intText, ih]
      rfl

theorem strip_cons_blank {c : Char} (hc : Text.blank c = true) {text : List Char}
    (htext : ∀ d ∈ text, Text.blank d = false) : Text.strip (c :: text) = text := by
  have hdrop : (c :: text).dropWhile Text.blank = text.dropWhile Text.blank := by
    rw [List.dropWhile_cons_of_pos hc]
  rw [Text.strip, Text.trim, hdrop]
  exact Text.trim_eq_self htext

theorem mem_of_mem_intercalate {specs : List (List Char)} {c : Char}
    (hc : c ∈ [','].intercalate specs) : c = ',' ∨ ∃ part ∈ specs, c ∈ part := by
  induction specs with
  | nil => simp at hc
  | cons first rest ih =>
      cases rest with
      | nil => exact .inr ⟨first, List.mem_cons_self .., by simpa using hc⟩
      | cons next more =>
          have hsplit : c ∈ first ∨ c = ',' ∨ c ∈ [','].intercalate (next :: more) := by
            simpa using hc
          rcases hsplit with hfirst | hcomma | hrest
          · exact .inr ⟨first, List.mem_cons_self .., hfirst⟩
          · exact .inl hcomma
          · refine (ih hrest).imp_right ?_
            rintro ⟨part, hpart, hmem⟩
            exact ⟨part, List.mem_cons_of_mem _ hpart, hmem⟩

/-- No character of a formatted list is a blank. -/
theorem blank_of_mem_format {cores : Finset ℤ} (h : ∀ c ∈ cores, 0 ≤ c) {d : Char}
    (hd : d ∈ (formatCpuList cores).toList) : Text.blank d = false := by
  rw [formatCpuList_eq, String.toList_ofList] at hd
  rcases mem_of_mem_intercalate hd with rfl | ⟨part, hpart, hmem⟩
  · decide
  · obtain ⟨b, hb, rfl⟩ := List.mem_map.mp hpart
    obtain ⟨hle, hlow⟩ := Runs.mem_of_mem_runs hb
    have hlo : 0 ≤ b.1 := h _ (mem_sorted.mp hlow)
    rcases mem_runText hlo (hlo.trans hle) hmem with hdigit | rfl
    · exact Text.blank_of_isDigit hdigit
    · decide

theorem splitOn_lines {lines : List (List Char)} (hlines : ∀ line ∈ lines, '\n' ∉ line)
    (rest : List Char) :
    ((lines.flatMap fun line => line ++ ['\n']) ++ rest).splitOn '\n' =
      lines ++ rest.splitOn '\n' := by
  induction lines with
  | nil => rfl
  | cons line more ih =>
      have hmore := ih fun l hl => hlines l (List.mem_cons_of_mem _ hl)
      rw [List.flatMap_cons, List.append_assoc, List.append_assoc, List.singleton_append,
        List.splitOn_append_cons_self_of_not_mem (hlines line (List.mem_cons_self ..)), hmore]
      rfl

/-- Lines that say something else are passed over. -/
theorem allowedList_append {lines rest : List (List Char)}
    (hlines : ∀ line ∈ lines, "Cpus_allowed_list:".toList.isPrefixOf line = false) :
    allowedList (lines ++ rest) = allowedList rest := by
  induction lines with
  | nil => rfl
  | cons line more ih =>
      rw [List.cons_append, allowedList, hlines line (List.mem_cons_self ..), if_neg (by decide)]
      exact ih fun l hl => hlines l (List.mem_cons_of_mem _ hl)

/-- The affinity is read back from a status text. -/
theorem allowedList_statusText (p : Process) (hnonneg : ∀ c ∈ p.cpus, 0 ≤ c) :
    allowedList (p.statusText.toList.splitOn '\n') = .ok (some p.cpus) := by
  have hline : '\n' ∉ ("Cpus_allowed_list:\t" ++ formatCpuList p.cpus).toList := by
    rw [String.toList_append, List.mem_append, not_or]
    refine ⟨by decide, fun hmem => ?_⟩
    exact absurd (blank_of_mem_format hnonneg hmem) (by decide)
  have hprefix : "Cpus_allowed_list:".toList.isPrefixOf
      ("Cpus_allowed_list:\t" ++ formatCpuList p.cpus).toList = true := by
    rw [String.toList_append, List.isPrefixOf_iff_prefix]
    exact ⟨'\t' :: (formatCpuList p.cpus).toList, rfl⟩
  have hdrop : ("Cpus_allowed_list:\t" ++ formatCpuList p.cpus).toList.drop 18 =
      '\t' :: (formatCpuList p.cpus).toList := by
    rw [String.toList_append]
    rfl
  rw [Process.statusText, String.toList_ofList, List.append_assoc,
    splitOn_lines fun line hl => (p.statusHead_other line hl).1,
    allowedList_append fun line hl => (p.statusHead_other line hl).2,
    List.splitOn_append_cons_self_of_not_mem hline, allowedList, if_pos hprefix, hdrop,
    strip_cons_blank (by decide) fun d hd => blank_of_mem_format hnonneg hd,
    String.ofList_toList, parse_format hnonneg]
  rfl

/-! ## What a turn does -/

/-- The processes the turn of a job finds. -/
def found (t : ProcTable) (job : Job) : List Process :=
  if job.status = .running ∧ job.cpuList ≠ "" ∧ job.id ≠ "" then
    t.procs.filter fun p => t.search job.id p.commandLine
  else []

/-- The pids it confines: those before a name that cannot be decoded, without tmux servers. -/
def confined (procs : List Process) : List ℕ :=
  ((procs.takeWhile Process.readable).filter fun p => !p.isServer).map Process.pid

/-- A table is another one with the affinities of a map. -/
structure Shows (t₀ : ProcTable) (place : ℕ → Finset ℤ) (t : ProcTable) : Prop where
  procs : t.procs = t₀.procs.map fun p => p.setCpus (place p.pid)
  search : t.search = t₀.search

@[simp] theorem setCpus_readable (p : Process) (cores : Finset ℤ) :
    (p.setCpus cores).readable = p.readable := rfl

namespace Shows

variable {t₀ t : ProcTable} {place : ℕ → Finset ℤ} {p : Process}

theorem mem (h : Shows t₀ place t) (hp : p ∈ t₀.procs) : p.setCpus (place p.pid) ∈ t.procs := by
  rw [h.procs]
  exact List.mem_map_of_mem hp

theorem withPid (h : Shows t₀ place t) (hp : p ∈ t₀.procs) :
    t.withPid p.pid = some (p.setCpus (place p.pid)) :=
  ProcTable.withPid_eq (h.mem hp)

/-- Confining one process. -/
theorem pin (h : Shows t₀ place t) {cores : Finset ℤ} (hne : cores ≠ ∅)
    (hnonneg : ∀ c ∈ cores, 0 ≤ c) (houtside : ¬ place p.pid ⊆ cores) :
    Shows t₀ (confine cores [p.pid] place) (t.pin p.pid cores hne hnonneg) where
  procs := by
    have hpin : (t.pin p.pid cores hne hnonneg).procs =
        t.procs.map fun q => if (q.pid : ℤ) = p.pid then q.setCpus cores else q := rfl
    rw [hpin, h.procs, List.map_map]
    refine List.map_congr_left fun q _ => ?_
    have hpid : (q.setCpus (place q.pid)).pid = q.pid := rfl
    simp only [Function.comp_apply, hpid, Int.natCast_inj]
    by_cases hq : q.pid = p.pid
    · have hmoved : confine cores [p.pid] place q.pid = cores :=
        if_pos ⟨List.mem_singleton.mpr hq, hq ▸ houtside⟩
      rw [if_pos hq, hmoved]
      rfl
    · rw [if_neg hq, confine_of_not_mem (by simpa using hq)]
  search := h.search

end Shows

section Turns

variable {t₀ : ProcTable} {place : ℕ → Finset ℤ} {s : Sys ProcTable} {job : Job}

theorem call_raises {α : Type} {t : ProcTable} {c : Syscall α} {e : Exc} (hworld : s.world = t)
    (h : t.answer c = .error e t) : call c s = .error e s := by
  subst hworld
  have hanswer : Host.answer c s.world = .error e s.world := h
  simp only [call, hanswer]

theorem taskset_eq {t : ProcTable} {cpuList : String} {pid : ℤ} {cores : Finset ℤ}
    (hparse : parseCpuList cpuList = .ok cores) (hne : cores ≠ ∅) :
    t.taskset cpuList pid = (0, t.pin pid cores hne (nonneg_of_parseCpuList hparse)) := by
  unfold ProcTable.taskset
  split
  · rename_i cores' hcores
    rw [hparse, Except.ok.injEq] at hcores
    subst hcores
    exact dif_neg hne
  · rename_i e herror
    rw [hparse] at herror
    cases herror

/-- The end of a turn of `enforce_pin`: the affinity is read and, if it strays, set. -/
def setStray (job : Job) (cores : Finset ℤ) (pid : ℤ) : M ProcTable Bool := do
  match ← cpusAllowed pid with
  | none => pure false
  | some current =>
      if current = ∅ ∨ ¬ current ⊆ cores then
        let _ ← call (.taskset job.cpuList pid)
        pure true
      else pure false

/-- A name that cannot be decoded raises. -/
theorem repin_unreadable (hshows : Shows t₀ place s.world) {p : Process} (hp : p ∈ t₀.procs)
    (hreadable : p.readable = false) (cores : Finset ℤ) :
    repin job cores p.pid s = .error ProcTable.undecodable s := by
  have hfound := hshows.withPid hp
  have hcomm : call (.procComm (p.pid : ℤ)) s = .error ProcTable.undecodable s :=
    call_raises rfl (by
      simp only [ProcTable.answer, hfound]
      exact if_neg (by simpa using hreadable))
  have hread : tryExcept (some <$> call (.procComm (p.pid : ℤ))) ExcClass.isOSError
      (fun _ => pure none) s = .error ProcTable.undecodable s := by
    have hmap : (some <$> call (.procComm (p.pid : ℤ)) : M ProcTable (Option String)) s =
        .error ProcTable.undecodable s := by
      rw [map_eq_pure_bind, bind_of_error hcomm]
    simp only [tryExcept, hmap]
    rfl
  exact bind_of_error hread

/-- A name that is read decides whether the process is looked at. -/
theorem repin_readable (hshows : Shows t₀ place s.world) {p : Process} (hp : p ∈ t₀.procs)
    (hreadable : p.readable = true) (cores : Finset ℤ) :
    repin job cores p.pid s = (if p.isServer then pure false else setStray job cores p.pid) s := by
  have hfound := hshows.withPid hp
  have hcomm : call (.procComm (p.pid : ℤ)) s = .ok p.commText s :=
    call_unchanged rfl (by
      simp only [ProcTable.answer, hfound]
      exact if_pos hreadable)
  have hread : tryExcept (some <$> call (.procComm (p.pid : ℤ))) ExcClass.isOSError
      (fun _ => pure none) s = .ok (some p.commText) s := by
    have hmap : (some <$> call (.procComm (p.pid : ℤ)) : M ProcTable (Option String)) s =
        .ok (some p.commText) s := by
      rw [map_eq_pure_bind, bind_of_ok hcomm, pure_apply]
    simp only [tryExcept, hmap]
  rw [repin, bind_of_ok hread]
  rfl

/-- The affinity of a process is read from its `status` text. -/
theorem cpusAllowed_eq (hshows : Shows t₀ place s.world) {p : Process} (hp : p ∈ t₀.procs)
    (hreadable : p.readable = true) :
    cpusAllowed (p.pid : ℤ) s = .ok (some (place p.pid)) s := by
  have hfound := hshows.withPid hp
  have hstatus : call (.procStatus (p.pid : ℤ)) s =
      .ok (p.setCpus (place p.pid)).statusText s :=
    call_unchanged rfl (by
      simp only [ProcTable.answer, hfound]
      exact if_pos hreadable)
  have hlist := allowedList_statusText _ (s.world.cpus_nonneg _ (hshows.mem hp))
  unfold cpusAllowed
  simp only [tryExcept]
  rw [bind_of_ok hstatus, hlist]
  rfl

/-- An affinity that strays is set to the block. -/
theorem setStray_eq (hshows : Shows t₀ place s.world) {p : Process} (hp : p ∈ t₀.procs)
    (hreadable : p.readable = true) {cores : Finset ℤ}
    (hparse : parseCpuList job.cpuList = .ok cores) (hne : cores ≠ ∅) :
    ∃ w b, Shows t₀ (confine cores [p.pid] place) w ∧
      setStray job cores p.pid s = .ok b { s with world := w } := by
  have hcpus := cpusAllowed_eq hshows hp hreadable
  by_cases hinside : place p.pid ⊆ cores
  · -- it lies in the block, and no affinity is empty
    have hnonempty : place p.pid ≠ ∅ := s.world.cpus_nonempty _ (hshows.mem hp)
    have hsame : confine cores [p.pid] place = place := by
      funext n
      by_cases hn : n = p.pid
      · rw [hn]
        exact confine_of_subset hinside
      · exact confine_of_not_mem (by simpa using hn)
    refine ⟨s.world, false, by rwa [hsame], ?_⟩
    rw [setStray, bind_of_ok hcpus]
    simp only [hnonempty, hinside, not_true_eq_false, or_self, if_false]
    rfl
  · have hshows' := hshows.pin hne (nonneg_of_parseCpuList hparse) hinside
    have hresult : Host.answer (.taskset job.cpuList (p.pid : ℤ)) s.world =
        .ok (s.world.taskset job.cpuList p.pid).1 (s.world.taskset job.cpuList p.pid).2 := rfl
    rw [taskset_eq hparse hne] at hresult
    have htaskset := call_eq_ok.mpr ⟨_, hresult, rfl⟩
    refine ⟨_, true, hshows', ?_⟩
    rw [setStray, bind_of_ok hcpus]
    simp only [hinside, not_false_eq_true, or_true, if_true]
    rw [bind_of_ok htaskset]
    rfl

/-- One process: a name that cannot be decoded raises, else it is confined, unless it is taken
for the tmux server. -/
theorem repin_eq (hshows : Shows t₀ place s.world) {p : Process} (hp : p ∈ t₀.procs)
    {cores : Finset ℤ} (hparse : parseCpuList job.cpuList = .ok cores) (hne : cores ≠ ∅) :
    ∃ w, Shows t₀ (confine cores (confined [p]) place) w ∧
      if p.readable then ∃ b, repin job cores p.pid s = .ok b { s with world := w }
      else repin job cores p.pid s = .error ProcTable.undecodable { s with world := w } := by
  cases hreadable : p.readable with
  | false =>
      refine ⟨s.world, ?_, ?_⟩
      · simpa [confined, hreadable] using hshows
      · simp only [Bool.false_eq_true, if_false]
        exact repin_unreadable hshows hp hreadable cores
  | true =>
      rw [repin_readable hshows hp hreadable]
      cases hserver : p.isServer with
      | true =>
          refine ⟨s.world, ?_, ?_⟩
          · simpa [confined, hreadable, hserver] using hshows
          · exact ⟨false, rfl⟩
      | false =>
          have hconfined : confined [p] = [p.pid] := by simp [confined, hreadable, hserver]
          obtain ⟨w, b, hw, hset⟩ := setStray_eq hshows hp hreadable hparse hne
          rw [hconfined]
          exact ⟨w, hw, b, hset⟩

theorem confined_cons {p : Process} (hreadable : p.readable = true) (rest : List Process) :
    confined (p :: rest) = confined [p] ++ confined rest := by
  unfold confined
  cases hserver : p.isServer <;> simp [hreadable, hserver]

/-- The processes of a turn, one after the other. -/
theorem sweep_repin_eq (hshows : Shows t₀ place s.world) {procs : List Process}
    (hprocs : ∀ p ∈ procs, p ∈ t₀.procs) {cores : Finset ℤ}
    (hparse : parseCpuList job.cpuList = .ok cores) (hne : cores ≠ ∅) :
    ∃ w, Shows t₀ (confine cores (confined procs) place) w ∧
      if procs.all Process.readable then
        ∃ b, sweep (repin job cores) (procs.map fun p => (p.pid : ℤ)) s = .ok b { s with world := w }
      else sweep (repin job cores) (procs.map fun p => (p.pid : ℤ)) s =
        .error ProcTable.undecodable { s with world := w } := by
  induction procs generalizing s place with
  | nil => exact ⟨s.world, by simpa [confined] using hshows, false, rfl⟩
  | cons p rest ih =>
      obtain ⟨w, hw, hrepin⟩ := repin_eq hshows (hprocs p (List.mem_cons_self ..)) hparse hne
      cases hreadable : p.readable with
      | false =>
          have hnone : confined (p :: rest) = confined [p] := by simp [confined, hreadable]
          rw [hreadable, if_neg (by decide)] at hrepin
          refine ⟨w, hnone ▸ hw, ?_⟩
          rw [List.all_cons, hreadable, Bool.false_and, if_neg (by decide), List.map_cons]
          exact bind_of_error hrepin
      | true =>
          rw [hreadable, if_pos rfl] at hrepin
          obtain ⟨b, hrepin⟩ := hrepin
          have hlater : Shows t₀ (confine cores (confined [p]) place)
              ({ s with world := w } : Sys ProcTable).world := hw
          obtain ⟨w', hw', hrest⟩ := ih hlater fun q hq => hprocs q (List.mem_cons_of_mem _ hq)
          refine ⟨w', ?_, ?_⟩
          · rwa [confined_cons hreadable, confine_append]
          · rw [List.all_cons, hreadable, Bool.true_and, List.map_cons, sweep, bind_of_ok hrepin]
            split
            · rename_i hall
              rw [if_pos hall] at hrest
              obtain ⟨b', hrest⟩ := hrest
              exact ⟨b || b', by rw [bind_of_ok hrest]; rfl⟩
            · rename_i hsome
              rw [if_neg hsome] at hrest
              exact bind_of_error hrest

/-- What is true of the running jobs of a tmux site: each has a session and a block of its own. -/
structure TmuxRun (jobs : List Job) : Prop where
  session : ∀ job ∈ jobs, job.status = .running → ∃ name, tracked job.session = .tmux name
  block : ∀ job ∈ jobs, job.status = .running →
    parseCpuList job.cpuList = .ok (blockOf job) ∧ blockOf job ≠ ∅
  apart : jobs.Pairwise fun a b => a.status = .running → b.status = .running →
    a.id ≠ b.id ∧ Disjoint (blockOf a) (blockOf b)

theorem found_congr {t : ProcTable} (hshows : Shows t₀ place t) (job : Job) :
    found t job = (found t₀ job).map fun p => p.setCpus (place p.pid) := by
  unfold found
  split
  · rw [hshows.procs, hshows.search, List.filter_map]
    rfl
  · rfl

theorem pidsForJob_tmux (hshows : Shows t₀ place s.world) {name : String}
    (hsession : tracked job.session = .tmux name) (hrunning : job.status = .running)
    (hcpus : job.cpuList ≠ "") (hid : job.id ≠ "") :
    pidsForJob job s = .ok ((found t₀ job).map fun p => (p.pid : ℤ)) s := by
  have hfound : s.world.procs.filter (fun p => s.world.search job.id p.commandLine) =
      found s.world job := (if_pos ⟨hrunning, hcpus, hid⟩).symm
  have hpids : (found s.world job).map (fun p => (p.pid : ℤ)) =
      (found t₀ job).map fun p => (p.pid : ℤ) := by
    rw [found_congr hshows, List.map_map]
    rfl
  have hwhich : call (.which "pgrep") s = .ok true s := call_unchanged rfl rfl
  have hpgrep : call (.pgrep job.id) s = .ok (s.world.pgrep job.id) s := call_unchanged rfl rfl
  unfold pidsForJob
  rw [hsession]
  simp only
  rw [bind_of_ok hwhich, if_pos rfl, bind_of_ok hpgrep, ProcTable.pgrep, hfound,
    String.toList_ofList, pgrep_words, hpids]
  rfl

theorem enforcePin_eq (hrun : TmuxRun s.jobs) (hshows : Shows t₀ place s.world)
    (hjob : job ∈ s.jobs) (hrunning : job.status = .running) (hcpus : job.cpuList ≠ "")
    (hid : job.id ≠ "") :
    enforcePin job s = sweep (repin job (blockOf job)) ((found t₀ job).map fun p => (p.pid : ℤ)) s := by
  obtain ⟨name, hsession⟩ := hrun.session job hjob hrunning
  obtain ⟨hparse, -⟩ := hrun.block job hjob hrunning
  have hwhich : call (.which "taskset") s = .ok true s := call_unchanged rfl rfl
  have hlift : (liftExcept (parseCpuList job.cpuList) : M ProcTable (Finset ℤ)) s =
      .ok (blockOf job) s := by
    rw [hparse]
    rfl
  unfold enforcePin
  rw [if_neg (by simp [hcpus, hid]), bind_of_ok hwhich, if_pos rfl, bind_of_ok hlift,
    bind_of_ok (pidsForJob_tmux hshows hsession hrunning hcpus hid)]

/-- The turn of a job. -/
theorem enforceJob_eq (hrun : TmuxRun s.jobs) (hshows : Shows t₀ place s.world) {i : ℕ}
    (hjob : s.jobs[i]? = some job) :
    ∃ w, Shows t₀ (confine (blockOf job) (confined (found t₀ job)) place) w ∧
      if (found t₀ job).all Process.readable then
        ∃ b, enforceJob i s = .ok b { s with world := w }
      else enforceJob i s = .error ProcTable.undecodable { s with world := w } := by
  have hmem := List.mem_of_getElem? hjob
  have hturn : enforceJob i s =
      (if job.status = .running ∧ job.cpuList ≠ "" then
        tryExcept (enforcePin job) ExcClass.isOSError fun _ => pure false
      else pure false : M ProcTable Bool) s := by
    simp only [enforceJob, bind, EStateM.bind, get_apply, hjob]
  have hidle : ¬ (job.status = .running ∧ job.cpuList ≠ "" ∧ job.id ≠ "") →
      ∃ b, enforceJob i s = .ok b s := by
    intro hnone
    rw [hturn]
    split
    · rename_i hon
      have hpin : enforcePin job s = .ok false s := by
        rw [enforcePin, if_pos (by tauto)]
        rfl
      exact ⟨false, by simp only [tryExcept, hpin]⟩
    · exact ⟨false, rfl⟩
  by_cases hon : job.status = .running ∧ job.cpuList ≠ "" ∧ job.id ≠ ""
  · obtain ⟨hrunning, hcpus, hid⟩ := hon
    obtain ⟨hparse, hne⟩ := hrun.block job hmem hrunning
    have hprocs : ∀ p ∈ found t₀ job, p ∈ t₀.procs := by
      intro p hp
      rw [found, if_pos ⟨hrunning, hcpus, hid⟩] at hp
      exact (List.mem_filter.mp hp).1
    obtain ⟨w, hw, hsweep⟩ := sweep_repin_eq hshows hprocs hparse hne
    rw [← enforcePin_eq hrun hshows hmem hrunning hcpus hid] at hsweep
    have hbody : enforceJob i s =
        tryExcept (enforcePin job) ExcClass.isOSError (fun _ => pure false) s := by
      rw [hturn]
      exact congrFun (if_pos ⟨hrunning, hcpus⟩) s
    refine ⟨w, hw, ?_⟩
    rw [hbody]
    by_cases hall : (found t₀ job).all Process.readable = true
    · rw [if_pos hall] at hsweep ⊢
      obtain ⟨b, hsweep⟩ := hsweep
      exact ⟨b, by simp only [tryExcept, hsweep]⟩
    · rw [if_neg hall] at hsweep ⊢
      simp only [tryExcept, hsweep]
      rfl
  · have hnone : found t₀ job = [] := if_neg hon
    obtain ⟨b, hsame⟩ := hidle hon
    refine ⟨s.world, ?_, ?_⟩
    · simpa [hnone, confined] using hshows
    · rw [hnone, List.all_nil, if_pos rfl]
      exact ⟨b, hsame⟩

/-! ## What a pass does -/

/-- No turn before one raises. -/
def reached (t : ProcTable) (jobs : List Job) (i : ℕ) : Bool :=
  (jobs.take i).all fun job => (found t job).all Process.readable

/-- The pids a turn of the pass confines: none where the pass ended before it. -/
def turnMembers (t : ProcTable) (jobs : List Job) (i : ℕ) : List ℕ :=
  match jobs[i]? with
  | some job => if reached t jobs i then confined (found t job) else []
  | none => []

/-- The block it confines them to. -/
def turnBlock (jobs : List Job) (i : ℕ) : Finset ℤ :=
  (jobs[i]?.map blockOf).getD ∅

theorem reached_succ {t : ProcTable} {jobs : List Job} {i : ℕ} (hjob : jobs[i]? = some job) :
    reached t jobs (i + 1) = (reached t jobs i && (found t job).all Process.readable) := by
  unfold reached
  rw [List.take_add_one, hjob, Option.toList_some, List.all_append, List.all_cons, List.all_nil,
    Bool.and_true]

/-- The first turns of a pass are turns of confinement. -/
theorem enforcePins_passes (hrun : TmuxRun s.jobs) (hshows : Shows t₀ place s.world) {i : ℕ}
    (hi : i ≤ s.jobs.length) :
    ∃ w, Shows t₀ (Confine.after (turnBlock s.jobs) (turnMembers t₀ s.jobs) place i) w ∧
      if reached t₀ s.jobs i then
        ∃ b, sweep enforceJob (List.range i) s = .ok b { s with world := w }
      else sweep enforceJob (List.range i) s =
        .error ProcTable.undecodable { s with world := w } := by
  induction i with
  | zero => exact ⟨s.world, hshows, false, rfl⟩
  | succ i ih =>
      obtain ⟨w, hw, hprefix⟩ := ih (Nat.le_of_succ_le hi)
      obtain ⟨job, hjob⟩ : ∃ job, s.jobs[i]? = some job := ⟨s.jobs[i], List.getElem?_eq_getElem hi⟩
      have hblock : turnBlock s.jobs i = blockOf job := by simp [turnBlock, hjob]
      rw [List.range_succ, reached_succ hjob]
      cases hreached : reached t₀ s.jobs i with
      | false =>
          have hmembers : turnMembers t₀ s.jobs i = [] := by simp [turnMembers, hjob, hreached]
          rw [hreached, if_neg (by decide)] at hprefix
          refine ⟨w, ?_, ?_⟩
          · rwa [Confine.after, hmembers, confine_nil]
          · rw [Bool.false_and, if_neg (by decide)]
            exact sweep_append_of_error hprefix
      | true =>
          have hmembers : turnMembers t₀ s.jobs i = confined (found t₀ job) := by
            simp [turnMembers, hjob, hreached]
          rw [hreached, if_pos rfl] at hprefix
          obtain ⟨b, hprefix⟩ := hprefix
          obtain ⟨w', hw', hturn⟩ := @enforceJob_eq t₀ _ { s with world := w } job hrun hw i hjob
          refine ⟨w', ?_, ?_⟩
          · rwa [Confine.after, hmembers, hblock]
          · rw [Bool.true_and, sweep_append hprefix]
            by_cases hall : (found t₀ job).all Process.readable = true
            · rw [if_pos hall] at hturn ⊢
              obtain ⟨b', hturn⟩ := hturn
              refine ⟨b || (b' || false), ?_⟩
              rw [sweep, sweep, bind_assoc, bind_of_ok hturn]
              rfl
            · rw [if_neg hall] at hturn ⊢
              rw [sweep, bind_assoc]
              exact bind_of_error hturn

end Turns

/-! ## Whose processes are pinned -/

/-- A program ends in a state, with a result or an exception. -/
def Ends {α : Type} (m : M ProcTable α) (s s' : Sys ProcTable) : Prop :=
  (∃ a, m s = .ok a s') ∨ ∃ e, m s = .error e s'

/-- The turn at an index of the pass from a state. -/
structure PinTurn (s : Sys ProcTable) (i : ℕ) (s₁ s₂ : Sys ProcTable) : Prop where
  before : ∃ b, sweep enforceJob (List.range i) s = .ok b s₁
  turn : Ends (enforceJob i) s₁ s₂

/-- Pin enforcement keeps to the processes of the job it is made for; `owner` says which job a
pid belongs to. -/
structure PinsStayHome (owner : ℕ → Option String) (s : Sys ProcTable) : Prop where
  /-- The turn of a job changes no process of another job and none of no job. -/
  frame : ∀ (i : ℕ) (job : Job) (s₁ s₂ : Sys ProcTable), s.jobs[i]? = some job → PinTurn s i s₁ s₂ →
    ∀ p ∈ s₁.world.procs, p ∉ s₂.world.procs → owner p.pid = some job.id
  /-- A process in the block of its job is left alone by the pass. -/
  left : ∀ s' : Sys ProcTable, Ends enforcePins s s' → ∀ job ∈ s.jobs, job.status = .running →
    ∀ p ∈ s.world.procs, owner p.pid = some job.id → p.cpus ⊆ blockOf job → p ∈ s'.world.procs
  /-- A second pass changes nothing. -/
  again : ∀ s' : Sys ProcTable, Ends enforcePins s s' → ∀ (i : ℕ) (s₁ s₂ : Sys ProcTable),
    i < s.jobs.length → PinTurn s' i s₁ s₂ → s₂.world.procs = s₁.world.procs

/-- A process that the turn of a job confines without being the job's has its affinity in the
job's block, and no turn of its own job confines it. -/
def StrangersFit (owner : ℕ → Option String) (s : Sys ProcTable) : Prop :=
  ∀ (i : ℕ) (job : Job), s.jobs[i]? = some job → ∀ p ∈ s.world.procs,
    p.pid ∈ turnMembers s.world s.jobs i → owner p.pid ≠ some job.id →
      p.cpus ⊆ blockOf job ∧ ∀ (j : ℕ) (other : Job), s.jobs[j]? = some other →
        p.pid ∈ turnMembers s.world s.jobs j → owner p.pid ≠ some other.id

/-- The affinities of a table. -/
def affinity (t : ProcTable) (pid : ℕ) : Finset ℤ :=
  ((t.withPid pid).map Process.cpus).getD {0}

theorem affinity_eq {t : ProcTable} {p : Process} (hp : p ∈ t.procs) : affinity t p.pid = p.cpus := by
  simp [affinity, ProcTable.withPid_eq hp]

theorem affinity_nonempty (t : ProcTable) (pid : ℕ) : (affinity t pid).Nonempty := by
  unfold affinity
  cases hfound : t.withPid pid with
  | none => exact Finset.singleton_nonempty 0
  | some p =>
      have hp : p ∈ t.procs := List.mem_of_find?_eq_some hfound
      exact Finset.nonempty_iff_ne_empty.mpr (t.cpus_nonempty p hp)

namespace Shows

variable {t₀ t t' : ProcTable} {place place' : ℕ → Finset ℤ} {p : Process}

theorem refl (t : ProcTable) : Shows t (affinity t) t where
  procs := by
    refine (List.map_id'' (fun _ => rfl) t.procs).symm.trans (List.map_congr_left fun p hp => ?_)
    rw [affinity_eq hp]
    rfl
  search := rfl

/-- A process of one table is one of another if its affinity is the same there. -/
theorem mem_iff (h' : Shows t₀ place' t') (hp : p ∈ t₀.procs) :
    p.setCpus (place p.pid) ∈ t'.procs ↔ place' p.pid = place p.pid := by
  rw [h'.procs, List.mem_map]
  constructor
  · rintro ⟨q, hq, heq⟩
    have hpid := congrArg Process.pid heq
    have hcpus := congrArg Process.cpus heq
    have hsame : q = p := ProcTable.eq_of_pid hq hp hpid
    subst hsame
    exact hcpus
  · exact fun hsame => ⟨p, hp, by rw [hsame]⟩

theorem procs_eq_iff (h : Shows t₀ place t) (h' : Shows t₀ place' t') :
    t'.procs = t.procs ↔ ∀ p ∈ t₀.procs, place' p.pid = place p.pid := by
  constructor
  · intro hsame p hp
    have hmem := h.mem hp
    rw [← hsame] at hmem
    exact (h'.mem_iff hp).mp hmem
  · intro hsame
    rw [h.procs, h'.procs]
    exact List.map_congr_left fun p hp => by rw [hsame p hp]

end Shows

section Owners

variable {owner : ℕ → Option String} {s : Sys ProcTable}

/-- The turn of a job is the own turn of its processes. -/
def OwnTurn (owner : ℕ → Option String) (jobs : List Job) (i pid : ℕ) : Prop :=
  ∃ job, jobs[i]? = some job ∧ job.status = .running ∧ owner pid = some job.id

/-- What confines a process is the turn of a running job that was reached. -/
theorem of_mem_turnMembers {t : ProcTable} {jobs : List Job} {i pid : ℕ}
    (h : pid ∈ turnMembers t jobs i) : ∃ job, jobs[i]? = some job ∧ job.status = .running ∧
      reached t jobs i = true ∧ ∃ p ∈ t.procs, p.pid = pid := by
  unfold turnMembers at h
  split at h
  · rename_i job hjob
    split at h
    · rename_i hreached
      rw [confined, List.mem_map] at h
      obtain ⟨p, hp, hpid⟩ := h
      have hfound : p ∈ found t job :=
        (List.takeWhile_sublist _).mem (List.mem_filter.mp hp).1
      unfold found at hfound
      split at hfound
      · rename_i hon
        exact ⟨job, hjob, hon.1, hreached, p, (List.mem_filter.mp hfound).1, hpid⟩
      · cases hfound
    · cases h
  · cases h

theorem turnBlock_eq {jobs : List Job} {i : ℕ} {job : Job} (hjob : jobs[i]? = some job) :
    turnBlock jobs i = blockOf job := by
  simp [turnBlock, hjob]

/-- Running jobs at different places have different ids and disjoint blocks. -/
theorem TmuxRun.apart_of_ne {jobs : List Job} (h : TmuxRun jobs) {i j : ℕ} {a b : Job}
    (ha : jobs[i]? = some a) (hb : jobs[j]? = some b) (hij : i ≠ j) (hra : a.status = .running)
    (hrb : b.status = .running) : a.id ≠ b.id ∧ Disjoint (blockOf a) (blockOf b) := by
  obtain ⟨hi, rfl⟩ := List.getElem?_eq_some_iff.mp ha
  obtain ⟨hj, rfl⟩ := List.getElem?_eq_some_iff.mp hb
  have hpair := List.pairwise_iff_getElem.mp h.apart
  rcases lt_or_gt_of_ne hij with hlt | hgt
  · exact hpair i j hi hj hlt hra hrb
  · obtain ⟨hid, hblocks⟩ := hpair j i hj hi hgt hrb hra
    exact ⟨hid.symm, hblocks.symm⟩

theorem ends_of_ok {α : Type} {m : M ProcTable α} {a : α} {t s' : Sys ProcTable} (h : m s = .ok a t) :
    Ends m s s' ↔ s' = t := by
  constructor
  · rintro (⟨b, hok⟩ | ⟨e, herror⟩)
    · rw [h, EStateM.Result.ok.injEq] at hok
      exact hok.2.symm
    · rw [h] at herror
      cases herror
  · rintro rfl
    exact .inl ⟨a, h⟩

theorem ends_of_error {α : Type} {m : M ProcTable α} {e : Exc} {t s' : Sys ProcTable}
    (h : m s = .error e t) : Ends m s s' ↔ s' = t := by
  constructor
  · rintro (⟨b, hok⟩ | ⟨e', herror⟩)
    · rw [h] at hok
      cases hok
    · rw [h, EStateM.Result.error.injEq] at herror
      exact herror.2.symm
  · rintro rfl
    exact .inr ⟨e, h⟩

/-- What a pass ends in. -/
theorem enforcePins_shows {t₀ : ProcTable} {place : ℕ → Finset ℤ} (hrun : TmuxRun s.jobs)
    (hshows : Shows t₀ place s.world) :
    ∃ w, Shows t₀ (Confine.after (turnBlock s.jobs) (turnMembers t₀ s.jobs) place s.jobs.length) w ∧
      ∀ s', Ends enforcePins s s' ↔ s' = { s with world := w } := by
  obtain ⟨w, hw, hpass⟩ := enforcePins_passes hrun hshows le_rfl
  have hpins : enforcePins s =
      (do
        let _ ← sweep enforceJob (List.range s.jobs.length)
        pure () : M ProcTable Unit) s := rfl
  refine ⟨w, hw, fun s' => ?_⟩
  split at hpass
  · obtain ⟨b, hsweep⟩ := hpass
    exact @ends_of_ok s _ enforcePins () _ _ (by rw [hpins, bind_of_ok hsweep]; rfl)
  · exact ends_of_error (by rw [hpins]; exact bind_of_error hpass)

/-- What a turn of a pass starts from and ends in. -/
theorem PinTurn.shows {t₀ : ProcTable} {place : ℕ → Finset ℤ} (hrun : TmuxRun s.jobs)
    (hshows : Shows t₀ place s.world) {i : ℕ} (hi : i < s.jobs.length) {s₁ s₂ : Sys ProcTable}
    (h : PinTurn s i s₁ s₂) :
    Shows t₀ (Confine.after (turnBlock s.jobs) (turnMembers t₀ s.jobs) place i) s₁.world ∧
      Shows t₀ (Confine.after (turnBlock s.jobs) (turnMembers t₀ s.jobs) place (i + 1)) s₂.world := by
  obtain ⟨job, hjob⟩ : ∃ job, s.jobs[i]? = some job := ⟨s.jobs[i], List.getElem?_eq_getElem hi⟩
  obtain ⟨w, hw, hpass⟩ := enforcePins_passes hrun hshows hi.le
  obtain ⟨b, hbefore⟩ := h.before
  split at hpass
  · rename_i hreached
    obtain ⟨b', hpass⟩ := hpass
    rw [hpass, EStateM.Result.ok.injEq] at hbefore
    obtain ⟨-, rfl⟩ := hbefore
    have hmembers : turnMembers t₀ s.jobs i = confined (found t₀ job) := by
      simp [turnMembers, hjob, hreached]
    obtain ⟨w', hw', hturn⟩ := @enforceJob_eq t₀ _ { s with world := w } job hrun hw i hjob
    have hends : s₂ = { s with world := w' } := by
      split at hturn
      · obtain ⟨b'', hturn⟩ := hturn
        exact (ends_of_ok hturn).mp h.turn
      · exact (ends_of_error hturn).mp h.turn
    subst hends
    refine ⟨hw, ?_⟩
    rwa [Confine.after, hmembers, turnBlock_eq hjob]
  · rw [hpass] at hbefore
    cases hbefore

/-- A turn that is reached takes place. -/
theorem exists_pinTurn {t₀ : ProcTable} {place : ℕ → Finset ℤ} (hrun : TmuxRun s.jobs)
    (hshows : Shows t₀ place s.world) {i : ℕ} (hi : i < s.jobs.length)
    (hreached : reached t₀ s.jobs i = true) : ∃ s₁ s₂, PinTurn s i s₁ s₂ := by
  obtain ⟨job, hjob⟩ : ∃ job, s.jobs[i]? = some job := ⟨s.jobs[i], List.getElem?_eq_getElem hi⟩
  obtain ⟨w, hw, hpass⟩ := enforcePins_passes hrun hshows hi.le
  rw [hreached, if_pos rfl] at hpass
  obtain ⟨w', -, hturn⟩ := @enforceJob_eq t₀ _ { s with world := w } job hrun hw i hjob
  refine ⟨{ s with world := w }, { s with world := w' }, hpass, ?_⟩
  split at hturn
  · obtain ⟨b, hturn⟩ := hturn
    exact (ends_of_ok hturn).mpr rfl
  · exact (ends_of_error hturn).mpr rfl

theorem strangersFit_iff : StrangersFit owner s ↔
    KeepsOwn (turnBlock s.jobs) (turnMembers s.world s.jobs) (OwnTurn owner s.jobs)
      (affinity s.world) s.jobs.length := by
  constructor
  · intro h i _ pid hmem hforeign
    obtain ⟨job, hjob, hrunning, -, p, hp, rfl⟩ := of_mem_turnMembers hmem
    have howner : owner p.pid ≠ some job.id := fun hown => hforeign ⟨job, hjob, hrunning, hown⟩
    obtain ⟨hinside, hnone⟩ := h i job hjob p hp hmem howner
    rw [affinity_eq hp, turnBlock_eq hjob]
    refine ⟨hinside, fun j _ hmem' hown => ?_⟩
    obtain ⟨other, hother, -, hown⟩ := hown
    exact hnone j other hother hmem' hown
  · intro h i job hjob p hp hmem hforeign
    have hi : i < s.jobs.length := (List.getElem?_eq_some_iff.mp hjob).1
    have hnot : ¬ OwnTurn owner s.jobs i p.pid := by
      rintro ⟨job', hjob', -, hown⟩
      rw [hjob, Option.some.injEq] at hjob'
      exact hforeign (hjob' ▸ hown)
    obtain ⟨hinside, hnone⟩ := h i hi p.pid hmem hnot
    rw [affinity_eq hp, turnBlock_eq hjob] at hinside
    refine ⟨hinside, fun j other hother hmem' hown => ?_⟩
    obtain ⟨other', hother', hrunning, -⟩ := of_mem_turnMembers hmem'
    rw [hother, Option.some.injEq] at hother'
    subst hother'
    exact hnone j (List.getElem?_eq_some_iff.mp hother).1 hmem' ⟨other, hother, hrunning, hown⟩

/-- The frame of the turns is that of the turns of confinement. -/
theorem movesOwn_of_frame (hrun : TmuxRun s.jobs) (h : PinsStayHome owner s) :
    MovesOwn (turnBlock s.jobs) (turnMembers s.world s.jobs) (OwnTurn owner s.jobs)
      (affinity s.world) s.jobs.length := by
  intro i hi pid hmoved
  have hmem : pid ∈ turnMembers s.world s.jobs i := by
    by_contra hnot
    exact hmoved (confine_of_not_mem hnot)
  obtain ⟨job, hjob, hrunning, hreached, p, hp, rfl⟩ := of_mem_turnMembers hmem
  obtain ⟨s₁, s₂, hturn⟩ := exists_pinTurn hrun (Shows.refl s.world) hi hreached
  obtain ⟨hbefore, hafter⟩ := hturn.shows hrun (Shows.refl s.world) hi
  have hown := h.frame i job s₁ s₂ hjob hturn _ (hbefore.mem hp) fun hsame =>
    hmoved ((hafter.mem_iff hp).mp hsame)
  exact ⟨job, hjob, hrunning, hown⟩

/-- Where a second pass changes nothing the first has confined everything. -/
theorem settled_of_again (hrun : TmuxRun s.jobs) (h : PinsStayHome owner s) :
    ∀ i < s.jobs.length, ∀ pid ∈ turnMembers s.world s.jobs i,
      Confine.after (turnBlock s.jobs) (turnMembers s.world s.jobs) (affinity s.world)
        s.jobs.length pid ⊆ turnBlock s.jobs i := by
  intro i hi pid hmem
  obtain ⟨w, hw, hends⟩ := enforcePins_shows hrun (Shows.refl s.world)
  obtain ⟨job, hjob, -, hreached, p, hp, rfl⟩ := of_mem_turnMembers hmem
  set final := Confine.after (turnBlock s.jobs) (turnMembers s.world s.jobs) (affinity s.world)
    s.jobs.length with hfinal
  have hsecond : ∀ k < s.jobs.length, reached s.world s.jobs k = true →
      ∀ q ∈ s.world.procs,
        Confine.after (turnBlock s.jobs) (turnMembers s.world s.jobs) final (k + 1) q.pid =
          Confine.after (turnBlock s.jobs) (turnMembers s.world s.jobs) final k q.pid := by
    intro k hk hreached' q hq
    obtain ⟨s₁, s₂, hturn⟩ := @exists_pinTurn { s with world := w } _ _ hrun hw k hk hreached'
    obtain ⟨hbefore, hafter⟩ := @PinTurn.shows { s with world := w } _ _ hrun hw k hk s₁ s₂ hturn
    have hsame := h.again { s with world := w } ((hends _).mpr rfl) k s₁ s₂ hk hturn
    exact (hbefore.procs_eq_iff hafter).mp hsame q hq
  -- no turn up to this one has moved the process
  have hstill : ∀ k ≤ i,
      Confine.after (turnBlock s.jobs) (turnMembers s.world s.jobs) final k p.pid = final p.pid := by
    intro k hk
    induction k with
    | zero => rfl
    | succ k ih =>
        have hreached' : reached s.world s.jobs k = true := by
          rw [reached, List.all_eq_true] at hreached ⊢
          refine fun other hother => hreached other ?_
          exact (List.take_subset_take_left s.jobs (Nat.le_of_succ_le hk)) hother
        rw [hsecond k (Nat.lt_of_succ_le (hk.trans hi.le)) hreached' p hp]
        exact ih (Nat.le_of_succ_le hk)
  have hstays := hsecond i hi hreached p hp
  rw [hstill i le_rfl] at hstays
  exact hstays ▸ confine_of_mem hmem

/-- The turns of different running jobs have disjoint blocks, and those with members have cores. -/
theorem TmuxRun.turnBlock_nonempty {t : ProcTable} {jobs : List Job} (hrun : TmuxRun jobs) :
    ∀ i < jobs.length, turnMembers t jobs i ≠ [] → (turnBlock jobs i).Nonempty := by
  intro i _ hne
  obtain ⟨pid, hmem⟩ := List.exists_mem_of_ne_nil _ hne
  obtain ⟨job, hjob, hrunning, -⟩ := of_mem_turnMembers hmem
  rw [turnBlock_eq hjob]
  exact Finset.nonempty_iff_ne_empty.mpr (hrun.block job (List.mem_of_getElem? hjob) hrunning).2

theorem TmuxRun.turnBlock_disjoint {t : ProcTable} {jobs : List Job} (hrun : TmuxRun jobs) :
    ∀ i < jobs.length, ∀ j < jobs.length, i ≠ j → turnMembers t jobs i ≠ [] →
      turnMembers t jobs j ≠ [] → Disjoint (turnBlock jobs i) (turnBlock jobs j) := by
  intro i _ j _ hij hnei hnej
  obtain ⟨pid, hmem⟩ := List.exists_mem_of_ne_nil _ hnei
  obtain ⟨pid', hmem'⟩ := List.exists_mem_of_ne_nil _ hnej
  obtain ⟨job, hjob, hrunning, -⟩ := of_mem_turnMembers hmem
  obtain ⟨other, hother, hrunning', -⟩ := of_mem_turnMembers hmem'
  rw [turnBlock_eq hjob, turnBlock_eq hother]
  exact (hrun.apart_of_ne hjob hother hij hrunning hrunning').2

/-- A process has one own turn. -/
theorem TmuxRun.ownTurn_unique {jobs : List Job} (hrun : TmuxRun jobs) :
    ∀ i < jobs.length, ∀ j < jobs.length, ∀ pid, OwnTurn owner jobs i pid →
      OwnTurn owner jobs j pid → i = j := by
  rintro i - j - pid ⟨job, hjob, hrunning, hown⟩ ⟨other, hother, hrunning', hown'⟩
  by_contra hij
  refine (hrun.apart_of_ne hjob hother hij hrunning hrunning').1 ?_
  exact Option.some.inj (hown.symm.trans hown')

theorem PinsStayHome.strangersFit (hrun : TmuxRun s.jobs) (h : PinsStayHome owner s) :
    StrangersFit owner s :=
  strangersFit_iff.mpr (keepsOwn_of_movesOwn (affinity_nonempty s.world) hrun.turnBlock_nonempty
    hrun.turnBlock_disjoint (movesOwn_of_frame hrun h) (settled_of_again hrun h))

theorem StrangersFit.pinsStayHome (hrun : TmuxRun s.jobs) (h : StrangersFit owner s) :
    PinsStayHome owner s := by
  have hkeeps := strangersFit_iff.mp h
  have hmoves := hkeeps.movesOwn
  have hsettled := hkeeps.settled hrun.ownTurn_unique
  obtain ⟨w, hw, hends⟩ := enforcePins_shows hrun (Shows.refl s.world)
  refine ⟨?_, ?_, ?_⟩
  · intro i job s₁ s₂ hjob hturn p hp hchanged
    have hi : i < s.jobs.length := (List.getElem?_eq_some_iff.mp hjob).1
    obtain ⟨hbefore, hafter⟩ := hturn.shows hrun (Shows.refl s.world) hi
    rw [hbefore.procs, List.mem_map] at hp
    obtain ⟨q, hq, rfl⟩ := hp
    rw [hafter.mem_iff hq] at hchanged
    obtain ⟨job', hjob', -, hown⟩ := hmoves i hi q.pid hchanged
    rw [hjob, Option.some.injEq] at hjob'
    exact hjob' ▸ hown
  · intro s' hs' job hjob hrunning p hp hown hinside
    rw [(hends s').mp hs']
    have hunmoved : p.setCpus (affinity s.world p.pid) = p := by
      rw [affinity_eq hp]
      rfl
    have hmem : p.setCpus (affinity s.world p.pid) ∈ w.procs ↔ _ := hw.mem_iff hp
    rw [hunmoved] at hmem
    refine hmem.mpr (after_of_own_subset hmoves le_rfl fun j _ hownj => ?_)
    -- the one turn of its own is the turn of the job whose block it is in
    obtain ⟨other, hother, hrunning', hown'⟩ := hownj
    obtain ⟨i, hi⟩ := List.mem_iff_getElem?.mp hjob
    have hij : i = j := by
      by_contra hij
      refine (hrun.apart_of_ne hi hother hij hrunning hrunning').1 ?_
      exact Option.some.inj (hown.symm.trans hown')
    subst hij
    rw [turnBlock_eq hi, affinity_eq hp]
    exact hinside
  · intro s' hs' i s₁ s₂ hi hturn
    rw [(hends s').mp hs'] at hturn
    obtain ⟨hbefore, hafter⟩ := @PinTurn.shows { s with world := w } _ _ hrun hw i hi s₁ s₂ hturn
    refine (hbefore.procs_eq_iff hafter).mpr fun p _ => ?_
    have hstill : ∀ k ≤ s.jobs.length, Confine.after (turnBlock s.jobs)
        (turnMembers s.world s.jobs) (Confine.after (turnBlock s.jobs)
          (turnMembers s.world s.jobs) (affinity s.world) s.jobs.length) k =
        Confine.after (turnBlock s.jobs) (turnMembers s.world s.jobs) (affinity s.world)
          s.jobs.length := fun k hk =>
      after_of_settled fun j hj => hsettled j (hj.trans_le hk)
    rw [hstill (i + 1) hi, hstill i hi.le]

/-- Pin enforcement keeps to its own processes exactly where strangers fit. -/
theorem pins_stay_home_iff (owner : ℕ → Option String) (s : Sys ProcTable) (hrun : TmuxRun s.jobs) :
    PinsStayHome owner s ↔ StrangersFit owner s :=
  ⟨fun h => h.strangersFit hrun, fun h => h.pinsStayHome hrun⟩

end Owners

/-- A job with a session and two cores. -/
def pinnedJob (id cpuList : String) : Job :=
  { id := id, command := "true", status := .running, session := tmuxSession (sessionName id),
    cpuList := cpuList }

theorem running_letter : 'R'.isAlpha = true :=
  rfl

theorem no_statusHead : ∀ line ∈ ([] : List (List Char)),
    '\n' ∉ line ∧ "Cpus_allowed_list:".toList.isPrefixOf line = false := by
  simp

theorem no_otherNames : ∀ name ∈ ([] : List String), isdigit name.toList = false := by
  simp

/-- A process that runs a program on some cores. -/
def programOn (pid : ℕ) (commandLine : String) (cpus : Finset ℤ) : Process :=
  { pid := pid, comm := "python", state := 'R', state_letter := running_letter, ppid := 1,
    pgrp := pid, statusHead_other := no_statusHead, commandLine := commandLine, cpus := cpus }

/-- Two jobs with two cores and a process each; the process of the first has left its cores. -/
def twoPins (first second : String) : Sys ProcTable where
  jobs := [pinnedJob first "0-1", pinnedJob second "2-3"]
  world :=
    { procs :=
        [programOn 100 ("python " ++ first ++ ".py") {0, 1, 2, 3},
          programOn 200 ("python " ++ second ++ ".py") {2, 3}]
      pids_nodup := by
        change [100, 200].Nodup
        decide
      cpus_nonempty := by simp [programOn]
      cpus_nonneg := by simp [programOn]
      otherNames_spec := no_otherNames
      search := fun pattern line => Text.occursIn pattern.toList line.toList }

/-- Whose the processes are. -/
def twoOwners (first second : String) (pid : ℕ) : Option String :=
  if pid = 100 then some first else if pid = 200 then some second else none

theorem parse_pinnedJob {id cpuList : String} {cores : Finset ℤ}
    (h : parseCpuList cpuList = .ok cores) :
    parseCpuList (pinnedJob id cpuList).cpuList = .ok cores ∧
      blockOf (pinnedJob id cpuList) = cores :=
  have hparse : parseCpuList (pinnedJob id cpuList).cpuList = .ok cores := h
  ⟨hparse, blockOf_eq hparse⟩

theorem tmuxRun_twoPins {first second : String} (h : first ≠ second) :
    TmuxRun (twoPins first second).jobs := by
  obtain ⟨hlow, hlowBlock⟩ := @parse_pinnedJob first "0-1" {0, 1} (by decide +kernel)
  obtain ⟨hhigh, hhighBlock⟩ := @parse_pinnedJob second "2-3" {2, 3} (by decide +kernel)
  have hjobs : (twoPins first second).jobs = [pinnedJob first "0-1", pinnedJob second "2-3"] := rfl
  have hdisjoint : Disjoint ({0, 1} : Finset ℤ) {2, 3} := by decide
  rw [hjobs]
  refine ⟨?_, ?_, ?_⟩
  · intro job hjob _
    rw [List.mem_cons, List.mem_singleton] at hjob
    rcases hjob with rfl | rfl
    · exact ⟨_, tracked_tmuxSession _⟩
    · exact ⟨_, tracked_tmuxSession _⟩
  · intro job hjob _
    rw [List.mem_cons, List.mem_singleton] at hjob
    rcases hjob with rfl | rfl
    · rw [hlowBlock]
      exact ⟨hlow, by decide⟩
    · rw [hhighBlock]
      exact ⟨hhigh, by decide⟩
  · rw [List.pairwise_pair, hlowBlock, hhighBlock]
    exact fun _ _ => ⟨h, hdisjoint⟩

/-- Where neither id occurs in the command line of the other job, every turn keeps to its job. -/
theorem pins_stay_home_twoPins : PinsStayHome (twoOwners "fit" "scan") (twoPins "fit" "scan") := by
  refine (pins_stay_home_iff _ _ (tmuxRun_twoPins (by decide))).mpr ?_
  have hfirst : turnMembers (twoPins "fit" "scan").world (twoPins "fit" "scan").jobs 0 = [100] := by
    decide +kernel
  have hsecond : turnMembers (twoPins "fit" "scan").world (twoPins "fit" "scan").jobs 1 = [200] := by
    decide +kernel
  intro i job hjob p hp hmem hforeign
  match i with
  | 0 =>
      rw [hfirst, List.mem_singleton] at hmem
      cases hjob
      exact absurd (by rw [hmem]; rfl) hforeign
  | 1 =>
      rw [hsecond, List.mem_singleton] at hmem
      cases hjob
      exact absurd (by rw [hmem]; rfl) hforeign
  | n + 2 => cases hjob

/-- Where the id of one job begins that of the other, the process of the other is moved. -/
theorem pins_leave_home : TmuxRun (twoPins "dft1" "dft10").jobs ∧
    ¬ PinsStayHome (twoOwners "dft1" "dft10") (twoPins "dft1" "dft10") := by
  have hrun := @tmuxRun_twoPins "dft1" "dft10" (by decide)
  refine ⟨hrun, fun h => ?_⟩
  have hfirst : 200 ∈ turnMembers (twoPins "dft1" "dft10").world (twoPins "dft1" "dft10").jobs 0 := by
    decide +kernel
  obtain ⟨-, hblock⟩ := @parse_pinnedJob "dft1" "0-1" {0, 1} (by decide +kernel)
  have hfits := h.strangersFit hrun 0 _ rfl _ (List.mem_cons_of_mem _ (List.mem_cons_self ..)) hfirst
    (by decide)
  rw [hblock] at hfits
  exact absurd hfits.1 (by decide)

end Nodepilot
