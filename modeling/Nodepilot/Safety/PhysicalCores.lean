import Nodepilot.Machine.Trial
import Nodepilot.Model.Siblings
import Nodepilot.Safety.CpuText
import Nodepilot.Safety.Exclusivity
import Nodepilot.Safety.Placement
import Mathlib.Order.Partition.Finpartition

/-!
# Whole physical cores

The threads of a machine are partitioned into the physical cores.  Whatever order the
entries are read in, what `detect_smt_secondary` collects are the threads that are not
the lowest of their core: a core is counted with the first entry that shows it and passed
over afterwards, since its lowest thread has been seen (`detect_secondary`).

A placement that is not oversubscribed holds none of these threads.  So two threads held
by such jobs are the lowest of their cores, and of different ones (`whole_cores`).
-/

namespace Nodepilot

/-! ## The secondary threads -/

section Detection

variable {cpus : Finset ℤ} {P : Finpartition cpus}

/-- What is read of a machine with these physical cores: an entry that can be read and parsed
lists one of them, or nothing, and each of them has such an entry. -/
structure Lists (P : Finpartition cpus) (entries : List (Except Exc String)) : Prop where
  own : ∀ entry ∈ entries, ∀ group, readSiblings entry = .ok group → group = ∅ ∨ group ∈ P.parts
  unread : ∀ entry ∈ entries, ∀ e, entry = .error e → e.cls.isOSError = true ∨ e.cls = .valueError
  covered : ∀ group ∈ P.parts, ∃ entry ∈ entries, readSiblings entry = .ok group

/-- A thread that is not the lowest of its core. -/
def Secondary (P : Finpartition cpus) (c : ℤ) : Prop :=
  ∃ group ∈ P.parts, c ∈ group ∧ ¬ IsLeast (group : Set ℤ) c

/-- What is not read is an error the loop passes over. -/
theorem readSiblings_error {entry : Except Exc String} {e : Exc}
    (hentry : ∀ e, entry = .error e → e.cls.isOSError = true ∨ e.cls = .valueError)
    (h : readSiblings entry = .error e) : (e.cls.isOSError || e.cls == .valueError) = true := by
  rcases except_bind_eq_error.mp h with hread | ⟨text, -, hparse⟩
  · rcases hentry e hread with hos | hvalue
    · rw [hos, Bool.true_or]
    · simp [hvalue]
  · rw [parseCpuList_eq] at hparse
    simp [parseParts_error hparse]

/-- The cores counted so far are those seen: their threads, and the secondary ones of these. -/
structure Counted (P : Finpartition cpus) (counted : Set (Finset ℤ)) (seen secondary : Finset ℤ) :
    Prop where
  parts : ∀ group ∈ counted, group ∈ P.parts
  seen : ∀ c, c ∈ seen ↔ ∃ group ∈ counted, c ∈ group
  secondary : ∀ c, c ∈ secondary ↔ ∃ group ∈ counted, c ∈ group ∧ ¬ IsLeast (group : Set ℤ) c

/-- Whether the lowest thread of a core has been seen says whether the core was counted. -/
theorem Counted.mem_iff {counted : Set (Finset ℤ)} {seen secondary : Finset ℤ}
    (h : Counted P counted seen secondary) {group : Finset ℤ} (hgroup : group ∈ P.parts)
    (hne : group.Nonempty) : group.min' hne ∈ seen ↔ group ∈ counted := by
  rw [h.seen]
  constructor
  · rintro ⟨other, hother, hmem⟩
    rw [P.eq_of_mem_parts hgroup (h.parts other hother) (group.min'_mem hne) hmem]
    exact hother
  · intro hcounted
    exact ⟨group, hcounted, group.min'_mem hne⟩

/-- A core is counted. -/
theorem Counted.insert {counted : Set (Finset ℤ)} {seen secondary : Finset ℤ}
    (h : Counted P counted seen secondary) {group : Finset ℤ} (hgroup : group ∈ P.parts)
    (hne : group.Nonempty) : Counted P (insert group counted) (seen ∪ group)
      (secondary ∪ (group \ {group.min' hne})) where
  parts other hother := by
    rcases Set.mem_insert_iff.mp hother with rfl | hother
    · exact hgroup
    · exact h.parts other hother
  seen c := by
    rw [Finset.mem_union, h.seen, Set.exists_mem_insert, or_comm]
  secondary c := by
    have hleast : IsLeast (group : Set ℤ) c ↔ c = group.min' hne :=
      ⟨fun hc => hc.unique (group.isLeast_min' hne), fun hc => hc ▸ group.isLeast_min' hne⟩
    rw [Finset.mem_union, h.secondary, Set.exists_mem_insert, hleast, Finset.mem_sdiff,
      Finset.mem_singleton, or_comm]

/-- The loop counts the cores of the entries, each once. -/
theorem secondaryFrom_spec {entries : List (Except Exc String)}
    (hown : ∀ entry ∈ entries, ∀ group, readSiblings entry = .ok group →
      group = ∅ ∨ group ∈ P.parts)
    (hunread : ∀ entry ∈ entries, ∀ e, entry = .error e →
      e.cls.isOSError = true ∨ e.cls = .valueError)
    {counted : Set (Finset ℤ)} {seen secondary : Finset ℤ}
    (h : Counted P counted seen secondary) :
    ∃ final seen' result, secondaryFrom seen secondary entries = .ok result ∧
      Counted P final seen' result ∧ ∀ group ∈ P.parts, group ∈ final ↔
        group ∈ counted ∨ ∃ entry ∈ entries, readSiblings entry = .ok group := by
  induction entries generalizing counted seen secondary with
  | nil => exact ⟨counted, seen, secondary, rfl, h, fun group _ => by simp⟩
  | cons entry rest ih =>
      have hnext := @ih (fun other hother => hown other (List.mem_cons_of_mem _ hother))
        (fun other hother => hunread other (List.mem_cons_of_mem _ hother))
      -- an entry that adds nothing: what is counted with it is counted without it
      have hpass : (∀ group ∈ P.parts, readSiblings entry = .ok group → group ∈ counted) →
          secondaryFrom seen secondary (entry :: rest) = secondaryFrom seen secondary rest →
          ∃ final seen' result, secondaryFrom seen secondary (entry :: rest) = .ok result ∧
            Counted P final seen' result ∧ ∀ group ∈ P.parts, group ∈ final ↔
              group ∈ counted ∨ ∃ other ∈ entry :: rest, readSiblings other = .ok group := by
        intro hnothing hskip
        obtain ⟨final, seen', result, hrun, hcounted, hfinal⟩ := hnext h
        refine ⟨final, seen', result, hskip.trans hrun, hcounted, fun group hgroup => ?_⟩
        simp only [hfinal group hgroup, List.mem_cons, exists_eq_or_imp]
        have hkept := hnothing group hgroup
        tauto
      cases hread : readSiblings entry with
      | error e =>
          have hcaught := readSiblings_error (hunread entry (List.mem_cons_self ..)) hread
          refine hpass (fun group _ hgroup => ?_) ?_
          · rw [hread] at hgroup
            cases hgroup
          · rw [secondaryFrom, hread]
            exact if_pos hcaught
      | ok group =>
          by_cases hempty : group = ∅
          · refine hpass (fun other hother hgroup => ?_) ?_
            · rw [hread, Except.ok.injEq] at hgroup
              exact absurd (hgroup.symm.trans hempty) (P.ne_empty hother)
            · rw [secondaryFrom, hread]
              exact dif_pos hempty
          · have hgroup : group ∈ P.parts :=
              (hown entry (List.mem_cons_self ..) group hread).resolve_left hempty
            have hne : group.Nonempty := Finset.nonempty_iff_ne_empty.mpr hempty
            have hstep : secondaryFrom seen secondary (entry :: rest) =
                if group.min' hne ∈ seen then secondaryFrom seen secondary rest
                else secondaryFrom (seen ∪ group) (secondary ∪ (group \ {group.min' hne})) rest := by
              rw [secondaryFrom, hread]
              exact dif_neg hempty
            by_cases hseen : group.min' hne ∈ seen
            · refine hpass (fun other _ hother => ?_) ?_
              · rw [hread, Except.ok.injEq] at hother
                rw [← hother]
                exact (h.mem_iff hgroup hne).mp hseen
              · rw [hstep, if_pos hseen]
            · obtain ⟨final, seen', result, hrun, hcounted, hfinal⟩ := hnext (h.insert hgroup hne)
              refine ⟨final, seen', result, ?_, hcounted, fun other hother => ?_⟩
              · rw [hstep, if_neg hseen, hrun]
              · simp only [hfinal other hother, List.mem_cons, exists_eq_or_imp,
                  Set.mem_insert_iff, hread, Except.ok.injEq, @eq_comm _ other group]
                tauto

/-- What is detected are the threads that are not the lowest of their core, whatever order the
entries are in. -/
theorem detect_secondary {entries : List (Except Exc String)} (h : Lists P entries) :
    ∃ secondary, detectSmtSecondary (some entries) = .ok secondary ∧
      ∀ c, c ∈ secondary ↔ Secondary P c := by
  have hnone : Counted P ∅ ∅ ∅ := ⟨by simp, by simp, by simp⟩
  obtain ⟨final, seen, secondary, hrun, hcounted, hfinal⟩ :=
    secondaryFrom_spec h.own h.unread hnone
  refine ⟨secondary, hrun, fun c => ?_⟩
  rw [hcounted.secondary]
  constructor
  · rintro ⟨group, hgroup, hc⟩
    exact ⟨group, hcounted.parts group hgroup, hc⟩
  · rintro ⟨group, hgroup, hc⟩
    exact ⟨group, (hfinal group hgroup).mpr (.inr (h.covered group hgroup)), hc⟩

/-- Of two threads that are lowest in their cores, no core has both. -/
theorem eq_of_not_secondary {c d : ℤ} (hc : ¬ Secondary P c) (hd : ¬ Secondary P d)
    {group : Finset ℤ} (hgroup : group ∈ P.parts) (hcin : c ∈ group) (hdin : d ∈ group) : c = d := by
  have hleast : ∀ {e : ℤ}, ¬ Secondary P e → e ∈ group → IsLeast (group : Set ℤ) e := by
    intro e he hin
    by_contra hnot
    exact he ⟨group, hgroup, hin, hnot⟩
  exact (hleast hc hcin).unique (hleast hd hdin)

end Detection

/-! ## The placements of the running jobs -/

/-- A placement `allocate` has given for a job, as the job holds it. -/
structure PlacedAs (site : Site) (job : Job) (placement : Placement) : Prop where
  answer : ∃ occupied,
    allocate job.cores occupied site.numaNodes (allocateOptions site job) = .ok (some placement)
  cpuList : job.cpuList = placement.cpuList
  node : job.numaNode = placement.node

/-- Every running job holds a placement. -/
def AllPlaced (site : Site) (jobs : List Job) : Prop :=
  ∀ job ∈ jobs, job.status = .running → ∃ placement, PlacedAs site job placement

theorem AllPlaced.of_stop {site : Site} {jobs : List Job} {i : ℕ} {f : Job → Job}
    (h : AllPlaced site jobs) (hstop : ∀ job : Job, (f job).status ≠ .running) :
    AllPlaced site (jobs.modify i f) := by
  intro job hmem hrunning
  rcases mem_modify hmem with hold | ⟨old, -, rfl⟩
  · exact h job hold hrunning
  · exact absurd hrunning (hstop old)

/-- One turn keeps every running job on a placement. -/
theorem Turn.allPlaced {site : Site} {gated : Bool} {label : Label} {jobs jobs' : List Job}
    (hturn : Turn site gated label jobs jobs') (h : AllPlaced site jobs) :
    AllPlaced site jobs' := by
  cases hturn with
  | ask => exact h
  | save => exact h
  | spare => exact h
  | reap hjob hrunning hend =>
      refine h.of_stop fun job => ?_
      rcases hend with hend | hend <;> simp [hend]
  | skip => exact h.of_stop fun job => by simp
  | fail => exact h.of_stop fun job => by simp
  | kill => exact h.of_stop fun job => by simp
  | clear => exact h.of_stop fun job => by simp
  | launch hjob hpending hdeps hadmits hplaced =>
      intro other hmem hrunning
      rcases mem_modify hmem with hold | ⟨old, hold, rfl⟩
      · exact h other hold hrunning
      · rw [hjob] at hold
        cases hold
        obtain ⟨occupied, -, hanswer⟩ := hplaced
        exact ⟨_, ⟨occupied, hanswer⟩, rfl, rfl⟩

/-- A placement that is not oversubscribed holds no secondary thread. -/
theorem PlacedAs.not_secondary {site : Site} {job : Job} {placement : Placement}
    (h : PlacedAs site job placement) (hsingle : placement.smtOversubscribed = false) {c : ℤ}
    (hc : c ∈ blockOf job) : c ∉ site.smtSecondary := by
  obtain ⟨occupied, hanswer⟩ := h.answer
  by_cases hpos : 0 < job.cores
  · have hparse : ∀ entry ∈ site.numaNodes, ∃ cores, parseCpuList entry.2 = .ok cores := by
      rw [allocate, if_neg (not_le.mpr hpos)] at hanswer
      obtain ⟨found, hfound, -⟩ := except_bind_eq_ok.mp hanswer
      exact parse_of_candidates hfound
    have hfound := @exists_allocate _ occupied _ (allocateOptions site job) hpos hparse
    rcases hfound with ⟨hnone, -⟩ | ⟨best, nodeCores, block, hsome, hbest⟩
    · rw [hnone] at hanswer
      cases hanswer
    · rw [hsome] at hanswer
      cases hanswer
      have hblock : blockOf job = block := by
        apply blockOf_eq
        rw [h.cpuList]
        exact hbest.reads
      rw [hblock] at hc
      have hfree := hbest.primary hsingle hc
      exact (Finset.mem_sdiff.mp hfree).2
  · have hempty := allocate_of_nonpos (not_lt.mp hpos) hanswer
    rw [blockOf_of_empty (h.cpuList.trans hempty)] at hc
    exact absurd hc (Finset.notMem_empty c)

/-! ## Whole cores -/

variable {W : Type} [Host W]

/-- The threads detected are those that are not the lowest of their physical core; and in every
state of every run that uses them, every running job holds a placement, and no physical core has
two of the threads held by running jobs on placements that are not oversubscribed. -/
theorem whole_cores {cpus : Finset ℤ} (P : Finpartition cpus)
    (entries : List (Except Exc String)) (hentries : Lists P entries) :
    ∃ secondary, detectSmtSecondary (some entries) = .ok secondary ∧
      (∀ c, c ∈ secondary ↔ ∃ group ∈ P.parts, c ∈ group ∧ ¬ IsLeast (group : Set ℤ) c) ∧
      ∀ (site : Site) (s : Sys W), site.smtSecondary = secondary → FreshQueue site.queue →
        Reached site false s →
        (∀ job ∈ s.jobs, job.status = .running → ∃ placement, PlacedAs site job placement) ∧
        ∀ (i j : ℕ) (a b : Job) (placedA placedB : Placement), s.jobs[i]? = some a →
          s.jobs[j]? = some b → a.status = .running → b.status = .running →
          PlacedAs site a placedA → PlacedAs site b placedB →
          placedA.smtOversubscribed = false → placedB.smtOversubscribed = false →
          ∀ c ∈ blockOf a, ∀ d ∈ blockOf b, ∀ group ∈ P.parts, c ∈ group → d ∈ group →
            i = j ∧ c = d := by
  obtain ⟨secondary, hdetected, hmem⟩ := detect_secondary hentries
  refine ⟨secondary, hdetected, hmem, fun site s hsite hqueue hreached => ?_⟩
  have hidle : ∀ job ∈ site.queue, job.status ≠ .running := by
    intro job hjob hrunning
    rcases (hqueue job hjob).1 with hstatus | hstatus <;> rw [hrunning] at hstatus <;> cases hstatus
  have hplaced := hreached.jobs (J := AllPlaced site)
    (fun job hjob hrunning => absurd hrunning (hidle job hjob)) fun _ _ _ hturn => hturn.allPlaced
  have hexclusive := hreached.jobs (J := Exclusive site) hqueue.exclusive
    fun _ _ _ hturn => hturn.exclusive
  refine ⟨hplaced.1, ?_⟩
  intro i j a b placedA placedB ha hb harunning hbrunning hA hB hsingleA hsingleB c hc d hd group
    hgroup hcin hdin
  have hnot : ∀ {e : ℤ}, e ∉ site.smtSecondary → ¬ Secondary P e := by
    intro e he hsecondary
    rw [hsite] at he
    exact he ((hmem e).mpr hsecondary)
  have hsame : c = d := eq_of_not_secondary (hnot (hA.not_secondary hsingleA hc))
    (hnot (hB.not_secondary hsingleB hd)) hgroup hcin hdin
  refine ⟨?_, hsame⟩
  by_contra hne
  have hapart := hexclusive.1.disjoint i j a b hne ha hb harunning hbrunning
  rw [← hsame] at hd
  exact Finset.disjoint_left.mp hapart hc hd

/-! ## On the machine -/

/-- Two nodes of two cores with two threads each. -/
def fourCores : Finpartition ({0, 1, 2, 3, 4, 5, 6, 7} : Finset ℤ) where
  parts := {{0, 2}, {1, 3}, {4, 6}, {5, 7}}
  supIndep := by decide
  sup_parts := by decide
  bot_notMem := by decide

/-- What is read there: the entry of one thread is gone and one is malformed. -/
def fourCoresEntries : List (Except Exc String) :=
  [.ok "0,2\n", .ok "3-1\n", .ok "0,2\n", .ok "1,3\n", .error ⟨.osError, ""⟩, .ok "4,6\n", .ok "5,7\n",
    .ok "5,7\n"]

def threadedSite : Site :=
  { smallSite twoJobs smallConfig reserved_smallConfig with smtSecondary := {2, 3, 6, 7} }

theorem lists_fourCores : Lists fourCores fourCoresEntries := by
  have hreads : fourCoresEntries.map readSiblings = [.ok {0, 2},
      .error (valueError "inverted CPU range: '3-1'"), .ok {0, 2}, .ok {1, 3},
      .error ⟨.osError, ""⟩, .ok {4, 6}, .ok {5, 7}, .ok {5, 7}] := by
    decide +kernel
  refine ⟨fun entry hentry group hgroup => .inr ?_, fun entry hentry e he => ?_,
    fun group hgroup => ?_⟩
  · have hmem : Except.ok group ∈ fourCoresEntries.map readSiblings :=
      List.mem_map.mpr ⟨entry, hentry, hgroup⟩
    simp only [hreads, List.mem_cons, Except.ok.injEq, reduceCtorEq, List.not_mem_nil,
      or_false, false_or] at hmem
    rcases hmem with rfl | rfl | rfl | rfl | rfl | rfl <;> decide
  · subst he
    simp only [fourCoresEntries, List.mem_cons, Except.error.injEq, reduceCtorEq, List.not_mem_nil,
      or_false, false_or] at hentry
    rw [hentry]
    exact .inl rfl
  · have hmem : Except.ok group ∈ fourCoresEntries.map readSiblings := by
      rw [hreads]
      simp only [fourCores, Finset.mem_insert, Finset.mem_singleton] at hgroup
      rcases hgroup with rfl | rfl | rfl | rfl <;> simp
    obtain ⟨entry, hentry, hread⟩ := List.mem_map.mp hmem
    exact ⟨entry, hentry, hread⟩

/-- The first job runs on two whole cores, the second takes a sibling thread. -/
theorem whole_cores_threadedSite : ∃ s : Sys World,
    s.jobs.map Job.status = [.running, .running] ∧
    ∀ (i j : ℕ) (a b : Job) (placedA placedB : Placement), s.jobs[i]? = some a →
      s.jobs[j]? = some b → a.status = .running → b.status = .running →
      PlacedAs threadedSite a placedA → PlacedAs threadedSite b placedB →
      placedA.smtOversubscribed = false → placedB.smtOversubscribed = false →
      ∀ c ∈ blockOf a, ∀ d ∈ blockOf b, ∀ group ∈ fourCores.parts, c ∈ group → d ∈ group →
        i = j ∧ c = d := by
  obtain ⟨changed, s, htick, hends⟩ := of_returns
    (show returns (tick threadedSite (fresh threadedSite {})) (fun s =>
      s.jobs.map Job.status == [.running, .running]) = true by decide +kernel)
  rw [beq_iff_eq] at hends
  obtain ⟨secondary, hdetected, -, hcores⟩ :=
    whole_cores (W := World) fourCores fourCoresEntries lists_fourCores
  have hsecondary : detectSmtSecondary (some fourCoresEntries) = .ok threadedSite.smtSecondary := by
    decide +kernel
  rw [hsecondary, Except.ok.injEq] at hdetected
  exact ⟨s, hends, (hcores threadedSite s hdetected (by decide) (reached_of_tick htick)).2⟩

end Nodepilot
