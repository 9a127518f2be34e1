import Nodepilot.Safety.Draining

/-!
# Skip propagation

The passes of `_mark_dead_dependents` rewrite the job list while they read it, in the
order of the list.  Whatever that order and whatever the graph, they skip the waiting
jobs from which a path of waiting jobs leads to a dependency that can never be done
(`CannotRun`), and no others: a job is only skipped when such a path is there
(`Skipping.step`), and where no waiting job is blocked any more none is left at the
end of such a path (`Skipping.complete`).
-/

namespace Nodepilot

open Obeys Relation

/-! ## Jobs that cannot run -/

/-- The first job waits for the second, which waits itself. -/
def Needs (jobs : List Job) (a b : Job) : Prop :=
  b ∈ jobs ∧ b.status = .pending ∧ b.id ∈ a.dependsOn

/-- A path of waiting jobs leads from the job to a dependency that is unknown, or that has
failed or been skipped. -/
def CannotRun (jobs : List Job) (job : Job) : Prop :=
  job.status = .pending ∧ ∃ last, ReflTransGen (Needs jobs) job last ∧
    ∃ dep ∈ last.dependsOn, Doomed jobs dep

theorem CannotRun.of_doomed {jobs : List Job} {job : Job} {dep : String}
    (hpending : job.status = .pending) (hdep : dep ∈ job.dependsOn) (h : Doomed jobs dep) :
    CannotRun jobs job :=
  ⟨hpending, job, .refl, dep, hdep, h⟩

theorem CannotRun.of_needs {jobs : List Job} {a b : Job} (hpending : a.status = .pending)
    (hneeds : Needs jobs a b) (h : CannotRun jobs b) : CannotRun jobs a := by
  obtain ⟨-, last, hpath, hdoomed⟩ := h
  exact ⟨hpending, last, .head hneeds hpath, hdoomed⟩

/-- Which jobs cannot run does not depend on the order of the list. -/
theorem CannotRun.perm {jobs jobs' : List Job} (hperm : jobs'.Perm jobs) {job : Job}
    (h : CannotRun jobs job) : CannotRun jobs' job := by
  obtain ⟨hpending, last, hpath, dep, hdep, hdoomed⟩ := h
  have hneeds : ∀ a b, Needs jobs a b → Needs jobs' a b :=
    fun a b hab => ⟨hperm.mem_iff.mpr hab.1, hab.2⟩
  refine ⟨hpending, last, ReflTransGen.mono hneeds _ _ hpath, dep, hdep, ?_⟩
  rcases hdoomed with hunknown | ⟨upstream, hmem, hdead⟩
  · exact .inl fun other hother => hunknown other (hperm.mem_iff.mp hother)
  · exact .inr ⟨upstream, hperm.mem_iff.mpr hmem, hdead⟩

/-! ## What the passes have done so far -/

/-- Some jobs that cannot run have been skipped, and nothing else has happened. -/
structure Skipping (jobs jobs' : List Job) : Prop where
  progress : Progress jobs jobs'
  only : ∀ (i : ℕ) (a b : Job), jobs[i]? = some a → jobs'[i]? = some b →
    b = a ∨ (b.status = .skipped ∧ CannotRun jobs a)

namespace Skipping

variable {jobs jobs' : List Job}

theorem refl (jobs : List Job) : Skipping jobs jobs where
  progress := .refl jobs
  only i a b ha hb := by
    rw [ha] at hb
    cases hb
    exact .inl rfl

/-- A dependency that is dead by now was dead before, or is a job that could not run. -/
theorem doomed_back (h : Skipping jobs jobs') {dep : String} (hdoomed : Doomed jobs' dep) :
    Doomed jobs dep ∨ ∃ upstream ∈ jobs, upstream.id = dep ∧ CannotRun jobs upstream := by
  rcases hdoomed with hunknown | ⟨upstream, hmem, hid, hdead⟩
  · left
    left
    intro other hother heq
    have hmap : dep ∈ jobs'.map Job.id := by
      rw [h.progress.ids]
      exact List.mem_map.mpr ⟨other, hother, heq⟩
    obtain ⟨later, hlater, hsame⟩ := List.mem_map.mp hmap
    exact hunknown later hlater hsame
  · obtain ⟨m, hm⟩ := List.mem_iff_getElem?.mp hmem
    obtain ⟨old, hold, hsame, -⟩ := h.progress.back hm
    rcases h.only m old upstream hold hm with rfl | ⟨-, hcannot⟩
    · exact .inl (.inr ⟨upstream, List.mem_of_getElem? hold, hid, hdead⟩)
    · exact .inr ⟨old, List.mem_of_getElem? hold, hsame.id.trans hid, hcannot⟩

/-- A turn of a pass skips a job that cannot run. -/
theorem step {site : Site} {gated : Bool} {label : Label} {jobs'' : List Job}
    (h : Skipping jobs jobs') (hlabel : label.inSkip = true)
    (hturn : Turn site gated label jobs' jobs'') : Skipping jobs jobs'' := by
  refine ⟨h.progress.trans hturn.progress, ?_⟩
  cases hturn with
  | ask => exact h.only
  | @skip _ i job blocking now hjob hpending hblocker =>
      intro k a b ha hb
      rcases getElem?_modify_cases hb with ⟨-, hkept⟩ | ⟨old, hk, hold, rfl⟩
      · exact h.only k a b ha hkept
      · subst hk
        rw [hjob] at hold
        cases hold
        have hsame : job = a := by
          rcases h.only _ a job ha hjob with heq | ⟨hskipped, -⟩
          · exact heq
          · rw [hpending] at hskipped
            cases hskipped
        subst hsame
        right
        obtain ⟨dep, hdep, hdoomed⟩ := doomed_of_blocker hblocker
        refine ⟨rfl, ?_⟩
        rcases h.doomed_back hdoomed with hdoomed | ⟨upstream, hmem, hid, hcannot⟩
        · exact .of_doomed hpending hdep hdoomed
        · exact .of_needs hpending ⟨hmem, hcannot.1, hid ▸ hdep⟩ hcannot
  | _ => cases hlabel

/-- Where no waiting job is blocked any more, all that cannot run have been skipped. -/
theorem complete (h : Skipping jobs jobs') (hids : (jobs.map Job.id).Nodup)
    (hunblocked : Unblocked jobs') {a : Job} (hcannot : CannotRun jobs a) {i : ℕ} {b : Job}
    (ha : jobs[i]? = some a) (hb : jobs'[i]? = some b) : b.status = .skipped := by
  have hids' : (jobs'.map Job.id).Nodup := by rwa [h.progress.ids]
  -- a job with a dependency that is dead by now no longer waits
  have hblocked : ∀ (k : ℕ) (c d : Job) (dep : String), jobs[k]? = some c → c.status = .pending →
      jobs'[k]? = some d → dep ∈ c.dependsOn → Doomed jobs' dep → d.status = .skipped := by
    intro k c d dep hc hpending hd hdep hdoomed
    rcases h.only k c d hc hd with rfl | ⟨hskipped, -⟩
    · have hnone := hunblocked d (List.mem_of_getElem? hd) hpending
      exact absurd hdoomed (not_doomed_of_unblocked hids' hnone hdep)
    · exact hskipped
  obtain ⟨hpending, last, hpath, dep, hdep, hdoomed⟩ := hcannot
  -- from the end of the path back to its beginning
  induction hpath using ReflTransGen.head_induction_on generalizing i b with
  | refl => exact hblocked i last b dep ha hpending hb hdep (hdoomed.progress h.progress)
  | @head c d hneeds _ ih =>
      obtain ⟨hmem, hwaits, hneeded⟩ := hneeds
      obtain ⟨m, hm⟩ := List.mem_iff_getElem?.mp hmem
      obtain ⟨e, he, hsame, -⟩ := h.progress.each m d hm
      have hskipped : e.status = .skipped := ih hm he hwaits
      refine hblocked i c b d.id ha hpending hb hneeded (.inr ?_)
      exact ⟨e, List.mem_of_getElem? he, hsame.id.symm, .inr hskipped⟩

end Skipping

/-! ## The loop -/

section

variable {W : Type} [Host W] {s s' : Sys W} {b : Bool}

/-- `while True` of `_mark_dead_dependents`, without a bound on the passes. -/
inductive Passes : Sys W → Bool → Sys W → Prop
  | stop {s s' : Sys W} (h : sweep markJob (List.range s.jobs.length) s = .ok false s') :
      Passes s false s'
  | again {s s₁ s' : Sys W} {b : Bool}
      (h : sweep markJob (List.range s.jobs.length) s = .ok true s₁) (hrest : Passes s₁ b s') :
      Passes s true s'

/-- The bound on the passes is never reached. -/
theorem passes_of_markPasses (site : Site) {fuel : ℕ} (h : markPasses fuel s = .ok b s')
    (hfuel : waiting s.jobs < fuel) : Passes s b s' := by
  induction fuel generalizing s b with
  | zero => exact absurd hfuel (Nat.not_lt_zero _)
  | succ fuel ih =>
      obtain ⟨s₀, s₁, hget, h⟩ := bind_eq_ok.mp h
      cases hget
      obtain ⟨progressed, s₁, hsweep, h⟩ := bind_eq_ok.mp h
      cases progressed with
      | true =>
          obtain ⟨later, s₂, hrest, hpure⟩ := bind_eq_ok.mp h
          cases hpure
          have hfewer : waiting s₁.jobs < waiting s.jobs := (markSweep_serves site hsweep).2 rfl
          exact .again hsweep (ih hrest (by omega))
      | false =>
          cases h
          exact .stop hsweep

theorem passes_of_markDeadDependents (site : Site) (h : markDeadDependents s = .ok b s') :
    Passes s b s' := by
  obtain ⟨s₀, s₁, hget, h⟩ := bind_eq_ok.mp h
  cases hget
  have hle : waiting s.jobs ≤ s.jobs.length := List.countP_le_length
  exact passes_of_markPasses site h (by omega)

/-- Nothing but the end of the process stops a turn. -/
theorem markJob_eq_error {i : ℕ} {e : Exc} (h : markJob i s = .error e s') : e.cls = .died := by
  rcases bind_eq_error.mp h with h | ⟨s₀, s₁, hget, h⟩
  · cases h
  cases hget
  cases hjob : s.jobs[i]? with
  | none =>
      simp only [hjob] at h
      cases h
  | some job =>
      simp only [hjob] at h
      split at h
      · cases h
      cases hblocker : blocker s.jobs job.dependsOn with
      | none =>
          simp only [hblocker] at h
          cases h
      | some blocking =>
          simp only [hblocker] at h
          rcases bind_eq_error.mp h with h | ⟨⟨⟩, s₁, hset, h⟩
          · cases h
          rcases bind_eq_error.mp h with htime | ⟨now, s₂, -, h⟩
          · obtain ⟨w, hanswer, -⟩ := call_eq_error.mp htime
            rcases Host.raises_only _ _ _ _ hanswer with hdied | hraised
            · exact hdied
            · cases hraised
          · rcases bind_eq_error.mp h with h | ⟨⟨⟩, s₃, -, h⟩
            · cases h
            · cases h

theorem markSweep_eq_error {indices : List ℕ} {e : Exc} (h : sweep markJob indices s = .error e s') :
    e.cls = .died := by
  induction indices generalizing s with
  | nil => cases h
  | cons i rest ih =>
      rcases bind_eq_error.mp h with h | ⟨changed, s₁, -, h⟩
      · exact markJob_eq_error h
      · rcases bind_eq_error.mp h with h | ⟨later, s₂, -, h⟩
        · exact ih h
        · cases h

theorem markPasses_eq_error {fuel : ℕ} {e : Exc} (h : markPasses fuel s = .error e s') :
    e.cls = .died := by
  induction fuel generalizing s with
  | zero => cases h
  | succ fuel ih =>
      rcases bind_eq_error.mp h with h | ⟨s₀, s₁, -, h⟩
      · cases h
      rcases bind_eq_error.mp h with h | ⟨progressed, s₂, -, h⟩
      · exact markSweep_eq_error h
      cases progressed with
      | true =>
          rcases bind_eq_error.mp h with h | ⟨later, s₃, -, h⟩
          · exact ih h
          · cases h
      | false => cases h

theorem markDeadDependents_eq_error {e : Exc} (h : markDeadDependents s = .error e s') :
    e.cls = .died := by
  rcases bind_eq_error.mp h with h | ⟨s₀, s₁, -, h⟩
  · cases h
  · exact markPasses_eq_error h

theorem markDeadDependents_skipping (site : Site) (h : markDeadDependents s = .ok b s') :
    Skipping s.jobs s'.jobs := by
  have hpath := ((markDeadDependents_obeys site true).returns trivial h).1
  refine invariant_of_path (I := fun t : Sys W => Skipping s.jobs t.jobs) ?_ hpath (.refl _)
  rintro t t' ⟨label, hlabel, hmove⟩ ht
  exact ht.step hlabel hmove.turn

/-! ## A call with nothing to skip -/

theorem markJob_of_unblocked (h : Unblocked s.jobs) (i : ℕ) : markJob i s = .ok false s := by
  unfold markJob
  rw [bind_of_ok (get_apply s)]
  cases hjob : s.jobs[i]? with
  | none => rfl
  | some job =>
      simp only
      split
      · rfl
      · rename_i hstatus
        rw [h job (List.mem_of_getElem? hjob) (not_not.mp hstatus)]
        rfl

theorem markDeadDependents_of_unblocked (h : Unblocked s.jobs) :
    markDeadDependents s = .ok false s := by
  have hsweep : ∀ indices, sweep markJob indices s = .ok false s := by
    intro indices
    induction indices with
    | nil => rfl
    | cons i rest ih => rw [sweep, bind_of_ok (markJob_of_unblocked h i), bind_of_ok ih]; rfl
  unfold markDeadDependents
  rw [bind_of_ok (get_apply s), markPasses, bind_of_ok (get_apply s), bind_of_ok (hsweep _)]
  rfl

/-! ## The jobs that are skipped -/

/-- Exactly the jobs that cannot run have been skipped, and no other has changed. -/
structure SkipsExactly (jobs jobs' : List Job) : Prop where
  length : jobs'.length = jobs.length
  skipped : ∀ (i : ℕ) (a b : Job), jobs[i]? = some a → jobs'[i]? = some b →
    (b.status = .skipped ↔ a.status = .skipped ∨ CannotRun jobs a)
  others : ∀ (i : ℕ) (a b : Job), jobs[i]? = some a → jobs'[i]? = some b →
    b.status ≠ .skipped ∨ a.status = .skipped → b = a

theorem Skipping.exactly {jobs jobs' : List Job} (h : Skipping jobs jobs')
    (hids : (jobs.map Job.id).Nodup) (hunblocked : Unblocked jobs') : SkipsExactly jobs jobs' where
  length := h.progress.length
  skipped i a b ha hb := by
    constructor
    · intro hskipped
      rcases h.only i a b ha hb with rfl | ⟨-, hcannot⟩
      · exact .inl hskipped
      · exact .inr hcannot
    · rintro (hskipped | hcannot)
      · rcases h.only i a b ha hb with rfl | ⟨hskipped, -⟩
        · exact hskipped
        · exact hskipped
      · exact h.complete hids hunblocked hcannot ha hb
  others i a b ha hb hstatus := by
    rcases h.only i a b ha hb with heq | ⟨hskipped, hcannot⟩
    · exact heq
    · rcases hstatus with hne | hskippedBefore
      · exact absurd hskipped hne
      · have hpending := hcannot.1
        rw [hskippedBefore] at hpending
        cases hpending

/-- The outcome is the same for every order of the list. -/
theorem SkipsExactly.same_status {jobs jobs' other other' : List Job} (h : SkipsExactly jobs jobs')
    (h' : SkipsExactly other other') (hperm : other.Perm jobs) (hids : (jobs.map Job.id).Nodup)
    (hkept : jobs'.map Job.id = jobs.map Job.id) (hkept' : other'.map Job.id = other.map Job.id)
    {a c : Job} (ha : a ∈ jobs') (hc : c ∈ other') (hid : a.id = c.id) : a.status = c.status := by
  obtain ⟨i, hi⟩ := List.mem_iff_getElem?.mp ha
  obtain ⟨k, hk⟩ := List.mem_iff_getElem?.mp hc
  -- where the two come from
  have horigin : ∀ {l l' : List Job} {m : ℕ} {x : Job}, l'.map Job.id = l.map Job.id →
      l'[m]? = some x → ∃ y, l[m]? = some y ∧ y.id = x.id := by
    intro l l' m x hsame hx
    have hget : (l.map Job.id)[m]? = some x.id := by
      rw [← hsame, List.getElem?_map, hx, Option.map_some]
    rw [List.getElem?_map] at hget
    exact Option.map_eq_some_iff.mp hget
  obtain ⟨a₀, ha₀, haid⟩ := horigin hkept hi
  obtain ⟨c₀, hc₀, hcid⟩ := horigin hkept' hk
  have hsame : a₀ = c₀ := by
    have hmem : c₀ ∈ jobs := hperm.mem_iff.mp (List.mem_of_getElem? hc₀)
    refine List.inj_on_of_nodup_map hids (List.mem_of_getElem? ha₀) hmem ?_
    rw [haid, hcid, hid]
  subst hsame
  have hcannot : CannotRun other a₀ ↔ CannotRun jobs a₀ :=
    ⟨fun h => h.perm hperm.symm, fun h => h.perm hperm⟩
  have hskipped : a.status = .skipped ↔ c.status = .skipped := by
    rw [h.skipped i a₀ a ha₀ hi, h'.skipped k a₀ c hc₀ hk, hcannot]
  by_cases hstatus : a.status = .skipped
  · rw [hstatus, hskipped.mp hstatus]
  · have hne : c.status ≠ .skipped := fun hcs => hstatus (hskipped.mpr hcs)
    rw [h.others i a₀ a ha₀ hi (.inl hstatus), h'.others k a₀ c hc₀ hk (.inl hne)]

/-- A job has been skipped exactly if the list has changed. -/
theorem SkipsExactly.changed_iff {jobs jobs' : List Job} (h : SkipsExactly jobs jobs') :
    jobs' ≠ jobs ↔ ∃ (i : ℕ) (a c : Job), jobs[i]? = some a ∧ jobs'[i]? = some c ∧
      a.status ≠ .skipped ∧ c.status = .skipped := by
  constructor
  · intro hchanged
    by_contra hnone
    apply hchanged
    refine List.ext_getElem? fun i => ?_
    cases ha : jobs[i]? with
    | none =>
        rw [List.getElem?_eq_none_iff] at ha ⊢
        rw [h.length]
        exact ha
    | some a =>
        have hi : i < jobs'.length := by
          rw [h.length]
          exact (List.getElem?_eq_some_iff.mp ha).1
        have hc : jobs'[i]? = some jobs'[i] := List.getElem?_eq_getElem hi
        rw [hc]
        by_cases hskipped : jobs'[i].status = .skipped
        · have hbefore : a.status = .skipped := by
            by_contra hne
            exact hnone ⟨i, a, _, ha, hc, hne, hskipped⟩
          rw [h.others i a _ ha hc (.inr hbefore)]
        · rw [h.others i a _ ha hc (.inl hskipped)]
  · rintro ⟨i, a, c, ha, hc, hne, hskipped⟩ hsame
    rw [hsame, ha] at hc
    cases hc
    exact hne hskipped

/-- `_mark_dead_dependents` comes to an end, unless its process does, and has then skipped
exactly the waiting jobs that cannot run; it says whether there were any, leaves all others as
they were, gives the same statuses for every order of the list, and has nothing left to do when
it is called again. -/
theorem skip_propagation (s : Sys W) (hids : (s.jobs.map Job.id).Nodup) :
    (∃ b s', markDeadDependents s = .ok b s' ∧ Passes s b s' ∧ SkipsExactly s.jobs s'.jobs ∧
      (b = true ↔ ∃ (i : ℕ) (a c : Job), s.jobs[i]? = some a ∧ s'.jobs[i]? = some c ∧
        a.status ≠ .skipped ∧ c.status = .skipped) ∧
      (∀ (t t' : Sys W) (d : Bool), t.jobs.Perm s.jobs → markDeadDependents t = .ok d t' →
        ∀ a ∈ s'.jobs, ∀ c ∈ t'.jobs, a.id = c.id → a.status = c.status) ∧
      markDeadDependents s' = .ok false s') ∨
    ∃ e s', markDeadDependents s = .error e s' ∧ e.cls = .died := by
  have site : Site := smallSite []
  cases hrun : markDeadDependents s with
  | error e s' => exact .inr ⟨e, s', rfl, markDeadDependents_eq_error hrun⟩
  | ok b s' =>
      left
      have hskipping := markDeadDependents_skipping site hrun
      have hunblocked := markDeadDependents_unblocked site hrun
      have hexactly := hskipping.exactly hids hunblocked
      refine ⟨b, s', rfl, passes_of_markDeadDependents site hrun, hexactly, ?_, ?_,
        markDeadDependents_of_unblocked hunblocked⟩
      · rw [(markDeadDependents_tells site hrun).iff, hexactly.changed_iff]
      · intro t t' d hperm hother a ha c hc hid
        have hskipping' := markDeadDependents_skipping site hother
        have hids' : (t.jobs.map Job.id).Nodup := (hperm.map Job.id).nodup_iff.mpr hids
        have hexactly' := hskipping'.exactly hids' (markDeadDependents_unblocked site hother)
        exact hexactly.same_status hexactly' hperm hids hskipping.progress.ids
          hskipping'.progress.ids ha hc hid

end

/-- A chain that ends in a failure, listed against its order, beside a job that waits for
itself, one that waits for nobody, and one that waits for a dormant job. -/
def knotJobs : List Job :=
  [{ id := "c", command := "true", dependsOn := ["b", "b"] },
   { id := "b", command := "true", dependsOn := ["a"] },
   { id := "a", command := "true", status := .failed },
   { id := "d", command := "true", dependsOn := ["d"] },
   { id := "e", command := "true", dependsOn := ["nobody"] },
   { id := "f", command := "true", dependsOn := ["g"] },
   { id := "g", command := "true", status := .dormant }]

theorem skip_propagation_knotJobs : ∃ s' : Sys World,
    SkipsExactly knotJobs s'.jobs ∧ markDeadDependents s' = .ok false s' ∧
      s'.jobs.map Job.status =
        [.skipped, .skipped, .failed, .pending, .skipped, .pending, .dormant] := by
  obtain ⟨b, s', hrun, hends⟩ := of_returns
    (show returns (markDeadDependents (fresh (smallSite knotJobs) {})) (fun s =>
      s.jobs.map Job.status ==
        [.skipped, .skipped, .failed, .pending, .skipped, .pending, .dormant]) = true by
      decide +kernel)
  rcases skip_propagation (fresh (smallSite knotJobs) ({} : World)) (by decide) with
    ⟨b', s₁, hrun', -, hexactly, -, -, hagain⟩ | ⟨e, s₁, hrun', -⟩
  · rw [hrun] at hrun'
    cases hrun'
    exact ⟨s', hexactly, hagain, by simpa using hends⟩
  · rw [hrun] at hrun'
    cases hrun'

end Nodepilot
