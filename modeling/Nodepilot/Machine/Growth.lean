import Nodepilot.Machine.Aging

/-!
# What operations do to the table of processes

Whatever the scheduler does, the table only grows: a process in it keeps what it
is, and one that has ended keeps how it ended (`Grows`).  Starting adds a process
under a pid or a session name nobody has, so the table stays well formed.
-/

namespace Nodepilot

open Relation

/-- `w'` is what has become of `w`, whatever was done to it. -/
structure Grows (w w' : World) : Prop where
  procs : ∀ (k : ℕ) (p : Proc), w.procs[k]? = some p → ∃ q, w'.procs[k]? = some q ∧ Ages p q
  programs : w'.programs = w.programs

namespace Grows

variable {w w' w'' : World}

theorem refl (w : World) : Grows w w :=
  ⟨fun _ p hp => ⟨p, hp, .refl p⟩, rfl⟩

theorem trans (h : Grows w w') (h' : Grows w' w'') : Grows w w'' where
  procs k p hp := by
    obtain ⟨q, hq, hages⟩ := h.procs k p hp
    obtain ⟨r, hr, hages'⟩ := h'.procs k q hq
    exact ⟨r, hr, hages.trans hages'⟩
  programs := h'.programs.trans h.programs

theorem length_le (h : Grows w w') : w.procs.length ≤ w'.procs.length := by
  by_contra hlt
  obtain ⟨q, hq, -⟩ := h.procs w'.procs.length w.procs[w'.procs.length] (by simp)
  simp at hq

end Grows

theorem Aged.grows {waited : Set ℕ} {w w' : World} (h : Aged waited w w') : Grows w w' where
  procs k p hp := by
    obtain ⟨q, hq, hages⟩ := h.procs k p hp
    exact ⟨q, hq, hages.toAges⟩
  programs := h.programs

/-- `w'` is what has become of `w` while nothing was started. -/
structure Stays (w w' : World) : Prop where
  length : w'.procs.length = w.procs.length
  procs : ∀ (k : ℕ) (p : Proc), w.procs[k]? = some p → ∃ q, w'.procs[k]? = some q ∧ Ages p q
  launches : w'.launches = w.launches

namespace Stays

variable {w w' w'' : World}

theorem refl (w : World) : Stays w w :=
  ⟨rfl, fun _ p hp => ⟨p, hp, .refl p⟩, rfl⟩

theorem trans (h : Stays w w') (h' : Stays w' w'') : Stays w w'' where
  length := h'.length.trans h.length
  procs k p hp := by
    obtain ⟨q, hq, hages⟩ := h.procs k p hp
    obtain ⟨r, hr, hages'⟩ := h'.procs k q hq
    exact ⟨r, hr, hages.trans hages'⟩
  launches := h'.launches.trans h.launches

/-- A process of the later table was in the earlier one. -/
theorem back (h : Stays w w') {k : ℕ} {q : Proc} (hq : w'.procs[k]? = some q) :
    ∃ p, w.procs[k]? = some p ∧ Ages p q := by
  have hlt : k < w.procs.length := by
    rw [← h.length]
    exact (List.getElem?_eq_some_iff.mp hq).1
  obtain ⟨q', hq', hages⟩ := h.procs k w.procs[k] (List.getElem?_eq_getElem hlt)
  have hsame : q' = q := Option.some.inj (hq'.symm.trans hq)
  exact ⟨_, List.getElem?_eq_getElem hlt, hsame ▸ hages⟩

theorem back_mem (h : Stays w w') {q : Proc} (hq : q ∈ w'.procs) : ∃ p ∈ w.procs, Ages p q := by
  obtain ⟨k, hk⟩ := List.mem_iff_getElem?.mp hq
  obtain ⟨p, hp, hages⟩ := h.back hk
  exact ⟨p, List.mem_of_getElem? hp, hages⟩

end Stays

theorem Aged.stays {waited : Set ℕ} {w w' : World} (h : Aged waited w w') : Stays w w' :=
  ⟨h.length, h.grows.procs, h.launches⟩

namespace World

/-! ## Fresh pids and names -/

theorem mem_sessions {w : World} {name : String} :
    name ∈ w.sessions ↔ ∃ p ∈ w.procs, p.track = .session name ∧ p.exit = none := by
  rw [sessions, List.mem_filterMap]
  constructor
  · rintro ⟨p, hp, hname⟩
    split at hname
    · rename_i htrack hexit
      cases hname
      exact ⟨p, hp, htrack, hexit⟩
    · cases hname
  · rintro ⟨p, hp, htrack, hexit⟩
    exact ⟨p, hp, by simp [htrack, hexit]⟩

theorem lt_beyondPids_of_proc {w : World} {p : Proc} {n : ℕ} (hp : p ∈ w.procs)
    (htrack : p.track = .pid n) : n < w.beyondPids := by
  unfold beyondPids
  refine Nat.lt_of_lt_of_le (Nat.lt_succ_self n) (le_trans ?_ (Nat.le_add_right _ _))
  apply List.le_sum_of_mem
  exact List.mem_map.mpr ⟨p, hp, by simp [htrack]⟩

theorem lt_beyondPids_of_other {w : World} {o : Other} (ho : o ∈ w.others) :
    o.pid < w.beyondPids := by
  unfold beyondPids
  refine Nat.lt_of_lt_of_le (Nat.lt_succ_self o.pid) (le_trans ?_ (Nat.le_add_left _ _))
  apply List.le_sum_of_mem
  exact List.mem_map.mpr ⟨o, ho, rfl⟩

/-- The pid of the next process is nobody's. -/
theorem pidInUse_freshPid (w : World) : w.pidInUse w.freshPid = false := by
  unfold freshPid
  split
  · -- the number after the last pid is taken; beyond the sum of all pids nothing is
    by_contra hused
    rw [Bool.not_eq_false, pidInUse, Bool.or_eq_true] at hused
    rcases hused with hproc | hother
    · obtain ⟨p, hp, hpid⟩ := List.any_eq_true.mp hproc
      obtain ⟨-, htrack⟩ := hasPid_iff.mp hpid
      have hlt := lt_beyondPids_of_proc hp htrack
      omega
    · obtain ⟨o, ho, hpid⟩ := List.any_eq_true.mp hother
      have hlt := lt_beyondPids_of_other ho
      rw [beq_iff_eq.mp hpid] at hlt
      omega
  · rename_i hfree
    simpa using hfree

/-- A process under a new pid or name. -/
theorem wellFormed_append {w w' : World} {p : Proc} (h : WellFormed w)
    (hprocs : w'.procs = w.procs ++ [p]) (hothers : w'.others = w.others)
    (hpid : ∀ n, p.track = .pid n → w.pidInUse n = false)
    (hname : ∀ name, p.track = .session name → name ∉ w.sessions)
    (hnew : p.collected = false) : WellFormed w' := by
  have hget : ∀ {k : ℕ} {q : Proc}, w'.procs[k]? = some q →
      w.procs[k]? = some q ∨ (k = w.procs.length ∧ q = p) := by
    intro k q hq
    rw [hprocs, List.getElem?_append] at hq
    split at hq
    · exact .inl hq
    · rw [List.getElem?_singleton] at hq
      split at hq
      · cases hq
        exact .inr ⟨by omega, rfl⟩
      · cases hq
  have hapart : ∀ {q : Proc} {n : ℕ}, q ∈ w.procs → q.track = .pid n → q.collected = false →
      p.track ≠ .pid n := by
    intro q n hq hqn hqc hpn
    have hused := pidInUse_of_proc hq hqn hqc
    rw [hpid n hpn] at hused
    cases hused
  have hnamed : ∀ {q : Proc} {name : String}, q ∈ w.procs → q.track = .session name →
      q.exit = none → p.track ≠ .session name := by
    intro q name hq hqn hqe hpn
    exact hname name hpn (mem_sessions.mpr ⟨q, hq, hqn, hqe⟩)
  refine ⟨?_, ?_, ?_, ?_⟩
  · intro j k a b n ha hb hana hbn hac hbc
    rcases hget ha with ha | ⟨rfl, rfl⟩
    · rcases hget hb with hb | ⟨rfl, rfl⟩
      · exact h.pids j k a b n ha hb hana hbn hac hbc
      · exact absurd hbn (hapart (List.mem_of_getElem? ha) hana hac)
    · rcases hget hb with hb | ⟨rfl, rfl⟩
      · exact absurd hana (hapart (List.mem_of_getElem? hb) hbn hbc)
      · rfl
  · intro a ha n han hac o ho
    rw [hothers] at ho
    rw [hprocs] at ha
    rcases List.mem_append.mp ha with ha | ha
    · exact h.others a ha n han hac o ho
    · rw [List.mem_singleton.mp ha] at han
      rintro rfl
      have hfree := hpid o.pid han
      rw [pidInUse_of_other ho] at hfree
      cases hfree
  · intro j k a b name ha hb hana hbn hae hbe
    rcases hget ha with ha | ⟨rfl, rfl⟩
    · rcases hget hb with hb | ⟨rfl, rfl⟩
      · exact h.names j k a b name ha hb hana hbn hae hbe
      · exact absurd hbn (hnamed (List.mem_of_getElem? ha) hana hae)
    · rcases hget hb with hb | ⟨rfl, rfl⟩
      · exact absurd hana (hnamed (List.mem_of_getElem? hb) hbn hbe)
      · rfl
  · intro a ha hac
    rw [hprocs] at ha
    rcases List.mem_append.mp ha with ha | ha
    · exact h.waited a ha hac
    · rw [List.mem_singleton.mp ha, hnew] at hac
      cases hac

/-! ## One operation -/

theorem ages_endSession (name target : String) (p : Proc) : Ages p (endSession name target p) := by
  unfold endSession
  split
  · rename_i halive
    refine ⟨rfl, rfl, rfl, fun rc hrc => ?_, fun h => h, .inl⟩
    rw [halive.2] at hrc
    cases hrc
  · exact .refl p

theorem effect_grows {w w' : World} {α : Type} {c : Syscall α} {a : α}
    (h : w.effect c = .ok a w') : Grows w w' ∧ (WellFormed w → WellFormed w') := by
  have happend : ∀ {p : Proc} {w' : World}, w'.procs = w.procs ++ [p] →
      w'.programs = w.programs → Grows w w' := by
    intro p w' hprocs hprograms
    refine ⟨fun k q hq => ⟨q, ?_, .refl q⟩, hprograms⟩
    rw [hprocs, List.getElem?_append_left (List.getElem?_eq_some_iff.mp hq).1, hq]
  cases hc : c.harmless with
  | true =>
      obtain ⟨hprocs, hothers, hlaunches, hprograms, -⟩ := effect_harmless hc h
      have haged : Aged ∅ w w' := .of_procs_eq hprocs hlaunches hprograms
      exact ⟨haged.grows, fun hw => hw.aged haged fun o ho => .inl (hothers ▸ ho)⟩
  | false =>
      cases c with
      | killpg pid =>
          rcases w.signal_eq pid with heq | heq | heq <;>
            rw [show w.effect (.killpg pid) = w.signal pid from rfl, heq] at h <;> cases h
          exact ⟨.refl w, fun hw => hw⟩
      | poll proc =>
          obtain ⟨-, haged, hothers, -⟩ := effect_poll h
          exact ⟨haged.grows, fun hw => hw.aged haged fun o ho => .inl (hothers ▸ ho)⟩
      | wait proc =>
          simp only [effect] at h
          split at h
          · cases h
          · rename_i rc hexit
            cases h
            have haged : Aged Set.univ w { w with
                procs := w.procs.modify proc.serial fun p => { p with collected := true } } := by
              refine .of_modify rfl rfl rfl fun p hp => ⟨⟨rfl, rfl, rfl, fun _ h => h, fun _ => rfl,
                fun _ => .inr ?_⟩, rfl, fun hk => absurd (Set.mem_univ _) hk⟩
              rw [hp] at hexit
              simp only [Option.bind_some] at hexit
              rw [hexit]
              exact Option.some_ne_none _
            exact ⟨haged.grows, fun hw => hw.aged haged fun o ho => .inl ho⟩
      | tmuxKillSession target =>
          simp only [effect] at h
          split at h
          · cases h
            exact ⟨.refl w, fun hw => hw⟩
          · rename_i session _
            cases h
            refine ⟨⟨fun k p hp => ⟨endSession session target p, ?_, ages_endSession session target p⟩,
              rfl⟩, fun hw => hw.of_ages (fun k q hq => ?_) fun o ho => .inl ho⟩
            · rw [List.getElem?_map, hp]
              rfl
            · rw [List.getElem?_map] at hq
              obtain ⟨p, hp, rfl⟩ := Option.map_eq_some_iff.mp hq
              exact ⟨p, hp, ages_endSession session target p⟩
      | popen job argv workdir env =>
          cases h
          refine ⟨happend rfl rfl, fun hw => wellFormed_append hw rfl rfl ?_ ?_ rfl⟩
          · intro n hn
            cases hn
            exact w.pidInUse_freshPid
          · intro name hname
            cases hname
      | tmuxNewSession job name line env =>
          simp only [effect] at h
          split at h
          · cases h
          · rename_i hfree
            cases h
            refine ⟨happend rfl rfl, fun hw => wellFormed_append hw rfl rfl ?_ ?_ rfl⟩
            · intro n hn
              cases hn
            · intro session hsession
              cases hsession
              exact hfree
      | _ => cases hc

theorem effect_launches {w w' : World} {α : Type} {c : Syscall α} {a : α} (hc : c.starts = false)
    (h : w.effect c = .ok a w') : w'.launches = w.launches := by
  cases hharmless : c.harmless with
  | true => exact (effect_harmless hharmless h).2.2.1
  | false =>
      cases c with
      | killpg pid =>
          rcases w.signal_eq pid with heq | heq | heq <;>
            rw [show w.effect (.killpg pid) = w.signal pid from rfl, heq] at h <;> cases h
          rfl
      | poll proc => exact (effect_poll h).2.1.launches
      | wait proc =>
          simp only [effect] at h
          split at h <;> cases h
          rfl
      | tmuxKillSession target =>
          simp only [effect] at h
          split at h <;> cases h <;> rfl
      | popen => cases hc
      | tmuxNewSession => cases hc
      | _ => cases hharmless

theorem effect_length {w w' : World} {α : Type} {c : Syscall α} {a : α} (hc : c.starts = false)
    (h : w.effect c = .ok a w') : w'.procs.length = w.procs.length := by
  cases hharmless : c.harmless with
  | true => rw [(effect_harmless hharmless h).1]
  | false =>
      cases c with
      | killpg pid =>
          rcases w.signal_eq pid with heq | heq | heq <;>
            rw [show w.effect (.killpg pid) = w.signal pid from rfl, heq] at h <;> cases h
          rfl
      | poll proc => exact (effect_poll h).2.1.length
      | wait proc =>
          simp only [effect] at h
          split at h <;> cases h
          exact List.length_modify ..
      | tmuxKillSession target =>
          simp only [effect] at h
          split at h <;> cases h
          · rfl
          · exact List.length_map ..
      | popen => cases hc
      | tmuxNewSession => cases hc
      | _ => cases hharmless

end World

/-! ## Paths of operations -/

theorem after_grows {α : Type} (c : Syscall α) (w : World) :
    Grows w (after c w) ∧ (WellFormed w → WellFormed (after c w)) := by
  cases hanswer : Host.answer c w with
  | ok a w' =>
      rw [after_of_ok hanswer]
      obtain ⟨hgrows, hwell⟩ := World.effect_grows (answer_ok hanswer)
      exact ⟨(w.advance_aged ∅).grows.trans hgrows, fun hw => hwell (World.advance_wellFormed hw)⟩
  | error e w' =>
      rw [after_of_error hanswer, answer_error hanswer]
      exact ⟨(w.advance_aged ∅).grows, World.advance_wellFormed⟩

/-- The table an operation finds has grown since the one before. -/
theorem advance_grows_after {α : Type} (c : Syscall α) (w : World) : Grows w.advance (after c w) := by
  cases hanswer : Host.answer c w with
  | ok a w' =>
      rw [after_of_ok hanswer]
      exact (World.effect_grows (answer_ok hanswer)).1
  | error e w' =>
      rw [after_of_error hanswer, answer_error hanswer]
      exact .refl _

theorem Onward.grows {w w' : World} (h : Onward w w') : Grows w w' := by
  induction h with
  | refl => exact .refl w
  | tail _ hlast ih =>
      obtain ⟨α, c, rfl⟩ := hlast
      exact ih.trans (after_grows c _).1

theorem Onward.wellFormed {w w' : World} (h : Onward w w') (hw : WellFormed w) : WellFormed w' := by
  induction h with
  | refl => exact hw
  | tail _ hlast ih =>
      obtain ⟨α, c, rfl⟩ := hlast
      exact (after_grows c _).2 ih

/-- Only a start adds to the table and to the log. -/
theorem Tended.stays {w w' : World} (h : Tended w w') : Stays w w' := by
  induction h with
  | refl => exact .refl w
  | @tail mid _ _ hlast ih =>
      obtain ⟨α, c, hc, rfl⟩ := hlast
      have hadvance : Stays mid mid.advance := (mid.advance_aged ∅).stays
      refine ih.trans (hadvance.trans ?_)
      cases hanswer : Host.answer c mid with
      | ok a w'' =>
          rw [after_of_ok hanswer]
          have heffect := answer_ok hanswer
          exact ⟨World.effect_length hc heffect, (World.effect_grows heffect).1.procs,
            World.effect_launches hc heffect⟩
      | error e w'' =>
          rw [after_of_error hanswer, answer_error hanswer]
          exact .refl _

theorem Tended.launches {w w' : World} (h : Tended w w') : w'.launches = w.launches :=
  h.stays.launches

/-- Where nothing happens an operation only has its effect. -/
theorem World.answer_still {w : World} (hstill : w.agenda = []) {α : Type} (c : Syscall α) :
    w.answer c = w.effect c := by
  rw [answer, failure, advance, hstill]

/-- Where nothing happens the files and directories stay as they are. -/
theorem still_of_onward {w w' : World} (h : Onward w w') (hstill : w.agenda = []) :
    w'.agenda = [] ∧ w'.files = w.files ∧ w'.dirs = w.dirs := by
  induction h with
  | refl => exact ⟨hstill, rfl, rfl⟩
  | @tail mid _ _ hlast ih =>
      obtain ⟨α, c, rfl⟩ := hlast
      obtain ⟨hagenda, hfiles, hdirs⟩ := ih
      have hadvance : mid.advance = mid := by rw [World.advance, hagenda]
      cases hanswer : Host.answer c mid with
      | ok a w'' =>
          obtain ⟨hagenda', hfiles', hdirs', -⟩ := World.effect_keeps (answer_ok hanswer)
          rw [hadvance] at hagenda' hfiles' hdirs'
          rw [after_of_ok hanswer, hagenda', hfiles', hdirs']
          exact ⟨hagenda, hfiles, hdirs⟩
      | error e w'' =>
          rw [after_of_error hanswer, answer_error hanswer, hadvance]
          exact ⟨hagenda, hfiles, hdirs⟩

/-- The host has a property all the way from one world to another: between the operations,
and whenever one is answered. -/
structure Always (P : World → Prop) (w w' : World) : Prop where
  between : Throughout P w w'
  within : ∀ {α : Type} (c : Syscall α) (v : World), Onward w v → Onward (after c v) w' → P v.advance

/-- A part of the way. -/
theorem Always.part {P : World → Prop} {w w' v v' : World} (h : Always P w w') (hbefore : Onward w v)
    (hafter : Onward v' w') : Always P v v' :=
  ⟨h.between.part hbefore hafter, fun c u hu hu' => h.within c u (hbefore.trans hu) (hu'.trans hafter)⟩

end Nodepilot
