import Nodepilot.Model.StateFile

/-!
# Saves that do not get in each other's way

A save writes a file of its own and renames it, so the state file is never seen
half written; but the name of that file is derived from the target, and two saves
of one target share it.  As long as no two calls have it open at the same time
(`Orderly`) the open file holds just what its one writer has written, and the
rename puts a complete text in place.
-/

namespace Nodepilot

open Files

/-! ## One step of a call -/

/-- What a step of a call does. -/
theorem SaveCall.act_cases {target : String} {step : SaveStep} {c c' : SaveCall}
    {d d' : Disk String UInt8} (h : c.act target step d = some (c', d')) :
    (step = .truncate ∧ c.phase = .ready ∧
      c' = { c with phase := .writing (d.openEmpty (tmpName target)).1 0 } ∧
      d' = (d.openEmpty (tmpName target)).2) ∨
    (∃ file offset count, c.phase = .writing file offset ∧ offset + count ≤ c.text.length ∧
      c' = { c with phase := .writing file (offset + count) } ∧
      d' = d.writeAt 0 file offset ((c.text.drop offset).take count)) ∨
    (∃ file, c.phase = .writing file c.text.length ∧ c' = { c with phase := .done } ∧
      d.rename (tmpName target) target = some d') ∨
    (∃ file, c.phase = .writing file c.text.length ∧ c' = { c with phase := .failed } ∧
      d.rename (tmpName target) target = none ∧ d' = d) ∨
    (c' = { c with phase := .crashed } ∧ d' = d) := by
  unfold SaveCall.act at h
  cases step with
  | truncate =>
      cases hphase : c.phase with
      | ready =>
          simp only [hphase, Option.some.injEq, Prod.mk.injEq] at h
          exact Or.inl ⟨rfl, rfl, h.1.symm, h.2.symm⟩
      | _ => simp [hphase] at h
  | write count =>
      cases hphase : c.phase with
      | writing file offset =>
          simp only [hphase] at h
          split at h
          · rename_i hfits
            simp only [Option.some.injEq, Prod.mk.injEq] at h
            exact Or.inr (Or.inl ⟨file, offset, count, rfl, hfits.2, h.1.symm, h.2.symm⟩)
          · cases h
      | _ => simp [hphase] at h
  | replace =>
      cases hphase : c.phase with
      | writing file offset =>
          simp only [hphase] at h
          split at h
          · rename_i hall
            subst hall
            cases hrename : d.rename (tmpName target) target with
            | some d₁ =>
                simp only [hrename, Option.some.injEq, Prod.mk.injEq] at h
                exact Or.inr (Or.inr (Or.inl ⟨file, rfl, h.1.symm, by rw [h.2]⟩))
            | none =>
                simp only [hrename, Option.some.injEq, Prod.mk.injEq] at h
                exact Or.inr (Or.inr (Or.inr (Or.inl ⟨file, rfl, h.1.symm, rfl, h.2.symm⟩)))
          · cases h
      | _ => simp [hphase] at h
  | crash =>
      have hcrash : c' = { c with phase := .crashed } ∧ d' = d := by
        cases hphase : c.phase <;> simp [hphase] at h <;> exact ⟨h.1.symm, h.2.symm⟩
      exact Or.inr (Or.inr (Or.inr (Or.inr hcrash)))

/-! ## The law -/

/-- The target is absent or holds the whole text of one of the calls, and no call has failed. -/
structure Whole (target : String) (s : Savers) : Prop where
  target : s.disk.read target = none ∨ ∃ c ∈ s.calls, s.disk.read target = some c.text
  unfailed : ∀ c ∈ s.calls, c.phase ≠ .failed

/-- What is true as long as the calls keep apart. -/
structure Orderly (target : String) (s : Savers) : Prop where
  whole : Whole target s
  bounded : Bounded s.disk
  apart : ∀ file, s.disk.inode (tmpName target) = some file → s.disk.inode target ≠ some file
  single : ∀ (i j : ℕ) (a b : SaveCall), s.calls[i]? = some a → s.calls[j]? = some b →
    a.isWriting = true → b.isWriting = true → i = j
  written : ∀ c ∈ s.calls, ∀ file offset, c.phase = .writing file offset →
    s.disk.inode (tmpName target) = some file ∧ offset ≤ c.text.length ∧
      s.disk.contents file = c.text.take offset

section Step

variable {target : String} {calls : List SaveCall} {d d' : Disk String UInt8} {i : ℕ}
  {c c' : SaveCall}

/-- The calls after a step of one of them. -/
theorem getElem?_set_cases {j : ℕ} {x : SaveCall} (h : (calls.set i c')[j]? = some x) :
    (j = i ∧ x = c') ∨ (j ≠ i ∧ calls[j]? = some x) := by
  by_cases hj : i = j
  · subst hj
    rw [List.getElem?_set_self'] at h
    cases hget : calls[i]? with
    | none => simp [hget] at h
    | some old =>
        simp only [hget] at h
        exact Or.inl ⟨rfl, (Option.some.inj h).symm⟩
  · rw [List.getElem?_set_ne hj] at h
    exact Or.inr ⟨fun heq => hj heq.symm, h⟩

/-- A step changes no text. -/
theorem exists_text_set (hcall : calls[i]? = some c) (htext : c'.text = c.text) {x : SaveCall}
    (hmem : x ∈ calls) : ∃ y ∈ calls.set i c', y.text = x.text := by
  obtain ⟨j, hj⟩ := List.mem_iff_getElem?.mp hmem
  by_cases hij : i = j
  · subst hij
    rw [hcall] at hj
    cases hj
    exact ⟨c', List.mem_set (List.getElem?_eq_some_iff.mp hcall).1 c', htext⟩
  · refine ⟨x, List.mem_of_getElem? (i := j) ?_, rfl⟩
    rw [List.getElem?_set_ne hij]
    exact hj

/-- The target keeps a whole text where its contents stay. -/
theorem Whole.of_read (h : Whole target ⟨calls, d⟩) (hcall : calls[i]? = some c)
    (htext : c'.text = c.text) (hphase : c'.phase ≠ .failed)
    (hread : d'.read target = d.read target) : Whole target ⟨calls.set i c', d'⟩ := by
  refine ⟨?_, fun x hx => ?_⟩
  · rw [hread]
    rcases h.target with hnone | ⟨x, hx, hsome⟩
    · exact Or.inl hnone
    · obtain ⟨y, hy, hsame⟩ := exists_text_set hcall htext hx
      exact Or.inr ⟨y, hy, by rw [hsame]; exact hsome⟩
  · obtain ⟨j, hj⟩ := List.mem_iff_getElem?.mp hx
    rcases getElem?_set_cases hj with ⟨-, rfl⟩ | ⟨-, hold⟩
    · exact hphase
    · exact h.unfailed x (List.mem_of_getElem? hold)

theorem isWriting_of_phase {file offset : ℕ} (h : c.phase = .writing file offset) :
    c.isWriting = true := by
  simp [SaveCall.isWriting, h]

theorem phase_of_isWriting (h : c.isWriting = true) :
    ∃ file offset, c.phase = .writing file offset := by
  unfold SaveCall.isWriting at h
  split at h
  · rename_i file offset hphase
    exact ⟨file, offset, hphase⟩
  · cases h

/-- Where one call has the file open, no other has. -/
theorem Orderly.other (h : Orderly target ⟨calls, d⟩) (hcall : calls[i]? = some c)
    (hopen : c.isWriting = true) {j : ℕ} {x : SaveCall} (hj : calls[j]? = some x) (hne : j ≠ i) :
    x.isWriting = false := by
  by_contra hwriting
  exact hne (h.single j i x c hj hcall (by simpa using hwriting) hopen)

/-- Where the other calls have nothing open, what is written is what one call has written. -/
theorem Orderly.of_alone (hwhole : Whole target ⟨calls.set i c', d'⟩) (hbounded : Bounded d')
    (hapart : ∀ file, d'.inode (tmpName target) = some file → d'.inode target ≠ some file)
    (hothers : ∀ (j : ℕ) (x : SaveCall), calls[j]? = some x → j ≠ i → x.isWriting = false)
    (hwritten : ∀ file offset, c'.phase = .writing file offset →
      d'.inode (tmpName target) = some file ∧ offset ≤ c'.text.length ∧
        d'.contents file = c'.text.take offset) :
    Orderly target ⟨calls.set i c', d'⟩ := by
  have honly : ∀ (j : ℕ) (x : SaveCall), (calls.set i c')[j]? = some x → x.isWriting = true →
      j = i ∧ x = c' := by
    intro j x hj hwriting
    rcases getElem?_set_cases hj with hself | ⟨hne, hold⟩
    · exact hself
    · rw [hothers j x hold hne] at hwriting
      cases hwriting
  refine ⟨hwhole, hbounded, hapart, fun j k x y hj hk hx hy => ?_, fun x hx file offset hphase => ?_⟩
  · rw [(honly j x hj hx).1, (honly k y hk hy).1]
  · obtain ⟨j, hj⟩ := List.mem_iff_getElem?.mp hx
    obtain ⟨-, rfl⟩ := honly j x hj (isWriting_of_phase hphase)
    exact hwritten file offset hphase

/-- A step keeps the order, if no call opens the file while another has it open. -/
theorem Orderly.step {step : SaveStep} (h : Orderly target ⟨calls, d⟩) (hcall : calls[i]? = some c)
    (hact : c.act target step d = some (c', d'))
    (hkeep : step = .truncate → ∀ other ∈ calls, other.isWriting = false) :
    Orderly target ⟨calls.set i c', d'⟩ := by
  have hmem : c ∈ calls := List.mem_of_getElem? hcall
  have hne : target ≠ tmpName target := (tmpName_ne target).symm
  rcases SaveCall.act_cases hact with ⟨htruncate, -, rfl, rfl⟩ |
    ⟨file, offset, count, hphase, hfits, rfl, rfl⟩ | ⟨file, hphase, rfl, hrename⟩ |
    ⟨file, hphase, rfl, hrename, rfl⟩ | ⟨rfl, rfl⟩
  · -- the file is opened: nobody else has it, and it is empty
    have hread := read_openEmpty_of_ne h.bounded hne h.apart
    refine .of_alone (h.whole.of_read hcall rfl (fun hfalse => by cases hfalse) hread) (bounded_openEmpty h.bounded _) ?_
      (fun j x hj _ => hkeep htruncate x (List.mem_of_getElem? hj)) ?_
    · intro file hfile htarget
      rw [inode_openEmpty] at hfile
      cases hfile
      rw [inode_openEmpty_of_ne d hne] at htarget
      cases htmp : d.inode (tmpName target) with
      | none => exact openEmpty_fresh h.bounded htmp target htarget
      | some n =>
          refine h.apart n htmp ?_
          rw [htarget]
          simp [Disk.openEmpty, htmp]
    · rintro file offset hphase
      cases hphase
      exact ⟨inode_openEmpty d _, Nat.zero_le _, contents_openEmpty d _⟩
  · -- the next chunk goes behind what is there
    obtain ⟨hfile, hle, hcontents⟩ := h.written c hmem file offset hphase
    have hread : (d.writeAt 0 file offset ((c.text.drop offset).take count)).read target =
        d.read target := read_writeAt_of_ne 0 (h.apart file hfile)
    refine .of_alone (h.whole.of_read hcall rfl (fun hfalse => by cases hfalse) hread) h.bounded h.apart
      (fun j x hj hne => h.other hcall (isWriting_of_phase hphase) hj hne) ?_
    rintro file' offset' hphase'
    cases hphase'
    refine ⟨hfile, hfits, ?_⟩
    calc (d.writeAt 0 file offset ((c.text.drop offset).take count)).contents file
        = Disk.overlay 0 (d.contents file) offset ((c.text.drop offset).take count) := by
          simp [Disk.writeAt]
      _ = Disk.overlay 0 (c.text.take offset) offset ((c.text.drop offset).take count) := by
          rw [hcontents]
      _ = c.text.take (offset + count) := overlay_take 0 c.text hle count
  · -- the whole text is renamed into place
    obtain ⟨hfile, -, hcontents⟩ := h.written c hmem file _ hphase
    have hread : d'.read target = some c.text := by
      rw [read_rename hrename, read_of_inode hfile, hcontents, List.take_length]
    have hgone : d'.inode (tmpName target) = none := inode_rename_source hne.symm hrename
    refine .of_alone ⟨Or.inr ⟨_, List.mem_set (List.getElem?_eq_some_iff.mp hcall).1 _, hread⟩, ?_⟩
      (bounded_rename h.bounded hrename) (fun file hsome => ?_)
      (fun j x hj hne => h.other hcall (isWriting_of_phase hphase) hj hne) (fun _ _ hfalse => by cases hfalse)
    · intro x hx
      obtain ⟨j, hj⟩ := List.mem_iff_getElem?.mp hx
      rcases getElem?_set_cases hj with ⟨-, rfl⟩ | ⟨-, hold⟩
      · exact fun hfalse => by cases hfalse
      · exact h.whole.unfailed x (List.mem_of_getElem? hold)
    · rw [hgone] at hsome
      cases hsome
  · -- the temporary file is there, so the rename does not fail
    obtain ⟨hfile, -⟩ := h.written c hmem file _ hphase
    have hfile' : d'.inode (tmpName target) = some file := hfile
    rw [Disk.rename, hfile'] at hrename
    cases hrename
  · -- the others go on as before
    refine ⟨h.whole.of_read hcall rfl (fun hfalse => by cases hfalse) rfl, h.bounded, h.apart, ?_, ?_⟩
    · intro j k x y hj hk hx hy
      rcases getElem?_set_cases hj with ⟨-, rfl⟩ | ⟨-, hj'⟩
      · cases hx
      · rcases getElem?_set_cases hk with ⟨-, rfl⟩ | ⟨-, hk'⟩
        · cases hy
        · exact h.single j k x y hj' hk' hx hy
    · intro x hx file offset hphase
      obtain ⟨j, hj⟩ := List.mem_iff_getElem?.mp hx
      rcases getElem?_set_cases hj with ⟨-, rfl⟩ | ⟨-, hold⟩
      · cases hphase
      · exact h.written x (List.mem_of_getElem? hold) file offset hphase

end Step

/-! ## Every interleaving -/

theorem orderly_start (target : String) (texts : List (List UInt8)) :
    Orderly target (.start texts) := by
  have hready : ∀ c ∈ (Savers.start texts).calls, c.phase = .ready := by
    intro c hc
    obtain ⟨text, -, rfl⟩ := List.mem_map.mp hc
    rfl
  refine ⟨⟨Or.inl rfl, fun c hc => ?_⟩, bounded_empty, nofun, ?_, ?_⟩
  · rw [hready c hc]
    exact nofun
  · intro i j a b ha _ hwriting _
    rw [SaveCall.isWriting, hready a (List.mem_of_getElem? ha)] at hwriting
    cases hwriting
  · intro c hc file offset hphase
    rw [hready c hc] at hphase
    cases hphase

/-- As long as no two calls have the temporary file open at once, the target is absent or
holds the whole text of one of the calls, and no call fails. -/
theorem save_state_atomic (target : String) (texts : List (List UInt8)) (s : Savers)
    (h : Interleaved target texts true s) : Whole target s := by
  have horderly : Orderly target s := by
    induction h with
    | start => exact orderly_start target texts
    | step _ hcall hact hapart ih => exact ih.step hcall hact (hapart rfl)
  exact horderly.whole

/-- A save that dies after two of its three bytes, and one that finds the temporary file it has
left behind. -/
theorem save_state_atomic_stale :
    ∃ s, s.calls = [⟨[1, 2, 3], .crashed⟩, ⟨[4, 5], .done⟩] ∧
      s.disk.read "q.state.json" = some [4, 5] ∧ Whole "q.state.json" s := by
  have hstart : Interleaved "q.state.json" [[1, 2, 3], [4, 5]] true _ := .start
  have hopenA := @Interleaved.step _ _ _ _ 0 _ _ .truncate _ hstart rfl rfl fun _ _ => by decide
  have hwrittenA := @Interleaved.step _ _ _ _ 0 _ _ (.write 2) _ hopenA rfl rfl nofun
  have hcrashed := @Interleaved.step _ _ _ _ 0 _ _ .crash _ hwrittenA rfl rfl nofun
  -- the stale file is emptied and written from its start
  have hopenB := @Interleaved.step _ _ _ _ 1 _ _ .truncate _ hcrashed rfl rfl fun _ _ => by decide
  have hwrittenB := @Interleaved.step _ _ _ _ 1 _ _ (.write 2) _ hopenB rfl rfl nofun
  have hplacedB := @Interleaved.step _ _ _ _ 1 _ _ .replace _ hwrittenB rfl rfl nofun
  exact ⟨_, rfl, rfl, save_state_atomic "q.state.json" [[1, 2, 3], [4, 5]] _ hplacedB⟩

/-! ## Calls that share the temporary file -/

/-- What a call has open it has not written beyond the end of its text. -/
theorem Interleaved.offset_le {target : String} {texts : List (List UInt8)} {apart : Bool}
    {s : Savers} (h : Interleaved target texts apart s) :
    ∀ c ∈ s.calls, ∀ file offset, c.phase = .writing file offset → offset ≤ c.text.length := by
  induction h with
  | start =>
      intro c hc file offset hphase
      obtain ⟨text, -, rfl⟩ := List.mem_map.mp hc
      cases hphase
  | step _ hcall hact _ ih =>
      intro x hx file offset hphase
      obtain ⟨j, hj⟩ := List.mem_iff_getElem?.mp hx
      rcases getElem?_set_cases hj with ⟨-, rfl⟩ | ⟨-, hold⟩
      · rcases SaveCall.act_cases hact with ⟨-, -, rfl, -⟩ | ⟨_, _, _, -, hfits, rfl, -⟩ |
          ⟨_, -, rfl, -⟩ | ⟨_, -, rfl, -, -⟩ | ⟨rfl, -⟩ <;> cases hphase
        · exact Nat.zero_le _
        · exact hfits
      · exact ih x (List.mem_of_getElem? hold) file offset hphase

/-- A call that has the file open can write the rest of its text. -/
theorem Interleaved.write_rest {target : String} {texts : List (List UInt8)} {s : Savers} {i : ℕ}
    {c : SaveCall} {file offset : ℕ} (h : Interleaved target texts false s)
    (hcall : s.calls[i]? = some c) (hphase : c.phase = .writing file offset) :
    ∃ d, d.inode = s.disk.inode ∧ Interleaved target texts false
      ⟨s.calls.set i { c with phase := .writing file c.text.length }, d⟩ := by
  have hle := h.offset_le c (List.mem_of_getElem? hcall) file offset hphase
  by_cases hall : offset = c.text.length
  · refine ⟨s.disk, rfl, ?_⟩
    have hsame : { c with phase := SavePhase.writing file c.text.length } = c := by
      rw [← hall, ← hphase]
    obtain ⟨hi, hget⟩ := List.getElem?_eq_some_iff.mp hcall
    rw [hsame, ← hget, List.set_getElem_self]
    exact h
  · have hfits : 0 < c.text.length - offset ∧
        offset + (c.text.length - offset) ≤ c.text.length := by omega
    have hend : offset + (c.text.length - offset) = c.text.length := by omega
    have hact : c.act target (.write (c.text.length - offset)) s.disk =
        some ({ c with phase := .writing file c.text.length }, s.disk.writeAt 0 file offset
          ((c.text.drop offset).take (c.text.length - offset))) := by
      simp only [SaveCall.act, hphase, if_pos hfits]
      rw [hend]
    have hstep := h.step hcall hact nofun
    exact ⟨_, writeAt_inode .., hstep⟩

/-- A call that has the file open can go on to its end: the rename succeeds if the file still has
its name, and takes the name away. -/
theorem Interleaved.finish {target : String} {texts : List (List UInt8)} {s : Savers} {i : ℕ}
    {c : SaveCall} {file offset : ℕ} (h : Interleaved target texts false s)
    (hcall : s.calls[i]? = some c) (hphase : c.phase = .writing file offset) :
    ∃ d, d.inode (tmpName target) = none ∧
      Interleaved target texts false
        ⟨s.calls.set i { c with
          phase := if (s.disk.inode (tmpName target)).isSome then .done else .failed }, d⟩ := by
  obtain ⟨d, hinode, hrest⟩ := h.write_rest hcall hphase
  obtain ⟨hi, -⟩ := List.getElem?_eq_some_iff.mp hcall
  have hcall' := List.getElem?_set_self (a := { c with phase := .writing file c.text.length }) hi
  cases htmp : s.disk.inode (tmpName target) with
  | none =>
      refine ⟨d, by rw [hinode, htmp], ?_⟩
      have hact : SaveCall.act target .replace { c with phase := .writing file c.text.length } d =
          some ({ c with phase := .failed }, d) := by
        simp [SaveCall.act, Disk.rename, hinode, htmp]
      have hstep := hrest.step hcall' hact nofun
      rw [List.set_set] at hstep
      exact hstep
  | some m =>
      cases hrename : d.rename (tmpName target) target with
      | none => simp [Disk.rename, hinode, htmp] at hrename
      | some d' =>
          refine ⟨d', inode_rename_source (tmpName_ne target) hrename, ?_⟩
          have hact : SaveCall.act target .replace { c with phase := .writing file c.text.length }
              d = some ({ c with phase := .done }, d') := by
            simp [SaveCall.act, hrename]
          have hstep := hrest.step hcall' hact nofun
          rw [List.set_set] at hstep
          exact hstep

/-- Where two calls have the temporary file open at once, the second to rename it can fail. -/
theorem save_state_fails_of_shared {target : String} {texts : List (List UInt8)} {s : Savers}
    {i j : ℕ} {a b : SaveCall} (h : Interleaved target texts false s)
    (ha : s.calls[i]? = some a) (hb : s.calls[j]? = some b) (hne : i ≠ j)
    (hopenA : a.isWriting = true) (hopenB : b.isWriting = true) :
    ∃ s', Interleaved target texts false s' ∧ ∃ c ∈ s'.calls, c.phase = .failed := by
  obtain ⟨fileA, offsetA, hphaseA⟩ := phase_of_isWriting hopenA
  obtain ⟨fileB, offsetB, hphaseB⟩ := phase_of_isWriting hopenB
  obtain ⟨d, hgone, hfirst⟩ := h.finish ha hphaseA
  have hb' := (List.getElem?_set_ne (a := { a with
    phase := if (s.disk.inode (tmpName target)).isSome then .done else .failed }) hne).trans hb
  obtain ⟨d', -, hsecond⟩ := hfirst.finish hb' hphaseB
  refine ⟨_, hsecond, { b with phase := .failed }, ?_, rfl⟩
  simp only [hgone]
  exact List.mem_set (List.getElem?_eq_some_iff.mp hb').1 _

/-- Two calls, overlapping.  The second opens the file after the first has written it; the first
then puts an empty file in place, and the second finds nothing to rename. -/
theorem save_state_not_atomic :
    ¬ ∀ (target : String) (texts : List (List UInt8)) (s : Savers),
      Interleaved target texts false s → Whole target s := by
  intro h
  have hstart : Interleaved "q.state.json" [[1, 2], [3, 4]] false _ := .start
  have hopenA := @Interleaved.step _ _ _ _ 0 _ _ .truncate _ hstart rfl rfl nofun
  have hwrittenA := @Interleaved.step _ _ _ _ 0 _ _ (.write 2) _ hopenA rfl rfl nofun
  have hopenB := @Interleaved.step _ _ _ _ 1 _ _ .truncate _ hwrittenA rfl rfl nofun
  have hplacedA := @Interleaved.step _ _ _ _ 0 _ _ .replace _ hopenB rfl rfl nofun
  have hpartial := (h _ _ _ hplacedA).target
  revert hpartial
  decide

end Nodepilot
