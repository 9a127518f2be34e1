import Nodepilot.Lib.Commutes
import Nodepilot.Model.Orchestrator

/-!
# Programs that only ask

Most of what the scheduler does between two changes of its own state is asking
the host: probing a process, reading a slice, looking for a binary.  A program is
`Quiet` if that is all it does: the state it leaves differs from the one it found
in the world only, and the world has moved by harmless operations.

Every probe and every decision of the scheduler is quiet, admission included.
-/

namespace Nodepilot

open Obeys Relation

variable {W : Type}

/-- Catching exceptions adds no steps, where raising leaves no wreck. -/
theorem tryExcept_obeys {α : Type} {step : Sys W → Sys W → Prop} {m : M W α}
    {caught : ExcClass → Bool} {handler : Exc → M W α}
    (hm : Obeys step (· = ·) (fun _ => True) m fun _ _ => True)
    (hhandler : ∀ e, Obeys step (· = ·) (fun _ => True) (handler e) fun _ _ => True) :
    Obeys step (· = ·) (fun _ => True) (tryExcept m caught handler) fun _ _ => True where
  returns hs h := by
    rcases tryExcept_eq_ok.mp h with h | ⟨e, s₁, hbody, -, h⟩
    · exact hm.returns hs h
    · obtain ⟨mid, hpath, rfl⟩ := hm.raises hs hbody
      obtain ⟨hrest, -⟩ := (hhandler e).returns trivial h
      exact ⟨hpath.trans hrest, trivial⟩
  raises hs h := by
    rcases tryExcept_eq_error.mp h with ⟨h, -⟩ | ⟨e, s₁, hbody, -, h⟩
    · exact hm.raises hs h
    · obtain ⟨mid, hpath, rfl⟩ := hm.raises hs hbody
      obtain ⟨mid', hrest, rfl⟩ := (hhandler e).raises trivial h
      exact ⟨_, hpath.trans hrest, rfl⟩

/-! ## Harmless operations -/

variable [Host W]

/-- The world after an operation, answered or not. -/
def after {α : Type} (c : Syscall α) (w : W) : W :=
  match Host.answer c w with
  | .ok _ w' => w'
  | .error _ w' => w'

theorem after_of_ok {α : Type} {c : Syscall α} {w w' : W} {a : α}
    (h : Host.answer c w = .ok a w') : after c w = w' := by
  rw [after, h]

theorem after_of_error {α : Type} {c : Syscall α} {w w' : W} {e : Exc}
    (h : Host.answer c w = .error e w') : after c w = w' := by
  rw [after, h]

/-- The world moves by one harmless operation. -/
def Asks (w w' : W) : Prop :=
  ∃ (α : Type) (c : Syscall α), c.harmless = true ∧ w' = after c w

/-- The world moves by one harmless operation or by polling a child. -/
def Looks (w w' : W) : Prop :=
  Asks w w' ∨ ∃ proc, w' = after (.poll proc) w

/-- The world moves by harmless operations. -/
def Later (w w' : W) : Prop :=
  ReflTransGen Asks w w'

/-- The world moves by harmless operations and polls. -/
def Seen (w w' : W) : Prop :=
  ReflTransGen Looks w w'

omit [Host W] in
/-- The operations that start a command. -/
def Syscall.starts {α : Type} : Syscall α → Bool
  | .popen _ _ _ _ | .tmuxNewSession _ _ _ _ => true
  | _ => false

/-- The world moves by operations that start nothing. -/
def Tended (w w' : W) : Prop :=
  ReflTransGen (fun w₁ w₂ => ∃ (α : Type) (c : Syscall α), c.starts = false ∧ w₂ = after c w₁) w w'

/-- The world moves by operations of any kind. -/
def Onward (w w' : W) : Prop :=
  ReflTransGen (fun w₁ w₂ => ∃ (α : Type) (c : Syscall α), w₂ = after c w₁) w w'

theorem Later.refl (w : W) : Later w w :=
  ReflTransGen.refl

theorem Later.trans {w w₁ w₂ : W} (h : Later w w₁) (h' : Later w₁ w₂) : Later w w₂ :=
  ReflTransGen.trans h h'

theorem Later.of_ok {α : Type} {c : Syscall α} {w w' : W} {a : α} (hc : c.harmless = true)
    (h : Host.answer c w = .ok a w') : Later w w' :=
  ReflTransGen.single ⟨α, c, hc, (after_of_ok h).symm⟩

theorem Later.of_error {α : Type} {c : Syscall α} {w w' : W} {e : Exc} (hc : c.harmless = true)
    (h : Host.answer c w = .error e w') : Later w w' :=
  ReflTransGen.single ⟨α, c, hc, (after_of_error h).symm⟩

theorem Seen.refl (w : W) : Seen w w :=
  ReflTransGen.refl

theorem Seen.trans {w w₁ w₂ : W} (h : Seen w w₁) (h' : Seen w₁ w₂) : Seen w w₂ :=
  ReflTransGen.trans h h'

theorem Later.seen {w w' : W} (h : Later w w') : Seen w w' :=
  ReflTransGen.mono (fun _ _ hask => .inl hask) _ _ h

theorem Onward.refl (w : W) : Onward w w :=
  ReflTransGen.refl

theorem Onward.trans {w w₁ w₂ : W} (h : Onward w w₁) (h' : Onward w₁ w₂) : Onward w w₂ :=
  ReflTransGen.trans h h'

theorem Seen.onward {w w' : W} (h : Seen w w') : Onward w w' := by
  refine ReflTransGen.mono ?_ _ _ h
  rintro w₁ w₂ (⟨α, c, -, hafter⟩ | ⟨proc, hafter⟩)
  · exact ⟨α, c, hafter⟩
  · exact ⟨_, .poll proc, hafter⟩

theorem Later.onward {w w' : W} (h : Later w w') : Onward w w' :=
  (Later.seen h).onward

theorem Onward.of_ok {α : Type} {c : Syscall α} {w w' : W} {a : α}
    (h : Host.answer c w = .ok a w') : Onward w w' :=
  ReflTransGen.single ⟨α, c, (after_of_ok h).symm⟩

theorem Onward.of_error {α : Type} {c : Syscall α} {w w' : W} {e : Exc}
    (h : Host.answer c w = .error e w') : Onward w w' :=
  ReflTransGen.single ⟨α, c, (after_of_error h).symm⟩

namespace Tended

theorem refl (w : W) : Tended w w :=
  ReflTransGen.refl

theorem trans {w w₁ w₂ : W} (h : Tended w w₁) (h' : Tended w₁ w₂) : Tended w w₂ :=
  ReflTransGen.trans h h'

theorem of_after {α : Type} {c : Syscall α} {w w' : W} (hc : c.starts = false)
    (h : after c w = w') : Tended w w' :=
  ReflTransGen.single ⟨α, c, hc, h.symm⟩

theorem onward {w w' : W} (h : Tended w w') : Onward w w' := by
  refine ReflTransGen.mono ?_ _ _ h
  rintro w₁ w₂ ⟨α, c, -, hafter⟩
  exact ⟨α, c, hafter⟩

end Tended

theorem Seen.tended {w w' : W} (h : Seen w w') : Tended w w' := by
  refine ReflTransGen.mono ?_ _ _ h
  rintro w₁ w₂ (⟨α, c, hharmless, hafter⟩ | ⟨proc, hafter⟩)
  · refine ⟨α, c, ?_, hafter⟩
    cases c <;> first | rfl | cases hharmless
  · exact ⟨_, .poll proc, rfl, hafter⟩

/-- Every world on the way from one to another has a property. -/
def Throughout (P : W → Prop) (w w' : W) : Prop :=
  ∀ v, Onward w v → Onward v w' → P v

namespace Throughout

variable {P : W → Prop} {w w' v v' : W}

theorem start (h : Throughout P w w') (honward : Onward w w') : P w :=
  h w (.refl w) honward

theorem stop (h : Throughout P w w') (honward : Onward w w') : P w' :=
  h w' honward (.refl w')

/-- A part of the way. -/
theorem part (h : Throughout P w w') (hbefore : Onward w v) (hafter : Onward v' w') :
    Throughout P v v' :=
  fun u hu hu' => h u (hbefore.trans hu) (hu'.trans hafter)

end Throughout

/-! ## Programs that only move the world -/

omit [Host W] in
/-- Nothing but the world moves, in one step of a relation. -/
def Moved (R : W → W → Prop) (s s' : Sys W) : Prop :=
  ∃ w, R s.world w ∧ s' = { s with world := w }

/-- A program that only moves the world, in steps of a relation. -/
def Only {α : Type} (R : W → W → Prop) (m : M W α) : Prop :=
  Obeys (Moved R) (· = ·) (fun _ => True) m (fun _ _ => True)

/-- A program that only asks. -/
abbrev Quiet {α : Type} (m : M W α) : Prop :=
  Only Asks m

/-- A program that only asks and polls. -/
abbrev Looking {α : Type} (m : M W α) : Prop :=
  Only Looks m

namespace Only

variable {α β : Type} {R : W → W → Prop} {m : M W α}

omit [Host W] in
theorem path_world {s s' : Sys W} (h : ReflTransGen (Moved R) s s') :
    ∃ w, ReflTransGen R s.world w ∧ s' = { s with world := w } := by
  induction h with
  | refl => exact ⟨_, .refl, rfl⟩
  | tail _ hlast ih =>
      obtain ⟨w, hpath, rfl⟩ := ih
      obtain ⟨w', hmove, rfl⟩ := hlast
      exact ⟨w', ReflTransGen.tail hpath hmove, rfl⟩

omit [Host W] in
/-- What such a program leaves when it returns. -/
theorem of_ok (h : Only R m) {s s' : Sys W} {a : α} (hm : m s = .ok a s') :
    ∃ w, ReflTransGen R s.world w ∧ s' = { s with world := w } :=
  path_world (h.returns trivial hm).1

omit [Host W] in
/-- What such a program leaves when it raises. -/
theorem of_error (h : Only R m) {s s' : Sys W} {e : Exc} (hm : m s = .error e s') :
    ∃ w, ReflTransGen R s.world w ∧ s' = { s with world := w } := by
  obtain ⟨mid, hpath, rfl⟩ := h.raises trivial hm
  exact path_world hpath

/-! ## Rules -/

omit [Host W] in
protected theorem pure (a : α) : Only R (pure a : M W α) :=
  Obeys.pure fun _ _ => trivial

omit [Host W] in
protected theorem bind {f : α → M W β} (hm : Only R m) (hf : ∀ a, Only R (f a)) :
    Only R (m >>= f) :=
  Obeys.bind hm fun a => (hf a).weaken (fun _ _ => trivial) fun _ _ _ => trivial

omit [Host W] in
protected theorem map {f : α → β} (hm : Only R m) : Only R (f <$> m) := by
  rw [map_eq_pure_bind]
  exact hm.bind fun a => .pure _

omit [Host W] in
theorem get_bind {f : Sys W → M W β} (hf : ∀ s, Only R (f s)) : Only R (get >>= f) :=
  Obeys.get_bind fun s _ => (hf s).weaken (fun _ _ => trivial) fun _ _ _ => trivial

omit [Host W] in
protected theorem throw (e : Exc) : Only R (throw e : M W α) :=
  Obeys.throw fun _ => rfl

omit [Host W] in
protected theorem liftExcept (x : Except Exc α) : Only R (liftExcept x : M W α) := by
  cases x with
  | ok a => exact .pure a
  | error e => exact .throw e

theorem of_after {c : Syscall α} (hc : ∀ w, R w (after c w)) : Only R (call c : M W α) where
  returns _ hm := by
    obtain ⟨w, hanswer, rfl⟩ := call_eq_ok.mp hm
    exact ⟨.single ⟨w, after_of_ok hanswer ▸ hc _, rfl⟩, trivial⟩
  raises _ hm := by
    obtain ⟨w, hanswer, rfl⟩ := call_eq_error.mp hm
    exact ⟨_, .single ⟨w, after_of_error hanswer ▸ hc _, rfl⟩, rfl⟩

protected theorem call {c : Syscall α} (hc : c.harmless = true) : Quiet (call c : M W α) :=
  of_after fun _ => ⟨α, c, hc, rfl⟩

theorem poll (proc : Popen) : Looking (call (.poll proc) : M W (Option ℤ)) :=
  of_after fun _ => .inr ⟨proc, rfl⟩

theorem looking (h : Quiet m) : Looking m :=
  h.mono (fun _ _ ⟨w, hask, hs⟩ => ⟨w, .inl hask, hs⟩) fun _ _ hs => hs

omit [Host W] in
protected theorem tryExcept {caught : ExcClass → Bool} {handler : Exc → M W α} (hm : Only R m)
    (hhandler : ∀ e, Only R (handler e)) : Only R (tryExcept m caught handler) :=
  tryExcept_obeys hm hhandler

omit [Host W] in
protected theorem sweep {ι : Type} {body : ι → M W Bool} {items : List ι}
    (h : ∀ i, Only R (body i)) : Only R (sweep body items) :=
  Obeys.sweep_inv fun i _ => h i

end Only

/-! ## Programs made of questions -/

/-- No operation looks at the jobs. -/
theorem call_commutes {α : Type} (P : List Job → Prop) (change : List Job → List Job)
    (c : Syscall α) :
    Commutes (fun s => P s.jobs) (fun s => { s with jobs := change s.jobs })
      (call c : M W α) where
  same s _ := by
    unfold call
    cases Host.answer c s.world <;> rfl
  keeps s a s' hs h := by
    obtain ⟨w, -, rfl⟩ := call_eq_ok.mp h
    exact hs
  raises s e s' hs h := by
    obtain ⟨w, -, rfl⟩ := call_eq_error.mp h
    exact hs

omit [Host W] in
theorem tryExcept_commutes {α : Type} {P : Sys W → Prop} {F : Sys W → Sys W} {m : M W α}
    {caught : ExcClass → Bool} {handler : Exc → M W α} (hm : Commutes P F m)
    (hhandler : ∀ e, Commutes P F (handler e)) :
    Commutes P F (tryExcept m caught handler) where
  same s hs := by
    unfold tryExcept
    rw [hm.same s hs]
    cases hbody : m s with
    | ok a s₁ => rfl
    | error e s₁ =>
        simp only [carry_error]
        split
        · exact (hhandler e).same s₁ (hm.raises s e s₁ hs hbody)
        · rfl
  keeps s a s' hs h := by
    rcases tryExcept_eq_ok.mp h with h | ⟨e, s₁, hbody, -, h⟩
    · exact hm.keeps s a s' hs h
    · exact (hhandler e).keeps s₁ a s' (hm.raises s e s₁ hs hbody) h
  raises s e s' hs h := by
    rcases tryExcept_eq_error.mp h with ⟨h, -⟩ | ⟨e₁, s₁, hbody, -, h⟩
    · exact hm.raises s e s' hs h
    · exact (hhandler e₁).raises s₁ e s' (hm.raises s e₁ s₁ hs hbody) h

/-- A program put together from harmless operations, reading nothing of the scheduler's own
state but the cooldown. -/
inductive Asking : {α : Type} → M W α → Prop
  | pure {α : Type} (a : α) : Asking (pure a : M W α)
  | throw {α : Type} (e : Exc) : Asking (throw e : M W α)
  | call {α : Type} {c : Syscall α} (hc : c.harmless = true) : Asking (Nodepilot.call c : M W α)
  | cooldown {α : Type} {f : ℚ → M W α} (hf : ∀ end_, Asking (f end_)) :
      Asking (get >>= fun s => f s.cooldownUntil)
  | bind {α β : Type} {m : M W α} {f : α → M W β} (hm : Asking m) (hf : ∀ a, Asking (f a)) :
      Asking (m >>= f)
  | tryExcept {α : Type} {m : M W α} {caught : ExcClass → Bool} {handler : Exc → M W α}
      (hm : Asking m) (hhandler : ∀ e, Asking (handler e)) :
      Asking (Nodepilot.tryExcept m caught handler)

namespace Asking

variable {α β : Type} {m : M W α}

theorem liftExcept (x : Except Exc α) : Asking (liftExcept x : M W α) := by
  cases x with
  | ok a => exact .pure a
  | error e => exact .throw e

/-- Such a program only asks. -/
theorem quiet (h : Asking m) : Quiet m := by
  induction h with
  | pure a => exact .pure a
  | throw e => exact .throw e
  | call hc => exact .call hc
  | cooldown hf ih => exact .get_bind fun s => ih s.cooldownUntil
  | bind hm hf ihm ihf => exact .bind ihm ihf
  | tryExcept hm hhandler ihm ihhandler => exact .tryExcept ihm ihhandler

/-- Such a program does not look at the jobs. -/
theorem commutes (h : Asking m) (P : List Job → Prop) (change : List Job → List Job) :
    Commutes (fun s => P s.jobs) (fun s => { s with jobs := change s.jobs }) m := by
  induction h with
  | pure a => exact .pure a
  | throw e => exact .throw e
  | call hc => exact call_commutes P change _
  | cooldown hf ih => exact .get_bind (fun _ _ => rfl) fun s _ => ih s.cooldownUntil
  | bind hm hf ihm ihf => exact .bind ihm ihf
  | tryExcept hm hhandler ihm ihhandler => exact tryExcept_commutes ihm ihhandler

end Asking

/-! ## The probes of `cgroups.py` -/

theorem asking_userBusSocketExists : Asking (userBusSocketExists (W := W)) := by
  unfold userBusSocketExists
  refine .bind (.call rfl) fun runtime => ?_
  cases runtime with
  | none => exact .bind (.call rfl) fun uid => .call rfl
  | some runtime =>
      dsimp only
      split
      · exact .call rfl
      · exact .bind (.call rfl) fun uid => .call rfl

theorem asking_systemdRunAvailable : Asking (systemdRunAvailable (W := W)) := by
  unfold systemdRunAvailable
  refine .bind (.call rfl) fun found => ?_
  cases found with
  | false => exact .pure _
  | true =>
      refine .bind (.call rfl) fun runtime => ?_
      cases runtime with
      | none => exact asking_userBusSocketExists
      | some runtime =>
          dsimp only
          split
          · exact .pure _
          · exact asking_userBusSocketExists

theorem asking_firstDir (cands : List String) : Asking (firstDir (W := W) cands) := by
  induction cands with
  | nil => exact .pure _
  | cons cand rest ih =>
      refine .bind (.call rfl) fun found => ?_
      cases found with
      | true => exact .pure _
      | false => exact ih

theorem quiet_firstDir (cands : List String) : Quiet (firstDir (W := W) cands) :=
  (asking_firstDir cands).quiet

theorem asking_cgroupDir (sliceName : String) : Asking (cgroupDir (W := W) sliceName) :=
  .bind (.call rfl) fun _ => asking_firstDir _

theorem asking_readMemRaw (sliceName fname : String) :
    Asking (readMemRaw (W := W) sliceName fname) := by
  refine .bind (asking_cgroupDir sliceName) fun cg => ?_
  cases cg with
  | none => exact .pure _
  | some cg => exact .tryExcept (.bind (.call rfl) fun text => .pure _) fun e => .pure _

theorem asking_readMemGb (sliceName fname : String) :
    Asking (readMemGb (W := W) sliceName fname) := by
  refine .bind (asking_readMemRaw sliceName fname) fun raw => ?_
  cases raw with
  | none => exact .pure _
  | some raw =>
      dsimp only
      split <;> exact .pure _

theorem quiet_scopeIsActive (site : Site) (jobId sliceName : String) :
    Quiet (scopeIsActive (W := W) site jobId sliceName) := by
  refine .bind (asking_cgroupDir sliceName).quiet fun cg => ?_
  cases cg with
  | none => exact .pure _
  | some cg => exact .call rfl

theorem asking_setOomScoreAdj (pid value : ℤ) : Asking (setOomScoreAdj (W := W) pid value) :=
  .tryExcept (.bind (.call rfl) fun _ => .pure _) fun _ => .pure _

theorem quiet_setOomScoreAdj (pid value : ℤ) : Quiet (setOomScoreAdj (W := W) pid value) :=
  (asking_setOomScoreAdj pid value).quiet

theorem quiet_setSelfOomScoreAdj (value : ℤ) : Quiet (setSelfOomScoreAdj (W := W) value) :=
  .bind (.call rfl) fun pid => quiet_setOomScoreAdj pid value

theorem quiet_journalReportsOom (minutes : ℕ) : Quiet (journalReportsOom (W := W) minutes) := by
  refine .bind (.call rfl) fun found => ?_
  cases found with
  | false => exact .pure _
  | true =>
      refine .bind (.tryExcept (.map (.call rfl)) fun e => .pure _) fun stdout => ?_
      cases stdout with
      | none => exact .pure _
      | some stdout => exact .pure _

/-! ## Admission -/

theorem asking_freeRamGb : Asking (freeRamGb (W := W)) :=
  .tryExcept (.bind (.call rfl) fun _ => .liftExcept _) fun _ => .pure _

theorem quiet_freeRamGb : Quiet (freeRamGb (W := W)) :=
  asking_freeRamGb.quiet

theorem asking_inCooldown : Asking (inCooldown (W := W)) :=
  .bind (.call rfl) fun now => .cooldown (f := fun end_ => pure (max 0 (end_ - now)))
    fun _ => .pure _

theorem quiet_inCooldown : Quiet (inCooldown (W := W)) :=
  asking_inCooldown.quiet

theorem asking_sliceUsedGb (config : Config) : Asking (sliceUsedGb (W := W) config) := by
  unfold sliceUsedGb
  split
  · exact .pure _
  · exact asking_readMemGb _ _

theorem quiet_sliceUsedGb (config : Config) : Quiet (sliceUsedGb (W := W) config) :=
  (asking_sliceUsedGb config).quiet

theorem asking_sliceCapGb (config : Config) : Asking (sliceCapGb (W := W) config) := by
  unfold sliceCapGb
  split
  · exact .pure _
  · exact asking_readMemGb _ _

theorem quiet_sliceCapGb (config : Config) : Quiet (sliceCapGb (W := W) config) :=
  (asking_sliceCapGb config).quiet

theorem asking_checkRam (config : Config) (job : Job) (running : List Job) :
    Asking (checkRam (W := W) config job running) := by
  refine .bind (asking_sliceUsedGb config) fun used => ?_
  cases used with
  | some used => exact .bind (asking_sliceCapGb config) fun cap => .pure _
  | none =>
      dsimp only
      split
      · exact .pure _
      · exact .bind asking_freeRamGb fun freeNow => .pure _

theorem quiet_checkRam (config : Config) (job : Job) (running : List Job) :
    Quiet (checkRam (W := W) config job running) :=
  (asking_checkRam config job running).quiet

theorem asking_paused (config : Config) : Asking (paused (W := W) config) := by
  unfold paused
  split
  · exact .pure _
  · exact .call rfl

theorem quiet_paused (config : Config) : Quiet (paused (W := W) config) :=
  (asking_paused config).quiet

theorem asking_canLaunch (config : Config) (job : Job) (jobs : List Job) :
    Asking (canLaunch (W := W) config job jobs) := by
  refine .bind (asking_paused config) fun pause => ?_
  cases pause with
  | true => exact .pure _
  | false =>
      refine .bind asking_inCooldown fun remaining => ?_
      split
      · exact .pure _
      · split
        · exact .pure _
        · refine .bind (asking_checkRam config job _) fun decision => ?_
          split <;> exact .pure _

theorem quiet_canLaunch (config : Config) (job : Job) (jobs : List Job) :
    Quiet (canLaunch (W := W) config job jobs) :=
  (asking_canLaunch config job jobs).quiet

/-! ## The runner -/

theorem asking_placementPrefix (placement : Placement) :
    Asking (placementPrefix (W := W) placement) := by
  unfold placementPrefix
  split
  · exact .pure _
  · refine .bind (.call rfl) fun numactl => ?_
    cases numactl with
    | true => exact .pure _
    | false =>
        refine .bind (.call rfl) fun taskset => ?_
        cases taskset <;> exact .pure _

theorem asking_buildCommand (site : Site) (job : Job) (placement : Placement) :
    Asking (buildCommand (W := W) site job placement) := by
  refine .bind (asking_placementPrefix placement) fun pinning => ?_
  dsimp only
  split
  · exact .pure _
  · refine .bind asking_systemdRunAvailable fun available => ?_
    cases available <;> exact .pure _

theorem quiet_buildCommand (site : Site) (job : Job) (placement : Placement) :
    Quiet (buildCommand (W := W) site job placement) :=
  (asking_buildCommand site job placement).quiet

theorem quiet_pidAlive (pid : ℤ) : Quiet (pidAlive (W := W) pid) := by
  refine .bind (.tryExcept (.bind (.call rfl) fun _ => .pure _) fun e => .pure _) fun answer => ?_
  cases answer with
  | some answer => exact .pure _
  | none => exact .tryExcept (.bind (.call rfl) fun text => .pure _) fun e => .pure _

theorem quiet_tmuxAlive (session : String) : Quiet (tmuxAlive (W := W) session) := by
  refine .bind (.call rfl) fun found => ?_
  cases found with
  | false => exact .pure _
  | true => exact .bind (.call rfl) fun returncode => .pure _

theorem looking_isAlive (job : Job) : Looking (isAlive (W := W) job) := by
  unfold isAlive
  split
  · exact (quiet_tmuxAlive _).looking
  · refine .bind (.liftExcept _) fun pid => .get_bind fun s => ?_
    split
    · exact .bind (.poll _) fun rc => .pure _
    · exact (quiet_pidAlive pid).looking
  · exact .pure _

theorem looking_returncode (job : Job) : Looking (returncode (W := W) job) := by
  unfold returncode
  split
  · refine .bind (.liftExcept _) fun pid => .get_bind fun s => ?_
    split
    · exact .pure _
    · exact .bind (.poll _) fun rc => .pure _
  · exact .pure _

theorem asking_workdirOf (job : Job) : Asking (workdirOf (W := W) job) := by
  unfold workdirOf
  split
  · exact .pure _
  · exact .call rfl

theorem quiet_workdirOf (job : Job) : Quiet (workdirOf (W := W) job) :=
  (asking_workdirOf job).quiet

theorem quiet_aliveScope (site : Site) (job : Job) : Quiet (aliveScope (W := W) site job) := by
  unfold aliveScope
  split
  · exact .pure _
  · exact quiet_scopeIsActive site job.id _

/-! ## Pins -/

theorem quiet_groupPids (pgid : ℤ) (entries : List String) :
    Quiet (groupPids (W := W) pgid entries) := by
  induction entries with
  | nil => exact .pure _
  | cons entry rest ih =>
      unfold groupPids
      split
      · refine .bind (.tryExcept (.bind (.call rfl) fun text => .pure _) fun e => .pure _)
          fun group => .bind ih fun later => ?_
        split <;> exact .pure _
      · exact ih

theorem quiet_pidsForJob (job : Job) : Quiet (pidsForJob (W := W) job) := by
  unfold pidsForJob
  split
  · refine .bind (.liftExcept _) fun root => ?_
    refine .bind (.tryExcept (.map (.call rfl)) fun e => .pure _) fun pgid => ?_
    cases pgid with
    | none => exact .pure _
    | some pgid => exact .bind (.call rfl) fun entries => quiet_groupPids pgid entries
  · refine .bind (.call rfl) fun found => ?_
    cases found with
    | false => exact .pure _
    | true => exact .bind (.call rfl) fun stdout => .pure _

theorem quiet_cpusAllowed (pid : ℤ) : Quiet (cpusAllowed (W := W) pid) :=
  .tryExcept (.bind (.call rfl) fun _ => .liftExcept _) fun _ => .pure _

theorem quiet_repin (job : Job) (expected : Finset ℤ) (pid : ℤ) :
    Quiet (repin (W := W) job expected pid) := by
  refine .bind (.tryExcept (.map (.call rfl)) fun e => .pure _) fun comm => ?_
  cases comm with
  | none => exact .pure _
  | some comm =>
      dsimp only
      split
      · exact .pure _
      · refine .bind (quiet_cpusAllowed pid) fun current => ?_
        cases current with
        | none => exact .pure _
        | some current =>
            dsimp only
            split
            · exact .bind (.call rfl) fun _ => .pure _
            · exact .pure _

theorem quiet_enforcePin (job : Job) : Quiet (enforcePin (W := W) job) := by
  unfold enforcePin
  split
  · exact .pure _
  · refine .bind (.call rfl) fun found => ?_
    cases found with
    | false => exact .pure _
    | true =>
        refine .bind (.liftExcept _) fun expected => .bind (quiet_pidsForJob job) fun pids => ?_
        exact .sweep fun pid => quiet_repin job expected pid

/-- Enforcing pins changes nothing the scheduler keeps. -/
theorem quiet_enforcePins : Quiet (enforcePins (W := W)) := by
  refine .get_bind fun s => .bind (.sweep fun i => .get_bind fun s => ?_) fun _ => .pure _
  split
  · exact .pure _
  · split
    · exact .tryExcept (quiet_enforcePin _) fun e => .pure _
    · exact .pure _

end Nodepilot
