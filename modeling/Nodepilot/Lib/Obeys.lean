import Mathlib

/-!
# Programs that move a state by allowed steps

A program over a state that may raise is an `EStateM ε σ α`.  `Obeys step wreck P
m Q` says what `m` does to the state on the way: started where `P` holds it only
makes `step`s, and

* if it returns `a`, the state is reached by steps and satisfies `Q a`;
* if it raises, the state is a `wreck` of one reached by steps: what the
  interrupted operation left half done.

One such specification for each function of a program is enough for any
invariant of the whole program: an invariant that each single step keeps is
kept by every path of steps (`invariant_of_path`), and whatever the rule for a
construct of the language is, it is proved here once.
-/

open Relation

namespace Obeys

variable {ε σ α β ι : Type}

/-! ## Results of composed programs -/

theorem bind_of_ok {m : EStateM ε σ α} {f : α → EStateM ε σ β} {s s₁ : σ} {a : α}
    (h : m s = .ok a s₁) : (m >>= f) s = f a s₁ := by
  change EStateM.bind m f s = _
  rw [EStateM.bind, h]

theorem bind_of_error {m : EStateM ε σ α} {f : α → EStateM ε σ β} {s s₁ : σ} {e : ε}
    (h : m s = .error e s₁) : (m >>= f) s = .error e s₁ := by
  change EStateM.bind m f s = _
  rw [EStateM.bind, h]

theorem bind_eq_ok {m : EStateM ε σ α} {f : α → EStateM ε σ β} {s s' : σ} {b : β} :
    (m >>= f) s = .ok b s' ↔ ∃ a s₁, m s = .ok a s₁ ∧ f a s₁ = .ok b s' := by
  change EStateM.bind m f s = _ ↔ _
  unfold EStateM.bind
  cases m s with
  | ok a s₁ => simp
  | error e s₁ => simp

theorem bind_eq_error {m : EStateM ε σ α} {f : α → EStateM ε σ β} {s s' : σ} {e : ε} :
    (m >>= f) s = .error e s' ↔
      m s = .error e s' ∨ ∃ a s₁, m s = .ok a s₁ ∧ f a s₁ = .error e s' := by
  change EStateM.bind m f s = _ ↔ _
  unfold EStateM.bind
  cases m s with
  | ok a s₁ => simp
  | error e s₁ => simp

@[simp] theorem pure_apply (a : α) (s : σ) : (pure a : EStateM ε σ α) s = .ok a s := rfl

@[simp] theorem throw_apply (e : ε) (s : σ) : (throw e : EStateM ε σ α) s = .error e s := rfl

@[simp] theorem get_apply (s : σ) : (get : EStateM ε σ σ) s = .ok s s := rfl

/-! ## The specification -/

end Obeys

/-- `m`, started where `P` holds, makes only `step`s and returns where `Q` holds. -/
structure Obeys {ε σ α : Type} (step wreck : σ → σ → Prop) (P : σ → Prop) (m : EStateM ε σ α)
    (Q : α → σ → Prop) : Prop where
  returns : ∀ {s a s'}, P s → m s = .ok a s' → ReflTransGen step s s' ∧ Q a s'
  raises : ∀ {s e s'}, P s → m s = .error e s' → ∃ mid, ReflTransGen step s mid ∧ wreck mid s'

namespace Obeys

variable {ε σ α β ι : Type} {step wreck : σ → σ → Prop} {P P' : σ → Prop}
  {m : EStateM ε σ α} {Q Q' : α → σ → Prop}

theorem weaken (h : Obeys step wreck P' m Q') (hpre : ∀ s, P s → P' s)
    (hpost : ∀ a s, Q' a s → Q a s) : Obeys step wreck P m Q where
  returns hs hm := (h.returns (hpre _ hs) hm).imp_right (hpost _ _)
  raises hs hm := h.raises (hpre _ hs) hm

/-- Fewer steps and fewer wrecks are also more of them. -/
theorem mono {step' wreck' : σ → σ → Prop} (h : Obeys step wreck P m Q)
    (hstep : ∀ s s', step s s' → step' s s') (hwreck : ∀ s s', wreck s s' → wreck' s s') :
    Obeys step' wreck' P m Q where
  returns hs hm := (h.returns hs hm).imp_left fun hpath => ReflTransGen.mono hstep _ _ hpath
  raises hs hm := by
    obtain ⟨mid, hpath, hw⟩ := h.raises hs hm
    exact ⟨mid, ReflTransGen.mono hstep _ _ hpath, hwreck _ _ hw⟩

/-! ## Rules -/

protected theorem pure {a : α} (h : ∀ s, P s → Q a s) :
    Obeys (ε := ε) step wreck P (pure a) Q where
  returns hs hm := by
    cases hm
    exact ⟨.refl, h _ hs⟩
  raises _ hm := by cases hm

protected theorem throw {e : ε} (h : ∀ s, wreck s s) :
    Obeys step wreck P (throw e : EStateM ε σ α) Q where
  returns _ hm := by cases hm
  raises {s _ _} _ hm := by
    cases hm
    exact ⟨s, .refl, h s⟩

protected theorem bind {R : α → σ → Prop} {f : α → EStateM ε σ β} {Q : β → σ → Prop}
    (hm : Obeys step wreck P m R) (hf : ∀ a, Obeys step wreck (R a) (f a) Q) :
    Obeys step wreck P (m >>= f) Q where
  returns hs h := by
    obtain ⟨a, s₁, hfirst, hsecond⟩ := bind_eq_ok.mp h
    obtain ⟨hpath, hR⟩ := hm.returns hs hfirst
    obtain ⟨hrest, hQ⟩ := (hf a).returns hR hsecond
    exact ⟨hpath.trans hrest, hQ⟩
  raises hs h := by
    rcases bind_eq_error.mp h with hfirst | ⟨a, s₁, hfirst, hsecond⟩
    · exact hm.raises hs hfirst
    · obtain ⟨hpath, hR⟩ := hm.returns hs hfirst
      obtain ⟨mid, hrest, hw⟩ := (hf a).raises hR hsecond
      exact ⟨mid, hpath.trans hrest, hw⟩

/-- Reading the state at the head of a block: the rest may be specified for the
state that was read. -/
theorem get_bind {f : σ → EStateM ε σ β} {Q : β → σ → Prop}
    (h : ∀ s₀, P s₀ → Obeys step wreck (fun s => s = s₀) (f s₀) Q) :
    Obeys step wreck P (get >>= f) Q where
  returns {s _ _} hs hm := (h s hs).returns rfl (by simpa [bind_eq_ok] using hm)
  raises {s _ _} hs hm := (h s hs).raises rfl (by simpa [bind_eq_error] using hm)

protected theorem modify {f : σ → σ} {Q : PUnit → σ → Prop}
    (h : ∀ s, P s → step s (f s) ∧ Q ⟨⟩ (f s)) :
    Obeys (ε := ε) step wreck P (modify f) Q where
  returns hs hm := by
    cases hm
    exact ⟨.single (h _ hs).1, (h _ hs).2⟩
  raises _ hm := by cases hm

/-! ## Sweeps -/

/-- `for i in …: changed |= body(i)`. -/
def sweep (body : ι → EStateM ε σ Bool) : List ι → EStateM ε σ Bool
  | [] => pure false
  | i :: rest => do
      let changed ← body i
      let later ← sweep body rest
      pure (changed || later)

/-- A sweep goes on from where its first items have brought it. -/
theorem sweep_append {body : ι → EStateM ε σ Bool} {items rest : List ι} {s s₁ : σ} {b : Bool}
    (h : sweep body items s = .ok b s₁) :
    sweep body (items ++ rest) s = (sweep body rest >>= fun later => pure (b || later)) s₁ := by
  induction items generalizing s b with
  | nil =>
      cases h
      simp only [List.nil_append, Bool.false_or]
      exact congrFun (bind_pure (sweep body rest)).symm _
  | cons i items ih =>
      obtain ⟨first, s₂, hfirst, h⟩ := bind_eq_ok.mp h
      obtain ⟨mid, s₃, hmid, hpure⟩ := bind_eq_ok.mp h
      cases hpure
      have hrest := ih hmid
      rw [List.cons_append, sweep, bind_of_ok hfirst]
      cases hlast : sweep body rest s₁ with
      | ok later s₄ =>
          rw [bind_of_ok hlast] at hrest ⊢
          rw [bind_of_ok hrest, Bool.or_assoc]
      | error e s₄ =>
          rw [bind_of_error hlast] at hrest ⊢
          rw [bind_of_error hrest]

theorem sweep_append_of_error {body : ι → EStateM ε σ Bool} {items rest : List ι} {s s₁ : σ} {e : ε}
    (h : sweep body items s = .error e s₁) : sweep body (items ++ rest) s = .error e s₁ := by
  induction items generalizing s with
  | nil => cases h
  | cons i items ih =>
      rw [List.cons_append, sweep]
      rcases bind_eq_error.mp h with hfirst | ⟨first, s₂, hfirst, h⟩
      · exact bind_of_error hfirst
      · rw [bind_of_ok hfirst]
        rcases bind_eq_error.mp h with hmore | ⟨more, s₃, -, hpure⟩
        · exact bind_of_error (ih hmore)
        · cases hpure

/-- A sweep that returns has swept its first items before the others. -/
theorem sweep_append_eq_ok {body : ι → EStateM ε σ Bool} {items rest : List ι} {s s' : σ}
    {b : Bool} (h : sweep body (items ++ rest) s = .ok b s') :
    ∃ b₁ b₂ s₁, sweep body items s = .ok b₁ s₁ ∧ sweep body rest s₁ = .ok b₂ s' := by
  induction items generalizing s b with
  | nil => exact ⟨false, b, s, rfl, h⟩
  | cons i items ih =>
      obtain ⟨first, s₂, hfirst, h⟩ := bind_eq_ok.mp h
      obtain ⟨mid, s₃, hmid, hpure⟩ := bind_eq_ok.mp h
      cases hpure
      obtain ⟨b₁, b₂, s₁, hitems, hrest⟩ := ih hmid
      refine ⟨first || b₁, b₂, s₁, ?_, hrest⟩
      rw [sweep, bind_of_ok hfirst, bind_of_ok hitems]
      rfl

/-- A sweep whose body turns the invariant of the items still to come into that of the
items after it. -/
theorem sweep_of {body : ι → EStateM ε σ Bool} {I : List ι → σ → Prop}
    (h : ∀ i rest, Obeys step wreck (I (i :: rest)) (body i) fun _ => I rest) :
    ∀ items, Obeys step wreck (I items) (sweep body items) fun _ => I [] := by
  intro items
  induction items with
  | nil => exact .pure fun _ hs => hs
  | cons i rest ih =>
      refine .bind (h i rest) fun changed => .bind ih fun later => ?_
      exact .pure fun _ hs => hs

/-- A sweep whose body keeps an invariant keeps it. -/
theorem sweep_inv {body : ι → EStateM ε σ Bool} {I : σ → Prop} {items : List ι}
    (h : ∀ i ∈ items, Obeys step wreck I (body i) fun _ => I) :
    Obeys step wreck I (sweep body items) fun _ => I := by
  induction items with
  | nil => exact .pure fun _ hs => hs
  | cons i rest ih =>
      refine .bind (h i (List.mem_cons_self ..)) fun changed => .bind
        (ih fun j hj => h j (List.mem_cons_of_mem _ hj)) fun later => ?_
      exact .pure fun _ hs => hs

/-- A sweep that returns, with what its turns have said so far. -/
theorem sweep_said {body : ι → EStateM ε σ Bool} {I : List ι → Bool → σ → Prop}
    (h : ∀ i rest said s changed s', I (i :: rest) said s → body i s = .ok changed s' →
      I rest (said || changed) s')
    {items : List ι} {said changed : Bool} {s s' : σ} (hI : I items said s)
    (hrun : sweep body items s = .ok changed s') : I [] (said || changed) s' := by
  induction items generalizing s said changed with
  | nil =>
      cases hrun
      rw [Bool.or_false]
      exact hI
  | cons i rest ih =>
      obtain ⟨first, s₁, hfirst, hrun⟩ := bind_eq_ok.mp hrun
      obtain ⟨later, s₂, hrest, hpure⟩ := bind_eq_ok.mp hrun
      cases hpure
      rw [← Bool.or_assoc]
      exact ih (h i rest said s first s₁ hI hfirst) hrest

/-- A sweep that says it has changed nothing: each of its turns has said so. -/
theorem sweep_eq_false {body : ι → EStateM ε σ Bool} {I : σ → Prop} {items : List ι}
    (h : ∀ i ∈ items, ∀ s s', I s → body i s = .ok false s' → ReflTransGen step s s' ∧ I s')
    {s s' : σ} (hs : I s) (hrun : sweep body items s = .ok false s') :
    ReflTransGen step s s' ∧ I s' ∧ ∀ i ∈ items, ∃ s₁ s₂,
      ReflTransGen step s s₁ ∧ I s₁ ∧ body i s₁ = .ok false s₂ ∧ ReflTransGen step s₂ s' := by
  induction items generalizing s with
  | nil =>
      cases hrun
      exact ⟨.refl, hs, nofun⟩
  | cons i rest ih =>
      obtain ⟨changed, s₁, hfirst, hrun⟩ := bind_eq_ok.mp hrun
      obtain ⟨later, s₂, hrest, hpure⟩ := bind_eq_ok.mp hrun
      obtain ⟨hor, rfl⟩ : (changed || later) = false ∧ s₂ = s' := by
        simpa using hpure
      obtain ⟨rfl, rfl⟩ := Bool.or_eq_false_iff.mp hor
      obtain ⟨hpath, hI⟩ := h i (List.mem_cons_self ..) s s₁ hs hfirst
      obtain ⟨hpath', hI', hturns⟩ :=
        ih (fun j hj => h j (List.mem_cons_of_mem _ hj)) hI hrest
      refine ⟨hpath.trans hpath', hI', fun j hj => ?_⟩
      rcases List.mem_cons.mp hj with rfl | hj
      · exact ⟨s, s₁, .refl, hs, hfirst, hpath'⟩
      · obtain ⟨s₃, s₄, hbefore, hI₃, hbody, hafter⟩ := hturns j hj
        exact ⟨s₃, s₄, hpath.trans hbefore, hI₃, hbody, hafter⟩

/-! ## Invariants -/

/-- What one step keeps, a path of steps keeps. -/
theorem invariant_of_path {I : σ → Prop} (hstep : ∀ s s', step s s' → I s → I s') {s s' : σ}
    (hpath : ReflTransGen step s s') (hs : I s) : I s' := by
  induction hpath with
  | refl => exact hs
  | tail _ hlast ih => exact hstep _ _ hlast ih

end Obeys
