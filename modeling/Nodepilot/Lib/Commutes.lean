import Nodepilot.Lib.Obeys

/-!
# Programs that do not look

A change `F` of the state that a program neither reads nor undoes may be made
before the program or after it: the program commutes with `F`.  Such a fact
compares two runs, one from a state and one from the changed state, and it is put
together from the parts of the program as a specification is, with one rule for
each construct.

Often a program commutes with a change only where the state keeps a property `P`
(the part that is changed exists, say); so `P` is carried along.
-/

open Obeys

variable {σ ε α β ι : Type}

/-- An outcome whose state is changed. -/
def carry (F : σ → σ) : EStateM.Result ε σ α → EStateM.Result ε σ α
  | .ok a s => .ok a (F s)
  | .error e s => .error e (F s)

@[simp] theorem carry_ok (F : σ → σ) (a : α) (s : σ) :
    carry F (.ok a s : EStateM.Result ε σ α) = .ok a (F s) := rfl

@[simp] theorem carry_error (F : σ → σ) (e : ε) (s : σ) :
    carry F (.error e s : EStateM.Result ε σ α) = .error e (F s) := rfl

/-- From states with a property, running a program after a change is the same as changing the
state it ends in, and it keeps the property, however it ends. -/
structure Commutes (P : σ → Prop) (F : σ → σ) (m : EStateM ε σ α) : Prop where
  same : ∀ s, P s → m (F s) = carry F (m s)
  keeps : ∀ s a s', P s → m s = .ok a s' → P s'
  raises : ∀ s e s', P s → m s = .error e s' → P s'

namespace Commutes

variable {P : σ → Prop} {F : σ → σ} {m : EStateM ε σ α}

protected theorem pure (a : α) : Commutes P F (pure a : EStateM ε σ α) where
  same _ _ := rfl
  keeps s a' s' hs h := by
    cases h
    exact hs
  raises s e s' _ h := by cases h

protected theorem throw (e : ε) : Commutes P F (throw e : EStateM ε σ α) where
  same _ _ := rfl
  keeps s a s' _ h := by cases h
  raises s e' s' hs h := by
    cases h
    exact hs

/-- The rule for a sequence, of whose first part more may be known. -/
theorem bind_of {R : α → Prop} {f : α → EStateM ε σ β} (hm : Commutes P F m)
    (hR : ∀ s a s', m s = .ok a s' → R a) (hf : ∀ a, R a → Commutes P F (f a)) :
    Commutes P F (m >>= f) where
  same s hs := by
    change EStateM.bind m f (F s) = carry F (EStateM.bind m f s)
    unfold EStateM.bind
    rw [hm.same s hs]
    cases hfirst : m s with
    | ok a s₁ => exact (hf a (hR s a s₁ hfirst)).same s₁ (hm.keeps s a s₁ hs hfirst)
    | error e s₁ => rfl
  keeps s b s' hs h := by
    obtain ⟨a, s₁, hfirst, hrest⟩ := bind_eq_ok.mp h
    exact (hf a (hR s a s₁ hfirst)).keeps s₁ b s' (hm.keeps s a s₁ hs hfirst) hrest
  raises s e s' hs h := by
    rcases bind_eq_error.mp h with hfirst | ⟨a, s₁, hfirst, hrest⟩
    · exact hm.raises s e s' hs hfirst
    · exact (hf a (hR s a s₁ hfirst)).raises s₁ e s' (hm.keeps s a s₁ hs hfirst) hrest

protected theorem bind {f : α → EStateM ε σ β} (hm : Commutes P F m)
    (hf : ∀ a, Commutes P F (f a)) : Commutes P F (m >>= f) :=
  hm.bind_of (R := fun _ => True) (fun _ _ _ _ => trivial) fun a _ => hf a

/-- A program that reads the state, but nothing the change touches. -/
theorem get_bind {f : σ → EStateM ε σ β} (hblind : ∀ s, P s → f (F s) = f s)
    (hf : ∀ s, P s → Commutes P F (f s)) : Commutes P F (get >>= f) where
  same s hs := by
    change f (F s) (F s) = carry F (f s s)
    rw [hblind s hs]
    exact (hf s hs).same s hs
  keeps s b s' hs h := (hf s hs).keeps s b s' hs h
  raises s e s' hs h := (hf s hs).raises s e s' hs h

protected theorem modify {g : σ → σ} (hsame : ∀ s, P s → g (F s) = F (g s))
    (hkeeps : ∀ s, P s → P (g s)) : Commutes P F (modify g : EStateM ε σ PUnit) where
  same s hs := by
    change EStateM.Result.ok PUnit.unit (g (F s)) = .ok PUnit.unit (F (g s))
    rw [hsame s hs]
  keeps s a s' hs h := by
    cases h
    exact hkeeps s hs
  raises s e s' _ h := by cases h

protected theorem sweep {body : ι → EStateM ε σ Bool} {items : List ι}
    (h : ∀ i ∈ items, Commutes P F (body i)) : Commutes P F (sweep body items) := by
  induction items with
  | nil => exact .pure false
  | cons i rest ih =>
      refine .bind (h i (List.mem_cons_self ..)) fun changed => ?_
      refine .bind (ih fun j hj => h j (List.mem_cons_of_mem i hj)) fun later => ?_
      exact .pure _

end Commutes
