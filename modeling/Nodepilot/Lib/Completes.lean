import Nodepilot.Lib.Obeys

/-!
# Programs that return

`Obeys` says what a program does if it returns and what it leaves if it raises.
`Completes P m Q` is the promise that it returns: started where `P` holds, `m`
raises nothing, and `Q` holds of what it returns and leaves.

What a program leaves is often known from elsewhere.  Then only the promise to
return is to be proved, and `leaving` puts in what every return is known to leave; a
sweep completes if each turn does wherever its invariant holds, and each turn that
returns passes the invariant on (`sweep_of`).
-/

open Obeys

/-- `m`, started where `P` holds, returns, and where `Q` holds. -/
def Completes {ε σ α : Type} (P : σ → Prop) (m : EStateM ε σ α) (Q : α → σ → Prop) : Prop :=
  ∀ s, P s → ∃ a s', m s = .ok a s' ∧ Q a s'

namespace Completes

variable {ε σ α β ι : Type} {P P' : σ → Prop} {m : EStateM ε σ α} {Q Q' : α → σ → Prop}

/-- A promise made for more starting states. -/
theorem before (h : Completes P' m Q) (hpre : ∀ s, P s → P' s) : Completes P m Q :=
  fun s hs => h s (hpre s hs)

/-- A promise to return, and what every return is known to leave. -/
theorem leaving (h : Completes P m Q) (hreturns : ∀ s a s', P s → m s = .ok a s' → Q' a s') :
    Completes P m Q' := by
  intro s hs
  obtain ⟨a, s', hm, -⟩ := h s hs
  exact ⟨a, s', hm, hreturns s a s' hs hm⟩

/-! ## Rules -/

protected theorem pure {a : α} (h : ∀ s, P s → Q a s) :
    @Completes ε σ α P (pure a) Q :=
  fun s hs => ⟨a, s, rfl, h s hs⟩

protected theorem bind {R : α → σ → Prop} {f : α → EStateM ε σ β} {Q : β → σ → Prop}
    (hm : Completes P m R) (hf : ∀ a, Completes (R a) (f a) Q) : Completes P (m >>= f) Q := by
  intro s hs
  obtain ⟨a, s₁, hfirst, hR⟩ := hm s hs
  obtain ⟨b, s₂, hsecond, hQ⟩ := hf a s₁ hR
  refine ⟨b, s₂, ?_, hQ⟩
  rw [bind_of_ok hfirst]
  exact hsecond

/-- Reading the state at the head of a block. -/
theorem get_bind {f : σ → EStateM ε σ β} {Q : β → σ → Prop}
    (h : ∀ s₀, P s₀ → Completes (fun s => s = s₀) (f s₀) Q) : Completes P (get >>= f) Q := by
  intro s hs
  obtain ⟨b, s', hf, hQ⟩ := h s hs s rfl
  exact ⟨b, s', hf, hQ⟩

protected theorem modify {f : σ → σ} {Q : PUnit → σ → Prop} (h : ∀ s, P s → Q ⟨⟩ (f s)) :
    @Completes ε σ PUnit P (modify f) Q :=
  fun s hs => ⟨⟨⟩, f s, rfl, h s hs⟩

/-- A sweep completes if each turn does, and leaves the invariant of the items after it. -/
theorem sweep_of {body : ι → EStateM ε σ Bool} {I : List ι → σ → Prop}
    (h : ∀ i rest, Completes (I (i :: rest)) (body i) fun _ => I rest) :
    ∀ items, Completes (I items) (sweep body items) fun _ => I [] := by
  intro items
  induction items with
  | nil => exact .pure fun _ hs => hs
  | cons i rest ih =>
      refine .bind (h i rest) fun changed => .bind ih fun later => ?_
      exact .pure fun _ hs => hs

end Completes
