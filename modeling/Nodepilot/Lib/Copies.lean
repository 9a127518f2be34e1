import Mathlib

/-!
# One file and many copies

Several clients share a file.  A client reads the file, works on its copy, and
writes the whole copy back; nobody locks anything.  A copy is current as long as
no other client has written since it was read or written back.

If only current copies are ever written, nothing is lost: whatever relation the
work keeps to its beginning (`le`, reflexive and transitive) holds between any two
successive contents of the file.  What the work preserves holds of every copy,
current or not.
-/

namespace Copies

open Relation

variable {ι σ : Type} [DecidableEq ι]

/-- What a client works on. -/
structure Copy (σ : Type) where
  value : σ
  current : Bool

/-- The file and the copies there are. -/
structure Store (ι σ : Type) where
  file : σ
  copies : ι → Option (Copy σ)

namespace Store

variable (s : Store ι σ)

def put (k : ι) (copy : Copy σ) : Store ι σ :=
  { s with copies := Function.update s.copies k (some copy) }

def read (k : ι) : Store ι σ :=
  s.put k ⟨s.file, true⟩

/-- Nobody but `k` has a current copy any more. -/
def write (k : ι) (value : σ) : Store ι σ where
  file := value
  copies j := if j = k then some ⟨value, true⟩ else (s.copies j).map fun c => { c with current := false }

def drop (k : ι) : Store ι σ :=
  { s with copies := Function.update s.copies k none }

end Store

/-! ## Where a copy comes from -/

section Origins

variable {s : Store ι σ} {j k : ι} {c copy : Copy σ} {value : σ}

theorem copies_put (h : (s.put k copy).copies j = some c) : c = copy ∨ s.copies j = some c := by
  change Function.update s.copies k (some copy) j = some c at h
  rw [Function.update_apply] at h
  split at h
  · exact Or.inl (Option.some.inj h).symm
  · exact Or.inr h

theorem copies_write (h : (s.write k value).copies j = some c) :
    c = ⟨value, true⟩ ∨ ∃ d, s.copies j = some d ∧ c = { d with current := false } := by
  change (if j = k then some ⟨value, true⟩
    else (s.copies j).map fun c => { c with current := false }) = some c at h
  split at h
  · exact Or.inl (Option.some.inj h).symm
  · obtain ⟨d, hd, rfl⟩ := Option.map_eq_some_iff.mp h
    exact Or.inr ⟨d, hd, rfl⟩

theorem copies_drop (h : (s.drop k).copies j = some c) : s.copies j = some c := by
  change Function.update s.copies k none j = some c at h
  rw [Function.update_apply] at h
  split at h
  · cases h
  · exact h

end Origins

/-! ## Runs -/

/-- A step of one client, by which no current contents are lost. -/
inductive Step (le : σ → σ → Prop) (s : Store ι σ) : Store ι σ → Prop
  | read (k : ι) : Step le s (s.read k)
  | work (k : ι) {c : Copy σ} {value : σ} (hcopy : s.copies k = some c) (hle : le c.value value) :
      Step le s (s.put k { c with value := value })
  | write (k : ι) {c : Copy σ} (hcopy : s.copies k = some c) (hcurrent : c.current = true) :
      Step le s (s.write k c.value)
  | drop (k : ι) : Step le s (s.drop k)

/-- Every current copy has come from the file as it is. -/
def Fresh (le : σ → σ → Prop) (s : Store ι σ) : Prop :=
  ∀ k c, s.copies k = some c → c.current = true → le s.file c.value

section Rules

variable {le : σ → σ → Prop} {s s' : Store ι σ}

theorem Fresh.step (hrefl : ∀ a, le a a) (htrans : ∀ a b c, le a b → le b c → le a c)
    (h : Fresh le s) (hstep : Step le s s') : Fresh le s' := by
  intro j d hj hcurrent
  cases hstep with
  | read k =>
      rcases copies_put hj with rfl | hold
      · exact hrefl s.file
      · exact h j d hold hcurrent
  | @work k c value hcopy hle =>
      rcases copies_put hj with rfl | hold
      · exact htrans _ _ _ (h k c hcopy hcurrent) hle
      · exact h j d hold hcurrent
  | @write k c hcopy _ =>
      rcases copies_write hj with rfl | ⟨e, -, rfl⟩
      · exact hrefl c.value
      · cases hcurrent
  | drop k => exact h j d (copies_drop hj) hcurrent

/-- A step takes the file on. -/
theorem Fresh.le_of_step (hrefl : ∀ a, le a a) (h : Fresh le s) (hstep : Step le s s') :
    le s.file s'.file := by
  cases hstep with
  | read => exact hrefl _
  | work => exact hrefl _
  | @write k c hcopy hcurrent => exact h k c hcopy hcurrent
  | drop => exact hrefl _

/-- The file and every copy, current or not, have a property. -/
structure All (P : σ → Prop) (s : Store ι σ) : Prop where
  file : P s.file
  copies : ∀ k c, s.copies k = some c → P c.value

theorem All.step {P : σ → Prop} (hwork : ∀ a b, le a b → P a → P b) (h : All P s)
    (hstep : Step le s s') : All P s' := by
  cases hstep with
  | read k =>
      refine ⟨h.file, fun j d hj => ?_⟩
      rcases copies_put hj with rfl | hold
      · exact h.file
      · exact h.copies j d hold
  | @work k c value hcopy hle =>
      refine ⟨h.file, fun j d hj => ?_⟩
      rcases copies_put hj with rfl | hold
      · exact hwork _ _ hle (h.copies k c hcopy)
      · exact h.copies j d hold
  | @write k c hcopy hcurrent =>
      refine ⟨h.copies k c hcopy, fun j d hj => ?_⟩
      rcases copies_write hj with rfl | ⟨e, he, rfl⟩
      · exact h.copies k c hcopy
      · exact h.copies j e he
  | drop k => exact ⟨h.file, fun j d hj => h.copies j d (copies_drop hj)⟩

end Rules

end Copies
