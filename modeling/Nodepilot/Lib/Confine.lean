import Mathlib

/-!
# Turns of confinement

Every element has a place, a set.  Turn `i` confines its members to a block: a member
whose place lies in the block is left alone, any other is moved to the block.  So a
pass of turns moves an element as often as it is a member of a turn whose block it is
not in.

Each element may have an owner among the turns.  Where the blocks are disjoint, the
turns of a pass move no element but their own and leave all their members confined if and
only if a member that is not the turn's own lies in the block already and is a member
of no turn of its own (`keepsOwn_of_movesOwn`, `KeepsOwn.movesOwn` and `KeepsOwn.settled`).
-/

namespace Confine

variable {π α : Type} [DecidableEq π] [DecidableEq α]

/-- The members whose place is outside a block are moved to it. -/
def confine (block : Finset α) (members : List π) (place : π → Finset α) (p : π) : Finset α :=
  if p ∈ members ∧ ¬ place p ⊆ block then block else place p

section Confine

variable {block : Finset α} {members : List π} {place : π → Finset α} {p : π}

theorem confine_of_mem (h : p ∈ members) : confine block members place p ⊆ block := by
  unfold confine
  split
  · exact subset_rfl
  · rename_i hstays
    rw [not_and, not_not] at hstays
    exact hstays h

theorem confine_of_subset (h : place p ⊆ block) : confine block members place p = place p :=
  if_neg fun hmoves => hmoves.2 h

theorem confine_of_not_mem (h : p ∉ members) : confine block members place p = place p :=
  if_neg fun hmoves => h hmoves.1

theorem confine_eq_or : confine block members place p = place p ∨
    p ∈ members ∧ confine block members place p = block := by
  unfold confine
  split
  · rename_i hmoves
    exact .inr ⟨hmoves.1, rfl⟩
  · exact .inl rfl

@[simp] theorem confine_nil : confine block [] place = place := by
  funext p
  exact confine_of_not_mem List.not_mem_nil

/-- What becomes of an element depends on its own place alone. -/
theorem confine_congr {place' : π → Finset α} {members' : List π}
    (hplace : place p = place' p) (hmem : p ∈ members ↔ p ∈ members') :
    confine block members place p = confine block members' place' p := by
  simp only [confine, hplace, hmem]

/-- Members may be confined one after the other. -/
theorem confine_cons (first : π) (rest : List π) :
    confine block (first :: rest) place = confine block rest (confine block [first] place) := by
  funext p
  by_cases hp : p = first
  · subst hp
    have hinside : confine block [p] place p ⊆ block := confine_of_mem (List.mem_singleton_self p)
    rw [confine_of_subset hinside]
    exact confine_congr rfl (by simp)
  · have hfirst : confine block [first] place p = place p := confine_of_not_mem (by simpa using hp)
    exact confine_congr hfirst.symm (by simp [hp])

theorem confine_append (first rest : List π) :
    confine block (first ++ rest) place = confine block rest (confine block first place) := by
  induction first generalizing place with
  | nil => rw [List.nil_append, confine_nil]
  | cons p first ih => rw [List.cons_append, confine_cons, ih, ← confine_cons]

end Confine

variable (block : ℕ → Finset α) (members : ℕ → List π)

/-- The places after some turns. -/
def after (place : π → Finset α) : ℕ → π → Finset α
  | 0 => place
  | n + 1 => confine (block n) (members n) (after place n)

variable {block members} {place : π → Finset α} {i j n : ℕ} {p : π}

/-- Turns without a member outside their block change nothing. -/
theorem after_of_settled (h : ∀ i < n, ∀ p ∈ members i, place p ⊆ block i) :
    after block members place n = place := by
  induction n with
  | zero => rfl
  | succ n ih =>
      have hbefore := ih fun i hi => h i (Nat.lt_succ_of_lt hi)
      funext p
      rw [after, hbefore]
      by_cases hp : p ∈ members n
      · exact confine_of_subset (h n (Nat.lt_succ_self n) p hp)
      · exact confine_of_not_mem hp

/-! ## Owners -/

/-- The turns of a pass move no element but their own. -/
def MovesOwn (block : ℕ → Finset α) (members : ℕ → List π) (own : ℕ → π → Prop)
    (place : π → Finset α) (n : ℕ) : Prop :=
  ∀ i < n, ∀ p, after block members place (i + 1) p ≠ after block members place i p → own i p

/-- A member that is not the turn's own lies in the block and is a member of no turn of its own. -/
def KeepsOwn (block : ℕ → Finset α) (members : ℕ → List π) (own : ℕ → π → Prop)
    (place : π → Finset α) (n : ℕ) : Prop :=
  ∀ i < n, ∀ p ∈ members i, ¬ own i p →
    place p ⊆ block i ∧ ∀ j < n, p ∈ members j → ¬ own j p

variable {own : ℕ → π → Prop}

/-- An element is where it was or in the block of its owner. -/
theorem after_eq_or (h : MovesOwn block members own place n) {i : ℕ} (hi : i ≤ n) (p : π) :
    after block members place i p = place p ∨
      ∃ j < i, p ∈ members j ∧ own j p ∧ after block members place i p = block j := by
  induction i with
  | zero => exact .inl rfl
  | succ i ih =>
      have hbefore := ih (Nat.le_of_succ_le hi)
      by_cases hmoved : after block members place (i + 1) p = after block members place i p
      · rw [hmoved]
        refine hbefore.imp_right ?_
        rintro ⟨j, hj, hrest⟩
        exact ⟨j, Nat.lt_succ_of_lt hj, hrest⟩
      · have hown := h i hi p hmoved
        have hturn : after block members place (i + 1) p = after block members place i p ∨
            p ∈ members i ∧ after block members place (i + 1) p = block i := confine_eq_or
        rcases hturn with hsame | ⟨hp, hblock⟩
        · exact absurd hsame hmoved
        · exact .inr ⟨i, Nat.lt_succ_self i, hp, hown, hblock⟩

/-- What lies in the block of its owner stays where it is. -/
theorem after_of_own_subset (h : MovesOwn block members own place n) {i : ℕ} (hi : i ≤ n)
    (hplace : ∀ j < n, own j p → place p ⊆ block j) :
    after block members place i p = place p := by
  induction i with
  | zero => rfl
  | succ i ih =>
      have hbefore := ih (Nat.le_of_succ_le hi)
      by_contra hmoved
      have hstep : after block members place (i + 1) p ≠ after block members place i p := by
        rwa [hbefore]
      have hown := h i hi p hstep
      refine hstep (confine_of_subset ?_)
      rw [hbefore]
      exact hplace i hi hown

section Disjoint

variable (hplace : ∀ p, (place p).Nonempty)
  (hblock : ∀ i < n, members i ≠ [] → (block i).Nonempty)
  (hdisjoint : ∀ i < n, ∀ j < n, i ≠ j → members i ≠ [] → members j ≠ [] →
    Disjoint (block i) (block j))
  (howner : ∀ i < n, ∀ j < n, ∀ p, own i p → own j p → i = j)

omit [DecidableEq α] [DecidableEq π] in
include hdisjoint in
/-- No place lies in two blocks. -/
theorem eq_of_subset_blocks {s : Finset α} (hs : s.Nonempty) (hi : i < n) (hj : j < n)
    (hmi : p ∈ members i) (hmj : p ∈ members j) (hsi : s ⊆ block i) (hsj : s ⊆ block j) : i = j := by
  by_contra hne
  have hapart := hdisjoint i hi j hj hne (List.ne_nil_of_mem hmi) (List.ne_nil_of_mem hmj)
  obtain ⟨c, hc⟩ := hs
  exact Finset.disjoint_left.mp hapart (hsi hc) (hsj hc)

include hplace hblock hdisjoint in
theorem keepsOwn_of_movesOwn (h : MovesOwn block members own place n)
    (hsettled : ∀ i < n, ∀ p ∈ members i, after block members place n p ⊆ block i) :
    KeepsOwn block members own place n := by
  have hnonempty : ∀ i ≤ n, ∀ p, (after block members place i p).Nonempty := by
    intro i hi p
    rcases after_eq_or h hi p with hsame | ⟨j, hj, hp, -, heq⟩
    · exact hsame ▸ hplace p
    · exact heq ▸ hblock j (hj.trans_le hi) (List.ne_nil_of_mem hp)
  intro i hi p hp hforeign
  constructor
  · -- the turn leaves it alone, so it is in the block, and not because its owner put it there
    have hstays : after block members place (i + 1) p = after block members place i p := by
      by_contra hmoved
      exact hforeign (h i hi p hmoved)
    have hinside : after block members place i p ⊆ block i :=
      hstays ▸ confine_of_mem hp
    rcases after_eq_or h hi.le p with hsame | ⟨j, hj, hpj, hown, heq⟩
    · rwa [hsame] at hinside
    · have hsame := eq_of_subset_blocks hdisjoint (hnonempty i hi.le p) hi (hj.trans hi) hp hpj
        hinside heq.subset
      exact absurd (hsame ▸ hown) hforeign
  · intro j hj hpj hown
    have hsame := eq_of_subset_blocks hdisjoint (hnonempty n le_rfl p) hi hj hp hpj
      (hsettled i hi p hp) (hsettled j hj p hpj)
    exact hforeign (hsame ▸ hown)

/-- Up to a turn, an element that is a member of a foreign turn has not been moved. -/
theorem KeepsOwn.movesOwn (h : KeepsOwn block members own place n) :
    MovesOwn block members own place n := by
  intro i hi
  induction i using Nat.strong_induction_on with
  | _ i ih =>
      intro p hmoved
      by_contra hforeign
      have hp : p ∈ members i := by
        by_contra hp
        exact hmoved (confine_of_not_mem hp)
      obtain ⟨hinside, hnone⟩ := h i hi p hp hforeign
      have hbefore : MovesOwn block members own place i := fun j hj => ih j hj (hj.trans hi)
      refine hmoved (confine_of_subset ?_)
      rcases after_eq_or hbefore le_rfl p with hsame | ⟨j, hj, hpj, hown, -⟩
      · rwa [hsame]
      · exact absurd hown (hnone j (hj.trans hi) hpj)

include howner in
theorem KeepsOwn.settled (h : KeepsOwn block members own place n) :
    ∀ i < n, ∀ p ∈ members i, after block members place n p ⊆ block i := by
  intro i hi p hp
  by_cases hown : own i p
  · -- every turn it is a member of is its owner's, so once confined it stays
    have honly : ∀ k ≤ n, i < k → after block members place k p ⊆ block i := by
      intro k hk
      induction k with
      | zero => exact fun hik => absurd hik (Nat.not_lt_zero i)
      | succ k ih =>
          intro hik
          rcases Nat.lt_succ_iff_lt_or_eq.mp hik with hlater | rfl
          · have hbefore := ih (Nat.le_of_succ_le hk) hlater
            by_cases hpk : p ∈ members k
            · have hownk : own k p := by
                by_contra hforeign
                exact (h k hk p hpk hforeign).2 i hi hp hown
              rw [howner i hi k hk p hown hownk]
              exact confine_of_mem hpk
            · rw [after, confine_of_not_mem hpk]
              exact hbefore
          · exact confine_of_mem hp
    exact honly n le_rfl hi
  · obtain ⟨hinside, hnone⟩ := h i hi p hp hown
    rcases after_eq_or h.movesOwn le_rfl p with hsame | ⟨j, hj, hpj, hownj, -⟩
    · rwa [hsame]
    · exact absurd hownj (hnone j hj hpj)

end Disjoint

end Confine
