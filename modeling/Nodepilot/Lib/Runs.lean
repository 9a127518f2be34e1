import Mathlib

/-!
# Maximal runs of consecutive integers

A list of integers read from left to right falls into runs `lo, lo+1, …, hi`.
`runs` collects the end points of each, and `cover` is the set a list of end
points stands for; `cover_runs` says nothing is lost.

The runs of an increasing list have a gap after each (`Separated`), and a set has
one such list of runs, that of its maximal ones (`Separated.mem_iff`, `Separated.ext`).
-/

namespace Runs

/-- The integers from `lo` to `hi`, both included. -/
def span (lo hi : ℤ) : List ℤ :=
  (List.range (hi + 1 - lo).toNat).map fun k : ℕ => lo + k

@[simp] theorem mem_span {lo hi c : ℤ} : c ∈ span lo hi ↔ lo ≤ c ∧ c ≤ hi := by
  simp only [span, List.mem_map, List.mem_range]
  constructor
  · rintro ⟨k, hk, rfl⟩
    omega
  · rintro ⟨hlow, hhigh⟩
    exact ⟨(c - lo).toNat, by omega, by omega⟩

theorem nodup_span (lo hi : ℤ) : (span lo hi).Nodup :=
  List.nodup_range.map fun a b h => by simpa using h

theorem length_span (lo hi : ℤ) : (span lo hi).length = (hi + 1 - lo).toNat := by
  simp [span]

/-- The runs of a list that continues a run from `lo` to `hi`. -/
def runsFrom (lo hi : ℤ) : List ℤ → List (ℤ × ℤ)
  | [] => [(lo, hi)]
  | c :: rest => if c = hi + 1 then runsFrom lo c rest else (lo, hi) :: runsFrom c c rest

/-- The end points of the runs of a list. -/
def runs : List ℤ → List (ℤ × ℤ)
  | [] => []
  | c :: rest => runsFrom c c rest

/-- The integers a list of end points stands for. -/
def cover : List (ℤ × ℤ) → Finset ℤ
  | [] => ∅
  | bounds :: rest => (span bounds.1 bounds.2).toFinset ∪ cover rest

theorem mem_cover_runsFrom {lo hi : ℤ} (h : lo ≤ hi) (rest : List ℤ) {d : ℤ} :
    d ∈ cover (runsFrom lo hi rest) ↔ (lo ≤ d ∧ d ≤ hi) ∨ d ∈ rest := by
  induction rest generalizing lo hi with
  | nil => simp [runsFrom, cover]
  | cons c rest ih =>
      by_cases hc : c = hi + 1
      · have hjoin : (lo ≤ d ∧ d ≤ c) ↔ (lo ≤ d ∧ d ≤ hi) ∨ d = c := by omega
        rw [runsFrom, if_pos hc, ih (by omega), hjoin, List.mem_cons, or_assoc]
      · have hpoint : (c ≤ d ∧ d ≤ c) ↔ d = c := by omega
        rw [runsFrom, if_neg hc, cover, Finset.mem_union, List.mem_toFinset, mem_span,
          ih le_rfl, hpoint, List.mem_cons]

theorem cover_runs (cores : List ℤ) : cover (runs cores) = cores.toFinset := by
  ext d
  cases cores with
  | nil => simp [runs, cover]
  | cons c rest =>
      have hpoint : (c ≤ d ∧ d ≤ c) ↔ d = c := by omega
      rw [runs, mem_cover_runsFrom le_rfl, hpoint, List.mem_toFinset, List.mem_cons]

/-- Both end points of every run are in the list, in order. -/
theorem mem_of_mem_runsFrom {lo hi : ℤ} (h : lo ≤ hi) {rest : List ℤ} {bounds : ℤ × ℤ}
    (hb : bounds ∈ runsFrom lo hi rest) :
    bounds.1 ≤ bounds.2 ∧ (bounds.1 = lo ∨ bounds.1 ∈ rest) := by
  induction rest generalizing lo hi with
  | nil =>
      simp only [runsFrom, List.mem_singleton] at hb
      subst hb
      exact ⟨h, Or.inl rfl⟩
  | cons c rest ih =>
      by_cases hc : c = hi + 1
      · rw [runsFrom, if_pos hc] at hb
        obtain ⟨hle, hmem⟩ := ih (by omega) hb
        exact ⟨hle, hmem.imp_right (List.mem_cons_of_mem _)⟩
      · rw [runsFrom, if_neg hc] at hb
        rcases List.mem_cons.mp hb with rfl | hb
        · exact ⟨h, Or.inl rfl⟩
        · obtain ⟨hle, hmem⟩ := ih le_rfl hb
          refine ⟨hle, Or.inr ?_⟩
          rcases hmem with heq | hmem
          · rw [heq]; exact List.mem_cons_self ..
          · exact List.mem_cons_of_mem _ hmem

theorem mem_of_mem_runs {cores : List ℤ} {bounds : ℤ × ℤ} (hb : bounds ∈ runs cores) :
    bounds.1 ≤ bounds.2 ∧ bounds.1 ∈ cores := by
  cases cores with
  | nil => simp [runs] at hb
  | cons c rest =>
      obtain ⟨hle, hmem⟩ := mem_of_mem_runsFrom le_rfl hb
      exact ⟨hle, List.mem_cons.mpr hmem⟩

theorem runs_ne_nil {cores : List ℤ} (h : cores ≠ []) : runs cores ≠ [] := by
  intro hnil
  have hcover := cover_runs cores
  rw [hnil, cover] at hcover
  exact h (List.toFinset_eq_empty_iff _ |>.mp hcover.symm)

theorem mem_cover {bounds : List (ℤ × ℤ)} {c : ℤ} :
    c ∈ cover bounds ↔ ∃ b ∈ bounds, b.1 ≤ c ∧ c ≤ b.2 := by
  induction bounds with
  | nil => simp [cover]
  | cons b rest ih =>
      rw [cover, Finset.mem_union, List.mem_toFinset, mem_span, ih]
      simp

/-! ## Maximal runs -/

/-- The end points of a run of the set that cannot be made longer. -/
structure MaximalRun (cores : Finset ℤ) (b : ℤ × ℤ) : Prop where
  valid : b.1 ≤ b.2
  inside : ∀ c, b.1 ≤ c → c ≤ b.2 → c ∈ cores
  first : b.1 - 1 ∉ cores
  last : b.2 + 1 ∉ cores

/-- Two maximal runs that meet are one. -/
theorem MaximalRun.eq_of_mem {cores : Finset ℤ} {a b : ℤ × ℤ} (ha : MaximalRun cores a)
    (hb : MaximalRun cores b) {c : ℤ} (hca : a.1 ≤ c ∧ c ≤ a.2) (hcb : b.1 ≤ c ∧ c ≤ b.2) :
    a = b := by
  have hreach : ∀ {x y : ℤ × ℤ}, MaximalRun cores x → MaximalRun cores y → x.1 ≤ c → c ≤ x.2 →
      y.1 ≤ c → c ≤ y.2 → x.1 ≤ y.1 ∧ y.2 ≤ x.2 := by
    intro x y hx hy hxlow hxhigh hylow hyhigh
    constructor
    · by_contra hlt
      exact hx.first (hy.inside _ (by omega) (by omega))
    · by_contra hlt
      exact hx.last (hy.inside _ (by omega) (by omega))
  have hab := hreach ha hb hca.1 hca.2 hcb.1 hcb.2
  have hba := hreach hb ha hcb.1 hcb.2 hca.1 hca.2
  exact Prod.ext (le_antisymm hab.1 hba.1) (le_antisymm hba.2 hab.2)

/-- End points of runs in increasing order, with a gap after each. -/
structure Separated (bounds : List (ℤ × ℤ)) : Prop where
  valid : ∀ b ∈ bounds, b.1 ≤ b.2
  gaps : bounds.Pairwise fun a b => a.2 + 1 < b.1

namespace Separated

variable {bounds bounds' : List (ℤ × ℤ)}

theorem nil : Separated [] :=
  ⟨by simp, .nil⟩

theorem increasing (h : Separated bounds) : bounds.Pairwise fun a b => a.1 < b.1 := by
  refine h.gaps.imp_of_mem fun {a b} ha _ hgap => ?_
  have hvalid := h.valid a ha
  omega

/-- Of two different runs one ends before the other begins. -/
theorem apart (h : Separated bounds) {a b : ℤ × ℤ} (ha : a ∈ bounds) (hb : b ∈ bounds)
    (hne : a ≠ b) : a.2 + 1 < b.1 ∨ b.2 + 1 < a.1 := by
  have hsymm : Std.Symm fun a b : ℤ × ℤ => a.2 + 1 < b.1 ∨ b.2 + 1 < a.1 := ⟨fun _ _ => Or.symm⟩
  have hpairs : bounds.Pairwise fun a b => a.2 + 1 < b.1 ∨ b.2 + 1 < a.1 := h.gaps.imp .inl
  exact hpairs.forall ha hb hne

/-- The runs listed are the maximal runs of the set they stand for. -/
theorem mem_iff (h : Separated bounds) {b : ℤ × ℤ} :
    b ∈ bounds ↔ MaximalRun (cover bounds) b := by
  have hmaximal : ∀ a ∈ bounds, MaximalRun (cover bounds) a := by
    intro a ha
    have hvalid := h.valid a ha
    refine ⟨hvalid, fun c hlow hhigh => mem_cover.mpr ⟨a, ha, hlow, hhigh⟩, ?_, ?_⟩
    all_goals
      intro hmem
      obtain ⟨d, hd, hlow, hhigh⟩ := mem_cover.mp hmem
      have hne : a ≠ d := by
        rintro rfl
        omega
      rcases h.apart ha hd hne with hgap | hgap <;> omega
  constructor
  · exact hmaximal b
  · intro hb
    have hmem : b.1 ∈ cover bounds := hb.inside _ le_rfl hb.valid
    obtain ⟨a, ha, hlow, hhigh⟩ := mem_cover.mp hmem
    have hsame : a = b := (hmaximal a ha).eq_of_mem hb ⟨hlow, hhigh⟩ ⟨le_rfl, hb.valid⟩
    rwa [← hsame]

/-- A set is written as separated runs in one way. -/
theorem ext (h : Separated bounds) (h' : Separated bounds') (hcover : cover bounds = cover bounds') :
    bounds = bounds' := by
  have hmem : ∀ b, b ∈ bounds ↔ b ∈ bounds' := by
    intro b
    rw [h.mem_iff, h'.mem_iff, hcover]
  have hirrefl : ∀ {l : List (ℤ × ℤ)}, l.Pairwise (fun a b => a.1 < b.1) → l.Nodup :=
    fun hl => hl.imp fun {a b} hlt heq => by
      rw [heq] at hlt
      exact lt_irrefl _ hlt
  have hperm : bounds.Perm bounds' :=
    (List.perm_ext_iff_of_nodup (hirrefl h.increasing) (hirrefl h'.increasing)).mpr hmem
  have hanti : ∀ a b, a ∈ bounds → b ∈ bounds' → a.1 < b.1 → b.1 < a.1 → a = b :=
    fun a b _ _ hlt hgt => absurd hlt (lt_asymm hgt)
  exact hperm.eq_of_pairwise hanti h.increasing h'.increasing

end Separated

theorem separated_runsFrom {lo hi : ℤ} (h : lo ≤ hi) {rest : List ℤ}
    (hsorted : (hi :: rest).Pairwise (· < ·)) : Separated (runsFrom lo hi rest) := by
  induction rest generalizing lo hi with
  | nil =>
      refine ⟨fun b hb => ?_, List.pairwise_singleton _ _⟩
      rw [runsFrom, List.mem_singleton] at hb
      rw [hb]
      exact h
  | cons c rest ih =>
      obtain ⟨hafter, hrest⟩ := List.pairwise_cons.mp hsorted
      have hc : hi < c := hafter c (List.mem_cons_self ..)
      by_cases hnext : c = hi + 1
      · rw [runsFrom, if_pos hnext]
        exact ih (by omega) hrest
      · rw [runsFrom, if_neg hnext]
        have hlater := ih le_rfl hrest
        refine ⟨fun b hb => ?_, List.pairwise_cons.mpr ⟨fun b hb => ?_, hlater.gaps⟩⟩
        · rcases List.mem_cons.mp hb with rfl | hb
          · exact h
          · exact hlater.valid b hb
        · -- every later run begins at `c` or after it
          obtain ⟨-, hfirst⟩ := mem_of_mem_runsFrom le_rfl hb
          show hi + 1 < b.1
          rcases hfirst with heq | hmem
          · omega
          · have hlt := (List.pairwise_cons.mp hrest).1 b.1 hmem
            omega

theorem separated_runs {cores : List ℤ} (hsorted : cores.Pairwise (· < ·)) :
    Separated (runs cores) := by
  cases cores with
  | nil => exact .nil
  | cons c rest => exact separated_runsFrom le_rfl hsorted

end Runs
