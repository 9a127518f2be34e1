import Mathlib

/-!
# Cutting a list into slices of one stride

A list is dealt out to `n` parties: party `i` gets the `width` items from position
`i * stride` on, and the last party all that is left.  The slices are told apart by
positions (`mem_share`): as soon as two parties are served, they are disjoint when
the width does not exceed the stride (`disjoint_iff`) and leave nothing out when it
is not below it (`covers_iff`).
-/

namespace Layout

variable {α : Type*}

/-- The items at `start`, …, `start + width - 1`, as far as there are any. -/
def slice (xs : List α) (start width : ℕ) : List α :=
  (xs.drop start).take width

/-- What party `i` of `n` is given. -/
def share (xs : List α) (n stride width i : ℕ) : List α :=
  if i + 1 = n then xs.drop (i * stride) else slice xs (i * stride) width

theorem mem_drop {xs : List α} {start : ℕ} {c : α} :
    c ∈ xs.drop start ↔ ∃ k, start ≤ k ∧ xs[k]? = some c := by
  rw [List.mem_iff_getElem?]
  simp only [List.getElem?_drop]
  constructor
  · rintro ⟨k, hk⟩
    exact ⟨start + k, Nat.le_add_right _ _, hk⟩
  · rintro ⟨k, hle, hk⟩
    refine ⟨k - start, ?_⟩
    rw [Nat.add_sub_cancel' hle]
    exact hk

theorem mem_slice {xs : List α} {start width : ℕ} {c : α} :
    c ∈ slice xs start width ↔ ∃ k, start ≤ k ∧ k < start + width ∧ xs[k]? = some c := by
  rw [slice, List.mem_iff_getElem?]
  constructor
  · rintro ⟨k, hk⟩
    have hlt : k < width := by
      by_contra hge
      rw [List.getElem?_take_eq_none (by omega)] at hk
      cases hk
    rw [List.getElem?_take_of_lt hlt, List.getElem?_drop] at hk
    exact ⟨start + k, by omega, by omega, hk⟩
  · rintro ⟨k, hlow, hhigh, hk⟩
    refine ⟨k - start, ?_⟩
    rw [List.getElem?_take_of_lt (by omega), List.getElem?_drop, Nat.add_sub_cancel' hlow]
    exact hk

theorem length_slice (xs : List α) (start width : ℕ) :
    (slice xs start width).length = min width (xs.length - start) := by
  rw [slice, List.length_take, List.length_drop]

theorem slice_sublist (xs : List α) (start width : ℕ) : (slice xs start width).Sublist xs :=
  (List.take_sublist _ _).trans (List.drop_sublist _ _)

theorem share_sublist (xs : List α) (n stride width i : ℕ) :
    (share xs n stride width i).Sublist xs := by
  unfold share
  split
  · exact List.drop_sublist _ _
  · exact slice_sublist _ _ _

variable {xs : List α} {n stride width : ℕ}

theorem mem_share {i : ℕ} {c : α} : c ∈ share xs n stride width i ↔
    ∃ k, i * stride ≤ k ∧ (i + 1 = n ∨ k < i * stride + width) ∧ xs[k]? = some c := by
  unfold share
  split
  · rename_i hlast
    rw [mem_drop]
    simp [hlast]
  · rename_i hlast
    rw [mem_slice]
    simp [hlast]

/-- No party goes without, as long as there is room for all strides. -/
theorem share_ne_nil {i : ℕ} (hi : i < n) (hstride : 0 < stride) (hwidth : 0 < width)
    (hroom : n * stride ≤ xs.length) : share xs n stride width i ≠ [] := by
  have hstart : i * stride + stride ≤ n * stride := by
    calc i * stride + stride = (i + 1) * stride := by ring
      _ ≤ n * stride := Nat.mul_le_mul_right _ hi
  have hlt : i * stride < xs.length := by omega
  have hmem : xs[i * stride] ∈ share xs n stride width i :=
    mem_share.mpr ⟨i * stride, le_rfl, .inr (by omega), List.getElem?_eq_getElem hlt⟩
  exact List.ne_nil_of_mem hmem

/-- Slices as wide as the stride, put together, are the list as far as they reach. -/
theorem flatten_slices (xs : List α) (n stride : ℕ) :
    ((List.range n).map fun i => slice xs (i * stride) stride).flatten = xs.take (n * stride) := by
  induction n with
  | zero => simp
  | succ n ih =>
      rw [List.range_succ, List.map_append, List.flatten_append, ih]
      simp only [List.map_cons, List.map_nil, List.flatten_cons, List.flatten_nil, List.append_nil]
      rw [slice, Nat.succ_mul, List.take_add]

/-- Shares as wide as the stride, put together, are the whole list. -/
theorem flatten_shares (xs : List α) (n stride : ℕ) (hn : 0 < n) :
    ((List.range n).map (share xs n stride stride)).flatten = xs := by
  obtain ⟨m, rfl⟩ : ∃ m, n = m + 1 := ⟨n - 1, by omega⟩
  have hearlier : (List.range m).map (share xs (m + 1) stride stride) =
      (List.range m).map fun i => slice xs (i * stride) stride := by
    refine List.map_congr_left fun i hi => ?_
    have hne : i + 1 ≠ m + 1 := by
      have := List.mem_range.mp hi
      omega
    rw [share, if_neg hne]
  have hlast : share xs (m + 1) stride stride m = xs.drop (m * stride) := by
    rw [share, if_pos rfl]
  rw [List.range_succ, List.map_append, List.flatten_append, hearlier, flatten_slices]
  simp only [List.map_cons, List.map_nil, List.flatten_cons, List.flatten_nil, List.append_nil]
  rw [hlast, List.take_append_drop]

/-- With two parties or more, no item is given twice exactly when the width does not exceed the
stride. -/
theorem disjoint_iff (hnodup : xs.Nodup) (hn : 2 ≤ n) (hstride : 0 < stride)
    (hroom : n * stride ≤ xs.length) :
    (∀ i j, i < j → j < n →
      (share xs n stride width i).Disjoint (share xs n stride width j)) ↔ width ≤ stride := by
  constructor
  · intro hdisjoint
    by_contra hwide
    -- the first item of the second party is still the first party's
    have hlt : stride < xs.length := by
      have : 2 * stride ≤ n * stride := Nat.mul_le_mul_right _ hn
      omega
    have hget : xs[stride]? = some xs[stride] := List.getElem?_eq_getElem hlt
    refine hdisjoint 0 1 (by omega) (by omega) (a := xs[stride]) ?_ ?_
    · exact mem_share.mpr ⟨stride, by omega, .inr (by omega), hget⟩
    · exact mem_share.mpr ⟨stride, by omega, .inr (by omega), hget⟩
  · intro hwidth i j hij hj c hci hcj
    obtain ⟨k, hlow, hhigh, hk⟩ := mem_share.mp hci
    obtain ⟨l, hlow', -, hl⟩ := mem_share.mp hcj
    have hsame : k = l := by
      have hklt : k < xs.length := (List.getElem?_eq_some_iff.mp hk).1
      exact (List.getElem?_inj hklt hnodup).mp (hk.trans hl.symm)
    have hnext : i * stride + stride ≤ j * stride := by
      calc i * stride + stride = (i + 1) * stride := by ring
        _ ≤ j * stride := Nat.mul_le_mul_right _ hij
    rcases hhigh with hlast | hhigh
    · omega
    · omega

/-- With two parties or more, no item is left out exactly when the width is not below the
stride. -/
theorem covers_iff (hnodup : xs.Nodup) (hn : 2 ≤ n) (hroom : n * stride ≤ xs.length) :
    (∀ c ∈ xs, ∃ i < n, c ∈ share xs n stride width i) ↔ stride ≤ width := by
  constructor
  · intro hcovers
    by_contra hnarrow
    -- the item after the first party's slice is nobody's
    have hlt : width < xs.length := by
      have : 2 * stride ≤ n * stride := Nat.mul_le_mul_right _ hn
      omega
    obtain ⟨i, hi, hmem⟩ := hcovers xs[width] (List.getElem_mem hlt)
    obtain ⟨k, hlow, hhigh, hk⟩ := mem_share.mp hmem
    have hsame : width = k := (List.getElem?_inj hlt hnodup).mp
      ((List.getElem?_eq_getElem hlt).trans hk.symm)
    cases i with
    | zero =>
        rcases hhigh with hlast | hhigh
        · omega
        · omega
    | succ i =>
        have hfar : stride ≤ (i + 1) * stride := Nat.le_mul_of_pos_left _ (by omega)
        omega
  · intro hwidth c hc
    obtain ⟨k, hk⟩ := List.mem_iff_getElem?.mp hc
    by_cases hlast : (n - 1) * stride ≤ k
    · exact ⟨n - 1, by omega, mem_share.mpr ⟨k, hlast, .inl (by omega), hk⟩⟩
    · have hpos : 0 < stride := by
        by_contra hzero
        have : stride = 0 := by omega
        rw [this] at hlast
        omega
      have hdiv : k / stride < n - 1 := Nat.div_lt_of_lt_mul (by rw [mul_comm]; omega)
      have hlow : k / stride * stride ≤ k := Nat.div_mul_le_self k stride
      have hhigh : k < k / stride * stride + stride := Nat.lt_div_mul_add hpos
      exact ⟨k / stride, by omega, mem_share.mpr ⟨k, hlow, .inr (by omega), hk⟩⟩

end Layout
