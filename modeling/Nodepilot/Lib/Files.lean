import Mathlib

/-!
# Files that are written and renamed

A disk gives names to files and files contents.  A name may be given to another
file while somebody is still writing to the first, so a file is known by a number
and a name only leads to it.

`openEmpty` empties the file of a name or makes a new one, `writeAt` writes at an
offset whatever has become of the rest of the file, and `rename` moves a name,
which succeeds only if there is a file of that name.  These are the operations of
the usual way to replace a file: write another one, then rename it.
-/

namespace Files

variable {ν β : Type} [DecidableEq ν]

/-- Names, files and their contents; no file has a number from `fresh` on. -/
structure Disk (ν β : Type) where
  inode : ν → Option ℕ
  contents : ℕ → List β
  fresh : ℕ

/-- The contents a name leads to. -/
def Disk.read (d : Disk ν β) (name : ν) : Option (List β) :=
  (d.inode name).map d.contents

/-- A disk without files. -/
def Disk.empty : Disk ν β where
  inode _ := none
  contents _ := []
  fresh := 0

namespace Disk

variable (d : Disk ν β)

/-- Opening for writing: the file of the name is emptied, or there is a new one. -/
def openEmpty (name : ν) : ℕ × Disk ν β :=
  match d.inode name with
  | some n => (n, { d with contents := Function.update d.contents n [] })
  | none =>
      (d.fresh,
        { inode := Function.update d.inode name (some d.fresh)
          contents := Function.update d.contents d.fresh []
          fresh := d.fresh + 1 })

/-- Data with a chunk written over it at an offset, and a gap filled up if the data ends before
it. -/
def overlay (gap : β) (data : List β) (offset : ℕ) (chunk : List β) : List β :=
  data.take offset ++ List.replicate (offset - data.length) gap ++ chunk ++
    data.drop (offset + chunk.length)

/-- Writing to an open file. -/
def writeAt (gap : β) (n offset : ℕ) (chunk : List β) : Disk ν β :=
  { d with contents := Function.update d.contents n (overlay gap (d.contents n) offset chunk) }

/-- Giving the file of one name another name, in place of the file that had it; `none` where
there is no such file. -/
def rename (source dest : ν) : Option (Disk ν β) :=
  (d.inode source).map fun n =>
    { d with inode := Function.update (Function.update d.inode source none) dest (some n) }

end Disk

/-! ## Contents -/

/-- The next chunk of a text, written behind what is there of it. -/
theorem overlay_take (gap : β) (text : List β) {offset : ℕ} (h : offset ≤ text.length) (k : ℕ) :
    Disk.overlay gap (text.take offset) offset ((text.drop offset).take k) =
      text.take (offset + k) := by
  have hlength : (text.take offset).length = offset := by
    rw [List.length_take]
    omega
  have hdrop : (text.take offset).drop (offset + ((text.drop offset).take k).length) = [] := by
    apply List.drop_eq_nil_of_le
    omega
  rw [Disk.overlay, hdrop, hlength, Nat.sub_self, List.take_take, min_self]
  simp only [List.replicate_zero, List.append_nil]
  rw [List.take_add]

/-! ## Names -/

/-- No name leads to a number from `fresh` on. -/
def Bounded (d : Disk ν β) : Prop :=
  ∀ name n, d.inode name = some n → n < d.fresh

omit [DecidableEq ν] in
theorem bounded_empty : Bounded (Disk.empty : Disk ν β) := by
  intro name n h
  cases h

section

variable {d d' : Disk ν β} {name other source dest : ν} {n : ℕ}

omit [DecidableEq ν] in
theorem read_of_inode (h : d.inode name = some n) : d.read name = some (d.contents n) := by
  rw [Disk.read, h, Option.map_some]

/-- The file that is opened is empty, and the name leads to it. -/
theorem inode_openEmpty (d : Disk ν β) (name : ν) :
    (d.openEmpty name).2.inode name = some (d.openEmpty name).1 := by
  unfold Disk.openEmpty
  cases h : d.inode name with
  | some n => exact h
  | none => simp

theorem contents_openEmpty (d : Disk ν β) (name : ν) :
    (d.openEmpty name).2.contents (d.openEmpty name).1 = [] := by
  unfold Disk.openEmpty
  cases d.inode name <;> simp

theorem inode_openEmpty_of_ne (d : Disk ν β) (hne : other ≠ name) :
    (d.openEmpty name).2.inode other = d.inode other := by
  unfold Disk.openEmpty
  cases d.inode name with
  | some n => rfl
  | none => simp [hne]

/-- A new file has a number no name leads to. -/
theorem openEmpty_fresh (hd : Bounded d) (h : d.inode name = none) (other : ν) :
    d.inode other ≠ some (d.openEmpty name).1 := by
  intro hother
  have hlt := hd other _ hother
  simp [Disk.openEmpty, h] at hlt

theorem bounded_openEmpty (hd : Bounded d) (name : ν) : Bounded (d.openEmpty name).2 := by
  intro other m hm
  cases h : d.inode name with
  | some n =>
      simp only [Disk.openEmpty, h] at hm ⊢
      exact hd other m hm
  | none =>
      simp only [Disk.openEmpty, h] at hm ⊢
      by_cases hother : other = name
      · subst hother
        simp only [Function.update_self, Option.some.injEq] at hm
        omega
      · rw [Function.update_of_ne hother] at hm
        have hlt := hd other m hm
        omega

/-- Opening one name leaves the contents of another alone, if they are different files. -/
theorem read_openEmpty_of_ne (hd : Bounded d) (hne : other ≠ name)
    (hapart : ∀ m, d.inode name = some m → d.inode other ≠ some m) :
    (d.openEmpty name).2.read other = d.read other := by
  have hinode := inode_openEmpty_of_ne d hne
  cases hother : d.inode other with
  | none => simp [Disk.read, hinode, hother]
  | some m =>
      rw [read_of_inode (hinode.trans hother), read_of_inode hother]
      have hm : m ≠ (d.openEmpty name).1 := by
        rintro rfl
        cases h : d.inode name with
        | none => exact openEmpty_fresh hd h other hother
        | some n =>
            refine hapart n h ?_
            rw [hother]
            simp [Disk.openEmpty, h]
      unfold Disk.openEmpty at hm ⊢
      cases h : d.inode name with
      | some n =>
          rw [h] at hm
          simp [Function.update_of_ne hm]
      | none =>
          rw [h] at hm
          simp [Function.update_of_ne hm]

omit [DecidableEq ν] in
theorem writeAt_inode (d : Disk ν β) (gap : β) (n offset : ℕ) (chunk : List β) :
    (d.writeAt gap n offset chunk).inode = d.inode := rfl

omit [DecidableEq ν] in
theorem read_writeAt_of_ne (gap : β) {offset : ℕ} {chunk : List β} (h : d.inode other ≠ some n) :
    (d.writeAt gap n offset chunk).read other = d.read other := by
  cases hother : d.inode other with
  | none => simp [Disk.read, Disk.writeAt, hother]
  | some m =>
      have hm : m ≠ n := by
        rintro rfl
        exact h hother
      simp [Disk.read, Disk.writeAt, hother, Function.update_of_ne hm]

theorem rename_eq_some (h : d.rename source dest = some d') :
    ∃ m, d.inode source = some m ∧ d'.contents = d.contents ∧ d'.fresh = d.fresh ∧
      d'.inode = Function.update (Function.update d.inode source none) dest (some m) := by
  obtain ⟨m, hm, rfl⟩ := Option.map_eq_some_iff.mp h
  exact ⟨m, hm, rfl, rfl, rfl⟩

/-- What has been renamed is read under the new name. -/
theorem read_rename (h : d.rename source dest = some d') : d'.read dest = d.read source := by
  obtain ⟨m, hm, hcontents, -, hinode⟩ := rename_eq_some h
  rw [read_of_inode hm, Disk.read, hinode, hcontents]
  simp

theorem inode_rename_source (hne : source ≠ dest) (h : d.rename source dest = some d') :
    d'.inode source = none := by
  obtain ⟨m, -, -, -, hinode⟩ := rename_eq_some h
  rw [hinode, Function.update_of_ne hne, Function.update_self]

theorem bounded_rename (hd : Bounded d) (h : d.rename source dest = some d') : Bounded d' := by
  obtain ⟨m, hm, -, hfresh, hinode⟩ := rename_eq_some h
  intro name n hn
  rw [hinode] at hn
  rw [hfresh]
  by_cases hdest : name = dest
  · subst hdest
    rw [Function.update_self, Option.some.injEq] at hn
    subst hn
    exact hd source m hm
  · rw [Function.update_of_ne hdest] at hn
    by_cases hsource : name = source
    · subst hsource
      rw [Function.update_self] at hn
      cases hn
    · rw [Function.update_of_ne hsource] at hn
      exact hd name n hn

end

end Files
