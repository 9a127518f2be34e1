import Nodepilot.Model.CpuList

/-!
# Sibling threads

`detect_smt_secondary` of `numa.py`: of the hardware threads of every physical core
the ones that are not the lowest.  An entry is what comes of reading the
`thread_siblings_list` of one `cpu<N>` directory, in the order `glob` has them.
-/

namespace Nodepilot

/-- `parse_cpu_list(sib_file.read_text(encoding="ascii").strip())`. -/
def readSiblings (entry : Except Exc String) : Except Exc (Finset ℤ) := do
  let text ← entry
  parseCpuList (String.ofList (Text.strip text.toList))

/-- The loop of `detect_smt_secondary`. -/
def secondaryFrom (seen secondary : Finset ℤ) :
    List (Except Exc String) → Except Exc (Finset ℤ)
  | [] => .ok secondary
  | entry :: rest =>
      match readSiblings entry with
      | .error e =>
          if e.cls.isOSError || e.cls == .valueError then secondaryFrom seen secondary rest
          else .error e
      | .ok group =>
          if hgroup : group = ∅ then secondaryFrom seen secondary rest
          else
            let primary := group.min' (Finset.nonempty_iff_ne_empty.mpr hgroup)
            if primary ∈ seen then secondaryFrom seen secondary rest
            else secondaryFrom (seen ∪ group) (secondary ∪ (group \ {primary})) rest

/-- `detect_smt_secondary`; `none` where there is no `/sys/devices/system/cpu`. -/
def detectSmtSecondary (entries : Option (List (Except Exc String))) : Except Exc (Finset ℤ) :=
  match entries with
  | none => .ok ∅
  | some entries => secondaryFrom ∅ ∅ entries

/-- Two cores of two threads each; one entry is malformed and one unreadable. -/
example : detectSmtSecondary (some [.ok "0,2\n", .ok "3-1\n", .error ⟨.osError, ""⟩, .ok "1,3\n"]) =
    .ok {2, 3} := by decide +kernel

end Nodepilot
