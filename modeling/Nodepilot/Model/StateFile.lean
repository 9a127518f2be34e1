import Nodepilot.Lib.Files

/-!
# The steps of a save

`save_state` of `state.py` as the disk sees it: the temporary file is opened, which
empties it, its text is written in as many chunks as it takes, and it is renamed
onto the target.  Several processes may be at it at the same time, on the same
target and so with the same temporary name: the run loop and any number of
`nodepilot kill`s.  Between any two of its steps a call may be overtaken by others,
or its process may end.
-/

namespace Nodepilot

open Files

/-- `target.with_suffix(target.suffix + ".tmp")`. -/
def tmpName (target : String) : String :=
  target ++ ".tmp"

theorem tmpName_ne (target : String) : tmpName target ≠ target := by
  intro h
  have hlength := congrArg String.length h
  rw [tmpName, String.length_append] at hlength
  have hsuffix : ".tmp".length = 4 := rfl
  omega

/-- How far a call of `save_state` has come. -/
inductive SavePhase
  | ready
  /-- The temporary file is open; so many bytes of the text are written. -/
  | writing (file offset : ℕ)
  | done
  /-- An exception has escaped. -/
  | failed
  /-- The process has ended. -/
  | crashed
  deriving DecidableEq

/-- A call of `save_state`, with the encoded text of its snapshot. -/
structure SaveCall where
  text : List UInt8
  phase : SavePhase := .ready
  deriving DecidableEq

/-- What a call does next. -/
inductive SaveStep
  | truncate
  | write (count : ℕ)
  | replace
  | crash

namespace SaveCall

/-- The call has the temporary file open. -/
def isWriting (c : SaveCall) : Bool :=
  match c.phase with
  | .writing _ _ => true
  | _ => false

/-- One step of a call on a target, if it can take it. -/
def act (target : String) (step : SaveStep) (c : SaveCall) (d : Disk String UInt8) :
    Option (SaveCall × Disk String UInt8) :=
  match step, c.phase with
  | .truncate, .ready =>
      let (file, d') := d.openEmpty (tmpName target)
      some ({ c with phase := .writing file 0 }, d')
  | .write count, .writing file offset =>
      if 0 < count ∧ offset + count ≤ c.text.length then
        some ({ c with phase := .writing file (offset + count) },
          d.writeAt 0 file offset ((c.text.drop offset).take count))
      else none
  | .replace, .writing _ offset =>
      if offset = c.text.length then
        match d.rename (tmpName target) target with
        | some d' => some ({ c with phase := .done }, d')
        -- `os.replace` raises `FileNotFoundError`
        | none => some ({ c with phase := .failed }, d)
      else none
  | .crash, .ready => some ({ c with phase := .crashed }, d)
  | .crash, .writing _ _ => some ({ c with phase := .crashed }, d)
  | _, _ => none

end SaveCall

/-- Several calls on one target, and the disk. -/
structure Savers where
  calls : List SaveCall
  disk : Disk String UInt8

/-- Calls that have not begun, and no file. -/
def Savers.start (texts : List (List UInt8)) : Savers where
  calls := texts.map fun text => { text := text }
  disk := .empty

/-- The states that some interleaving of the calls reaches.  If they keep `apart`, none opens
the temporary file while another has it open. -/
inductive Interleaved (target : String) (texts : List (List UInt8)) (apart : Bool) : Savers → Prop
  | start : Interleaved target texts apart (.start texts)
  | step {s : Savers} {i : ℕ} {c c' : SaveCall} {step : SaveStep} {d : Disk String UInt8}
      (h : Interleaved target texts apart s) (hcall : s.calls[i]? = some c)
      (hact : c.act target step s.disk = some (c', d))
      (hapart : apart = true → step = .truncate → ∀ other ∈ s.calls, other.isWriting = false) :
      Interleaved target texts apart ⟨s.calls.set i c', d⟩

end Nodepilot
