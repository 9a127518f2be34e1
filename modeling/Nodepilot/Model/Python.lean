import Nodepilot.Lib.Text

/-!
# Exceptions and number formats

What the modules of the scheduler share with the Python they are written in:
the exception classes their `except` clauses tell apart, and the two number
formats their messages and command lines use.  Floats are exact rationals.
-/

namespace Nodepilot

/-! ## Exceptions -/

/-- The exception classes that reach an `except` clause of the program or escape it. -/
inductive ExcClass
  /-- `OSError` and those of its subclasses no clause names. -/
  | osError
  | processLookupError
  | permissionError
  | runtimeError
  /-- `ValueError` and its subclasses, a failed decoding among them. -/
  | valueError
  | typeError
  | attributeError
  | indexError
  | overflowError
  /-- `subprocess.CalledProcessError`, of a child run with `check=True`. -/
  | calledProcessError
  /-- `subprocess.TimeoutExpired`. -/
  | timeoutExpired
  /-- Not an exception of Python: the orchestrator process itself ends here. -/
  | died
  deriving DecidableEq, Repr

namespace ExcClass

/-- `except OSError`. -/
def isOSError : ExcClass → Bool
  | osError | processLookupError | permissionError => true
  | _ => false

/-- `except subprocess.SubprocessError`. -/
def isSubprocessError : ExcClass → Bool
  | calledProcessError | timeoutExpired => true
  | _ => false

end ExcClass

/-- A raised exception: its class and `str(exc)`. -/
structure Exc where
  cls : ExcClass
  message : String
  deriving DecidableEq, Repr

def valueError (message : String) : Exc := ⟨.valueError, message⟩

/-- A block that raises nowhere returns what its last line returns. -/
theorem except_bind_eq_ok {α β : Type} {x : Except Exc α} {f : α → Except Exc β} {b : β} :
    x >>= f = .ok b ↔ ∃ a, x = .ok a ∧ f a = .ok b := by
  cases x with
  | error e => simp [bind, Except.bind]
  | ok a => simp [bind, Except.bind]

/-- A block raises what its first line raises, or what the rest of it does. -/
theorem except_bind_eq_error {α β : Type} {x : Except Exc α} {f : α → Except Exc β} {e : Exc} :
    x >>= f = .error e ↔ x = .error e ∨ ∃ a, x = .ok a ∧ f a = .error e := by
  cases x with
  | error e' => simp [bind, Except.bind]
  | ok a => simp [bind, Except.bind]

/-! ## Number formats -/

/-- Rounding to an integer, ties to even, as `format` rounds. -/
def roundHalfEven (x : ℚ) : ℤ :=
  let rest := x - ⌊x⌋
  if rest < 1 / 2 then ⌊x⌋
  else if 1 / 2 < rest then ⌊x⌋ + 1
  else if ⌊x⌋ % 2 = 0 then ⌊x⌋ else ⌊x⌋ + 1

/-- The sign `format` writes. -/
def signText (x : ℚ) : String :=
  if x < 0 then "-" else ""

/-- `f"{x:.{places}f}"`. -/
def formatFixed (places : ℕ) (x : ℚ) : String :=
  let text := Nat.toDigits 10 (roundHalfEven (|x| * 10 ^ places)).toNat
  let padded := List.replicate (places + 1 - text.length) '0' ++ text
  let whole := padded.take (padded.length - places)
  let fraction := padded.drop (padded.length - places)
  signText x ++ String.ofList whole ++
    (if places = 0 then "" else "." ++ String.ofList fraction)

/-- A fraction with its trailing zeros dropped, and no point if nothing is left. -/
def fractionText (fraction : List Char) : String :=
  let kept := fraction.rdropWhile (· == '0')
  if kept.isEmpty then "" else "." ++ String.ofList kept

/-- `f"{x:g}"`: six significant digits, an exponent when it is below `-4` or above `5`. -/
def formatGeneral (x : ℚ) : String :=
  if x = 0 then "0" else
    let e₀ := Int.log 10 |x|
    let n₀ := roundHalfEven (|x| * (10 : ℚ) ^ (5 - e₀))
    let e := if n₀ = 10 ^ 6 then e₀ + 1 else e₀
    let digits := Nat.toDigits 10 (if n₀ = 10 ^ 6 then 10 ^ 5 else n₀.toNat)
    if 0 ≤ e ∧ e < 6 then
      signText x ++ String.ofList (digits.take (e.toNat + 1)) ++
        fractionText (digits.drop (e.toNat + 1))
    else if -4 ≤ e ∧ e < 0 then
      signText x ++ "0" ++ fractionText (List.replicate (-e - 1).toNat '0' ++ digits)
    else
      let exponent := Nat.toDigits 10 e.natAbs
      signText x ++ String.ofList (digits.take 1) ++ fractionText (digits.drop 1) ++
        (if e < 0 then "e-" else "e+") ++
        String.ofList (List.replicate (2 - exponent.length) '0' ++ exponent)

end Nodepilot
