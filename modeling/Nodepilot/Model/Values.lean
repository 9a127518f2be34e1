import Nodepilot.Lib.Trees
import Nodepilot.Model.Python

/-!
# Values of a document

What `yaml.safe_load` and `json.loads` build: trees of Python lists and
dictionaries over scalars.  A key of a dictionary is a scalar of any kind, and
`1`, `1.0` and `True` are one key.  Equality of values is that of Python's
containers, which take an object to be equal to itself: there is one `nan` that
PyYAML hands out and another of the JSON decoder, and they are not equal.

A Python `str` is a row of code points.  One without surrogates is a `String`; the
escapes of a document can put surrogates into one, which then is a row of numbers.
-/

namespace Nodepilot

open Trees

/-! ## Texts -/

namespace CodePoint

def isHigh (p : ℕ) : Bool :=
  0xD800 ≤ p && p < 0xDC00

def isLow (p : ℕ) : Bool :=
  0xDC00 ≤ p && p < 0xE000

def isSurrogate (p : ℕ) : Bool :=
  isHigh p || isLow p

/-- The character a high and a low surrogate stand for in UTF-16: each carries ten bits of it. -/
def combine (high low : ℕ) : ℕ :=
  0x10000 + high % 0x400 * 0x400 + low % 0x400

/-- Somewhere a low surrogate comes right after a high one. -/
def paired : List ℕ → Bool
  | [] => false
  | p :: rest => (isHigh p && rest.head?.any isLow) || paired rest

end CodePoint

/-- A `str` with a surrogate in it, by its code points. -/
structure Surrogates where
  points : List ℕ
  valid : ∀ p ∈ points, p < 0x110000
  found : ∃ p ∈ points, CodePoint.isSurrogate p = true
  deriving DecidableEq

/-- A `str`. -/
inductive PyStr
  | text (s : String)
  | surrogates (s : Surrogates)
  deriving DecidableEq

instance : Coe String PyStr := ⟨.text⟩

namespace PyStr

/-- The `str` of some code points. -/
def ofPoints (points : List ℕ) : PyStr :=
  if h : (∀ p ∈ points, p < 0x110000) ∧ ∃ p ∈ points, CodePoint.isSurrogate p = true then
    .surrogates ⟨points, h.1, h.2⟩
  else .text (String.ofList (points.map Char.ofNat))

/-- Somewhere in the `str` a low surrogate comes right after a high one. -/
def paired : PyStr → Bool
  | text _ => false
  | surrogates s => CodePoint.paired s.points

/-- What a `for` loop runs through. -/
def chars : PyStr → List PyStr
  | text s => s.toList.map fun c => .text (String.singleton c)
  | surrogates s => s.points.map fun p => ofPoints [p]

end PyStr

/-! ## Scalars -/

/-- The `nan` objects. -/
inductive NanObject
  /-- `SafeConstructor.nan_value` of PyYAML. -/
  | constructor
  /-- `json.decoder.NaN`. -/
  | decoder
  deriving DecidableEq

/-- A `float`. -/
inductive PyFloat
  | finite (x : ℚ)
  | infinity (negative : Bool)
  | nan (object : NanObject)
  deriving DecidableEq

/-- What is neither a list nor a dictionary. -/
inductive Scalar
  | none
  | bool (b : Bool)
  | int (n : ℤ)
  | float (x : PyFloat)
  | str (s : String)
  | surrogates (s : Surrogates)
  /-- A `datetime.date`, by its ordinal. -/
  | date (ordinal : ℤ)
  /-- A `datetime.datetime`, by its reading in microseconds; an aware one has an offset. -/
  | datetime (reading : ℤ) (utcoffset : Option ℤ)
  | bytes (data : List UInt8)
  deriving DecidableEq

namespace Scalar

/-- The scalar that stands for all those equal to it. -/
def canonical : Scalar → Scalar
  | bool b => float (.finite (if b then 1 else 0))
  | int n => float (.finite n)
  | datetime reading (some offset) => datetime (reading - offset) (some 0)
  | a => a

/-- `type(a).__name__`. -/
def typeName : Scalar → String
  | none => "NoneType"
  | bool _ => "bool"
  | int _ => "int"
  | float _ => "float"
  | str _ => "str"
  | surrogates _ => "str"
  | date _ => "date"
  | datetime _ _ => "datetime"
  | bytes _ => "bytes"

/-- `bool(a)`. -/
def truthy : Scalar → Bool
  | none => false
  | bool b => b
  | int n => n != 0
  | float x => x != .finite 0
  | str s => s != ""
  | surrogates _ => true
  | date _ => true
  | datetime _ _ => true
  | bytes data => !data.isEmpty

/-- `a <= 0`; only numbers can be compared with one. -/
def nonpositive : Scalar → Except Exc Bool
  | bool b => pure !b
  | int n => pure (n ≤ 0)
  | float (.finite x) => pure (x ≤ 0)
  | float (.infinity negative) => pure negative
  | float (.nan _) => pure false
  | a => throw ⟨.typeError,
      "'<=' not supported between instances of '" ++ a.typeName ++ "' and 'int'"⟩

end Scalar

/-- A `str` as a scalar. -/
def PyStr.scalar : PyStr → Scalar
  | text s => .str s
  | surrogates s => .surrogates s

/-- A value of a document. -/
abbrev Value := Tree Scalar Scalar

namespace Value

/-- `type(v).__name__`. -/
def typeName : Value → String
  | .leaf a => a.typeName
  | .list _ => "list"
  | .dict _ => "dict"

/-- `bool(v)`. -/
def truthy : Value → Bool
  | .leaf a => a.truthy
  | .list items => !items.isEmpty
  | .dict items => !items.isEmpty

/-- `v.items()`. -/
def items : Value → Except Exc (List (Scalar × Value))
  | .dict items => pure items
  | v => throw ⟨.attributeError, "'" ++ typeName v ++ "' object has no attribute 'items'"⟩

/-- What `for x in v` runs through. -/
def iterate : Value → Except Exc (List Value)
  | .list items => pure items
  | .dict items => pure (items.map fun item => .leaf item.1)
  | .leaf (.str s) => pure ((PyStr.text s).chars.map fun c => .leaf c.scalar)
  | .leaf (.surrogates s) => pure ((PyStr.surrogates s).chars.map fun c => .leaf c.scalar)
  | .leaf (.bytes data) => pure (data.map fun b => .leaf (.int b.toNat))
  | v => throw ⟨.typeError, "'" ++ typeName v ++ "' object is not iterable"⟩

/-- The scalar a set takes as a member; lists and dictionaries have no hash. -/
def hashable : Value → Except Exc Scalar
  | .leaf a => pure a
  | v => throw ⟨.typeError, "unhashable type: '" ++ typeName v ++ "'"⟩

/-- `v <= 0`. -/
def nonpositive : Value → Except Exc Bool
  | .leaf a => a.nonpositive
  | v => throw ⟨.typeError,
      "'<=' not supported between instances of '" ++ typeName v ++ "' and 'int'"⟩

end Value

/-- `items.get(name)`. -/
def getKey (name : String) (items : List (Scalar × Value)) : Option Value :=
  (items.find? fun item => item.1 == .str name).map Prod.snd

/-- `{k: v for k, v in items if k in known}`. -/
def keepKnown (known : List String) (items : List (Scalar × Value)) : List (Scalar × Value) :=
  items.filter fun item =>
    match item.1 with
    | .str s => known.contains s
    | _ => false

/-- A value as `yaml.safe_load` builds it: no two keys of a dictionary are equal, and the only
`nan` is PyYAML's. -/
def YamlBuilt (v : Value) : Prop :=
  v.Every (fun a => a ≠ .float (.nan .decoder)) fun ks =>
    (ks.map Scalar.canonical).Nodup ∧ Scalar.float (.nan .decoder) ∉ ks

theorem YamlBuilt.distinct {v : Value} (h : YamlBuilt v) : v.Distinct :=
  Tree.Every.mono (fun _ _ => trivial) (fun _ hks => List.Nodup.of_map _ hks.1) v h

/-- What the texts of the interpreter are made of. -/
structure Interpreter where
  /-- `repr` of a finite `float`. -/
  floatRepr : ℚ → String
  /-- `repr` of any value. -/
  valueRepr : Value → String

end Nodepilot
