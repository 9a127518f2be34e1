import Mathlib

/-!
# The words of a command line

`shlex.split`: the words of a line by the rules of a POSIX shell, nothing being
expanded.  The line is read one character after the other; quotes keep what is between
them together, a backslash takes the next character as it is, and pieces that touch are
one word.  An open quote and a backslash at the end are errors.

`Spells s text` says that a reader that comes upon `s` inside a line adds `text` to the
word it is at.  Spellings compose, and a line of spellings with blanks between them
reads as the list of what they spell.
-/

namespace Shlex

/-- What the next character is read as a part of. -/
inductive Mode
  | bare
  | single
  | double
  /-- After a backslash outside quotes. -/
  | escape
  /-- After a backslash in double quotes. -/
  | doubleEscape
  deriving DecidableEq, Repr

def blank (c : Char) : Bool :=
  c == ' ' || c == '\t' || c == '\r' || c == '\n'

/-- Outside quotes the character stands for itself. -/
def plain (c : Char) : Bool :=
  !(blank c || c == '\'' || c == '"' || c == '\\')

/-- Reading the rest of a line, at a word or between two. -/
def scan : Mode → Option (List Char) → List Char → Option (List (List Char))
  | .bare, word, [] => some word.toList
  | _, _, [] => none
  | .bare, word, c :: rest =>
      if blank c then (scan .bare none rest).map (word.toList ++ ·)
      else if c = '\'' then scan .single (some (word.getD [])) rest
      else if c = '"' then scan .double (some (word.getD [])) rest
      else if c = '\\' then scan .escape word rest
      else scan .bare (some (word.getD [] ++ [c])) rest
  | .escape, word, c :: rest => scan .bare (some (word.getD [] ++ [c])) rest
  | .single, word, c :: rest =>
      if c = '\'' then scan .bare word rest
      else scan .single (some (word.getD [] ++ [c])) rest
  | .double, word, c :: rest =>
      if c = '"' then scan .bare word rest
      else if c = '\\' then scan .doubleEscape word rest
      else scan .double (some (word.getD [] ++ [c])) rest
  | .doubleEscape, word, c :: rest =>
      -- the backslash stays where it has nothing to take
      if c = '"' ∨ c = '\\' then scan .double (some (word.getD [] ++ [c])) rest
      else scan .double (some (word.getD [] ++ ['\\', c])) rest

/-- `shlex.split`. -/
def split (line : List Char) : Option (List (List Char)) :=
  scan .bare none line

/-! ## Spellings -/

/-- A reader of `spelling` adds `text` to its word. -/
def Spells (spelling text : List Char) : Prop :=
  ∀ word rest, scan .bare word (spelling ++ rest) = scan .bare (some (word.getD [] ++ text)) rest

theorem Spells.append {spelling spelling' text text' : List Char} (h : Spells spelling text)
    (h' : Spells spelling' text') : Spells (spelling ++ spelling') (text ++ text') := by
  intro word rest
  rw [List.append_assoc, h, h', Option.getD_some, List.append_assoc]

theorem spells_of_plain {c : Char} (hc : plain c = true) : Spells [c] [c] := by
  intro word rest
  simp only [plain, Bool.not_eq_true', Bool.or_eq_false_iff, beq_eq_false_iff_ne] at hc
  obtain ⟨⟨⟨hblank, hsingle⟩, hdouble⟩, hescape⟩ := hc
  rw [List.singleton_append, scan, if_neg (by simp [hblank]), if_neg hsingle, if_neg hdouble,
    if_neg hescape]

/-- A word without a character of its own spells itself. -/
theorem spells_of_all_plain {text : List Char} (hne : text ≠ []) (h : ∀ c ∈ text, plain c = true) :
    Spells text text := by
  induction text with
  | nil => exact absurd rfl hne
  | cons c rest ih =>
      have hfirst : Spells [c] [c] := spells_of_plain (h c (List.mem_cons_self ..))
      by_cases hrest : rest = []
      · subst hrest
        exact hfirst
      · exact hfirst.append (ih hrest fun d hd => h d (List.mem_cons_of_mem _ hd))

/-! ## Quoting -/

/-- A text in single quotes, each quote in it in double ones. -/
def quoted (text : List Char) : List Char :=
  '\'' :: (text.flatMap fun c => if c = '\'' then "'\"'\"'".toList else [c]) ++ ['\'']

/-- Whatever a text is, quoted it spells itself. -/
theorem spells_quoted (text : List Char) : Spells (quoted text) text := by
  -- the induction is over the rest of the text, the reader being in single quotes
  have hinside : ∀ (text word rest : List Char),
      scan .single (some word) ((text.flatMap fun c => if c = '\'' then "'\"'\"'".toList else [c]) ++
        '\'' :: rest) = scan .bare (some (word ++ text)) rest := by
    intro text
    induction text with
    | nil =>
        intro word rest
        rw [List.flatMap_nil, List.nil_append, List.append_nil]
        rfl
    | cons c text ih =>
        intro word rest
        have hsnoc : word ++ c :: text = (word ++ [c]) ++ text := by
          rw [List.append_assoc]
          rfl
        rw [List.flatMap_cons, List.append_assoc, hsnoc, ← ih (word ++ [c]) rest]
        by_cases hc : c = '\''
        · subst hc
          rfl
        · rw [if_neg hc, List.singleton_append, scan, if_neg hc, Option.getD_some]
  intro word rest
  rw [quoted, List.append_assoc, List.singleton_append]
  exact hinside text (word.getD []) rest

/-! ## Lines -/

/-- The first word of a line and a blank. -/
theorem split_word_blank {spelling text : List Char} (h : Spells spelling text) (rest : List Char) :
    split (spelling ++ ' ' :: rest) = (split rest).map (text :: ·) := by
  rw [split, h, Option.getD_none, List.nil_append, scan, if_pos (by decide)]
  rfl

theorem split_word {spelling text : List Char} (h : Spells spelling text) :
    split spelling = some [text] := by
  have hall := h none []
  rw [List.append_nil, Option.getD_none, List.nil_append] at hall
  exact hall

/-- A line of spelled words is read as these words. -/
theorem split_words {spell : List Char → List Char} (h : ∀ text, Spells (spell text) text)
    (texts : List (List Char)) : split ([' '].intercalate (texts.map spell)) = some texts := by
  induction texts with
  | nil => rfl
  | cons text texts ih =>
      cases texts with
      | nil => simpa using split_word (h text)
      | cons next more =>
          have hjoin : [' '].intercalate ((text :: next :: more).map spell) =
              spell text ++ ' ' :: [' '].intercalate ((next :: more).map spell) := by
            simp [List.intercalate]
          rw [hjoin, split_word_blank (h text), ih]
          rfl

end Shlex
