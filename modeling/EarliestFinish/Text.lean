import EarliestFinish.Decimal

/-!
# Texts and labels

How a text is quoted and where it ends, and the labels of tasks and machines.
-/

namespace EarliestFinish

namespace Text

/-! ## Characters that do not show

Two sets of code points, as lists of closed ranges:

* the *blank* ones, which are dropped at both ends of a name;
* the *hidden* ones, which quoting writes as escapes: controls, format controls, line and paragraph
  separators, private use, and every space but U+0020. A code point to which no character is
  assigned counts as visible.
-/

/-- Whether a code point lies in one of some closed ranges. -/
def inRanges (ranges : List (Nat × Nat)) (c : Char) : Bool :=
  ranges.any fun r => r.1 ≤ c.toNat && c.toNat ≤ r.2

/-- The ranges of blank code points. -/
def blankRanges : List (Nat × Nat) :=
  [(0x9, 0xD), (0x1C, 0x20), (0x85, 0x85), (0xA0, 0xA0), (0x1680, 0x1680), (0x2000, 0x200A),
   (0x2028, 0x2029), (0x202F, 0x202F), (0x205F, 0x205F), (0x3000, 0x3000)]

/-- The ranges of hidden code points. -/
def hiddenRanges : List (Nat × Nat) :=
  [(0x0, 0x1F), (0x7F, 0xA0), (0xAD, 0xAD), (0x600, 0x605), (0x61C, 0x61C), (0x6DD, 0x6DD),
   (0x70F, 0x70F), (0x890, 0x891), (0x8E2, 0x8E2), (0x1680, 0x1680), (0x180E, 0x180E),
   (0x2000, 0x200F), (0x2028, 0x202F), (0x205F, 0x2064), (0x2066, 0x206F), (0x3000, 0x3000),
   (0xE000, 0xF8FF), (0xFEFF, 0xFEFF), (0xFFF9, 0xFFFB), (0x110BD, 0x110BD),
   (0x110CD, 0x110CD), (0x13430, 0x13438), (0x1BCA0, 0x1BCA3), (0x1D173, 0x1D17A),
   (0xE0001, 0xE0001), (0xE0020, 0xE007F), (0xF0000, 0xFFFFD), (0x100000, 0x10FFFD)]

/-- Whether a character is blank. -/
def isBlank (c : Char) : Bool := inRanges blankRanges c

/-- Whether a character is written as an escape inside quotes. -/
def isHidden (c : Char) : Bool := inRanges hiddenRanges c

/-- A text without the blanks at its two ends. -/
def trimmed (s : String) : String :=
  String.ofList ((s.toList.dropWhile isBlank).reverse.dropWhile isBlank).reverse

/-! ## Quoted text

A text is quoted with `'`, or with `"` if it holds a `'` and no `"`. Inside, the backslash and the
quote in use follow a backslash, a tab, a line feed and a carriage return are `\t`, `\n` and `\r`,
and every other hidden character is written by its code point: `\xNN`, `\uNNNN` or `\UNNNNNNNN`,
the shortest of the three that holds it, in lower case.
-/

/-- A number in lower-case hexadecimal, filled with zeros to a width. -/
def hex (width n : Nat) : List Char :=
  let digits := Nat.toDigits 16 n
  List.replicate (width - digits.length) '0' ++ digits

/-- The escape that names a code point. -/
def codeEscape (n : Nat) : List Char :=
  if n < 0x100 then '\\' :: 'x' :: hex 2 n
  else if n < 0x10000 then '\\' :: 'u' :: hex 4 n
  else '\\' :: 'U' :: hex 8 n

/-- A character inside quotes. -/
def escaped (quote c : Char) : List Char :=
  if c = '\\' ∨ c = quote then ['\\', c]
  else if c = '\t' then ['\\', 't']
  else if c = '\n' then ['\\', 'n']
  else if c = '\r' then ['\\', 'r']
  else if isHidden c then codeEscape c.toNat
  else [c]

/-- The quote that a text is put in. -/
def quoteFor (cs : List Char) : Char := if '\'' ∈ cs ∧ '"' ∉ cs then '"' else '\''

/-- A text in quotes. -/
def quoted (s : String) : String :=
  let quote := quoteFor s.toList
  String.ofList (quote :: s.toList.flatMap (escaped quote) ++ [quote])

end Text

/-! ## Labels

Tasks and machines carry a label for their reader, a text or a whole number. The planner itself
goes by positions and never looks at a label.
-/

/-- The name of a task or machine. -/
inductive Label
  | text (s : String)
  | number (n : Int)
  deriving DecidableEq

/-- A label as it stands. -/
def Label.plain : Label → String
  | .text s => s
  | .number n => Decimal.intText n

/-- A label inside a sentence: a text in quotes. -/
def Label.quoted : Label → String
  | .text s => Text.quoted s
  | .number n => Decimal.intText n

/-- Several labels in brackets. -/
def Label.listed (labels : List Label) : String :=
  "[" ++ String.intercalate ", " (labels.map Label.quoted) ++ "]"

end EarliestFinish
