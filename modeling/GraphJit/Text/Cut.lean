/-! # Cutting text

Text is split at separators without losing anything but the separators themselves.
A line may be indented and padded with any character that Unicode calls white
space; trimming removes such characters at both ends.
-/

namespace GraphJit.Text

/-- The text before the first character accepted by `stop`, and the text after it. -/
def cut? (stop : Char → Bool) : List Char → Option (List Char × List Char)
  | [] => none
  | c :: rest =>
    if stop c then some ([], rest)
    else (cut? stop rest).map fun parts => (c :: parts.1, parts.2)

/-- The text before the last occurrence of `mark`, and the text after it. -/
def cutLast? (mark : Char) (text : List Char) : Option (List Char × List Char) :=
  (cut? (· == mark) text.reverse).map fun parts => (parts.2.reverse, parts.1.reverse)

/-- The text before the first arrow `->`, and the text after it. -/
def cutArrow? : List Char → Option (List Char × List Char)
  | [] => none
  | '-' :: '>' :: rest => some ([], rest)
  | c :: rest => (cutArrow? rest).map fun parts => (c :: parts.1, parts.2)

/-- The pieces between the occurrences of `mark`; always at least one. -/
def pieces (mark : Char) : List Char → List (List Char)
  | [] => [[]]
  | c :: rest =>
    if c == mark then [] :: pieces mark rest
    else
      match pieces mark rest with
      | [] => [[c]]
      | piece :: more => (c :: piece) :: more

/-- The lines of a text: a line feed ends a line, and no line follows the last one. -/
def lines (text : List Char) : List (List Char) :=
  let all := pieces '\n' text
  if all.getLast? == some [] then all.dropLast else all

/-- The text after `lead`, if it starts so. -/
def after? (lead : List Char) (text : List Char) : Option (List Char) :=
  if lead.isPrefixOf text then some (text.drop lead.length) else none

/-- Inclusive code point ranges of the Unicode `White_Space` property. -/
def blankRanges : List (Nat × Nat) :=
  [(0x09, 0x0D), (0x20, 0x20), (0x85, 0x85), (0xA0, 0xA0), (0x1680, 0x1680),
    (0x2000, 0x200A), (0x2028, 0x2029), (0x202F, 0x202F), (0x205F, 0x205F), (0x3000, 0x3000)]

def isBlank (c : Char) : Bool :=
  blankRanges.any fun range => range.1 ≤ c.toNat && c.toNat ≤ range.2

/-- Drop the blanks in front. -/
def trimLeft (text : List Char) : List Char :=
  text.dropWhile isBlank

/-- Drop the blanks at both ends. -/
def trim (text : List Char) : List Char :=
  (trimLeft (trimLeft text).reverse).reverse

end GraphJit.Text
