/-!
White space, and the two things done with it: trimming the ends of a text and collapsing every run
inside it to a single space. The class is wider than the white space a style sheet may hold between
its tokens (`Grammar.isSpace`), so a character can be legal inside a selector and still be dropped
here.
-/
namespace StyleFactor.Text

/-- Code point ranges of white space, both ends included. -/
def blankRanges : List (Nat × Nat) :=
  [(0x09, 0x0D), (0x1C, 0x20), (0x85, 0x85), (0xA0, 0xA0), (0x1680, 0x1680), (0x2000, 0x200A),
    (0x2028, 0x2029), (0x202F, 0x202F), (0x205F, 0x205F), (0x3000, 0x3000)]

def isBlank (c : Char) : Bool :=
  blankRanges.any fun r => r.1 ≤ c.toNat && c.toNat ≤ r.2

def trimEnd (s : List Char) : List Char :=
  (s.reverse.dropWhile isBlank).reverse

def trim (s : List Char) : List Char :=
  trimEnd (s.dropWhile isBlank)

/-- The longest pieces of a text that hold no white space. -/
def words (s : List Char) : List (List Char) :=
  (s.splitOnP isBlank).filter (!·.isEmpty)

/-- Words with one space between them: white space at the ends is dropped too. -/
def collapse (s : List Char) : List Char :=
  [' '].intercalate (words s)

theorem words_nil : words [] = [] := rfl

end StyleFactor.Text
