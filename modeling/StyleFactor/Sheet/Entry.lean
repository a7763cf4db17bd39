import StyleFactor.Text.Location

/-!
What a style sheet consists of: rules, font faces, other at-rules, comments and the white space
between them, each where it stood in its source.
-/
namespace StyleFactor

/-- Where something stands: its first character, the character behind its last, and the source. -/
structure Position where
  start : Text.Marker
  stop : Text.Marker
  source : Option String
  deriving DecidableEq, Repr, Inhabited

structure Decl where
  property : String
  value : String
  position : Option Position
  deriving DecidableEq, Repr, Inhabited

structure Rule where
  selectors : List String
  declarations : List Decl
  position : Option Position
  deriving DecidableEq, Repr, Inhabited

structure FontFace where
  declarations : List Decl
  position : Option Position
  deriving DecidableEq, Repr, Inhabited

/-- Any other at-rule, with its body as it was written, or without one. -/
structure AtRule where
  name : String
  prelude : String
  body : Option String
  position : Option Position
  deriving DecidableEq, Repr, Inhabited

structure Comment where
  text : String
  position : Option Position
  deriving DecidableEq, Repr, Inhabited

inductive Entry where
  | rule (r : Rule)
  | fontFace (f : FontFace)
  | atRule (a : AtRule)
  | comment (c : Comment)
  | whitespace (s : String)
  deriving DecidableEq, Repr, Inhabited

def AtRule.isStatement (a : AtRule) : Bool := a.body.isNone

/-- What kind of entry it is. At-rules go by their names, which share one set of words with the
other kinds. -/
def Entry.type : Entry → String
  | .rule _ => "rule"
  | .fontFace _ => "font-face"
  | .atRule a => a.name
  | .comment _ => "comment"
  | .whitespace _ => "whitespace"

def Entry.isWhitespace : Entry → Bool
  | .whitespace _ => true
  | _ => false

def Entry.declarations : Entry → List Decl
  | .rule r => r.declarations
  | .fontFace f => f.declarations
  | _ => []

end StyleFactor
