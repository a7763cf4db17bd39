/-!
How a sheet is written out: a record of options, and the two modes that preset all of them but the
text used for indentation.
-/
namespace StyleFactor

structure Layout where
  minify : Bool
  /-- What stands before a declaration in an indented block. -/
  indent : String
  blockIndent : Bool
  valueSpace : Bool
  lastSemicolon : Bool
  deriving DecidableEq, Repr, Inhabited

namespace Layout

def canonical : Layout := ⟨false, "\t", true, true, true⟩

def minified : Layout := ⟨true, "\t", false, false, false⟩

end Layout

inductive Mode where
  | canonical
  | minified
  deriving DecidableEq, Repr, Inhabited

namespace Mode

def name : Mode → String
  | canonical => "canonical"
  | minified => "minify"

def layout : Mode → Layout
  | canonical => .canonical
  | minified => .minified

end Mode

end StyleFactor
