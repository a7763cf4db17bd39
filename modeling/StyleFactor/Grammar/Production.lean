import StyleFactor.Grammar.Lexeme
import StyleFactor.Grammar.Fragment

/-!
The grammar of style sheets. A production `p := …` below is a reader that leaves a group tagged
with its name, even where it has read nothing; groups read on the way to a failure are forgotten.

    css        := toplevel*
    toplevel   := s / atrule / rule
    atrule     := fontface / atblock / atstatement
    fontface   := '@font-face', s*, block
    atblock    := '@', atname, atprelude, atbody
    atstatement:= '@', atname, atprelude, ';'
    atname     := name
    atprelude  := (string / parens / -[{};"'()])*
    atbody     := '{', (string / atbody / -[{}"'])*, '}'
    rule       := sels, block
    sels       := sel, (s*, ',', s*, sel)*
    sel        := (parens / attr / string / -[,{}()[;@"'])+
    block      := '{', s*, decls, s*, '}'
    decls      := decl?, (s*, ';', s*, decl?)*
    decl       := property, s*, ':', s*, value
    property   := [*_]?, name
    value      := (string / parens / -[;{}()"'])+
    s          := space / comment
    space      := [ \t\r\n\v\f]+
    comment    := '/*', commtext, '*/'
    commtext   := -"*/"*

Main statement: every production is lossless.
-/
namespace StyleFactor.Grammar

/-! Characters inside productions. -/

def selectorItem : Reader Char :=
  parens <|> attr <|> string <|> noneOf [',', '{', '}', '(', ')', '[', ';', '@', '"', '\'']

def selector : Reader Char := selectorItem.plus

def valueItem : Reader Char :=
  string <|> parens <|> noneOf [';', '{', '}', '(', ')', '"', '\'']

def valueText : Reader Char := valueItem.plus

def propertyText : Reader Char := (one ['*', '_'].contains).opt ++ name

def preludeItem : Reader Char :=
  string <|> parens <|> noneOf ['{', '}', ';', '"', '\'', '(', ')']

def preludeText : Reader Char := preludeItem.star

def spaceText : Reader Char := (one isSpace).plus

def commentText : Reader Char := fun s => some (before ['*', '/'] s)

/-- The body of an at-rule: each nested body is a group in the one around it. -/
def bodyNest : Nest Fragment := ⟨'{', '}', fun c => .text [c], fun ps => [.node "atbody" ps]⟩

/-! Productions. -/

/-- Characters that belong to the production around them. -/
def plain (a : Reader Char) : Reader Fragment := a.map fun cs => [.text cs]

def node (tag : String) (a : Reader Fragment) : Reader Fragment := a.map fun ps => [.node tag ps]

def leaf (tag : String) (a : Reader Char) : Reader Fragment := node tag (plain a)

def comment : Reader Fragment :=
  node "comment" (plain (word ['/', '*']) ++ leaf "commtext" commentText ++ plain (word ['*', '/']))

/-- White space or a comment between tokens. -/
def gap : Reader Fragment := node "s" (leaf "space" spaceText <|> comment)

def decl : Reader Fragment :=
  node "decl" (leaf "property" propertyText ++ gap.star ++ plain (sign ':') ++ gap.star ++
    leaf "value" valueText)

def decls : Reader Fragment :=
  node "decls" (decl.opt ++ (gap.star ++ plain (sign ';') ++ gap.star ++ decl.opt).star)

def block : Reader Fragment :=
  node "block" (plain (sign '{') ++ gap.star ++ decls ++ gap.star ++ plain (sign '}'))

def sel : Reader Fragment := leaf "sel" selector

def sels : Reader Fragment :=
  node "sels" (sel ++ (gap.star ++ plain (sign ',') ++ gap.star ++ sel).star)

def rule : Reader Fragment := node "rule" (sels ++ block)

def atname : Reader Fragment := leaf "atname" name

def atprelude : Reader Fragment := leaf "atprelude" preludeText

def atbody : Reader Fragment := bodyNest.read

def fontface : Reader Fragment :=
  node "fontface" (plain (word "@font-face".toList) ++ gap.star ++ block)

def atblock : Reader Fragment :=
  node "atblock" (plain (sign '@') ++ atname ++ atprelude ++ atbody)

def atstatement : Reader Fragment :=
  node "atstatement" (plain (sign '@') ++ atname ++ atprelude ++ plain (sign ';'))

def atrule : Reader Fragment := node "atrule" (fontface <|> atblock <|> atstatement)

def toplevel : Reader Fragment := node "toplevel" (gap <|> atrule <|> rule)

/-- A sheet as far as it can be read, and the text that is left. -/
def css (text : List Char) : List Fragment × List Char := toplevel.many text

end StyleFactor.Grammar
