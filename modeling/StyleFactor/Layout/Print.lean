import StyleFactor.Text.Blank
import StyleFactor.Sheet.Parse
import StyleFactor.Layout.Basic

/-!
Entries and sheets as text. The pieces (a declaration, a block, a rule) are written by functions on
texts, so that entries nobody has checked are written by the same rules as a parsed sheet.
-/
namespace StyleFactor

namespace Layout

variable (l : Layout)

def space : String := if l.minify then "" else " "

def lineBreak : String := if l.minify then "" else "\n"

def declaration (property value : String) : String :=
  property ++ ":" ++ (if l.valueSpace then " " else "") ++ value

/-- Declarations in braces. Without declarations nothing stands in between but a line break. -/
def block (decls : List String) : String :=
  let indent := if l.blockIndent then l.indent else ""
  let newline := if l.blockIndent then "\n" else ""
  let inner :=
    if decls.isEmpty then ""
    else (";" ++ newline).intercalate (decls.map (indent ++ ·)) ++
      (if l.lastSemicolon && !l.minify then ";" else "") ++ newline
  "\x7b" ++ newline ++ inner ++ "\x7d"

def selectors (ss : List String) : String :=
  let joined := ("," ++ l.space).intercalate ss
  if joined.isEmpty then "" else joined ++ l.space

def rule (ss decls : List String) : String :=
  l.selectors ss ++ l.block decls ++ l.lineBreak

def fontFace (decls : List String) : String :=
  "@font-face" ++ l.space ++ l.block decls ++ l.lineBreak

def atRule (a : AtRule) : String :=
  let head := "@" ++ a.name ++ (if a.prelude.isEmpty then "" else " " ++ a.prelude)
  match a.body with
  | none => head ++ ";" ++ l.lineBreak
  | some body => head ++ l.space ++ body ++ l.lineBreak

def comment (text : String) : String := if l.minify then "" else "/*" ++ text ++ "*/"

/-- White space over more than two lines shrinks to one line break. -/
def whitespace (s : String) : String :=
  if l.minify then ""
  else if s.toList.count '\n' > 1 then "\n"
  else s

/-- Entries one after the other, without white space at the end. -/
def sheet (entries : List String) : String :=
  .ofList (Text.trimEnd (String.join entries).toList)

end Layout

def Decl.format (l : Layout) (d : Decl) : String := l.declaration d.property d.value

def Entry.format (l : Layout) : Entry → String
  | .rule r => l.rule r.selectors (r.declarations.map (Decl.format l))
  | .fontFace f => l.fontFace (f.declarations.map (Decl.format l))
  | .atRule a => l.atRule a
  | .comment c => l.comment c.text
  | .whitespace s => l.whitespace s

def Sheet.format (l : Layout) (d : Sheet) : String :=
  Layout.sheet (d.entries.map (Entry.format l))

end StyleFactor
