import StyleFactor.Grammar.Reader

/-!
Groups between an opening and a closing sign, with groups of the same kind and strings inside them.
Signs inside a string do not count. Nothing matches if the group, a group inside it or a string
inside it is never closed.
-/
namespace StyleFactor.Grammar

/-- Strings stand between two of the same of these. -/
def isMark (c : Char) : Bool := c == '"' || c == '\''

/-- A kind of group, and what becomes of its characters and of a whole group. -/
structure Nest (α : Type) where
  opening : Char
  closing : Char
  char : Char → α
  group : List α → List α

variable {α : Type}

namespace Nest

/-- Reads on inside a group. `outer` holds the groups around it, innermost first, and `here` the
group itself, the newest part first in each; `mark` is the mark of a string that is still open. -/
def inside (n : Nest α) (outer : List (List α)) (here : List α) (mark : Option Char) : Reader α
  | [] => none
  | c :: s =>
    match mark with
    | some q => n.inside outer (n.char c :: here) (if c = q then none else some q) s
    | none =>
      if c = n.closing then
        let whole := n.group (n.char c :: here).reverse
        match outer with
        | [] => some (whole, s)
        | o :: os => n.inside os (whole.reverse ++ o) none s
      else if c = n.opening then n.inside (here :: outer) [n.char c] none s
      else n.inside outer (n.char c :: here) (if isMark c then some c else none) s

def read (n : Nest α) : Reader α
  | [] => none
  | c :: s => if c = n.opening then n.inside [] [n.char c] none s else none

end Nest

end StyleFactor.Grammar
