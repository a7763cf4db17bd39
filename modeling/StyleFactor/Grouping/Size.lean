import StyleFactor.Grouping.Basic

/-!
How many characters groupings take when they are written as short as possible: a declaration with
its colon and semicolon, and selectors with a comma between two.
-/
namespace StyleFactor

def Declaration.size (d : Declaration String) : Nat := d.property.length + d.value.length + 2

def total (sizes : List Nat) : Nat := sizes.foldr (· + ·) 0

def declarationsSize (ds : List (Declaration String)) : Nat := total (ds.map Declaration.size)

namespace Grouping

def declarationSize (g : Grouping String) : Nat := declarationsSize g.declarations

def selectorSize (g : Grouping String) : Nat :=
  total (g.selectors.map String.length) + (g.selectors.length - 1)

def size (g : Grouping String) : Nat := g.declarationSize + g.selectorSize

end Grouping

def totalSize (gs : List (Grouping String)) : Nat := total (gs.map Grouping.size)

end StyleFactor
