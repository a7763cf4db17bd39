import StyleFactor.Grouping.Basic

/-!
What two groupings agree on. A declaration is in both if both resolve its property to its value;
so two groupings that set a property differently both have it to themselves.
-/
namespace StyleFactor

structure Comparison (α : Type) where
  firstOnly : List (Declaration α)
  secondOnly : List (Declaration α)
  both : List (Declaration α)
  deriving DecidableEq, Repr

namespace Comparison

variable {α : Type} [BEq α]

/-- Whether resolved declarations give a property a value. A value for which `absent` holds is also
given by leaving the property out. -/
def gives (absent : α → Bool) (m : List (Declaration α)) (d : Declaration α) : Bool :=
  match lookup m d.property with
  | some v => v == d.value
  | none => absent d.value

def ofResolved (absent : α → Bool) (a b : List (Declaration α)) : Comparison α :=
  ⟨a.filter (!gives absent b ·), b.filter (!gives absent a ·), a.filter (gives absent b)⟩

end Comparison

/-- Compares groupings of texts: no text is given by leaving a property out. -/
def Grouping.compare (a b : Grouping String) : Comparison String :=
  Comparison.ofResolved (fun _ => false) a.declarations b.declarations

end StyleFactor
