import StyleFactor.Draft.Print
import StyleFactor.Grouping.OfDocument
import StyleFactor.Merge.Sequence

/-!
Making a document smaller: its groupings are extracted, merged and written back as rules, between
the other entries that have a meaning. Comments and white space are lost.
-/
namespace StyleFactor

/-- Which passes are made, and whether a malformed rule is an error. Equal groupings are always
merged. -/
structure Options where
  shared : Bool
  bySelector : Bool
  strict : Bool
  deriving DecidableEq, Repr, Inhabited

def Options.passes (o : Options) : List PassKind :=
  (if o.bySelector then [.bySelector] else []) ++ [.equal] ++ (if o.shared then [.shared] else [])

theorem Options.bySelector_notMem_passes {o : Options} (plain : o.bySelector = false) :
    PassKind.bySelector ∉ o.passes := by
  cases h : o.shared <;> simp [Options.passes, plain, h]

structure Refactoring where
  document : Document
  groupings : List (Grouping String)
  before : Nat
  after : Nat
  deriving Inhabited

namespace Refactoring

def merge (o : Options) (gs : List (Grouping String)) : Logged (List (Grouping String)) := do
  return (← runPasses o.passes (Piece.ofGroupings gs)).map (·.grouping)

/-- Fails only where a grouping cannot be extracted; its log ends with the sizes otherwise. -/
def ofDocument (o : Options) (d : Document) : Logged (Except Refusal Refactoring) := do
  match ← d.groupings o.strict with
  | .error r => return .error r
  | .ok gs =>
    let merged ← merge o gs
    let before := totalSize gs
    let after := totalSize merged
    .event .info (toString merged.length ++ " groupings, size " ++ toString before ++ " -> " ++
      toString after)
    return .ok ⟨d, merged, before, after⟩

def rules (r : Refactoring) : List Rule := r.groupings.map Grouping.toRule

/-- Entries that are taken over as they are. They are chosen by type, so an at-rule is left out if
its name is a type that is not taken over. -/
def passThrough (r : Refactoring) : List Draft :=
  r.document.rules.filter fun d =>
    !(d.isType "rule" || d.isType "comment" || d.isType "whitespace")

/-- Statements have to come first; then the rules, and then everything else. -/
def rebuilt (r : Refactoring) : Document :=
  ⟨r.passThrough.filter Draft.isStatement ++ r.rules.map (fun x => (Entry.rule x).toDraft) ++
    r.passThrough.filter (!·.isStatement), r.document.source⟩

end Refactoring

end StyleFactor
