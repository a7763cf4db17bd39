import StyleFactor.Grouping.Compare
import StyleFactor.Grouping.Display
import StyleFactor.Grouping.Live
import StyleFactor.Grouping.OfDraft
import StyleFactor.Grouping.Size

/-!
What can be asked of a grouping in use with arguments that nobody has checked. A request returns the
grouping as it leaves it, and a fault if it could not be completed. A fault comes up when the item
it is about is reached: selectors and declarations before it have been added by then, but nothing
has been removed.
-/
namespace StyleFactor

namespace Value

/-- A single declaration: a tuple of exactly two texts, or a declaration of an entry. -/
def isDeclaration : Value → Bool
  | .tuple [.text _, .text _] => true
  | .pair (.text _) (.text _) => true
  | .decl _ _ _ => true
  | .loose fs => (fs.lookup "property").isSome && (fs.lookup "value").isSome
  | _ => false

def declarationItems (v : Value) : Except Fault (List Value) :=
  if v.isDeclaration then .ok [v] else v.items

def selectorItems (v : Value) : Except Fault (List Value) :=
  match v with
  | .text s => .ok [.text s]
  | v => v.items

def toDeclaration : Value → Except Fault (Declaration Value)
  | .tuple [p, v] => .ok ⟨p, v⟩
  | .tuple xs => .error (.notPair xs.length)
  | v =>
    match v.sides with
    | (some p, some w) => .ok ⟨p, w⟩
    | _ => .error .notDeclaration

def toDeclarations (v : Value) : Except Fault (List (Declaration Value)) := do
  (← v.declarationItems).mapM toDeclaration

end Value

/-- Declarations that can be looked up by their properties. -/
def needHashable (ds : List (Declaration Value)) : Except Fault Unit :=
  if ds.all (·.property.isHashable) then .ok () else .error .notHashable

def declarationMeasure (ds : List (Declaration Value)) : Except Fault Nat := do
  return total (← ds.mapM fun d => return (← d.property.length) + (← d.value.length) + 2)

/-- The items before the first that `f` refuses, and why it does. -/
def upToFault {α β : Type} (f : α → Except Fault β) : List α → List β × Option Fault
  | [] => ([], none)
  | x :: xs =>
    match f x with
    | .ok y =>
      let (ys, fault) := upToFault f xs
      (y :: ys, fault)
    | .error fault => ([], some fault)

namespace Live

/-- The resolved declarations, if they can be resolved or are remembered. -/
def resolved (g : Live Value) : Except Fault (List (Declaration Value)) :=
  match g.seen with
  | some m => .ok m
  | none => do
    needHashable g.grouping.log
    return g.declarations

def readRequest (g : Live Value) : Live Value × Except Fault (List (Declaration Value)) :=
  match g.resolved with
  | .ok m => (g.read, .ok m)
  | .error f => (g, .error f)

def requestSelectors (g : Live Value) (arg : Value) : Live Value × Option Fault :=
  match arg.selectorItems with
  | .error f => (g, some f)
  | .ok vs =>
    let (ss, fault) :=
      upToFault (fun v => if v.isHashable then .ok v else .error Fault.notHashable) vs
    (g.insertSelectors ss, fault)

def requestDeclarations (g : Live Value) (arg : Value) : Live Value × Option Fault :=
  match arg.declarationItems with
  | .error f => (g, some f)
  | .ok vs =>
    match upToFault Value.toDeclaration vs with
    | (ds, none) => (g.declare ds, none)
    | (ds, some f) => (g.declarePartly ds, some f)

/-- The declarations of an argument, each fit to be looked up. -/
def wanted (arg : Value) : Except Fault (List (Declaration Value)) := do
  (← arg.declarationItems).mapM fun v => do
    let d ← v.toDeclaration
    needHashable [d]
    return d

def requestRemoval (g : Live Value) (arg : Value) : Live Value × Option Fault :=
  match g.resolved with
  | .error f => (g, some f)
  | .ok m =>
    match wanted arg with
    | .error f => (g.read, some f)
    | .ok ds =>
      match Grouping.confirmed m ds, needHashable g.grouping.log with
      | _ :: _, .error f => (g.read, some f)
      | _, _ => (g.retract ds, none)

/-- A new grouping. Its declarations are always gone through, even a single one. -/
def request (declarations selectors : Value) : Except Fault (Live Value) := do
  let ds ← (← declarations.items).mapM Value.toDeclaration
  match (ofLists ds []).requestSelectors selectors with
  | (g, none) => return g
  | (_, some f) => .error f

/-- The sum of the lengths of the selectors, and a comma between two. -/
def selectorMeasure (g : Live Value) : Except Fault Nat := do
  let lengths ← g.grouping.selectors.mapM Value.length
  return total lengths + (lengths.length - 1)

structure View where
  selectors : List Value
  declarations : List (Declaration Value)
  declarationSize : Nat
  selectorSize : Nat

def view (g : Live Value) : Live Value × Except Fault View :=
  let (g, ds) := g.readRequest
  (g, do
    let ds ← ds
    return ⟨g.grouping.selectors, ds, ← declarationMeasure ds, ← g.selectorMeasure⟩)

/-- A grouping as messages show it. Its selectors have to be texts, and are looked at first. -/
def display (g : Live Value) : Live Value × Except Fault String :=
  match g.grouping.selectors.mapM Value.needText with
  | .error f => (g, .error f)
  | .ok ss =>
    let (g, ds) := g.readRequest
    (g, ds.map (Grouping.displayWith Value.plain ss))

def toDraft (g : Live Value) : Live Value × Except Fault Draft :=
  let (g, ds) := g.readRequest
  (g, ds.map fun ds =>
    .rule (.list g.grouping.selectors) (.list (ds.map fun d => .decl d.property d.value none)) none)

def ofGrouping (g : Grouping String) : Live Value :=
  .ofLists (g.log.map fun d => ⟨.text d.property, .text d.value⟩) (g.selectors.map .text)

def copy (g : Live Value) : Live Value × Except Refusal (Live Value) :=
  let (g, d) := g.toDraft
  (g, do return ofGrouping (← Grouping.ofDraft (← Fault.refuse d)))

/-- Compares groupings; a property left out counts as null. -/
def compare (g h : Live Value) : Live Value × Live Value × Except Fault (Comparison Value) :=
  match g.readRequest with
  | (g, .error f) => (g, h, .error f)
  | (g, .ok a) =>
    let (h, b) := h.readRequest
    (g, h, b.map (Comparison.ofResolved Value.isNull a))

end Live

end StyleFactor
