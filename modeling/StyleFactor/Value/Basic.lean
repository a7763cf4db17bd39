import StyleFactor.Sheet.Entry
import StyleFactor.Text.Template

/-!
Values that nobody has checked. Where a caller builds entries or groupings by hand, any field may
hold any of these, and what is done with it succeeds or is refused with a fault.
-/
namespace StyleFactor

inductive Value where
  | null
  | bool (b : Bool)
  | int (n : Int)
  | text (s : String)
  | list (items : List Value)
  | tuple (items : List Value)
  | table (fields : List (String × Value))
  /-- A declaration as a tuple with a name for each side. -/
  | pair (property value : Value)
  | stream (items : List Value)
  /-- A declaration as it stands in an entry. -/
  | decl (property value : Value) (position : Option Position)
  /-- Something with fields of its own, in the order in which it got them. -/
  | loose (fields : List (String × Value))
  deriving Inhabited

/-- Why something cannot be done with a value. -/
inductive Fault where
  | notIterable
  | noLength
  /-- It cannot be looked up, because it or an item of it could change. -/
  | notHashable
  /-- It is not a text where a text is needed. -/
  | notText
  /-- A tuple of this many items is not a declaration. -/
  | notPair (count : Nat)
  /-- It has no side of a declaration. -/
  | notDeclaration
  /-- It is an entry without a field that is asked for. -/
  | noField
  | notFormattable
  /-- It is a text, and it would have to be a template without fields. -/
  | template (f : Text.TemplateFault)
  deriving DecidableEq, Repr

namespace Value

/-- Booleans count as 0 and 1. -/
def number? : Value → Option Int
  | .bool b => some b.toNat
  | .int n => some n
  | _ => none

/-- The items of a tuple; a declaration that is one has two. -/
def tupleItems? : Value → Option (List Value)
  | .tuple xs => some xs
  | .pair p v => some [p, v]
  | _ => none

mutual

/-- Equality as look-ups use it: numbers by what they count, tuples and lists item by item, tables
and loose fields name by name in any order. Anything else is only equal to itself; but no value is
passed twice, each stands for something of its own wherever it is given, so nothing is found equal
to it. -/
def same : Value → Value → Bool
  | .null, .null => true
  | .bool a, w => w.number? == some (a.toNat : Int)
  | .int a, w => w.number? == some a
  | .text a, .text b => a == b
  | .list xs, .list ys => sameItems xs ys
  | .table fs, .table gs | .loose fs, .loose gs => fs.length == gs.length && sameFields fs gs
  | .tuple xs, w =>
    match w.tupleItems? with
    | some ys => sameItems xs ys
    | none => false
  | .pair p v, w =>
    match w.tupleItems? with
    | some [x, y] => p.same x && v.same y
    | _ => false
  | _, _ => false

def sameItems : List Value → List Value → Bool
  | [], [] => true
  | x :: xs, y :: ys => x.same y && sameItems xs ys
  | _, _ => false

def sameFields : List (String × Value) → List (String × Value) → Bool
  | [], _ => true
  | (name, x) :: fs, gs =>
    (match gs.lookup name with
    | some y => x.same y
    | none => false) && sameFields fs gs

end

instance : BEq Value := ⟨same⟩

mutual

/-- Whether a value can be looked up: lists and tables cannot, nor tuples that hold one. -/
def isHashable : Value → Bool
  | .list _ | .table _ => false
  | .tuple xs => areHashable xs
  | .pair p v => p.isHashable && v.isHashable
  | .loose _ => false
  | _ => true

def areHashable : List Value → Bool
  | [] => true
  | x :: xs => x.isHashable && areHashable xs

end

/-- What a value yields when it is gone through: a text its characters, a table its names. -/
def items : Value → Except Fault (List Value)
  | .text s => .ok (s.toList.map fun c => .text (String.singleton c))
  | .list xs | .tuple xs | .stream xs => .ok xs
  | .pair p v => .ok [p, v]
  | .table fs => .ok (fs.map fun f => .text f.1)
  | _ => .error .notIterable

def length : Value → Except Fault Nat
  | .text s => .ok s.length
  | .list xs | .tuple xs => .ok xs.length
  | .pair _ _ => .ok 2
  | .table fs => .ok fs.length
  | _ => .error .noLength

/-- Whether a value counts as nothing: null, false, zero and what has no items. -/
def isNothing : Value → Bool
  | .null => true
  | .bool b => !b
  | .int n => n == 0
  | .text s => s.isEmpty
  | .list xs | .tuple xs => xs.isEmpty
  | .table fs => fs.isEmpty
  | _ => false

/-- The property and the value of a declaration, as far as something has them. -/
def sides : Value → Option Value × Option Value
  | .decl p v _ | .pair p v => (some p, some v)
  | .loose fs => (fs.lookup "property", fs.lookup "value")
  | _ => (none, none)

def text? : Value → Option String
  | .text s => some s
  | _ => none

def isNull : Value → Bool
  | .null => true
  | _ => false

def needText (v : Value) : Except Fault String :=
  match v with
  | .text s => .ok s
  | _ => .error .notText

end Value

end StyleFactor
