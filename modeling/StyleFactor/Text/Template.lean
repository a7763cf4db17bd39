import StyleFactor.Text.Digit

/-!
Templates that are filled in without arguments: a doubled brace stands for one brace, and every
field asks for an argument that is not there. A number asks for an argument by its place, and
anything else by its name.

    field := '{', argument, ('!', char)?, (':', spec)?, '}'
-/
namespace StyleFactor.Text

inductive TemplateFault where
  /-- A brace or a field that is not closed, or a field that is not formed as it should be. -/
  | malformed
  /-- A field that asks for an argument by its place. -/
  | noArgument
  /-- A field whose place is beyond all that can be asked for. -/
  | tooFar
  /-- A field that asks for an argument by name. -/
  | noName (name : String)
  deriving DecidableEq, Repr

/-- Whether a field is closed, from behind its colon on; braces inside come in pairs. -/
def closesSpec : Nat → List Char → Bool
  | _, [] => false
  | depth, c :: s =>
    if c = '\x7b' then closesSpec (depth + 1) s
    else if c = '\x7d' then
      match depth with
      | 0 => true
      | d + 1 => closesSpec d s
    else closesSpec depth s

/-- Whether a field is closed, from behind the name of its argument on. -/
def closesField : List Char → Bool
  | '\x7d' :: _ => true
  | ':' :: s => closesSpec 0 s
  | '!' :: _ :: '\x7d' :: _ => true
  | '!' :: _ :: ':' :: s => closesSpec 0 s
  | '!' :: [_] => false
  | _ => false

/-- The name of an argument with its attributes and indices, and what follows it. `bracket` says
that an index has been opened and not closed; inside it every character may stand. -/
def argument (bracket : Bool) : List Char → List Char × List Char
  | [] => ([], [])
  | c :: s =>
    if !bracket && ['\x7b', '\x7d', ':', '!'].contains c then ([], c :: s)
    else
      let (name, r) := argument (if bracket then c != ']' else c == '[') s
      (c :: name, r)

def lastPlace : Nat := Nat.pow 2 63 - 1

/-- Why there is no argument of this name, of which the digits up to `s` are read and count `n`.
Without digits the next place is meant. A name is judged from the left: a number that has grown too
large stays so, whatever follows. -/
def nameFault (name : List Char) (n : Nat) : List Char → TemplateFault
  | [] => .noArgument
  | c :: s =>
    match digit? c with
    | none => .noName (.ofList name)
    | some d => if 10 * n + d > lastPlace then .tooFar else nameFault name (10 * n + d) s

/-- What is wrong with a field, read from behind its opening brace: something always is. -/
def fieldFault (s : List Char) : TemplateFault :=
  let (arg, r) := argument false s
  let name := arg.takeWhile fun c => c != '.' && c != '['
  if closesField r then nameFault name 0 name else .malformed

def fill : List Char → Except TemplateFault (List Char)
  | [] => .ok []
  | '\x7b' :: '\x7b' :: s => return '\x7b' :: (← fill s)
  | '\x7d' :: '\x7d' :: s => return '\x7d' :: (← fill s)
  | c :: s =>
    if c = '\x7d' || (c = '\x7b' && s.isEmpty) then .error .malformed
    else if c = '\x7b' then .error (fieldFault s)
    else return c :: (← fill s)

end StyleFactor.Text
