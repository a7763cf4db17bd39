import StyleFactor.Grammar.Nest

/-!
The parts of the grammar that leave no group of their own in the tree: single characters, strings,
parentheses, brackets and names. Every reader of characters here is lossless: it returns the
characters it has taken.

    attr    := '[', (string / -"]")*, ']'
    parens  := '(', (string / parens / -[()"'])*, ')'
    string  := ('"', -'"'*, '"') / ("'", -"'"*, "'")
    name    := [a-zA-Z_-], [a-zA-Z0-9_-]*
-/
namespace StyleFactor.Grammar

def one (p : Char → Bool) : Reader Char
  | [] => none
  | c :: s => if p c then some ([c], s) else none

def sign (c : Char) : Reader Char := one (· == c)

def noneOf (cs : List Char) : Reader Char := one (!cs.contains ·)

def word (w : List Char) : Reader Char := fun s =>
  if w.isPrefixOf s then some (w, s.drop w.length) else none

/-- Everything before the first `w`, or the whole text if there is none. -/
def before (w : List Char) : List Char → List Char × List Char
  | [] => ([], [])
  | c :: s =>
    if w.isPrefixOf (c :: s) then ([], c :: s)
    else
      let (cs, r) := before w s
      (c :: cs, r)

/-- A text between two equal marks. Every other character stands for itself, a backslash too. -/
def string : Reader Char
  | [] => none
  | q :: s =>
    if isMark q then
      match s.dropWhile (· != q) with
      | [] => none
      | _ :: r => some (q :: s.takeWhile (· != q) ++ [q], r)
    else none

def parens : Reader Char := Nest.read ⟨'(', ')', id, id⟩

/-- Brackets. A mark inside them opens a string if it is closed anywhere behind, and else is a
character like any other. -/
def attr : Reader Char :=
  sign '[' ++ (string <|> noneOf [']']).star ++ sign ']'

def isNameStart (c : Char) : Bool := c.isAlpha || c == '_' || c == '-'

def isNameChar (c : Char) : Bool := isNameStart c || c.isDigit

def name : Reader Char := one isNameStart ++ (one isNameChar).star

/-- The white space that may stand between tokens. -/
def isSpace (c : Char) : Bool := [' ', '\t', '\r', '\n', '\x0b', '\x0c'].contains c

theorem lossless_one (p : Char → Bool) : (one p).Lossless id := by
  intro s xs r h
  match s with
  | [] => cases h
  | c :: s =>
    simp only [one] at h
    split at h
    · cases h; rfl
    · cases h

theorem lossless_word (w : List Char) : (word w).Lossless id := by
  intro s xs r h
  simp only [word] at h
  split at h
  · next hw =>
    cases h
    obtain ⟨t, rfl⟩ := List.isPrefixOf_iff_prefix.1 hw
    simp
  · cases h

theorem before_append (w s : List Char) : (before w s).1 ++ (before w s).2 = s := by
  induction s with
  | nil => rfl
  | cons c s ih =>
    simp only [before]
    split
    · rfl
    · simp [ih]

theorem lossless_string : string.Lossless id := by
  intro s xs r h
  match s with
  | [] => cases h
  | q :: s =>
    simp only [string] at h
    split at h
    · split at h
      · cases h
      · next d r' eq =>
        have close : d = q := by
          have := List.head?_dropWhile_not (· != q) s
          rw [eq] at this
          simpa using this
        cases h
        have := List.takeWhile_append_dropWhile (p := (· != q)) (l := s)
        rw [eq, close] at this
        simpa using this
    · cases h

theorem inside_lossless (outer : List (List Char)) (here : List Char) (mark : Option Char)
    {n : Nest Char} (char : n.char = id) (group : n.group = id) {s xs r : List Char}
    (h : n.inside outer here mark s = some (xs, r)) :
    xs ++ r = (here ++ outer.flatten).reverse ++ s := by
  induction s generalizing outer here mark with
  | nil => cases h
  | cons c s ih =>
    simp only [Nest.inside, char, group, id] at h
    split at h
    · simpa using ih _ _ _ h
    · split at h
      · split at h
        · cases h; simp
        · simpa using ih _ _ _ h
      · split at h
        · simpa using ih _ _ _ h
        · simpa using ih _ _ _ h

theorem lossless_parens : parens.Lossless id := by
  intro s xs r h
  match s with
  | [] => cases h
  | c :: s =>
    simp only [parens, Nest.read] at h
    split at h
    · simpa using inside_lossless _ _ _ rfl rfl h
    · cases h

theorem lossless_attr : attr.Lossless id :=
  (((lossless_one _).append (fun _ _ => rfl)
    ((lossless_string.orElse (lossless_one _)).star rfl (fun _ _ => rfl))).append
    (fun _ _ => rfl) (lossless_one _))

theorem lossless_name : name.Lossless id :=
  (lossless_one _).append (fun _ _ => rfl) ((lossless_one _).star rfl (fun _ _ => rfl))

end StyleFactor.Grammar
