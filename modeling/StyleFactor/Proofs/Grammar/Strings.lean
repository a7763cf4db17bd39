import StyleFactor.Proofs.Grammar.Nesting

/-!
The strings in selectors and preludes. The productions read them inside parentheses and brackets too
and return characters only; here they are read once more into tokens that tell strings from other
characters. Whatever the brackets around a string, it is one that reading from left to right finds
without any grammar: a mark opens a string wherever there is another like it behind. Main statements:
the tokens of a selector or prelude spell what the production takes, and their strings are those
that are found from left to right (`lexes_selector`, `lexes_prelude`).
-/
namespace StyleFactor.Grammar

open Reader

inductive Token where
  | char (c : Char)
  /-- A whole string, its two marks included. -/
  | quoted (s : List Char)
  deriving DecidableEq, Repr

def Token.chars : Token → List Char
  | .char c => [c]
  | .quoted s => s

/-- The text that the tokens stand for. -/
def spell (ts : List Token) : List Char := ts.flatMap Token.chars

def strings (ts : List Token) : List (List Char) :=
  ts.filterMap fun
    | .char _ => none
    | .quoted s => some s

@[simp] theorem spell_append (ts us : List Token) : spell (ts ++ us) = spell ts ++ spell us :=
  List.flatMap_append

@[simp] theorem strings_append (ts us : List Token) :
    strings (ts ++ us) = strings ts ++ strings us :=
  List.filterMap_append

theorem spell_map_char (cs : List Char) : spell (cs.map .char) = cs := by
  induction cs with
  | nil => rfl
  | cons c cs ih => exact congrArg (c :: ·) ih

theorem infix_spell {q : List Char} {ts : List Token} (h : q ∈ strings ts) : q <:+: spell ts := by
  obtain ⟨t, ht, same⟩ := List.mem_filterMap.1 h
  obtain ⟨us, vs, rfl⟩ := List.append_of_mem ht
  cases t with
  | char c => cases same
  | quoted s =>
    cases same
    exact ⟨spell us, spell vs, by simp [spell, Token.chars]⟩

/-! Reading tokens. -/

def quoted : Reader Token := string.map fun s => [.quoted s]

def letters (a : Reader Char) : Reader Token := a.map (List.map .char)

/-- Parentheses, at most so many inside each other. -/
def parensWithin : Nat → Reader Token
  | 0 => fun _ => none
  | depth + 1 => letters (sign '(') ++
      (quoted <|> parensWithin depth <|> letters (noneOf ['(', ')', '"', '\''])).star ++
      letters (sign ')')

/-- No text holds more parentheses inside each other than it has characters. -/
def parensTokens : Reader Token := fun s => parensWithin s.length s

def attrTokens : Reader Token :=
  letters (sign '[') ++ (quoted <|> letters (noneOf [']'])).star ++ letters (sign ']')

def selectorTokens : Reader Token :=
  (parensTokens <|> attrTokens <|> quoted <|>
    letters (noneOf [',', '{', '}', '(', ')', '[', ';', '@', '"', '\''])).plus

def preludeTokens : Reader Token :=
  (quoted <|> parensTokens <|> letters (noneOf ['{', '}', ';', '"', '\'', '(', ')'])).star

/-! From left to right. -/

def scanItem : Reader Token := quoted <|> letters (one fun _ => true)

/-- The strings that are found where at each place a string is taken if there is one, and else a
character. -/
def quotes (s : List Char) : List (List Char) := strings (scanItem.many s).1

section

variable {s r i : List Char} {c : Char}

theorem quotes_nil : quotes [] = [] := by
  rw [quotes, many_of_none rfl]
  rfl

theorem quotes_string (read : string s = some (i, r)) : quotes s = i :: quotes r := by
  have first : scanItem s = some ([.quoted i], r) :=
    orElse_eq_some.2 (.inl (map_eq_some.2 ⟨i, read, rfl⟩))
  rw [quotes, many_of_some first (pliant_string.advances _ _ _ read)]
  rfl

theorem quotes_cons (none : string (c :: s) = none) : quotes (c :: s) = quotes s := by
  have first : scanItem (c :: s) = some ([.char c], s) :=
    orElse_eq_some.2 (.inr ⟨Option.map_eq_none_iff.2 none, rfl⟩)
  rw [quotes, many_of_some first (Nat.lt_succ_self _)]
  rfl

theorem quotes_cons_plain (plain : isMark c = false) : quotes (c :: s) = quotes s :=
  quotes_cons (starts_string.cons plain s)

end

/-! Tokens and characters. -/

/-- On texts of at most this length the tokens are those of the characters that the production
takes, and their strings are found in front of any text that brings no marks of its own. -/
structure Reader.Lexes (a : Reader Token) (b : Reader Char) (size : Nat) : Prop where
  lossless : b.Lossless id
  same : ∀ s, s.length ≤ size → (a s).map (fun (ts, r) => (spell ts, r)) = b s
  found : ∀ s ts r, s.length ≤ size → a s = some (ts, r) → ∀ r', NoNewMarks r' r →
    quotes (spell ts ++ r') = strings ts ++ quotes r'

section

variable {a a' : Reader Token} {b b' : Reader Char} {size : Nat} {s r : List Char}

theorem Reader.Lexes.spelled (h : a.Lexes b size) (small : s.length ≤ size) {ts : List Token}
    (read : a s = some (ts, r)) : b s = some (spell ts, r) := by
  rw [← h.same s small, read]
  rfl

theorem Reader.Lexes.whole (h : a.Lexes b size) (small : s.length ≤ size) {ts : List Token}
    (read : a s = some (ts, r)) : spell ts ++ r = s :=
  h.lossless s _ r (h.spelled small read)

theorem Reader.Lexes.of_none (h : a.Lexes b size) (small : s.length ≤ size) (stop : a s = none) :
    b s = none := by
  rw [← h.same s small, stop]
  rfl

theorem Reader.Lexes.tokens (h : a.Lexes b size) (small : s.length ≤ size) {i : List Char}
    (read : b s = some (i, r)) : ∃ ts, a s = some (ts, r) ∧ spell ts = i := by
  rw [← h.same s small] at read
  obtain ⟨⟨ts, m⟩, found, same⟩ := Option.map_eq_some_iff.1 read
  obtain ⟨rfl, rfl⟩ := Prod.mk.inj same
  exact ⟨ts, found, rfl⟩

/-- If the strings behind the first tokens are found, they are found behind all. -/
theorem Reader.Lexes.found_append (h : a.Lexes b size) (small : s.length ≤ size) {ts us : List Token}
    {m r' : List Char} (first : a s = some (ts, m)) (behind : spell us ++ r = m)
    (marks : NoNewMarks r' r) (more : quotes (spell us ++ r') = strings us ++ quotes r') :
    quotes (spell (ts ++ us) ++ r') = strings (ts ++ us) ++ quotes r' := by
  have inside : NoNewMarks (spell us ++ r') m := behind ▸ marks.append (spell us)
  rw [spell_append, strings_append, List.append_assoc, h.found s ts m small first _ inside, more,
    List.append_assoc]

/-- The second reader is given what the first has left, which may be known to be shorter. -/
theorem Reader.Lexes.append_within {left : Nat} (h : a.Lexes b size) (h' : a'.Lexes b' left)
    (shorter : ∀ s i m, s.length ≤ size → b s = some (i, m) → m.length ≤ left) :
    (a ++ a').Lexes (b ++ b') size where
  lossless := h.lossless.append (fun _ _ => rfl) h'.lossless
  same s small := by
    rcases first : a s with _ | ⟨ts, m⟩
    · rw [append_of_none first, append_of_none (h.of_none small first)]
      rfl
    · have spelled := h.spelled small first
      rw [append_of_some first, append_of_some spelled, ← h'.same m (shorter s _ m small spelled)]
      cases a' m <;> simp
  found s ws r small read r' marks := by
    obtain ⟨ts, m, us, first, second, rfl⟩ := append_eq_some.1 read
    have small' := shorter s _ m small (h.spelled small first)
    exact h.found_append small first (h'.whole small' second) marks
      (h'.found m us r small' second r' marks)

theorem Reader.Lexes.append (h : a.Lexes b size) (h' : a'.Lexes b' size) :
    (a ++ a').Lexes (b ++ b') size :=
  h.append_within h' fun _ _ _ small read => (h.lossless.shrinks _ _ _ read).trans small

theorem Reader.Lexes.orElse (h : a.Lexes b size) (h' : a'.Lexes b' size) :
    (a <|> a').Lexes (b <|> b') size where
  lossless := h.lossless.orElse h'.lossless
  same s small := by
    rw [orElse_apply, orElse_apply, ← h.same s small, ← h'.same s small]
    cases a s <;> rfl
  found s ts r small read := by
    rcases orElse_eq_some.1 read with first | ⟨-, second⟩
    · exact h.found s ts r small first
    · exact h'.found s ts r small second

theorem Reader.Lexes.many (h : a.Lexes b size) (s : List Char) (small : s.length ≤ size) :
    (spell (a.many s).1, (a.many s).2) = b.many s ∧ ∀ r', NoNewMarks r' (a.many s).2 →
      quotes (spell (a.many s).1 ++ r') = strings (a.many s).1 ++ quotes r' := by
  fun_induction Reader.many a s with
  | case1 s stop =>
    rw [many_of_none (h.of_none small stop)]
    exact ⟨rfl, fun _ _ => rfl⟩
  | case2 s ts m first shorter us r rest ih =>
    have small' : m.length ≤ size := by omega
    obtain ⟨same, found⟩ := ih small'
    rw [rest] at same found
    have behind : spell us ++ r = m := by
      have whole := h.lossless.many rfl (fun _ _ => rfl) m
      rw [← same] at whole
      exact whole
    refine ⟨?_, fun r' marks => h.found_append small first behind marks (found r' marks)⟩
    rw [many_of_some (h.spelled small first) shorter, ← same, spell_append]
  | case3 s ts m first stuck =>
    rw [Reader.many, h.spelled small first]
    simp only [if_neg stuck]
    exact ⟨rfl, fun _ _ => rfl⟩

theorem Reader.Lexes.star (h : a.Lexes b size) : a.star.Lexes b.star size where
  lossless := h.lossless.star rfl fun _ _ => rfl
  same s small := congrArg some (h.many s small).1
  found s ts r small read := by
    have all := (h.many s small).2
    rwa [Option.some.inj read] at all

theorem lexes_quoted : quoted.Lexes string size where
  lossless := lossless_string
  same s _ := by
    rw [quoted, Reader.map, Option.map_map]
    rcases string s with _ | ⟨i, r⟩
    · rfl
    · simp [spell, Token.chars]
  found s ts r _ read r' marks := by
    obtain ⟨i, text, rfl⟩ := map_eq_some.1 read
    have whole : i ++ r = s := lossless_string _ _ _ text
    rw [← whole] at text
    have again := string_respaced text (Text.Respaced.refl i) r'
    have spelled : spell [.quoted i] = i := List.append_nil i
    rw [spelled, quotes_string again]
    rfl

theorem same_letters (a : Reader Char) (s : List Char) :
    (letters a s).map (fun (ts, r) => (spell ts, r)) = a s := by
  rw [letters, Reader.map, Option.map_map]
  rcases a s with _ | ⟨i, r⟩
  · rfl
  · simp [spell_map_char]

theorem lexes_letters {p : Char → Bool} (plain : ∀ c, p c = true → isMark c = false) :
    (letters (one p)).Lexes (one p) size where
  lossless := lossless_one p
  same s _ := same_letters (one p) s
  found s ts r _ read r' _ := by
    obtain ⟨i, text, rfl⟩ := map_eq_some.1 read
    obtain ⟨c, hc, rfl, -⟩ := one_eq_some.1 text
    exact quotes_cons_plain (plain c hc)

/-- A mark that is read as a character has none like it behind, in the second text either. -/
theorem lexes_quoted_orElse (p : Char → Bool) :
    (quoted <|> letters (one p)).Lexes (string <|> one p) size where
  lossless := lossless_string.orElse (lossless_one p)
  same s small := by
    rw [orElse_apply, orElse_apply, ← lexes_quoted.same s small, ← same_letters (one p) s]
    cases quoted s <;> rfl
  found s ts r small read r' marks := by
    rcases orElse_eq_some.1 read with first | ⟨other, second⟩
    · exact lexes_quoted.found s ts r small first r' marks
    · obtain ⟨i, text, rfl⟩ := map_eq_some.1 second
      obtain ⟨c, -, rfl, rfl⟩ := one_eq_some.1 text
      refine quotes_cons ?_
      cases mark : isMark c with
      | false => exact starts_string.cons mark r'
      | true =>
        have single := (string_eq_none mark).1 (Option.map_eq_none_iff.1 other)
        exact (string_eq_none mark).2 fun later => single (marks c later mark)

end

theorem lexes_sign {c : Char} (plain : isMark c = false) (size : Nat) :
    (letters (sign c)).Lexes (sign c) size :=
  lexes_letters fun _ same => (beq_iff_eq.1 same) ▸ plain

theorem lexes_noneOf {cs : List Char} (double : '"' ∈ cs) (single : '\'' ∈ cs) (size : Nat) :
    (letters (noneOf cs)).Lexes (noneOf cs) size := by
  refine lexes_letters fun c free => ?_
  rw [Bool.eq_false_iff]
  intro mark
  rw [isMark, Bool.or_eq_true, beq_iff_eq, beq_iff_eq] at mark
  rcases mark with rfl | rfl <;> simp_all

theorem lexes_parensWithin (depth : Nat) : (parensWithin depth).Lexes parens depth := by
  induction depth with
  | zero =>
    refine ⟨lossless_parens, fun s small => ?_, fun s ts r small read => nomatch read⟩
    obtain rfl := List.length_eq_zero_iff.1 (Nat.le_zero.1 small)
    rfl
  | succ depth ih =>
    have item : (quoted <|> parensWithin depth <|> letters (noneOf ['(', ')', '"', '\''])).Lexes
        parensItem depth :=
      lexes_quoted.orElse (ih.orElse (lexes_noneOf (by decide) (by decide) depth))
    have rest := item.star.append (lexes_sign (c := ')') rfl depth)
    rw [parens_eq, append_assoc, parensWithin, append_assoc]
    refine (lexes_sign (c := '(') rfl (depth + 1)).append_within rest fun s i m small read => ?_
    have shorter := advances_one _ s i m read
    omega

/-! The productions. -/

variable (size : Nat)

theorem lexes_parens : parensTokens.Lexes parens size where
  lossless := lossless_parens
  same s _ := (lexes_parensWithin s.length).same s (Nat.le_refl _)
  found s ts r _ := (lexes_parensWithin s.length).found s ts r (Nat.le_refl _)

theorem lexes_attr : attrTokens.Lexes attr size :=
  ((lexes_sign rfl size).append (lexes_quoted_orElse _).star).append (lexes_sign rfl size)

theorem lexes_selector : selectorTokens.Lexes selector size := by
  have item : (parensTokens <|> attrTokens <|> quoted <|>
      letters (noneOf [',', '{', '}', '(', ')', '[', ';', '@', '"', '\''])).Lexes selectorItem size :=
    (lexes_parens size).orElse ((lexes_attr size).orElse
      (lexes_quoted.orElse (lexes_noneOf (by decide) (by decide) size)))
  exact item.append item.star

theorem lexes_prelude : preludeTokens.Lexes preludeText size := by
  have item : (quoted <|> parensTokens <|>
      letters (noneOf ['{', '}', ';', '"', '\'', '(', ')'])).Lexes preludeItem size :=
    lexes_quoted.orElse ((lexes_parens size).orElse (lexes_noneOf (by decide) (by decide) size))
  exact item.star

/-- By itself a text has the strings that it had in front of another. -/
theorem Reader.Lexes.strings_eq {a : Reader Token} {b : Reader Char} (h : ∀ size, a.Lexes b size)
    {s r : List Char} {ts : List Token} (read : a s = some (ts, r)) :
    strings ts = quotes (spell ts) := by
  have found := (h s.length).found s ts r (Nat.le_refl _) read [] (noNewMarks_nil r)
  rw [quotes_nil, List.append_nil, List.append_nil] at found
  exact found.symm

end StyleFactor.Grammar
