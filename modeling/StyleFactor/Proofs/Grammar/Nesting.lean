import StyleFactor.Proofs.Grammar.Repetition

/-!
Groups as the grammar writes them: an opening sign, strings and groups and other characters, and a
closing sign. Reading character by character with a stack comes to the same. Main statements: the
reader of groups solves the recursive production (`read_eq`, `parens_eq`), and everything that the
grammar repeats comes to its end by itself (`repeated_productions`, `repeated_items`).
-/
namespace StyleFactor.Grammar

open Reader

variable {α : Type}

namespace Reader

variable {a b c : Reader α} {s m : List Char} {xs : List α}

theorem append_assoc (a b c : Reader α) : a ++ b ++ c = a ++ (b ++ c) := by
  funext s
  simp only [append_apply]
  rcases a s with _ | ⟨xs, m⟩
  · rfl
  · rcases hb : b m with _ | ⟨ys, m'⟩
    · simp [hb]
    · rcases hc : c m' with _ | ⟨zs, r⟩ <;> simp [hb, hc]

theorem append_of_none (stop : a s = none) (b : Reader α) : (a ++ b) s = none := by
  rw [append_apply, stop]
  rfl

theorem append_of_some (first : a s = some (xs, m)) (b : Reader α) :
    (a ++ b) s = (b m).map fun (ys, r) => (xs ++ ys, r) := by
  rw [append_apply, first]
  rfl

theorem star_append_of_none (stop : a s = none) (b : Reader α) : (a.star ++ b) s = b s := by
  have nothing : a.star s = some ([], s) := congrArg some (many_of_none stop)
  rw [append_of_some nothing]
  cases b s <;> rfl

theorem star_append_of_some (first : a s = some (xs, m)) (shorter : m.length < s.length)
    (b : Reader α) :
    (a.star ++ b) s = ((a.star ++ b) m).map fun (ys, r) => (xs ++ ys, r) := by
  have more : a.star s = some (xs ++ (a.many m).1, (a.many m).2) :=
    congrArg some (many_of_some first shorter)
  have rest : a.star m = some ((a.many m).1, (a.many m).2) := rfl
  rw [append_of_some more, append_of_some rest]
  cases b (a.many m).2 <;> simp

end Reader

namespace Nest

/-- The signs of a group are two, and strings start with neither. -/
structure Proper (n : Nest α) : Prop where
  apart : n.opening ≠ n.closing
  opening : isMark n.opening = false
  closing : isMark n.closing = false

/-- Characters as parts of a group. -/
def chars (n : Nest α) (a : Reader Char) : Reader α := a.map (List.map n.char)

/-- What may stand in a group. -/
def item (n : Nest α) : Reader α :=
  n.chars string <|> n.read <|> n.chars (noneOf [n.opening, n.closing, '"', '\''])

def close (n : Nest α) : Reader α := n.chars (sign n.closing)

variable (n : Nest α) {s m : List Char} {xs : List α}

theorem chars_eq_some {a : Reader Char} :
    n.chars a s = some (xs, m) ↔ ∃ cs, a s = some (cs, m) ∧ cs.map n.char = xs :=
  map_eq_some

theorem read_cons_opening (s : List Char) :
    n.read (n.opening :: s) = n.inside [] [n.char n.opening] none s := by
  rw [Nest.read, if_pos rfl]

/-- What is read inside more groups is read inside the inner ones first. -/
theorem inside_append_outer (inner : List (List α)) (o : List α) (outer : List (List α))
    (here : List α) (mark : Option Char) (s : List Char) :
    n.inside (inner ++ o :: outer) here mark s =
      (n.inside inner here mark s).bind fun (xs, r) =>
        n.inside outer (xs.reverse ++ o) none r := by
  induction s generalizing inner here mark with
  | nil => rfl
  | cons c s ih =>
    simp only [Nest.inside]
    split
    · exact ih _ _ _
    · split
      · cases inner with
        | nil => rfl
        | cons p inner => exact ih _ _ _
      · split
        · exact ih (here :: inner) _ _
        · exact ih _ _ _

theorem inside_string {q : Char} {u : List Char} (free : q ∉ u) (outer : List (List α))
    (here : List α) (s : List Char) :
    n.inside outer here (some q) (u ++ q :: s) =
      n.inside outer (((u ++ [q]).map n.char).reverse ++ here) none s := by
  induction u generalizing here with
  | nil => simp [Nest.inside]
  | cons c u ih =>
    obtain ⟨other, rest⟩ := not_or.1 (List.mem_cons.not.1 free)
    rw [List.cons_append, Nest.inside, if_neg (Ne.symm other), ih rest]
    simp

theorem inside_unclosed {q : Char} (free : q ∉ s) (outer : List (List α)) (here : List α) :
    n.inside outer here (some q) s = none := by
  induction s generalizing here with
  | nil => rfl
  | cons c s ih =>
    obtain ⟨other, rest⟩ := not_or.1 (List.mem_cons.not.1 free)
    rw [Nest.inside, if_neg (Ne.symm other)]
    exact ih rest _

theorem advances_read : n.read.Advances := by
  intro s xs r read
  cases s with
  | nil => cases read
  | cons c s =>
    simp only [Nest.read] at read
    split at read
    · obtain ⟨u, rfl⟩ := inside_closed n _ _ _ read
      simp only [List.length_cons, List.length_append]
      omega
    · cases read

theorem item_advances : n.item.Advances := by
  have quoted : (n.chars string).Advances := pliant_string.advances.map _
  have single : (n.chars (noneOf [n.opening, n.closing, '"', '\''])).Advances :=
    (advances_one _).map _
  exact quoted.orElse (n.advances_read.orElse single)

variable {n} (proper : n.Proper)
include proper

theorem inside_mark {q : Char} (mark : isMark q = true) (outer : List (List α)) (here : List α)
    (s : List Char) :
    n.inside outer here none (q :: s) = n.inside outer (n.char q :: here) (some q) s := by
  have noClosing : q ≠ n.closing := by
    rintro rfl
    cases mark.symm.trans proper.closing
  have noOpening : q ≠ n.opening := by
    rintro rfl
    cases mark.symm.trans proper.opening
  rw [Nest.inside, if_neg noClosing, if_neg noOpening, if_pos mark]

theorem inside_opening (outer : List (List α)) (here : List α) (s : List Char) :
    n.inside outer here none (n.opening :: s) =
      (n.read (n.opening :: s)).bind fun (xs, r) => n.inside outer (xs.reverse ++ here) none r := by
  rw [Nest.inside, if_neg proper.apart, if_pos rfl, read_cons_opening]
  exact n.inside_append_outer [] here outer _ none s

/-- An item is taken in one go. -/
theorem inside_item (read : n.item s = some (xs, m)) (outer : List (List α)) (here : List α) :
    n.inside outer here none s = n.inside outer (xs.reverse ++ here) none m := by
  rcases orElse_eq_some.1 read with quoted | ⟨-, other⟩
  · obtain ⟨cs, text, rfl⟩ := n.chars_eq_some.1 quoted
    obtain ⟨q, u, mark, free, rfl, rfl⟩ := string_eq_some.1 text
    rw [inside_mark proper mark, n.inside_string free]
    simp
  · rcases orElse_eq_some.1 other with group | ⟨-, single⟩
    · obtain ⟨c, u, rfl, opens⟩ := starts_nest n _ _ _ group
      obtain rfl := beq_iff_eq.1 opens
      rw [inside_opening proper, group]
      rfl
    · obtain ⟨cs, text, rfl⟩ := n.chars_eq_some.1 single
      obtain ⟨c, plain, rfl, rfl⟩ := one_eq_some.1 text
      obtain ⟨noOpening, noClosing, noMark⟩ :
          c ≠ n.opening ∧ c ≠ n.closing ∧ isMark c = false := by
        simpa [isMark] using plain
      rw [Nest.inside, if_neg noClosing, if_neg noOpening, noMark]
      rfl

/-- Where no item starts only the closing sign is left to be taken. -/
theorem inside_of_no_item (stop : n.item s = none) (here : List α) :
    n.inside [] here none s =
      (n.close s).map fun (xs, r) => (n.group (here.reverse ++ xs), r) := by
  obtain ⟨noString, stop⟩ := Option.or_eq_none_iff.1 stop
  obtain ⟨noGroup, noSingle⟩ := Option.or_eq_none_iff.1 stop
  cases s with
  | nil => rfl
  | cons c s =>
    by_cases closes : c = n.closing
    · subst closes
      simp [Nest.inside, close, chars, Reader.map, sign, one]
    · have shut : n.close (c :: s) = none := by simp [close, chars, Reader.map, sign, one, closes]
      rw [shut, Option.map_none]
      by_cases opens : c = n.opening
      · subst opens
        rw [inside_opening proper, noGroup]
        rfl
      · cases mark : isMark c with
        | true =>
          have unclosed := (string_eq_none mark).1 (Option.map_eq_none_iff.1 noString)
          rw [inside_mark proper mark]
          exact n.inside_unclosed unclosed [] _
        | false =>
          -- every other character would be an item
          have plain : noneOf [n.opening, n.closing, '"', '\''] (c :: s) = some ([c], s) := by
            refine if_pos ?_
            simpa [isMark, opens, closes] using mark
          cases (Option.map_eq_none_iff.1 noSingle).symm.trans plain

/-- From inside a group: items as long as there are any, and the closing sign. -/
theorem inside_eq (here : List α) (s : List Char) :
    n.inside [] here none s =
      ((n.item.star ++ n.close) s).map fun (xs, r) => (n.group (here.reverse ++ xs), r) := by
  induction size : s.length using Nat.strong_induction_on generalizing s here with
  | _ k ih =>
    cases first : n.item s with
    | none => rw [inside_of_no_item proper first, star_append_of_none first]
    | some read =>
      obtain ⟨xs, m⟩ := read
      have shorter := n.item_advances _ _ _ first
      rw [inside_item proper first, star_append_of_some first shorter,
        ih m.length (size ▸ shorter) _ m rfl]
      cases (n.item.star ++ n.close) m <;> simp

/-- The reader of groups is the production of groups. -/
theorem read_eq : n.read = (n.chars (sign n.opening) ++ n.item.star ++ n.close).map n.group := by
  funext s
  rw [append_assoc, Reader.map]
  by_cases opens : s.head? = some n.opening
  · obtain ⟨t, rfl⟩ : ∃ t, s = n.opening :: t := by
      cases s with
      | nil => cases opens
      | cons c t => exact ⟨t, by rw [Option.some.inj opens]⟩
    have first : n.chars (sign n.opening) (n.opening :: t) = some ([n.char n.opening], t) :=
      n.chars_eq_some.2 ⟨[n.opening], if_pos (beq_self_eq_true _), rfl⟩
    rw [read_cons_opening, inside_eq proper, append_of_some first]
    cases (n.item.star ++ n.close) t <;> rfl
  · have noGroup : n.read s = none := by
      cases s with
      | nil => rfl
      | cons c t => exact if_neg fun same => opens (congrArg some same)
    have noSign : n.chars (sign n.opening) s = none := by
      cases s with
      | nil => rfl
      | cons c t =>
        refine Option.map_eq_none_iff.2 (if_neg fun same => opens ?_)
        exact congrArg some (beq_iff_eq.1 same)
    rw [noGroup, append_of_none noSign]
    rfl

end Nest

/-- What stands in parentheses. -/
def parensItem : Reader Char := string <|> parens <|> noneOf ['(', ')', '"', '\'']

theorem parens_eq : parens = sign '(' ++ parensItem.star ++ sign ')' := by
  have proper : (Nest.mk '(' ')' id id : Nest Char).Proper := ⟨by decide, rfl, rfl⟩
  have same (a : Reader Char) : (Nest.mk '(' ')' id id : Nest Char).chars a = a := by
    funext s
    simp [Nest.chars, Reader.map]
  have whole := Nest.read_eq proper
  simp only [Nest.item, Nest.close, same] at whole
  refine whole.trans ?_
  funext s
  simp [Reader.map]
  rfl

theorem proper_bodyNest : bodyNest.Proper := ⟨by decide, rfl, rfl⟩

/-- What the productions repeat. -/
def repeatedProductions : List (Reader Fragment) :=
  [toplevel, gap, separator ',' ++ sel, separator ';' ++ decl.opt, bodyNest.item]

/-- What is repeated inside selectors, brackets, parentheses, values, preludes, names and white
space. -/
def repeatedItems : List (Reader Char) :=
  [selectorItem, attrItem, parensItem, valueItem, preludeItem, one isNameChar, one isSpace]

theorem repeated_productions : ∀ a ∈ repeatedProductions, ∀ s x,
    a.Repeated s x ↔ x = a.many s := by
  intro a ha s x
  refine Reader.Advances.repeated_iff ?_
  simp only [repeatedProductions, List.mem_cons, List.not_mem_nil, or_false] at ha
  rcases ha with rfl | rfl | rfl | rfl | rfl
  · exact advances_toplevel
  · exact advances_gap
  · exact (advances_separator ',').append keeps_sel.shrinks
  · exact (advances_separator ';').append keeps_decl.opt.shrinks
  · exact bodyNest.item_advances

theorem repeated_items : ∀ a ∈ repeatedItems, ∀ s x, a.Repeated s x ↔ x = a.many s := by
  intro a ha s x
  refine Reader.Advances.repeated_iff ?_
  simp only [repeatedItems, List.mem_cons, List.not_mem_nil, or_false] at ha
  rcases ha with rfl | rfl | rfl | rfl | rfl | rfl | rfl
  · exact pliant_selectorItem.advances
  · exact pliant_attrItem.advances
  · exact pliant_string.advances.orElse (pliant_parens.advances.orElse (advances_one _))
  · exact pliant_valueItem.advances
  · exact pliant_preludeItem.advances
  · exact advances_one _
  · exact advances_one _

end StyleFactor.Grammar
