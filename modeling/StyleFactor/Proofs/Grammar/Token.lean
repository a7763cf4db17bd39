import StyleFactor.Grammar.Lossless
import StyleFactor.Proofs.Grammar.Ahead

/-!
Tokens that are read alike by themselves and inside a sheet. Strings and parentheses are closed
where they are read, so nothing behind them matters. Brackets are not always: a mark in them that
opens no string by itself may open one if more text follows. `closedSelector` therefore takes
selectors without such marks. Main statements: each kind of text that is taken whole is taken whole
in front of the sign that ends it in a sheet.
-/
namespace StyleFactor.Grammar

open Reader

/-- The reader takes the whole text. -/
def Entire {α : Type} (a : Reader α) (s : List Char) : Prop := ∃ xs, a s = some (xs, [])

theorem Entire.eq {a : Reader Char} {s : List Char} (h : Entire a s) (lossless : a.Lossless id) :
    a s = some (s, []) := by
  obtain ⟨xs, read⟩ := h
  have same : xs = s := by simpa using lossless _ _ _ read
  exact same ▸ read

theorem entire_of_rest {α : Type} {a : Reader α} {s : List Char}
    (h : (a s).map Prod.snd = some []) : Entire a s := by
  obtain ⟨⟨xs, r⟩, read, rest⟩ := Option.map_eq_some_iff.1 h
  cases rest
  exact ⟨xs, read⟩

def closedAttr : Reader Char :=
  sign '[' ++ (string <|> noneOf [']', '"', '\'']).star ++ sign ']'

def closedSelectorItem : Reader Char :=
  parens <|> closedAttr <|> string <|>
    noneOf [',', '{', '}', '(', ')', '[', ';', '@', '"', '\'']

/-- A selector in which every mark inside brackets opens a string. -/
def closedSelector : Reader Char := closedSelectorItem.plus

theorem lossless_closedSelector : closedSelector.Lossless id := by
  have attr : closedAttr.Lossless id :=
    ((lossless_one _).append (fun _ _ => rfl)
      ((lossless_string.orElse (lossless_one _)).star rfl fun _ _ => rfl)).append
      (fun _ _ => rfl) (lossless_one _)
  exact lossless_plus
    (lossless_parens.orElse (attr.orElse (lossless_string.orElse (lossless_one _))))

theorem starts_one (p : Char → Bool) : Starts p (one p) := by
  intro s xs r h
  cases s with
  | nil => cases h
  | cons c s =>
    simp only [one] at h
    split at h
    · next hc => exact ⟨c, s, rfl, hc⟩
    · cases h

def outside (cs : List Char) (c : Char) : Bool := !cs.contains c

theorem starts_noneOf (cs : List Char) : Starts (outside cs) (noneOf cs) := starts_one _

theorem starts_word (c : Char) (w : List Char) : Starts (· == c) (word (c :: w)) := by
  intro s xs r read
  simp only [word] at read
  split at read
  · next opens =>
    obtain ⟨t, rfl⟩ := List.isPrefixOf_iff_prefix.1 opens
    exact ⟨c, w ++ t, rfl, beq_self_eq_true c⟩
  · cases read

theorem extends_one {p q : Char → Bool} (sub : ∀ c, p c = true → q c = true) :
    Extends (one p) (one q) := by
  intro s xs r h t
  cases s with
  | nil => cases h
  | cons c s =>
    simp only [one] at h
    split at h
    · next hc =>
      cases h
      simp [one, sub c hc]
    · cases h

theorem extends_same (p : Char → Bool) : Extends (one p) (one p) := extends_one fun _ h => h

theorem starts_string : Starts isMark string := by
  intro s xs r h
  cases s with
  | nil => cases h
  | cons c s =>
    simp only [string] at h
    split at h
    · next hc => exact ⟨c, s, rfl, hc⟩
    · cases h

theorem extends_string : Extends string string := by
  intro s xs r h t
  cases s with
  | nil => cases h
  | cons q s =>
    simp only [string] at h
    split at h
    · next mark =>
      split at h
      · cases h
      · next found =>
        cases h
        have taken := List.takeWhile_append_dropWhile (p := (· != q)) (l := s)
        have shorter : ¬(s.takeWhile (· != q)).length = s.length := by
          have := congrArg List.length taken
          rw [found, List.length_append, List.length_cons] at this
          omega
        have rest : (s ++ t).dropWhile (· != q) = s.dropWhile (· != q) ++ t := by
          simp [List.dropWhile_append, found]
        have inside : (s ++ t).takeWhile (· != q) = s.takeWhile (· != q) := by
          rw [List.takeWhile_append, if_neg shorter]
        simp [string, mark, rest, found, inside]
    · cases h

theorem extends_string_orElse {c d : Reader Char} {q : Char → Bool} (hcd : Extends c d)
    (hc : Starts q c) (double : q '"' = false) (single : q '\'' = false) :
    Extends (string <|> c) (string <|> d) := by
  refine extends_string.orElse hcd starts_string hc fun x hx => ?_
  rw [Bool.eq_false_iff]
  intro mark
  rw [isMark, Bool.or_eq_true, beq_iff_eq, beq_iff_eq] at mark
  rcases mark with rfl | rfl
  · exact Bool.eq_false_iff.1 double hx
  · exact Bool.eq_false_iff.1 single hx

theorem starts_nest {α : Type} (n : Nest α) : Starts (· == n.opening) n.read := by
  intro s xs r h
  cases s with
  | nil => cases h
  | cons c s =>
    simp only [Nest.read] at h
    split at h
    · next hc => exact ⟨c, s, rfl, by simpa using hc⟩
    · cases h

theorem inside_append {α : Type} (n : Nest α) (outer : List (List α)) (here : List α)
    (mark : Option Char) {s r : List Char} {xs : List α}
    (h : n.inside outer here mark s = some (xs, r)) (t : List Char) :
    n.inside outer here mark (s ++ t) = some (xs, r ++ t) := by
  induction s generalizing outer here mark with
  | nil => cases h
  | cons c s ih =>
    simp only [List.cons_append, Nest.inside] at h ⊢
    split at h
    · exact ih _ _ _ h
    · split at h
      · next close =>
        rw [if_pos close]
        split at h
        · cases h
          rfl
        · exact ih _ _ _ h
      · next other =>
        rw [if_neg other]
        split at h
        · next opens =>
          rw [if_pos opens]
          exact ih _ _ _ h
        · next plain =>
          rw [if_neg plain]
          exact ih _ _ _ h

theorem extends_nest {α : Type} (n : Nest α) : Extends n.read n.read := by
  intro s xs r h t
  cases s with
  | nil => cases h
  | cons c s =>
    simp only [List.cons_append, Nest.read] at h ⊢
    split at h
    · next opens =>
      rw [if_pos opens]
      exact inside_append n _ _ _ h t
    · cases h

theorem inside_closed {α : Type} (n : Nest α) (outer : List (List α)) (here : List α)
    (mark : Option Char) {s r : List Char} {xs : List α}
    (h : n.inside outer here mark s = some (xs, r)) : ∃ u, s = u ++ n.closing :: r := by
  induction s generalizing outer here mark with
  | nil => cases h
  | cons c s ih =>
    have more : (∃ u, s = u ++ n.closing :: r) → ∃ u, c :: s = u ++ n.closing :: r := by
      rintro ⟨u, rfl⟩
      exact ⟨c :: u, rfl⟩
    simp only [Nest.inside] at h
    split at h
    · exact more (ih _ _ _ h)
    · split at h
      · next close =>
        split at h
        · cases h
          exact ⟨[], by rw [close]; rfl⟩
        · exact more (ih _ _ _ h)
      · split at h
        · exact more (ih _ _ _ h)
        · exact more (ih _ _ _ h)

theorem read_closed {α : Type} (n : Nest α) {s r : List Char} {xs : List α}
    (h : n.read s = some (xs, r)) : ∃ u, s = u ++ n.closing :: r := by
  cases s with
  | nil => cases h
  | cons c s =>
    simp only [Nest.read] at h
    split at h
    · obtain ⟨u, rfl⟩ := inside_closed n _ _ _ h
      exact ⟨c :: u, rfl⟩
    · cases h

theorem inside_group {α : Type} (n : Nest α) {P : α → Prop} (char : ∀ c, P (n.char c))
    (group : ∀ ys, (∀ y ∈ ys, P y) → ∀ y ∈ n.group ys, P y) {outer : List (List α)}
    {here : List α} {mark : Option Char} (around : ∀ ys ∈ outer, ∀ y ∈ ys, P y)
    (before : ∀ y ∈ here, P y) {s r : List Char} {xs : List α}
    (h : n.inside outer here mark s = some (xs, r)) : ∃ ys, xs = n.group ys ∧ ∀ y ∈ ys, P y := by
  induction s generalizing outer here mark with
  | nil => cases h
  | cons c s ih =>
    have taken : ∀ y ∈ n.char c :: here, P y := List.forall_mem_cons.2 ⟨char c, before⟩
    have whole : ∀ y ∈ (n.char c :: here).reverse, P y := fun y hy => taken y (List.mem_reverse.1 hy)
    simp only [Nest.inside] at h
    split at h
    · exact ih around taken h
    · split at h
      · split at h
        · cases h
          exact ⟨_, rfl, whole⟩
        · obtain ⟨first, rest⟩ := List.forall_mem_cons.1 around
          refine ih rest (List.forall_mem_append.2 ⟨fun y hy => ?_, first⟩) h
          exact group _ whole y (List.mem_reverse.1 hy)
      · split at h
        · exact ih (List.forall_mem_cons.2 ⟨before, around⟩)
            (List.forall_mem_singleton.2 (char c)) h
        · exact ih around taken h

/-- What is read is a group. A property of all it may hold is one of all that it holds. -/
theorem read_group {α : Type} (n : Nest α) {P : α → Prop} (char : ∀ c, P (n.char c))
    (group : ∀ ys, (∀ y ∈ ys, P y) → ∀ y ∈ n.group ys, P y) {s r : List Char} {xs : List α}
    (h : n.read s = some (xs, r)) : ∃ ys, xs = n.group ys ∧ ∀ y ∈ ys, P y := by
  cases s with
  | nil => cases h
  | cons c s =>
    simp only [Nest.read] at h
    split at h
    · exact inside_group n char group (List.forall_mem_nil _)
        (List.forall_mem_singleton.2 (char c)) h
    · cases h

theorem extends_parens : Extends parens parens := extends_nest _

theorem starts_parens : Starts (· == '(') parens := starts_nest _

theorem starts_attr : Starts (· == '[') attr := ((starts_one _).append _).append _

theorem starts_closedAttr : Starts (· == '[') closedAttr := ((starts_one _).append _).append _

theorem extends_closedAttr : Extends closedAttr attr := by
  intro s xs r h t
  obtain ⟨ys, m, zs, inner, close, rfl⟩ := append_eq_some.1 h
  have item : Extends (string <|> noneOf [']', '"', '\'']) (string <|> noneOf [']']) := by
    refine extends_string_orElse (extends_one fun c hc => ?_) (starts_one _) rfl rfl
    simp_all
  -- The closing sign is all that is left, and no item starts with it.
  have stop : (string <|> noneOf [']']) (m ++ t) = none := by
    obtain ⟨c, m, rfl, hc⟩ := starts_one _ _ _ _ close
    rw [beq_iff_eq.1 hc]
    exact (starts_string.orElse (starts_one _)).cons (by decide) _
  have read := append_star_append (extends_same _) item inner t
  rw [many_of_none stop, List.append_nil] at read
  exact append_eq_some.2 ⟨ys, m ++ t, zs, read, extends_same _ _ _ _ close t, rfl⟩

theorem extends_selectorItem : Extends closedSelectorItem selectorItem := by
  have plain : Extends (string <|> noneOf [',', '{', '}', '(', ')', '[', ';', '@', '"', '\''])
      (string <|> noneOf [',', '{', '}', '(', ')', '[', ';', '@', '"', '\'']) :=
    extends_string_orElse (extends_same _) (starts_noneOf _) rfl rfl
  have rest := extends_closedAttr.orElse_of_first plain starts_attr
    (starts_string.orElse (starts_noneOf _)) rfl
  exact extends_parens.orElse_of_first rest starts_parens
    (starts_closedAttr.orElse (starts_string.orElse (starts_noneOf _))) rfl

theorem starts_selectorItem :
    Starts (fun c => c == '(' || (c == '[' || (isMark c ||
      outside [',', '{', '}', '(', ')', '[', ';', '@', '"', '\''] c))) selectorItem :=
  starts_parens.orElse (starts_attr.orElse (starts_string.orElse (starts_noneOf _)))

theorem extends_valueItem : Extends valueItem valueItem := by
  have rest : Extends (parens <|> noneOf [';', '{', '}', '(', ')', '"', '\''])
      (parens <|> noneOf [';', '{', '}', '(', ')', '"', '\'']) :=
    extends_parens.orElse_of_first (extends_same _) starts_parens (starts_noneOf _) rfl
  exact extends_string_orElse rest (starts_parens.orElse (starts_noneOf _)) rfl rfl

theorem starts_valueItem :
    Starts (fun c => isMark c || (c == '(' ||
      outside [';', '{', '}', '(', ')', '"', '\''] c)) valueItem :=
  starts_string.orElse (starts_parens.orElse (starts_noneOf _))

theorem extends_preludeItem : Extends preludeItem preludeItem := by
  have rest : Extends (parens <|> noneOf ['{', '}', ';', '"', '\'', '(', ')'])
      (parens <|> noneOf ['{', '}', ';', '"', '\'', '(', ')']) :=
    extends_parens.orElse_of_first (extends_same _) starts_parens (starts_noneOf _) rfl
  exact extends_string_orElse rest (starts_parens.orElse (starts_noneOf _)) rfl rfl

theorem starts_preludeItem :
    Starts (fun c => isMark c || (c == '(' ||
      outside ['{', '}', ';', '"', '\'', '(', ')'] c)) preludeItem :=
  starts_string.orElse (starts_parens.orElse (starts_noneOf _))

/-! Texts that are taken whole, in front of what ends them in a sheet. -/

section

variable {s t : List Char} {c : Char}

theorem many_sp {a : Reader Char} {sp : List Char} (short : sp = [] ∨ sp = [' '])
    (space : a (' ' :: t) = some ([' '], t)) :
    a.many (sp ++ t) = (sp ++ (a.many t).1, (a.many t).2) := by
  rcases short with rfl | rfl
  · rfl
  · exact many_of_some space (Nat.lt_succ_self _)

theorem many_selectorItem {sp : List Char} (short : sp = [] ∨ sp = [' '])
    (stop : c = ',' ∨ c = '{') : selectorItem.many (sp ++ c :: t) = (sp, c :: t) := by
  have ends : selectorItem (c :: t) = none := by
    rcases stop with rfl | rfl <;> exact starts_selectorItem.cons (by decide) t
  rw [many_sp short rfl, many_of_none ends, List.append_nil]

/-- A selector with closed quotes in its brackets is one by the grammar too. -/
theorem selector_append (h : Entire closedSelector s) (t : List Char) :
    selector (s ++ t) = some (s ++ (selectorItem.many t).1, (selectorItem.many t).2) :=
  append_star_append extends_selectorItem extends_selectorItem (h.eq lossless_closedSelector) t

theorem valueText_append (h : Entire valueText s) (stop : c = ';' ∨ c = '}') :
    valueText (s ++ c :: t) = some (s, c :: t) := by
  have ends : valueItem (c :: t) = none := by
    rcases stop with rfl | rfl <;> exact starts_valueItem.cons (by decide) t
  exact append_star_of_none extends_valueItem extends_valueItem (h.eq lossless_valueText) ends

theorem name_append (h : Entire name s) (stop : isNameChar c = false) :
    name (s ++ c :: t) = some (s, c :: t) :=
  append_star_of_none (extends_same _) (extends_same _) (h.eq lossless_name)
    ((starts_one _).cons stop t)

theorem mem_many_one {p : Char → Bool} (s : List Char) : ∀ d ∈ ((one p).many s).1, p d = true := by
  fun_induction Reader.many (one p) s with
  | case1 s none =>
    intro d hd
    cases hd
  | case2 s xs r first shorter ys r' rest ih =>
    intro d hd
    rw [rest] at ih
    rcases List.mem_append.1 hd with hd | hd
    · obtain ⟨c, s, rfl, hc⟩ := starts_one p _ _ _ first
      rw [one, if_pos hc] at first
      cases first
      rw [List.mem_singleton.1 hd]
      exact hc
    · exact ih d hd
  | case3 s xs r first stuck =>
    intro d hd
    cases hd

theorem isNameChar_of_name (h : Entire name s) : ∀ d ∈ s, isNameChar d = true := by
  intro d hd
  obtain ⟨xs, m, ys, first, rest, same⟩ := append_eq_some.1 (h.eq lossless_name)
  rw [same] at hd
  rcases List.mem_append.1 hd with hd | hd
  · obtain ⟨c, s, rfl, hc⟩ := starts_one _ _ _ _ first
    rw [one, if_pos hc] at first
    cases first
    rw [List.mem_singleton.1 hd]
    simp [isNameChar, hc]
  · have taken : ((one isNameChar).many m).1 = ys := congrArg Prod.fst (Option.some.inj rest)
    rw [← taken] at hd
    exact mem_many_one m d hd

theorem propertyText_append (h : Entire propertyText s) (stop : isNameChar c = false) :
    propertyText (s ++ c :: t) = some (s, c :: t) := by
  obtain ⟨xs, m, ys, hack, rest, whole⟩ := append_eq_some.1 (h.eq lossless_propertyText)
  have named := name_append (t := t) ⟨ys, rest⟩ stop
  have same : ys = m := by simpa using lossless_name _ _ _ rest
  subst same
  refine append_eq_some.2 ⟨xs, ys ++ c :: t, ys, ?_, named, whole⟩
  rcases orElse_eq_some.1 hack with hack | ⟨plain, nothing⟩
  · exact orElse_eq_some.2 (Or.inl (extends_same _ _ _ _ hack _))
  · cases nothing
    -- Without a hack in front the name has a first character, and it is none.
    obtain ⟨d, s, rfl, -⟩ := (starts_one _).append _ _ _ _ rest
    have still : one ['*', '_'].contains (d :: s ++ c :: t) = none := by
      rw [one] at plain
      split at plain
      · cases plain
      · next other => exact (starts_one _).cons (Bool.eq_false_iff.2 other) _
    exact orElse_eq_some.2 (Or.inr ⟨still, rfl⟩)

theorem preludeText_append (h : Entire preludeText s) {lead sp : List Char}
    (before : lead = [] ∨ lead = [' ']) (behind : sp = [] ∨ sp = [' '])
    (stop : c = '{' ∨ c = ';') :
    preludeText (lead ++ (s ++ (sp ++ c :: t))) = some (lead ++ (s ++ sp), c :: t) := by
  have ends : preludeItem (c :: t) = none := by
    rcases stop with rfl | rfl <;> exact starts_preludeItem.cons (by decide) t
  have inner : preludeItem.many s = (s, []) := Option.some.inj (h.eq lossless_preludeText)
  have read := many_append extends_preludeItem inner (sp ++ c :: t)
  rw [List.nil_append, many_sp behind rfl, many_of_none ends, List.append_nil] at read
  refine congrArg some ?_
  rw [many_sp before rfl, read]

theorem many_one {p : Char → Bool} (inside : ∀ d ∈ s, p d = true)
    (stop : ∀ d ∈ t.head?, p d = false) : (one p).many (s ++ t) = (s, t) := by
  induction s with
  | nil =>
    refine many_of_none ?_
    cases t with
    | nil => rfl
    | cons d t => exact (starts_one p).cons (stop d rfl) t
  | cons d s ih =>
    have first : one p (d :: (s ++ t)) = some ([d], s ++ t) :=
      if_pos (inside d List.mem_cons_self)
    rw [List.cons_append, many_of_some first (Nat.lt_succ_self _),
      ih fun e he => inside e (List.mem_cons_of_mem d he)]
    rfl

theorem spaceText_append (space : ∀ d ∈ s, isSpace d = true) (nonempty : s ≠ [])
    (stop : ∀ d ∈ t.head?, isSpace d = false) : spaceText (s ++ t) = some (s, t) := by
  cases s with
  | nil => exact absurd rfl nonempty
  | cons d s =>
    have first : one isSpace (d :: (s ++ t)) = some ([d], s ++ t) :=
      if_pos (space d List.mem_cons_self)
    have rest := many_one (fun e he => space e (List.mem_cons_of_mem d he)) stop
    exact append_eq_some.2 ⟨[d], s ++ t, s, first, congrArg some rest, rfl⟩

/-- A text without the two signs that end a comment is read up to them. -/
theorem commentText_append (closed : ¬['*', '/'] <:+: s) :
    commentText (s ++ '*' :: '/' :: t) = some (s, '*' :: '/' :: t) := by
  refine congrArg some ?_
  induction s with
  | nil => rfl
  | cons d s ih =>
    have here : ['*', '/'].isPrefixOf (d :: (s ++ '*' :: '/' :: t)) = false := by
      rw [Bool.eq_false_iff]
      intro found
      cases s with
      | nil => simp [List.isPrefixOf] at found
      | cons e s =>
        obtain ⟨rfl, rfl⟩ : '*' = d ∧ '/' = e := by simpa [List.isPrefixOf] using found
        exact closed ⟨[], s, rfl⟩
    rw [List.cons_append, before, here,
      ih fun inside => closed (List.infix_cons inside)]
    rfl

end

end StyleFactor.Grammar
