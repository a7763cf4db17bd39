import StyleFactor.Grammar.Reader

/-!
Reading with more text behind. Readers are greedy and never look back, so what matters is whether
more text could change a choice. `a.Extends b` says that it cannot: what `a` takes from a text, `b`
takes from it whatever comes behind, and leaves that untouched. Main statement: a repetition goes on
behind such a text as if it started there (`many_append`).
-/
namespace StyleFactor.Grammar.Reader

variable {α : Type} {a b c d : Reader α}

def Extends (a b : Reader α) : Prop :=
  ∀ s xs r, a s = some (xs, r) → ∀ t, b (s ++ t) = some (xs, r ++ t)

/-- Reads nothing unless the first character is in a class. -/
def Starts (p : Char → Bool) (a : Reader α) : Prop :=
  ∀ s xs r, a s = some (xs, r) → ∃ c t, s = c :: t ∧ p c = true

theorem Starts.nil {p : Char → Bool} (h : Starts p a) : a [] = none := by
  cases e : a [] with
  | none => rfl
  | some read =>
    obtain ⟨_, _, impossible, _⟩ := h [] read.1 read.2 e
    cases impossible

theorem Starts.cons {p : Char → Bool} (h : Starts p a) {c : Char} (other : p c = false)
    (t : List Char) : a (c :: t) = none := by
  cases e : a (c :: t) with
  | none => rfl
  | some read =>
    obtain ⟨c', t', same, hc⟩ := h (c :: t) read.1 read.2 e
    cases same
    exact absurd hc (Bool.eq_false_iff.1 other)

theorem Starts.append {p : Char → Bool} (h : Starts p a) (b : Reader α) : Starts p (a ++ b) := by
  intro s zs r read
  obtain ⟨xs, t, _, first, _⟩ := append_eq_some.1 read
  exact h s xs t first

theorem Starts.orElse {p q : Char → Bool} (ha : Starts p a) (hb : Starts q b) :
    Starts (fun c => p c || q c) (a <|> b) := by
  intro s xs r read
  rcases orElse_eq_some.1 read with first | ⟨_, second⟩
  · obtain ⟨c, t, same, hc⟩ := ha s xs r first
    exact ⟨c, t, same, by simp [hc]⟩
  · obtain ⟨c, t, same, hc⟩ := hb s xs r second
    exact ⟨c, t, same, by simp [hc]⟩

theorem Starts.map {β : Type} {p : Char → Bool} (h : Starts p a) (f : List α → List β) :
    Starts p (a.map f) := by
  intro s ys r read
  obtain ⟨xs, first, _⟩ := map_eq_some.1 read
  exact h s xs r first

theorem Extends.orElse {p q : Char → Bool} (hab : Extends a b) (hcd : Extends c d)
    (hb : Starts p b) (hc : Starts q c) (apart : ∀ x, q x = true → p x = false) :
    Extends (a <|> c) (b <|> d) := by
  intro s xs r read t
  rcases orElse_eq_some.1 read with first | ⟨_, second⟩
  · exact orElse_eq_some.2 (Or.inl (hab _ _ _ first t))
  · obtain ⟨x, s, rfl, hx⟩ := hc _ _ _ second
    exact orElse_eq_some.2 (Or.inr ⟨hb.cons (apart x hx) (s ++ t), hcd _ _ _ second t⟩)

theorem Extends.orElse_of_first {x : Char} {q : Char → Bool} (hab : Extends a b)
    (hcd : Extends c d) (hb : Starts (· == x) b) (hc : Starts q c) (apart : q x = false) :
    Extends (a <|> c) (b <|> d) := by
  refine hab.orElse hcd hb hc fun y hy => ?_
  rw [Bool.eq_false_iff]
  intro same
  rw [beq_iff_eq.1 same, apart] at hy
  cases hy

theorem many_of_none {s : List Char} (h : a s = none) : a.many s = ([], s) := by
  rw [many, h]

theorem many_of_some {s r : List Char} {xs : List α} (h : a s = some (xs, r))
    (shorter : r.length < s.length) :
    a.many s = (xs ++ (a.many r).1, (a.many r).2) := by
  rw [many, h]
  simp [shorter]

/-- A repetition that has come to the end of a text goes on with what is behind it. -/
theorem many_append (hab : Extends a b) {s r : List Char} {xs : List α}
    (h : a.many s = (xs, r)) (t : List Char) :
    b.many (s ++ t) = (xs ++ (b.many (r ++ t)).1, (b.many (r ++ t)).2) := by
  fun_induction Reader.many a s generalizing xs r with
  | case1 s none =>
    cases h
    rfl
  | case2 s ys m first shorter zs r' rest ih =>
    cases h
    have behind : (m ++ t).length < (s ++ t).length := by
      simp only [List.length_append]
      omega
    rw [many_of_some (hab _ _ _ first t) behind, ih rest]
    simp
  | case3 s ys m first stuck =>
    cases h
    rfl

theorem append_star_append (hab : Extends a b) (hcd : Extends c d) {s r : List Char} {xs : List α}
    (h : (a ++ c.star) s = some (xs, r)) (t : List Char) :
    (b ++ d.star) (s ++ t) = some (xs ++ (d.many (r ++ t)).1, (d.many (r ++ t)).2) := by
  obtain ⟨ys, m, zs, first, rest, rfl⟩ := append_eq_some.1 h
  have behind := congrArg some (many_append hcd (Option.some.inj rest) t)
  exact append_eq_some.2 ⟨ys, m ++ t, _, hab _ _ _ first t, behind, List.append_assoc _ _ _⟩

theorem append_star_of_none (hab : Extends a b) (hcd : Extends c d) {s : List Char} {xs : List α}
    (h : (a ++ c.star) s = some (xs, [])) {t : List Char} (stop : d t = none) :
    (b ++ d.star) (s ++ t) = some (xs, t) := by
  rw [append_star_append hab hcd h, List.nil_append, many_of_none stop, List.append_nil]

end StyleFactor.Grammar.Reader
