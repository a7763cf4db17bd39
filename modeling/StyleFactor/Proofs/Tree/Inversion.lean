import StyleFactor.Proofs.Grammar.Ends

/-!
Productions taken apart. What a production has read was read by its parts, one behind the other, and
the tree holds what it holds for these. The laws are those of `Reads` from the other side.
-/
namespace StyleFactor.Grammar

open Reader

variable {a b : Reader Fragment} {s t : List Char} {ns : List Node}

theorem reads_of_eq_some (keeps : a.Keeps) {x r : List Char} {ps : List Fragment}
    (h : a x = some (ps, r)) : ∃ s, x = s ++ r ∧ Reads a s r (sketches ps) := by
  have whole : charsOf ps ++ r = x := keeps _ _ _ h
  exact ⟨charsOf ps, whole.symm, ps, by rw [whole, h], rfl, rfl⟩

theorem Reads.split (h : Reads (a ++ b) s t ns) (hb : b.Keeps) :
    ∃ u v ms ms', s = u ++ v ∧ ns = ms ++ ms' ∧ Reads a u (v ++ t) ms ∧ Reads b v t ms' := by
  obtain ⟨ps, read, rfl, rfl⟩ := h
  obtain ⟨qs, m, rs, first, second, rfl⟩ := append_eq_some.1 read
  obtain ⟨v, rfl, rest⟩ := reads_of_eq_some hb second
  have behind : charsOf rs = v := List.append_cancel_right (hb _ _ _ second)
  rw [charsOf_append, behind] at first ⊢
  exact ⟨charsOf qs, v, _, _, rfl, sketches_append qs rs, ⟨qs, by simpa using first, rfl, rfl⟩,
    rest⟩

theorem Reads.of_node {tag : String} (h : Reads (Grammar.node tag a) s t ns) :
    ∃ ms, ns = [.mk tag 0 0 s ms] ∧ Reads a s t ms := by
  obtain ⟨ps, read, rfl, rfl⟩ := h
  obtain ⟨qs, inner, rfl⟩ := map_eq_some.1 read
  exact ⟨sketches qs, by simp [sketches, Fragment.sketch], qs, by simpa using inner, by simp, rfl⟩

theorem Reads.of_plain {a : Reader Char} (h : Reads (plain a) s t ns) :
    ns = [] ∧ a (s ++ t) = some (s, t) := by
  obtain ⟨ps, read, rfl, rfl⟩ := h
  obtain ⟨cs, inner, rfl⟩ := map_eq_some.1 read
  exact ⟨rfl, by simpa using inner⟩

theorem Reads.of_leaf {tag : String} {a : Reader Char} (h : Reads (leaf tag a) s t ns) :
    ns = [.mk tag 0 0 s []] ∧ a (s ++ t) = some (s, t) := by
  obtain ⟨ms, rfl, inner⟩ := Reads.of_node h
  obtain ⟨rfl, read⟩ := inner.of_plain
  exact ⟨rfl, read⟩

theorem Reads.of_sign {c : Char} (h : Reads (plain (sign c)) s t ns) : s = [c] ∧ ns = [] := by
  obtain ⟨rfl, read⟩ := h.of_plain
  obtain ⟨d, hd, same, -⟩ := one_eq_some.1 read
  exact ⟨by rw [same, beq_iff_eq.1 hd], rfl⟩

theorem Reads.of_word {w : List Char} (h : Reads (plain (word w)) s t ns) : s = w ∧ ns = [] := by
  obtain ⟨rfl, read⟩ := h.of_plain
  simp only [word] at read
  split at read
  · exact ⟨(congrArg Prod.fst (Option.some.inj read)).symm, rfl⟩
  · cases read

theorem Reads.of_orElse (h : Reads (a <|> b) s t ns) :
    Reads a s t ns ∨ a (s ++ t) = none ∧ Reads b s t ns := by
  obtain ⟨ps, read, rest⟩ := h
  rcases orElse_eq_some.1 read with read | ⟨other, read⟩
  · exact Or.inl ⟨ps, read, rest⟩
  · exact Or.inr ⟨other, ps, read, rest⟩

theorem Reads.of_opt (h : Reads a.opt s t ns) :
    Reads a s t ns ∨ s = [] ∧ ns = [] := by
  rcases h.of_orElse with h | ⟨-, ps, read, rfl, rfl⟩
  · exact Or.inl h
  · cases read
    exact Or.inr ⟨rfl, rfl⟩

theorem Reads.star_cases (h : Reads a.star s t ns) (keeps : a.Keeps) :
    (s = [] ∧ ns = []) ∨
      ∃ u v ms ms', u ≠ [] ∧ s = u ++ v ∧ ns = ms ++ ms' ∧ Reads a u (v ++ t) ms ∧
        Reads a.star v t ms' := by
  obtain ⟨ps, read, rfl, rfl⟩ := h
  have all : a.many (charsOf ps ++ t) = (ps, t) := Option.some.inj read
  rw [Reader.many] at all
  split at all
  · cases all
    exact Or.inl ⟨rfl, rfl⟩
  · next xs r first =>
    split at all
    · next shorter =>
      have rest : a.star r = some ((a.many r).1, (a.many r).2) := rfl
      obtain ⟨rfl, left⟩ := Prod.mk.inj all
      rw [left] at rest
      obtain ⟨v, rfl, more⟩ := reads_of_eq_some keeps.star rest
      have whole := keeps _ _ _ first
      have nonempty : charsOf xs ≠ [] := by
        intro empty
        rw [empty, List.nil_append] at whole
        rw [← whole] at shorter
        exact absurd shorter (Nat.lt_irrefl _)
      refine Or.inr ⟨charsOf xs, v, _, _, nonempty, ?_, sketches_append _ _,
        ⟨xs, by rw [whole, first], rfl, rfl⟩, more⟩
      rw [← List.append_assoc] at whole
      exact (List.append_cancel_right whole).symm
    · cases all
      exact Or.inl ⟨rfl, rfl⟩

/-- What holds of nothing, and in front of it by each thing taken, holds of a repetition. -/
theorem Reads.star_induction {motive : List Char → List Node → Prop} (keeps : a.Keeps)
    (nil : motive [] [])
    (cons : ∀ u v ms ms', Reads a u (v ++ t) ms → Reads a.star v t ms' → motive v ms' →
      motive (u ++ v) (ms ++ ms'))
    (h : Reads a.star s t ns) : motive s ns := by
  induction size : s.length using Nat.strong_induction_on generalizing s ns with
  | _ n ih =>
    rcases h.star_cases keeps with ⟨rfl, rfl⟩ | ⟨u, v, ms, ms', nonempty, rfl, rfl, first, rest⟩
    · exact nil
    · have := List.length_pos_iff.2 nonempty
      rw [List.length_append] at size
      exact cons u v ms ms' first rest (ih v.length (by omega) rest rfl)

/-- A repetition leaves a text from which nothing more is taken. -/
theorem many_stops {α : Type} (a : Reader α) (s : List Char) {xs : List α} {r : List Char}
    (more : a (a.many s).2 = some (xs, r)) : ¬r.length < (a.many s).2.length := by
  fun_induction Reader.many a s with
  | case1 s stop =>
    rw [stop] at more
    cases more
  | case2 s ys m first shorter zs r' rest ih =>
    rw [rest] at ih
    exact ih more
  | case3 s ys m first stuck =>
    rw [first] at more
    cases more
    exact stuck

/-! Gaps. -/

theorem Reads.of_comment (h : Reads comment s t ns) :
    ∃ u, s = commentChars u ∧ ¬['*', '/'] <:+: u ∧
      ns = [.mk "comment" 0 0 s [.mk "commtext" 0 0 u []]] := by
  obtain ⟨ms, rfl, inner⟩ := Reads.of_node h
  obtain ⟨v, w, _, _, rfl, rfl, start, close⟩ := inner.split (keeps_word _)
  obtain ⟨o, u, _, _, rfl, rfl, opening, text⟩ := start.split (keeps_leaf _ lossless_commentText)
  obtain ⟨rfl, rfl⟩ := opening.of_word
  obtain ⟨rfl, rfl⟩ := close.of_word
  obtain ⟨rfl, read⟩ := text.of_leaf
  refine ⟨u, rfl, ?_, rfl⟩
  have cut : before ['*', '/'] (u ++ (['*', '/'] ++ t)) = (u, ['*', '/'] ++ t) :=
    Option.some.inj read
  rcases before_cases (List.cons_ne_nil '*' ['/']) (u ++ (['*', '/'] ++ t)) with
    ⟨-, same⟩ | ⟨v, r, -, first, same⟩
  · exact absurd (congrArg Prod.snd (cut.symm.trans same)) (List.cons_ne_nil _ _)
  · have whole : u = v := congrArg Prod.fst (cut.symm.trans same)
    exact whole ▸ first

theorem Reads.of_gap (h : Reads gap s t ns) :
    (s ≠ [] ∧ (∀ c ∈ s, isSpace c = true) ∧ ns = [.mk "s" 0 0 s [.mk "space" 0 0 s []]]) ∨
      ∃ u, s = commentChars u ∧ ¬['*', '/'] <:+: u ∧
        ns = [.mk "s" 0 0 s [.mk "comment" 0 0 s [.mk "commtext" 0 0 u []]]] := by
  obtain ⟨ms, rfl, inner⟩ := Reads.of_node h
  rcases inner.of_orElse with space | ⟨-, comment⟩
  · obtain ⟨rfl, read⟩ := space.of_leaf
    obtain ⟨xs, m, ys, first, rest, rfl⟩ := append_eq_some.1 read
    obtain ⟨c, hc, rfl, -⟩ := one_eq_some.1 first
    have taken : ((one isSpace).many m).1 = ys := congrArg Prod.fst (Option.some.inj rest)
    refine Or.inl ⟨List.cons_ne_nil c ys, List.forall_mem_cons.2 ⟨hc, ?_⟩, rfl⟩
    rw [← taken]
    exact mem_many_one m
  · obtain ⟨u, same, closed, rfl⟩ := comment.of_comment
    exact Or.inr ⟨u, same, closed, rfl⟩

theorem gap_shorter {x r : List Char} {ps : List Fragment} (h : gap x = some (ps, r)) :
    r.length < x.length := by
  obtain ⟨s, rfl, read⟩ := reads_of_eq_some keeps_gap h
  have nonempty : s ≠ [] := by
    rcases read.of_gap with ⟨nonempty, -⟩ | ⟨u, rfl, -⟩
    · exact nonempty
    · exact List.cons_ne_nil _ _
  have := List.length_pos_iff.2 nonempty
  rw [List.length_append]
  omega

/-- Gaps are read until there is none, and leave nothing but their own nodes. -/
theorem Reads.of_gaps (h : Reads gap.star s t ns) : gap t = none ∧ ∀ n ∈ ns, n.tag = "s" := by
  constructor
  · obtain ⟨ps, read, -⟩ := h
    have left : (gap.many (s ++ t)).2 = t := congrArg Prod.snd (Option.some.inj read)
    cases more : gap t with
    | none => rfl
    | some result =>
      refine absurd (gap_shorter more) ?_
      rw [← left] at more ⊢
      exact many_stops gap (s ++ t) more
  · refine Reads.star_induction (motive := fun _ ns => ∀ n ∈ ns, n.tag = "s") keeps_gap
      (fun n hn => nomatch hn) (fun u v ms ms' first _ ih => ?_) h
    have tag : ∀ n ∈ ms, n.tag = "s" := by
      rcases first.of_gap with ⟨-, -, rfl⟩ | ⟨w, -, -, rfl⟩ <;>
        exact fun n hn => List.mem_singleton.1 hn ▸ rfl
    exact List.forall_mem_append.2 ⟨tag, ih⟩

theorem Reads.of_separator {c : Char} (h : Reads (separator c) s t ns) :
    gap t = none ∧ ∀ n ∈ ns, n.tag = "s" := by
  obtain ⟨u, v, ms, ms', rfl, rfl, start, behind⟩ := h.split keeps_gap.star
  obtain ⟨w, x, ks, ks', rfl, rfl, before, here⟩ := start.split (keeps_sign c)
  obtain ⟨stop, tags⟩ := behind.of_gaps
  obtain ⟨-, rfl⟩ := here.of_sign
  rw [List.append_nil]
  exact ⟨stop, List.forall_mem_append.2 ⟨before.of_gaps.2, tags⟩⟩

end StyleFactor.Grammar
