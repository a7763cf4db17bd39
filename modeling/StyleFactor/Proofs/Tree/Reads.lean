import StyleFactor.Proofs.Grammar.Token
import StyleFactor.Proofs.Tree.Sketch

/-!
Productions on a text with more text behind it: what they take, and what the tree holds of it. One
law for each way productions are put together.
-/
namespace StyleFactor.Grammar

open Reader

/-- In front of `t` the production takes `s`, and the tree holds these nodes for it. -/
def Reads (a : Reader Fragment) (s t : List Char) (ns : List Node) : Prop :=
  ∃ ps, a (s ++ t) = some (ps, t) ∧ charsOf ps = s ∧ sketches ps = ns

theorem Reader.Starts.plain {p : Char → Bool} {a : Reader Char} (h : Starts p a) :
    Starts p (plain a) := h.map _

theorem Reader.Starts.node {p : Char → Bool} {a : Reader Fragment} (h : Starts p a)
    (tag : String) : Starts p (node tag a) := h.map _

variable {a b h : Reader Fragment} {s s' t : List Char} {ns ns' : List Node}

theorem reads_plain {a : Reader Char} (read : a (s ++ t) = some (s, t)) :
    Reads (plain a) s t [] :=
  ⟨[.text s], map_eq_some.2 ⟨s, read, rfl⟩, by simp, rfl⟩

theorem reads_sign (c : Char) (t : List Char) : Reads (plain (sign c)) [c] t [] :=
  reads_plain (if_pos (beq_self_eq_true c))

theorem reads_word (w t : List Char) : Reads (plain (word w)) w t [] := by
  refine reads_plain ?_
  rw [word, if_pos (List.isPrefixOf_iff_prefix.2 (List.prefix_append w t)), List.drop_left]

theorem word_none {w : List Char} (other : ¬w <+: t) : plain (word w) t = none := by
  have missing : w.isPrefixOf t = false := by
    rw [Bool.eq_false_iff]
    exact fun opens => other (List.isPrefixOf_iff_prefix.1 opens)
  simp [plain, map, word, missing]

theorem Reads.append (ha : Reads a s (s' ++ t) ns) (hb : Reads b s' t ns') :
    Reads (a ++ b) (s ++ s') t (ns ++ ns') := by
  obtain ⟨ps, first, chars, rfl⟩ := ha
  obtain ⟨qs, second, chars', rfl⟩ := hb
  refine ⟨ps ++ qs, append_eq_some.2 ⟨ps, s' ++ t, qs, ?_, second, rfl⟩, ?_,
    sketches_append ps qs⟩
  · rw [List.append_assoc, first]
  · rw [charsOf_append, chars, chars']

theorem Reads.append_none (ha : Reads a s t ns) (hb : b t = none) : (a ++ b) (s ++ t) = none := by
  obtain ⟨ps, read, -⟩ := ha
  cases e : (a ++ b) (s ++ t) with
  | none => rfl
  | some whole =>
    obtain ⟨qs, m, rs, first, second, -⟩ := append_eq_some.1 e
    rw [read] at first
    cases first
    rw [hb] at second
    cases second

theorem Reads.node (tag : String) (ha : Reads a s t ns) :
    Reads (node tag a) s t [.mk tag 0 0 s ns] := by
  obtain ⟨ps, read, chars, rfl⟩ := ha
  refine ⟨[.node tag ps], map_eq_some.2 ⟨ps, read, rfl⟩, by simpa using chars, ?_⟩
  simp [sketches, Fragment.sketch, chars]

theorem reads_leaf (tag : String) {a : Reader Char} (read : a (s ++ t) = some (s, t)) :
    Reads (leaf tag a) s t [.mk tag 0 0 s []] :=
  (reads_plain read).node tag

theorem Reads.first (ha : Reads a s t ns) (b : Reader Fragment) : Reads (a <|> b) s t ns := by
  obtain ⟨ps, read, rest⟩ := ha
  exact ⟨ps, orElse_eq_some.2 (Or.inl read), rest⟩

theorem Reads.second (hb : Reads b s t ns) (other : a (s ++ t) = none) :
    Reads (a <|> b) s t ns := by
  obtain ⟨ps, read, rest⟩ := hb
  exact ⟨ps, orElse_eq_some.2 (Or.inr ⟨other, read⟩), rest⟩

theorem reads_nothing (other : a t = none) : Reads a.opt [] t [] :=
  ⟨[], orElse_eq_some.2 (Or.inr ⟨other, rfl⟩), rfl, rfl⟩

theorem reads_star_nil (stop : a t = none) : Reads a.star [] t [] :=
  ⟨[], congrArg some (many_of_none stop), rfl, rfl⟩

theorem Reads.star_cons (ha : Reads a s (s' ++ t) ns) (nonempty : s ≠ [])
    (rest : Reads a.star s' t ns') : Reads a.star (s ++ s') t (ns ++ ns') := by
  obtain ⟨ps, first, chars, rfl⟩ := ha
  obtain ⟨qs, more, chars', rfl⟩ := rest
  have shorter : (s' ++ t).length < (s ++ (s' ++ t)).length := by
    have := List.length_pos_iff.2 nonempty
    simp only [List.length_append]
    omega
  have whole := many_of_some first shorter
  rw [Option.some.inj more] at whole
  refine ⟨ps ++ qs, ?_, ?_, sketches_append ps qs⟩
  · rw [List.append_assoc]
    exact congrArg some whole
  · rw [charsOf_append, chars, chars']

theorem Reads.separated (hh : Reads h s (s' ++ t) ns) (nonempty : s ≠ [])
    (rest : Reads (b ++ (h ++ b).star) s' t ns') (keeps : b.Keeps) :
    Reads (h ++ b).star (s ++ s') t (ns ++ ns') := by
  obtain ⟨ps, before, chars, rfl⟩ := hh
  obtain ⟨_, read, chars', rfl⟩ := rest
  obtain ⟨qs, m, rs, element, more, rfl⟩ := append_eq_some.1 read
  -- An element may be empty; that the repetition goes on is due to what holds elements apart.
  have shorter : m.length < (s ++ (s' ++ t)).length := by
    have taken := congrArg List.length (keeps _ _ _ element)
    have := List.length_pos_iff.2 nonempty
    simp only [List.length_append] at taken ⊢
    omega
  have whole := many_of_some (append_eq_some.2 ⟨ps, _, qs, before, element, rfl⟩) shorter
  rw [Option.some.inj more] at whole
  refine ⟨ps ++ (qs ++ rs), ?_, ?_, sketches_append _ _⟩
  · rw [List.append_assoc, ← List.append_assoc ps]
    exact congrArg some whole
  · rw [charsOf_append, chars, chars']

def gapNodes : List Char → List Node
  | [] => []
  | c :: w => [.mk "s" 0 0 (c :: w) [.mk "space" 0 0 (c :: w) []]]

/-- Where neither white space nor a comment starts there is no gap. -/
theorem gap_eq_none (space : ∀ d ∈ t.head?, isSpace d = false) (other : ¬['/', '*'] <+: t) :
    gap t = none := by
  have starts : Starts isSpace (leaf "space" spaceText) :=
    ((starts_one isSpace).append _).plain.node "space"
  have spaces : leaf "space" spaceText t = none := by
    cases t with
    | nil => exact starts.nil
    | cons c t => exact starts.cons (space c rfl) t
  have comments : comment t = none := by
    rw [comment, node, map, append_apply, append_apply, word_none other]
    rfl
  rw [gap, node, map, orElse_apply, spaces, comments]
  rfl

theorem isSpace_head_of_gap (stop : gap t = none) : ∀ d ∈ t.head?, isSpace d = false := by
  intro d hd
  cases t with
  | nil => cases hd
  | cons c t =>
    cases hd
    rw [← Bool.not_eq_true]
    intro space
    have first : one isSpace (d :: t) = some ([d], t) := if_pos space
    simp [gap, node, leaf, plain, Reader.map, orElse_apply, spaceText, Reader.plus, append_apply,
      first, Reader.star] at stop

theorem reads_space (space : ∀ d ∈ s, isSpace d = true) (nonempty : s ≠ [])
    (stop : ∀ d ∈ t.head?, isSpace d = false) : Reads gap s t (gapNodes s) := by
  have text := spaceText_append space nonempty stop
  have read := ((reads_leaf "space" text).first comment).node "s"
  cases s with
  | nil => exact absurd rfl nonempty
  | cons c s => exact read

theorem reads_gaps (space : ∀ d ∈ s, isSpace d = true) (stop : gap t = none) :
    Reads gap.star s t (gapNodes s) := by
  cases s with
  | nil => exact reads_star_nil stop
  | cons c s =>
    have read : Reads gap.star (c :: s ++ []) t (gapNodes (c :: s) ++ []) :=
      (reads_space space (List.cons_ne_nil c s) (isSpace_head_of_gap stop)).star_cons
        (List.cons_ne_nil c s) (reads_star_nil stop)
    simpa using read

theorem gap_cons {c : Char} (space : isSpace c = false) (slash : c ≠ '/') (t : List Char) :
    gap (c :: t) = none := by
  refine gap_eq_none ?_ ?_
  · rintro d ⟨⟩
    exact space
  · intro opens
    exact slash (List.cons_prefix_cons.1 opens).1.symm

theorem gap_of_class {p : Char → Bool} {c : Char} (hc : p c = true)
    (apart : ['/', ' ', '\t', '\r', '\n', '\x0b', '\x0c'].any p = false) (t : List Char) :
    gap (c :: t) = none := by
  have unlisted : c ∉ ['/', ' ', '\t', '\r', '\n', '\x0b', '\x0c'] := fun listed =>
    List.any_eq_false.1 apart c listed hc
  refine gap_cons ?_ ?_ t
  · rw [← Bool.not_eq_true]
    exact fun space => unlisted (List.mem_cons_of_mem _ (by simpa [isSpace] using space))
  · rintro rfl
    exact unlisted List.mem_cons_self

theorem reads_separator {c : Char} (sign : isSpace c = false) (slash : c ≠ '/')
    (space : ∀ d ∈ s, isSpace d = true) (stop : gap t = none) :
    Reads (separator c) (c :: s) t (gapNodes s) :=
  ((reads_star_nil (gap_cons sign slash (s ++ t))).append (reads_sign c (s ++ t))).append
    (reads_gaps space stop)

theorem separator_none {c d : Char} (sign : isSpace d = false) (slash : d ≠ '/') (other : d ≠ c)
    (b : Reader Fragment) (t : List Char) : (separator c ++ b) (d :: t) = none := by
  have fails : plain (Grammar.sign c) (d :: t) = none :=
    (starts_one (· == c)).plain.cons (beq_eq_false_iff_ne.2 other) t
  have gaps : Reads gap.star [] (d :: t) [] := reads_star_nil (gap_cons sign slash t)
  have first := gaps.append_none fails
  rw [List.nil_append] at first
  rw [append_apply, separator, append_apply, first]
  rfl

def commentChars (s : List Char) : List Char := ['/', '*'] ++ s ++ ['*', '/']

theorem reads_comment (closed : ¬['*', '/'] <:+: s) (t : List Char) :
    Reads gap (commentChars s) t
      [.mk "s" 0 0 (commentChars s)
        [.mk "comment" 0 0 (commentChars s) [.mk "commtext" 0 0 s []]]] := by
  have opening := reads_word ['/', '*'] (s ++ (['*', '/'] ++ t))
  have text := reads_leaf "commtext" (commentText_append (t := t) closed)
  have read := ((opening.append text).append (reads_word ['*', '/'] t)).node "comment"
  have other : leaf "space" spaceText (commentChars s ++ t) = none :=
    (((starts_one isSpace).append _).plain.node "space").cons rfl _
  exact (read.second other).node "s"

end StyleFactor.Grammar
