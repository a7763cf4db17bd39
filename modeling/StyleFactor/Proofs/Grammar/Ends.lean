import StyleFactor.Proofs.Grammar.Items
import StyleFactor.Proofs.Tree.Reads

/-!
What text can do to the text in front of it. A mark may close a string and the two signs that end a
comment may close a comment; nothing else reaches back. So where no gap starts in front of one
text, none starts in front of another that brings no such end of its own. Main statement:
`gap_of_gap`.
-/
namespace StyleFactor.Grammar

open Reader Text

/-! Comments. -/

section

variable {w : List Char} (nonempty : w ≠ [])
include nonempty

/-- A text is cut in front of the first `w`, if there is one. -/
theorem before_cases (s : List Char) :
    (¬w <:+: s ∧ before w s = (s, [])) ∨
      ∃ u r, s = u ++ (w ++ r) ∧ ¬w <:+: u ∧ before w s = (u, w ++ r) := by
  induction s with
  | nil => exact Or.inl ⟨fun inside => nonempty (List.infix_nil.1 inside), rfl⟩
  | cons c s ih =>
    by_cases here : w <+: c :: s
    · obtain ⟨r, same⟩ := here
      refine Or.inr ⟨[], r, same.symm, fun inside => nonempty (List.infix_nil.1 inside), ?_⟩
      rw [before, if_pos (List.isPrefixOf_iff_prefix.2 ⟨r, same⟩), same]
    · have step : before w (c :: s) = (c :: (before w s).1, (before w s).2) := by
        rw [before, if_neg fun found => here (List.isPrefixOf_iff_prefix.1 found)]
      rcases ih with ⟨absent, same⟩ | ⟨u, r, rfl, first, same⟩
      · refine Or.inl ⟨fun inside => ?_, by rw [step, same]⟩
        exact (List.infix_cons_iff.1 inside).elim here absent
      · refine Or.inr ⟨c :: u, r, rfl, fun inside => ?_, by rw [step, same]⟩
        rcases List.infix_cons_iff.1 inside with start | later
        · exact here (start.trans (List.prefix_append (c :: u) (w ++ r)))
        · exact first later

end

theorem comment_eq_none {s : List Char} :
    comment ('/' :: '*' :: s) = none ↔ ¬['*', '/'] <:+: s := by
  have opening : plain (word ['/', '*']) ('/' :: '*' :: s) = some ([.text ['/', '*']], s) := by
    simp [plain, map, word]
  have text : leaf "commtext" commentText s =
      some ([.node "commtext" [.text (before ['*', '/'] s).1]], (before ['*', '/'] s).2) := rfl
  rw [comment, node, map, Option.map_eq_none_iff, append_apply, append_apply, opening]
  simp only [Option.bind_some, text, Option.map_some]
  rcases before_cases (List.cons_ne_nil '*' ['/']) s with ⟨absent, same⟩ | ⟨u, r, rfl, -, same⟩
  · rw [same]
    simpa [plain, map, word] using absent
  · rw [same]
    have closed : ['*', '/'] <:+: u ++ '*' :: '/' :: r := ⟨u, r, by simp⟩
    simpa [plain, map, word] using closed

/-- No gap starts where there is no white space and no comment that is closed anywhere behind. -/
theorem gap_eq_none_iff {s : List Char} : gap s = none ↔
    (∀ c ∈ s.head?, isSpace c = false) ∧ ∀ u, s = '/' :: '*' :: u → ¬['*', '/'] <:+: u := by
  constructor
  · refine fun stop => ⟨isSpace_head_of_gap stop, ?_⟩
    rintro u rfl
    have both : gap ('/' :: '*' :: u) = (comment ('/' :: '*' :: u)).map fun (ps, r) =>
        ([.node "s" ps], r) := by
      have spaces : leaf "space" spaceText ('/' :: '*' :: u) = none :=
        (((starts_one isSpace).append _).plain.node "space").cons rfl _
      rw [gap, node, map, orElse_apply, spaces, Option.none_or]
    rw [both, Option.map_eq_none_iff] at stop
    exact comment_eq_none.1 stop
  · rintro ⟨space, unclosed⟩
    by_cases opens : ['/', '*'] <+: s
    · obtain ⟨u, rfl⟩ := opens
      have comments : comment ('/' :: '*' :: u) = none := comment_eq_none.2 (unclosed u rfl)
      have spaces : leaf "space" spaceText ('/' :: '*' :: u) = none :=
        (((starts_one isSpace).append _).plain.node "space").cons rfl _
      rw [List.cons_append, List.singleton_append, gap, node, map, orElse_apply, spaces, comments]
      rfl
    · exact gap_eq_none space opens

/-! Ends. -/

/-- What could end a string or a comment in the first text stands in the second too. -/
structure NoNewEnds (t' t : List Char) : Prop where
  marks : NoNewMarks t' t
  closing : ['*', '/'] <:+: t' → ['*', '/'] <:+: t

/-- A character that neither ends anything nor helps to. -/
def isJoint (c : Char) : Bool := !(['"', '\'', '*', '/'].contains c)

namespace NoNewEnds

variable {s t u x : List Char}

theorem of_inside (h : t <:+: x) : NoNewEnds t x :=
  ⟨fun _ hc _ => h.mem hc, fun closing => closing.trans h⟩

theorem nil (x : List Char) : NoNewEnds [] x := of_inside List.nil_infix

theorem trans (h : NoNewEnds s t) (more : NoNewEnds t u) : NoNewEnds s u :=
  ⟨fun c hc mark => more.marks c (h.marks c hc mark) mark, fun closing =>
    more.closing (h.closing closing)⟩

theorem mono (h : NoNewEnds t u) (inside : u <:+: x) : NoNewEnds t x := h.trans (of_inside inside)

/-- No end of a comment comes about where two texts meet. -/
theorem append (hs : NoNewEnds s x) (ht : NoNewEnds t x)
    (apart : s.getLast? = some '*' → t.head? ≠ some '/') : NoNewEnds (s ++ t) x where
  marks c hc mark := by
    rcases List.mem_append.1 hc with hc | hc
    · exact hs.marks c hc mark
    · exact ht.marks c hc mark
  closing h := by
    rcases List.infix_append_iff_ne_nil.1 h with h | h | ⟨l, r, hl, hr, both, ends, starts⟩
    · exact hs.closing h
    · exact ht.closing h
    · obtain ⟨rfl, rfl⟩ : l = ['*'] ∧ r = ['/'] := by
        match l, r with
        | [], _ => exact absurd rfl hl
        | _ :: _, [] => exact absurd rfl hr
        | [a], b :: r =>
          obtain ⟨rfl, rfl, rfl⟩ : '*' = a ∧ '/' = b ∧ r = [] := by simpa using both
          exact ⟨rfl, rfl⟩
        | a :: b :: l, c :: r => simp at both
      obtain ⟨v, rfl⟩ := ends
      obtain ⟨v', rfl⟩ := starts
      exact absurd rfl (apart (by simp))

theorem cons {c : Char} (joint : isJoint c = true) (ht : NoNewEnds t x) : NoNewEnds (c :: t) x := by
  have single : NoNewEnds [c] x := by
    constructor
    · intro d hd mark
      rw [List.mem_singleton.1 hd] at mark
      simp [isJoint] at joint
      simp [isMark, joint] at mark
    · intro inside
      have := inside.length_le
      simp at this
  refine single.append ht fun last => ?_
  simp at last
  simp [last, isJoint] at joint

theorem append_cons {c : Char} (joint : isJoint c = true) (hs : NoNewEnds s x)
    (ht : NoNewEnds t x) : NoNewEnds (s ++ c :: t) x := by
  refine hs.append (ht.cons joint) fun _ next => ?_
  simp at next
  simp [next, isJoint] at joint

theorem append_space {w : List Char} (space : ∀ c ∈ w, isSpace c = true) (ht : NoNewEnds t x) :
    NoNewEnds (w ++ t) x := by
  induction w with
  | nil => exact ht
  | cons c w ih =>
    obtain ⟨first, rest⟩ := List.forall_mem_cons.1 space
    refine (ih rest).cons ?_
    simp only [isSpace, List.contains_eq_mem, decide_eq_true_eq, List.mem_cons, List.not_mem_nil,
      or_false] at first
    rcases first with rfl | rfl | rfl | rfl | rfl | rfl <;> decide

theorem words {ws : List (List Char)} (h : ∀ w ∈ ws, NoNewEnds w x) :
    NoNewEnds ([' '].intercalate ws) x := by
  induction ws with
  | nil => exact nil x
  | cons w ws ih =>
    obtain ⟨first, rest⟩ := List.forall_mem_cons.1 h
    cases ws with
    | nil => simpa using first
    | cons v ws =>
      rw [List.intercalate_cons_cons, List.append_assoc, List.singleton_append]
      exact append_cons rfl first (ih rest)

theorem collapse (s : List Char) : NoNewEnds (Text.collapse s) s :=
  words fun _ hw => of_inside (infix_of_mem_words hw)

theorem trim (s : List Char) : NoNewEnds (Text.trim s) s := of_inside (isInfix_trim s)

end NoNewEnds

/-! Gaps in front of other text. -/

variable {raw s t t' : List Char}

/-- A text that takes the place of another, after a gap was sought in front of that in vain. -/
theorem gap_of_gap (stop : gap (raw ++ t) = none) (solid : ∃ c u, s = c :: u ∧ isSpace c = false)
    (opening : ∀ u, s = '/' :: '*' :: u → ∃ v, raw = '/' :: '*' :: v ∧ NoNewEnds u v)
    {c : Char} (joint : isJoint c = true) (ends : NoNewEnds (c :: t') t) :
    gap (s ++ c :: t') = none := by
  obtain ⟨d, u, rfl, space⟩ := solid
  refine gap_eq_none_iff.2 ⟨by rintro e ⟨⟩; exact space, fun v same closed => ?_⟩
  cases u with
  | nil =>
    -- the comment would have to open with the sign behind
    obtain ⟨rfl, next⟩ := List.cons.inj same
    cases (List.cons.inj next).1
    cases joint
  | cons e u =>
    obtain ⟨rfl, next⟩ := List.cons.inj same
    obtain ⟨rfl, rfl⟩ := List.cons.inj next
    obtain ⟨w, rfl, inner⟩ := opening u rfl
    have whole : NoNewEnds (u ++ c :: t') (w ++ t) := by
      have tail := ends.mono (List.suffix_append w t).isInfix
      refine (inner.mono (List.prefix_append w t).isInfix).append tail fun _ next => ?_
      simp at next
      simp [next, isJoint] at joint
    exact (gap_eq_none_iff.1 stop).2 (w ++ t) rfl (whole.closing closed)

end StyleFactor.Grammar
