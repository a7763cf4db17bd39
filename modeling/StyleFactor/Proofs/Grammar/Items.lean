import StyleFactor.Proofs.Grammar.Token
import StyleFactor.Proofs.Text.Respaced

/-!
Repetitions item by item. Selectors, values and preludes are runs of items: characters, strings,
parentheses and brackets. White space between items is an item and white space inside one does not
matter, so such a run is still one after it was trimmed or collapsed. Only brackets depend on what
comes behind: a mark that opens no string there must not find another one later. Main statement: a
run of items is one after respacing, in front of any text without new marks (`Pliant.items`).
-/
namespace StyleFactor.Grammar

open Reader Text

/-- The text consists of items, each read in front of the ones behind it and `t`. -/
inductive Items (a : Reader Char) (t : List Char) : List Char → Prop
  | nil : Items a t []
  | cons {i s : List Char} : i ≠ [] → a (i ++ (s ++ t)) = some (i, s ++ t) → Items a t s →
      Items a t (i ++ s)

section

variable {a b : Reader Char} {s s' t t' i : List Char}

theorem Items.single (nonempty : i ≠ []) (read : a (i ++ t) = some (i, t)) : Items a t i := by
  have one : Items a t (i ++ []) := .cons nonempty (by simpa using read) .nil
  rwa [List.append_nil] at one

theorem Items.append (first : Items a (s ++ t) i) (rest : Items a t s) : Items a t (i ++ s) := by
  induction first with
  | nil => exact rest
  | cons nonempty read _ ih =>
    rw [List.append_assoc]
    refine .cons nonempty ?_ ih
    rwa [List.append_assoc]

theorem items_of_many (lossless : a.Lossless id) {r : List Char} (h : a.many t = (s, r)) :
    Items a r s := by
  fun_induction Reader.many a t generalizing s r with
  | case1 t none =>
    cases h
    exact .nil
  | case2 t xs m read shorter ys r' more ih =>
    cases h
    have behind : ys ++ r' = m := by
      simpa [more] using lossless.many rfl (fun _ _ => rfl) m
    have whole : xs ++ m = t := lossless _ _ _ read
    refine .cons ?_ ?_ (ih more)
    · rintro rfl
      rw [← whole] at shorter
      exact absurd shorter (Nat.lt_irrefl _)
    · rw [behind, whole, read]
  | case3 t xs m read stuck =>
    cases h
    exact .nil

theorem Items.many (h : Items a t s) : a.many (s ++ t) = (s ++ (a.many t).1, (a.many t).2) := by
  induction h with
  | nil => rfl
  | @cons i s nonempty read _ ih =>
    have shorter : (s ++ t).length < (i ++ (s ++ t)).length := by
      have := List.length_pos_iff.2 nonempty
      simp only [List.length_append]
      omega
    rw [List.append_assoc, many_of_some read shorter, ih, List.append_assoc]

theorem Items.plus (h : Items a t s) (nonempty : s ≠ []) :
    a.plus (s ++ t) = some (s ++ (a.many t).1, (a.many t).2) := by
  cases h with
  | nil => exact absurd rfl nonempty
  | @cons i s _ read rest =>
    refine append_eq_some.2 ⟨i, s ++ t, s ++ (a.many t).1, ?_, congrArg some rest.many, ?_⟩
    · rw [List.append_assoc, read]
    · rw [List.append_assoc]

theorem Items.left (h : Items a t s) (b : Reader Char) : Items (a <|> b) t s := by
  induction h with
  | nil => exact .nil
  | cons nonempty read _ ih => exact .cons nonempty (orElse_eq_some.2 (Or.inl read)) ih

theorem Items.right (apart : ∀ u xs r, b u = some (xs, r) → a u = none) (h : Items b t s) :
    Items (a <|> b) t s := by
  induction h with
  | nil => exact .nil
  | cons nonempty read _ ih =>
    exact .cons nonempty (orElse_eq_some.2 (Or.inr ⟨apart _ _ _ read, read⟩)) ih

end

/-! Marks. -/

/-- Every mark in the first text stands in the second. -/
def NoNewMarks (t' t : List Char) : Prop := ∀ c ∈ t', isMark c = true → c ∈ t

theorem solid_of_isMark {c : Char} (mark : isMark c = true) : isBlank c = false := by
  rw [isMark, Bool.or_eq_true, beq_iff_eq, beq_iff_eq] at mark
  rcases mark with rfl | rfl <;> decide

theorem noNewMarks_nil (t : List Char) : NoNewMarks [] t := fun _ hc => nomatch hc

theorem NoNewMarks.respaced {s s' t t' : List Char} (h : NoNewMarks t' t) (same : Respaced s s') :
    NoNewMarks (s' ++ t') (s ++ t) := by
  intro c hc mark
  rcases List.mem_append.1 hc with hc | hc
  · exact List.mem_append_left t (same.mem (solid_of_isMark mark) hc)
  · exact List.mem_append_right s (h c hc mark)

theorem NoNewMarks.append {t t' : List Char} (h : NoNewMarks t' t) (s : List Char) :
    NoNewMarks (s ++ t') (s ++ t) := h.respaced (Respaced.refl s)

/-! Readers of items. -/

/-- What is read at once can be respaced, and what comes behind it be another text. -/
structure Pliant (a : Reader Char) : Prop where
  lossless : a.Lossless id
  takes : ∀ t, a t ≠ some ([], t)
  respaced : ∀ {i i' t t' : List Char}, a (i ++ t) = some (i, t) → Respaced i i' →
    NoNewMarks t' t → Items a t' i'

namespace Pliant

variable {a b : Reader Char}

theorem items (h : Pliant a) {s s' t t' : List Char} (items : Items a t s)
    (same : Respaced s s') (marks : NoNewMarks t' t) : Items a t' s' := by
  induction items generalizing s' with
  | nil =>
    cases same
    exact .nil
  | cons _ read _ ih =>
    obtain ⟨i', r, rfl, first, rest⟩ := same.split
    exact (h.respaced read first (marks.respaced rest)).append (ih rest)

theorem of_plus (h : Pliant a) {s r t : List Char} (read : a.plus t = some (s, r)) :
    s ≠ [] ∧ Items a r s := by
  obtain ⟨xs, m, ys, first, rest, rfl⟩ := append_eq_some.1 read
  have more : a.many m = (ys, r) := Option.some.inj rest
  have behind : ys ++ r = m := by
    simpa [more] using h.lossless.many rfl (fun _ _ => rfl) m
  have whole : xs ++ m = t := h.lossless _ _ _ first
  have nonempty : xs ≠ [] := by
    rintro rfl
    cases whole
    exact h.takes _ first
  refine ⟨List.append_ne_nil_of_left_ne_nil nonempty ys, .cons nonempty ?_ ?_⟩
  · rw [behind, whole, first]
  · exact items_of_many h.lossless more

theorem orElse (ha : Pliant a) (hb : Pliant b)
    (apart : ∀ u xs r, b u = some (xs, r) → a u = none) : Pliant (a <|> b) where
  lossless := ha.lossless.orElse hb.lossless
  takes t read := by
    rcases orElse_eq_some.1 read with read | ⟨-, read⟩
    · exact ha.takes t read
    · exact hb.takes t read
  respaced read same marks := by
    rcases orElse_eq_some.1 read with read | ⟨-, read⟩
    · exact (ha.respaced read same marks).left b
    · exact (hb.respaced read same marks).right apart

end Pliant

/-- What starts with one of a few signs is not read where none of them may stand. -/
theorem apart_of_starts {a b : Reader Char} {p q : Char → Bool} (signs : List Char)
    (ha : Starts p a) (hb : Starts q b) (only : ∀ c, p c = true → c ∈ signs)
    (apart : signs.any q = false) (u xs r : List Char) (read : b u = some (xs, r)) :
    a u = none := by
  obtain ⟨c, u, rfl, hc⟩ := hb _ _ _ read
  refine ha.cons (Bool.eq_false_iff.2 fun listed => ?_) u
  exact List.any_eq_false.1 apart c (only c listed) hc

theorem one_eq_some {p : Char → Bool} {s xs r : List Char} :
    one p s = some (xs, r) ↔ ∃ c, p c = true ∧ xs = [c] ∧ s = c :: r := by
  constructor
  · intro read
    obtain ⟨c, u, rfl, hc⟩ := starts_one p _ _ _ read
    rw [one, if_pos hc] at read
    cases read
    exact ⟨c, hc, rfl, rfl⟩
  · rintro ⟨c, hc, rfl, rfl⟩
    exact if_pos hc

theorem pliant_one {p : Char → Bool} (space : p ' ' = true) : Pliant (one p) where
  lossless := lossless_one p
  takes t read := by
    obtain ⟨c, -, impossible, -⟩ := one_eq_some.1 read
    cases impossible
  respaced {i i' t t'} read same _ := by
    obtain ⟨c, hc, rfl, -⟩ := one_eq_some.1 read
    rcases same.singleton with rfl | ⟨-, rfl | rfl⟩
    · exact .single (List.cons_ne_nil _ _) (if_pos hc)
    · exact .single (List.cons_ne_nil _ _) (if_pos space)
    · exact .nil

theorem string_eq_some {s i r : List Char} : string s = some (i, r) ↔
    ∃ q u, isMark q = true ∧ q ∉ u ∧ i = q :: (u ++ [q]) ∧ s = q :: (u ++ q :: r) := by
  constructor
  · intro read
    have whole : i ++ r = s := lossless_string _ _ _ read
    cases s with
    | nil => cases read
    | cons q s =>
      simp only [string] at read
      split at read
      · next mark =>
        split at read
        · cases read
        · cases read
          refine ⟨q, s.takeWhile (· != q), mark, ?_, rfl, ?_⟩
          · intro inside
            simpa using List.mem_takeWhile_imp inside
          · rw [← whole]
            simp
      · cases read
  · rintro ⟨q, u, mark, none, rfl, rfl⟩
    have before : ∀ c ∈ u, (c != q) = true := by
      intro c hc
      rw [bne_iff_ne]
      rintro rfl
      exact none hc
    have taken : (u ++ q :: r).takeWhile (· != q) = u := by
      simp [List.takeWhile_append_of_pos before]
    have left : (u ++ q :: r).dropWhile (· != q) = q :: r := by
      simp [List.dropWhile_append_of_pos before]
    simp only [string, mark, if_true, left, taken]
    rfl

theorem string_eq_none {q : Char} (mark : isMark q = true) {s : List Char} :
    string (q :: s) = none ↔ q ∉ s := by
  rw [← not_iff_not, not_not, ← ne_eq, Option.ne_none_iff_exists']
  constructor
  · rintro ⟨⟨i, r⟩, read⟩
    obtain ⟨d, u, -, -, -, same⟩ := string_eq_some.1 read
    cases same
    simp
  · intro later
    obtain ⟨u, v, rfl, first⟩ := List.eq_append_cons_of_mem later
    exact ⟨_, string_eq_some.2 ⟨q, u, mark, first, rfl, rfl⟩⟩

/-- A string is one with the white space in it dropped or written as a space, whatever follows. -/
theorem string_respaced {i i' t : List Char} (read : string (i ++ t) = some (i, t))
    (same : Respaced i i') (t' : List Char) : string (i' ++ t') = some (i', t') := by
  obtain ⟨q, u, mark, none, rfl, -⟩ := string_eq_some.1 read
  have solid := solid_of_isMark mark
  obtain ⟨v, rfl, behind⟩ := same.solid solid
  obtain ⟨u', w, rfl, inner, closing⟩ := behind.split
  obtain ⟨_, rfl, nothing⟩ := closing.solid solid
  cases nothing
  refine string_eq_some.2 ⟨q, u', mark, ?_, rfl, by simp⟩
  exact fun inside => none (inner.mem solid inside)

theorem string_takes (t : List Char) : string t ≠ some ([], t) := by
  intro read
  obtain ⟨q, u, -, -, impossible, -⟩ := string_eq_some.1 read
  cases impossible

theorem pliant_string : Pliant string where
  lossless := lossless_string
  takes := string_takes
  respaced {i i' t t'} read same _ := by
    have again := string_respaced read same t'
    refine .single ?_ again
    rintro rfl
    exact string_takes t' again

theorem ne_append_cons (u : List Char) (c : Char) (t : List Char) : t ≠ u ++ c :: t := by
  intro same
  have := congrArg List.length same
  simp only [List.length_append, List.length_cons] at this
  omega

section

variable {α : Type} (n : Nest α)

theorem inside_restrict (outer : List (List α)) (here : List α) (mark : Option Char)
    {s t : List Char} {xs : List α} (h : n.inside outer here mark (s ++ t) = some (xs, t)) :
    n.inside outer here mark s = some (xs, []) := by
  induction s generalizing outer here mark with
  | nil =>
    obtain ⟨u, longer⟩ := inside_closed n outer here mark h
    exact absurd longer (ne_append_cons u n.closing t)
  | cons c s ih =>
    simp only [List.cons_append, Nest.inside] at h ⊢
    split at h
    · exact ih _ _ _ h
    · split at h
      · next close =>
        rw [if_pos close]
        split at h
        · obtain ⟨group, behind⟩ := Prod.mk.inj (Option.some.inj h)
          rw [group, List.append_left_eq_self.1 behind]
        · exact ih _ _ _ h
      · next other =>
        rw [if_neg other]
        split at h
        · next opens =>
          rw [if_pos opens]
          exact ih _ _ _ h
        · next plain =>
          rw [if_neg plain]
          exact ih _ _ _ h

theorem read_restrict {s t : List Char} {xs : List α} (h : n.read (s ++ t) = some (xs, t)) :
    n.read s = some (xs, []) := by
  cases s with
  | nil =>
    obtain ⟨u, longer⟩ := read_closed n h
    exact absurd longer (ne_append_cons u n.closing t)
  | cons c s =>
    simp only [List.cons_append, Nest.read] at h ⊢
    split at h
    · next opens =>
      rw [if_pos opens]
      exact inside_restrict n _ _ _ h
    · cases h

variable {n} (opening : isBlank n.opening = false) (closing : isBlank n.closing = false)
include opening closing

theorem inside_of_blank {c : Char} (blank : isBlank c = true) (outer : List (List α))
    (here : List α) {mark : Option Char} (solid : ∀ q ∈ mark, isBlank q = false)
    (s : List Char) :
    n.inside outer here mark (c :: s) = n.inside outer (n.char c :: here) mark s := by
  have apart : ∀ d, isBlank d = false → c ≠ d := by
    rintro d hd rfl
    exact absurd (hd.symm.trans blank) (by decide)
  have noMark : ¬isMark c = true := fun mark => by
    cases (solid_of_isMark mark).symm.trans blank
  cases mark with
  | none =>
    rw [Nest.inside, if_neg (apart _ closing), if_neg (apart _ opening), if_neg noMark]
  | some q => rw [Nest.inside, if_neg (apart q (solid q rfl))]

/-- Whether a group is closed does not depend on the white space in it. -/
theorem inside_respaced {s s' : List Char} (same : Respaced s s') {outer outer' : List (List α)}
    (depth : outer.length = outer'.length) {here here' : List α} {mark : Option Char}
    (solid : ∀ q ∈ mark, isBlank q = false) {xs : List α}
    (h : n.inside outer here mark s = some (xs, [])) :
    ∃ ys, n.inside outer' here' mark s' = some (ys, []) := by
  induction same generalizing outer outer' here here' mark xs with
  | nil => cases h
  | space blank _ ih =>
    rw [inside_of_blank opening closing blank outer here solid] at h
    rw [inside_of_blank opening closing (by decide) outer' here' solid]
    exact ih depth solid h
  | drop blank _ ih =>
    rw [inside_of_blank opening closing blank outer here solid] at h
    exact ih depth solid h
  | @keep c s s' rest ih =>
    cases mark with
    | some q =>
      simp only [Nest.inside] at h ⊢
      refine ih depth ?_ h
      split
      · rintro q ⟨⟩
      · exact solid
    | none =>
      simp only [Nest.inside] at h ⊢
      split at h
      · next close =>
        rw [if_pos close]
        cases outer with
        | nil =>
          rw [List.length_nil, eq_comm, List.length_eq_zero_iff] at depth
          subst depth
          cases h
          cases rest
          exact ⟨_, rfl⟩
        | cons o os =>
          cases outer' with
          | nil => cases depth
          | cons o' os' => exact ih (Nat.succ.inj depth) solid h
      · next other =>
        rw [if_neg other]
        split at h
        · next opens =>
          rw [if_pos opens]
          exact ih (by simpa using depth) solid h
        · next plain =>
          rw [if_neg plain]
          refine ih depth (fun q hq => ?_) h
          split at hq
          · next mark =>
            cases hq
            exact solid_of_isMark mark
          · cases hq

end

theorem pliant_parens : Pliant parens where
  lossless := lossless_parens
  takes t read := by
    obtain ⟨u, longer⟩ := read_closed _ read
    exact ne_append_cons u ')' t longer
  respaced {i i' t t'} read same _ := by
    have closed := read_restrict _ read
    obtain ⟨c, s, rfl, hc⟩ := starts_parens _ _ _ closed
    rw [beq_iff_eq.1 hc] at closed same
    have inside : (Nest.mk '(' ')' id id).inside [] ['('] none s = some ('(' :: s, []) := closed
    obtain ⟨s', rfl, inner⟩ := same.solid (by decide)
    have noMark : ∀ q ∈ (none : Option Char), isBlank q = false := fun q hq => nomatch hq
    obtain ⟨ys, read'⟩ := inside_respaced (by decide) (by decide) inner rfl noMark inside
    have whole : parens ('(' :: s' ++ t') = some (ys, t') := inside_append _ _ _ _ read' t'
    have taken : ys = '(' :: s' := List.append_cancel_right (lossless_parens _ _ _ whole)
    exact .single (List.cons_ne_nil _ _) (taken ▸ whole)

/-- What stands in brackets. -/
def attrItem : Reader Char := string <|> noneOf [']']

theorem pliant_attrItem : Pliant attrItem where
  lossless := lossless_string.orElse (lossless_one _)
  takes t read := by
    rcases orElse_eq_some.1 read with read | ⟨-, read⟩
    · exact pliant_string.takes t read
    · obtain ⟨c, -, impossible, -⟩ := one_eq_some.1 read
      cases impossible
  respaced {i i' t t'} read same marks := by
    rcases orElse_eq_some.1 read with read | ⟨noString, read⟩
    · exact (pliant_string.respaced read same marks).left _
    · obtain ⟨c, hc, rfl, -⟩ := one_eq_some.1 read
      have alone {d : Char} (hd : outside [']'] d = true) (free : string (d :: t') = none) :
          Items attrItem t' [d] :=
        .single (List.cons_ne_nil _ _) (orElse_eq_some.2 (Or.inr ⟨free, if_pos hd⟩))
      rcases same.singleton with rfl | ⟨-, rfl | rfl⟩
      · refine alone hc ?_
        cases mark : isMark c with
        | false => exact starts_string.cons mark t'
        | true =>
          -- a mark that opens no string has no second one behind it
          exact (string_eq_none mark).2 fun later =>
            (string_eq_none mark).1 noString (marks c later mark)
      · exact alone rfl (starts_string.cons rfl t')
      · exact .nil

theorem attr_eq_some {i t : List Char} : attr (i ++ t) = some (i, t) ↔
    ∃ w, i = '[' :: (w ++ [']']) ∧ Items attrItem (']' :: t) w := by
  constructor
  · intro read
    obtain ⟨xs, m, ys, start, close, rfl⟩ := append_eq_some.1 read
    obtain ⟨zs, m', w, opening, rest, rfl⟩ := append_eq_some.1 start
    obtain ⟨c, hc, rfl, -⟩ := one_eq_some.1 opening
    obtain ⟨d, hd, rfl, rfl⟩ := one_eq_some.1 close
    rw [beq_iff_eq.1 hc, beq_iff_eq.1 hd]
    refine ⟨w, rfl, ?_⟩
    rw [← beq_iff_eq.1 hd]
    exact items_of_many pliant_attrItem.lossless (Option.some.inj rest)
  · rintro ⟨w, rfl, inner⟩
    have stop : attrItem (']' :: t) = none :=
      (starts_string.orElse (starts_one _)).cons (by decide) t
    have taken := inner.many
    rw [many_of_none stop, List.append_nil] at taken
    refine append_eq_some.2 ⟨'[' :: w, ']' :: t, [']'], ?_, rfl, rfl⟩
    refine append_eq_some.2 ⟨['['], w ++ ']' :: t, w, ?_, congrArg some taken, rfl⟩
    simp [sign, one]

theorem pliant_attr : Pliant attr where
  lossless := lossless_attr
  takes t read := by
    obtain ⟨w, impossible, -⟩ := (attr_eq_some (i := []) (t := t)).1 read
    cases impossible
  respaced {i i' t t'} read same marks := by
    obtain ⟨w, rfl, inner⟩ := attr_eq_some.1 read
    obtain ⟨v, rfl, behind⟩ := same.solid (by decide)
    obtain ⟨w', u, rfl, rest, closing⟩ := behind.split
    obtain ⟨_, rfl, nothing⟩ := closing.solid (by decide)
    cases nothing
    have inner' := pliant_attrItem.items inner rest (marks.append [']'])
    exact .single (List.cons_ne_nil _ _) (attr_eq_some.2 ⟨w', rfl, inner'⟩)

theorem mem_marks (c : Char) (mark : isMark c = true) : c ∈ ['"', '\''] := by
  simpa [isMark] using mark

theorem mem_sign (d c : Char) (same : (c == d) = true) : c ∈ [d] := by
  simpa using same

theorem pliant_noneOf {cs : List Char} (space : outside cs ' ' = true) : Pliant (noneOf cs) :=
  pliant_one space

theorem pliant_selectorItem : Pliant selectorItem := by
  have plain : Pliant (noneOf [',', '{', '}', '(', ')', '[', ';', '@', '"', '\'']) :=
    pliant_noneOf rfl
  have starts := starts_noneOf [',', '{', '}', '(', ')', '[', ';', '@', '"', '\'']
  have quoted := pliant_string.orElse plain
    (apart_of_starts _ starts_string starts mem_marks rfl)
  have bracketed := pliant_attr.orElse quoted
    (apart_of_starts _ starts_attr (starts_string.orElse starts) (mem_sign '[') rfl)
  exact pliant_parens.orElse bracketed
    (apart_of_starts _ starts_parens (starts_attr.orElse (starts_string.orElse starts))
      (mem_sign '(') rfl)

/-- Strings, parentheses, and other characters but those that are listed. -/
theorem pliant_string_orElse {cs : List Char} (space : outside cs ' ' = true)
    (marks : ['"', '\''].any (outside cs) = false) (opening : outside cs '(' = false) :
    Pliant (string <|> parens <|> noneOf cs) := by
  have grouped := pliant_parens.orElse (pliant_noneOf space)
    (apart_of_starts _ starts_parens (starts_noneOf cs) (mem_sign '(') (by simp [opening]))
  refine pliant_string.orElse grouped
    (apart_of_starts _ starts_string (starts_parens.orElse (starts_noneOf cs)) mem_marks ?_)
  simpa using marks

theorem pliant_valueItem : Pliant valueItem := pliant_string_orElse rfl rfl rfl

theorem pliant_preludeItem : Pliant preludeItem := pliant_string_orElse rfl rfl rfl

/-! Texts that are taken whole by themselves once they were in front of others. -/

section

variable {s t : List Char}

theorem entire_of_items {a : Reader Char} (h : Items a [] s) (nonempty : s ≠ [])
    (stop : a [] = none) : Entire a.plus s := by
  have read := h.plus nonempty
  rw [List.append_nil, many_of_none stop, List.append_nil] at read
  exact ⟨s, read⟩

theorem entire_trim (read : valueText (s ++ t) = some (s, t)) (nonempty : trim s ≠ []) :
    Entire valueText (trim s) :=
  entire_of_items (pliant_valueItem.items (pliant_valueItem.of_plus read).2 (respaced_trim s)
    (noNewMarks_nil t)) nonempty starts_valueItem.nil

theorem entire_collapse (read : preludeText (s ++ t) = some (s, t)) :
    Entire preludeText (collapse s) := by
  have items := items_of_many pliant_preludeItem.lossless (Option.some.inj read)
  have alone := (pliant_preludeItem.items items (respaced_collapse s) (noNewMarks_nil t)).many
  rw [List.append_nil, many_of_none starts_preludeItem.nil, List.append_nil] at alone
  exact ⟨_, congrArg some alone⟩

theorem entire_collapse_selector (read : selector (s ++ t) = some (s, t))
    (nonempty : collapse s ≠ []) : Entire selector (collapse s) :=
  entire_of_items (pliant_selectorItem.items (pliant_selectorItem.of_plus read).2
    (respaced_collapse s) (noNewMarks_nil t)) nonempty starts_selectorItem.nil

theorem many_one_restrict {p : Char → Bool} (read : (one p).many (s ++ t) = (s, t)) :
    (one p).many s = (s, []) := by
  have inside : ∀ d ∈ s, p d = true := by
    have all := mem_many_one (p := p) (s ++ t)
    rwa [read] at all
  have alone := many_one (t := []) inside fun d hd => nomatch hd
  rwa [List.append_nil] at alone

theorem entire_name (read : name (s ++ t) = some (s, t)) : Entire name s := by
  obtain ⟨xs, m, ys, first, rest, rfl⟩ := append_eq_some.1 read
  obtain ⟨c, hc, rfl, whole⟩ := one_eq_some.1 first
  have behind : m = ys ++ t := (List.cons.inj whole).2.symm
  rw [behind] at rest
  have alone := many_one_restrict (Option.some.inj rest)
  exact ⟨c :: ys, append_eq_some.2 ⟨[c], ys, ys, if_pos hc, congrArg some alone, rfl⟩⟩

theorem entire_propertyText (read : propertyText (s ++ t) = some (s, t)) :
    Entire propertyText s := by
  obtain ⟨xs, m, ys, hack, rest, rfl⟩ := append_eq_some.1 read
  have behind : m = ys ++ t := (lossless_name _ _ _ rest).symm
  rw [behind] at rest hack
  obtain ⟨zs, named⟩ := entire_name rest
  rcases orElse_eq_some.1 hack with hack | ⟨plain, nothing⟩
  · obtain ⟨c, hc, rfl, -⟩ := one_eq_some.1 hack
    have first : (one ['*', '_'].contains).opt (c :: ys) = some ([c], ys) :=
      orElse_eq_some.2 (Or.inl (if_pos hc))
    exact ⟨_, append_eq_some.2 ⟨[c], ys, zs, first, named, rfl⟩⟩
  · cases nothing
    obtain ⟨c, ys, rfl, -⟩ := (starts_one _).append _ _ _ _ named
    have still : one ['*', '_'].contains (c :: ys) = none := by
      simpa [one] using plain
    have first : (one ['*', '_'].contains).opt (c :: ys) = some ([], c :: ys) :=
      orElse_eq_some.2 (Or.inr ⟨still, rfl⟩)
    exact ⟨_, append_eq_some.2 ⟨[], c :: ys, zs, first, named, rfl⟩⟩

end

end StyleFactor.Grammar
