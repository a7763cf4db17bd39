import StyleFactor.Proofs.Grammar.Ends

/-!
Elements that are written one behind another, such as the selectors of a rule and the declarations
of a block: each but the first has a sign and white space in front of it, the last has an ending of
its own. Whether an element is read back depends on the text behind it, and so does whether it can
take the place of the text it was read from.
-/
namespace StyleFactor

open Grammar

/-- All white space in the text is such as may stand between tokens. -/
def PlainSpaces (s : List Char) : Prop := ∀ c ∈ s, Text.isBlank c = true → isSpace c = true

/-- The text is not empty, and in front of `t` nothing is skipped at its start. -/
def Unskipped (s : String) (t : List Char) : Prop :=
  s.toList ≠ [] ∧ gap (s.toList ++ t) = none

theorem PlainSpaces.mono {s x : List Char} (h : PlainSpaces x) (inside : s <:+: x) :
    PlainSpaces s := fun c hc => h c (inside.mem hc)

structure Listing (α : Type) where
  chars : α → List Char
  /-- What reading an element trims. -/
  text : α → String
  /-- What it takes to read an element back in front of a text. -/
  Fits : α → List Char → Prop
  sign : Char
  space : List Char
  last : List Char
  stop : Char

namespace Listing

variable {α : Type} (k : Listing α)

/-- What is written behind an element: the others, each behind the sign. -/
def more : List α → List Char
  | [] => k.last
  | a :: as => k.sign :: k.space ++ (k.chars a ++ more as)

/-- Every element has the property in front of what is written behind it. -/
def EachInFront (p : α → List Char → Prop) : List α → List Char → Prop
  | [], _ => True
  | a :: as, t => p a (k.more as ++ t) ∧ EachInFront p as t

def FitAll (as : List α) (t : List Char) : Prop := k.EachInFront k.Fits as t

def AllUnskipped (as : List α) (t : List Char) : Prop :=
  k.EachInFront (fun a => Unskipped (k.text a)) as t

/-- What stands behind an element can neither end a comment or a string nor help to. -/
structure Joined : Prop where
  sign : isJoint k.sign = true
  space : ∀ c ∈ k.space, isSpace c = true
  last : ∀ t, ∃ c u, k.last ++ k.stop :: t = c :: u ∧ isJoint c = true

/-- The element can be written in the place of `s`, which stands in front of `t`. -/
structure Replaces (a : α) (s t : List Char) : Prop where
  fits : ∀ c t', isJoint c = true → NoNewEnds (c :: t') t →
    PlainSpaces s ∨ Unskipped (k.text a) (c :: t') → k.Fits a (c :: t')
  ends : NoNewEnds (k.chars a) s

/-- The elements can be written in the place of `s`, which stands in front of `t`: no new ends come
about, and they fit unless trimming has spoilt one. -/
def ReplaceAll (as : List α) (s t : List Char) : Prop :=
  ∀ t', NoNewEnds (k.stop :: t') t → NoNewEnds (k.more as ++ k.stop :: t') (s ++ t) ∧
    (PlainSpaces s ∨ k.AllUnskipped as (k.stop :: t') → k.FitAll as (k.stop :: t'))

variable {k} {a : α} {as : List α} {s t : List Char}

theorem more_append (h : k.Joined) (as : List α) (t : List Char) :
    ∃ c u, k.more as ++ k.stop :: t = c :: u ∧ isJoint c = true := by
  cases as with
  | nil => exact h.last t
  | cons a as => exact ⟨k.sign, _, rfl, h.sign⟩

theorem fitAll_of_forall (h : k.Joined)
    (fits : ∀ a ∈ as, ∀ c u, isJoint c = true → k.Fits a (c :: u)) (t : List Char) :
    k.FitAll as (k.stop :: t) := by
  induction as with
  | nil => trivial
  | cons a as ih =>
    obtain ⟨first, others⟩ := List.forall_mem_cons.1 fits
    obtain ⟨c, u, same, joint⟩ := more_append h as t
    refine ⟨?_, ih others⟩
    rw [same]
    exact first c u joint

theorem more_map {f : α → α} (chars : ∀ a, k.chars (f a) = k.chars a) (as : List α) :
    k.more (as.map f) = k.more as := by
  induction as with
  | nil => rfl
  | cons a as ih => rw [List.map_cons, more, more, chars, ih]

theorem allUnskipped_map {f : α → α} (chars : ∀ a, k.chars (f a) = k.chars a)
    (text : ∀ a, k.text (f a) = k.text a) (as : List α) (t : List Char) :
    k.AllUnskipped (as.map f) t ↔ k.AllUnskipped as t := by
  induction as with
  | nil => rfl
  | cons a as ih =>
    rw [AllUnskipped, List.map_cons, EachInFront, more_map chars, text]
    exact and_congr_right' ih

theorem ReplaceAll.behind (h : k.ReplaceAll as s t) (w : List Char) :
    k.ReplaceAll as (w ++ s) t := by
  intro t' ends
  obtain ⟨text, fit⟩ := h t' ends
  refine ⟨text.mono ⟨w, [], by simp⟩, fun plain => fit (plain.imp_left fun p => p.mono ?_)⟩
  exact (List.suffix_append w s).isInfix

theorem ReplaceAll.cons (h : k.Joined) (rest : k.ReplaceAll as s t) {u : List Char}
    (first : k.Replaces a u (s ++ t)) : k.ReplaceAll (a :: as) (u ++ s) t := by
  intro t' ends
  obtain ⟨text, fit⟩ := rest t' ends
  obtain ⟨c, v, same, joint⟩ := more_append h as t'
  refine ⟨?_, fun plain => ⟨?_, ?_⟩⟩
  · have behind := text.mono (List.suffix_append u (s ++ t)).isInfix
    rw [same] at behind
    have here := first.ends.mono (List.prefix_append u (s ++ t)).isInfix
    have both := here.append behind fun _ next => by
      obtain rfl : c = '/' := by simpa using next
      cases joint
    have whole := (both.append_space h.space).cons h.sign
    simpa [more, same] using whole
  · have plain := plain.imp (·.mono (List.prefix_append u s).isInfix) (·.1)
    rw [same] at text plain ⊢
    exact first.fits c v joint text plain
  · exact fit (plain.imp (·.mono (List.suffix_append u s).isInfix) (·.2))

end Listing

end StyleFactor
