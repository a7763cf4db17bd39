import StyleFactor.Proofs.Grammar.Nesting
import StyleFactor.Proofs.Sheet.Places
import StyleFactor.Proofs.Tree.Derivation

/-!
Where the groups of a text stand. A group starts where the one before it at the top of the tree has
ended, and those inside a group come one behind the other between its ends. Main statement: the tree
of a text tiles what was read of it (`nodes_tile`).
-/
namespace StyleFactor

open Grammar Grammar.Reader

/-! Ranges of offsets. -/

/-- Between two offsets the ranges come one behind the other. -/
def InOrder : Int → List (Int × Int) → Int → Prop
  | a, [], b => a ≤ b
  | a, r :: rs, b => a ≤ r.1 ∧ r.1 ≤ r.2 ∧ InOrder r.2 rs b

/-- Each range takes something, starts where the one before it ends, and the last ends at the
second offset. -/
def Tiles : Int → List (Int × Int) → Int → Prop
  | a, [], b => a = b
  | a, r :: rs, b => a = r.1 ∧ r.1 < r.2 ∧ Tiles r.2 rs b

section

variable {a a' b b' : Int} {rs rs' : List (Int × Int)}

theorem InOrder.le (h : InOrder a rs b) : a ≤ b := by
  induction rs generalizing a with
  | nil => exact h
  | cons r rs ih =>
    obtain ⟨start, stop, rest⟩ := h
    have last := ih rest
    omega

theorem InOrder.widen (h : InOrder a rs b) (start : a' ≤ a) (stop : b ≤ b') :
    InOrder a' rs b' := by
  induction rs generalizing a a' with
  | nil => exact Int.le_trans start (Int.le_trans h stop)
  | cons r rs ih => exact ⟨Int.le_trans start h.1, h.2.1, ih h.2.2 (Int.le_refl _)⟩

theorem InOrder.sublist (h : InOrder a rs b) (sub : rs'.Sublist rs) : InOrder a rs' b := by
  induction sub generalizing a with
  | slnil => exact h
  | cons r _ ih => exact ih (h.2.2.widen (Int.le_trans h.1 h.2.1) (Int.le_refl b))
  | cons_cons r _ ih => exact ⟨h.1, h.2.1, ih h.2.2⟩

theorem InOrder.mem (h : InOrder a rs b) {r : Int × Int} (hr : r ∈ rs) :
    a ≤ r.1 ∧ r.1 ≤ r.2 ∧ r.2 ≤ b := by
  have alone : InOrder a [r] b := h.sublist (List.singleton_sublist.2 hr)
  exact alone

theorem Tiles.inOrder (h : Tiles a rs b) : InOrder a rs b := by
  induction rs generalizing a with
  | nil => exact Int.le_of_eq h
  | cons r rs ih => exact ⟨Int.le_of_eq h.1, Int.le_of_lt h.2.1, ih h.2.2⟩

theorem Text.slice_append (text : List Char) (start : 0 ≤ a) (stop : a ≤ b) (more : b ≤ b') :
    slice text a b ++ slice text b b' = slice text a b' := by
  obtain ⟨i, rfl⟩ := Int.eq_ofNat_of_zero_le start
  obtain ⟨j, rfl⟩ := Int.eq_ofNat_of_zero_le (Int.le_trans start stop)
  obtain ⟨k, rfl⟩ := Int.eq_ofNat_of_zero_le (Int.le_trans start (Int.le_trans stop more))
  have middle : i + (j - i) = j := by omega
  have whole : k - i = (j - i) + (k - j) := by omega
  rw [slice_natCast, slice_natCast, slice_natCast, whole, List.take_add, List.drop_drop, middle]

/-- What stands in the ranges is, one behind the other, what stands between the two offsets. -/
theorem Tiles.flatMap_slice (text : List Char) (start : 0 ≤ a) (h : Tiles a rs b) :
    (rs.flatMap fun r => Text.slice text r.1 r.2) = Text.slice text a b := by
  induction rs generalizing a with
  | nil =>
    obtain rfl := h
    simp [Text.slice]
  | cons r rs ih =>
    obtain ⟨rfl, wide, rest⟩ := h
    have wide := Int.le_of_lt wide
    rw [List.flatMap_cons, ih (Int.le_trans start wide) rest]
    exact Text.slice_append text start wide rest.inOrder.le

end

/-! Nodes. -/

def Span.range (s : Span) : Int × Int := (s.start, s.stop)

namespace Node

def range (n : Node) : Int × Int := (n.start, n.stop)

mutual

/-- The group without its text. -/
def span : Node → Span
  | .mk tag start stop _ cs => .mk tag start stop (spans cs)

def spans : List Node → List Span
  | [] => []
  | c :: cs => c.span :: spans cs

end

/-- So it is with the node and with every one below it. -/
inductive Throughout (P : Node → Prop) : Node → Prop
  | mk {n : Node} : P n → (∀ c ∈ n.children, c.Throughout P) → Throughout P n

theorem Throughout.here {P : Node → Prop} {n : Node} (h : n.Throughout P) : P n := by
  cases h with
  | mk here _ => exact here

theorem Throughout.child {P : Node → Prop} {n : Node} (h : n.Throughout P) {c : Node}
    (hc : c ∈ n.children) : c.Throughout P := by
  cases h with
  | mk _ below => exact below c hc

/-- The children stand inside, in order and apart. -/
def Nested (n : Node) : Prop := InOrder n.start (n.children.map range) n.stop

/-- The node holds what stands at its place. -/
def Sliced (text : List Char) (n : Node) : Prop := n.str = Text.slice text n.start n.stop

end Node

mutual

theorem span_ofSpan (text : List Char) : (s : Span) → (Node.ofSpan text s).span = s
  | .mk tag start stop cs => by rw [Node.ofSpan, Node.span, spans_ofSpans text cs]

theorem spans_ofSpans (text : List Char) : (cs : List Span) →
    Node.spans (Node.ofSpans text cs) = cs
  | [] => rfl
  | c :: cs => by rw [Node.ofSpans, Node.spans, span_ofSpan text c, spans_ofSpans text cs]

end

mutual

theorem sliced_ofSpan (text : List Char) : (s : Span) →
    (Node.ofSpan text s).Throughout (Node.Sliced text)
  | .mk _ _ _ cs => .mk rfl (sliced_ofSpans text cs)

theorem sliced_ofSpans (text : List Char) : (cs : List Span) →
    ∀ n ∈ Node.ofSpans text cs, n.Throughout (Node.Sliced text)
  | [] => List.forall_mem_nil _
  | c :: cs => List.forall_mem_cons.2 ⟨sliced_ofSpan text c, sliced_ofSpans text cs⟩

end

theorem spans_eq_map (cs : List Node) : Node.spans cs = cs.map Node.span := by
  induction cs with
  | nil => rfl
  | cons c cs ih => rw [Node.spans, ih, List.map_cons]

theorem ofSpans_append (text : List Char) (cs ds : List Span) :
    Node.ofSpans text (cs ++ ds) = Node.ofSpans text cs ++ Node.ofSpans text ds := by
  rw [ofSpans_eq_map, ofSpans_eq_map, ofSpans_eq_map, List.map_append]

theorem range_ofSpan (text : List Char) (s : Span) : (Node.ofSpan text s).range = s.range := by
  cases s
  rfl

theorem map_range_ofSpans (text : List Char) (cs : List Span) :
    (Node.ofSpans text cs).map Node.range = cs.map Span.range := by
  rw [ofSpans_eq_map, List.map_map]
  exact List.map_congr_left fun s _ => range_ofSpan text s

/-! Groups of fragments. -/

theorem inOrder_spansOf (k : Nat) (ps : List Fragment) :
    InOrder k ((spansOf k ps).map Span.range) (k + widthOf ps : Nat) := by
  induction ps generalizing k with
  | nil => exact Int.le_refl _
  | cons p ps ih =>
    have rest := ih (k + p.width)
    rw [Nat.add_assoc] at rest
    cases p with
    | text cs => exact rest.widen (by omega) (Int.le_refl _)
    | node tag qs => exact ⟨Int.le_refl _, Int.ofNat_le.2 (Nat.le_add_right _ _), rest⟩

mutual

theorem nested_spans (text : List Char) (k : Nat) : (p : Fragment) →
    ∀ n ∈ Node.ofSpans text (p.spans k), n.Throughout Node.Nested
  | .text _ => List.forall_mem_nil _
  | .node tag ps => by
    have inside : InOrder k ((Node.ofSpans text (spansOf k ps)).map Node.range)
        (k + widthOf ps : Nat) := by
      rw [map_range_ofSpans]
      exact inOrder_spansOf k ps
    exact List.forall_mem_singleton.2 (.mk inside (nested_spansOf text k ps))

theorem nested_spansOf (text : List Char) (k : Nat) : (ps : List Fragment) →
    ∀ n ∈ Node.ofSpans text (spansOf k ps), n.Throughout Node.Nested
  | [] => List.forall_mem_nil _
  | p :: ps => by
    rw [spansOf, ofSpans_append]
    exact List.forall_mem_append.2 ⟨nested_spans text k p, nested_spansOf text _ ps⟩

end

/-- Groups that take something each, with nothing between them. -/
theorem tiles_spansOf {ps : List Fragment} (k : Nat)
    (groups : ∀ p ∈ ps, 0 < p.width ∧ ∃ tag qs, p = .node tag qs) :
    Tiles k ((spansOf k ps).map Span.range) (k + widthOf ps : Nat) := by
  induction ps generalizing k with
  | nil => rfl
  | cons p ps ih =>
    obtain ⟨⟨wide, tag, qs, rfl⟩, others⟩ := List.forall_mem_cons.1 groups
    have rest := ih (k + widthOf qs) others
    rw [Nat.add_assoc] at rest
    have wide : 0 < widthOf qs := wide
    exact ⟨rfl, Int.ofNat_lt.2 (Nat.lt_add_of_pos_right wide), rest⟩

/-! Whole texts. -/

theorem next_eq_widthOf (text : List Char) : (Sheet.spans text).2 = widthOf (css text).1 := by
  have whole := congrArg List.length (css_append text)
  rw [List.length_append, ← widthOf_eq] at whole
  have next : (Sheet.spans text).2 = text.length - (css text).2.length := rfl
  omega

theorem tiles_nodes (text : List Char) :
    Tiles 0 ((Sheet.nodes text).map Node.range) (Sheet.spans text).2 := by
  have groups : ∀ p ∈ (css text).1, 0 < p.width ∧ ∃ tag qs, p = .node tag qs := by
    intro p hp
    obtain ⟨wide, q, rfl, -⟩ := topmost_many text p hp
    exact ⟨wide, "toplevel", [q], rfl⟩
  have tiles := tiles_spansOf 0 groups
  rw [Nat.zero_add, ← next_eq_widthOf] at tiles
  rw [Sheet.nodes, map_range_ofSpans]
  exact tiles

/-- Repetition goes on until it fails, and nothing else stops it, neither at the top of a text nor
inside a production. The nodes it leaves at the top follow each other from the start of the text up
to where reading stopped; in each, and in all those below it, the children stand in order and apart,
and the text of a node is what stands at its place. -/
theorem nodes_tile (text : List Char) :
    toplevel.Repeated text (css text) ∧
      (∀ a ∈ repeatedProductions, ∀ s, a.Repeated s (a.many s)) ∧
      (∀ a ∈ repeatedItems, ∀ s, a.Repeated s (a.many s)) ∧
      (Sheet.spans text).2 + (css text).2.length = text.length ∧
      (Sheet.nodes text).map Node.span = (Sheet.spans text).1 ∧
      (∀ n ∈ Sheet.nodes text, n.tag = "toplevel") ∧
      Tiles 0 ((Sheet.nodes text).map Node.range) (Sheet.spans text).2 ∧
      (Sheet.nodes text).flatMap Node.str = text.take (Sheet.spans text).2 ∧
      ∀ n ∈ Sheet.nodes text, n.Throughout Node.Nested ∧ n.Throughout (Node.Sliced text) := by
  have sliced := sliced_ofSpans text (Sheet.spans text).1
  have tiles := tiles_nodes text
  refine ⟨advances_toplevel.repeated_iff.2 rfl, fun a ha s => (repeated_productions a ha s _).2 rfl,
    fun a ha s => (repeated_items a ha s _).2 rfl, ?_, ?_, ?_, tiles, ?_, fun n hn => ⟨?_, ?_⟩⟩
  · have next : (Sheet.spans text).2 = text.length - (css text).2.length := rfl
    have shorter := length_left_le text
    omega
  · rw [← spans_eq_map]
    exact spans_ofSpans text _
  · exact fun n hn => (derived_spans text n hn).1
  · have pieces : (Sheet.nodes text).flatMap Node.str =
        (Sheet.nodes text).flatMap fun n => Text.slice text n.start n.stop :=
      List.flatMap_congr fun n hn => (sliced n hn).here
    have whole := tiles.flatMap_slice text (Int.le_refl 0)
    rw [List.flatMap_map] at whole
    rw [pieces]
    exact whole.trans (Text.slice_natCast text 0 _)
  · exact nested_spansOf text 0 (css text).1 n hn
  · exact sliced n hn

end StyleFactor
