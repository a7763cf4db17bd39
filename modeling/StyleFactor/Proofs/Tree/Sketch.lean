import StyleFactor.Tree.Node

/-!
Trees without their offsets. What the fragments of a text look like in a tree, offsets apart,
depends on the fragments alone, so a piece of a text can be judged by itself and then put where it
stands.
-/
namespace StyleFactor

open Grammar

section

variable (tag : String) (start stop : Int) (str : List Char) (children : List Node)

@[simp] theorem tag_mk : (Node.mk tag start stop str children).tag = tag := rfl

@[simp] theorem str_mk : (Node.mk tag start stop str children).str = str := rfl

@[simp] theorem children_mk : (Node.mk tag start stop str children).children = children := rfl

end

mutual

def Node.unplaced : Node → Node
  | .mk tag _ _ str cs => .mk tag 0 0 str (unplacedAll cs)

def Node.unplacedAll : List Node → List Node
  | [] => []
  | c :: cs => c.unplaced :: unplacedAll cs

end

mutual

/-- The node of a fragment without offsets: bare characters have none. -/
def Grammar.Fragment.sketch : Fragment → List Node
  | .text _ => []
  | .node tag ps => [.mk tag 0 0 (charsOf ps) (sketches ps)]

def sketches : List Fragment → List Node
  | [] => []
  | p :: ps => p.sketch ++ sketches ps

end

theorem unplacedAll_eq_map (cs : List Node) : Node.unplacedAll cs = cs.map Node.unplaced := by
  induction cs with
  | nil => rfl
  | cons c cs ih => rw [Node.unplacedAll, ih, List.map_cons]

@[simp] theorem tag_unplaced (n : Node) : n.unplaced.tag = n.tag := by
  cases n
  rfl

@[simp] theorem str_unplaced (n : Node) : n.unplaced.str = n.str := by
  cases n
  rfl

@[simp] theorem children_unplaced (n : Node) :
    n.unplaced.children = n.children.map Node.unplaced := by
  cases n
  exact unplacedAll_eq_map _

theorem sketches_append (ps qs : List Fragment) :
    sketches (ps ++ qs) = sketches ps ++ sketches qs := by
  induction ps with
  | nil => rfl
  | cons p ps ih => rw [List.cons_append, sketches, ih, sketches, List.append_assoc]

mutual

theorem unplaced_spans {text before behind : List Char} : (p : Fragment) →
    text = before ++ p.chars ++ behind →
    ((p.spans before.length).map (Node.ofSpan text)).map Node.unplaced = p.sketch
  | .text _, _ => rfl
  | .node tag ps, h => by
    have inner := unplaced_spansOf ps h
    have piece : Text.slice text before.length (before.length + widthOf ps : Nat) = charsOf ps := by
      rw [h, widthOf_eq]
      exact Text.slice_between before (charsOf ps) behind
    simp only [Fragment.spans, List.map_cons, List.map_nil, Node.ofSpan, Node.unplaced, piece,
      unplacedAll_eq_map, ofSpans_eq_map, inner, Fragment.sketch]

theorem unplaced_spansOf {text before behind : List Char} : (ps : List Fragment) →
    text = before ++ charsOf ps ++ behind →
    ((spansOf before.length ps).map (Node.ofSpan text)).map Node.unplaced = sketches ps
  | [], _ => rfl
  | p :: ps, h => by
    have here : text = before ++ p.chars ++ (charsOf ps ++ behind) := by simp [h]
    have there : text = (before ++ p.chars) ++ charsOf ps ++ behind := by simp [h]
    have first := unplaced_spans p here
    have rest := unplaced_spansOf ps there
    have width : (before ++ p.chars).length = before.length + p.width := by
      rw [List.length_append, p.width_eq]
    rw [width] at rest
    rw [spansOf, List.map_append, List.map_append, first, rest, sketches]

end

theorem unplaced_ofSpans {text : List Char} {ps : List Fragment} (h : charsOf ps = text) :
    (Node.ofSpans text (spansOf 0 ps)).map Node.unplaced = sketches ps := by
  have whole : text = [] ++ charsOf ps ++ [] := by simp [h]
  rw [ofSpans_eq_map]
  exact unplaced_spansOf ps whole

end StyleFactor
