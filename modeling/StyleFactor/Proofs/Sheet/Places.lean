import StyleFactor.Proofs.Sheet.Unplaced

/-!
Where the entries of a sheet stand. Each starts where the group around it at the top of the tree
does; these groups take something each, so their starts grow, and no two offsets have one marker.
Main statement: no two entries of a sheet that was read are the same (`nodup_rules`).
-/
namespace StyleFactor

open Grammar Grammar.Reader

theorem Text.locate_inj {starts : List Nat} {a b : Int} :
    Text.locate starts a = Text.locate starts b ↔ a = b := by
  refine ⟨fun same => ?_, fun same => same ▸ rfl⟩
  simp only [Text.locate, Text.Marker.mk.injEq] at same
  obtain ⟨line, column⟩ := same
  -- one line means as many starts at or before both offsets, and these are one prefix of the starts
  have first := List.takeWhile_prefix (l := starts) fun (start : Nat) => decide ((start : Int) ≤ a)
  have second := List.takeWhile_prefix (l := starts) fun (start : Nat) => decide ((start : Int) ≤ b)
  have reached := (List.prefix_of_prefix_length_le first second (by omega)).eq_of_length (by omega)
  rw [reached] at column
  omega

namespace Grammar

/-- What a sheet holds at its top: white space or a comment, an at-rule, or a rule. -/
inductive Topmost : Fragment → Prop
  | gap (tag : String) (ps : List Fragment) : Topmost (.node "s" [.node tag ps])
  | atRule (tag : String) (ps : List Fragment) : tag ∈ ["fontface", "atblock", "atstatement"] →
      Topmost (.node "atrule" [.node tag ps])
  | rule (ps : List Fragment) : Topmost (.node "rule" ps)

variable {s r : List Char} {ps : List Fragment}

theorem node_eq_some {tag : String} {a : Reader Fragment} :
    node tag a s = some (ps, r) ↔ ∃ qs, a s = some (qs, r) ∧ [.node tag qs] = ps :=
  map_eq_some

theorem topmost_gap (read : gap s = some (ps, r)) : ∃ p, ps = [p] ∧ Topmost p := by
  obtain ⟨qs, inner, rfl⟩ := node_eq_some.1 read
  rcases orElse_eq_some.1 inner with inner | ⟨-, inner⟩
  all_goals
    obtain ⟨us, -, rfl⟩ := node_eq_some.1 inner
    exact ⟨_, rfl, .gap _ us⟩

theorem topmost_atrule (read : atrule s = some (ps, r)) : ∃ p, ps = [p] ∧ Topmost p := by
  obtain ⟨qs, inner, rfl⟩ := node_eq_some.1 read
  rcases orElse_eq_some.1 inner with face | ⟨-, other⟩
  · obtain ⟨us, -, rfl⟩ := node_eq_some.1 face
    exact ⟨_, rfl, .atRule _ us (by decide)⟩
  · rcases orElse_eq_some.1 other with block | ⟨-, statement⟩
    · obtain ⟨us, -, rfl⟩ := node_eq_some.1 block
      exact ⟨_, rfl, .atRule _ us (by decide)⟩
    · obtain ⟨us, -, rfl⟩ := node_eq_some.1 statement
      exact ⟨_, rfl, .atRule _ us (by decide)⟩

theorem topmost_toplevel (read : toplevel s = some (ps, r)) :
    ∃ p, ps = [.node "toplevel" [p]] ∧ Topmost p := by
  obtain ⟨qs, inner, rfl⟩ := node_eq_some.1 read
  obtain ⟨p, rfl, top⟩ : ∃ p, qs = [p] ∧ Topmost p := by
    rcases orElse_eq_some.1 inner with space | ⟨-, other⟩
    · exact topmost_gap space
    · rcases orElse_eq_some.1 other with ruled | ⟨-, named⟩
      · exact topmost_atrule ruled
      · obtain ⟨us, -, rfl⟩ := node_eq_some.1 named
        exact ⟨_, rfl, .rule us⟩
  exact ⟨p, rfl, top⟩

/-- Repetition stops at what takes nothing, so each part takes something. -/
theorem topmost_many (s : List Char) : ∀ p ∈ (toplevel.many s).1,
    0 < p.width ∧ ∃ q, p = .node "toplevel" [q] ∧ Topmost q := by
  fun_induction Reader.many toplevel s with
  | case1 s stop => exact List.forall_mem_nil _
  | case2 s ps m first shorter qs r rest ih =>
    rw [rest] at ih
    obtain ⟨q, rfl, top⟩ := topmost_toplevel first
    have size := congrArg List.length (keeps_toplevel s _ m first)
    rw [List.length_append, charsOf_cons, charsOf_nil, List.append_nil, ← Fragment.width_eq] at size
    exact List.forall_mem_cons.2 ⟨⟨by omega, q, rfl, top⟩, ih⟩
  | case3 s ps m first stuck => exact List.forall_mem_nil _

end Grammar

def Entry.position : Entry → Option Position
  | .rule r => r.position
  | .fontFace f => f.position
  | .atRule a => a.position
  | .comment c => c.position
  | .whitespace _ => none

section

variable {o : Origin} {n : Node}

theorem position_rule {r : Rule} (read : Rule.ofNode o n = .ok r) :
    r.position = some (o.position n) := by
  obtain ⟨sels, -, rest⟩ := bind_eq_ok.1 read
  obtain ⟨ds, -, made⟩ := bind_eq_ok.1 rest
  cases made
  rfl

theorem position_fontFace {f : FontFace} (read : FontFace.ofNode o n = .ok f) :
    f.position = some (o.position n) := by
  obtain ⟨ds, -, made⟩ := bind_eq_ok.1 read
  cases made
  rfl

theorem position_atRule {a : AtRule} (read : AtRule.ofNode o n = .ok a) :
    a.position = some (o.position n) := by
  obtain ⟨name, -, made⟩ := bind_eq_ok.1 read
  cases made
  rfl

theorem position_ofInner {e : Entry} (read : Entry.ofInner o n = .ok e)
    (kind : n.tag ∈ ["rule", "fontface", "atblock", "atstatement"]) :
    e.position = some (o.position n) := by
  simp only [Entry.ofInner, beq_iff_eq, Bool.or_eq_true] at read
  split at read
  · obtain ⟨r, rule, made⟩ := bind_eq_ok.1 read
    cases made
    exact position_rule rule
  · split at read
    · obtain ⟨f, face, made⟩ := bind_eq_ok.1 read
      cases made
      exact position_fontFace face
    · split at read
      · obtain ⟨a, named, made⟩ := bind_eq_ok.1 read
        cases made
        exact position_atRule named
      · simp_all

end

/-- The entry is white space, or starts at this offset. -/
def Entry.StartsAt (o : Origin) (k : Nat) (e : Entry) : Prop :=
  e.isWhitespace ∨ e.position.map (·.start) = some (Text.locate o.lines k)

section

variable {o : Origin} {text : List Char} {k : Nat} {n : Node} {e : Entry}

theorem of_first {m : Node} {tag : String} {ps : List Fragment} (first : n.first = .ok m)
    (holds : n.children = Node.ofSpans text (spansOf k [.node tag ps])) :
    m.tag = tag ∧ m.start = k ∧ m.children = Node.ofSpans text (spansOf k ps) := by
  simp only [spansOf, Fragment.spans, List.append_nil, Node.ofSpans, Node.ofSpan] at holds
  rw [Node.first, holds] at first
  cases first
  exact ⟨rfl, rfl, rfl⟩

theorem startsAt_of_position {m : Node} (start : m.start = k)
    (position : e.position = some (o.position m)) : e.StartsAt o k := by
  right
  rw [position, Option.map_some, Origin.position, start]

theorem startsAt_of_topmost {p : Fragment} (top : Topmost p)
    (holds : n.children = Node.ofSpans text (spansOf k [p]))
    (read : (n.first >>= Entry.ofNode o) = .ok e) : e.StartsAt o k := by
  obtain ⟨m, first, read⟩ := bind_eq_ok.1 read
  rw [ofNode_eq_ofInner] at read
  obtain ⟨i, inner, read⟩ := bind_eq_ok.1 read
  cases top with
  | gap tag ps =>
    obtain ⟨kind, -, inside⟩ := of_first first holds
    simp only [kind] at inner
    cases inner
    simp only [Entry.ofInner, kind] at read
    obtain ⟨c, below, read⟩ := bind_eq_ok.1 read
    obtain ⟨-, start, -⟩ := of_first below inside
    split at read
    · cases read
      exact startsAt_of_position start rfl
    · cases read
      exact .inl rfl
  | atRule tag ps kind =>
    obtain ⟨ruled, -, inside⟩ := of_first first holds
    simp only [ruled, beq_self_eq_true, if_true] at inner
    obtain ⟨same, start, -⟩ := of_first inner inside
    have sub : ["fontface", "atblock", "atstatement"] ⊆
        ["rule", "fontface", "atblock", "atstatement"] := by decide
    exact startsAt_of_position start (position_ofInner read (same ▸ sub kind))
  | rule ps =>
    obtain ⟨kind, start, -⟩ := of_first first holds
    simp only [kind] at inner
    cases inner
    exact startsAt_of_position start (position_ofInner read (by simp [kind]))

/-- The starts grow from `k` on, since every part takes something. -/
theorem starts_of_topmost {ps : List Fragment} {es : List Entry}
    (top : ∀ p ∈ ps, 0 < p.width ∧ ∃ q, p = .node "toplevel" [q] ∧ Topmost q)
    (read : Sheet.ofNodes o (Node.ofSpans text (spansOf k ps)) = .ok es) :
    (∀ e ∈ es, ∃ i, k ≤ i ∧ e.StartsAt o i) ∧ (es.filter (!·.isWhitespace)).Nodup := by
  induction ps generalizing k es with
  | nil =>
    cases read
    exact ⟨List.forall_mem_nil _, List.nodup_nil⟩
  | cons p ps ih =>
    obtain ⟨⟨wide, q, rfl, kind⟩, rest⟩ := List.forall_mem_cons.1 top
    obtain ⟨e, es, first, more, rfl⟩ := mapM_cons_eq_ok.1 read
    obtain ⟨later, distinct⟩ := ih rest more
    have here : e.StartsAt o k := startsAt_of_topmost kind rfl first
    refine ⟨List.forall_mem_cons.2 ⟨⟨k, Nat.le_refl k, here⟩, fun x hx => ?_⟩, ?_⟩
    · obtain ⟨i, after, starts⟩ := later x hx
      exact ⟨i, by omega, starts⟩
    · cases blank : e.isWhitespace with
      | true => simpa [blank] using distinct
      | false =>
        -- the same entry further back would start at two offsets
        rw [List.filter_cons_of_pos (by simp [blank]), List.nodup_cons]
        refine ⟨fun again => ?_, distinct⟩
        obtain ⟨i, after, starts⟩ := later e (List.mem_filter.1 again).1
        have one := here.resolve_left (by simp [blank])
        have two := starts.resolve_left (by simp [blank])
        have same := Text.locate_inj.1 (Option.some.inj (one.symm.trans two))
        omega

end

/-- No two entries of a sheet that was read are the same, white space apart. -/
theorem nodup_rules {source : Option String} {text : String} {d : Sheet}
    (parsed : Sheet.parse source text = .ok d) : d.rules.Nodup := by
  obtain ⟨-, found, -⟩ := parse_eq_ok.1 parsed
  exact (starts_of_topmost (topmost_many text.toList) found).2

end StyleFactor
