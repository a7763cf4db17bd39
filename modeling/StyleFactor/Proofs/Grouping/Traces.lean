import StyleFactor.Proofs.Grouping.Calls
import StyleFactor.Proofs.Grouping.Resolution
import StyleFactor.Proofs.Value.Same

/-!
What a call that fails leaves behind. What it was given before the fault has been added by then, to
the selectors where it can be seen at once, and to the log where it comes up when the log is next
resolved. Two groupings are alike if no calls can tell them apart (`Alike.run`). Main statement: a
failed call leaves no trace just if what it added was nothing new (`traceless_iff`).
-/
namespace StyleFactor

namespace Live

/-- What a log resolves to, if it can be resolved. -/
def resolvedLog (log : List (Declaration Value)) : Except Fault (List (Declaration Value)) := do
  needHashable log
  return resolve log

/-- All that can be read of a grouping. -/
def observed (g : Live Value) : List Value × Except Fault (List (Declaration Value)) :=
  (g.grouping.selectors, g.resolved)

theorem needHashable_eq_ok {ds : List (Declaration Value)} :
    needHashable ds = .ok () ↔ ∀ d ∈ ds, d.property.isHashable := by
  rw [← List.all_eq_true, needHashable]
  split
  · next all => exact iff_of_true rfl all
  · next some => exact iff_of_false (fun h => nomatch h) some

theorem resolvedLog_eq_ok {log m : List (Declaration Value)} :
    resolvedLog log = .ok m ↔ needHashable log = .ok () ∧ resolve log = m := by
  rw [resolvedLog, bind_eq_ok]
  exact ⟨fun ⟨_, fit, same⟩ => ⟨fit, Except.ok.inj same⟩, fun ⟨fit, same⟩ => ⟨_, fit, same ▸ rfl⟩⟩

theorem resolved_of_seen {g : Live Value} {m : List (Declaration Value)} (h : g.seen = some m) :
    g.resolved = .ok m := by
  rw [Live.resolved, h]

theorem resolved_of_unseen {g : Live Value} (h : g.seen = none) :
    g.resolved = resolvedLog g.grouping.log := by
  rw [Live.resolved, h, resolvedLog, Live.declarations, h]
  rfl

theorem declarations_of_resolved {g : Live Value} {m : List (Declaration Value)}
    (h : g.resolved = .ok m) : g.declarations = m := by
  cases remembered : g.seen with
  | some n =>
    rw [resolved_of_seen remembered] at h
    rw [Live.declarations, remembered]
    exact Except.ok.inj h
  | none =>
    rw [resolved_of_unseen remembered, resolvedLog_eq_ok] at h
    rw [Live.declarations, remembered]
    exact h.2

theorem resolved_read {g : Live Value} {m : List (Declaration Value)} (h : g.resolved = .ok m) :
    g.read.resolved = .ok m := by
  rw [resolved_of_seen (seen_read g), declarations_of_resolved h]

theorem resolved_insertSelectors (g : Live Value) (ss : List Value) :
    (g.insertSelectors ss).resolved = g.resolved := by
  simp [Live.resolved, Live.declarations, Grouping.declarations]

/-- No calls tell the two groupings apart, as long as they are all completed. -/
structure Alike (g h : Live Value) : Prop where
  left : g.Sound
  right : h.Sound
  selectors : g.grouping.selectors = h.grouping.selectors
  log : resolvedLog g.grouping.log = resolvedLog h.grouping.log
  resolved : g.resolved = h.resolved

theorem resolvedLog_append (log ds : List (Declaration Value)) :
    resolvedLog (log ++ ds) = (resolvedLog log).bind fun m =>
      (needHashable ds).map fun _ => ds.foldl (fun m d => upsert d m) m := by
  cases front : log.all (·.property.isHashable) <;> cases back : ds.all (·.property.isHashable) <;>
    simp [resolvedLog, needHashable, front, back, resolve, Except.bind, Except.map, bind, pure,
      Except.pure]

/-- A look-up of properties cannot tell the same ones apart. -/
theorem contains_congr {ps : List Value} (fit : ∀ p ∈ ps, p.isHashable) {p q : Value}
    (hp : p.isHashable) (hq : q.isHashable) (same : p == q) : ps.contains p = ps.contains q := by
  rw [Bool.eq_iff_iff, List.contains_iff_exists_mem_beq, List.contains_iff_exists_mem_beq]
  refine exists_congr fun r => and_congr_right fun member => ?_
  rw [Value.same_congr hp hq (fit r member) same]

theorem resolvedLog_filter {log m : List (Declaration Value)} (h : resolvedLog log = .ok m)
    {ps : List Value} (fit : ∀ p ∈ ps, p.isHashable) :
    resolvedLog (log.filter (!ps.contains ·.property)) =
      .ok (m.filter (!ps.contains ·.property)) := by
  obtain ⟨hashable, rfl⟩ := resolvedLog_eq_ok.1 h
  rw [needHashable_eq_ok] at hashable
  have kept : ∀ p q : Value, p.isHashable → q.isHashable → p == q →
      (!ps.contains p) = !ps.contains q :=
    fun p q hp hq same => congrArg not (contains_congr fit hp hq same)
  refine resolvedLog_eq_ok.2 ⟨?_, resolve_filter_of_respects kept hashable⟩
  exact needHashable_eq_ok.2 fun d hd => hashable d (List.mem_filter.1 hd).1

theorem hashable_of_wanted {arg : Value} {ds : List (Declaration Value)} (h : wanted arg = .ok ds) :
    ∀ d ∈ ds, d.property.isHashable := by
  obtain ⟨vs, -, each⟩ := bind_eq_ok.1 h
  clear h
  induction vs generalizing ds with
  | nil =>
    cases each
    exact fun _ h => nomatch h
  | cons v vs ih =>
    obtain ⟨z, zs, first, rest, rfl⟩ := mapM_cons_eq_ok.1 each
    obtain ⟨d, -, first⟩ := bind_eq_ok.1 first
    obtain ⟨_, fit, first⟩ := bind_eq_ok.1 first
    cases first
    refine List.forall_mem_cons.2 ⟨?_, ih rest⟩
    exact needHashable_eq_ok.1 fit _ List.mem_cons_self

section

variable {g h : Live Value}

theorem Alike.declarations (alike : Alike g h) {m : List (Declaration Value)}
    (readable : g.resolved = .ok m) : g.declarations = m ∧ h.declarations = m :=
  ⟨declarations_of_resolved readable, declarations_of_resolved (alike.resolved ▸ readable)⟩

theorem Alike.read (alike : Alike g h) {m : List (Declaration Value)}
    (readable : g.resolved = .ok m) : Alike g.read h.read := by
  refine ⟨alike.left.read, alike.right.read, alike.selectors, alike.log, ?_⟩
  rw [resolved_read readable, resolved_read (alike.resolved ▸ readable)]

theorem Alike.insertSelector (alike : Alike g h) (s : Value) :
    (g.insertSelector s).grouping.selectors = (h.insertSelector s).grouping.selectors := by
  unfold Live.insertSelector
  rw [alike.left.contains_known, alike.right.contains_known, alike.selectors]
  split
  · exact alike.selectors
  · rfl

theorem Alike.insertSelectors (alike : Alike g h) (ss : List Value) :
    Alike (g.insertSelectors ss) (h.insertSelectors ss) := by
  induction ss generalizing g h with
  | nil => exact alike
  | cons s ss ih =>
    refine ih ⟨alike.left.insertSelector s, alike.right.insertSelector s, alike.insertSelector s,
      ?_, ?_⟩
    · rw [log_insertSelector, log_insertSelector, alike.log]
    · exact (resolved_insertSelectors g [s]).trans
        (alike.resolved.trans (resolved_insertSelectors h [s]).symm)

/-- After a completed change to the log only the log counts. -/
theorem alike_of_unseen (left : g.Sound) (right : h.Sound)
    (selectors : g.grouping.selectors = h.grouping.selectors)
    (log : resolvedLog g.grouping.log = resolvedLog h.grouping.log) (hg : g.seen = none)
    (hh : h.seen = none) : Alike g h :=
  ⟨left, right, selectors, log, by rw [resolved_of_unseen hg, resolved_of_unseen hh, log]⟩

theorem Alike.declare (alike : Alike g h) (ds : List (Declaration Value)) :
    Alike (g.declare ds) (h.declare ds) := by
  have log : resolvedLog (g.grouping.log ++ ds) = resolvedLog (h.grouping.log ++ ds) := by
    rw [resolvedLog_append, resolvedLog_append, alike.log]
  exact alike_of_unseen (alike.left.declarePartly ds).touch (alike.right.declarePartly ds).touch
    alike.selectors log (alike.left.seen_declare ds) (alike.right.seen_declare ds)

theorem Alike.needHashable (alike : Alike g h) :
    needHashable g.grouping.log = needHashable h.grouping.log := by
  have log := alike.log
  simp only [resolvedLog] at log
  cases hg : StyleFactor.needHashable g.grouping.log <;>
    cases hh : StyleFactor.needHashable h.grouping.log <;> simp_all [bind, Except.bind, pure, Except.pure]

theorem Alike.retract (alike : Alike g h) {m ds : List (Declaration Value)}
    (readable : g.resolved = .ok m) (fit : ∀ d ∈ ds, d.property.isHashable)
    (resolvable : Grouping.confirmed m ds = [] ∨ StyleFactor.needHashable g.grouping.log = .ok ()) :
    Alike (g.retract ds) (h.retract ds) := by
  obtain ⟨hg, hh⟩ := alike.declarations readable
  by_cases none : Grouping.confirmed m ds = []
  · rw [retract_of_none (hg ▸ none), retract_of_none (hh ▸ none)]
    exact alike.read readable
  · have log : resolvedLog g.grouping.log = .ok (resolve g.grouping.log) :=
      resolvedLog_eq_ok.2 ⟨resolvable.resolve_left none, rfl⟩
    have given : ∀ p ∈ Grouping.confirmed m ds, p.isHashable := by
      intro p hp
      obtain ⟨d, hd, rfl⟩ := List.mem_map.1 hp
      exact fit d (List.mem_filter.1 hd).1
    refine alike_of_unseen (alike.left.retract ds) (alike.right.retract ds) ?_ ?_
      (alike.left.seen_retract (hg ▸ none)) (alike.right.seen_retract (hh ▸ none))
    · rw [grouping_retract, grouping_retract]
      exact alike.selectors
    · rw [grouping_retract, grouping_retract, hg, hh]
      exact (resolvedLog_filter log given).trans (resolvedLog_filter (alike.log ▸ log) given).symm

/-- The same call on groupings that are alike. -/
theorem Alike.perform (alike : Alike g h) (c : Call) :
    (g.perform c).2 = (h.perform c).2 ∧
      ((g.perform c).2 = none → Alike (g.perform c).1 (h.perform c).1) := by
  cases c with
  | addSelectors arg =>
    simp only [Live.perform, requestSelectors]
    cases arg.selectorItems with
    | error f => exact ⟨rfl, by rintro ⟨⟩⟩
    | ok vs => exact ⟨rfl, fun _ => alike.insertSelectors _⟩
  | addDeclarations arg =>
    simp only [Live.perform, requestDeclarations]
    cases arg.declarationItems with
    | error f => exact ⟨rfl, by rintro ⟨⟩⟩
    | ok vs =>
      dsimp only
      rcases upToFault Value.toDeclaration vs with ⟨ds, none | f⟩
      · exact ⟨rfl, fun _ => alike.declare ds⟩
      · exact ⟨rfl, by rintro ⟨⟩⟩
  | removeDeclarations arg =>
    simp only [Live.perform, requestRemoval, ← alike.resolved, ← alike.needHashable]
    cases readable : g.resolved with
    | error f => exact ⟨rfl, by rintro ⟨⟩⟩
    | ok m =>
      cases given : wanted arg with
      | error f => exact ⟨rfl, by rintro ⟨⟩⟩
      | ok ds =>
        have fit := hashable_of_wanted given
        dsimp only
        cases removed : Grouping.confirmed m ds with
        | nil => exact ⟨rfl, fun _ => alike.retract readable fit (Or.inl removed)⟩
        | cons p ps =>
          cases resolvable : StyleFactor.needHashable g.grouping.log with
          | error f => exact ⟨rfl, by rintro ⟨⟩⟩
          | ok _ => exact ⟨rfl, fun _ => alike.retract readable fit (Or.inr resolvable)⟩
  | read =>
    simp only [Live.perform, readRequest, ← alike.resolved]
    cases readable : g.resolved with
    | error f => exact ⟨rfl, by rintro ⟨⟩⟩
    | ok m => exact ⟨rfl, fun _ => alike.read readable⟩

theorem Alike.run (alike : Alike g h) (cs : List Call) :
    (g.run cs).map observed = (h.run cs).map observed := by
  induction cs generalizing g h with
  | nil => exact congrArg Except.ok (Prod.ext alike.selectors alike.resolved)
  | cons c cs ih =>
    obtain ⟨same, stay⟩ := alike.perform c
    unfold Live.run
    revert same stay
    rcases g.perform c with ⟨g', none | f⟩ <;> rcases h.perform c with ⟨h', none | f'⟩
    · exact fun _ stay => ih (stay rfl)
    · exact fun same => nomatch same
    · exact fun same => nomatch same
    · exact fun same _ => congrArg Except.error (Option.some.inj same)

end

/-- The selectors that were added before the fault came up. -/
def selectorsBefore (arg : Value) : List Value :=
  match arg.selectorItems with
  | .ok vs =>
    (upToFault (fun v => if v.isHashable then .ok v else .error Fault.notHashable) vs).1
  | .error _ => []

/-- The declarations that were added before the fault came up. -/
def declarationsBefore (arg : Value) : List (Declaration Value) :=
  match arg.declarationItems with
  | .ok vs => (upToFault Value.toDeclaration vs).1
  | .error _ => []

/-- What the call adds up to a fault is nothing new: selectors that are there, or declarations that
would not change what the log resolves to. -/
def Ignores (g : Live Value) : Call → Prop
  | .addSelectors arg => ∀ s ∈ selectorsBefore arg, g.grouping.selectors.contains s
  | .addDeclarations arg =>
    resolvedLog (g.grouping.log ++ declarationsBefore arg) = resolvedLog g.grouping.log
  | .removeDeclarations _ => True
  | .read => True

theorem perform_addSelectors_fst (g : Live Value) (arg : Value) :
    (g.perform (.addSelectors arg)).1 = g.insertSelectors (selectorsBefore arg) := by
  simp only [Live.perform, requestSelectors, selectorsBefore]
  cases arg.selectorItems <;> rfl

theorem perform_addDeclarations_fst {g : Live Value} {arg : Value} {f : Fault}
    (failed : (g.perform (.addDeclarations arg)).2 = some f) :
    (g.perform (.addDeclarations arg)).1 = g.declarePartly (declarationsBefore arg) := by
  simp only [Live.perform, requestDeclarations, declarationsBefore] at failed ⊢
  cases items : arg.declarationItems with
  | error f => simp [declarePartly, Grouping.declare]
  | ok vs =>
    rw [items] at failed
    dsimp only at failed ⊢
    revert failed
    rcases upToFault Value.toDeclaration vs with ⟨ds, none | f⟩
    · rintro ⟨⟩
    · exact fun _ => rfl

theorem perform_removeDeclarations_fst {g : Live Value} {arg : Value} {f : Fault}
    (failed : (g.perform (.removeDeclarations arg)).2 = some f) :
    (g.perform (.removeDeclarations arg)).1 = g ∨
      (g.perform (.removeDeclarations arg)).1 = g.read ∧ ∃ m, g.resolved = .ok m := by
  simp only [Live.perform, requestRemoval] at failed ⊢
  cases readable : g.resolved with
  | error f => exact Or.inl rfl
  | ok m =>
    rw [readable] at failed
    dsimp only at failed ⊢
    cases given : wanted arg with
    | error f => exact Or.inr ⟨rfl, m, rfl⟩
    | ok ds =>
      rw [given] at failed
      dsimp only at failed ⊢
      revert failed
      cases Grouping.confirmed m ds with
      | nil => rintro ⟨⟩
      | cons p ps =>
        cases needHashable g.grouping.log with
        | error f => exact fun _ => Or.inr ⟨rfl, m, rfl⟩
        | ok _ => rintro ⟨⟩

theorem perform_read_fst {g : Live Value} {f : Fault} (failed : (g.perform .read).2 = some f) :
    (g.perform .read).1 = g := by
  simp only [Live.perform, readRequest] at failed ⊢
  cases readable : g.resolved with
  | error f => rfl
  | ok m =>
    rw [readable] at failed
    cases failed

theorem Alike.of_read {g : Live Value} (sound : g.Sound) {m : List (Declaration Value)}
    (readable : g.resolved = .ok m) : Alike g.read g :=
  ⟨sound.read, sound, rfl, rfl, (resolved_read readable).trans readable.symm⟩

theorem Alike.of_declarePartly {g : Live Value} (sound : g.Sound) {ds : List (Declaration Value)}
    (ignored : resolvedLog (g.grouping.log ++ ds) = resolvedLog g.grouping.log) :
    Alike (g.declarePartly ds) g := by
  refine ⟨sound.declarePartly ds, sound, rfl, ignored, ?_⟩
  have same : (g.declarePartly ds).seen = g.seen := rfl
  cases remembered : g.seen with
  | some m => rw [resolved_of_seen remembered, resolved_of_seen (same.trans remembered)]
  | none =>
    rw [resolved_of_unseen remembered, resolved_of_unseen (same.trans remembered)]
    exact ignored

/-- Once nothing is remembered, it is the log that is read. -/
theorem observed_declare_nil {g : Live Value} (sound : g.Sound) :
    (observed (g.declare [])).2 = resolvedLog g.grouping.log := by
  have log : (g.declare []).grouping.log = g.grouping.log := List.append_nil _
  rw [observed, resolved_of_unseen (sound.seen_declare []), log]

theorem insertSelectors_of_known {g : Live Value} (sound : g.Sound) {ss : List Value}
    (there : ∀ s ∈ ss, g.grouping.selectors.contains s) : g.insertSelectors ss = g := by
  unfold Live.insertSelectors
  induction ss with
  | nil => rfl
  | cons s ss ih =>
    have known := (sound.contains_known s).trans (there s List.mem_cons_self)
    rw [List.foldl_cons, Live.insertSelector, if_pos known]
    exact ih fun t ht => there t (List.mem_cons_of_mem _ ht)

theorem length_insertSelectors (g : Live Value) (ss : List Value) :
    g.grouping.selectors.length ≤ (g.insertSelectors ss).grouping.selectors.length := by
  unfold Live.insertSelectors
  induction ss generalizing g with
  | nil => exact Nat.le_refl _
  | cons s ss ih =>
    refine Nat.le_trans ?_ (ih (g.insertSelector s))
    unfold Live.insertSelector
    split
    · exact Nat.le_refl _
    · simp

theorem known_of_insertSelectors {g : Live Value} (sound : g.Sound) {ss : List Value}
    (same : (g.insertSelectors ss).grouping.selectors = g.grouping.selectors) :
    ∀ s ∈ ss, g.grouping.selectors.contains s := by
  induction ss with
  | nil => exact fun _ h => nomatch h
  | cons s ss ih =>
    cases known : g.known.contains s with
    | true =>
      have there : g.insertSelector s = g := if_pos known
      have rest : (g.insertSelectors ss).grouping.selectors = g.grouping.selectors := by
        rw [← same, Live.insertSelectors, Live.insertSelectors, List.foldl_cons, there]
      exact List.forall_mem_cons.2 ⟨(sound.contains_known s).symm.trans known, ih rest⟩
    | false =>
      have longer : (g.insertSelector s).grouping.selectors.length =
          g.grouping.selectors.length + 1 := by
        rw [Live.insertSelector, if_neg (by simp [known])]
        simp
      have kept := length_insertSelectors (g.insertSelector s) ss
      have total : ((g.insertSelector s).insertSelectors ss).grouping.selectors.length =
          g.grouping.selectors.length := congrArg List.length same
      omega

/-- For every grouping that calls can lead to, and every call on it that fails: that whatever is
called next ends as it would have ended without the failed call, reading included, is that the
failed call had nothing new to add before the fault. -/
theorem traceless_iff {g : Live Value} (reachable : g.Reachable) {c : Call} {f : Fault}
    (failed : (g.perform c).2 = some f) :
    (∀ cs, ((g.perform c).1.run cs).map observed = (g.run cs).map observed) ↔ g.Ignores c := by
  have sound := reachable.sound
  cases c with
  | addSelectors arg =>
    rw [perform_addSelectors_fst]
    constructor
    · intro same
      have shown := Except.ok.inj (same [])
      exact known_of_insertSelectors sound (congrArg Prod.fst shown)
    · intro known cs
      rw [insertSelectors_of_known sound known]
  | addDeclarations arg =>
    rw [perform_addDeclarations_fst failed]
    constructor
    · intro same
      -- an addition of nothing makes both resolve their logs anew
      have shown := Except.ok.inj (same [.addDeclarations (.list [])])
      have read := congrArg Prod.snd shown
      rwa [observed_declare_nil (sound.declarePartly _), observed_declare_nil sound] at read
    · exact fun ignored => (Alike.of_declarePartly sound ignored).run
  | removeDeclarations arg =>
    refine iff_of_true (fun cs => ?_) trivial
    rcases perform_removeDeclarations_fst failed with same | ⟨same, m, readable⟩
    · rw [same]
    · rw [same]
      exact (Alike.of_read sound readable).run cs
  | read =>
    refine iff_of_true (fun cs => ?_) trivial
    rw [perform_read_fst failed]

/-- A grouping without anything, after it was read. -/
def blank : Live Value := (ofLists [] [] : Live Value).after [.read]

theorem reachable_blank : blank.Reachable :=
  ⟨.tuple [], .tuple [], ofLists [] [], [.read], rfl, rfl⟩

/-- Of a list that is given as declarations the items in front of one that is none are kept, and no
others. -/
theorem traceless_iff_of_blank :
    (∀ cs, ((blank.perform (.addDeclarations
      (.list [.int 5, .pair (.text "a") (.text "b")]))).1.run cs).map observed =
        (blank.run cs).map observed) ∧
    ¬∀ cs, ((blank.perform (.addDeclarations
      (.list [.pair (.text "a") (.text "b"), .int 5]))).1.run cs).map observed =
        (blank.run cs).map observed := by
  constructor
  · exact (traceless_iff reachable_blank (f := .notDeclaration) rfl).2 rfl
  · intro traceless
    have ignored := (traceless_iff reachable_blank (f := .notDeclaration) rfl).1 traceless
    have resolved : [⟨.text "a", .text "b"⟩] = ([] : List (Declaration Value)) :=
      Except.ok.inj ignored
    cases resolved

/-- A declaration of a call that failed comes up with the next one that is added. -/
theorem failed_addition_comes_up :
    blank.Reachable ∧
      (blank.perform (.addDeclarations (.list [.pair (.text "a") (.text "b"), .int 5]))).2 =
          some .notDeclaration ∧
      ((blank.perform (.addDeclarations (.list [.pair (.text "a") (.text "b"), .int 5]))).1.run
          [.addDeclarations (.pair (.text "c") (.text "d"))]).map observed =
        .ok ([], .ok [⟨.text "a", .text "b"⟩, ⟨.text "c", .text "d"⟩]) ∧
      (blank.run [.addDeclarations (.pair (.text "c") (.text "d"))]).map observed =
        .ok ([], .ok [⟨.text "c", .text "d"⟩]) :=
  ⟨reachable_blank, rfl, rfl, rfl⟩

end Live

end StyleFactor
