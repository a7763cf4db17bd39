import StyleFactor.Value.Basic

/-!
Equality of values as look-ups use it. Values that can be looked up are the same just if they have
one key, and what is only equal to itself has none. Main statement: values that are the same are the
same as all the same values (`same_congr`).
-/
namespace StyleFactor

/-- What a value that can be looked up is found by. -/
inductive Key where
  | null
  | number (n : Int)
  | text (s : String)
  | items (ks : List Key)

/-- Both are there, and they are equal. -/
def Meet {α : Type} (a b : Option α) : Prop := ∃ k, a = some k ∧ b = some k

theorem Meet.left_iff {α : Type} {a b c : Option α} (h : Meet a b) : Meet a c ↔ Meet b c := by
  obtain ⟨k, rfl, rfl⟩ := h
  rfl

theorem meet_map {α β : Type} {f : α → β} (injective : ∀ a b, f a = f b → a = b) {a b : Option α} :
    Meet (a.map f) (b.map f) ↔ Meet a b := by
  constructor
  · rintro ⟨_, ha, hb⟩
    obtain ⟨k, rfl, rfl⟩ := Option.map_eq_some_iff.1 ha
    obtain ⟨l, rfl, same⟩ := Option.map_eq_some_iff.1 hb
    exact ⟨k, rfl, congrArg some (injective l k same)⟩
  · rintro ⟨k, rfl, rfl⟩
    exact ⟨f k, rfl, rfl⟩

namespace Value

mutual

def key? : Value → Option Key
  | .null => some .null
  | .bool b => some (.number b.toNat)
  | .int n => some (.number n)
  | .text s => some (.text s)
  | .tuple xs => (keys? xs).map .items
  | .pair p v => p.key?.bind fun k => v.key?.map fun l => .items [k, l]
  | _ => none

def keys? : List Value → Option (List Key)
  | [] => some []
  | x :: xs => x.key?.bind fun k => (keys? xs).map (k :: ·)

end

theorem key?_of_tupleItems? {y : Value} {ys : List Value} (h : y.tupleItems? = some ys) :
    y.key? = (keys? ys).map .items := by
  cases y with
  | tuple xs =>
    cases h
    simp only [key?]
  | pair p v =>
    cases h
    simp only [key?, keys?]
    cases p.key? <;> cases v.key? <;> rfl
  | _ => cases h

theorem areHashable_of_tupleItems? {y : Value} {ys : List Value} (h : y.tupleItems? = some ys)
    (hy : y.isHashable) : areHashable ys := by
  cases y with
  | tuple xs =>
    cases h
    simpa only [isHashable] using hy
  | pair p v =>
    cases h
    simpa [isHashable, areHashable] using hy
  | _ => cases h

/-- What holds no items of its own is looked up by what it is alone. -/
theorem same_iff_of_single {x y : Value} (single : x.tupleItems? = none) (hx : x.isHashable)
    (hy : y.isHashable) : x.same y ↔ Meet x.key? y.key? := by
  cases x <;> cases y <;>
    simp_all [same, key?, Meet, number?, tupleItems?, isHashable,
      Option.bind_eq_some_iff, @eq_comm String]

theorem not_meet_items {y : Value} (single : y.tupleItems? = none) (a : Option (List Key)) :
    ¬Meet (a.map .items) y.key? := by
  rintro ⟨k, ha, hy⟩
  obtain ⟨ks, -, rfl⟩ := Option.map_eq_some_iff.1 ha
  cases y <;> simp_all [key?, tupleItems?]

theorem meet_cons {x y : Value} {xs ys : List Value} :
    Meet (keys? (x :: xs)) (keys? (y :: ys)) ↔
      Meet x.key? y.key? ∧ Meet (keys? xs) (keys? ys) := by
  simp only [Meet, keys?, Option.bind_eq_some_iff, Option.map_eq_some_iff]
  constructor
  · rintro ⟨_, ⟨k, hk, ks, hks, rfl⟩, l, hl, ls, hls, same⟩
    obtain ⟨rfl, rfl⟩ := List.cons.inj same
    exact ⟨⟨l, hk, hl⟩, ls, hks, hls⟩
  · rintro ⟨⟨k, hk, hl⟩, ks, hks, hls⟩
    exact ⟨k :: ks, ⟨k, hk, ks, hks, rfl⟩, k, hl, ks, hls, rfl⟩

theorem not_meet_nil_cons {y : Value} {ys : List Value} :
    ¬Meet (keys? []) (keys? (y :: ys)) := by
  simp [Meet, keys?, Option.bind_eq_some_iff]

theorem not_meet_cons_nil {x : Value} {xs : List Value} :
    ¬Meet (keys? (x :: xs)) (keys? []) := by
  simp [Meet, keys?, Option.bind_eq_some_iff]

mutual

theorem same_iff (x y : Value) (hx : x.isHashable) (hy : y.isHashable) :
    x.same y ↔ Meet x.key? y.key? := by
  match x with
  | .tuple xs =>
    simp only [same, key?]
    cases items : y.tupleItems? with
    | none => simpa using not_meet_items items _
    | some ys =>
      rw [key?_of_tupleItems? items, meet_map fun _ _ => Key.items.inj]
      exact sameItems_iff xs ys (by simpa only [isHashable] using hx)
        (areHashable_of_tupleItems? items hy)
  | .pair p v =>
    have hashable : p.isHashable ∧ v.isHashable := by simpa [isHashable] using hx
    have left : (pair p v).key? = (keys? [p, v]).map .items := key?_of_tupleItems? rfl
    rw [left]
    cases items : y.tupleItems? with
    | none => simpa [same, items] using not_meet_items items _
    | some ys =>
      have fit := areHashable_of_tupleItems? items hy
      rw [key?_of_tupleItems? items, meet_map fun _ _ => Key.items.inj]
      match ys with
      | [] => simpa [same, items] using not_meet_cons_nil
      | [a] => simpa [same, items, meet_cons] using fun _ => not_meet_cons_nil
      | [a, b] =>
        simp only [areHashable, Bool.and_eq_true] at fit
        simp only [same, items, Bool.and_eq_true, same_iff p a hashable.1 fit.1,
          same_iff v b hashable.2 fit.2.1, meet_cons]
        simp [Meet, keys?]
      | a :: b :: c :: ds => simpa [same, items, meet_cons] using fun _ _ => not_meet_nil_cons
  | .null | .bool _ | .int _ | .text _ | .decl .. | .stream _ | .list _ | .table _ | .loose _ =>
    exact same_iff_of_single rfl hx hy

theorem sameItems_iff (xs ys : List Value) (hx : areHashable xs) (hy : areHashable ys) :
    sameItems xs ys ↔ Meet (keys? xs) (keys? ys) := by
  match xs, ys with
  | [], [] => simp [sameItems, keys?, Meet]
  | [], y :: ys => simpa [sameItems] using not_meet_nil_cons
  | x :: xs, [] => simpa [sameItems] using not_meet_cons_nil
  | x :: xs, y :: ys =>
    simp only [areHashable, Bool.and_eq_true] at hx hy
    rw [sameItems, Bool.and_eq_true, same_iff x y hx.1 hy.1, sameItems_iff xs ys hx.2 hy.2,
      meet_cons]

end

theorem same_congr {x y z : Value} (hx : x.isHashable) (hy : y.isHashable) (hz : z.isHashable)
    (h : x == y) : (x == z) = (y == z) := by
  have meet : Meet x.key? y.key? := (same_iff x y hx hy).1 h
  exact Bool.eq_iff_iff.2 <|
    (same_iff x z hx hz).trans (meet.left_iff.trans (same_iff y z hy hz).symm)

end Value

end StyleFactor
