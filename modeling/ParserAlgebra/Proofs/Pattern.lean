import ParserAlgebra.Pattern.Bounds

/-!
Matches behind a prefix.

A matcher floats over texts if a match behind a prefix ends where it ends without the prefix, moved
by the length of the prefix (`Matcher.Floating`). Of the patterns only the anchor of the start looks
at what lies before the match, so those without it float (`Pattern.Floating.matcher`).
-/
namespace ParserAlgebra

/-- Behind a front the items are the same, further on by its size. -/
theorem getElem?_append_add {α : Type} (front items : Array α) (i : Nat) :
    (front ++ items)[front.size + i]? = items[i]? := by
  rw [Array.getElem?_append_right (Nat.le_add_right _ _), Nat.add_sub_cancel_left]

/-- So are the segments. -/
theorem extract_append_add {α : Type} (front items : Array α) (i j : Nat) :
    (front ++ items).extract (front.size + i) (front.size + j) = items.extract i j := by
  have hnone : front.extract (front.size + i) (front.size + j) = #[] := by
    rw [Array.extract_eq_empty_iff]
    omega
  rw [Array.extract_append, hnone, Nat.add_sub_cancel_left, Nat.add_sub_cancel_left,
    Array.empty_append]

/-- A run is as long behind a front as without it. -/
theorem CharSet.runLength_append (set : CharSet) (front chars : Array Char) :
    ∀ limit i, set.runLength (front ++ chars) limit (front.size + i) =
      set.runLength chars limit i := by
  intro limit
  induction limit with
  | zero => intro i; rfl
  | succ limit ih =>
      intro i
      unfold CharSet.runLength
      rw [getElem?_append_add, Nat.add_assoc, ih]

namespace Pattern

/-- A pattern that does not ask whether it is at the start of the text. -/
def Floating : Pattern → Prop
  | start => False
  | seq first second | alt first second => first.Floating ∧ second.Floating
  | loop body _ _ _ => body.Floating
  | _ => True

theorem floating_runOf (set : CharSet) : (runOf set).Floating :=
  trivial

/-- Two continuations: the second answers behind a prefix of length `d` what the first answers
without it. -/
def Moved (d : Nat) (rest rest' : Nat → Option Nat) : Prop :=
  ∀ j, rest' (d + j) = (rest j).map (d + ·)

/-- The first of two answers that there is. -/
theorem map_first (f : Nat → Nat) (x y : Option Nat) :
    (match x.map f with
      | some stop => some stop
      | none => y.map f) =
      (match x with
        | some stop => some stop
        | none => y).map f := by
  cases x <;> rfl

section

variable {d : Nat} {rest rest' : Nat → Option Nat}

/-- The longest match is tried first in both texts. -/
theorem longestFirst_moved (h : Moved d rest rest') (i least : Nat) :
    ∀ n, longestFirst rest' (d + i) least n = (longestFirst rest i least n).map (d + ·) := by
  intro n
  induction n with
  | zero =>
      unfold longestFirst
      split
      · exact h i
      · rfl
  | succ n ih =>
      unfold longestFirst
      split
      · rfl
      · rw [Nat.add_assoc, h, ih]
        exact map_first _ _ _

/-- Or the shortest is. -/
theorem shortestFirst_moved (h : Moved d rest rest') :
    ∀ n i, shortestFirst rest' (d + i) n = (shortestFirst rest i n).map (d + ·) := by
  intro n
  induction n with
  | zero => intro i; exact h i
  | succ n ih =>
      intro i
      unfold shortestFirst
      rw [Nat.add_assoc, h, ih]
      exact map_first _ _ _

/-- The rounds of a loop move with its body. -/
theorem rounds_moved {body body' : Nat → (Nat → Option Nat) → Option Nat} (greed : Greed)
    (hbody : ∀ i next next', Moved d next next' →
      body' (d + i) next' = (body i next).map (d + ·))
    (h : Moved d rest rest') :
    ∀ fuel least most i, rounds body' greed rest' fuel least most (d + i) =
      (rounds body greed rest fuel least most i).map (d + ·) := by
  intro fuel
  induction fuel with
  | zero => intro least most i; exact h i
  | succ fuel ih =>
      intro least most i
      have hanother : body' (d + i) (fun j =>
            if least = 0 ∧ j = d + i then rest' (d + i)
            else rounds body' greed rest' fuel (least - 1) (most.map (· - 1)) j) =
          (body i (fun j =>
            if least = 0 ∧ j = i then rest i
            else rounds body greed rest fuel (least - 1) (most.map (· - 1)) j)).map (d + ·) := by
        refine hbody i _ _ fun j => ?_
        by_cases hstop : least = 0 ∧ j = i
        · rw [if_pos hstop, if_pos ⟨hstop.1, congrArg (d + ·) hstop.2⟩]
          exact h i
        · rw [if_neg hstop, if_neg fun hmoved => hstop ⟨hmoved.1, Nat.add_left_cancel hmoved.2⟩]
          exact ih _ _ j
      unfold rounds
      dsimp only
      rw [hanother, h i]
      split
      · rfl
      · split
        · rfl
        · cases greed with
          | longest => exact map_first _ _ _
          | shortest => exact map_first _ _ _

end

/-- Behind a prefix a pattern matches as it does without the prefix. -/
theorem matchThen_append (front chars : Array Char) (p : Pattern) (hp : p.Floating) :
    ∀ (i : Nat) {rest rest' : Nat → Option Nat}, Moved front.size rest rest' →
      p.matchThen (front ++ chars) (front.size + i) rest' =
        (p.matchThen chars i rest).map (front.size + ·) := by
  have hleft : ∀ i, (front ++ chars).size - (front.size + i) = chars.size - i := by
    intro i
    rw [Array.size_append]
    omega
  induction p with
  | empty => intro i rest rest' h; exact h i
  | one set =>
      intro i rest rest' h
      unfold matchThen
      rw [getElem?_append_add]
      cases chars[i]? with
      | none => rfl
      | some c =>
          dsimp only
          split
          · exact h (i + 1)
          · rfl
  | start => exact hp.elim
  | finish =>
      intro i rest rest' h
      have hend : (front.size + i = (front ++ chars).size ∨
          (front.size + i + 1 = (front ++ chars).size ∧
            (front ++ chars)[front.size + i]? = some '\n')) ↔
          (i = chars.size ∨ (i + 1 = chars.size ∧ chars[i]? = some '\n')) := by
        rw [getElem?_append_add, Array.size_append, Nat.add_assoc, Nat.add_left_cancel_iff,
          Nat.add_left_cancel_iff]
      unfold matchThen
      by_cases hi : i = chars.size ∨ (i + 1 = chars.size ∧ chars[i]? = some '\n')
      · rw [if_pos hi, if_pos (hend.mpr hi)]
        exact h i
      · rw [if_neg hi, if_neg fun hmoved => hi (hend.mp hmoved)]
        rfl
  | seq first second ihfirst ihsecond =>
      intro i rest rest' h
      unfold matchThen
      exact ihfirst hp.1 i fun j => ihsecond hp.2 j h
  | alt first second ihfirst ihsecond =>
      intro i rest rest' h
      unfold matchThen
      rw [ihfirst hp.1 i h, ihsecond hp.2 i h]
      exact map_first _ _ _
  | run set least most greed =>
      intro i rest rest' h
      unfold matchThen
      rw [hleft, set.runLength_append]
      cases greed with
      | longest => exact longestFirst_moved h i least _
      | shortest =>
          dsimp only
          split
          · rfl
          · rw [Nat.add_assoc]
            exact shortestFirst_moved h _ _
  | loop body least most greed ih =>
      intro i rest rest' h
      unfold matchThen
      rw [hleft]
      exact rounds_moved greed (fun j next next' hnext => ih hp j hnext) h _ _ _ i

/-- A match behind a prefix, for the whole pattern. -/
theorem matchEnd?_append (front chars : Array Char) {p : Pattern} (hp : p.Floating) (i : Nat) :
    p.matchEnd? (front ++ chars) (front.size + i) =
      (p.matchEnd? chars i).map (front.size + ·) :=
  matchThen_append front chars p hp i fun _ => rfl

end Pattern

/-- A matcher to which it makes no difference what lies before the match. -/
def Matcher.Floating (shape : Matcher) : Prop :=
  ∀ (front chars : Array Char) (i : Nat),
    shape.matchEnd? (.text (front ++ chars)) (front.size + i) =
      (shape.matchEnd? (.text chars) i).map (Option.map (front.size + ·))

theorem Pattern.Floating.matcher {p : Pattern} (hp : p.Floating) : p.matcher.Floating := by
  intro front chars i
  rw [matchEnd?_matcher, matchEnd?_matcher, matchEnd?_append front chars hp]
  rfl

end ParserAlgebra
