import ParserAlgebra.Pattern.Basic
import ParserAlgebra.Pattern.Matcher

/-!
Where matches can end.

The matcher asks its continuation at the ends it finds. `matchThen_reaches` says that it asks
nowhere else: an answer of the matcher is an answer of the continuation at some position between
the start of the match and the end of the text. The end of a whole match lies there too, which is
what makes a pattern a `Matcher`.
-/
namespace ParserAlgebra

/-- A run is no longer than the limit it is counted up to. -/
theorem CharSet.runLength_le (set : CharSet) (chars : Array Char) :
    ∀ limit i, set.runLength chars limit i ≤ limit := by
  intro limit
  induction limit with
  | zero => intro i; exact Nat.le_refl 0
  | succ limit ih =>
      intro i
      rw [CharSet.runLength]
      split
      · split
        · exact Nat.succ_le_succ (ih (i + 1))
        · exact Nat.zero_le _
      · exact Nat.zero_le _

namespace Pattern

/-- The bound on the rounds of a run only shortens it. -/
theorem bounded_le (most : Option Nat) (length : Nat) : bounded most length ≤ length := by
  cases most with
  | none => exact Nat.le_refl length
  | some most => exact Nat.min_le_right most length

theorem longestFirst_reaches {rest : Nat → Option Nat} {i least stop : Nat} :
    ∀ {n : Nat}, longestFirst rest i least n = some stop →
      ∃ j, i ≤ j ∧ j ≤ i + n ∧ rest j = some stop := by
  intro n
  induction n with
  | zero =>
      intro h
      rw [longestFirst] at h
      split at h
      · exact ⟨i, Nat.le_refl i, Nat.le_refl i, h⟩
      · cases h
  | succ n ih =>
      intro h
      rw [longestFirst] at h
      split at h
      · cases h
      · split at h
        · next found hfound => exact ⟨i + (n + 1), by omega, Nat.le_refl _, hfound.trans h⟩
        · obtain ⟨j, hij, hjn, hj⟩ := ih h
          exact ⟨j, hij, by omega, hj⟩

theorem shortestFirst_reaches {rest : Nat → Option Nat} {stop : Nat} :
    ∀ {n i : Nat}, shortestFirst rest i n = some stop →
      ∃ j, i ≤ j ∧ j ≤ i + n ∧ rest j = some stop := by
  intro n
  induction n with
  | zero => intro i h; exact ⟨i, Nat.le_refl i, Nat.le_refl i, h⟩
  | succ n ih =>
      intro i h
      rw [shortestFirst] at h
      split at h
      · next found hfound => exact ⟨i, Nat.le_refl i, by omega, hfound.trans h⟩
      · obtain ⟨j, hij, hjn, hj⟩ := ih h
        exact ⟨j, by omega, by omega, hj⟩

/-- A loop reaches only what its body reaches in some number of rounds. -/
theorem rounds_reaches {body : Nat → (Nat → Option Nat) → Option Nat} {greed : Greed}
    {rest : Nat → Option Nat} {size stop : Nat}
    (hbody : ∀ i next, i ≤ size → body i next = some stop →
      ∃ j, i ≤ j ∧ j ≤ size ∧ next j = some stop) :
    ∀ {fuel least : Nat} {most : Option Nat} {i : Nat}, i ≤ size →
      rounds body greed rest fuel least most i = some stop →
      ∃ j, i ≤ j ∧ j ≤ size ∧ rest j = some stop := by
  intro fuel
  induction fuel with
  | zero => intro least most i hi h; exact ⟨i, Nat.le_refl i, hi, h⟩
  | succ fuel ih =>
      intro least most i hi h
      -- the continuation of one more round: the rest, or the rounds after it
      have hanother : ∀ {answer}, answer = some stop →
          answer = body i (fun j =>
            if least = 0 ∧ j = i then rest i
            else rounds body greed rest fuel (least - 1) (most.map (· - 1)) j) →
          ∃ j, i ≤ j ∧ j ≤ size ∧ rest j = some stop := by
        intro answer hsome heq
        obtain ⟨j, hij, hj, hnext⟩ := hbody i _ hi (heq ▸ hsome)
        split at hnext
        · exact ⟨i, Nat.le_refl i, hi, hnext⟩
        · obtain ⟨k, hjk, hk, hrest⟩ := ih hj hnext
          exact ⟨k, Nat.le_trans hij hjk, hk, hrest⟩
      have hrest : rest i = some stop → ∃ j, i ≤ j ∧ j ≤ size ∧ rest j = some stop :=
        fun hi' => ⟨i, Nat.le_refl i, hi, hi'⟩
      rw [rounds] at h
      split at h
      · exact hrest h
      · dsimp only at h
        split at h
        · exact hanother h rfl
        · split at h
          · split at h
            · next found hfound => exact hanother (hfound.trans h) rfl
            · exact hrest h
          · split at h
            · next found hfound => exact hrest (hfound.trans h)
            · exact hanother h rfl

/-- An answer of the matcher is an answer of what follows, at a position from the start of the
match to the end of the text. -/
theorem matchThen_reaches {chars : Array Char} {stop : Nat} (p : Pattern) :
    ∀ {i : Nat} {rest : Nat → Option Nat}, i ≤ chars.size →
      p.matchThen chars i rest = some stop →
      ∃ j, i ≤ j ∧ j ≤ chars.size ∧ rest j = some stop := by
  induction p with
  | empty => intro i rest hi h; exact ⟨i, Nat.le_refl i, hi, h⟩
  | one set =>
      intro i rest hi h
      rw [matchThen] at h
      split at h
      · next c hc =>
          split at h
          · have hlt : i < chars.size := (Array.getElem?_eq_some_iff.mp hc).1
            exact ⟨i + 1, Nat.le_succ i, hlt, h⟩
          · cases h
      · cases h
  | start | finish =>
      intro i rest hi h
      rw [matchThen] at h
      split at h
      · exact ⟨i, Nat.le_refl i, hi, h⟩
      · cases h
  | seq first second ihfirst ihsecond =>
      intro i rest hi h
      rw [matchThen] at h
      obtain ⟨j, hij, hj, hsecond⟩ := ihfirst hi h
      obtain ⟨k, hjk, hk, hrest⟩ := ihsecond hj hsecond
      exact ⟨k, Nat.le_trans hij hjk, hk, hrest⟩
  | alt first second ihfirst ihsecond =>
      intro i rest hi h
      rw [matchThen] at h
      split at h
      · next found hfound => exact ihfirst hi (hfound.trans h)
      · exact ihsecond hi h
  | run set least most greed =>
      intro i rest hi h
      have hlength : bounded most (set.runLength chars (chars.size - i) i) ≤ chars.size - i :=
        Nat.le_trans (bounded_le _ _) (set.runLength_le chars _ i)
      cases greed with
      | longest =>
          rw [matchThen] at h
          obtain ⟨j, hij, hj, hrest⟩ := longestFirst_reaches h
          exact ⟨j, hij, by omega, hrest⟩
      | shortest =>
          rw [matchThen] at h
          split at h
          · cases h
          · obtain ⟨j, hij, hj, hrest⟩ := shortestFirst_reaches h
            exact ⟨j, by omega, by omega, hrest⟩
  | loop body least most greed ih =>
      intro i rest hi h
      rw [matchThen] at h
      exact rounds_reaches (fun i next hi hbody => ih hi hbody) hi h

/-- A match that starts within a text ends between its start and the end of the text. -/
theorem matchEnd?_bounds {p : Pattern} {chars : Array Char} {i stop : Nat} (hi : i ≤ chars.size)
    (h : p.matchEnd? chars i = some stop) : i ≤ stop ∧ stop ≤ chars.size := by
  obtain ⟨j, hij, hj, hstop⟩ := matchThen_reaches p hi h
  rw [← Option.some.inj hstop]
  exact ⟨hij, hj⟩

/-- A pattern over characters as a matcher; only texts can be matched. -/
def matcher (p : Pattern) : Matcher where
  matchEnd?
    | .text chars, i => .ok (p.matchEnd? chars i)
    | _, _ => .error .typeMismatch
  bounds {input i stop} hi h := by
    cases input with
    | text chars => exact matchEnd?_bounds hi (Except.ok.inj h)
    | buffer | other => cases h

@[simp] theorem matchEnd?_matcher (p : Pattern) (chars : Array Char) (i : Nat) :
    p.matcher.matchEnd? (.text chars) i = .ok (p.matchEnd? chars i) :=
  rfl

end Pattern

end ParserAlgebra
