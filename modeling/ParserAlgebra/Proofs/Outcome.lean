import ParserAlgebra.Session

/-!
How computations end, as a monad of its own.

An outcome is what is left of a computation when its session is forgotten: a value, a fault, or
the end of the fuel. Computations in a row pass a value on and stop at anything else.
`Outcome.Only` is the partial correctness of an outcome: its value, if it has one, is as said.
`Outcome.Returns` says that there is one. `Outcome.Alike` compares two outcomes.
-/
namespace ParserAlgebra

namespace Outcome

variable {α β : Type}

-- ================================================================ the monad

/-- Goes on with a value; a fault or the end of the fuel stays what it is. -/
protected def bind (x : Outcome α) (f : α → Outcome β) : Outcome β :=
  match x with
  | .done a => f a
  | .raised fault => .raised fault
  | .exhausted => .exhausted

instance : Monad Outcome where
  pure := Outcome.done
  bind := Outcome.bind

/-- A silent outcome as the end of a computation. -/
def ofExcept : Except Fault α → Outcome α
  | .ok a => .done a
  | .error fault => .raised fault

@[simp] theorem pure_eq (a : α) : (pure a : Outcome α) = .done a := rfl

@[simp] theorem done_bind (a : α) (f : α → Outcome β) : (Outcome.done a >>= f) = f a := rfl

@[simp] theorem raised_bind (fault : Fault) (f : α → Outcome β) :
    (Outcome.raised fault >>= f) = .raised fault := rfl

@[simp] theorem exhausted_bind (f : α → Outcome β) :
    ((Outcome.exhausted : Outcome α) >>= f) = .exhausted := rfl

/-- Silent outcomes in a row are outcomes in a row. -/
theorem ofExcept_bind (x : Except Fault α) (f : α → Except Fault β) :
    ofExcept (x >>= f) = ofExcept x >>= fun a => ofExcept (f a) := by
  cases x <;> rfl

/-- A computation in two parts ends with a value only through a value of the first part. -/
theorem bind_eq_done {x : Outcome α} {f : α → Outcome β} {b : β} (h : (x >>= f) = .done b) :
    ∃ a, x = .done a ∧ f a = .done b := by
  cases x with
  | done a => exact ⟨a, rfl, h⟩
  | raised fault => cases h
  | exhausted => cases h

/-- A silent outcome ends with its value only. -/
theorem ofExcept_eq_done {x : Except Fault α} {a : α} (h : ofExcept x = .done a) : x = .ok a := by
  cases x with
  | ok b => exact congrArg Except.ok (Outcome.done.inj h)
  | error fault => cases h

-- ================================================================ partial correctness

/-- The value of an outcome, if it has one, satisfies `Q`. -/
def Only (Q : α → Prop) (x : Outcome α) : Prop :=
  ∀ a, x = .done a → Q a

variable {P Q : α → Prop} {R : β → Prop}

theorem only_done {a : α} (h : Q a) : Only Q (.done a) := by
  intro b hb
  rw [← Outcome.done.inj hb]
  exact h

/-- A fault has no value that could break a condition. -/
theorem only_raised (fault : Fault) : Only Q (.raised fault) := by
  intro b hb
  cases hb

theorem only_exhausted : Only Q .exhausted := by
  intro b hb
  cases hb

/-- What holds of the values in between is all that the second part may use. -/
theorem only_bind {x : Outcome α} {f : α → Outcome β} (hx : x.Only P)
    (hf : ∀ a, P a → (f a).Only R) : (x >>= f).Only R := by
  intro b hb
  obtain ⟨a, ha, hab⟩ := bind_eq_done hb
  exact hf a (hx a ha) b hab

/-- Nothing has to be known of the first part. -/
theorem only_bind_any {x : Outcome α} {f : α → Outcome β} (hf : ∀ a, (f a).Only R) :
    (x >>= f).Only R := by
  intro b hb
  obtain ⟨a, -, hab⟩ := bind_eq_done hb
  exact hf a b hab

/-- Both branches may use which of them it is. -/
theorem only_ite {c : Prop} [Decidable c] {x y : Outcome α} (hx : c → x.Only Q)
    (hy : ¬c → y.Only Q) : (if c then x else y).Only Q := by
  split
  · next h => exact hx h
  · next h => exact hy h

-- ================================================================ total correctness

/-- The outcome has a value. -/
def Returns (x : Outcome α) : Prop :=
  ∃ a, x = .done a

theorem returns_done (a : α) : (Outcome.done a).Returns :=
  ⟨a, rfl⟩

/-- A fault is no value. -/
theorem not_returns_raised (fault : Fault) : ¬(Outcome.raised fault : Outcome α).Returns := by
  rintro ⟨a, h⟩
  cases h

/-- A silent outcome with a value returns it. -/
theorem returns_ofExcept {x : Except Fault α} (h : ∃ a, x = .ok a) : (ofExcept x).Returns := by
  obtain ⟨a, rfl⟩ := h
  exact returns_done a

/-- Two parts return when the first does and the second does for whatever it may return. -/
theorem returns_bind {x : Outcome α} {f : α → Outcome β} (hx : x.Returns) (honly : x.Only P)
    (hf : ∀ a, P a → (f a).Returns) : (x >>= f).Returns := by
  obtain ⟨a, rfl⟩ := hx
  exact hf a (honly a rfl)

/-- The second part returns whatever the first does. -/
theorem returns_bind_any {x : Outcome α} {f : α → Outcome β} (hx : x.Returns)
    (hf : ∀ a, (f a).Returns) : (x >>= f).Returns := by
  obtain ⟨a, rfl⟩ := hx
  exact hf a

/-- Both branches return, each where it is taken. -/
theorem returns_ite {c : Prop} [Decidable c] {x y : Outcome α} (hx : c → x.Returns)
    (hy : ¬c → y.Returns) : (if c then x else y).Returns := by
  split
  · next h => exact hx h
  · next h => exact hy h

-- ================================================================ outcomes alike

/-- Two outcomes of the same kind: related values, the same fault, or the end of the fuel. -/
inductive Alike (Q : α → α → Prop) : Outcome α → Outcome α → Prop
  | done {a b : α} (h : Q a b) : Alike Q (.done a) (.done b)
  | raised (fault : Fault) : Alike Q (.raised fault) (.raised fault)
  | exhausted : Alike Q .exhausted .exhausted

section

variable {P : α → α → Prop} {R : β → β → Prop}

theorem alike_refl (x : Outcome α) : x.Alike Eq x := by
  cases x with
  | done a => exact .done rfl
  | raised fault => exact .raised fault
  | exhausted => exact .exhausted

/-- Outcomes in a row end alike if the first do and what follows alike values does. -/
theorem alike_bind {x y : Outcome α} {f g : α → Outcome β} (hx : x.Alike P y)
    (hf : ∀ a b, P a b → (f a).Alike R (g b)) : (x >>= f).Alike R (y >>= g) := by
  cases hx with
  | done h => exact hf _ _ h
  | raised fault => exact .raised fault
  | exhausted => exact .exhausted

/-- Outcomes that end alike are without an end together. -/
theorem Alike.exhausted_iff {x y : Outcome α} (h : x.Alike P y) :
    x = .exhausted ↔ y = .exhausted := by
  cases h <;> simp

/-- A value on one side has one on the other. -/
theorem Alike.exists_done {x y : Outcome α} (h : x.Alike P y) {a : α} (hx : x = .done a) :
    ∃ b, y = .done b ∧ P a b := by
  subst hx
  cases h with
  | done h => exact ⟨_, rfl, h⟩

/-- Outcomes are the same when related values are. -/
theorem Alike.eq {x y : Outcome α} (h : x.Alike P y) (hP : ∀ a b, P a b → b = a) : y = x := by
  cases h with
  | done hab => rw [hP _ _ hab]
  | raised fault => rfl
  | exhausted => rfl

/-- The same silent computation comes first in both. -/
theorem alike_ofExcept_bind (x : Except Fault α) {f g : α → Outcome β}
    (hf : ∀ a, (f a).Alike R (g a)) : (ofExcept x >>= f).Alike R (ofExcept x >>= g) := by
  cases x with
  | ok a => exact hf a
  | error fault => exact .raised fault

/-- The first parts return, and nothing depends on what. -/
theorem alike_returns_bind {x y : Outcome α} {f g : α → Outcome β} (hx : x.Returns)
    (hy : y.Returns) (hf : ∀ a b, (f a).Alike R (g b)) : (x >>= f).Alike R (y >>= g) := by
  obtain ⟨a, rfl⟩ := hx
  obtain ⟨b, rfl⟩ := hy
  exact hf a b

end

end Outcome

/-- The outcome of two answers in a row. -/
theorem Answer.outcome_bind {α β : Type} (x : Answer α) (f : α → Answer β) :
    (x >>= f).outcome = x.outcome >>= fun a => (f a).outcome := by
  show (Answer.bind x f).outcome = _
  unfold Answer.bind
  cases x.outcome <;> rfl

end ParserAlgebra
