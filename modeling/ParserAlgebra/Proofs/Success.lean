import Mathlib.Data.List.Forall2
import Mathlib.Data.List.Zip
import Mathlib.Order.Filter.AtTopBot.Basic
import ParserAlgebra.Proofs.Dependence

/-!
Details of a failure never leak into a success.

# Success equivalence

Two parsers are success-equivalent when from every live state they return the same state if they
succeed, and one fails if and only if the other does. Where and how they fail is left open: the
failed states may differ in index, result and message.

# Variations of a grammar

`Parser.Varies B O c d` says that `d` is `c` with some of its parsers exchanged for partners under
`B`, anywhere below any combinators, and with error maps put in or taken out anywhere. A deferred
node becomes its partner under `O`, and rules vary when such partners stand for variations, so the
exchange may happen in the rules and in the bodies that are built at run time. The main statement is
that a variation by success-equivalent partners is success-equivalent: every way back from a failure
goes back to the state before the attempt, and what is seen of a failed attempt is only that it
failed.

# How the two runs are compared

The runs need not take the same fuel, since the partners may do very different things. So a run
that ends, at whatever fuel, is followed by one that ends in an agreeing state at every fuel from
some point on (`Outcome.Leads`).
-/
namespace ParserAlgebra

open Filter Outcome

-- ================================================================ success equivalence

/-- From `s` the parser returns `t`, in a new session and given enough fuel. -/
def Parser.Reaches (rules : Rules) (p : Parser) (s t : State) : Prop :=
  ∃ fuel, (p.eval rules fuel 0 s {}).1 = .done t

/-- Two parsers, each with the rules of its grammar, that succeed from the same states with the
same states, and fail from the same states. For parsers that always return the second half follows
from the first (`successEquivalent_of_returns`). -/
structure Parser.SuccessEquivalent (rules : Rules) (p : Parser) (rules' : Rules) (q : Parser) :
    Prop where
  succeeds : ∀ s t, s.failed = false → t.failed = false →
    (p.Reaches rules s t ↔ q.Reaches rules' s t)
  fails : ∀ s, s.failed = false →
    ((∃ t, t.failed = true ∧ p.Reaches rules s t) ↔ ∃ t, t.failed = true ∧ q.Reaches rules' s t)

/-- Two states that differ in nothing but the details of a failure. -/
inductive State.Agree : State → State → Prop
  | same (t : State) : State.Agree t t
  | failed {t u : State} (ht : t.failed = true) (hu : u.failed = true) : State.Agree t u

open State (Agree)

section

variable {rules rules' : Rules} {p q : Parser}

/-- What can be reached is what the plain evaluator ends in. -/
theorem Parser.reaches_iff_apply {s t : State} :
    p.Reaches rules s t ↔ ∃ fuel, p.apply rules fuel s = .done t := by
  simp only [Parser.Reaches, Parser.eval_eq_apply (Session.faithful_empty rules)]

/-- What is returned at one fuel is returned at all larger ones. -/
theorem Parser.reaches_iff_eventually {s t : State} :
    p.Reaches rules s t ↔ ∀ᶠ fuel in atTop, p.apply rules fuel s = .done t := by
  rw [Parser.reaches_iff_apply]
  refine ⟨?_, Eventually.exists⟩
  intro h
  obtain ⟨fuel, hfuel⟩ := h
  filter_upwards [eventually_ge_atTop fuel] with more hle
  rw [← hfuel]
  refine p.apply_mono rules hle s ?_
  rw [hfuel]
  intro h
  cases h

/-- Whatever one of two success-equivalent parsers returns, the other returns something that
agrees. -/
theorem Parser.SuccessEquivalent.agree (h : SuccessEquivalent rules p rules' q) {s t : State}
    (hs : s.failed = false) (ht : p.Reaches rules s t) :
    ∃ u, Agree t u ∧ q.Reaches rules' s u := by
  cases hfailed : t.failed with
  | false => exact ⟨t, .same t, (h.succeeds s t hs hfailed).mp ht⟩
  | true =>
      obtain ⟨u, hu, hreaches⟩ := (h.fails s hs).mp ⟨t, hfailed, ht⟩
      exact ⟨u, .failed hfailed hu, hreaches⟩

/-- The relation may be read from both sides. -/
theorem Parser.SuccessEquivalent.symm (h : SuccessEquivalent rules p rules' q) :
    SuccessEquivalent rules' q rules p :=
  ⟨fun s t hs ht => (h.succeeds s t hs ht).symm, fun s hs => (h.fails s hs).symm⟩

/-- From one state at most one state is reached. -/
theorem Parser.Reaches.unique {s t u : State} (ht : p.Reaches rules s t)
    (hu : p.Reaches rules s u) : t = u := by
  rw [Parser.reaches_iff_eventually] at ht hu
  obtain ⟨fuel, hfuel, hfuel'⟩ := (ht.and hu).exists
  rw [hfuel] at hfuel'
  exact Outcome.done.inj hfuel'

/-- Where both parsers return, one that does not succeed fails. -/
theorem Parser.successEquivalent_of_returns
    (hp : ∀ s, s.failed = false → ∃ t, p.Reaches rules s t)
    (hq : ∀ s, s.failed = false → ∃ t, q.Reaches rules' s t)
    (h : ∀ s t, s.failed = false → t.failed = false →
      (p.Reaches rules s t ↔ q.Reaches rules' s t)) :
    SuccessEquivalent rules p rules' q := by
  refine ⟨h, fun s hs => ⟨fun hfails => ?_, fun hfails => ?_⟩⟩
  · obtain ⟨t, hfailed, ht⟩ := hfails
    obtain ⟨u, hu⟩ := hq s hs
    refine ⟨u, ?_, hu⟩
    cases hlive : u.failed with
    | true => rfl
    | false =>
        rw [ht.unique ((h s u hs hlive).mpr hu), hlive] at hfailed
        cases hfailed
  · obtain ⟨u, hfailed, hu⟩ := hfails
    obtain ⟨t, ht⟩ := hp s hs
    refine ⟨t, ?_, ht⟩
    cases hlive : t.failed with
    | true => rfl
    | false =>
        rw [hu.unique ((h s t hs hlive).mp ht), hlive] at hfailed
        cases hfailed

/-- Agreement in both directions is success equivalence. -/
theorem Parser.successEquivalent_of_agree
    (hpq : ∀ s t, p.Reaches rules s t → ∃ u, Agree t u ∧ q.Reaches rules' s u)
    (hqp : ∀ s t, q.Reaches rules' s t → ∃ u, Agree t u ∧ p.Reaches rules s u) :
    SuccessEquivalent rules p rules' q := by
  have hsucceeds : ∀ {P Q : State → Prop}, (∀ t, P t → ∃ u, Agree t u ∧ Q u) →
      ∀ t, t.failed = false → P t → Q t := by
    intro P Q h t hlive ht
    obtain ⟨u, hagree, hu⟩ := h t ht
    cases hagree with
    | same => exact hu
    | failed hfailed _ => rw [hfailed] at hlive; cases hlive
  have hfails : ∀ {P Q : State → Prop}, (∀ t, P t → ∃ u, Agree t u ∧ Q u) →
      (∃ t, t.failed = true ∧ P t) → ∃ u, u.failed = true ∧ Q u := by
    intro P Q h hP
    obtain ⟨t, hfailed, ht⟩ := hP
    obtain ⟨u, hagree, hu⟩ := h t ht
    cases hagree with
    | same => exact ⟨t, hfailed, hu⟩
    | failed _ hfailed' => exact ⟨u, hfailed', hu⟩
  constructor
  · intro s t _ ht
    exact ⟨hsucceeds (hpq s) t ht, hsucceeds (hqp s) t ht⟩
  · intro s _
    exact ⟨hfails (hpq s), hfails (hqp s)⟩

end

-- ================================================================ runs that follow a run

section

variable {α β : Type} {P Q : α → α → Prop} {R : β → β → Prop}

/-- If `x` ends in a value, then `y` ends in a value that `Q` relates to it, at every fuel from
some point on. -/
def Outcome.Leads (Q : α → α → Prop) (x : Outcome α) (y : Nat → Outcome α) : Prop :=
  ∀ a, x = .done a → ∃ b, Q a b ∧ ∀ᶠ fuel in atTop, y fuel = .done b

namespace Outcome

theorem leads_pure {a b : α} (h : Q a b) : Leads Q (pure a) fun _ => pure b := by
  intro c hc
  obtain rfl := Outcome.done.inj hc
  exact ⟨b, h, Eventually.of_forall fun _ => rfl⟩

/-- Nothing is asked for where the first computation faults. -/
theorem leads_raised (fault : Fault) (y : Nat → Outcome α) : Leads Q (.raised fault) y := by
  intro a ha
  cases ha

/-- Nor where it has no end. -/
theorem leads_exhausted (y : Nat → Outcome α) : Leads Q .exhausted y := by
  intro a ha
  cases ha

/-- Outcomes in a row lead to each other if the first do and what follows them does. -/
theorem leads_bind {x : Outcome α} {y : Nat → Outcome α} {f : α → Outcome β}
    {g : Nat → α → Outcome β} (hx : Leads P x y)
    (hf : ∀ a b, P a b → Leads R (f a) fun fuel => g fuel b) :
    Leads R (x >>= f) fun fuel => y fuel >>= g fuel := by
  intro c hc
  obtain ⟨a, ha, hac⟩ := bind_eq_done hc
  obtain ⟨b, hab, hy⟩ := hx a ha
  obtain ⟨d, hcd, hg⟩ := hf a b hab c hac
  refine ⟨d, hcd, ?_⟩
  filter_upwards [hy, hg] with fuel hfuel hfuel'
  rw [hfuel, done_bind, hfuel']

/-- The same silent computation comes first in both. -/
theorem leads_ofExcept_bind {x : Except Fault α} {f : α → Outcome β} {g : Nat → α → Outcome β}
    (hf : ∀ a, Leads R (f a) fun fuel => g fuel a) :
    Leads R (ofExcept x >>= f) fun fuel => ofExcept x >>= g fuel := by
  cases x with
  | ok a => exact hf a
  | error fault => exact leads_raised fault _

theorem leads_ite {c : Prop} [Decidable c] {x x' : Outcome α} {y y' : Nat → Outcome α}
    (hx : Leads Q x y) (hx' : Leads Q x' y') :
    Leads Q (if c then x else x') fun fuel => if c then y fuel else y' fuel := by
  split
  · exact hx
  · exact hx'

theorem Leads.mono {x : Outcome α} {y : Nat → Outcome α} (h : Leads P x y)
    (hPQ : ∀ a b, P a b → Q a b) : Leads Q x y := by
  intro a ha
  obtain ⟨b, hab, hy⟩ := h a ha
  exact ⟨b, hPQ a b hab, hy⟩

/-- Only large fuels matter. -/
theorem Leads.congr {x : Outcome α} {y z : Nat → Outcome α} (h : Leads Q x y)
    (hyz : ∀ᶠ fuel in atTop, z fuel = y fuel) : Leads Q x z := by
  intro a ha
  obtain ⟨b, hab, hy⟩ := h a ha
  refine ⟨b, hab, ?_⟩
  filter_upwards [hy, hyz] with fuel hfuel hsame
  rw [hsame, hfuel]

end Outcome

end

section

variable {s t u : State} {x : Outcome State} {y : Nat → Outcome State}

theorem leads_agree (h : x.Leads Eq y) : x.Leads Agree y := by
  refine h.mono ?_
  intro t t' heq
  subst heq
  exact .same t

/-- A failed state is returned as it is. -/
theorem leads_live (h : x.Leads Agree y) :
    (if s.failed then pure s else x).Leads Agree fun fuel => if s.failed then pure s else y fuel :=
  leads_ite (leads_pure (.same s)) h

/-- A failure is handed on; after a success the runs are in one state. -/
theorem leads_next (h : Agree t u) (hxy : u = t → x.Leads Agree y) :
    (if t.failed then pure t else x).Leads Agree fun fuel =>
      if u.failed then pure u else y fuel := by
  cases h with
  | same => exact leads_ite (leads_pure (.same t)) (hxy rfl)
  | failed ht hu =>
      simp only [if_pos ht, if_pos hu]
      exact leads_pure (.failed ht hu)

/-- A failure is forgotten, and the other way is tried from the start; a success is the end. -/
theorem leads_otherwise (h : Agree t u) (hxy : x.Leads Agree y) :
    (if t.failed then x else pure t).Leads Agree fun fuel =>
      if u.failed then y fuel else pure u := by
  cases h with
  | same => exact leads_ite hxy (leads_pure (.same t))
  | failed ht hu =>
      simp only [if_pos ht, if_pos hu]
      exact hxy

end

-- ================================================================ repetitions

section

variable {attempt separator value : State → Outcome State}
  {attempt' separator' value' : Nat → State → Outcome State}

-- At the `k`-th round the second repetition has `k` rounds less than its fuel; with enough fuel
-- that is still enough.

/-- Rounds that are taken off the fuel are there in the long run. -/
theorem eventually_sub_succ (k : Nat) : ∀ᶠ fuel in atTop, fuel - k = fuel - (k + 1) + 1 := by
  filter_upwards [eventually_gt_atTop k] with fuel hfuel
  omega

/-- A round takes one off the rounds on both sides, and for the second there is always fuel enough.
-/
theorem manyLoop_leads (hattempt : ∀ s, (attempt s).Leads Agree fun fuel => attempt' fuel s) :
    ∀ rounds k results s, (manyLoop attempt rounds results s).Leads Eq fun fuel =>
      manyLoop (attempt' fuel) (fuel - k) results s := by
  intro rounds
  induction rounds with
  | zero => intro k results s; exact leads_exhausted _
  | succ rounds ih =>
      intro k results s
      refine Leads.congr ?_ ((eventually_sub_succ k).mono fun fuel h => by rw [h])
      simp only [manyLoop]
      refine leads_bind (hattempt s) fun t u htu => ?_
      cases htu with
      | same => exact leads_ite (leads_pure rfl) (ih (k + 1) _ t)
      | failed ht hu =>
          simp only [ht, hu, Bool.true_or, if_true]
          exact leads_pure rfl

/-- So does a round with a separator. -/
theorem separatedLoop_leads
    (hseparator : ∀ s, (separator s).Leads Agree fun fuel => separator' fuel s)
    (hvalue : ∀ s, (value s).Leads Agree fun fuel => value' fuel s) :
    ∀ rounds k results s, (separatedLoop separator value rounds results s).Leads Eq fun fuel =>
      separatedLoop (separator' fuel) (value' fuel) (fuel - k) results s := by
  intro rounds
  induction rounds with
  | zero => intro k results s; exact leads_exhausted _
  | succ rounds ih =>
      intro k results s
      refine Leads.congr ?_ ((eventually_sub_succ k).mono fun fuel h => by rw [h])
      simp only [separatedLoop]
      refine leads_bind (hseparator s) fun t u htu => ?_
      cases htu with
      | same =>
          refine leads_ite (leads_pure rfl) (leads_bind (hvalue t) fun v w hvw => ?_)
          cases hvw with
          | same => exact leads_ite (leads_pure rfl) (ih (k + 1) _ v)
          | failed hv hw =>
              simp only [hv, hw, Bool.true_or, if_true]
              exact leads_pure rfl
      | failed ht hu =>
          simp only [ht, hu, if_true]
          exact leads_pure rfl

/-- The first value and the rounds behind it lead to those of the other repetition. -/
theorem separated_leads
    (hseparator : ∀ s, (separator s).Leads Agree fun fuel => separator' fuel s)
    (hvalue : ∀ s, (value s).Leads Agree fun fuel => value' fuel s) (rounds : Nat) (s : State) :
    (separated separator value rounds s).Leads Eq fun fuel =>
      separated (separator' fuel) (value' fuel) fuel s := by
  simp only [separated]
  refine leads_bind (hvalue s) fun t u htu => ?_
  cases htu with
  | same =>
      refine leads_ite (leads_pure rfl) ?_
      exact separatedLoop_leads hseparator hvalue rounds 0 _ t
  | failed ht hu =>
      simp only [ht, hu, if_true]
      exact leads_pure rfl

end

-- ================================================================ variations

/-- A node without other parsers below it. -/
def Parser.IsLeaf : Parser → Prop
  | .succeed _ | .fail _ | .satisfy _ _ | .literal _ | .pattern _ _ | .endOfInput | .bit | .jump _
  | .check _ _ _ | .trace _ | .raise _ => True
  | _ => False

/-- A rewording that gives a message whatever it is asked. -/
def Rewords (f : Value → Nat → Answer Value) : Prop :=
  ∀ message index, ∃ reworded, (f message index).outcome = .ok reworded

/-- `Varies B O c d`: the parser `d` is `c` with some parsers exchanged for partners under `B` and
with error maps put in or taken out, anywhere in the tree. Deferred nodes are partners under `O`. -/
inductive Parser.Varies (B : Parser → Parser → Prop) (O : Deferred → Deferred → Prop) :
    Parser → Parser → Prop
  | exchange {p q : Parser} (h : B p q) : Varies B O p q
  | putIn {p q : Parser} {f : Value → Nat → Answer Value} (hf : Rewords f) (h : Varies B O p q) :
      Varies B O p (.errorMap q f)
  | takeOut {p q : Parser} {f : Value → Nat → Answer Value} (hf : Rewords f) (h : Varies B O p q) :
      Varies B O (.errorMap p f) q
  | leaf {p : Parser} (h : p.IsLeaf) : Varies B O p p
  | map {p q : Parser} (f : Value → Answer Value) (h : Varies B O p q) :
      Varies B O (.map p f) (.map q f)
  | chain {p q : Parser} {next next' : Value → Parser} (h : Varies B O p q)
      (hnext : ∀ value, Varies B O (next value) (next' value)) :
      Varies B O (.chain p next) (.chain q next')
  | lookAhead {p q : Parser} (h : Varies B O p q) : Varies B O (.lookAhead p) (.lookAhead q)
  | many {p q : Parser} (h : Varies B O p q) : Varies B O (.many p) (.many q)
  | many1 {p q : Parser} (h : Varies B O p q) : Varies B O (.many1 p) (.many1 q)
  | orElse {p p' q q' : Parser} (hp : Varies B O p p') (hq : Varies B O q q') :
      Varies B O (.orElse p q) (.orElse p' q')
  | sepBy {p p' q q' : Parser} (hp : Varies B O p p') (hq : Varies B O q q') :
      Varies B O (.sepBy p q) (.sepBy p' q')
  | sepBy1 {p p' q q' : Parser} (hp : Varies B O p p') (hq : Varies B O q q') :
      Varies B O (.sepBy1 p q) (.sepBy1 p' q')
  | sequence {ps qs : List Parser} (hlength : ps.length = qs.length)
      (h : ∀ p q, (p, q) ∈ ps.zip qs → Varies B O p q) : Varies B O (.sequence ps) (.sequence qs)
  | choice {ps qs : List Parser} (hlength : ps.length = qs.length)
      (h : ∀ p q, (p, q) ∈ ps.zip qs → Varies B O p q) : Varies B O (.choice ps) (.choice qs)
  -- a step program varies step by step
  | finish (tag : Option String) (value : Value) :
      Varies B O (.contextual tag (.done value)) (.contextual tag (.done value))
  | step {tag : Option String} {p q : Parser} {next next' : Value → Program} (h : Varies B O p q)
      (hnext : ∀ value, Varies B O (.contextual tag (next value)) (.contextual tag (next' value))) :
      Varies B O (.contextual tag (.step p next)) (.contextual tag (.step q next'))
  | noting {tag : Option String} {rest rest' : Program} (events : List Event)
      (h : Varies B O (.contextual tag rest) (.contextual tag rest')) :
      Varies B O (.contextual tag (.noting events rest)) (.contextual tag (.noting events rest'))
  | giveUp (tag : Option String) (fault : Fault) :
      Varies B O (.contextual tag (.raise fault)) (.contextual tag (.raise fault))
  | deferred {object object' : Deferred} (h : O object object') :
      Varies B O (.deferred object) (.deferred object')
  | traced {p q : Parser} (label : String) (h : Varies B O p q) :
      Varies B O (.traced label p) (.traced label q)

section

variable {B : Parser → Parser → Prop} {O : Deferred → Deferred → Prop}

/-- A label is an error map that always gives a message. -/
theorem Parser.Varies.label {p q : Parser} (h : Varies B O p q) (name : Value) :
    Varies B O p (q.label name) :=
  .putIn (fun _ _ => ⟨_, rfl⟩) h

/-- What is expected of a result stays what it is. -/
theorem Parser.Varies.expect {p q : Parser} (expected : Value)
    (message : Option (Value → Int → Answer Value)) (h : Varies B O p q) :
    Varies B O (p.expect expected message) (q.expect expected message) :=
  .chain h fun _ => .leaf trivial

/-- What stands between two parsers may vary, and so may they. -/
theorem Parser.Varies.between {left left' right right' p q : Parser}
    (hleft : Varies B O left left') (hright : Varies B O right right') (h : Varies B O p q) :
    Varies B O (.between left right p) (.between left' right' q) := by
  refine .map _ (.sequence rfl fun member member' hmem => ?_)
  simp only [List.zip_cons_cons, List.zip_nil_right, List.mem_cons, Prod.mk.injEq,
    List.not_mem_nil, or_false] at hmem
  obtain ⟨rfl, rfl⟩ | ⟨rfl, rfl⟩ | ⟨rfl, rfl⟩ := hmem
  · exact hleft
  · exact h
  · exact hright

/-- An error map that gives a message whatever it is asked; any other node. -/
def Parser.Rewording : Parser → Prop
  | .errorMap _ f => Rewords f
  | _ => True

/-- A parser is a variation of itself. -/
theorem Parser.Varies.refl (hO : ∀ object, O object object) {p : Parser}
    (hp : p.Every Rewording) :
    Varies B O p p := by
  have hzip : ∀ {ps : List Parser}, (∀ p ∈ ps, Varies B O p p) →
      ∀ p q, (p, q) ∈ ps.zip ps → Varies B O p q := by
    intro ps h p q hmem
    exact (List.forall₂_iff_zip.mp (List.forall₂_same.mpr h)).2 hmem
  induction p with
  | succeed | fail | satisfy | literal | pattern | endOfInput | bit | jump | check | trace
  | raise =>
      exact .leaf trivial
  | map p f ih => exact .map f (ih hp.2)
  | chain p next ihp ihnext =>
      exact .chain (ihp hp.2.1) fun value => ihnext value (hp.2.2 value)
  | errorMap p f ih => exact .takeOut hp.1 (.putIn hp.1 (ih hp.2))
  | lookAhead p ih => exact .lookAhead (ih hp.2)
  | many p ih => exact .many (ih hp.2)
  | many1 p ih => exact .many1 (ih hp.2)
  | orElse p q ihp ihq => exact .orElse (ihp hp.2.1) (ihq hp.2.2)
  | sepBy separator value ihs ihv => exact .sepBy (ihs hp.2.1) (ihv hp.2.2)
  | sepBy1 separator value ihs ihv => exact .sepBy1 (ihs hp.2.1) (ihv hp.2.2)
  | sequence ps ih =>
      exact .sequence rfl (hzip fun p hmem => ih p hmem (everyOf_iff.mp hp.2 p hmem))
  | choice ps ih =>
      exact .choice rfl (hzip fun p hmem => ih p hmem (everyOf_iff.mp hp.2 p hmem))
  | contextual tag program ih =>
      have hall := ih.of_every hp.2
      clear ih hp
      induction program with
      | done value => exact .finish tag value
      | step p next ihnext => exact .step hall.1 fun value => ihnext value (hall.2 value)
      | noting events rest ihrest => exact .noting events (ihrest hall)
      | raise fault => exact .giveUp tag fault
  | deferred object => exact .deferred (hO object)
  | traced label p ih => exact .traced label (ih hp.2)

end

/-- Rules vary when partners among the deferred nodes stand for variations. -/
structure Rules.Vary (B : Parser → Parser → Prop) (O : Deferred → Deferred → Prop)
    (rules rules' : Rules) : Prop where
  forth : ∀ object object' p, O object object' → rules.tree object = .ok p →
    ∃ q, rules'.tree object' = .ok q ∧ Parser.Varies B O p q
  back : ∀ object object' q, O object object' → rules'.tree object' = .ok q →
    ∃ p, rules.tree object = .ok p ∧ Parser.Varies B O p q

-- ================================================================ a variation follows

section

variable {tree : Deferred → State → Outcome State} {rounds : Nat}

/-- What a leaf does depends neither on the rules nor on the fuel. -/
theorem Parser.IsLeaf.denote_eq {p : Parser} (h : p.IsLeaf)
    (tree' : Deferred → State → Outcome State) (rounds' : Nat) (s : State) :
    p.denote tree' rounds' s = p.denote tree rounds s := by
  cases p with
  | succeed | fail | satisfy | literal | pattern | endOfInput | bit | jump | check | trace
  | raise =>
      rw [Parser.denote, Parser.denote]
  | _ => exact h.elim

theorem State.Agree.symm {t u : State} (h : Agree t u) : Agree u t := by
  cases h with
  | same => exact .same t
  | failed ht hu => exact .failed hu ht

theorem State.Agree.trans {t u v : State} (htu : Agree t u) (huv : Agree u v) : Agree t v := by
  cases htu with
  | same => exact huv
  | failed ht hu =>
      cases huv with
      | same => exact .failed ht hu
      | failed _ hv => exact .failed ht hv

/-- An error map that gives a message changes a state to one that agrees. -/
theorem Rewords.agree {f : Value → Nat → Answer Value} (hf : Rewords f) (u : State) :
    ∃ v, Agree u v ∧ ∀ (tree : Deferred → State → Outcome State) (rounds : Nat) (p : Parser)
      (s : State), s.failed = false → p.denote tree rounds s = .done u →
        (p.errorMap f).denote tree rounds s = .done v := by
  cases hu : u.failed with
  | false =>
      refine ⟨u, .same u, fun tree rounds p s hs hp => ?_⟩
      rw [Parser.denote, hs, hp, done_bind, hu]
      rfl
  | true =>
      obtain ⟨text, htext⟩ := hf u.error u.index
      refine ⟨u.withError text, .failed hu rfl, fun tree rounds p s hs hp => ?_⟩
      rw [Parser.denote, hs, hp, done_bind, hu, if_pos rfl, machine_ofAnswer, htext]
      rfl

/-- What comes out of an error map agrees with what went in. -/
theorem Parser.agree_of_errorMap {p : Parser} {f : Value → Nat → Answer Value} {s t : State}
    (h : (p.errorMap f).denote tree rounds s = .done t) :
    ∃ u, p.denote tree rounds s = .done u ∧ Agree u t := by
  by_cases hs : s.failed = true
  · rw [Parser.denote_of_failed _ hs] at h ⊢
    exact ⟨t, h, .same t⟩
  · rw [Parser.denote, if_neg hs] at h
    obtain ⟨u, hu, h⟩ := bind_eq_done h
    refine ⟨u, hu, ?_⟩
    split at h
    · next hfailed =>
        obtain ⟨text, -, h⟩ := bind_eq_done h
        rw [← Outcome.done.inj h]
        exact .failed hfailed rfl
    · rw [Outcome.done.inj h]
      exact .same t

end

section

variable {tree : Deferred → State → Outcome State} {rounds : Nat}
  {tree' : Nat → Deferred → State → Outcome State}

/-- In a row each parser leads to the one in its place. -/
theorem denoteAll_leads {ps qs : List Parser}
    (h : List.Forall₂ (fun p q => ∀ s, (p.denote tree rounds s).Leads Agree fun fuel =>
      q.denote (tree' fuel) fuel s) ps qs) :
    ∀ results s, (denoteAll tree rounds ps results s).Leads Agree fun fuel =>
      denoteAll (tree' fuel) fuel qs results s := by
  induction h with
  | nil =>
      intro results s
      simp only [denoteAll]
      exact leads_pure (.same _)
  | cons hpq _ ih =>
      intro results s
      simp only [denoteAll]
      refine leads_bind (hpq s) fun t u htu => leads_next htu ?_
      intro heq
      subst heq
      exact ih _ u

/-- The messages gathered on the way differ, and show in nothing but another message. -/
theorem denoteFirst_leads {ps qs : List Parser}
    (h : List.Forall₂ (fun p q => ∀ s, (p.denote tree rounds s).Leads Agree fun fuel =>
      q.denote (tree' fuel) fuel s) ps qs) :
    ∀ errors errors' s, (denoteFirst tree rounds ps errors s).Leads Agree fun fuel =>
      denoteFirst (tree' fuel) fuel qs errors' s := by
  have hchoice : ∀ (s : State) errors, (s.failChoice errors).failed = true := by
    intro s errors
    cases errors <;> rfl
  induction h with
  | nil =>
      intro errors errors' s
      simp only [denoteFirst]
      exact leads_pure (.failed (hchoice _ _) (hchoice _ _))
  | cons hpq _ ih =>
      intro errors errors' s
      simp only [denoteFirst]
      exact leads_bind (hpq s) fun t u htu => leads_otherwise htu (ih _ _ s)

/-- The run of a variation follows that of the original, once those of the partners and of the
deferred nodes do. -/
theorem Parser.Varies.leads {B : Parser → Parser → Prop} {O : Deferred → Deferred → Prop}
    (hpartners : ∀ p q, B p q → ∀ s, (p.denote tree rounds s).Leads Agree fun fuel =>
      q.denote (tree' fuel) fuel s)
    (hdeferred : ∀ object object', O object object' → ∀ s,
      (tree object s).Leads Agree fun fuel => tree' fuel object' s)
    {c d : Parser} (h : Varies B O c d) :
    ∀ s, (c.denote tree rounds s).Leads Agree fun fuel => d.denote (tree' fuel) fuel s := by
  induction h with
  | exchange h => exact hpartners _ _ h
  | putIn hf _ ih =>
      intro s
      by_cases hs : s.failed = true
      · simp only [Parser.denote_of_failed _ hs]
        exact leads_pure (.same s)
      · intro t ht
        obtain ⟨u, htu, hu⟩ := ih s t ht
        obtain ⟨v, huv, hv⟩ := hf.agree u
        refine ⟨v, htu.trans huv, ?_⟩
        filter_upwards [hu] with fuel hfuel
        exact hv _ _ _ s (Bool.eq_false_of_not_eq_true hs) hfuel
  | takeOut hf _ ih =>
      intro s t ht
      obtain ⟨u, hu, hut⟩ := agree_of_errorMap ht
      obtain ⟨v, huv, hv⟩ := ih s u hu
      exact ⟨v, hut.symm.trans huv, hv⟩
  | leaf h =>
      intro s t ht
      refine ⟨t, .same t, Eventually.of_forall fun fuel => ?_⟩
      rw [← ht]
      exact h.denote_eq _ _ s
  | map f _ ih =>
      intro s
      simp only [Parser.denote]
      refine leads_live (leads_bind (ih s) fun t u htu => leads_next htu ?_)
      intro heq
      subst heq
      exact leads_ofExcept_bind fun value => leads_pure (.same _)
  | chain _ _ ih ihnext =>
      intro s
      simp only [Parser.denote]
      refine leads_live (leads_bind (ih s) fun t u htu => leads_next htu ?_)
      intro heq
      subst heq
      exact ihnext u.result u
  | lookAhead _ ih =>
      intro s
      simp only [Parser.denote]
      refine leads_live (leads_bind (ih s) fun t u htu => leads_next htu ?_)
      intro heq
      subst heq
      exact leads_pure (.same _)
  | many _ ih =>
      intro s
      simp only [Parser.denote]
      exact leads_live (leads_agree (manyLoop_leads ih rounds 0 [] s))
  | many1 _ ih =>
      intro s
      simp only [Parser.denote]
      refine leads_live (leads_bind (ih s) fun t u htu => ?_)
      cases htu with
      | same =>
          refine leads_ite (leads_pure (.same _)) ?_
          refine leads_bind (manyLoop_leads ih rounds 0 [] t) ?_
          intro rest rest' heq
          subst heq
          exact leads_pure (.same _)
      | failed ht hu =>
          simp only [ht, hu, if_true]
          exact leads_pure (.same _)
  | orElse _ _ ihp ihq =>
      intro s
      simp only [Parser.denote]
      refine leads_live (leads_bind (ihp s) fun t u htu => ?_)
      exact leads_otherwise htu (ihq s)
  | sepBy _ _ ihs ihv =>
      intro s
      simp only [Parser.denote]
      exact leads_live (leads_agree (separated_leads ihs ihv rounds s))
  | sepBy1 _ _ ihs ihv =>
      intro s
      simp only [Parser.denote]
      refine leads_live (leads_bind (separated_leads ihs ihv rounds s) ?_)
      intro t t' heq
      subst heq
      exact leads_ite (leads_pure (.same t)) (leads_pure (.same _))
  | sequence hlength _ ih =>
      intro s
      simp only [Parser.denote]
      refine leads_live (denoteAll_leads (List.forall₂_iff_zip.mpr ⟨hlength, ?_⟩) [] s)
      exact fun hmem => ih _ _ hmem
  | choice hlength _ ih =>
      intro s
      simp only [Parser.denote]
      refine leads_live (denoteFirst_leads (List.forall₂_iff_zip.mpr ⟨hlength, ?_⟩) [] [] s)
      exact fun hmem => ih _ _ hmem
  | finish tag value =>
      intro s
      simp only [Parser.denote, Program.denote]
      exact leads_live (leads_pure (.same _))
  | step _ _ ih ihnext =>
      intro s
      simp only [Parser.denote, Program.denote]
      refine leads_live (leads_bind (ih s) fun t u htu => ?_)
      cases htu with
      | same =>
          have hrest := ihnext t.result t
          simp only [Parser.denote] at hrest
          exact hrest
      | failed ht hu =>
          simp only [ht, hu, if_true]
          exact leads_pure (.failed ht hu)
  | noting events _ ih =>
      intro s
      simp only [Parser.denote, Program.denote] at ih ⊢
      exact ih s
  | giveUp tag fault =>
      intro s
      simp only [Parser.denote, Program.denote]
      exact leads_live (leads_raised fault _)
  | deferred h =>
      intro s
      simp only [Parser.denote]
      exact leads_live (hdeferred _ _ h s)
  | traced label _ ih =>
      intro s
      simp only [Parser.denote]
      exact leads_live (leads_ofExcept_bind fun line => ih s)

end

-- ================================================================ variations are equivalent

/-- Variations can be undone. -/
theorem Parser.Varies.symm {B : Parser → Parser → Prop} {O : Deferred → Deferred → Prop}
    {c d : Parser} (h : Varies B O c d) :
    Varies (fun p q => B q p) (fun object object' => O object' object) d c := by
  have hswap : ∀ {ps qs : List Parser} {p q : Parser}, (q, p) ∈ qs.zip ps → (p, q) ∈ ps.zip qs := by
    intro ps qs p q hmem
    rw [← List.zip_swap] at hmem
    obtain ⟨pair, hpair, heq⟩ := List.mem_map.mp hmem
    cases heq
    exact hpair
  induction h with
  | exchange h => exact .exchange h
  | putIn hf _ ih => exact .takeOut hf ih
  | takeOut hf _ ih => exact .putIn hf ih
  | leaf h => exact .leaf h
  | map f _ ih => exact .map f ih
  | chain _ _ ih ihnext => exact .chain ih ihnext
  | lookAhead _ ih => exact .lookAhead ih
  | many _ ih => exact .many ih
  | many1 _ ih => exact .many1 ih
  | orElse _ _ ihp ihq => exact .orElse ihp ihq
  | sepBy _ _ ihs ihv => exact .sepBy ihs ihv
  | sepBy1 _ _ ihs ihv => exact .sepBy1 ihs ihv
  | sequence hlength _ ih => exact .sequence hlength.symm fun q p hmem => ih p q (hswap hmem)
  | choice hlength _ ih => exact .choice hlength.symm fun q p hmem => ih p q (hswap hmem)
  | finish tag value => exact .finish tag value
  | step _ _ ih ihnext => exact .step ih ihnext
  | noting events _ ih => exact .noting events ih
  | giveUp tag fault => exact .giveUp tag fault
  | deferred h => exact .deferred h
  | traced label _ ih => exact .traced label ih

/-- Rules vary both ways. -/
theorem Rules.Vary.symm {B : Parser → Parser → Prop} {O : Deferred → Deferred → Prop}
    {rules rules' : Rules} (h : Rules.Vary B O rules rules') :
    Rules.Vary (fun p q => B q p) (fun object object' => O object' object) rules' rules := by
  constructor
  · intro object' object q hobjects hq
    obtain ⟨p, hp, hpq⟩ := h.back object object' q hobjects hq
    exact ⟨p, hp, hpq.symm⟩
  · intro object' object p hobjects hp
    obtain ⟨q, hq, hpq⟩ := h.forth object object' p hobjects hp
    exact ⟨q, hq, hpq.symm⟩

section

variable {B : Parser → Parser → Prop} {O : Deferred → Deferred → Prop} {rules rules' : Rules}

/-- Success-equivalent partners follow each other. -/
theorem Parser.SuccessEquivalent.leads {p q : Parser} (h : SuccessEquivalent rules p rules' q)
    (fuel : Nat) (s : State) :
    (p.apply rules fuel s).Leads Agree fun fuel => q.apply rules' fuel s := by
  by_cases hs : s.failed = true
  · simp only [Parser.apply, Parser.denote_of_failed _ hs]
    exact leads_pure (.same s)
  · intro t ht
    have hreaches := Parser.reaches_iff_apply.mpr ⟨fuel, ht⟩
    obtain ⟨u, htu, hu⟩ := h.agree (Bool.eq_false_of_not_eq_true hs) hreaches
    exact ⟨u, htu, Parser.reaches_iff_eventually.mp hu⟩

/-- Deferred nodes follow each other when the rules vary. -/
theorem Rules.Vary.leads (hpartners : ∀ p q, B p q → Parser.SuccessEquivalent rules p rules' q)
    (hrules : Rules.Vary B O rules rules') :
    ∀ fuel object object', O object object' → ∀ s,
      (rules.unfold fuel object s).Leads Agree fun fuel => rules'.unfold fuel object' s := by
  intro fuel
  induction fuel with
  | zero => intro object object' _ s; exact leads_exhausted _
  | succ fuel ih =>
      intro object object' hobjects s t ht
      rw [Rules.unfold] at ht
      obtain ⟨p, hp, ht⟩ := bind_eq_done ht
      obtain ⟨q, hq, hpq⟩ := hrules.forth object object' p hobjects (ofExcept_eq_done hp)
      have hleads := hpq.leads (fun p q h s => (hpartners p q h).leads fuel s) ih s
      obtain ⟨u, htu, hu⟩ := hleads t ht
      refine ⟨u, htu, ?_⟩
      -- the parser of the node runs with one unit of fuel less than the node
      filter_upwards [(tendsto_sub_atTop_nat 1).eventually hu, eventually_gt_atTop 0]
        with fuel hfuel hpos
      obtain ⟨m, rfl⟩ : ∃ m, fuel = m + 1 := ⟨fuel - 1, by omega⟩
      rw [Rules.unfold, hq]
      exact hfuel

/-- A variation reaches states that agree with those of the original. -/
theorem Parser.Varies.reaches (hpartners : ∀ p q, B p q → SuccessEquivalent rules p rules' q)
    (hrules : Rules.Vary B O rules rules') {c d : Parser} (h : Varies B O c d) {s t : State}
    (ht : c.Reaches rules s t) : ∃ u, Agree t u ∧ d.Reaches rules' s u := by
  obtain ⟨fuel, hfuel⟩ := Parser.reaches_iff_apply.mp ht
  have hleads := h.leads (fun p q h s => (hpartners p q h).leads fuel s)
    (hrules.leads hpartners fuel) s
  obtain ⟨u, htu, hu⟩ := hleads t hfuel
  exact ⟨u, htu, Parser.reaches_iff_eventually.mpr hu⟩

end

-- ================================================================ a variation of the nested lists

/-- A last alternative that always fails changes nothing but the failure. -/
theorem Parser.successEquivalent_orElse_fail {rules rules' : Rules} {p : Parser}
    (hsame : ∀ fuel s, p.apply rules' fuel s = p.apply rules fuel s) (message : Value) :
    SuccessEquivalent rules p rules' (p.orElse (.fail message)) := by
  refine successEquivalent_of_agree (fun s t ht => ?_) fun s u hu => ?_
  · obtain ⟨fuel, ht⟩ := Parser.reaches_iff_apply.mp ht
    rw [← hsame, Parser.apply] at ht
    by_cases hs : s.failed = true
    · rw [Parser.denote_of_failed p hs] at ht
      refine ⟨t, .same t, Parser.reaches_iff_apply.mpr ⟨fuel, ?_⟩⟩
      rw [Parser.apply, Parser.denote_of_failed _ hs, ht]
    · by_cases hfailed : t.failed = true
      · refine ⟨s.withError message, .failed hfailed rfl, Parser.reaches_iff_apply.mpr ⟨fuel, ?_⟩⟩
        rw [Parser.apply, Parser.denote, if_neg hs, ht, done_bind, if_pos hfailed]
        rw [Parser.denote, if_neg hs]
        rfl
      · refine ⟨t, .same t, Parser.reaches_iff_apply.mpr ⟨fuel, ?_⟩⟩
        rw [Parser.apply, Parser.denote, if_neg hs, ht, done_bind, if_neg hfailed]
        rfl
  · obtain ⟨fuel, hu⟩ := Parser.reaches_iff_apply.mp hu
    by_cases hs : s.failed = true
    · rw [Parser.apply, Parser.denote_of_failed _ hs] at hu
      refine ⟨u, .same u, Parser.reaches_iff_apply.mpr ⟨fuel, ?_⟩⟩
      rw [Parser.apply, Parser.denote_of_failed _ hs, hu]
    · rw [Parser.apply, Parser.denote, if_neg hs] at hu
      obtain ⟨t, ht, hu⟩ := bind_eq_done hu
      refine ⟨t, ?_, Parser.reaches_iff_apply.mpr ⟨fuel, by rw [← hsame]; exact ht⟩⟩
      split at hu
      · next hfailed =>
          rw [Parser.denote, if_neg hs] at hu
          rw [← Outcome.done.inj hu]
          exact .failed rfl hfailed
      · rw [← Outcome.done.inj hu]
        exact .same t

namespace NestedList

/-- What is not a number is reported as such. -/
def reported : Parser :=
  number.orElse (.fail (.text "not a number"))

/-- The nested lists with another report for numbers and with labels put in, one of them around
the deferred node. -/
def varied : Parser :=
  .choice
    [reported,
     (Parser.between (.symbol '[') (.symbol ']')
       (.sepBy (.symbol ',') ((Parser.deferred (.own 0 rule)).label (.text "value")))).label
         (.text "list")]

/-- The rules of the varied grammar. -/
def variedRules : Rules where
  rule _ := .pure (.parser varied)
  body _ _ := .raise .missingOperation

/-- The numbers are exchanged for those with a report. -/
def Exchanged (p q : Parser) : Prop :=
  p = number ∧ q = reported

/-- The grammar of nested lists varies in its numbers, wherever they stand. -/
theorem varies : Parser.Varies Exchanged Eq parser varied := by
  have hsame : ∀ c, Parser.Varies Exchanged Eq (.symbol c) (.symbol c) :=
    fun _ => .refl (fun _ => rfl) trivial
  have hvalue : Parser.Varies Exchanged Eq (.deferred (.own 0 rule))
      ((Parser.deferred (.own 0 rule)).label (.text "value")) :=
    .label (.deferred rfl) _
  have hlist := (hsame '[').between (hsame ']') ((hsame ',').sepBy hvalue)
  refine .choice rfl fun p q hmem => ?_
  simp only [List.zip_cons_cons, List.zip_nil_right, List.mem_cons, Prod.mk.injEq,
    List.not_mem_nil, or_false] at hmem
  obtain ⟨rfl, rfl⟩ | ⟨rfl, rfl⟩ := hmem
  · exact .exchange ⟨rfl, rfl⟩
  · exact hlist.label _

/-- Its rules vary with it. -/
theorem rules_vary : Rules.Vary Exchanged Eq rules variedRules := by
  constructor
  · intro object object' p hobjects hp
    subst hobjects
    rw [eq_parser_of_tree hp]
    cases object with
    | own | shared => exact ⟨varied, rfl, varies⟩
    | body => cases hp
  · intro object object' q hobjects hq
    subst hobjects
    cases object with
    | own | shared => rw [← Except.ok.inj hq]; exact ⟨parser, rfl, varies⟩
    | body => cases hq

end NestedList

end ParserAlgebra
