import ParserAlgebra.Parser.Eval
import ParserAlgebra.Proofs.Tree

/-!
Runs on two machines.

The evaluator sees of a machine only its operations. So a relation between the computations of two
machines that all of these keep (`Machine.Simulates`) holds between the runs of every parser, once
it holds where a deferred node is run and where a generator lives (`Parser.denote_simulated`). This
is one induction over all combinators. What a run leaves, what is told of it, and how it ends
without a session are compared by giving the relation and checking the operations.
-/
namespace ParserAlgebra

/-- On any machine a failed state is returned, and nothing happens. -/
theorem Parser.denote_of_failed {m : Type → Type} [Machine m] {defer : Deferred → State → m State}
    {rounds : Nat} (p : Parser) {s : State} (hs : s.failed = true) :
    p.denote defer rounds s = pure s := by
  cases p <;> rw [Parser.denote, if_pos hs]

/-- A relation between the computations of two machines that all operations keep. A generator may
be more than a computation to a machine, so its life is left to the programs at hand. -/
structure Machine.Simulates {m n : Type → Type} [Machine m] [Machine n]
    (R : (α : Type) → m α → n α → Prop) : Prop where
  pure {α : Type} (a : α) : R α (pure a : m α) (pure a)
  bind {α β : Type} {x : m α} {y : n α} {f : α → m β} {g : α → n β} (hx : R α x y)
    (hf : ∀ a, R β (f a) (g a)) : R β (x >>= f) (y >>= g)
  exhaust {α : Type} : R α (Machine.exhaust : m α) Machine.exhaust
  ofExcept {α : Type} (outcome : Except Fault α) :
    R α (Machine.ofExcept outcome : m α) (Machine.ofExcept outcome)
  ofAnswer {α : Type} (answer : Answer α) :
    R α (Machine.ofAnswer answer : m α) (Machine.ofAnswer answer)
  note (events : List Event) : R Unit (Machine.note events : m Unit) (Machine.note events)
  traced (label : String) {s : State} (hs : s.failed = false) {x : m State} {y : n State}
    (h : R State x y) : R State (Machine.traced label s x) (Machine.traced label s y)
  handed (p : Parser) (s : State) {x : m State} {y : n State} (h : R State x y) :
    R State (Machine.handed p s x) (Machine.handed p s y)
  resumed (value : Value) : R Unit (Machine.resumed value : m Unit) (Machine.resumed value)

section

variable {m n : Type → Type} [Machine m] [Machine n] {R : (α : Type) → m α → n α → Prop}

/-- Where the machines may differ, the relation is asked for: at deferred nodes, and where a
generator whose steps are related comes to life. Both happen in live states only. -/
def Parser.Simulated (R : (α : Type) → m α → n α → Prop) (defer : Deferred → State → m State)
    (defer' : Deferred → State → n State) (rounds : Nat) : Parser → Prop
  | .deferred object => ∀ s, s.failed = false → R State (defer object s) (defer' object s)
  | .contextual tag program => ∀ s, s.failed = false →
    R State (program.denote defer rounds s) (program.denote defer' rounds s) →
      R State (Machine.living tag program s (program.denote defer rounds s))
        (Machine.living tag program s (program.denote defer' rounds s))
  | _ => True

-- ================================================================ loops

namespace Machine.Simulates

variable (h : Machine.Simulates R)
include h

/-- A branch may give the state as it is. -/
theorem ite_pure {c : Prop} [Decidable c] {α : Type} (a : α) {x : m α} {y : n α}
    (hx : ¬c → R α x y) : R α (if c then Pure.pure a else x) (if c then Pure.pure a else y) := by
  split
  · exact h.pure a
  · next hc => exact hx hc

theorem pure_ite {c : Prop} [Decidable c] {α : Type} (a : α) {x : m α} {y : n α}
    (hx : c → R α x y) : R α (if c then x else Pure.pure a) (if c then y else Pure.pure a) := by
  split
  · next hc => exact hx hc
  · exact h.pure a

/-- Both loops take the same rounds, as long as the states are the same. -/
theorem manyLoop {x : State → m State} {y : State → n State} (hx : ∀ s, R State (x s) (y s)) :
    ∀ rounds results s, R State (manyLoop x rounds results s) (manyLoop y rounds results s) := by
  intro rounds
  induction rounds with
  | zero => intro results s; exact h.exhaust
  | succ rounds ih =>
      intro results s
      exact h.bind (hx s) fun t => h.ite_pure _ fun _ => ih _ t

theorem separatedLoop {x v : State → m State} {y w : State → n State}
    (hx : ∀ s, R State (x s) (y s)) (hv : ∀ s, R State (v s) (w s)) :
    ∀ rounds results s,
      R State (separatedLoop x v rounds results s) (separatedLoop y w rounds results s) := by
  intro rounds
  induction rounds with
  | zero => intro results s; exact h.exhaust
  | succ rounds ih =>
      intro results s
      refine h.bind (hx s) fun t => h.ite_pure _ fun _ => ?_
      exact h.bind (hv t) fun u => h.ite_pure _ fun _ => ih _ u

/-- So do repetitions with separators. -/
theorem separated {x v : State → m State} {y w : State → n State} (hx : ∀ s, R State (x s) (y s))
    (hv : ∀ s, R State (v s) (w s)) (rounds : Nat) (s : State) :
    R State (separated x v rounds s) (separated y w rounds s) :=
  h.bind (hv s) fun first => h.ite_pure _ fun _ => h.separatedLoop hx hv rounds _ first

end Machine.Simulates

-- ================================================================ trees

variable {defer : Deferred → State → m State} {defer' : Deferred → State → n State} {rounds : Nat}

/-- Parsers one after another are run on both machines. -/
theorem denoteAll_simulated (h : Machine.Simulates R) (ps : List Parser)
    (hps : ∀ p ∈ ps, ∀ s, R State (p.denote defer rounds s) (p.denote defer' rounds s)) :
    ∀ results s,
      R State (denoteAll defer rounds ps results s) (denoteAll defer' rounds ps results s) := by
  induction ps with
  | nil =>
      intro results s
      rw [denoteAll, denoteAll]
      exact h.pure _
  | cons p ps ih =>
      intro results s
      obtain ⟨hp, hps⟩ := List.forall_mem_cons.mp hps
      rw [denoteAll, denoteAll]
      exact h.bind (hp s) fun t => h.ite_pure t fun _ => ih hps _ t

/-- So are alternatives. -/
theorem denoteFirst_simulated (h : Machine.Simulates R) (ps : List Parser)
    (hps : ∀ p ∈ ps, ∀ s, R State (p.denote defer rounds s) (p.denote defer' rounds s)) :
    ∀ errors s,
      R State (denoteFirst defer rounds ps errors s) (denoteFirst defer' rounds ps errors s) := by
  induction ps with
  | nil =>
      intro errors s
      rw [denoteFirst, denoteFirst]
      exact h.pure _
  | cons p ps ih =>
      intro errors s
      obtain ⟨hp, hps⟩ := List.forall_mem_cons.mp hps
      rw [denoteFirst, denoteFirst]
      refine h.bind (hp s) fun t => ?_
      exact h.pure_ite t fun _ => ih hps _ s

/-- A program hands out the same parsers on both machines, and is resumed with the same results. -/
theorem Program.denote_simulated (h : Machine.Simulates R) (program : Program)
    (hall : program.All fun p =>
      ∀ s, R State (p.denote defer rounds s) (p.denote defer' rounds s)) :
    ∀ s, R State (program.denote defer rounds s) (program.denote defer' rounds s) := by
  induction program with
  | done value =>
      intro s
      rw [Program.denote, Program.denote]
      exact h.pure _
  | step p next ih =>
      intro s
      rw [Program.denote, Program.denote]
      refine h.bind (h.handed p s (hall.1 s)) fun t => h.ite_pure t fun _ => ?_
      exact h.bind (h.resumed t.result) fun _ => ih t.result (hall.2 t.result) t
  | noting events rest ih =>
      intro s
      rw [Program.denote, Program.denote]
      exact h.bind (h.note events) fun _ => ih hall s
  | raise fault =>
      intro s
      rw [Program.denote, Program.denote]
      exact h.ofExcept _

/-- The runs of a parser on two machines are related, once its deferred nodes and its generators
are. -/
theorem Parser.denote_simulated (h : Machine.Simulates R) (p : Parser)
    (hp : p.Every (Simulated R defer defer' rounds)) :
    ∀ s, R State (p.denote defer rounds s) (p.denote defer' rounds s) := by
  induction p with
  | succeed | fail =>
      intro s
      rw [Parser.denote, Parser.denote]
      exact h.ite_pure s fun _ => h.pure _
  | satisfy | check =>
      intro s
      rw [Parser.denote, Parser.denote]
      exact h.ite_pure s fun _ => h.ofAnswer _
  | literal | pattern | endOfInput | bit | raise =>
      intro s
      rw [Parser.denote, Parser.denote]
      exact h.ite_pure s fun _ => h.ofExcept _
  | jump target =>
      intro s
      rw [Parser.denote, Parser.denote]
      exact h.ite_pure s fun _ => h.bind (h.ofAnswer _) fun _ => h.pure _
  | map p f ih =>
      intro s
      rw [Parser.denote, Parser.denote]
      refine h.ite_pure s fun _ => h.bind (ih hp.2 s) fun t => h.ite_pure t fun _ => ?_
      exact h.bind (h.ofAnswer _) fun _ => h.pure _
  | chain p next ihp ihnext =>
      intro s
      rw [Parser.denote, Parser.denote]
      refine h.ite_pure s fun _ => h.bind (ihp hp.2.1 s) fun t => h.ite_pure t fun _ => ?_
      exact ihnext t.result (hp.2.2 t.result) t
  | errorMap p f ih =>
      intro s
      rw [Parser.denote, Parser.denote]
      refine h.ite_pure s fun _ => h.bind (ih hp.2 s) fun t => ?_
      refine h.pure_ite t fun _ => ?_
      exact h.bind (h.ofAnswer _) fun _ => h.pure _
  | lookAhead p ih =>
      intro s
      rw [Parser.denote, Parser.denote]
      refine h.ite_pure s fun _ => h.bind (ih hp.2 s) fun t => h.ite_pure t fun _ => ?_
      exact h.pure _
  | many p ih =>
      intro s
      rw [Parser.denote, Parser.denote]
      exact h.ite_pure s fun _ => h.manyLoop (ih hp.2) rounds [] s
  | many1 p ih =>
      intro s
      rw [Parser.denote, Parser.denote]
      refine h.ite_pure s fun _ => h.bind (ih hp.2 s) fun first => h.ite_pure _ fun _ => ?_
      exact h.bind (h.manyLoop (ih hp.2) rounds [] first) fun _ => h.pure _
  | orElse p q ihp ihq =>
      intro s
      rw [Parser.denote, Parser.denote]
      refine h.ite_pure s fun _ => h.bind (ihp hp.2.1 s) fun t => ?_
      exact h.pure_ite t fun _ => ihq hp.2.2 s
  | sepBy separator value ihs ihv =>
      intro s
      rw [Parser.denote, Parser.denote]
      exact h.ite_pure s fun _ => h.separated (ihs hp.2.1) (ihv hp.2.2) rounds s
  | sepBy1 separator value ihs ihv =>
      intro s
      rw [Parser.denote, Parser.denote]
      refine h.ite_pure s fun _ => ?_
      refine h.bind (h.separated (ihs hp.2.1) (ihv hp.2.2) rounds s) fun t => ?_
      exact h.ite_pure t fun _ => h.pure _
  | sequence ps ih =>
      intro s
      rw [Parser.denote, Parser.denote]
      refine h.ite_pure s fun _ => denoteAll_simulated h ps (fun p hmem => ?_) [] s
      exact ih p hmem (everyOf_iff.mp hp.2 p hmem)
  | choice ps ih =>
      intro s
      rw [Parser.denote, Parser.denote]
      refine h.ite_pure s fun _ => denoteFirst_simulated h ps (fun p hmem => ?_) [] s
      exact ih p hmem (everyOf_iff.mp hp.2 p hmem)
  | contextual tag program ih =>
      intro s
      rw [Parser.denote, Parser.denote]
      refine h.ite_pure s fun hs => hp.1 s (Bool.eq_false_iff.mpr hs) ?_
      exact program.denote_simulated h (ih.of_every hp.2) s
  | deferred object =>
      intro s
      rw [Parser.denote, Parser.denote]
      exact h.ite_pure s fun hs => hp s (Bool.eq_false_iff.mpr hs)
  | trace label =>
      intro s
      rw [Parser.denote, Parser.denote]
      refine h.ite_pure s fun _ => h.bind (h.ofExcept _) fun line => ?_
      exact h.bind (h.note _) fun _ => h.pure s
  | traced label p ih =>
      intro s
      rw [Parser.denote, Parser.denote]
      exact h.ite_pure s fun hs => h.traced label (Bool.eq_false_iff.mpr hs) (ih hp.2 s)

-- ================================================================ deferred nodes

variable {find : Nat → Deferred → State → m Instance} {find' : Nat → Deferred → State → n Instance}

/-- At every fuel the condition holds of every node, by induction on the fuel: what a deferred node
stands for is run with less. -/
theorem deferral_simulated (h : Machine.Simulates R)
    (hfind : ∀ frame object s, s.failed = false →
      R Instance (find frame object s) (find' frame object s))
    (hliving : ∀ fuel frame tag program s, s.failed = false →
      R State (program.denote (deferral find fuel frame) fuel s)
          (program.denote (deferral find' fuel frame) fuel s) →
        R State (Machine.living tag program s (program.denote (deferral find fuel frame) fuel s))
          (Machine.living tag program s (program.denote (deferral find' fuel frame) fuel s)))
    (fuel : Nat) :
    ∀ frame (p : Parser), p.Every (Parser.Simulated R (deferral find fuel frame)
      (deferral find' fuel frame) fuel) := by
  induction fuel with
  | zero =>
      refine fun frame => Parser.every_of_forall fun q => ?_
      cases q with
      | deferred object => exact fun s hs => h.exhaust
      | contextual tag program => exact hliving 0 frame tag program
      | _ => trivial
  | succ fuel ih =>
      refine fun frame => Parser.every_of_forall fun q => ?_
      cases q with
      | deferred object =>
          intro s hs
          refine h.bind (hfind frame object s hs) fun tree => ?_
          exact tree.parser.denote_simulated h (ih tree.frame tree.parser) s
      | contextual tag program => exact hliving (fuel + 1) frame tag program
      | _ => trivial

/-- So are its runs at any fuel, once the parsers of deferred nodes are found alike. -/
theorem Parser.execute_simulated (h : Machine.Simulates R)
    (hfind : ∀ frame object s, s.failed = false →
      R Instance (find frame object s) (find' frame object s))
    (hliving : ∀ fuel frame tag program s, s.failed = false →
      R State (program.denote (deferral find fuel frame) fuel s)
          (program.denote (deferral find' fuel frame) fuel s) →
        R State (Machine.living tag program s (program.denote (deferral find fuel frame) fuel s))
          (Machine.living tag program s (program.denote (deferral find' fuel frame) fuel s)))
    (fuel : Nat) (p : Parser) (frame : Nat) (s : State) :
    R State (p.execute find fuel frame s) (p.execute find' fuel frame s) :=
  p.denote_simulated h (deferral_simulated h hfind hliving fuel frame p) s

end

end ParserAlgebra
