import Lindenmayer.Proofs.Turtle.Stream

/-!
# Motions of the turtle

Whatever symbol acts on a turtle, the turtle does one of a few things: it saves its pose or takes
one back, moves forward, turns, or stays as it is. A symbol that is refused leaves it as it is. What
neither the moves nor the brackets look at has no effect on any symbol.
-/

namespace Lindenmayer

namespace Turtle

variable {alphabet : Alphabet} {limit : Option Nat} {ε α : Type}

/-! ## What a symbol comes to -/

/-- An action reads its values and moves or turns the turtle by them, marks the place, or is given
what it cannot take. -/
theorem action_cases {P : EStateM EvaluationError Turtle Unit → Prop}
    (forward : ∀ length thickness : Value, P (do
      let length ← ofExcept length.asReal
      let thickness ← ofExcept thickness.asReal
      modify (Turtle.forward length thickness)))
    (turn : ∀ angle : Value, P (do
      let angle ← ofExcept angle.asReal
      modify (Turtle.turn angle)))
    (mark : P (pure ())) (refuse : ∀ error, P (throw error)) {name : Text}
    {action : Capability Turtle Unit} (haction : capabilities.action? name = some action)
    (values : List Value) : P (action.run values) := by
  rcases action?_eq_some haction with ⟨-, rfl⟩ | ⟨-, rfl⟩ | ⟨-, rfl⟩
  · match values with
    | [length, thickness] => exact forward length thickness
    | [] => exact refuse _
    | [_] => exact refuse _
    | _ :: _ :: _ :: _ => exact refuse _
  · match values with
    | [angle] => exact turn angle
    | [] => exact refuse _
    | _ :: _ :: _ => exact refuse _
  · match values with
    | [_] => exact mark
    | [] => exact refuse _
    | _ :: _ :: _ => exact refuse _

theorem applyConstant_open (turtle : Turtle) :
    applyConstant '[' turtle = .ok () { turtle with saved := turtle.pose :: turtle.saved } :=
  rfl

theorem applyConstant_close_of_nil {turtle : Turtle} (hsaved : turtle.saved = []) :
    applyConstant ']' turtle = .error (.stackUnderflow ']') turtle := by
  obtain ⟨pose, saved, segments, generator⟩ := turtle
  cases hsaved
  rfl

theorem applyConstant_close_of_cons {turtle : Turtle} {pose : Pose} {saved : List Pose}
    (hsaved : turtle.saved = pose :: saved) :
    applyConstant ']' turtle = .ok () { turtle with pose := pose, saved := saved } := by
  obtain ⟨last, poses, segments, generator⟩ := turtle
  cases hsaved
  rfl

theorem applyConstant_of_ne {constant : Char} {turtle : Turtle} (hopen : constant ≠ '[')
    (hclose : constant ≠ ']') :
    applyConstant constant turtle = .error (.unknownConstant constant) turtle := by
  simp only [applyConstant, hopen, hclose, ite_false]
  rfl

/-- A symbol is a constant, or a variable with an action or without one, or it is refused. -/
theorem dispatch_cases {P : Option Char → Effect Turtle Unit → Prop}
    (constant : ∀ c, P (some c) (Effect.ofHost .grammar (applyConstant c)))
    (call : ∀ {name : Text} {action : Capability Turtle Unit},
      capabilities.action? name = some action → ∀ args, P none (action.call args))
    (skip : P none (pure ())) (refuse : ∀ error, P none (throw (.grammar error)))
    (symbol : Symbol) :
    P (alphabet.constantOf? symbol.name) ((system alphabet limit).dispatch symbol) := by
  cases hconstant : alphabet.constantOf? symbol.name with
  | some c =>
      rw [dispatch_of_constant hconstant]
      exact constant c
  | none =>
      cases hvariable : alphabet.isVariable symbol.name with
      | false =>
          rw [dispatch_of_undeclared hconstant hvariable]
          exact refuse _
      | true =>
          cases haction : capabilities.action? symbol.name with
          | none =>
              rw [dispatch_of_none hconstant hvariable haction]
              exact skip
          | some action =>
              rw [dispatch_of_action hconstant hvariable haction]
              by_cases harity : action.kinds.length = symbol.arity
              · rw [if_pos harity]
                exact call haction _
              · rw [if_neg harity]
                exact refuse _

/-! ## Motions -/

inductive Motion : Option Char → Turtle → Turtle → Prop where
  | save (turtle : Turtle) :
      Motion (some '[') turtle { turtle with saved := turtle.pose :: turtle.saved }
  | restore {turtle : Turtle} {pose : Pose} {saved : List Pose}
      (hsaved : turtle.saved = pose :: saved) :
      Motion (some ']') turtle { turtle with pose := pose, saved := saved }
  | forward (length thickness : Float) (turtle : Turtle) :
      Motion none turtle (Turtle.forward length thickness turtle)
  | turn (angle : Float) (turtle : Turtle) : Motion none turtle (Turtle.turn angle turtle)
  | rest (turtle : Turtle) : Motion none turtle turtle

theorem Motion.generator_eq {constant : Option Char} {turtle after : Turtle}
    (hmotion : Motion constant turtle after) : after.generator = turtle.generator := by
  cases hmotion with
  | save => rfl
  | restore => rfl
  | forward => rfl
  | turn => rfl
  | rest => rfl

/-- The run makes a motion, or is refused and leaves the turtle as it is. -/
def Makes (constant : Option Char) (run : EStateM ε Turtle Unit) : Prop :=
  ∀ turtle : Turtle, match run turtle with
    | .ok _ after => Motion constant turtle after
    | .error _ after => after = turtle

namespace Makes

variable {constant : Option Char}

theorem throw (error : ε) :
    Makes constant (MonadExcept.throw error : EStateM ε Turtle Unit) := fun _ => rfl

theorem read (outcome : Except ε α) {next : α → EStateM ε Turtle Unit}
    (hnext : ∀ a, Makes constant (next a)) :
    Makes constant (MonadExcept.ofExcept outcome >>= next) := by
  intro turtle
  cases outcome with
  | ok a => exact hnext a turtle
  | error error => rfl

theorem ofExcept (wrap : ε → Error) (outcome : Except ε α) {next : α → Effect Turtle Unit}
    (hnext : ∀ a, Makes constant (next a)) :
    Makes constant (Effect.ofExcept wrap outcome >>= next) := by
  intro turtle
  cases outcome with
  | ok a => exact hnext a turtle
  | error error => rfl

theorem ofHost {wrap : ε → Error} {run : EStateM ε Turtle Unit} (hrun : Makes constant run) :
    Makes constant (Effect.ofHost wrap run) := by
  intro turtle
  have hturtle := hrun turtle
  cases hstate : run turtle with
  | ok _ after =>
      rw [hstate] at hturtle
      rw [run_ofHost_of_ok hstate]
      exact hturtle
  | error error after =>
      rw [hstate] at hturtle
      rw [run_ofHost_of_error hstate]
      exact hturtle

end Makes

theorem makes_applyConstant (constant : Char) : Makes (some constant) (applyConstant constant) := by
  intro turtle
  by_cases hopen : constant = '['
  · rw [hopen, applyConstant_open]
    exact .save turtle
  by_cases hclose : constant = ']'
  · rw [hclose]
    cases hsaved : turtle.saved with
    | nil => rw [applyConstant_close_of_nil hsaved]
    | cons pose saved =>
        rw [applyConstant_close_of_cons hsaved]
        exact .restore hsaved
  · rw [applyConstant_of_ne hopen hclose]

theorem makes_action {name : Text} {action : Capability Turtle Unit}
    (haction : capabilities.action? name = some action) (values : List Value) :
    Makes none (action.run values) := by
  refine action_cases (fun length thickness => ?_) (fun angle => ?_) ?_ .throw haction values
  · refine .read length.asReal fun reach => .read thickness.asReal fun width => ?_
    exact fun turtle => .forward reach width turtle
  · exact .read angle.asReal fun degrees turtle => .turn degrees turtle
  · exact fun turtle => .rest turtle

theorem makes_call {name : Text} {action : Capability Turtle Unit}
    (haction : capabilities.action? name = some action) (args : List Text) :
    Makes none (action.call args) :=
  .ofExcept _ _ fun values => .ofHost (makes_action haction values)

theorem makes_dispatch (symbol : Symbol) :
    Makes (alphabet.constantOf? symbol.name) ((system alphabet limit).dispatch symbol) := by
  refine dispatch_cases (P := Makes) (fun constant => ?_) (fun haction args => ?_) ?_
    (fun error => .throw _) symbol
  · exact .ofHost (makes_applyConstant constant)
  · exact makes_call haction args
  · exact fun turtle => .rest turtle

theorem motion_of_dispatch {symbol : Symbol} {turtle after : Turtle}
    (hrun : (system alphabet limit).dispatch symbol turtle = .ok () after) :
    Motion (alphabet.constantOf? symbol.name) turtle after := by
  have hmakes : Makes _ ((system alphabet limit).dispatch symbol) := makes_dispatch symbol
  have hturtle := hmakes turtle
  rw [hrun] at hturtle
  exact hturtle

/-- What every motion keeps is kept by a run that makes one or is refused. -/
theorem Makes.keeps {constant : Option Char} {run : EStateM ε Turtle Unit}
    (hrun : Makes constant run) {invariant : Turtle → Prop}
    (hmotion : ∀ before after, Motion constant before after → invariant before →
      invariant after) : Keeps invariant run := by
  intro turtle hturtle
  have hafter := hrun turtle
  cases hresult : run turtle with
  | ok _ after =>
      rw [hresult] at hafter
      exact hmotion turtle after hafter hturtle
  | error error after =>
      rw [hresult] at hafter
      rw [hostLeft, hafter]
      exact hturtle

/-! ## What no symbol sees -/

/-- A change of turtles that leaves the poses alone and that the moves go along with. -/
structure Unseen (change : Turtle → Turtle) : Prop where
  pose : ∀ turtle, (change turtle).pose = turtle.pose
  saved : ∀ turtle, (change turtle).saved = turtle.saved
  place : ∀ (turtle : Turtle) (pose : Pose) (saved : List Pose),
    { change turtle with pose := pose, saved := saved } =
      change { turtle with pose := pose, saved := saved }
  forward : ∀ (length thickness : Float) (turtle : Turtle),
    Turtle.forward length thickness (change turtle) =
      change (Turtle.forward length thickness turtle)

namespace Unseen

variable {change : Turtle → Turtle}

theorem turn (hunseen : Unseen change) (angle : Float) (turtle : Turtle) :
    Turtle.turn angle (change turtle) = change (Turtle.turn angle turtle) := by
  refine Eq.trans ?_ (hunseen.place turtle (Turtle.turn angle turtle).pose turtle.saved)
  simp only [Turtle.turn, hunseen.pose, ← hunseen.saved turtle]

/-- Changed or not, the turtle takes a constant the same way. -/
theorem applyConstant (hunseen : Unseen change) (constant : Char) :
    CommutesWith change (Turtle.applyConstant constant) := by
  intro turtle
  by_cases hopen : constant = '['
  · rw [hopen, applyConstant_open, applyConstant_open, hunseen.pose, hunseen.saved]
    exact congrArg (EStateM.Result.ok ())
      (hunseen.place turtle turtle.pose (turtle.pose :: turtle.saved))
  by_cases hclose : constant = ']'
  · rw [hclose]
    cases hsaved : turtle.saved with
    | nil =>
        have hchange := (hunseen.saved turtle).trans hsaved
        rw [applyConstant_close_of_nil hsaved, applyConstant_close_of_nil hchange]
        rfl
    | cons pose saved =>
        have hchange := (hunseen.saved turtle).trans hsaved
        rw [applyConstant_close_of_cons hsaved, applyConstant_close_of_cons hchange]
        exact congrArg (EStateM.Result.ok ()) (hunseen.place turtle pose saved)
  · rw [applyConstant_of_ne hopen hclose, applyConstant_of_ne hopen hclose]
    rfl

theorem action (hunseen : Unseen change) {name : Text} {action : Capability Turtle Unit}
    (haction : capabilities.action? name = some action) (values : List Value) :
    CommutesWith change (action.run values) := by
  refine action_cases (fun length thickness => ?_) (fun angle => ?_) (.pure ()) .throw haction
    values
  · refine .bind (.read length.asReal) fun reach => ?_
    exact .bind (.read thickness.asReal) fun width => .modify (hunseen.forward reach width)
  · exact .bind (.read angle.asReal) fun degrees => .modify (hunseen.turn degrees)

/-- Changed or not, the turtle takes the symbol the same way. -/
theorem dispatch (hunseen : Unseen change) (symbol : Symbol) :
    CommutesWith change ((system alphabet limit).dispatch symbol) := by
  refine dispatch_cases (P := fun _ run => CommutesWith change run) (fun constant => ?_)
    (fun haction args => ?_) (.pure ()) (fun error => .throw _) symbol
  · exact .ofHost (hunseen.applyConstant constant)
  · exact .bind (.ofExcept _ _) fun values => .ofHost (hunseen.action haction values)

/-- Changed or not, the turtle takes a word the same way. -/
theorem forM_dispatch (hunseen : Unseen change) (word : Word) :
    CommutesWith change (word.forM (system alphabet limit).dispatch) :=
  .forM fun symbol _ => hunseen.dispatch symbol

end Unseen

end Turtle

end Lindenmayer
