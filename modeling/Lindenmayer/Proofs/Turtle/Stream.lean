import Lindenmayer.Proofs.Closure
import Lindenmayer.Proofs.Turtle.Drawing

/-!
# Growth and the random stream

Growth on a turtle calls its functions and nothing else of it. They draw from the random stream, and
neither see nor change the drawing. So growth ends alike on all turtles with the same random stream,
and leaves each with its own drawing.
-/

namespace Lindenmayer

def mapState {ε σ α : Type} (f : σ → σ) : EStateM.Result ε σ α → EStateM.Result ε σ α
  | .ok a state => .ok a (f state)
  | .error error state => .error error (f state)

/-- To change the state first and then run is to run first and then change the state. -/
def CommutesWith {ε σ α : Type} (change : σ → σ) (run : EStateM ε σ α) : Prop :=
  ∀ state : σ, run (change state) = mapState change (run state)

namespace CommutesWith

variable {ε σ α β : Type} {change : σ → σ}

theorem pure (a : α) : CommutesWith change (Pure.pure a : EStateM ε σ α) := fun _ => rfl

theorem throw (error : ε) : CommutesWith change (MonadExcept.throw error : EStateM ε σ α) :=
  fun _ => rfl

theorem modify {f : σ → σ} (hf : ∀ state, f (change state) = change (f state)) :
    CommutesWith change (modify f : EStateM ε σ PUnit) :=
  fun state => congrArg (EStateM.Result.ok PUnit.unit) (hf state)

theorem bind {first : EStateM ε σ α} {next : α → EStateM ε σ β}
    (hfirst : CommutesWith change first) (hnext : ∀ a, CommutesWith change (next a)) :
    CommutesWith change (first >>= next) := by
  intro state
  have hchange := hfirst state
  cases hrun : first state with
  | ok a between =>
      rw [hrun] at hchange
      rw [run_bind_of_ok hchange, run_bind_of_ok hrun, hnext a between]
  | error error after =>
      rw [hrun] at hchange
      rw [run_bind_of_error hchange, run_bind_of_error hrun]
      rfl

theorem read (outcome : Except ε α) :
    CommutesWith change (MonadExcept.ofExcept outcome : EStateM ε σ α) := by
  intro state
  cases outcome with
  | ok a => rfl
  | error error => rfl

theorem ofExcept (wrap : ε → Error) (outcome : Except ε α) :
    CommutesWith change (Effect.ofExcept wrap outcome) := by
  intro state
  cases outcome with
  | ok a => rfl
  | error error => rfl

theorem ofHost {wrap : ε → Error} {run : EStateM ε σ α} (hrun : CommutesWith change run) :
    CommutesWith change (Effect.ofHost wrap run) := by
  intro state
  have hchange := hrun state
  cases hstate : run state with
  | ok a after =>
      rw [hstate] at hchange
      rw [run_ofHost_of_ok hstate, run_ofHost_of_ok hchange]
      rfl
  | error error after =>
      rw [hstate] at hchange
      rw [run_ofHost_of_error hstate, run_ofHost_of_error hchange]
      rfl

theorem forM {f : α → EStateM ε σ PUnit} {xs : List α}
    (hf : ∀ x ∈ xs, CommutesWith change (f x)) : CommutesWith change (xs.forM f) := by
  induction xs with
  | nil => exact .pure _
  | cons x xs ih =>
      exact .bind (hf x List.mem_cons_self) fun _ =>
        ih fun other hmem => hf other (List.mem_cons_of_mem x hmem)

end CommutesWith

namespace Turtle

/-- The drawing of the one turtle with the random stream of the other. -/
def onStream (drawing stream : Turtle) : Turtle := { drawing with generator := stream.generator }

theorem onStream_of_eq {drawing stream : Turtle} (h : drawing.generator = stream.generator) :
    drawing.onStream stream = drawing := by
  rw [onStream, ← h]

/-- Whatever has been drawn, the run goes the same way and leaves the drawing as it is. -/
def IgnoresDrawing {ε α : Type} (run : EStateM ε Turtle α) : Prop :=
  ∀ drawing turtle : Turtle, run (drawing.onStream turtle) = mapState drawing.onStream (run turtle)

theorem IgnoresDrawing.bind {ε α β : Type} {first : EStateM ε Turtle α}
    {next : α → EStateM ε Turtle β} (hfirst : IgnoresDrawing first)
    (hnext : ∀ a, IgnoresDrawing (next a)) : IgnoresDrawing (first >>= next) :=
  fun drawing => CommutesWith.bind (hfirst drawing) fun a => hnext a drawing

theorem closed_ignoresDrawing :
    Effect.Closed (σ := Turtle) fun _ run => IgnoresDrawing run where
  pure := fun _ _ _ => rfl
  refuse := fun _ _ _ => rfl
  bind := IgnoresDrawing.bind

/-! ## The functions of the turtle -/

theorem function?_eq_some {name : Text} {function : Capability Turtle Value}
    (h : capabilities.function? name = some function) :
    function = ⟨[.number, .number], randomFunction⟩ := by
  have hmem : (name, function) ∈ capabilities.functions := mem_of_lookup h
  cases List.mem_singleton.mp hmem
  rfl

theorem ignoresDrawing_randomFunction (values : List Value) :
    IgnoresDrawing (randomFunction values) := by
  intro drawing
  change CommutesWith drawing.onStream (randomFunction values)
  match values with
  | [min, max] =>
      refine .bind (.read min.asInteger) fun low => .bind (.read max.asInteger) fun high => ?_
      exact fun _ => rfl
  | [] => exact .throw _
  | [_] => exact .throw _
  | _ :: _ :: _ :: _ => exact .throw _

variable {alphabet : Alphabet} {limit : Option Nat}

theorem ignoresDrawing_evaluate (text : Text) :
    IgnoresDrawing ((system alphabet limit).scope.evaluate text) := by
  have hcalls : Effect.Closed.Calls (fun _ run => IgnoresDrawing run)
      (system alphabet limit).scope := by
    intro name function hfunction literals
    cases function?_eq_some hfunction
    exact fun drawing => CommutesWith.bind (.ofExcept _ _) fun values =>
      .ofHost (ignoresDrawing_randomFunction values drawing)
  exact closed_ignoresDrawing.evaluate hcalls text

theorem ignoresDrawing_growFrom (rules : List Rule) (generations generation : Nat) (word : Word) :
    IgnoresDrawing ((system alphabet limit).growFrom rules generation generations word) := by
  induction generations generalizing generation word with
  | zero => exact fun _ _ => rfl
  | succ generations ih =>
      refine .bind (closed_ignoresDrawing.nextGeneration ignoresDrawing_evaluate rules word)
        fun next => ?_
      exact .bind (fun _ => CommutesWith.ofExcept _ _) fun _ => ih (generation + 1) next

/-! ## Turtles with the same random stream -/

/-- How a run ends, the drawing apart: with its result or error, and with the random stream that is
left. -/
def ending {α : Type} : EStateM.Result Error Turtle α → Except Error α × Generator
  | .ok a after => (.ok a, after.generator)
  | .error error after => (.error error, after.generator)

theorem ending_mapState {α : Type} (drawing : Turtle) (result : EStateM.Result Error Turtle α) :
    ending (mapState drawing.onStream result) = ending result := by
  cases result with
  | ok a after => rfl
  | error error after => rfl

theorem exists_of_ending {α : Type} {result : EStateM.Result Error Turtle α} {a : α}
    {stream : Generator} (h : ending result = (.ok a, stream)) :
    ∃ after : Turtle, result = .ok a after ∧ after.generator = stream := by
  cases result with
  | ok a after =>
      cases h
      exact ⟨after, rfl, rfl⟩
  | error error after => cases h

/-- A run that ignores the drawing ends alike on turtles with the same random stream. -/
theorem IgnoresDrawing.ending_congr {α : Type} {run : Effect Turtle α} (hrun : IgnoresDrawing run)
    {turtle other : Turtle} (h : turtle.generator = other.generator) :
    ending (run turtle) = ending (run other) := by
  have hdrawing := hrun turtle other
  rw [onStream_of_eq h] at hdrawing
  rw [hdrawing, ending_mapState]

end Turtle

end Lindenmayer
