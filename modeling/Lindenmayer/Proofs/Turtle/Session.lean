import Lindenmayer.Proofs.Turtle.Motion

/-!
# Sessions with a turtle

A system on a turtle may be used for long: words are grown and drawn, expressions evaluated, and the
turtle moved by hand, in any order, and a step that fails leaves the turtle as it has come to be.
The steps that draw and the others share the turtle but use separate parts of it, so neither disturb
the others.
-/

namespace Lindenmayer

namespace Turtle

/-- What a turtle has drawn and where it stands, without its random stream. -/
structure Drawing where
  pose : Pose
  saved : List Pose
  segments : Array Segment
  deriving DecidableEq

def drawing (turtle : Turtle) : Drawing := ⟨turtle.pose, turtle.saved, turtle.segments⟩

/-! ## Steps -/

inductive Step where
  | build (start : Text) (rules : List (Text × Text)) (iterations : Nat)
  | evaluate (text : Text)
  | execute (word : Word)
  | reset
  | applyConstant (constant : Char)
  | forward (length thickness : Float)
  | turn (angle : Float)
  | randomInteger (min max : Int64)
  deriving DecidableEq

inductive Answer where
  | word (word : Word)
  | text (text : Text)
  | integer (n : Int64)
  | done
  deriving DecidableEq

namespace Step

def draws : Step → Bool
  | build .. | evaluate _ | randomInteger .. => false
  | execute _ | reset | applyConstant _ | forward .. | turn _ => true

def run (system : System Turtle) : Step → Effect Turtle Answer
  | build start rules iterations => do
      let word ← system.build start rules iterations
      pure (.word word)
  | evaluate text => do
      let literal ← system.evaluate text
      pure (.text literal)
  | execute word => do
      system.execute word
      pure .done
  | reset => do
      modify Turtle.reset
      pure .done
  | applyConstant constant => do
      Effect.ofHost .grammar (Turtle.applyConstant constant)
      pure .done
  | forward length thickness => do
      modify (Turtle.forward length thickness)
      pure .done
  | turn angle => do
      modify (Turtle.turn angle)
      pure .done
  | randomInteger min max => do
      let n ← modifyGet (Turtle.randomInteger min max)
      pure (.integer n)

end Step

/-- A step that has been taken: how it ended, and the turtle before and after it. -/
structure Event where
  step : Step
  before : Turtle
  outcome : Except Error Answer
  after : Turtle

def Step.take (system : System Turtle) (step : Step) (turtle : Turtle) : Event :=
  let result := (step.run system).run turtle
  ⟨step, turtle, outcome result, hostLeft result⟩

@[simp]
theorem Step.step_take (system : System Turtle) (step : Step) (turtle : Turtle) :
    (step.take system turtle).step = step := rfl

/-- Takes the steps one after the other. A step that fails does not end the session. -/
def session (system : System Turtle) : List Step → Turtle → List Event
  | [], _ => []
  | step :: steps, turtle =>
      let event := step.take system turtle
      event :: session system steps event.after

def afterSession (system : System Turtle) (steps : List Step) (turtle : Turtle) : Turtle :=
  steps.foldl (fun turtle step => (step.take system turtle).after) turtle

/-- What shows of an event apart from the drawing: the step, how it ended and the random stream
that it left. -/
def Event.report (event : Event) : Step × Except Error Answer × Generator :=
  (event.step, event.outcome, event.after.generator)

theorem exists_of_mem_session {system : System Turtle} {steps : List Step} {turtle : Turtle}
    {event : Event} (hmem : event ∈ session system steps turtle) :
    ∃ before, event = event.step.take system before := by
  induction steps generalizing turtle with
  | nil => cases hmem
  | cons step steps ih =>
      rcases List.mem_cons.mp hmem with rfl | hmem
      · exact ⟨turtle, rfl⟩
      · exact ih hmem

/-! ## Steps that draw -/

/-- Whatever the random stream, the run goes the same way and leaves the stream as it is. -/
def IgnoresStream {ε α : Type} (run : EStateM ε Turtle α) : Prop :=
  ∀ stream : Turtle, CommutesWith (fun turtle => turtle.onStream stream) run

theorem unseen_onStream (stream : Turtle) : Unseen fun turtle => turtle.onStream stream where
  pose := fun _ => rfl
  saved := fun _ => rfl
  place := fun _ _ _ => rfl
  forward := fun _ _ _ => rfl

variable {alphabet : Alphabet} {limit : Option Nat}

/-- Drawing a word, whatever comes after it, neither sees nor changes the random stream, and begins
with a turtle at the origin. So from two turtles it goes the same way. -/
theorem Step.run_execute_eq (other : Option Nat) (word : Word) (turtle fresh : Turtle) :
    (execute word).run (system alphabet limit) turtle =
      mapState (fun after => after.onStream turtle)
        ((execute word).run (system alphabet other) fresh) := by
  have hdraw : CommutesWith (fun after => after.onStream turtle) (do
      word.forM (system alphabet limit).dispatch
      pure Answer.done) :=
    .bind ((unseen_onStream turtle).forM_dispatch word) fun _ => .pure _
  exact hdraw fresh.reset

theorem Step.ignoresStream_run {step : Step} (hdraws : step.draws = true) :
    IgnoresStream (step.run (system alphabet limit)) := by
  intro stream
  cases step with
  | build start rules iterations => cases hdraws
  | evaluate text => cases hdraws
  | execute word =>
      refine .bind (.bind (.modify fun _ => rfl) fun _ => ?_) fun _ => .pure _
      exact (unseen_onStream stream).forM_dispatch word
  | reset => exact .bind (.modify fun _ => rfl) fun _ => .pure _
  | applyConstant constant =>
      exact .bind (.ofHost ((unseen_onStream stream).applyConstant constant)) fun _ => .pure _
  | forward length thickness => exact .bind (.modify fun _ => rfl) fun _ => .pure _
  | turn angle => exact .bind (.modify fun _ => rfl) fun _ => .pure _
  | randomInteger min max => cases hdraws

/-! ## Steps that do not draw -/

theorem ignoresDrawing_build (start : Text) (rules : List (Text × Text)) (iterations : Nat) :
    IgnoresDrawing ((system alphabet limit).build start rules iterations) := fun drawing =>
  CommutesWith.bind (.ofExcept _ _) fun readRules => .bind (.ofExcept _ _) fun word =>
    ignoresDrawing_growFrom readRules iterations 1 word drawing

theorem Step.ignoresDrawing_run {step : Step} (hdraws : step.draws = false) :
    IgnoresDrawing (step.run (system alphabet limit)) := by
  intro drawing
  change CommutesWith drawing.onStream (step.run (system alphabet limit))
  cases step with
  | build start rules iterations =>
      exact .bind (ignoresDrawing_build start rules iterations drawing) fun _ => .pure _
  | evaluate text => exact .bind (ignoresDrawing_evaluate text drawing) fun _ => .pure _
  | execute word => cases hdraws
  | reset => cases hdraws
  | applyConstant constant => cases hdraws
  | forward length thickness => cases hdraws
  | turn angle => cases hdraws
  | randomInteger min max => exact .bind (fun _ => rfl) fun _ => .pure _

/-! ## What a step leaves -/

theorem outcome_mapState {ε σ α : Type} (change : σ → σ) (result : EStateM.Result ε σ α) :
    outcome (mapState change result) = outcome result := by
  cases result with
  | ok a after => rfl
  | error error after => rfl

theorem hostLeft_mapState {ε σ α : Type} (change : σ → σ) (result : EStateM.Result ε σ α) :
    hostLeft (mapState change result) = change (hostLeft result) := by
  cases result with
  | ok a after => rfl
  | error error after => rfl

theorem ending_eq {α : Type} (result : EStateM.Result Error Turtle α) :
    ending result = (outcome result, (hostLeft result).generator) := by
  cases result with
  | ok a after => rfl
  | error error after => rfl

theorem IgnoresStream.generator_hostLeft {ε α : Type} {run : EStateM ε Turtle α}
    (hrun : IgnoresStream run) (turtle : Turtle) :
    (hostLeft (run turtle)).generator = turtle.generator := by
  have hstream : run turtle = mapState (fun after => after.onStream turtle) (run turtle) :=
    hrun turtle turtle
  rw [hstream, hostLeft_mapState]
  rfl

theorem IgnoresDrawing.drawing_hostLeft {ε α : Type} {run : EStateM ε Turtle α}
    (hrun : IgnoresDrawing run) (turtle : Turtle) :
    (hostLeft (run turtle)).drawing = turtle.drawing := by
  have hdrawing : run turtle = mapState turtle.onStream (run turtle) := hrun turtle turtle
  rw [hdrawing, hostLeft_mapState]
  rfl

/-- A step that draws leaves the random stream. -/
theorem Step.generator_take {step : Step} (hdraws : step.draws = true) (turtle : Turtle) :
    (step.take (system alphabet limit) turtle).after.generator = turtle.generator := by
  have hrun : IgnoresStream (step.run (system alphabet limit)) := ignoresStream_run hdraws
  exact hrun.generator_hostLeft turtle

/-- A step that does not draw leaves the drawing. -/
theorem Step.drawing_take {step : Step} (hdraws : step.draws = false) (turtle : Turtle) :
    (step.take (system alphabet limit) turtle).after.drawing = turtle.drawing := by
  have hrun : IgnoresDrawing (step.run (system alphabet limit)) := ignoresDrawing_run hdraws
  exact hrun.drawing_hostLeft turtle

/-- A step that does not draw ends alike on turtles with the same random stream. -/
theorem Step.report_take_congr {step : Step} (hdraws : step.draws = false) {turtle other : Turtle}
    (h : turtle.generator = other.generator) :
    (step.take (system alphabet limit) turtle).report =
      (step.take (system alphabet limit) other).report := by
  have hrun : IgnoresDrawing (step.run (system alphabet limit)) := ignoresDrawing_run hdraws
  have hending := hrun.ending_congr h
  rw [ending_eq, ending_eq] at hending
  exact congrArg (Prod.mk step) hending

/-- To draw a word ends alike and leaves the same drawing on all turtles, whatever the limit on the
length of generations. -/
theorem Step.take_execute_eq (other : Option Nat) (word : Word) (turtle fresh : Turtle) :
    ((execute word).take (system alphabet limit) turtle).outcome =
        ((execute word).take (system alphabet other) fresh).outcome ∧
      ((execute word).take (system alphabet limit) turtle).after.drawing =
        ((execute word).take (system alphabet other) fresh).after.drawing := by
  have hrun : (execute word).run (system alphabet limit) turtle = _ :=
    run_execute_eq other word turtle fresh
  simp only [take, EStateM.run, hrun, outcome_mapState, hostLeft_mapState]
  exact ⟨trivial, rfl⟩

/-! ## Whole sessions -/

/-- The steps that do not draw go in a session as they go without the others. -/
theorem reports_session (steps : List Step) {turtle other : Turtle}
    (h : turtle.generator = other.generator) :
    ((session (system alphabet limit) steps turtle).filter (!·.step.draws)).map Event.report =
        (session (system alphabet limit) (steps.filter (!·.draws)) other).map Event.report ∧
      (afterSession (system alphabet limit) steps turtle).generator =
        (afterSession (system alphabet limit) (steps.filter (!·.draws)) other).generator := by
  induction steps generalizing turtle other with
  | nil => exact ⟨rfl, h⟩
  | cons step steps ih =>
      cases hdraws : step.draws with
      | true =>
          have hstream :
              (step.take (system alphabet limit) turtle).after.generator = turtle.generator :=
            step.generator_take hdraws turtle
          simp only [session, List.filter_cons, Step.step_take, hdraws, Bool.not_true,
            Bool.false_eq_true, if_false]
          exact ih (hstream.trans h)
      | false =>
          have hreport : (step.take (system alphabet limit) turtle).report =
              (step.take (system alphabet limit) other).report :=
            step.report_take_congr hdraws h
          have hstream : (step.take (system alphabet limit) turtle).after.generator =
              (step.take (system alphabet limit) other).after.generator :=
            congrArg (fun report => report.2.2) hreport
          obtain ⟨hreports, hafter⟩ := ih hstream
          simp only [session, List.filter_cons, Step.step_take, hdraws, Bool.not_false, if_true,
            List.map_cons, hreport, hreports]
          exact ⟨trivial, hafter⟩

/-- In a session, the steps that do not draw end as they would without the steps that do, and with
the same random stream; they leave the drawing as it was; and a word is drawn as on any other
turtle of the alphabet. -/
theorem session_separated (alphabet : Alphabet) (limit : Option Nat) (steps : List Step)
    (turtle : Turtle) :
    (((session (system alphabet limit) steps turtle).filter (!·.step.draws)).map Event.report =
        (session (system alphabet limit) (steps.filter (!·.draws)) turtle).map Event.report ∧
      (afterSession (system alphabet limit) steps turtle).generator =
        (afterSession (system alphabet limit) (steps.filter (!·.draws)) turtle).generator) ∧
    (∀ event ∈ session (system alphabet limit) steps turtle, event.step.draws = false →
      event.after.drawing = event.before.drawing) ∧
    ∀ event ∈ session (system alphabet limit) steps turtle, ∀ word, event.step = .execute word →
      ∀ (other : Option Nat) (fresh : Turtle),
        event.outcome = (event.step.take (system alphabet other) fresh).outcome ∧
          event.after.drawing = (event.step.take (system alphabet other) fresh).after.drawing := by
  refine ⟨reports_session steps rfl, fun event hmem hdraws => ?_,
    fun event hmem word hword other fresh => ?_⟩
  · obtain ⟨before, hevent⟩ := exists_of_mem_session hmem
    rw [hevent]
    exact event.step.drawing_take hdraws before
  · obtain ⟨before, hevent⟩ := exists_of_mem_session hmem
    rw [hword] at hevent ⊢
    rw [hevent]
    exact Step.take_execute_eq other word before fresh

def wandering : Alphabet := ⟨["fwd".toList], ["randrange".toList], []⟩

def broken : Word := [⟨"fwd".toList, some [['2'], ['1']]⟩, ⟨"fwd".toList, some [[], ['1']]⟩]

def errands : List Step :=
  [.randomInteger 1 7, .execute broken, .applyConstant ']', .evaluate "randrange(1,7)".toList]

/-- The errands that do not draw end as they do alone, the last of them leaves the drawing of the
broken word, and that word breaks as it does on a turtle with another random stream. -/
theorem session_separated_errands :
    ((session (system wandering none) errands (.ofSeed 0)).filter (!·.step.draws)).map
        Event.report =
      [(.randomInteger 1 7, .ok (.integer 5), { Generator.ofSeed 0 with drawn := 1 }),
        (.evaluate "randrange(1,7)".toList, .ok (.text ['5']),
          { Generator.ofSeed 0 with drawn := 2 })] ∧
      (afterSession (system wandering none) errands (.ofSeed 0)).drawing =
        (afterSession (system wandering none) (errands.take 3) (.ofSeed 0)).drawing ∧
      ((Step.execute broken).take (system wandering none)
          (afterSession (system wandering none) (errands.take 1) (.ofSeed 0))).outcome =
        ((Step.execute broken).take (system wandering (some 1)) (.ofSeed 7)).outcome := by
  obtain ⟨⟨hreports, -⟩, hkept, hdrawn⟩ := session_separated wandering none errands (.ofSeed 0)
  refine ⟨?_, ?_, ?_⟩
  · rw [hreports]
    decide +kernel
  · exact hkept _ (.tail _ (.tail _ (.tail _ (.head _)))) rfl
  · exact (hdrawn _ (.tail _ (.head _)) broken rfl (some 1) (.ofSeed 7)).1

end Turtle

end Lindenmayer
