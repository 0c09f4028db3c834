import Lindenmayer.Proofs.Turtle.Session

/-!
# Connected drawings

However a turtle is used, it goes on from where it stands, and it stands at the origin or at the end
of a segment. So every segment begins where the drawing has come to before, and no part of a drawing
is cut off from the origin.
-/

namespace Lindenmayer

namespace Turtle

/-! ## The invariant -/

/-- The point is the origin, or one of the first `count` segments ends there. -/
def Meets (segments : Array Segment) (count : Nat) (point : Point) : Prop :=
  point = Pose.origin.position ∨
    ∃ i < count, ∃ segment, segments[i]? = some segment ∧ segment.finish = point

/-- Every segment starts at the origin or at the end of an earlier one, and so does what comes next,
from where the turtle stands and from every place that it can come back to. -/
structure Drawing.Connected (drawing : Drawing) : Prop where
  segments : ∀ i segment, drawing.segments[i]? = some segment →
    Meets drawing.segments i segment.start
  position : Meets drawing.segments drawing.segments.size drawing.pose.position
  saved : ∀ pose ∈ drawing.saved, Meets drawing.segments drawing.segments.size pose.position

theorem Meets.push {segments : Array Segment} {count more : Nat} {point : Point}
    (hmeets : Meets segments count point) (hmore : count ≤ more) (segment : Segment) :
    Meets (segments.push segment) more point := by
  rcases hmeets with horigin | ⟨i, hi, found, hfound, hfinish⟩
  · exact Or.inl horigin
  · obtain ⟨hsize, -⟩ := Array.getElem?_eq_some_iff.mp hfound
    refine Or.inr ⟨i, Nat.lt_of_lt_of_le hi hmore, found, ?_, hfinish⟩
    rw [Array.getElem?_push_lt hsize, ← hfound]
    exact (Array.getElem?_eq_getElem hsize).symm

theorem connected_origin : Drawing.Connected ⟨.origin, [], #[]⟩ where
  segments := fun _ _ hsegment => by simp at hsegment
  position := Or.inl rfl
  saved := fun _ hmem => nomatch hmem

namespace Drawing.Connected

/-- The segment from where the turtle stands is joined to the drawing, and the turtle to it. -/
theorem forward {turtle : Turtle} (hconnected : turtle.drawing.Connected)
    (length thickness : Float) : (Turtle.forward length thickness turtle).drawing.Connected where
  segments := by
    intro i segment hsegment
    rw [drawing, Turtle.forward, Array.getElem?_push] at hsegment
    by_cases hlast : i = turtle.segments.size
    · rw [if_pos hlast] at hsegment
      cases hsegment
      rw [hlast]
      exact hconnected.position.push (Nat.le_refl _) _
    · rw [if_neg hlast] at hsegment
      exact (hconnected.segments i segment hsegment).push (Nat.le_refl i) _
  position := by
    refine Or.inr ⟨turtle.segments.size, ?_, _, Array.getElem?_push_size, rfl⟩
    simp [drawing, Turtle.forward]
  saved := by
    intro pose hmem
    refine (hconnected.saved pose hmem).push ?_ _
    simp [drawing, Turtle.forward]

theorem motion {constant : Option Char} {turtle after : Turtle}
    (hmotion : Motion constant turtle after) (hconnected : turtle.drawing.Connected) :
    after.drawing.Connected := by
  cases hmotion with
  | save =>
      refine ⟨hconnected.segments, hconnected.position, fun pose hmem => ?_⟩
      rcases List.mem_cons.mp hmem with rfl | hmem
      · exact hconnected.position
      · exact hconnected.saved pose hmem
  | @restore _ last saved hsaved =>
      have hplaces := hconnected.saved
      rw [drawing, hsaved] at hplaces
      refine ⟨hconnected.segments, hplaces last List.mem_cons_self, fun pose hmem => ?_⟩
      exact hplaces pose (List.mem_cons_of_mem last hmem)
  | forward length thickness => exact hconnected.forward length thickness
  | turn angle => exact ⟨hconnected.segments, hconnected.position, hconnected.saved⟩
  | rest => exact hconnected

end Drawing.Connected

/-! ## Whatever is done -/

variable {alphabet : Alphabet} {limit : Option Nat}

theorem keeps_connected_dispatch (symbol : Symbol) :
    Keeps (fun turtle : Turtle => turtle.drawing.Connected)
      ((system alphabet limit).dispatch symbol) :=
  (makes_dispatch symbol).keeps fun _ _ hmotion => Drawing.Connected.motion hmotion

theorem Step.keeps_connected {step : Step} (hdraws : step.draws = true) :
    Keeps (fun turtle : Turtle => turtle.drawing.Connected) (step.run (system alphabet limit)) := by
  have hreset : Keeps (fun turtle : Turtle => turtle.drawing.Connected)
      (modify Turtle.reset : Effect Turtle Unit) := .modify fun _ _ => connected_origin
  cases step with
  | build start rules iterations => cases hdraws
  | evaluate text => cases hdraws
  | execute word =>
      refine .bind (.bind hreset fun _ => ?_) fun _ => .pure _
      exact .forM fun symbol _ => keeps_connected_dispatch symbol
  | reset => exact .bind hreset fun _ => .pure _
  | applyConstant constant =>
      refine .bind (.ofHost ?_) fun _ => .pure _
      exact (makes_applyConstant constant).keeps fun _ _ hmotion => .motion hmotion
  | forward length thickness =>
      exact .bind (.modify fun _ hbefore => hbefore.forward length thickness) fun _ => .pure _
  | turn angle =>
      exact .bind (.modify fun turtle => .motion (.turn angle turtle)) fun _ => .pure _
  | randomInteger min max => cases hdraws

/-- Something done with a turtle: a step with a system on it, or a single symbol that acts on it. -/
inductive Act where
  | step (alphabet : Alphabet) (limit : Option Nat) (step : Step)
  | dispatch (alphabet : Alphabet) (symbol : Symbol)

def Act.leaves (turtle : Turtle) : Act → Turtle
  | .step alphabet limit taken => (taken.take (system alphabet limit) turtle).after
  | .dispatch alphabet symbol => hostLeft (((system alphabet none).dispatch symbol).run turtle)

theorem Act.connected_leaves (act : Act) {turtle : Turtle}
    (hconnected : turtle.drawing.Connected) : (act.leaves turtle).drawing.Connected := by
  cases act with
  | step alphabet limit taken =>
      cases hdraws : taken.draws with
      | true => exact Step.keeps_connected hdraws turtle hconnected
      | false =>
          rw [leaves, taken.drawing_take hdraws]
          exact hconnected
  | dispatch alphabet symbol => exact keeps_connected_dispatch symbol turtle hconnected

/-- Whatever has been done with a turtle since it was new, in whatever order and with or without
success, its drawing is connected. -/
theorem drawing_connected (generator : Generator) (acts : List Act) :
    (acts.foldl Act.leaves ⟨.origin, [], #[], generator⟩).drawing.Connected := by
  have hacts turtle (hturtle : turtle.drawing.Connected) :
      (acts.foldl Act.leaves turtle).drawing.Connected := by
    induction acts generalizing turtle with
    | nil => exact hturtle
    | cons act acts ih => exact ih (act.leaves turtle) (act.connected_leaves hturtle)
  exact hacts _ connected_origin

end Turtle

end Lindenmayer
