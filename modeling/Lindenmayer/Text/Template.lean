import Lindenmayer.Text

/-!
# Templates

A template is a text with holes: each hole holds a value and comes with the text before it, and a
last piece of text follows the last hole. Filling the holes with texts gives a text again.
-/

namespace Lindenmayer

/-- A text with holes that hold values of type `α`. -/
structure Template (α : Type) where
  /-- Each hole, with the text between the hole before it and itself. -/
  holes : List (Text × α)
  /-- The text after the last hole. -/
  rest : Text
  deriving Repr

namespace Template

def plain (text : Text) : Template α := ⟨[], text⟩

def pushChar (c : Char) : Template α → Template α
  | ⟨[], rest⟩ => ⟨[], c :: rest⟩
  | ⟨(before, value) :: holes, rest⟩ => ⟨(c :: before, value) :: holes, rest⟩

def pushHole (value : α) (template : Template α) : Template α :=
  ⟨([], value) :: template.holes, template.rest⟩

def values (template : Template α) : List α := template.holes.map (·.2)

def map (f : α → β) (template : Template α) : Template β :=
  ⟨template.holes.map fun hole => (hole.1, f hole.2), template.rest⟩

/-- The text that the template becomes when each hole is filled with its text. -/
def fill (template : Template Text) : Text :=
  (template.holes.flatMap fun hole => hole.1 ++ hole.2) ++ template.rest

@[simp] theorem fill_pushChar (c : Char) (template : Template Text) :
    (template.pushChar c).fill = c :: template.fill := by
  rcases template with ⟨_ | ⟨⟨before, value⟩, holes⟩, rest⟩ <;> rfl

@[simp] theorem fill_pushHole (text : Text) (template : Template Text) :
    (template.pushHole text).fill = text ++ template.fill := by
  simp [fill, pushHole, List.append_assoc]

@[simp] theorem values_pushChar (c : Char) (template : Template α) :
    (template.pushChar c).values = template.values := by
  rcases template with ⟨_ | ⟨⟨before, value⟩, holes⟩, rest⟩ <;> rfl

@[simp] theorem values_pushHole (value : α) (template : Template α) :
    (template.pushHole value).values = value :: template.values := rfl

@[simp] theorem map_pushChar (f : α → β) (c : Char) (template : Template α) :
    (template.pushChar c).map f = (template.map f).pushChar c := by
  rcases template with ⟨_ | ⟨⟨before, value⟩, holes⟩, rest⟩ <;> rfl

@[simp] theorem map_pushHole (f : α → β) (value : α) (template : Template α) :
    (template.pushHole value).map f = (template.map f).pushHole (f value) := rfl

end Template

end Lindenmayer
