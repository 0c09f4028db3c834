import Lindenmayer.Text.Group
import Lindenmayer.Text.Template

/-!
# Function calls in a text

A call is a function name that starts where no identifier runs on, is not itself continued by an
identifier character, and is followed, after optional blanks, by a parenthesised group. `findCalls`
turns a text into the template whose holes are its outermost calls. Calls inside the group of
another call belong to that call.
-/

namespace Lindenmayer

structure Call where
  /-- The function name. -/
  name : Text
  /-- The blanks between the name and its group. -/
  gap : Text
  /-- The text between the parentheses. -/
  inner : Text
  deriving DecidableEq, Repr

namespace Call

def text (call : Call) : Text :=
  call.name ++ call.gap ++ '(' :: call.inner ++ [')']

/-- The four places of a call, in bytes: where its name starts and ends, and where the parentheses
of its group stand. -/
structure Span where
  start : Nat
  nameEnd : Nat
  openParen : Nat
  closeParen : Nat
  deriving DecidableEq, Repr

def span (call : Call) (start : Nat) : Span :=
  let nameEnd := start + call.name.utf8Length
  let openParen := nameEnd + call.gap.utf8Length
  ⟨start, nameEnd, openParen, openParen + 1 + call.inner.utf8Length⟩

/-- Reads a call of the function `name` up to its opening parenthesis: the blanks after the name and
the text after the parenthesis. -/
def head? (name text : Text) : Option (Text × Text) :=
  if name ≠ [] ∧ name <+: text then
    let rest := text.drop name.length
    if rest.head?.any isIdentifierChar then
      none
    else
      match rest.dropWhile isBlankChar with
      | '(' :: inside => some (rest.takeWhile isBlankChar, inside)
      | _ => none
  else
    none

/-- The first of the functions that a call at the start of the text can be of: its name, the blanks
after it and the text after the opening parenthesis. -/
def firstHead? (functions : List Text) (text : Text) : Option (Text × Text × Text) :=
  functions.findSome? fun name => (head? name text).map fun head => (name, head)

theorem head?_eq_some {name text gap inside : Text} (h : head? name text = some (gap, inside)) :
    name ≠ [] ∧ gap.all isBlankChar = true ∧ text = name ++ gap ++ '(' :: inside := by
  obtain ⟨⟨hname, rest, rfl⟩, h⟩ := Option.ite_none_right_eq_some.mp h
  rw [List.drop_left] at h
  obtain ⟨-, h⟩ := Option.ite_none_left_eq_some.mp h
  by_cases hparen : (rest.dropWhile isBlankChar).head? = some '('
  · obtain ⟨inside', hdrop⟩ := List.head?_eq_some_iff.mp hparen
    rw [hdrop] at h
    cases h
    refine ⟨hname, List.all_takeWhile, ?_⟩
    rw [List.append_assoc, ← hdrop, List.takeWhile_append_dropWhile]
  · cases hdrop : rest.dropWhile isBlankChar with
    | nil => simp [hdrop] at h
    | cons c inside' =>
        have hc : c ≠ '(' := fun heq => hparen (by rw [hdrop, heq]; rfl)
        simp [hdrop, hc] at h

theorem eq_of_firstHead? {functions : List Text} {text name gap inside : Text}
    (h : firstHead? functions text = some (name, gap, inside)) :
    text = name ++ gap ++ '(' :: inside := by
  obtain ⟨_, _, hfound⟩ := List.exists_of_findSome?_eq_some h
  obtain ⟨head, hhead, hpair⟩ := Option.map_eq_some_iff.1 hfound
  simp only [Prod.mk.injEq] at hpair
  obtain ⟨rfl, rfl⟩ := hpair
  exact (head?_eq_some hhead).2.2

theorem length_of_firstHead? {functions : List Text} {text name gap inside : Text}
    (h : firstHead? functions text = some (name, gap, inside)) : inside.length < text.length := by
  rw [eq_of_firstHead? h, List.length_append, List.length_cons]
  omega

end Call

/-! ## All calls of a text -/

/-- The calls of a text, read where `boundary` says whether no identifier runs on. There is no
answer if a call is never closed. -/
def findCallsFrom? (functions : List Text) (boundary : Bool) (text : Text) :
    Option (Template Call) :=
  match text with
  | [] => some (.plain [])
  | c :: text =>
      match _hhead : if boundary then Call.firstHead? functions (c :: text) else none with
      | none => (findCallsFrom? functions (!isIdentifierChar c) text).map (.pushChar c)
      | some (name, gap, inside) =>
          match _hgroup : Text.splitGroup? 1 inside with
          | none => none
          | some (inner, rest) =>
              (findCallsFrom? functions true rest).map (.pushHole ⟨name, gap, inner⟩)
termination_by text.length
decreasing_by
  · simp
  · have hinside := Call.length_of_firstHead? (Option.ite_none_right_eq_some.mp _hhead).2
    have hrest := Text.length_of_splitGroup? _hgroup
    omega

/-- The template whose holes are the outermost calls of the text. -/
def findCalls (functions : List Text) (text : Text) : Except ParseError (Template Call) :=
  match findCallsFrom? functions true text with
  | none => .error (.unbalancedParentheses text)
  | some template => .ok template

theorem findCalls_eq_ok_iff {functions : List Text} {text : Text} {template : Template Call} :
    findCalls functions text = .ok template ↔
      findCallsFrom? functions true text = some template := by
  unfold findCalls
  cases findCallsFrom? functions true text with
  | none => simp
  | some found => simp

/-- Filling every hole with the call that was there gives the text back. -/
theorem fill_findCallsFrom? {functions : List Text} {boundary : Bool} {text : Text}
    {template : Template Call} (h : findCallsFrom? functions boundary text = some template) :
    (template.map Call.text).fill = text := by
  fun_induction findCallsFrom? functions boundary text generalizing template with
  | case1 =>
      simp only [Option.some.injEq] at h
      subst h
      rfl
  | case2 boundary c text _ ih =>
      obtain ⟨inner, hinner, rfl⟩ := Option.map_eq_some_iff.1 h
      rw [Template.map_pushChar, Template.fill_pushChar, ih hinner]
  | case3 => simp at h
  | case4 boundary c text name gap inside hhead inner rest hgroup ih =>
      obtain ⟨others, hothers, rfl⟩ := Option.map_eq_some_iff.1 h
      rw [Template.map_pushHole, Template.fill_pushHole, ih hothers]
      rw [Call.eq_of_firstHead? (Option.ite_none_right_eq_some.mp hhead).2,
        Text.eq_of_splitGroup? hgroup]
      simp [Call.text]

theorem fill_findCalls {functions : List Text} {text : Text} {template : Template Call}
    (h : findCalls functions text = .ok template) : (template.map Call.text).fill = text :=
  fill_findCallsFrom? (findCalls_eq_ok_iff.mp h)

/-- The parameter list of a call is shorter than a text that the call stands in. -/
theorem length_inner_lt_of_mem {holes : List (Text × Call)} {rest : Text} {hole : Text × Call}
    (hmem : hole ∈ holes) :
    hole.2.inner.length < (Template.map Call.text ⟨holes, rest⟩).fill.length := by
  induction holes with
  | nil => simp at hmem
  | cons first holes ih =>
      simp only [Template.fill, Template.map, List.map_cons, List.flatMap_cons,
        List.length_append] at ih ⊢
      rcases List.mem_cons.1 hmem with rfl | hother
      · simp only [Call.text, List.length_append, List.length_cons]
        omega
      · have := ih hother
        omega

theorem length_inner_lt_of_findCalls {functions : List Text} {text : Text}
    {template : Template Call} (h : findCalls functions text = .ok template)
    {hole : Text × Call} (hmem : hole ∈ template.holes) :
    hole.2.inner.length < text.length := by
  have hlt := @length_inner_lt_of_mem template.holes template.rest hole hmem
  rwa [fill_findCalls h] at hlt

namespace Template

def spansFrom (start : Nat) : List (Text × Call) → List Call.Span
  | [] => []
  | (before, call) :: holes =>
      let callStart := start + before.utf8Length
      call.span callStart :: spansFrom (callStart + call.text.utf8Length) holes

def spans (template : Template Call) : List Call.Span := spansFrom 0 template.holes

end Template

end Lindenmayer
