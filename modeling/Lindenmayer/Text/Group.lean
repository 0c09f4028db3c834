import Lindenmayer.Error

/-!
# Parenthesised groups

A group runs from an opening parenthesis to the one that closes it. `splitGroup?` cuts a text behind
its first group, `splitParameters` cuts a parameter list at the commas outside all groups. Both read
a text once from the left and keep the number of groups that are open.
-/

namespace Lindenmayer.Text

def pushFirst (c : Char) (cut : Text × α) : Text × α := (c :: cut.1, cut.2)

theorem map_pushFirst_eq_some {c : Char} {cut : Option (Text × α)} {first : Text} {second : α}
    (h : cut.map (pushFirst c) = some (first, second)) :
    ∃ inner, first = c :: inner ∧ cut = some (inner, second) := by
  obtain ⟨⟨inner, _⟩, hcut, hpair⟩ := Option.map_eq_some_iff.1 h
  simp only [pushFirst, Prod.mk.injEq] at hpair
  obtain ⟨rfl, rfl⟩ := hpair
  exact ⟨inner, rfl, hcut⟩

/-! ## One group -/

/-- Cuts a text, read with `depth` groups open, at the parenthesis that closes the last of them: the
text before that parenthesis and the text after it. -/
def splitGroup? : (depth : Nat) → Text → Option (Text × Text)
  | _, [] => none
  | depth, c :: text =>
      if c = '(' then
        (splitGroup? (depth + 1) text).map (pushFirst c)
      else if c = ')' then
        match depth with
        | 0 => none
        | 1 => some ([], text)
        | depth + 2 => (splitGroup? (depth + 1) text).map (pushFirst c)
      else
        (splitGroup? depth text).map (pushFirst c)

/-- Nothing but the closing parenthesis is lost when a text is cut behind a group. -/
theorem eq_of_splitGroup? {depth : Nat} {text inner rest : Text}
    (h : splitGroup? depth text = some (inner, rest)) : text = inner ++ ')' :: rest := by
  fun_induction splitGroup? depth text generalizing inner rest with
  | case1 => simp at h
  | case2 depth text ih =>
      obtain ⟨first, rfl, hcut⟩ := map_pushFirst_eq_some h
      rw [ih hcut]
      rfl
  | case3 => simp at h
  | case4 text =>
      simp only [Option.some.injEq, Prod.mk.injEq] at h
      obtain ⟨rfl, rfl⟩ := h
      rfl
  | case5 text _ depth ih =>
      obtain ⟨first, rfl, hcut⟩ := map_pushFirst_eq_some h
      rw [ih hcut]
      rfl
  | case6 depth c text _ _ ih =>
      obtain ⟨first, rfl, hcut⟩ := map_pushFirst_eq_some h
      rw [ih hcut]
      rfl

theorem length_of_splitGroup? {depth : Nat} {text inner rest : Text}
    (h : splitGroup? depth text = some (inner, rest)) :
    inner.length + rest.length < text.length := by
  rw [eq_of_splitGroup? h, List.length_append, List.length_cons]
  omega

/-- The place, in bytes, of the parenthesis that closes the group opened at byte `start`. -/
def matchingParen (text : Text) (start : Nat) : Except ParseError Nat :=
  match splitGroup? 0 (dropBytes start text) with
  | none => .error (.unbalancedParentheses text)
  | some (before, _) => .ok (start + utf8Length before)

/-! ## Parameter lists -/

/-- Takes the text up to the first comma outside all groups, read with `depth` groups open, and what
follows that comma if there is one. Fails on a parenthesis that closes nothing and on a group that
is still open at the end of the text. -/
def takeParameter? : (depth : Nat) → Text → Option (Text × Option Text)
  | depth, [] => if depth = 0 then some ([], none) else none
  | depth, c :: text =>
      if c = '(' then
        (takeParameter? (depth + 1) text).map (pushFirst c)
      else if c = ')' then
        match depth with
        | 0 => none
        | depth + 1 => (takeParameter? depth text).map (pushFirst c)
      else if c = ',' ∧ depth = 0 then
        some ([], some text)
      else
        (takeParameter? depth text).map (pushFirst c)

/-- A parameter and what follows its comma make up the text. -/
theorem eq_of_takeParameter? {depth : Nat} {text parameter : Text} {rest : Option Text}
    (h : takeParameter? depth text = some (parameter, rest)) :
    text = parameter ++ rest.elim [] (',' :: ·) := by
  fun_induction takeParameter? depth text generalizing parameter rest with
  | case1 =>
      simp only [Option.some.injEq, Prod.mk.injEq] at h
      obtain ⟨rfl, rfl⟩ := h
      rfl
  | case2 => simp at h
  | case3 depth text ih =>
      obtain ⟨first, rfl, hcut⟩ := map_pushFirst_eq_some h
      rw [ih hcut]
      rfl
  | case4 => simp at h
  | case5 text _ depth ih =>
      obtain ⟨first, rfl, hcut⟩ := map_pushFirst_eq_some h
      rw [ih hcut]
      rfl
  | case6 depth c text _ _ hcomma =>
      simp only [Option.some.injEq, Prod.mk.injEq] at h
      obtain ⟨rfl, rfl⟩ := h
      rw [hcomma.1]
      rfl
  | case7 depth c text _ _ _ ih =>
      obtain ⟨first, rfl, hcut⟩ := map_pushFirst_eq_some h
      rw [ih hcut]
      rfl

theorem length_rest_of_takeParameter? {depth : Nat} {text parameter rest : Text}
    (h : takeParameter? depth text = some (parameter, some rest)) : rest.length < text.length := by
  rw [eq_of_takeParameter? h, Option.elim_some, List.length_append, List.length_cons]
  omega

theorem length_parameter_of_takeParameter? {depth : Nat} {text parameter : Text}
    {rest : Option Text} (h : takeParameter? depth text = some (parameter, rest)) :
    parameter.length ≤ text.length := by
  rw [eq_of_takeParameter? h, List.length_append]
  omega

/-- The parameters of the part `text` of the parameter list `whole`. The first fault from the left
is reported: a parameter whose groups do not balance, or a blank parameter. -/
def splitParametersOf (whole text : Text) : Except ParseError (List Text) :=
  match _h : takeParameter? 0 text with
  | none => .error (.unbalancedParentheses whole)
  | some (parameter, rest) =>
      if parameter.isBlank then
        .error (.emptyParameter whole)
      else
        match rest with
        | none => .ok [parameter]
        | some rest => (splitParametersOf whole rest).map (parameter :: ·)
termination_by text.length
decreasing_by exact length_rest_of_takeParameter? _h

/-- Cuts a parameter list at the commas outside all groups. Parameters keep the blanks around them;
a blank list has none. -/
def splitParameters (text : Text) : Except ParseError (List Text) :=
  if text.isBlank then .ok [] else splitParametersOf text text

theorem splitParameters_of_isBlank {text : Text} (hblank : text.isBlank = true) :
    splitParameters text = .ok [] :=
  if_pos hblank

theorem splitParameters_of_notBlank {text : Text} (hblank : text.isBlank = false) :
    splitParameters text = splitParametersOf text text :=
  if_neg (Bool.eq_false_iff.mp hblank)

/-- Each parameter is a part of its list. -/
theorem length_le_of_mem_splitParametersOf {whole text : Text} {parameters : List Text}
    (h : splitParametersOf whole text = .ok parameters) {parameter : Text}
    (hmem : parameter ∈ parameters) : parameter.length ≤ text.length := by
  fun_induction splitParametersOf whole text generalizing parameters with
  | case1 => simp at h
  | case2 => simp at h
  | case3 text first _ htake =>
      simp only [Except.ok.injEq] at h
      subst h
      rw [List.mem_singleton] at hmem
      subst hmem
      exact length_parameter_of_takeParameter? htake
  | case4 text first _ rest _ htake ih =>
      cases hrest : splitParametersOf whole rest with
      | error error => simp [hrest, Except.map] at h
      | ok others =>
          simp only [hrest, Except.map, Except.ok.injEq] at h
          subst h
          rcases List.mem_cons.1 hmem with rfl | hother
          · exact length_parameter_of_takeParameter? htake
          · exact Nat.le_trans (ih hrest hother)
              (Nat.le_of_lt (length_rest_of_takeParameter? htake))

theorem length_le_of_mem_splitParameters {text : Text} {parameters : List Text}
    (h : splitParameters text = .ok parameters) {parameter : Text}
    (hmem : parameter ∈ parameters) : parameter.length ≤ text.length := by
  cases hblank : text.isBlank with
  | true =>
      rw [splitParameters_of_isBlank hblank] at h
      cases h
      cases hmem
  | false =>
      rw [splitParameters_of_notBlank hblank] at h
      exact length_le_of_mem_splitParametersOf h hmem

end Lindenmayer.Text
