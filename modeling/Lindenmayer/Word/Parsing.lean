import Lindenmayer.Alphabet
import Lindenmayer.Text.Group
import Lindenmayer.Word

/-!
# Reading words

A symbol string is read from the left: a constant, or else the first declared variable that the
string begins with, together with the parameter list that may follow it. Blanks between symbols
carry no meaning. Where neither a constant nor a variable begins, the rest of the string is one
symbol without parameters, which has no place in any alphabet.
-/

namespace Lindenmayer.Alphabet

/-- The first declared variable that the text begins with, and the text after it and its blanks. -/
def takeVariable? (alphabet : Alphabet) (text : Text) : Option (Text × Text) :=
  alphabet.variableNames.findSome? fun name =>
    if name ≠ [] ∧ name <+: text then some (name, Text.trimStart (text.drop name.length)) else none

/-- Reads the symbol at the start of the text `c :: text`, and the blanks after it. -/
def readSymbol (alphabet : Alphabet) (c : Char) (text : Text) :
    Except ParseError (Symbol × Text) :=
  if alphabet.isConstant c then
    .ok (.bare [c], text.trimStart)
  else
    match alphabet.takeVariable? (c :: text) with
    | none => .ok (.bare (c :: text), [])
    | some (name, '(' :: inside) =>
        match Text.splitGroup? 1 inside with
        | none => .error (.unbalancedParentheses ('(' :: inside))
        | some (inner, rest) =>
            (Text.splitParameters inner).map fun args => (.withArgs name args, rest.trimStart)
    | some (name, rest) => .ok (.bare name, rest)

section

variable {alphabet : Alphabet} {c : Char} {text name rest : Text}

theorem takeVariable?_eq_some (h : alphabet.takeVariable? text = some (name, rest)) :
    name ∈ alphabet.variableNames ∧ name ≠ [] ∧
      ∃ after, name ++ after = text ∧ rest = after.trimStart := by
  obtain ⟨found, hfound, htaken⟩ := List.exists_of_findSome?_eq_some h
  obtain ⟨⟨hne, after, htext⟩, hpair⟩ := Option.ite_none_right_eq_some.mp htaken
  obtain ⟨rfl, rfl⟩ := Prod.mk.inj (Option.some.inj hpair)
  exact ⟨hfound, hne, after, htext, by rw [← htext, List.drop_left]⟩

theorem length_of_takeVariable? (h : alphabet.takeVariable? text = some (name, rest)) :
    rest.length < text.length := by
  obtain ⟨-, hne, after, rfl, rfl⟩ := takeVariable?_eq_some h
  have hpos : 0 < name.length := List.length_pos_iff.2 hne
  have htrim := Text.length_trimStart_le after
  rw [List.length_append]
  omega

theorem readSymbol_of_constant (hc : alphabet.isConstant c = true) (text : Text) :
    alphabet.readSymbol c text = .ok (.bare [c], text.trimStart) := by
  rw [readSymbol, if_pos hc]

theorem readSymbol_of_none (hc : ¬alphabet.isConstant c = true)
    (htake : alphabet.takeVariable? (c :: text) = none) :
    alphabet.readSymbol c text = .ok (.bare (c :: text), []) := by
  rw [readSymbol, if_neg hc, htake]

theorem readSymbol_of_bare (hc : ¬alphabet.isConstant c = true)
    (htake : alphabet.takeVariable? (c :: text) = some (name, rest))
    (hparen : rest.head? ≠ some '(') : alphabet.readSymbol c text = .ok (.bare name, rest) := by
  rw [readSymbol, if_neg hc, htake]
  cases rest with
  | nil => rfl
  | cons d rest =>
      have hd : d ≠ '(' := fun h => hparen (congrArg some h)
      simp [hd]

theorem readSymbol_of_openParen {inside : Text} (hc : ¬alphabet.isConstant c = true)
    (htake : alphabet.takeVariable? (c :: text) = some (name, '(' :: inside)) :
    alphabet.readSymbol c text =
      match Text.splitGroup? 1 inside with
      | none => .error (.unbalancedParentheses ('(' :: inside))
      | some (inner, rest) =>
          (Text.splitParameters inner).map fun args => (.withArgs name args, rest.trimStart) := by
  rw [readSymbol, if_neg hc, htake]
  rfl

/-- A symbol is not empty. -/
theorem length_of_readSymbol {symbol : Symbol}
    (h : alphabet.readSymbol c text = .ok (symbol, rest)) : rest.length < (c :: text).length := by
  by_cases hc : alphabet.isConstant c = true
  · rw [readSymbol_of_constant hc] at h
    cases h
    exact Nat.lt_succ_of_le (Text.length_trimStart_le text)
  cases htake : alphabet.takeVariable? (c :: text) with
  | none =>
      rw [readSymbol_of_none hc htake] at h
      cases h
      exact Nat.zero_lt_succ _
  | some taken =>
      obtain ⟨name, after⟩ := taken
      have hafter := length_of_takeVariable? htake
      by_cases hparen : after.head? = some '('
      · obtain ⟨inside, rfl⟩ := List.head?_eq_some_iff.mp hparen
        rw [readSymbol_of_openParen hc htake] at h
        cases hgroup : Text.splitGroup? 1 inside with
        | none => simp [hgroup] at h
        | some group =>
            obtain ⟨inner, behind⟩ := group
            have hbehind := Text.length_of_splitGroup? hgroup
            have htrim := Text.length_trimStart_le behind
            cases hargs : Text.splitParameters inner with
            | error error => simp [hgroup, hargs, Except.map] at h
            | ok args =>
                simp only [hgroup, hargs] at h
                cases h
                simp only [List.length_cons] at hafter ⊢
                omega
      · rw [readSymbol_of_bare hc htake hparen] at h
        cases h
        exact hafter

end

def readWordFrom (alphabet : Alphabet) (text : Text) : Except ParseError Word :=
  match text with
  | [] => .ok []
  | c :: text =>
      match _hsymbol : alphabet.readSymbol c text with
      | .error error => .error error
      | .ok (symbol, rest) => (readWordFrom alphabet rest).map (symbol :: ·)
termination_by text.length
decreasing_by exact length_of_readSymbol _hsymbol

def readWord (alphabet : Alphabet) (text : Text) : Except ParseError Word :=
  alphabet.readWordFrom text.trim

end Lindenmayer.Alphabet
