import Lindenmayer.Proofs.Expression.TextParameter
import Lindenmayer.Proofs.System

/-!
# Growth that passes texts on

A function that takes a text is given a parameter of bare words in parentheses, unless the words are
a number. Where it gives the text back, the next generation puts the parentheses it has received in
parentheses again.
-/

namespace Lindenmayer

variable {σ : Type}

def Rule.through (name f x : Text) : Rule :=
  ⟨[⟨name, some [x]⟩], [⟨name, some [(callOf f x).text]⟩]⟩

theorem Rule.lookup_actuals_through (name f : Text) {x : Text}
    (hx : x.all isIdentifierChar = true) (arg : Text) :
    ((through name f x).actuals [⟨name, some [arg]⟩]).lookup x = some arg := by
  have htrim : x.trim = x := Text.trim_of_forall_not_blank fun c hc =>
    not_isBlankChar_of_isIdentifierChar (List.all_eq_true.mp hx c hc)
  have hactuals : (through name f x).actuals [⟨name, some [arg]⟩] = [(x.trim, arg)] := rfl
  rw [hactuals, htrim, List.lookup_cons_self]

theorem factors_through (name f x arg : Text) :
    factors [Rule.through name f x] [⟨name, some [arg]⟩] =
      [.apply (Rule.through name f x) [⟨name, some [arg]⟩]] := by
  have hmatch : firstMatch? [Rule.through name f x] [⟨name, some [arg]⟩] =
      some (Rule.through name f x) := by
    simp [firstMatch?, Rule.matchesAt, Rule.through, Word.startsWith]
  rw [factors_of_some hmatch]
  exact congrArg _ (factors_nil _)

theorem System.checkLimit_singleton {system : System σ} (hlimit : system.limit ≠ some 0)
    (generation : Nat) (symbol : Symbol) : system.checkLimit generation [symbol] = .ok () := by
  rw [checkLimit]
  cases hsome : system.limit with
  | none => rfl
  | some limit =>
      have hpos : limit ≠ 0 := by
        rintro rfl
        exact hlimit hsome
      refine if_neg ?_
      rw [List.length_singleton]
      omega

/-! ## Words in parentheses -/

theorem Number.ofText?_enclose_succ (depth : Nat) (text : Text) :
    ofText? (Text.enclose (depth + 1) text) = none := by
  cases hread : ofText? (Text.enclose (depth + 1) text) with
  | none => rfl
  | some n =>
      obtain ⟨_, sign, written, _, hsign, hwritten, htext⟩ := exists_written hread
      obtain ⟨c, rest, rfl, hhead⟩ := hwritten.exists_head
      rw [Text.trim_enclose_succ, Text.enclose_succ] at htext
      cases hsign with
      | none =>
          cases htext
          exact absurd hhead (by decide)
      | plus => cases htext
      | minus => cases htext

theorem boundValue_enclose_succ (depth : Nat) (text : Text) :
    boundValue (Text.enclose (depth + 1) text) = Text.enclose (depth + 2) text := by
  have hnumber : Number.ofText? (Text.enclose (depth + 1) text).trim = none := by
    rw [Text.trim_enclose_succ, Number.ofText?_enclose_succ]
  rw [boundValue_of_not_number hnumber, Text.trim_enclose_succ, Text.enclose_succ,
    Text.enclose_zero, ← Text.enclose_succ]

theorem Call.NoneIn.openParens {functions : List Text} (hnames : ∀ name ∈ functions, '(' ∉ name)
    {text : Text} (hopen : '(' ∉ text) (count : Nat) :
    NoneIn functions (List.replicate count '(' ++ text) [] := by
  induction count with
  | zero => exact .of_not_mem hopen
  | succ count ih =>
      rw [List.replicate_succ, List.cons_append]
      exact ⟨firstHead?_openParen (.inr hnames), ih⟩

theorem findCalls_enclose {functions : List Text} (hnames : ∀ name ∈ functions, '(' ∉ name)
    {text : Text} (hopen : '(' ∉ text) (depth : Nat) :
    findCalls functions (Text.enclose depth text) = .ok (.plain (Text.enclose depth text)) := by
  have hrest : '(' ∉ text ++ List.replicate depth ')' := by simp [hopen]
  rw [findCalls, Text.enclose, findCallsFrom?_of_noneIn (.openParens hnames hrest depth)]

/-! ## Generations of words in parentheses -/

theorem settle_text {text : Text} (hvalue : (compute text).toOption = none) :
    settle ⟨[([], text)], []⟩ = .ok text := by
  have hblank : (Text.isBlank [] && Text.isBlank []) = true := rfl
  rw [settle, if_pos hblank]
  cases hcompute : compute text with
  | ok n =>
      rw [hcompute] at hvalue
      cases hvalue
  | error error => rfl

section

variable {system : System σ} {f x : Text} {function : Capability σ Value}
  (hf : system.scope.TakesText f function) (hne : x ≠ []) (hx : x.all isIdentifierChar = true)
  {name : Text} (hspares : (Rule.through name f x).Spares f)
  (hidentity : ∀ text, function.run [.text text] = pure (.text text))
include hf hne hx hspares hidentity

/-- One generation takes a parameter that has no value to what it is bound as. -/
theorem Scope.TakesText.nextGeneration_through {arg : Text}
    (hparam : Text.IsParameter (boundValue arg))
    (hcalls : findCalls system.scope.functions (boundValue arg) = .ok (.plain (boundValue arg)))
    (hvalue : (compute (boundValue arg)).toOption = none) :
    system.scope.nextGeneration [Rule.through name f x] [⟨name, some [arg]⟩] =
      pure [⟨name, some [boundValue arg]⟩] := by
  have hactual := Rule.lookup_actuals_through name f hx arg
  have hsuccessor : (Rule.through name f x).successor =
      [] ++ ⟨name, some ([] ++ (callOf f x).text :: [])⟩ :: [] := rfl
  have hrun : (Effect.ofHost .evaluation (function.run [.text (boundValue arg)]) : Effect σ _) =
      pure (.text (boundValue arg)) := by
    rw [hidentity]
    rfl
  have hliteral : (Effect.ofExcept id (settle ⟨[([], (Value.text (boundValue arg)).display)], []⟩) :
      Effect σ _) = pure (boundValue arg) := by
    rw [Value.display, settle_text hvalue]
    rfl
  have hbound : (Effect.ofExcept .evaluation
      ((Rule.through name f x).bindings [⟨name, some [arg]⟩]) : Effect σ _) =
        pure [(x.trim, boundValue arg)] := rfl
  rw [nextGeneration, factors_through]
  simp only [List.mapM_cons, List.mapM_nil, replace,
    hf.instantiate_eq hne hx hparam hcalls hspares hactual hsuccessor, hrun, hliteral, hbound,
    pure_bind, List.nil_append, List.flatten_cons, List.flatten_nil, List.append_nil]

/-- Every generation puts the parameter in one pair of parentheses more. -/
theorem System.growFrom_through_enclose (hlimit : system.limit ≠ some 0)
    (hnames : ∀ name ∈ system.scope.functions, '(' ∉ name) {text : Text} (hopen : '(' ∉ text)
    (hclose : ')' ∉ text) (hvalue : (compute text).toOption = none) (generations : Nat) :
    ∀ generation depth,
      system.growFrom [Rule.through name f x] generation generations
          [⟨name, some [Text.enclose (depth + 1) text]⟩] =
        pure [⟨name, some [Text.enclose (depth + 1 + generations) text]⟩] := by
  induction generations with
  | zero => exact fun _ _ => rfl
  | succ generations ih =>
      intro generation depth
      have hparam : Text.IsParameter (boundValue (Text.enclose (depth + 1) text)) := by
        rw [boundValue_enclose_succ, Text.enclose_succ]
        exact (Text.closes_enclose (Text.closes_of_not_mem hopen hclose) _).isParameter_group
      have hcalls := findCalls_enclose hnames hopen (depth + 2)
      have hnone := (toOption_compute_enclose hclose (depth + 2)).trans hvalue
      rw [← boundValue_enclose_succ] at hcalls hnone
      rw [growFrom, hf.nextGeneration_through hne hx hspares hidentity hparam hcalls hnone,
        pure_bind, boundValue_enclose_succ]
      rw [checkLimit_singleton hlimit, ← Nat.add_assoc, Nat.add_right_comm (depth + 1)]
      exact ih (generation + 1) (depth + 1)

/-- The first generation takes the blanks around the words away. -/
theorem System.growFrom_through (hlimit : system.limit ≠ some 0)
    (hnames : ∀ name ∈ system.scope.functions, '(' ∉ name) {arg : Text} (hbare : arg.IsBare)
    (hnumber : Number.ofText? arg.trim = none) (hvalue : (compute arg.trim).toOption = none)
    (generation generations : Nat) :
    system.growFrom [Rule.through name f x] generation (generations + 1) [⟨name, some [arg]⟩] =
      pure [⟨name, some [Text.enclose (generations + 1) arg.trim]⟩] := by
  have htrim := hbare.trim
  have hbound := boundValue_of_not_number hnumber
  have hnone : (compute (boundValue arg)).toOption = none := by
    rw [hbound, toOption_compute_enclose htrim.noCloseParen, hvalue]
  rw [growFrom, hf.nextGeneration_through hne hx hspares hidentity hbare.isParameter_boundValue
    (hbare.findCalls_boundValue _) hnone, pure_bind, checkLimit_singleton hlimit, hbound,
    Nat.add_comm generations 1]
  exact growFrom_through_enclose hf hne hx hspares hidentity hlimit hnames htrim.noOpenParen
    htrim.noCloseParen hvalue generations (generation + 1) 0

end

/-- A function with a text parameter is invoked with the value that the parameter is bound as: the
words as they are if they are a number, and in parentheses if they are not. A rule that only passes
words on to such a function, and gets them back, puts them in one pair of parentheses more in every
generation. -/
theorem System.passes_bound_value {system : System σ} {f x arg : Text}
    {function : Capability σ Value} (hf : system.scope.TakesText f function) (hne : x ≠ [])
    (hx : x.all isIdentifierChar = true) (hbare : arg.IsBare) :
    (boundValue arg = arg.trim ↔ (Number.ofText? arg.trim).isSome = true) ∧
      (Number.ofText? arg.trim = none → boundValue arg = Text.enclose 1 arg.trim) ∧
      (∀ (rule : Rule) (found before after : Word) (name : Text) (first last : List Text),
        rule.Spares f → (rule.actuals found).lookup x = some arg →
          rule.successor = before ++ ⟨name, some (first ++ (callOf f x).text :: last)⟩ :: after →
            system.scope.instantiate rule found =
              (do
                let bindings ← Effect.ofExcept .evaluation (rule.bindings found)
                let symbolsBefore ← before.mapM (system.scope.instantiateSymbol bindings)
                let literalsBefore ←
                  first.mapM fun arg => system.evaluate (Text.substitute bindings arg)
                let result ← Effect.ofHost .evaluation (function.run [.text (boundValue arg)])
                let literal ← Effect.ofExcept id (settle ⟨[([], result.display)], []⟩)
                let literalsAfter ←
                  last.mapM fun arg => system.evaluate (Text.substitute bindings arg)
                let symbolsAfter ← after.mapM (system.scope.instantiateSymbol bindings)
                pure (symbolsBefore ++
                  ⟨name, some (literalsBefore ++ literal :: literalsAfter)⟩ :: symbolsAfter))) ∧
      ∀ name, (Rule.through name f x).Spares f →
        (∀ text, function.run [.text text] = pure (.text text)) → system.limit ≠ some 0 →
          (∀ name ∈ system.scope.functions, '(' ∉ name) → Number.ofText? arg.trim = none →
            (compute arg.trim).toOption = none → ∀ generation generations,
              system.growFrom [Rule.through name f x] generation (generations + 1)
                  [⟨name, some [arg]⟩] =
                pure [⟨name, some [Text.enclose (generations + 1) arg.trim]⟩] := by
  refine ⟨boundValue_eq_trim_iff arg, boundValue_of_not_number, ?_, ?_⟩
  · intro rule found before after name first last hspares hactual hsuccessor
    exact hf.instantiate_eq hne hx hbare.isParameter_boundValue (hbare.findCalls_boundValue _)
      hspares hactual hsuccessor
  · intro name hspares hidentity hlimit hnames hnumber hvalue generation generations
    exact growFrom_through hf hne hx hspares hidentity hlimit hnames hbare hnumber hvalue
      generation generations

def echo : Capability Unit Value := ⟨[.text], fun args => pure (.text (args.flatMap Value.display))⟩

theorem run_echo (text : Text) : echo.run [.text text] = pure (.text text) := by
  simp [echo, Value.display]

def echoes : System Unit where
  alphabet := ⟨[['A']], ["echo".toList], []⟩
  capabilities := ⟨[], [("echo".toList, echo)]⟩
  interpreter := { reset := id }

theorem takesText_echo : echoes.scope.TakesText "echo".toList echo where
  found := Call.firstHead?_of_mem (by decide) (by decide) (by decide) (by decide)
  registered := rfl
  kinds := rfl

theorem spares_echo : (Rule.through ['A'] "echo".toList ['x']).Spares "echo".toList :=
  Rule.spares_of_forall_ne (by decide) (by decide)

theorem passes_bound_value_red :
    echoes.scope.TakesText "echo".toList echo ∧ Text.IsBare " red".toList ∧
      boundValue " red".toList = "(red)".toList ∧
        echoes.growFrom [Rule.through ['A'] "echo".toList ['x']] 1 3
            [⟨['A'], some [" red".toList]⟩] =
          pure [⟨['A'], some ["(((red)))".toList]⟩] := by
  have hbare : Text.IsBare " red".toList := ⟨by decide, by decide, by decide, by decide⟩
  have hnumber : Number.ofText? (Text.trim " red".toList) = none := by with_unfolding_all rfl
  have hvalue : (compute (Text.trim " red".toList)).toOption = none := by with_unfolding_all rfl
  obtain ⟨-, hbound, -, hgrown⟩ := System.passes_bound_value takesText_echo
    (List.cons_ne_nil 'x' []) (by decide) hbare
  exact ⟨takesText_echo, hbare, hbound hnumber,
    hgrown ['A'] spares_echo run_echo (by decide) (by decide) hnumber hvalue 1 2⟩

/-- The parentheses reach a function that takes a text. -/
theorem not_passes_trimmed :
    ¬∀ (system : System Unit) (f x arg : Text) (function : Capability Unit Value),
      system.scope.TakesText f function → arg.IsBare → x ≠ [] → x.all isIdentifierChar = true →
        (Rule.through ['A'] f x).Spares f →
          system.scope.instantiate (Rule.through ['A'] f x) [⟨['A'], some [arg]⟩] =
            (do
              let result ← Effect.ofHost .evaluation (function.run [.text arg.trim])
              let literal ← Effect.ofExcept id (settle ⟨[([], result.display)], []⟩)
              pure [⟨['A'], some [literal]⟩]) := by
  intro h
  have hred := h echoes "echo".toList ['x'] "red".toList echo takesText_echo
    ⟨by decide, by decide, by decide, by decide⟩ (List.cons_ne_nil 'x' []) (by decide) spares_echo
  have hrun : (echoes.scope.instantiate (Rule.through ['A'] "echo".toList ['x'])
      [⟨['A'], some ["red".toList]⟩]).run () = .ok [⟨['A'], some ["(red)".toList]⟩] () := by
    with_unfolding_all rfl
  rw [hred] at hrun
  have hwritten : EStateM.run (do
      let result ← Effect.ofHost .evaluation (echo.run [.text (Text.trim "red".toList)])
      let literal ← Effect.ofExcept id (settle ⟨[([], result.display)], []⟩)
      pure [⟨['A'], some [literal]⟩] : Effect Unit Word) () =
        .ok [⟨['A'], some ["red".toList]⟩] () := by
    with_unfolding_all rfl
  exact absurd (EStateM.Result.ok.inj (hwritten.symm.trans hrun)).1 (by decide)

end Lindenmayer
