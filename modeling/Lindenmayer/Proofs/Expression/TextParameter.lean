import Lindenmayer.Proofs.Expression.Padding
import Lindenmayer.Proofs.Formula.Enclosure

/-!
# Text parameters

A parameter of a symbol reaches the functions of a successor through a formal name. It is bound as
an operand, so that a formula stays together: whatever is not a number comes in parentheses. These
are no part of a formula, but they are a part of a text, and a function that takes a text is given
them with it.
-/

namespace Lindenmayer

variable {σ : Type}

/-! ## Calls of functions that take a text -/

/-- A call is the only one of its own text. -/
theorem findCalls_text {functions : List Text} {call : Call}
    (hhead : Call.firstHead? functions call.text = some (call.name, call.gap, call.inner ++ [')']))
    (hinner : Text.Closes 0 call.inner) :
    findCalls functions call.text = .ok ⟨[([], call)], []⟩ := by
  have hcloses : Text.Closes (0 : Nat) call.inner := hinner
  have hgroup : Text.splitGroup? 1 (call.inner ++ [')']) = some (call.inner, []) :=
    Text.splitGroup?_append hcloses []
  have hrest : findCallsFrom? functions true [] = some (.plain []) := by rw [findCallsFrom?]
  cases htext : call.text with
  | nil => simp [Call.text] at htext
  | cons c text =>
      rw [htext] at hhead
      rw [findCalls, findCallsFrom?_of_some (by rw [if_pos rfl, hhead]), hgroup, Option.bind_some,
        hrest]
      rfl

/-- A function name without parentheses and without blanks at its end is found before a
parenthesis. -/
theorem Call.firstHead?_of_mem {functions : List Text} {f : Text} (hmem : f ∈ functions)
    (hne : f ≠ []) (hend : Text.Stops isBlankChar f.reverse)
    (hnames : ∀ name ∈ functions, '(' ∉ name) (inside : Text) :
    firstHead? functions (f ++ '(' :: inside) = some (f, [], inside) := by
  have hfound : (head? f (f ++ '(' :: inside)) = some ([], inside) :=
    head?_eq_some_iff.mpr ⟨hne, rfl, by simp⟩
  cases hhead : firstHead? functions (f ++ '(' :: inside) with
  | none =>
      rw [firstHead?, List.findSome?_eq_none_iff] at hhead
      have hnone := hhead f hmem
      rw [hfound] at hnone
      cases hnone
  | some head =>
      obtain ⟨name, hname, hsome⟩ := List.exists_of_findSome?_eq_some hhead
      obtain ⟨⟨gap, rest⟩, hrest, rfl⟩ := Option.map_eq_some_iff.mp hsome
      obtain ⟨-, hgap, htext⟩ := head?_eq_some_iff.mp hrest
      have hopen : '(' ∉ gap := fun hopen => by
        have hblank := List.all_eq_true.mp hgap _ hopen
        rw [not_isBlankChar_openParen] at hblank
        cases hblank
      have hbefore : '(' ∉ name ++ gap := by simp [hnames name hname, hopen]
      obtain ⟨hf, rfl⟩ := Text.eq_of_append_cons (hnames f hmem) hbefore htext
      cases hreverse : gap.reverse with
      | nil =>
          obtain rfl := List.reverse_eq_nil_iff.mp hreverse
          rw [List.append_nil] at hf
          rw [hf]
      | cons c blanks =>
          rw [hf, List.reverse_append, hreverse, List.cons_append, Text.stops_cons] at hend
          have hc : c ∈ gap := List.mem_reverse.mp (hreverse ▸ List.mem_cons_self)
          rw [List.all_eq_true.mp hgap c hc] at hend
          cases hend

/-- In the scope `f` is a name of a function with one parameter, which is a text. -/
structure Scope.TakesText (scope : Scope σ) (f : Text) (function : Capability σ Value) : Prop where
  found : ∀ inside, Call.firstHead? scope.functions (f ++ '(' :: inside) = some (f, [], inside)
  registered : scope.capabilities.function? f = some function
  kinds : function.kinds = [.text]

def callOf (f param : Text) : Call := ⟨f, [], param⟩

namespace Scope.TakesText

variable {scope : Scope σ} {f param : Text} {function : Capability σ Value}
  (hf : scope.TakesText f function) (hparam : Text.IsParameter param)
  (hcalls : findCalls scope.functions param.trim = .ok (.plain param.trim))
include hf hparam hcalls

theorem invoke_eq :
    scope.invoke (callOf f param) =
      Effect.ofHost .evaluation (function.run [.text param.trim]) := by
  have hparams : Text.splitParameters param = .ok [param] := by
    have hjoined := Text.splitParameters_join (List.cons_ne_nil param [])
      (List.forall_mem_singleton.mpr hparam)
    rwa [Text.join, List.intercalate_singleton] at hjoined
  have haccepts : function.accepts [param].length = true := by
    rw [Capability.accepts, hf.kinds]
    rfl
  have hliteral : scope.literal .text param = pure param.trim := by
    rw [literal, scope.resolve_eq_results hcalls]
    rfl
  have hcall : function.call [param.trim] =
      Effect.ofHost .evaluation (function.run [.text param.trim]) := by
    rw [Capability.call, Capability.coerceAll, hf.kinds]
    rfl
  rw [Scope.invoke_eq, callOf, hf.registered]
  simp only [hparams, haccepts, if_true, hf.kinds, List.zip_cons_cons, List.zip_nil_right,
    List.mapM_cons, List.mapM_nil, hliteral, pure_bind, hcall]

/-- A text without calls in it is handed to the function as it stands in the call. -/
theorem evaluate_callOf :
    scope.evaluate (callOf f param).text =
      (do
        let result ← Effect.ofHost .evaluation (function.run [.text param.trim])
        Effect.ofExcept id (settle ⟨[([], result.display)], []⟩)) := by
  have hhead : Call.firstHead? scope.functions (callOf f param).text =
      some ((callOf f param).name, (callOf f param).gap, (callOf f param).inner ++ [')']) := by
    have hfound := hf.found (param ++ [')'])
    rwa [Call.text, callOf, List.append_nil, List.append_assoc]
  rw [evaluate, scope.resolve_eq_results (findCalls_text hhead hparam.balanced), results]
  simp only [List.mapM_cons, List.mapM_nil, hf.invoke_eq hparam hcalls, bind_assoc, pure_bind]

end Scope.TakesText

/-! ## Bound values -/

/-- A number is bound as it is, and anything else in parentheses. -/
theorem boundValue_cases (arg : Text) :
    ((Number.ofText? arg.trim).isSome = true ∧ boundValue arg = arg.trim) ∨
      (Number.ofText? arg.trim = none ∧ boundValue arg = Text.enclose 1 arg.trim) := by
  simp only [boundValue]
  cases Number.ofText? arg.trim with
  | some n => exact .inl ⟨rfl, rfl⟩
  | none => exact .inr ⟨rfl, by rw [Text.enclose_succ, Text.enclose_zero, List.cons_append]⟩

theorem boundValue_of_not_number {arg : Text} (hnumber : Number.ofText? arg.trim = none) :
    boundValue arg = Text.enclose 1 arg.trim := by
  rcases boundValue_cases arg with ⟨hsome, -⟩ | ⟨-, hvalue⟩
  · rw [hnumber] at hsome
    cases hsome
  · exact hvalue

theorem boundValue_eq_trim_iff (arg : Text) :
    boundValue arg = arg.trim ↔ (Number.ofText? arg.trim).isSome = true := by
  rcases boundValue_cases arg with ⟨hsome, hvalue⟩ | ⟨hnone, hvalue⟩
  · exact iff_of_true hvalue hsome
  · refine iff_of_false (fun hsame => ?_) (by simp [hnone])
    have hlength := congrArg List.length (hvalue.symm.trans hsame)
    simp only [Text.enclose, List.length_append, List.length_replicate] at hlength
    omega

theorem Text.trim_enclose_succ (depth : Nat) (text : Text) :
    (enclose (depth + 1) text).trim = enclose (depth + 1) text := by
  rw [enclose_succ]
  refine trim_eq_self (stops_cons.mpr (by decide)) ?_
  rw [List.reverse_cons, List.reverse_append]
  exact stops_cons.mpr (by decide)

@[simp]
theorem trim_boundValue (arg : Text) : (boundValue arg).trim = boundValue arg := by
  rcases boundValue_cases arg with ⟨-, hvalue⟩ | ⟨-, hvalue⟩
  · rw [hvalue, Text.trim_trim]
  · rw [hvalue, Text.trim_enclose_succ]

theorem Text.IsBare.trim {text : Text} (hbare : IsBare text) : IsBare text.trim := by
  obtain ⟨before, after, hbefore, hafter, htext⟩ := exists_trim_pad text
  have hmem {c : Char} (hc : c ∈ text.trim) : c ∈ text := by
    rw [htext]
    exact List.mem_append_right before (List.mem_append_left after hc)
  refine ⟨?_, fun hc => hbare.noOpenParen (hmem hc), fun hc => hbare.noCloseParen (hmem hc),
    fun hc => hbare.noComma (hmem hc)⟩
  have hblank := hbare.notBlank
  rw [htext, isBlank_append, isBlank_append] at hblank
  cases htrim : text.trim.isBlank with
  | false => rfl
  | true =>
      have hwhole : before.isBlank = true ∧ after.isBlank = true := ⟨hbefore, hafter⟩
      rw [hwhole.1, hwhole.2, htrim] at hblank
      cases hblank

section

variable {arg : Text} (hbare : arg.IsBare)
include hbare

theorem Text.IsBare.isParameter_boundValue : Text.IsParameter (boundValue arg) := by
  have hcore := hbare.trim.isParameter
  rcases boundValue_cases arg with ⟨-, hvalue⟩ | ⟨-, hvalue⟩
  · rw [hvalue]
    exact hcore
  · rw [hvalue, Text.enclose_succ, Text.enclose_zero]
    exact hcore.balanced.isParameter_group

/-- Whatever the functions are called, none is called in a bound value of bare words. -/
theorem Text.IsBare.findCalls_boundValue (functions : List Text) :
    findCalls functions (boundValue arg) = .ok (.plain (boundValue arg)) := by
  have hopen := hbare.trim.noOpenParen
  have hnone : Call.NoneIn functions (boundValue arg) [] := by
    rcases boundValue_cases arg with ⟨-, hvalue⟩ | ⟨-, hvalue⟩
    · rw [hvalue]
      exact .of_not_mem hopen
    · rw [hvalue, Text.enclose_succ, Text.enclose_zero]
      have hrest : '(' ∉ arg.trim ++ [')'] := by simp [hopen]
      exact ⟨Call.firstHead?_openParen (.inl (by simp [hopen])), .of_not_mem hrest⟩
  rw [findCalls, findCallsFrom?_of_noneIn hnone]

end

/-! ## Passing a parameter on -/

def Symbol.actuals (formal actual : Symbol) : List (Text × Text) :=
  (formal.args.getD []).zipWith (fun name arg => (name.trim, arg)) (actual.args.getD [])

/-- The formal names of the rule, from left to right, each with the parameter found in its place. -/
def Rule.actuals (rule : Rule) (found : Word) : List (Text × Text) :=
  (List.zipWith Symbol.actuals rule.predecessor found).flatten

theorem Symbol.bind_eq_ok {formal actual : Symbol} {bindings : List (Text × Text)}
    (h : formal.bind actual = .ok bindings) :
    bindings = (formal.actuals actual).map fun pair => (pair.1, boundValue pair.2) := by
  obtain ⟨-, rfl⟩ := Except.ite_ok_eq_ok_iff.mp h
  rw [actuals, List.map_zipWith]

theorem zipWithM_loop_eq_ok {ε α β γ : Type} {f : α → β → Except ε γ} {g : α → β → γ}
    (hf : ∀ x y z, f x y = .ok z → z = g x y) {xs : List α} {ys : List β} {before : Array γ}
    {zs : List γ} (h : List.zipWithM.loop f xs ys before = .ok zs) :
    zs = before.toList ++ List.zipWith g xs ys := by
  induction xs generalizing ys before with
  | nil =>
      cases h
      simp
  | cons x xs ih =>
      cases ys with
      | nil =>
          cases h
          simp
      | cons y ys =>
          obtain ⟨z, hz, h⟩ := Except.bind_eq_ok_iff.mp h
          rw [ih h, hf x y z hz]
          simp

theorem Rule.bindings_eq_ok {rule : Rule} {found : Word} {bindings : List (Text × Text)}
    (h : rule.bindings found = .ok bindings) :
    bindings = (rule.actuals found).map fun pair => (pair.1, boundValue pair.2) := by
  obtain ⟨lists, hlists, rfl⟩ := Except.map_eq_ok_iff.mp h
  rw [zipWithM_loop_eq_ok (fun _ _ _ => Symbol.bind_eq_ok) hlists, actuals, List.map_flatten,
    List.map_zipWith]
  rfl

/-- A call of a function that is left alone, on a formal name. -/
theorem Text.substitute_callOf {bindings : List (Text × Text)} {f x : Text}
    (hf : Inert bindings f) (hne : x ≠ []) (hx : x.all isIdentifierChar = true) :
    substitute bindings (callOf f x).text = (callOf f (lookupRun bindings x)).text := by
  have htext (param : Text) : (callOf f param).text = f ++ '(' :: (param ++ [')']) := by
    rw [Call.text, callOf, List.append_nil, List.append_assoc]
    rfl
  rw [htext, htext, hf _ (stops_cons.mpr (by decide)), substitute_cons_of_not (by decide),
    substitute_run_append hne hx (stops_cons.mpr (by decide)), substitute_cons_of_not (by decide),
    substitute_nil]

/-- No parameter of the predecessor is ever put into the text. -/
def Rule.Spares (rule : Rule) (text : Text) : Prop :=
  ∀ found bindings, rule.bindings found = .ok bindings → Text.Inert bindings text

theorem Rule.exists_of_mem_actuals {rule : Rule} {found : Word} {pair : Text × Text}
    (hmem : pair ∈ rule.actuals found) :
    ∃ symbol ∈ rule.predecessor, ∃ formal ∈ symbol.args.getD [], formal.trim = pair.1 := by
  obtain ⟨pairs, hpairs, hpair⟩ := List.mem_flatten.mp hmem
  rw [← List.map_uncurry_zip_eq_zipWith] at hpairs
  obtain ⟨⟨symbol, actual⟩, hsymbols, rfl⟩ := List.mem_map.mp hpairs
  rw [Function.uncurry_apply_pair, Symbol.actuals, ← List.map_uncurry_zip_eq_zipWith] at hpair
  obtain ⟨⟨formal, arg⟩, hformal, rfl⟩ := List.mem_map.mp hpair
  exact ⟨symbol, (List.of_mem_zip hsymbols).1, formal, (List.of_mem_zip hformal).1, rfl⟩

/-- A name that is no formal name of a rule is spared. -/
theorem Rule.spares_of_forall_ne {rule : Rule} {name : Text}
    (hname : name.all isIdentifierChar = true)
    (hformal : ∀ symbol ∈ rule.predecessor, ∀ formal ∈ symbol.args.getD [], formal.trim ≠ name) :
    rule.Spares name := by
  intro found bindings hbindings
  refine Text.inert_run hname (Text.lookupRun_of_not (p := (· != name)) ?_ (bne_self_eq_false name))
  intro binding hmem
  rw [Rule.bindings_eq_ok hbindings] at hmem
  obtain ⟨pair, hpair, rfl⟩ := List.mem_map.mp hmem
  obtain ⟨symbol, hsymbol, formal, hmem, hsame⟩ := exists_of_mem_actuals hpair
  exact bne_iff_ne.mpr (hsame ▸ hformal symbol hsymbol formal hmem)

namespace Scope.TakesText

variable {scope : Scope σ} {f x arg : Text} {function : Capability σ Value}
  (hf : scope.TakesText f function) (hne : x ≠ []) (hx : x.all isIdentifierChar = true)
  (hparam : Text.IsParameter (boundValue arg))
  (hcalls : findCalls scope.functions (boundValue arg) = .ok (.plain (boundValue arg)))
  {rule : Rule} (hspares : rule.Spares f) {found : Word}
  (hactual : (rule.actuals found).lookup x = some arg)
include hf hne hx hparam hcalls hspares hactual

/-- A function of a successor is given a parameter as it is bound. -/
theorem evaluate_substitute {bindings : List (Text × Text)}
    (hbindings : rule.bindings found = .ok bindings) :
    scope.evaluate (Text.substitute bindings (callOf f x).text) =
      (do
        let result ← Effect.ofHost .evaluation (function.run [.text (boundValue arg)])
        Effect.ofExcept id (settle ⟨[([], result.display)], []⟩)) := by
  have hlookup : Text.lookupRun bindings x = boundValue arg := by
    rw [Text.lookupRun, Rule.bindings_eq_ok hbindings, lookup_map_values, hactual]
    rfl
  rw [← trim_boundValue] at hcalls
  rw [Text.substitute_callOf (hspares found bindings hbindings) hne hx, hlookup,
    hf.evaluate_callOf hparam hcalls, trim_boundValue]

/-- Where a rule is applied, the symbols of its successor and their parameters are evaluated from
left to right. A parameter that is passed on to the function becomes what the function makes of
it. -/
theorem instantiate_eq {before after : Word} {name : Text} {first last : List Text}
    (hsuccessor : rule.successor =
      before ++ ⟨name, some (first ++ (callOf f x).text :: last)⟩ :: after) :
    scope.instantiate rule found =
      (do
        let bindings ← Effect.ofExcept .evaluation (rule.bindings found)
        let symbolsBefore ← before.mapM (scope.instantiateSymbol bindings)
        let literalsBefore ← first.mapM fun arg => scope.evaluate (Text.substitute bindings arg)
        let result ← Effect.ofHost .evaluation (function.run [.text (boundValue arg)])
        let literal ← Effect.ofExcept id (settle ⟨[([], result.display)], []⟩)
        let literalsAfter ← last.mapM fun arg => scope.evaluate (Text.substitute bindings arg)
        let symbolsAfter ← after.mapM (scope.instantiateSymbol bindings)
        pure (symbolsBefore ++
          ⟨name, some (literalsBefore ++ literal :: literalsAfter)⟩ :: symbolsAfter)) := by
  have hargs : (rule.successor.all fun symbol => symbol.args.isNone) = false := by
    rw [hsuccessor, List.all_append, List.all_cons]
    simp
  rw [instantiate, if_neg (by simp [hargs])]
  cases hbindings : rule.bindings found with
  | error error => rfl
  | ok bindings =>
      have hpassed := hf.evaluate_substitute hne hx hparam hcalls hspares hactual hbindings
      have hbound : (Effect.ofExcept .evaluation (.ok bindings) : Effect σ _) = pure bindings := rfl
      rw [hsuccessor, hbound]
      simp only [List.mapM_append, List.mapM_cons, instantiateSymbol, hpassed, bind_assoc,
        pure_bind]

end Scope.TakesText

end Lindenmayer
