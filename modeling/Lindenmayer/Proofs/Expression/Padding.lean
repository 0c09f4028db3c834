import Lindenmayer.Proofs.Expression.Neighbours
import Lindenmayer.Proofs.Formula.Padding

/-!
# Blanks around an expression

Blanks around an expression change neither its calls nor what runs on the host, as long as no call
begins in them. Its literal stays the same if the blanks are layout, or if nothing but blanks stands
around a single call. Other blanks are left in the text that is computed, and it is refused.
-/

namespace Lindenmayer

variable {σ : Type}

/-! ## Templates between blanks -/

namespace Template

variable {α β : Type}

/-- Nothing but blanks stands around a single hole. -/
def isAlone : Template α → Bool
  | ⟨[(before, _)], rest⟩ => before.isBlank && rest.isBlank
  | _ => false

theorem pad_plain (before after text : Text) :
    (plain text : Template α).pad before after = plain (before ++ (text ++ after)) := by
  induction before with
  | nil => rfl
  | cons c before ih =>
      rw [pad_cons, ih]
      rfl

theorem pad_holes (before after first : Text) (value : α) (holes : List (Text × α)) (rest : Text) :
    (⟨(first, value) :: holes, rest⟩ : Template α).pad before after =
      ⟨(before ++ first, value) :: holes, rest ++ after⟩ := by
  induction before with
  | nil => rfl
  | cons c before ih =>
      rw [pad_cons, ih]
      rfl

theorem fill_pad (before after : Text) (template : Template Text) :
    (template.pad before after).fill = before ++ (template.fill ++ after) := by
  induction before with
  | nil => exact (List.append_assoc _ _ _).symm
  | cons c before ih =>
      rw [pad_cons, fill_pushChar, ih]
      rfl

theorem isAlone_pad {before after : Text} (hbefore : before.isBlank = true)
    (hafter : after.isBlank = true) (template : Template α) :
    (template.pad before after).isAlone = template.isAlone := by
  obtain ⟨holes, rest⟩ := template
  match holes with
  | [] =>
      have hpad : (⟨[], rest⟩ : Template α).pad before after = _ := pad_plain before after rest
      rw [hpad]
      rfl
  | [(first, value)] =>
      rw [pad_holes, isAlone, isAlone, Text.isBlank_append, Text.isBlank_append, hbefore, hafter,
        Bool.true_and, Bool.and_true]
  | _ :: _ :: _ =>
      rw [pad_holes]
      rfl

end Template

/-! ## Settling between blanks -/

theorem settle_of_not_isAlone {results : Template Text} (halone : results.isAlone = false) :
    settle results = (compute results.fill).map Number.text := by
  obtain heq | ⟨before, result, rest, rfl, hbefore, hrest, -⟩ := settle_eq_or results
  · exact heq
  · rw [Template.isAlone, hbefore, hrest] at halone
    cases halone

theorem Except.toOption_map {ε α β : Type} (f : α → β) (outcome : Except ε α) :
    (outcome.map f).toOption = outcome.toOption.map f := by
  cases outcome <;> rfl

theorem toOption_settle_pad {before after : Text} (hbefore : before.isBlank = true)
    (hafter : after.isBlank = true) (results : Template Text) :
    (settle (results.pad before after)).toOption =
      if (before ++ after).all isLayoutChar || results.isAlone then (settle results).toOption
      else none := by
  cases halone : results.isAlone with
  | true =>
      obtain ⟨holes, rest⟩ := results
      match holes, halone with
      | [(first, result)], halone =>
          rw [Template.isAlone, Bool.and_eq_true] at halone
          have hfirst : (before ++ first).isBlank = true := by
            rw [Text.isBlank_append, hbefore, halone.1]
            rfl
          have hrest : (rest ++ after).isBlank = true := by
            rw [Text.isBlank_append, hafter, halone.2]
            rfl
          rw [Bool.or_true, if_pos rfl, Template.pad_holes, settle_eq_alone hfirst hrest,
            settle_eq_alone halone.1 halone.2]
  | false =>
      have hpad := (Template.isAlone_pad hbefore hafter results).trans halone
      rw [settle_of_not_isAlone halone, settle_of_not_isAlone hpad, Template.fill_pad,
        Except.toOption_map, Except.toOption_map, toOption_compute_pad hbefore hafter,
        Bool.or_false]
      exact apply_ite (Option.map Number.text) _ _ _

/-! ## Running the calls -/

namespace Scope

variable (scope : Scope σ)

def results (template : Template Call) : Effect σ (Template Text) := do
  let holes ← template.holes.mapM fun hole => do
    let result ← scope.invoke hole.2
    pure (hole.1, result.display)
  pure ⟨holes, template.rest⟩

theorem resolve_eq_results {text : Text} {template : Template Call}
    (hcalls : findCalls scope.functions text = .ok template) :
    scope.resolve text = scope.results template := by
  rw [resolve_eq, hcalls]
  rfl

theorem results_pushChar (c : Char) (template : Template Call) :
    scope.results (template.pushChar c) = Template.pushChar c <$> scope.results template := by
  rcases template with ⟨_ | ⟨⟨before, call⟩, holes⟩, rest⟩
  · rfl
  · simp only [results, Template.pushChar, List.mapM_cons, bind_assoc, pure_bind, map_bind,
      map_pure]

theorem results_pad (before after : Text) (template : Template Call) :
    scope.results (template.pad before after) =
      Template.pad before after <$> scope.results template := by
  induction before with
  | nil => simp only [results, Template.pad, List.foldr_nil, map_bind, map_pure]
  | cons c before ih =>
      rw [Template.pad_cons, results_pushChar, ih, ← comp_map]
      rfl

/-- What stands around the calls stands around their results. -/
theorem isAlone_of_results {template : Template Call} {results : Template Text} {before after : σ}
    (h : scope.results template before = .ok results after) :
    results.isAlone = template.isAlone := by
  obtain ⟨holes, _, hholes, hpure⟩ := run_bind_eq_ok_iff.mp h
  cases hpure
  have hreturns : Returns _ holes := ⟨before, _, hholes⟩
  obtain ⟨calls, rest⟩ := template
  cases hreturns.forall₂_of_mapM with
  | nil => rfl
  | cons hfirst hothers =>
      cases hothers with
      | nil =>
          obtain ⟨value, -, hvalue⟩ := hfirst.exists_of_bind
          cases hvalue.eq_of_pure
          rfl
      | cons _ _ => rfl

/-- The text is one call with nothing but blanks around it. -/
def isSingleCall (text : Text) : Bool :=
  (findCalls scope.functions text).toOption.any Template.isAlone

end Scope

theorem toOption_findCalls_pad {functions : List Text} {before after text : Text}
    (hbefore : before.isBlank = true) (hafter : after.isBlank = true)
    (hnone : Call.NoneIn functions before text) :
    (findCalls functions (before ++ (text ++ after))).toOption =
      (findCalls functions text).toOption.map (.pad before after) := by
  unfold findCalls
  rw [findCallsFrom?_pad hbefore hafter hnone]
  cases findCallsFrom? functions true text <;> rfl

/-- Whatever blanks stand around an expression, the same calls are run to the same effect. The
literal is the same if the blanks are layout or the expression is a single call; it is lost if they
are not and it is not. -/
theorem Scope.evaluate_pad (scope : Scope σ) {before after text : Text}
    (hbefore : before.isBlank = true) (hafter : after.isBlank = true)
    (hnone : Call.NoneIn scope.functions before text) (state : σ) :
    hostLeft ((scope.evaluate (before ++ text ++ after)).run state) =
        hostLeft ((scope.evaluate text).run state) ∧
      (outcome ((scope.evaluate (before ++ text ++ after)).run state)).toOption =
        if (before ++ after).all isLayoutChar || scope.isSingleCall text then
          (outcome ((scope.evaluate text).run state)).toOption
        else
          none := by
  have hpad := toOption_findCalls_pad hbefore hafter hnone
  rw [List.append_assoc, isSingleCall]
  simp only [EStateM.run, evaluate]
  cases hcalls : findCalls scope.functions text with
  | error error =>
      rw [hcalls] at hpad
      cases hlong : findCalls scope.functions (before ++ (text ++ after)) with
      | ok template =>
          rw [hlong] at hpad
          cases hpad
      | error other =>
          rw [resolve_eq, resolve_eq, hcalls, hlong]
          exact ⟨rfl, (ite_self _).symm⟩
  | ok template =>
      rw [hcalls] at hpad
      have hlong := Except.toOption_eq_some_iff.mp hpad
      rw [scope.resolve_eq_results hcalls, scope.resolve_eq_results hlong, results_pad,
        bind_map_left]
      cases hrun : scope.results template state with
      | error error between =>
          rw [run_bind_of_error hrun, run_bind_of_error hrun]
          exact ⟨rfl, (ite_self _).symm⟩
      | ok results between =>
          have halone := scope.isAlone_of_results hrun
          have hsettle := toOption_settle_pad hbefore hafter results
          rw [halone] at hsettle
          rw [run_bind_of_ok hrun, run_bind_of_ok hrun, hostLeft_ofExcept, hostLeft_ofExcept,
            toOption_outcome_ofExcept, toOption_outcome_ofExcept]
          exact ⟨rfl, hsettle⟩

/-- A call is computed with layout around it as it is without. -/
theorem evaluate_pad_debts :
    Text.isBlank " \n".toList = true ∧ Text.isBlank "\t".toList = true ∧
      Call.NoneIn debts.functions " \n".toList "2*f(1)".toList ∧
        (outcome ((debts.evaluate " \n2*f(1)\t".toList).run ())).toOption =
          some "-6".toList := by
  have hbefore : Text.isBlank " \n".toList = true := by decide
  have hafter : Text.isBlank "\t".toList = true := by decide
  have hnone : Call.NoneIn debts.functions " \n".toList "2*f(1)".toList :=
    Call.NoneIn.of_blanks (by decide) hbefore _
  obtain ⟨-, hliteral⟩ := debts.evaluate_pad hbefore hafter hnone ()
  rw [if_pos (by decide)] at hliteral
  refine ⟨hbefore, hafter, hnone, hliteral.trans ?_⟩
  with_unfolding_all rfl

/-- A no-break space is a blank but no layout. -/
theorem not_evaluate_pad :
    ¬∀ (scope : Scope Unit) (before after text : Text), before.isBlank = true →
      after.isBlank = true →
        (outcome ((scope.evaluate (before ++ text ++ after)).run ())).toOption =
          (outcome ((scope.evaluate text).run ())).toOption := by
  intro h
  have hspace := h ⟨[], .empty⟩ ['\u00a0'] [] ['1'] (by decide) (by decide)
  have hshort : (outcome (((⟨[], .empty⟩ : Scope Unit).evaluate ['1']).run ())).toOption =
      some ['1'] := by
    with_unfolding_all rfl
  have hlong : (outcome (((⟨[], .empty⟩ : Scope Unit).evaluate ['\u00a0', '1']).run ())).toOption =
      none := by
    with_unfolding_all rfl
  rw [hshort] at hspace
  cases hlong.symm.trans hspace

end Lindenmayer
