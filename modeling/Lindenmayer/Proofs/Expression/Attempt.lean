import Lindenmayer.Proofs.Expression.CallTree

/-!
# Evaluation that can give up

An attempt is a computation that can give up, which is not one of its errors. An attempt at an
expression does what evaluation does, with another computation in the place of evaluation for the
arguments of its calls, and gives up at faults of the scans that it is told to stop at. Where it
stops at none and the arguments are evaluated, it is evaluation.
-/

namespace Lindenmayer

abbrev Attempt (σ : Type) := OptionT (Effect σ)

variable {σ α β : Type}

/-- A traversal whose parts do not give up does not give up. -/
theorem Attempt.mapM_eq_lift {attempt : α → Attempt σ β} {run : α → Effect σ β} {xs : List α}
    (h : ∀ x ∈ xs, attempt x = OptionT.lift (run x)) :
    xs.mapM attempt = OptionT.lift (xs.mapM run) := by
  induction xs with
  | nil =>
      rw [List.mapM_nil, List.mapM_nil, OptionT.lift_pure]
  | cons x xs ih =>
      rw [List.mapM_cons, List.mapM_cons, h x List.mem_cons_self,
        ih fun other hmem => h other (List.mem_cons_of_mem x hmem)]
      simp only [OptionT.lift_bind, OptionT.lift_pure]

/-- What does not give up has a result wherever the computation has one. -/
theorem Attempt.run_lift (run : Effect σ α) :
    (OptionT.lift run : Attempt σ α).run = some <$> run := by
  rw [OptionT.run_lift, map_eq_pure_bind]

/-- Gives up at the faults to stop at, and fails at the others. -/
def Attempt.fault (stops : ParseError → Bool) (error : ParseError) : Attempt σ α :=
  if stops error then failure else OptionT.lift (throw (.parse error))

theorem Attempt.fault_eq_lift {stops : ParseError → Bool} {error : ParseError}
    (hstops : stops error = false) :
    (.fault stops error : Attempt σ α) = OptionT.lift (throw (.parse error)) :=
  if_neg (by simp [hstops])

namespace Scope

variable (scope : Scope σ) (stops : ParseError → Bool)
  (literal : ParamKind → Text → Attempt σ Text)

def attemptInvoke (call : Call) : Attempt σ Value :=
  match scope.capabilities.function? call.name with
  | none => OptionT.lift (throw (.evaluation (.unknownFunction call.name call.text)))
  | some function =>
      match Text.splitParameters call.inner with
      | .error error => .fault stops error
      | .ok params =>
          if function.accepts params.length then do
            let literals ← (params.zip function.kinds).mapM fun arg => literal arg.2 arg.1
            OptionT.lift (function.call literals)
          else
            OptionT.lift (throw (.evaluation
              (.argumentCountMismatch call.name function.kinds.length params.length)))

def attemptResolve (text : Text) : Attempt σ (Template Text) :=
  match findCalls scope.functions text with
  | .error error => .fault stops error
  | .ok template => do
      let holes ← template.holes.mapM fun hole => do
        let result ← scope.attemptInvoke stops literal hole.2
        pure (hole.1, result.display)
      pure ⟨holes, template.rest⟩

def attemptLiteral (kind : ParamKind) (text : Text) : Attempt σ Text :=
  match kind with
  | .number => do
      let results ← scope.attemptResolve stops literal text
      OptionT.lift (Effect.ofExcept id (settle results))
  | .text => do
      let results ← scope.attemptResolve stops literal text.trim
      pure results.fill

variable {scope stops literal}

/-- A call whose parameters are found as before and evaluated as before is run as before. -/
theorem attemptInvoke_eq {call : Call}
    (hsplit : ∀ error, Text.splitParameters call.inner = .error error → stops error = false)
    (hliteral : ∀ params, Text.splitParameters call.inner = .ok params →
      ∀ param ∈ params, ∀ kind, literal kind param = OptionT.lift (scope.literal kind param)) :
    scope.attemptInvoke stops literal call = OptionT.lift (scope.invoke call) := by
  rw [invoke_eq, attemptInvoke]
  cases scope.capabilities.function? call.name with
  | none => rfl
  | some function =>
      cases hparams : Text.splitParameters call.inner with
      | error error => exact Attempt.fault_eq_lift (hsplit error hparams)
      | ok params =>
          simp only
          by_cases hcount : function.accepts params.length = true
          · rw [if_pos hcount, if_pos hcount]
            have hliterals : ((params.zip function.kinds).mapM fun arg => literal arg.2 arg.1) =
                OptionT.lift ((params.zip function.kinds).mapM fun arg =>
                  scope.literal arg.2 arg.1) :=
              Attempt.mapM_eq_lift fun arg hmem =>
                hliteral params hparams arg.1 (List.of_mem_zip hmem).1 arg.2
            rw [hliterals, OptionT.lift_bind]
          · rw [if_neg hcount, if_neg hcount]

theorem attemptResolve_eq {text : Text}
    (hscan : ∀ error, findCalls scope.functions text = .error error → stops error = false)
    (hinvoke : ∀ call ∈ outermostCalls scope.functions text,
      scope.attemptInvoke stops literal call = OptionT.lift (scope.invoke call)) :
    scope.attemptResolve stops literal text = OptionT.lift (scope.resolve text) := by
  rw [resolve_eq, attemptResolve]
  unfold outermostCalls at hinvoke
  cases hfind : findCalls scope.functions text with
  | error error => exact Attempt.fault_eq_lift (hscan error hfind)
  | ok template =>
      simp only [hfind] at hinvoke ⊢
      have hholes : (template.holes.mapM fun hole => do
            let result ← scope.attemptInvoke stops literal hole.2
            pure (hole.1, result.display)) =
          OptionT.lift (template.holes.mapM fun hole => do
            let result ← scope.invoke hole.2
            pure (hole.1, result.display)) := by
        refine Attempt.mapM_eq_lift fun hole hmem => ?_
        rw [hinvoke hole.2 (List.mem_map_of_mem hmem), OptionT.lift_bind]
        simp only [OptionT.lift_pure]
      rw [hholes, OptionT.lift_bind]
      simp only [OptionT.lift_pure]

theorem attemptLiteral_eq {kind : ParamKind} {text : Text}
    (hresolve : scope.attemptResolve stops literal (kind.part text) =
      OptionT.lift (scope.resolve (kind.part text))) :
    scope.attemptLiteral stops literal kind text = OptionT.lift (scope.literal kind text) := by
  cases kind with
  | number =>
      have hnumber : scope.attemptResolve stops literal text = OptionT.lift (scope.resolve text) :=
        hresolve
      rw [attemptLiteral, hnumber, ← OptionT.lift_bind]
      rfl
  | text =>
      have htext : scope.attemptResolve stops literal text.trim =
          OptionT.lift (scope.resolve text.trim) :=
        hresolve
      simp only [attemptLiteral, htext, ← OptionT.lift_pure]
      rw [← OptionT.lift_bind]
      rfl

end Scope

end Lindenmayer
