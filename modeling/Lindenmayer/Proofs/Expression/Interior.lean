import Lindenmayer.Proofs.Expression.Attempt
import Lindenmayer.Proofs.Expression.Recording
import Lindenmayer.Proofs.Text.Interior

/-!
# Unbalanced calls

A call that is never closed is found by the scan of the whole expression, before any function is
run. Where that scan succeeds, the groups of the calls are balanced, and so is everything in them:
the scans that follow meet no parenthesis that is never closed or that closes nothing, however deep
the calls are nested.
-/

namespace Lindenmayer

/-- Whether a parenthesis is never closed or closes nothing. -/
def ParseError.isUnbalanced : ParseError → Bool
  | .unbalancedParentheses _ => true
  | _ => false

/-- A parameter of a balanced group is balanced as it is read, whatever its kind. -/
theorem ParamKind.closes_part (kind : ParamKind) {param : Text} (hcloses : Text.Closes 0 param) :
    Text.Closes 0 (kind.part param) := by
  cases kind with
  | number => exact hcloses
  | text => exact hcloses.trim

variable {σ : Type}

namespace Scope

/-- Evaluation that gives up where a scan finds unbalanced parentheses, in the text or in the
arguments of its calls, for so many levels of nesting. Below them it goes on as usual. -/
def watchedLiteral (scope : Scope σ) : (levels : Nat) → ParamKind → Text → Attempt σ Text
  | 0, kind, text => OptionT.lift (scope.literal kind text)
  | levels + 1, kind, text =>
      scope.attemptLiteral ParseError.isUnbalanced (scope.watchedLiteral levels) kind text

def watchedEvaluate (scope : Scope σ) (levels : Nat) (text : Text) : Attempt σ Text :=
  scope.watchedLiteral levels .number text

variable {scope : Scope σ}

/-- Where the scan of a text succeeds, evaluation does not give up at any level: the arguments of
its calls are balanced, so their scans succeed too. -/
theorem watchedLiteral_eq {levels : Nat} {kind : ParamKind} {text : Text}
    {template : Template Call} (h : findCalls scope.functions (kind.part text) = .ok template) :
    scope.watchedLiteral levels kind text = OptionT.lift (scope.literal kind text) := by
  induction levels generalizing kind text template with
  | zero => rfl
  | succ levels ih =>
      refine attemptLiteral_eq (attemptResolve_eq (fun error herror => ?_) fun call hcall => ?_)
      · rw [h] at herror
        cases herror
      obtain ⟨_, _, -, hstands⟩ := exists_stands_of_mem_outermostCalls hcall
      refine attemptInvoke_eq (fun error herror => ?_)
        fun params hparams param hparam argument => ?_
      · cases error with
        | unbalancedParentheses source =>
            exact absurd herror (hstands.inner.splitParameters_ne_unbalanced source)
        | _ => rfl
      · have hcloses := (Text.isParameter_of_mem_splitParameters hparams hparam).balanced
        obtain ⟨found, hfound⟩ := (argument.closes_part hcloses).exists_findCalls scope.functions
        exact ih hfound

theorem evaluate_of_findCalls_error {text : Text} {error : ParseError}
    (h : findCalls scope.functions text = .error error) :
    scope.evaluate text = throw (.parse error) := by
  rw [evaluate, resolve_eq]
  simp only [h]
  rfl

end Scope

/-- Where a group is found to be closed, its parameters can only be refused for a blank one among
them, and the scan of each parameter for calls succeeds. So unbalanced calls are found by the scan
of the whole expression: then nothing is run, and the host is left as it is. Otherwise no scan in
the arguments of its calls comes to unbalanced parentheses, at any level of nesting. -/
theorem Scope.unbalanced_outermost (scope : Scope σ) :
    (∀ (before inside : Text) (close : Nat),
      Text.matchingParen (before ++ '(' :: inside) before.utf8Length = .ok close →
        ∃ inner rest : Text, inside = inner ++ ')' :: rest ∧
          close = before.utf8Length + 1 + inner.utf8Length ∧
          (∀ source, Text.splitParameters inner ≠ .error (.unbalancedParentheses source)) ∧
          ∀ params, Text.splitParameters inner = .ok params → ∀ param ∈ params, ∀ functions,
            (∃ template, findCalls functions param = .ok template) ∧
              ∃ template, findCalls functions param.trim = .ok template) ∧
      (∀ text error, findCalls scope.functions text = .error error →
        error = .unbalancedParentheses text ∧
          (∀ host, scope.evaluate text host = .error (.parse error) host) ∧
            ∀ host log, scope.recording.evaluate text (host, log) =
              .error (.parse error) (host, log)) ∧
        ∀ text template, findCalls scope.functions text = .ok template → ∀ levels,
          (scope.watchedEvaluate levels text).run = some <$> scope.evaluate text := by
  refine ⟨fun before inside close hclose => ?_, fun text error herror => ?_, ?_⟩
  · obtain ⟨inner, rest, hinside, hplace, hcloses⟩ := Text.exists_of_matchingParen hclose
    refine ⟨inner, rest, hinside, hplace, hcloses.splitParameters_ne_unbalanced, ?_⟩
    intro params hparams param hparam functions
    have hbalanced := (Text.isParameter_of_mem_splitParameters hparams hparam).balanced
    exact ⟨hbalanced.exists_findCalls functions, hbalanced.trim.exists_findCalls functions⟩
  · refine ⟨(Call.findCalls_eq_error_iff.mp herror).1, fun host => ?_, fun host log => ?_⟩
    · rw [evaluate_of_findCalls_error herror]
      rfl
    · rw [← functions_recording] at herror
      rw [evaluate_of_findCalls_error herror]
      rfl
  · intro text template htemplate levels
    rw [watchedEvaluate, watchedLiteral_eq htemplate, Attempt.run_lift]
    rfl

/-- The first call is closed and could be run, but the second is not closed. -/
example : (Scope.echoing ["echo".toList]).recording.evaluate "echo(1)+echo((2)".toList ((), []) =
    .error (.parse (.unbalancedParentheses "echo(1)+echo((2)".toList)) ((), []) := by
  with_unfolding_all rfl

end Lindenmayer
