import Lindenmayer.Proofs.Expression.Attempt
import Lindenmayer.Proofs.Expression.Recording
import Lindenmayer.Proofs.Text.Depth

/-!
# The depth of evaluation

Evaluation is as deep as the text: the arguments of a call are read inside its group, so they are
less deep than the text that the call stands in. What functions return is never read for calls, so
it adds nothing. Evaluation with fuel, of which every text that is read takes one unit, needs one
unit more than the text is deep.
-/

namespace Lindenmayer

/-- The second text is read as an argument of an outermost call of the first, as it is written or
without the blanks around it. -/
def IsArgument (functions : List Text) (text part : Text) : Prop :=
  ∃ call ∈ outermostCalls functions text, ∃ params,
    Text.splitParameters call.inner = .ok params ∧
      ∃ param ∈ params, ∃ kind : ParamKind, part = kind.part param

theorem ParamKind.part_infix (kind : ParamKind) (param : Text) : kind.part param <:+: param := by
  cases kind with
  | number => exact List.infix_refl param
  | text => exact param.trim_infix

/-- An argument is less deep than the text. -/
theorem IsArgument.maxDepth_lt {functions : List Text} {text part : Text}
    (h : IsArgument functions text part) : part.maxDepth < text.maxDepth := by
  obtain ⟨call, hcall, params, hparams, param, hparam, kind, rfl⟩ := h
  have hpart : kind.part param <:+: call.inner :=
    (kind.part_infix param).trans (Text.infix_of_mem_splitParameters hparams hparam)
  exact Nat.lt_of_le_of_lt (Text.maxDepth_le_of_infix hpart)
    (maxDepth_inner_lt_of_mem_outermostCalls hcall)

/-- Texts of which each is an argument in the one before are no more than the first is deep. -/
theorem length_le_maxDepth_of_isChain {functions : List Text} {text : Text} {parts : List Text}
    (h : (text :: parts).IsChain (IsArgument functions)) : parts.length ≤ text.maxDepth := by
  induction parts generalizing text with
  | nil => exact Nat.zero_le _
  | cons part parts ih =>
      obtain ⟨hargument, hrest⟩ := List.isChain_cons_cons.mp h
      exact Nat.succ_le_of_lt (Nat.lt_of_le_of_lt (ih hrest) hargument.maxDepth_lt)

variable {σ : Type}

namespace Scope

/-- The literal that a text of the given kind becomes, with fuel: reading a text takes one unit, and
what is left is there for each argument of its calls. Without fuel evaluation gives up. -/
def literalWithin (scope : Scope σ) : (fuel : Nat) → ParamKind → Text → Attempt σ Text
  | 0, _, _ => failure
  | fuel + 1, kind, text =>
      scope.attemptLiteral (fun _ => false) (scope.literalWithin fuel) kind text

def evaluateWithin (scope : Scope σ) (fuel : Nat) (text : Text) : Attempt σ Text :=
  scope.literalWithin fuel .number text

variable {scope : Scope σ}

/-- The arguments need less fuel than the text, by one unit at least. -/
theorem literalWithin_eq {fuel : Nat} {kind : ParamKind} {text : Text}
    (h : (kind.part text).maxDepth < fuel) :
    scope.literalWithin fuel kind text = OptionT.lift (scope.literal kind text) := by
  induction fuel generalizing kind text with
  | zero => cases h
  | succ fuel ih =>
      refine attemptLiteral_eq (attemptResolve_eq (fun _ _ => rfl) fun call hcall => ?_)
      refine attemptInvoke_eq (fun _ _ => rfl) fun params hparams param hparam argument => ?_
      have hargument : IsArgument scope.functions (kind.part text) (argument.part param) :=
        ⟨call, hcall, params, hparams, param, hparam, argument, rfl⟩
      exact ih (Nat.lt_of_lt_of_le hargument.maxDepth_lt (Nat.le_of_lt_succ h))

/-- With one unit of fuel more than the text is deep, evaluation never gives up and is evaluation
without fuel, whatever the functions return. The texts that are read one inside the other are no
more than the units. -/
theorem evaluateWithin_maxDepth (scope : Scope σ) (text : Text) :
    (scope.evaluateWithin (text.maxDepth + 1) text).run = some <$> scope.evaluate text ∧
      (∀ kind, (scope.literalWithin (text.maxDepth + 1) kind text).run =
        some <$> scope.literal kind text) ∧
        ∀ parts, (text :: parts).IsChain (IsArgument scope.functions) →
          (text :: parts).length ≤ text.maxDepth + 1 := by
  have hliteral (kind : ParamKind) :
      (scope.literalWithin (text.maxDepth + 1) kind text).run =
        some <$> scope.literal kind text := by
    have hdepth := Text.maxDepth_le_of_infix (kind.part_infix text)
    rw [literalWithin_eq (Nat.lt_succ_of_le hdepth), Attempt.run_lift]
  exact ⟨hliteral .number, hliteral, fun parts hchain =>
    Nat.succ_le_succ (length_le_maxDepth_of_isChain hchain)⟩

/-- Less fuel is not enough for a call in an argument of another. -/
example : ((echoing ["echo".toList]).evaluateWithin 2 "echo( echo(1))".toList).run () =
    .ok none () := by
  with_unfolding_all rfl

end Scope

end Lindenmayer
