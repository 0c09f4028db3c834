import Lindenmayer.Formula.Evaluation
import Lindenmayer.Host
import Lindenmayer.Text.Call

/-!
# Expressions with calls

A parameter is an expression in which functions of the host may be called. The outermost calls are
run from left to right, each after its own arguments, and their results are put in their places;
what remains is computed as a formula. The result of a call is never searched for calls again, so
evaluation follows the nesting of the expression: a call is shorter than the expression that it
stands in.
-/

namespace Lindenmayer

/-- What the calls of an expression mean: the function names to look for, and the operations of the
host that back them. -/
structure Scope (σ : Type) where
  functions : List Text
  capabilities : Capabilities σ

/-! ## From results to a literal -/

/-- The literal that an expression evaluates to, given the results of its calls. An expression that
is nothing but one call is the result of the call, computed once more if it is a formula. -/
def settle (results : Template Text) : Except Error Text :=
  match results with
  | ⟨[(before, result)], rest⟩ =>
      if before.isBlank && rest.isBlank then
        match compute result with
        | .ok n => .ok n.text
        | .error _ => .ok result
      else
        (compute results.fill).map Number.text
  | _ => (compute results.fill).map Number.text

/-- What is computed is the text with the results in it, unless nothing but blanks stands around a
single result. -/
theorem settle_eq_or (results : Template Text) :
    settle results = (compute results.fill).map Number.text ∨
      ∃ before result rest, results = ⟨[(before, result)], rest⟩ ∧ before.isBlank = true ∧
        rest.isBlank = true ∧
          (settle results = .ok result ∨
            ∃ n, compute result = .ok n ∧ settle results = .ok n.text) := by
  fun_cases settle results with
  | case1 before result rest hblank n hn =>
      rw [Bool.and_eq_true] at hblank
      exact .inr ⟨before, result, rest, rfl, hblank.1, hblank.2, .inr ⟨n, hn, rfl⟩⟩
  | case2 before result rest hblank =>
      rw [Bool.and_eq_true] at hblank
      exact .inr ⟨before, result, rest, rfl, hblank.1, hblank.2, .inl rfl⟩
  | case3 => exact .inl rfl
  | case4 => exact .inl rfl

/-! ## Running calls -/

namespace Scope

/-- Runs the calls of a text with `run` and returns the text with their results in their places. -/
def resolveWith (scope : Scope σ) (text : Text)
    (run : (call : Call) → call.inner.length < text.length → Effect σ Value) :
    Effect σ (Template Text) :=
  match h : findCalls scope.functions text with
  | .error error => throw (.parse error)
  | .ok template => do
      let holes ← template.holes.attach.mapM fun hole => do
        let result ← run hole.1.2 (length_inner_lt_of_findCalls h hole.2)
        pure (hole.1.1, result.display)
      pure ⟨holes, template.rest⟩

/-- The literal that an argument of the given kind becomes. A number is evaluated; of a text only
the calls are resolved. -/
def literalWith (scope : Scope σ) (kind : ParamKind) (param : Text)
    (run : (call : Call) → call.inner.length < param.length → Effect σ Value) : Effect σ Text :=
  match kind with
  | .number => do
      let results ← scope.resolveWith param run
      Effect.ofExcept id (settle results)
  | .text => do
      let results ← scope.resolveWith param.trim fun call h =>
        run call (Nat.lt_of_lt_of_le h (Text.length_trim_le param))
      pure results.fill

def invokeWith (scope : Scope σ) (call : Call)
    (run : (inner : Call) → inner.inner.length < call.inner.length → Effect σ Value) :
    Effect σ Value :=
  match scope.capabilities.function? call.name with
  | none => throw (.evaluation (.unknownFunction call.name call.text))
  | some capability =>
      match h : Text.splitParameters call.inner with
      | .error error => throw (.parse error)
      | .ok params =>
          if capability.accepts params.length then do
            let literals ← (params.attach.zip capability.kinds).mapM fun arg =>
              scope.literalWith arg.2 arg.1.1 fun inner hinner =>
                run inner
                  (Nat.lt_of_lt_of_le hinner (Text.length_le_of_mem_splitParameters h arg.1.2))
            capability.call literals
          else
            throw (.evaluation
              (.argumentCountMismatch call.name capability.kinds.length params.length))

/-- Runs one call: its arguments from left to right, and then the function itself. -/
def invoke (scope : Scope σ) (call : Call) : Effect σ Value :=
  scope.invokeWith call fun inner _ => invoke scope inner
termination_by call.inner.length

def resolve (scope : Scope σ) (text : Text) : Effect σ (Template Text) :=
  scope.resolveWith text fun call _ => scope.invoke call

def evaluate (scope : Scope σ) (text : Text) : Effect σ Text := do
  let results ← scope.resolve text
  Effect.ofExcept id (settle results)

def literal (scope : Scope σ) (kind : ParamKind) (param : Text) : Effect σ Text :=
  match kind with
  | .number => scope.evaluate param
  | .text => do
      let results ← scope.resolve param.trim
      pure results.fill

/-! ## Equations -/

theorem mapM_attach [Monad m] [LawfulMonad m] (f : α → m β) (xs : List α) :
    (xs.attach.mapM fun x => f x.1) = xs.mapM f := by
  have hmap : (xs.attach.mapM fun x => f x.1) = (xs.attach.map (·.1)).mapM f := by
    rw [List.mapM_map]
    rfl
  rw [hmap, List.attach_map_subtype_val]

theorem mapM_zip_attach [Monad m] [LawfulMonad m] (f : α → γ → m β) (xs : List α) (ys : List γ) :
    ((xs.attach.zip ys).mapM fun pair => f pair.1.1 pair.2) =
      (xs.zip ys).mapM fun pair => f pair.1 pair.2 := by
  have hzip : xs.zip ys = (xs.attach.zip ys).map fun pair => (pair.1.1, pair.2) := by
    conv => lhs; rw [← List.attach_map_subtype_val xs, List.zip_map_left]
    rfl
  rw [hzip, List.mapM_map]
  rfl

/-- The calls of a text are run in the order in which they stand. -/
theorem resolve_eq (scope : Scope σ) (text : Text) :
    scope.resolve text =
      (match findCalls scope.functions text with
      | .error error => throw (.parse error)
      | .ok template => do
          let holes ← template.holes.mapM fun hole => do
            let result ← scope.invoke hole.2
            pure (hole.1, result.display)
          pure ⟨holes, template.rest⟩) := by
  unfold resolve resolveWith
  split
  next error h => rw [h]
  next template h =>
    simp only [h]
    rw [mapM_attach (m := Effect σ) fun hole : Text × Call => do
      let result ← scope.invoke hole.2
      pure (hole.1, result.display)]

theorem literalWith_invoke (scope : Scope σ) (kind : ParamKind) (param : Text) :
    (scope.literalWith kind param fun call _ => scope.invoke call) = scope.literal kind param := by
  cases kind <;> rfl

/-- A call becomes the result of its function on the literals of its arguments. -/
theorem invoke_eq (scope : Scope σ) (call : Call) :
    scope.invoke call =
      match scope.capabilities.function? call.name with
      | none => throw (.evaluation (.unknownFunction call.name call.text))
      | some capability =>
          match Text.splitParameters call.inner with
          | .error error => throw (.parse error)
          | .ok params =>
              if capability.accepts params.length then do
                let literals ← (params.zip capability.kinds).mapM fun arg =>
                  scope.literal arg.2 arg.1
                capability.call literals
              else
                throw (.evaluation
                  (.argumentCountMismatch call.name capability.kinds.length params.length)) := by
  rw [invoke, invokeWith]
  cases scope.capabilities.function? call.name with
  | none => rfl
  | some capability =>
      dsimp only
      split
      next error h => rw [h]
      next params h =>
        simp only [h, literalWith_invoke]
        rw [mapM_zip_attach fun param kind => scope.literal kind param]

end Scope

end Lindenmayer
