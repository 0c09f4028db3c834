import Lindenmayer.Generation
import Lindenmayer.Proofs.Outcome

/-!
# Properties of all computations in parameters

Evaluation is made of results, refusals of texts and calls of functions, one after the other. A
property of computations that these have, and that sequencing keeps, holds of the evaluation of
every expression, however its calls are nested, and of a whole generation.
-/

namespace Lindenmayer

variable {σ : Type}

/-- What is wrong is the form or the meaning of a text, and not a word. -/
inductive Error.OfText : Error → Prop where
  | parse (error : ParseError) : OfText (.parse error)
  | evaluation (error : EvaluationError) : OfText (.evaluation error)

/-- Whatever cannot be computed is refused as a text. -/
theorem ofText_of_compute {text : Text} {error : Error} (h : compute text = .error error) :
    error.OfText := by
  rcases Except.bind_eq_error_iff.mp h with h | ⟨formula, -, h⟩
  · obtain ⟨fault, rfl⟩ := Except.exists_of_mapError h
    exact .parse fault
  rcases Except.bind_eq_error_iff.mp h with h | ⟨n, -, h⟩
  · obtain ⟨fault, rfl⟩ := Except.exists_of_mapError h
    exact .evaluation fault
  cases n with
  | integer n => cases h
  | real r =>
      obtain ⟨fault, rfl⟩ := Except.exists_of_mapError h
      exact .evaluation fault

theorem ofText_of_settle {results : Template Text} {error : Error}
    (h : settle results = .error error) : error.OfText := by
  obtain heq | ⟨_, _, _, _, _, _, heq | ⟨_, _, heq⟩⟩ := settle_eq_or results
  · exact ofText_of_compute (Except.map_eq_error_iff.mp (heq.symm.trans h))
  · cases heq.symm.trans h
  · cases heq.symm.trans h

/-! ## Closed properties -/

/-- Results and refusals of texts have the property, and sequencing keeps it. -/
structure Effect.Closed (P : (α : Type) → Effect σ α → Prop) : Prop where
  pure : ∀ {α : Type} (a : α), P α (Pure.pure a)
  refuse : ∀ {α : Type} {error : Error}, error.OfText → P α (throw error)
  bind : ∀ {α β : Type} {first : Effect σ α} {next : α → Effect σ β}, P α first →
    (∀ a, P β (next a)) → P β (first >>= next)

namespace Effect.Closed

variable {P : (α : Type) → Effect σ α → Prop} {α β ε : Type}

theorem ofExcept (hclosed : Closed P) {wrap : ε → Error} {outcome : Except ε α}
    (herror : ∀ error, outcome = .error error → (wrap error).OfText) :
    P α (Effect.ofExcept wrap outcome) := by
  cases outcome with
  | ok a => exact hclosed.pure a
  | error error => exact hclosed.refuse (herror error rfl)

theorem mapM (hclosed : Closed P) {f : α → Effect σ β} {xs : List α} (h : ∀ x ∈ xs, P β (f x)) :
    P (List β) (xs.mapM f) := by
  induction xs with
  | nil =>
      rw [List.mapM_nil]
      exact hclosed.pure []
  | cons x xs ih =>
      rw [List.mapM_cons]
      refine hclosed.bind (h x List.mem_cons_self) fun y => ?_
      refine hclosed.bind (ih fun other hmem => h other (List.mem_cons_of_mem x hmem)) fun ys => ?_
      exact hclosed.pure (y :: ys)

variable {scope : Scope σ}

/-! ## Evaluation -/

theorem resolve (hclosed : Closed P) {text : Text}
    (hinvoke : ∀ call : Call, call.inner.length < text.length → P Value (scope.invoke call)) :
    P (Template Text) (scope.resolve text) := by
  rw [Scope.resolve_eq]
  cases hfind : findCalls scope.functions text with
  | error error => exact hclosed.refuse (.parse error)
  | ok template =>
      refine hclosed.bind (hclosed.mapM fun hole hmem => ?_) fun holes => hclosed.pure _
      exact hclosed.bind (hinvoke hole.2 (length_inner_lt_of_findCalls hfind hmem)) fun result =>
        hclosed.pure _

theorem evaluate_of_resolve (hclosed : Closed P) {text : Text}
    (hresolve : P (Template Text) (scope.resolve text)) : P Text (scope.evaluate text) :=
  hclosed.bind hresolve fun _ => hclosed.ofExcept fun _ herror => ofText_of_settle herror

theorem literal (hclosed : Closed P) (kind : ParamKind) {param : Text}
    (hinvoke : ∀ call : Call, call.inner.length < param.length → P Value (scope.invoke call)) :
    P Text (scope.literal kind param) := by
  cases kind with
  | number => exact hclosed.evaluate_of_resolve (hclosed.resolve hinvoke)
  | text =>
      refine hclosed.bind (hclosed.resolve fun call hlength => ?_) fun results => hclosed.pure _
      exact hinvoke call (Nat.lt_of_lt_of_le hlength (Text.length_trim_le param))

def Calls (P : (α : Type) → Effect σ α → Prop) (scope : Scope σ) : Prop :=
  ∀ name function, scope.capabilities.function? name = some function →
    ∀ literals, P Value (function.call literals)

/-- The calls in the arguments are shorter than the call. -/
theorem invoke (hclosed : Closed P) (hcalls : Calls P scope) (call : Call) :
    P Value (scope.invoke call) := by
  rw [Scope.invoke_eq]
  cases hfunction : scope.capabilities.function? call.name with
  | none => exact hclosed.refuse (.evaluation _)
  | some function =>
      cases hparams : Text.splitParameters call.inner with
      | error error => exact hclosed.refuse (.parse error)
      | ok params =>
          simp only
          by_cases haccepts : function.accepts params.length = true
          · rw [if_pos haccepts]
            refine hclosed.bind (hclosed.mapM fun arg hmem => ?_) fun literals =>
              hcalls call.name function hfunction literals
            have hparam := Text.length_le_of_mem_splitParameters hparams (List.of_mem_zip hmem).1
            exact hclosed.literal arg.2 fun inner hinner =>
              have hshorter : inner.inner.length < call.inner.length :=
                Nat.lt_of_lt_of_le hinner hparam
              invoke hclosed hcalls inner
          · rw [if_neg haccepts]
            exact hclosed.refuse (.evaluation _)
termination_by call.inner.length

/-- What holds of all calls holds of every evaluation. -/
theorem evaluate (hclosed : Closed P) (hcalls : Calls P scope) (text : Text) :
    P Text (scope.evaluate text) :=
  hclosed.evaluate_of_resolve (hclosed.resolve fun call _ => hclosed.invoke hcalls call)

/-! ## Generations -/

theorem instantiate (hclosed : Closed P) (hevaluate : ∀ text, P Text (scope.evaluate text))
    (rule : Rule) (found : Word) : P Word (scope.instantiate rule found) := by
  fun_cases scope.instantiate rule found with
  | case1 => exact hclosed.pure rule.successor
  | case2 =>
      refine hclosed.bind (hclosed.ofExcept fun error _ => .evaluation error) fun bindings => ?_
      refine hclosed.mapM fun symbol _ => ?_
      fun_cases scope.instantiateSymbol bindings symbol with
      | case1 => exact hclosed.pure symbol
      | case2 args =>
          refine hclosed.bind (hclosed.mapM fun arg _ => ?_) fun literals => hclosed.pure _
          exact hevaluate (Text.substitute bindings arg)

/-- What holds of all evaluations holds of every generation. -/
theorem nextGeneration (hclosed : Closed P) (hevaluate : ∀ text, P Text (scope.evaluate text))
    (rules : List Rule) (word : Word) : P Word (scope.nextGeneration rules word) := by
  refine hclosed.bind (hclosed.mapM fun factor _ => ?_) fun words => hclosed.pure words.flatten
  cases factor with
  | copy symbol => exact hclosed.pure [symbol]
  | apply rule found => exact hclosed.instantiate hevaluate rule found

end Effect.Closed

end Lindenmayer
