import Lindenmayer.Proofs.Expression.CallTree
import Lindenmayer.Proofs.Outcome

/-!
# Which functions an evaluation runs

A recording host keeps, beside its state, the names of the functions that have been run on it. An
evaluation on it goes as on the host itself, and what it records is the order of the call forest:
all of it where the evaluation succeeds, and a beginning of it where the evaluation fails.
-/

namespace Lindenmayer

variable {σ α β : Type}

/-! ## The recording host -/

/-- The function, whose name is noted at each run. -/
def Capability.recording (name : Text) (function : Capability σ Value) :
    Capability (σ × List Text) Value where
  kinds := function.kinds
  run := fun values state =>
    match function.run values state.1 with
    | .ok value host => .ok value (host, state.2 ++ [name])
    | .error error host => .error error (host, state.2 ++ [name])

def Scope.recording (scope : Scope σ) : Scope (σ × List Text) where
  functions := scope.functions
  capabilities :=
    ⟨[], scope.capabilities.functions.map fun entry => (entry.1, entry.2.recording entry.1)⟩

def Scope.kinds (scope : Scope σ) (name : Text) : List ParamKind :=
  match scope.capabilities.function? name with
  | none => []
  | some function => function.kinds

@[simp]
theorem Scope.functions_recording (scope : Scope σ) : scope.recording.functions = scope.functions :=
  rfl

theorem Scope.function?_recording (scope : Scope σ) (name : Text) :
    scope.recording.capabilities.function? name =
      (scope.capabilities.function? name).map (Capability.recording name) := by
  change (List.map _ scope.capabilities.functions).lookup name =
    (scope.capabilities.functions.lookup name).map _
  induction scope.capabilities.functions with
  | nil => rfl
  | cons entry functions ih =>
      rw [List.map_cons, List.lookup_cons, List.lookup_cons]
      cases hname : name == entry.1 with
      | true =>
          rw [eq_of_beq hname]
          rfl
      | false => exact ih

/-! ## Computations on both hosts -/

/-- On the recording host the second computation does what the first one does on the host itself. It
records these names, or a beginning of them if it fails. -/
def Records (run : Effect σ α) (recorded : Effect (σ × List Text) α) (names : List Text) : Prop :=
  ∀ host log, match run host with
    | .ok a after => recorded (host, log) = .ok a (after, log ++ names)
    | .error error after =>
        ∃ made, made <+: names ∧ recorded (host, log) = .error error (after, log ++ made)

namespace Records

theorem pure (a : α) : Records (Pure.pure a : Effect σ α) (Pure.pure a) [] := by
  intro host log
  change EStateM.Result.ok a (host, log) = .ok a (host, log ++ [])
  rw [List.append_nil]

theorem throw (error : Error) (names : List Text) :
    Records (MonadExcept.throw error : Effect σ α) (MonadExcept.throw error) names := by
  intro host log
  refine ⟨[], List.nil_prefix, ?_⟩
  rw [List.append_nil]
  rfl

theorem ofExcept {ε : Type} (wrap : ε → Error) (outcome : Except ε α) :
    Records (Effect.ofExcept wrap outcome : Effect σ α) (Effect.ofExcept wrap outcome) [] := by
  cases outcome with
  | ok a => exact pure a
  | error error => exact throw (wrap error) []

/-- What runs first is recorded first. -/
theorem bind {first : Effect σ α} {recorded : Effect (σ × List Text) α} {next : α → Effect σ β}
    {recordedNext : α → Effect (σ × List Text) β} {names others : List Text}
    (hfirst : Records first recorded names)
    (hnext : ∀ a, Records (next a) (recordedNext a) others) :
    Records (first >>= next) (recorded >>= recordedNext) (names ++ others) := by
  intro host log
  have hrun := hfirst host log
  cases hresult : first host with
  | ok a between =>
      rw [hresult] at hrun
      rw [run_bind_of_ok hresult, run_bind_of_ok hrun]
      have hrest := hnext a between (log ++ names)
      cases hnextResult : next a between with
      | ok b after =>
          rw [hnextResult] at hrest
          simpa using hrest
      | error error after =>
          rw [hnextResult] at hrest
          obtain ⟨made, hmade, hrest⟩ := hrest
          refine ⟨names ++ made, (List.prefix_append_right_inj names).mpr hmade, ?_⟩
          simpa using hrest
  | error error after =>
      rw [hresult] at hrun
      obtain ⟨made, hmade, hrun⟩ := hrun
      rw [run_bind_of_error hresult, run_bind_of_error hrun]
      exact ⟨made, hmade.trans (List.prefix_append names others), rfl⟩

/-- The parts of a traversal are recorded from left to right. -/
theorem mapM {f : α → Effect σ β} {recorded : α → Effect (σ × List Text) β} {names : α → List Text}
    {xs : List α} (h : ∀ x ∈ xs, Records (f x) (recorded x) (names x)) :
    Records (xs.mapM f) (xs.mapM recorded) (xs.flatMap names) := by
  induction xs with
  | nil =>
      rw [List.mapM_nil, List.mapM_nil]
      exact pure []
  | cons x xs ih =>
      have hrest := ih fun y hmem => h y (List.mem_cons_of_mem x hmem)
      rw [List.mapM_cons, List.mapM_cons, List.flatMap_cons]
      refine (h x List.mem_cons_self).bind fun y => ?_
      rw [← List.append_nil (xs.flatMap names)]
      exact hrest.bind fun ys => pure (y :: ys)

/-- A function is recorded once its arguments have been coerced, whether it fails or not. -/
theorem call (name : Text) (function : Capability σ Value) (literals : List Text) :
    Records (function.call literals) ((function.recording name).call literals) [name] := by
  have hrun (values : List Value) :
      Records (Effect.ofHost .evaluation (function.run values))
        (Effect.ofHost .evaluation ((function.recording name).run values)) [name] := by
    intro host log
    simp only [Effect.ofHost, EStateM.adaptExcept, Capability.recording]
    cases function.run values host with
    | ok value after => rfl
    | error error after => exact ⟨[name], List.prefix_refl _, rfl⟩
  have hcall := bind (ofExcept .evaluation (function.coerceAll literals)) hrun
  exact hcall

end Records

/-! ## Evaluation -/

namespace Scope

variable (scope : Scope σ)

def namesOf (text : Text) : List Text :=
  (callOrder scope.functions scope.kinds text).map Call.name

/-- The names of the functions that a call runs, its own name last. -/
def namesOfCall (call : Call) : List Text :=
  (callTree scope.functions scope.kinds call).postorder.map Call.name

theorem namesOf_eq (text : Text) :
    scope.namesOf text = (outermostCalls scope.functions text).flatMap scope.namesOfCall := by
  rw [namesOf, callOrder_eq, List.map_flatMap]
  rfl

theorem namesOfCall_eq (call : Call) :
    scope.namesOfCall call = (call.parts scope.kinds).flatMap scope.namesOf ++ [call.name] := by
  rw [namesOfCall, postorder_callTree, List.map_append, List.map_flatMap]
  rfl

/-- The calls of a text are recorded from left to right. -/
theorem records_resolve {text : Text}
    (hinvoke : ∀ call ∈ outermostCalls scope.functions text,
      Records (scope.invoke call) (scope.recording.invoke call) (scope.namesOfCall call)) :
    Records (scope.resolve text) (scope.recording.resolve text) (scope.namesOf text) := by
  rw [resolve_eq, resolve_eq, functions_recording, namesOf_eq]
  unfold outermostCalls at hinvoke ⊢
  cases hfind : findCalls scope.functions text with
  | error error => exact .throw (.parse error) _
  | ok template =>
      simp only [hfind] at hinvoke ⊢
      have hhole hole (hmem : hole ∈ template.holes) :=
        (hinvoke hole.2 (List.mem_map_of_mem hmem)).bind fun result =>
          Records.pure (σ := σ) (hole.1, result.display)
      have hholes := (Records.mapM hhole).bind fun holes =>
        Records.pure (σ := σ) (⟨holes, template.rest⟩ : Template Text)
      simpa [Template.values, List.flatMap_map] using hholes

theorem records_evaluate {text : Text}
    (hresolve : Records (scope.resolve text) (scope.recording.resolve text) (scope.namesOf text)) :
    Records (scope.evaluate text) (scope.recording.evaluate text) (scope.namesOf text) := by
  have hevaluate := hresolve.bind fun results => Records.ofExcept (σ := σ) id (settle results)
  rw [List.append_nil] at hevaluate
  exact hevaluate

theorem records_literal (kind : ParamKind) {param : Text}
    (hresolve : Records (scope.resolve (kind.part param))
      (scope.recording.resolve (kind.part param)) (scope.namesOf (kind.part param))) :
    Records (scope.literal kind param) (scope.recording.literal kind param)
      (scope.namesOf (kind.part param)) := by
  cases kind with
  | number => exact scope.records_evaluate hresolve
  | text =>
      have hliteral := hresolve.bind fun results => Records.pure (σ := σ) results.fill
      rw [List.append_nil] at hliteral
      exact hliteral

/-- A call records the calls in its parameters and then itself. -/
theorem records_invoke (call : Call) :
    Records (scope.invoke call) (scope.recording.invoke call) (scope.namesOfCall call) := by
  rw [invoke_eq, invoke_eq, function?_recording]
  cases hfunction : scope.capabilities.function? call.name with
  | none => exact .throw _ _
  | some function =>
      simp only [Option.map_some]
      cases hparams : Text.splitParameters call.inner with
      | error error => exact .throw _ _
      | ok params =>
          have hkinds : scope.kinds call.name = function.kinds := by
            rw [kinds, hfunction]
          have hparts : call.parts scope.kinds = ParamKind.parts function.kinds params := by
            rw [Call.parts, hparams, ← hkinds]
          -- The calls in the parameters are shorter than the call.
          have hresolve part (hpart : part ∈ call.parts scope.kinds) :
              Records (scope.resolve part) (scope.recording.resolve part) (scope.namesOf part) :=
            scope.records_resolve fun inner hinner => records_invoke inner
          have haccepts : (function.recording call.name).accepts params.length =
              function.accepts params.length := rfl
          simp only [haccepts]
          by_cases hcount : function.accepts params.length = true
          · rw [if_pos hcount, if_pos hcount]
            have hlength : function.kinds.length = params.length := by
              simpa [Capability.accepts] using hcount
            rw [ParamKind.parts_eq_zip hlength] at hparts
            have hliteral arg (hmem : arg ∈ params.zip function.kinds) :=
              scope.records_literal arg.2 (hresolve (arg.2.part arg.1)
                (by rw [hparts]; exact List.mem_map_of_mem hmem))
            have hcall := (Records.mapM hliteral).bind fun literals =>
              Records.call call.name function literals
            rw [namesOfCall_eq, hparts, List.flatMap_map]
            exact hcall
          · rw [if_neg hcount, if_neg hcount]
            exact .throw _ _
termination_by call.inner.length
decreasing_by
  exact Nat.lt_of_lt_of_le (length_inner_lt_of_mem_outermostCalls hinner)
    (Call.length_le_of_mem_parts hpart)

/-- An evaluation runs the functions of its call forest in postorder, each once, and up to some
place in this order if it fails. Where no function name begins with a blank, the forest is that of
the parameters as they are written. -/
theorem evaluate_records_callOrder (text : Text) :
    Records (scope.evaluate text) (scope.recording.evaluate text)
        ((callOrder scope.functions scope.kinds text).map Call.name) ∧
      ((∀ name ∈ scope.functions, Text.Stops isBlankChar name) →
        Records (scope.evaluate text) (scope.recording.evaluate text)
          ((callOrder scope.functions (fun _ => []) text).map Call.name)) := by
  have hrecords : Records (scope.evaluate text) (scope.recording.evaluate text)
      (scope.namesOf text) :=
    scope.records_evaluate (scope.records_resolve fun call _ => scope.records_invoke call)
  refine ⟨hrecords, fun hfunctions => ?_⟩
  rw [namesOf, callOrder, callForest_eq hfunctions] at hrecords
  exact hrecords

def echoing (functions : List Text) : Scope Unit where
  functions := functions
  capabilities := Capabilities.empty
    |>.withFunction "echo" [.text] (fun args => pure (.text (args.flatMap Value.display)))
    |>.withFunction "word" [.number] (fun _ => pure (.text "echo(2)".toList))

/-- A result that looks like a call is not run. -/
theorem evaluate_records_word :
    (echoing ["echo".toList, "word".toList]).recording.evaluate "echo( word(1))".toList ((), []) =
      .ok "echo(2)".toList ((), ["word".toList, "echo".toList]) := by
  have hrecords := ((echoing ["echo".toList, "word".toList]).evaluate_records_callOrder
    "echo( word(1))".toList).2 (by decide) () []
  have hevaluate : (echoing ["echo".toList, "word".toList]).evaluate "echo( word(1))".toList () =
      .ok "echo(2)".toList () := by
    with_unfolding_all rfl
  have horder : (callOrder ["echo".toList, "word".toList] (fun _ => [])
      "echo( word(1))".toList).map Call.name = ["word".toList, "echo".toList] := by
    decide +kernel
  rw [hevaluate] at hrecords
  exact hrecords.trans (congrArg (fun order => EStateM.Result.ok _ ((), order)) horder)

/-- A function name that begins with a blank is written in a text, but not found in it. -/
theorem not_records_written :
    ¬∀ (scope : Scope Unit) (text : Text),
      Records (scope.evaluate text) (scope.recording.evaluate text)
        ((callOrder scope.functions (fun _ => []) text).map Call.name) := by
  intro hwritten
  have hrecords := hwritten (echoing [" double".toList, "echo".toList]) "echo( double(1))".toList
    () []
  have hevaluate : (echoing [" double".toList, "echo".toList]).evaluate
      "echo( double(1))".toList () = .ok "double(1)".toList () := by
    with_unfolding_all rfl
  have hrecording : (echoing [" double".toList, "echo".toList]).recording.evaluate
      "echo( double(1))".toList ((), []) = .ok "double(1)".toList ((), ["echo".toList]) := by
    with_unfolding_all rfl
  have horder : (callOrder [" double".toList, "echo".toList] (fun _ => [])
      "echo( double(1))".toList).map Call.name = [" double".toList, "echo".toList] := by
    decide +kernel
  rw [hevaluate, hrecording] at hrecords
  have hlog : ["echo".toList] = (callOrder [" double".toList, "echo".toList] (fun _ => [])
      "echo( double(1))".toList).map Call.name :=
    (Prod.mk.inj (EStateM.Result.ok.inj hrecords).2).2
  rw [horder] at hlog
  exact absurd hlog (by decide)

end Scope

end Lindenmayer
