import Lindenmayer.Expression
import Lindenmayer.Proofs.Text.Call

/-!
# Call trees

The calls of an expression form a forest: under each call stand the calls in its parameters. Every
parameter is searched for calls as it is written, or without the blanks around it where the function
takes it as a text. The order of a run is the postorder of the forest, in which a call comes after
the calls in its parameters.
-/

namespace Lindenmayer

inductive CallTree where
  | node (call : Call) (arguments : List CallTree)

namespace CallTree

mutual

/-- The calls of a tree, each after the calls in its parameters. -/
def postorder : CallTree → List Call
  | node call arguments => postorderAll arguments ++ [call]

def postorderAll : List CallTree → List Call
  | [] => []
  | tree :: trees => postorder tree ++ postorderAll trees

end

theorem postorderAll_eq (trees : List CallTree) :
    postorderAll trees = trees.flatMap postorder := by
  induction trees with
  | nil => rfl
  | cons tree trees ih => rw [postorderAll, ih, List.flatMap_cons]

end CallTree

/-! ## Parameters -/

/-- The part of a parameter of this kind that is searched for calls. -/
def ParamKind.part (kind : ParamKind) (param : Text) : Text :=
  match kind with
  | number => param
  | text => param.trim

/-- The parts of parameters that are searched for calls. A parameter of no kind is left as it is. -/
def ParamKind.parts : List ParamKind → List Text → List Text
  | kind :: kinds, param :: params => kind.part param :: parts kinds params
  | _, params => params

theorem ParamKind.length_part_le (kind : ParamKind) (param : Text) :
    (kind.part param).length ≤ param.length := by
  cases kind with
  | number => exact Nat.le_refl _
  | text => exact Text.length_trim_le param

theorem ParamKind.exists_of_mem_parts {kinds : List ParamKind} {params : List Text} {part : Text}
    (hmem : part ∈ parts kinds params) : ∃ param ∈ params, part.length ≤ param.length := by
  induction params generalizing kinds with
  | nil => cases kinds <;> cases hmem
  | cons param params ih =>
      cases kinds with
      | nil => exact ⟨part, hmem, Nat.le_refl _⟩
      | cons kind kinds =>
          rcases List.mem_cons.mp hmem with rfl | hmem
          · exact ⟨param, List.mem_cons_self, kind.length_part_le param⟩
          · obtain ⟨found, hfound, hle⟩ := ih hmem
            exact ⟨found, List.mem_cons_of_mem param hfound, hle⟩

theorem ParamKind.parts_nil (params : List Text) : parts [] params = params := by
  cases params <;> rfl

/-- Where each parameter has a kind. -/
theorem ParamKind.parts_eq_zip {kinds : List ParamKind} :
    ∀ {params : List Text}, kinds.length = params.length →
      parts kinds params = (params.zip kinds).map fun arg => arg.2.part arg.1 := by
  induction kinds with
  | nil =>
      intro params hlength
      cases params with
      | nil => rfl
      | cons param params => cases hlength
  | cons kind kinds ih =>
      intro params hlength
      cases params with
      | nil => cases hlength
      | cons param params =>
          rw [List.zip_cons_cons, List.map_cons, ← ih (Nat.succ.inj hlength)]
          rfl

def Call.parts (kinds : Text → List ParamKind) (call : Call) : List Text :=
  match Text.splitParameters call.inner with
  | .error _ => []
  | .ok params => ParamKind.parts (kinds call.name) params

theorem Call.length_le_of_mem_parts {kinds : Text → List ParamKind} {call : Call} {part : Text}
    (hmem : part ∈ call.parts kinds) : part.length ≤ call.inner.length := by
  rw [parts] at hmem
  cases hparams : Text.splitParameters call.inner with
  | error error =>
      rw [hparams] at hmem
      cases hmem
  | ok params =>
      rw [hparams] at hmem
      obtain ⟨param, hparam, hle⟩ := ParamKind.exists_of_mem_parts hmem
      exact Nat.le_trans hle (Text.length_le_of_mem_splitParameters hparams hparam)

theorem length_inner_lt_of_mem_outermostCalls {functions : List Text} {text : Text} {call : Call}
    (hmem : call ∈ outermostCalls functions text) : call.inner.length < text.length := by
  rw [outermostCalls] at hmem
  cases hfind : findCalls functions text with
  | error error =>
      rw [hfind] at hmem
      cases hmem
  | ok template =>
      rw [hfind] at hmem
      obtain ⟨hole, hhole, rfl⟩ := List.mem_map.mp hmem
      exact length_inner_lt_of_findCalls hfind hhole

/-! ## Forests -/

def Call.argumentCalls (functions : List Text) (kinds : Text → List ParamKind) (call : Call) :
    List Call :=
  (call.parts kinds).flatMap (outermostCalls functions)

theorem Call.length_inner_lt_of_mem_argumentCalls {functions : List Text}
    {kinds : Text → List ParamKind} {call inner : Call}
    (hmem : inner ∈ call.argumentCalls functions kinds) :
    inner.inner.length < call.inner.length := by
  obtain ⟨part, hpart, hinner⟩ := List.mem_flatMap.mp hmem
  exact Nat.lt_of_lt_of_le (length_inner_lt_of_mem_outermostCalls hinner)
    (length_le_of_mem_parts hpart)

def callTree (functions : List Text) (kinds : Text → List ParamKind) (call : Call) : CallTree :=
  .node call ((call.argumentCalls functions kinds).attach.map fun inner =>
    callTree functions kinds inner.1)
termination_by call.inner.length
decreasing_by exact Call.length_inner_lt_of_mem_argumentCalls inner.2

theorem callTree_eq_node (functions : List Text) (kinds : Text → List ParamKind) (call : Call) :
    callTree functions kinds call =
      .node call ((call.argumentCalls functions kinds).map (callTree functions kinds)) := by
  rw [callTree]
  exact congrArg (CallTree.node call) List.attach_map_val

def callForest (functions : List Text) (kinds : Text → List ParamKind) (text : Text) :
    List CallTree :=
  (outermostCalls functions text).map (callTree functions kinds)

def callOrder (functions : List Text) (kinds : Text → List ParamKind) (text : Text) : List Call :=
  CallTree.postorderAll (callForest functions kinds text)

theorem callOrder_eq (functions : List Text) (kinds : Text → List ParamKind) (text : Text) :
    callOrder functions kinds text =
      (outermostCalls functions text).flatMap fun call =>
        (callTree functions kinds call).postorder := by
  rw [callOrder, callForest, CallTree.postorderAll_eq, List.flatMap_map]

/-- A call comes after the calls in its parameters. -/
theorem postorder_callTree (functions : List Text) (kinds : Text → List ParamKind) (call : Call) :
    (callTree functions kinds call).postorder =
      (call.parts kinds).flatMap (callOrder functions kinds) ++ [call] := by
  have horder : callOrder functions kinds = fun part => (outermostCalls functions part).flatMap
      fun inner => (callTree functions kinds inner).postorder :=
    funext fun part => callOrder_eq functions kinds part
  rw [callTree_eq_node, CallTree.postorder, CallTree.postorderAll_eq, List.flatMap_map,
    Call.argumentCalls, List.flatMap_assoc, horder]

/-! ## Without trimming -/

theorem ParamKind.flatMap_parts {f : Text → List Call} (hf : ∀ param : Text, f param.trim = f param)
    (kinds : List ParamKind) (params : List Text) :
    (parts kinds params).flatMap f = params.flatMap f := by
  induction params generalizing kinds with
  | nil => cases kinds <;> rfl
  | cons param params ih =>
      cases kinds with
      | nil => rfl
      | cons kind kinds =>
          have hpart : f (kind.part param) = f param := by
            cases kind with
            | number => rfl
            | text => exact hf param
          rw [parts, List.flatMap_cons, List.flatMap_cons, hpart, ih]

theorem Call.argumentCalls_eq {functions : List Text}
    (hfunctions : ∀ name ∈ functions, Text.Stops isBlankChar name) (kinds : Text → List ParamKind)
    (call : Call) :
    call.argumentCalls functions kinds = call.argumentCalls functions fun _ => [] := by
  unfold argumentCalls parts
  cases Text.splitParameters call.inner with
  | error error => rfl
  | ok params =>
      simp only [ParamKind.parts_nil]
      exact ParamKind.flatMap_parts (outermostCalls_trim hfunctions) (kinds call.name) params

/-- Trimming texts keeps the tree of a call where no function name begins with a blank. -/
theorem callTree_eq {functions : List Text}
    (hfunctions : ∀ name ∈ functions, Text.Stops isBlankChar name) (kinds : Text → List ParamKind)
    (call : Call) : callTree functions kinds call = callTree functions (fun _ => []) call := by
  rw [callTree_eq_node, callTree_eq_node, Call.argumentCalls_eq hfunctions]
  refine congrArg (CallTree.node call) (List.map_congr_left ?_)
  intro inner hmem
  exact callTree_eq hfunctions kinds inner
termination_by call.inner.length
decreasing_by
  exact Call.length_inner_lt_of_mem_argumentCalls hmem

theorem callForest_eq {functions : List Text}
    (hfunctions : ∀ name ∈ functions, Text.Stops isBlankChar name) (kinds : Text → List ParamKind)
    (text : Text) : callForest functions kinds text = callForest functions (fun _ => []) text :=
  List.map_congr_left fun call _ => callTree_eq hfunctions kinds call

end Lindenmayer
