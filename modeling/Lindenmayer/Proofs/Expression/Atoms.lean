import Lindenmayer.Proofs.Formula.Splicing
import Lindenmayer.Proofs.Generation.Literals

/-!
# Calls as operands

The results of calls are put into the text of an expression before it is read as a formula. Where
functions give integers, an expression still comes to what its formula with names in the place of
the calls comes to when the integers are put in the place of the names. So neither a sign nor what
stands next to a call has an effect on how the expression is read.
-/

namespace Lindenmayer

variable {σ : Type}

/-! ## Values of formulas -/

def Formula.literal (source : Text) (formula : Formula) : Except EvaluationError Text :=
  match formula.eval source with
  | .ok n => if n.isFinite then .ok n.text else .error (.notFinite source)
  | .error error => .error error

theorem map_text_compute {source : Text} {formula : Formula}
    (hread : Formula.ofText source = .ok formula) :
    (compute source).map Number.text = (formula.literal source).mapError .evaluation := by
  rw [compute, hread]
  change ((formula.eval source).mapError Error.evaluation >>= _).map Number.text = _
  rw [Formula.literal]
  cases formula.eval source with
  | error error => rfl
  | ok n =>
      cases n with
      | integer n => rfl
      | real r =>
          change ((Number.ofReal source r).mapError Error.evaluation).map Number.text =
            Except.mapError Error.evaluation (if r.isFinite then _ else _)
          rw [Number.ofReal]
          cases r.isFinite with
          | true => rfl
          | false => rfl

/-- An expression that is one operand is computed as the operand is. -/
theorem compute_of_operand {source : Text} {operand : Derivation .unary}
    (hlaid : Laid source operand.lexemes) {n : Number}
    (heval : operand.meaning.eval source = .ok n) (hfinite : n.isFinite = true) :
    compute source = .ok n := by
  have hwhole : Laid source
      (Derivation.ofOperand operand).lexemes := by
    simpa [Derivation.lexemes] using hlaid
  rw [compute, Formula.ofText_of_laid hwhole]
  change (operand.meaning.eval source).mapError Error.evaluation >>= _ = _
  rw [heval]
  cases n with
  | integer n => rfl
  | real r =>
      have hreal : r.isFinite = true := hfinite
      change (Number.ofReal source r).mapError Error.evaluation = _
      rw [Number.ofReal, if_pos hreal]
      rfl

/-- An integer is computed from its text. -/
theorem compute_integerText {n : Int64} (hn : Int64.minValue < n) :
    compute (integerText n.toInt) = .ok (.integer n) :=
  compute_of_operand (laid_integerText hn) (eval_integer hn _) rfl

/-- A name with nothing but blanks around it is the whole formula. -/
theorem Formula.eq_name_of_isBlank {before name rest : Text} (hname : isName name = true)
    (hbefore : before.isBlank = true) (hrest : rest.isBlank = true) {formula : Formula}
    (hread : ofText (before ++ (setOff name ++ rest)) = .ok formula) : formula = .name name := by
  obtain ⟨derivation, hlaid, -, rfl⟩ := exists_laid hread
  obtain ⟨first, last, hfirst, hlast, hlexemes⟩ := hlaid.exists_of_setOff hname
  rw [hfirst.eq_nil_of_isBlank hbefore, hlast.eq_nil_of_isBlank hrest] at hlexemes
  have hwhole : derivation =
      .ofOperand (.primary (.name name)) :=
    Derivation.lexemes_injective hlexemes
  rw [hwhole]
  rfl

/-! ## Settling integers -/

/-- A single integer is the literal by itself. -/
theorem settle_integer {before rest : Text} (hblank : (before.isBlank && rest.isBlank) = true)
    {n : Int64} (hn : Int64.minValue < n) :
    settle ⟨[(before, integerText n.toInt)], rest⟩ = .ok (integerText n.toInt) := by
  rw [settle, if_pos hblank, compute_integerText hn]
  rfl

section

variable {α : Type} {template : Template α} {names : List Text} {integers : List Int64}
  {formula : Formula} (hfresh : template.Fresh names)
  (hlength : integers.length = template.holes.length)
  (hintegers : ∀ n ∈ integers, Int64.minValue < n)
  (hread : Formula.ofText (template.refill (names.map setOff)).fill = .ok formula)
include hfresh hlength hintegers hread

/-- The text with integers in the places of the names comes to what the formula comes to. -/
theorem map_text_compute_refill :
    (compute (template.refill (integers.map fun n => integerText n.toInt)).fill).map Number.text =
      ((formula.substitute (Formula.integerOrName (names.zip integers))).literal
        (template.refill (integers.map fun n => integerText n.toInt)).fill).mapError
          .evaluation := by
  have hspliced := Formula.ofText_refill hfresh hlength hintegers hread
  have hbindings : ∀ binding ∈ names.zip integers, Int64.minValue < binding.2 :=
    fun binding hmem => hintegers binding.2 (List.of_mem_zip hmem).2
  have heval source := Formula.eval_substitute_congr (eval_integerOrName hbindings source) formula
  rw [map_text_compute hspliced, Formula.literal, heval, ← Formula.literal]

/-- Integers settle to what the formula comes to, also where one of them is all there is. -/
theorem settle_refill :
    settle (template.refill (integers.map fun n => integerText n.toInt)) =
      ((formula.substitute (Formula.integerOrName (names.zip integers))).literal
        (template.refill (integers.map fun n => integerText n.toInt)).fill).mapError
          .evaluation := by
  have hcompute := map_text_compute_refill hfresh hlength hintegers hread
  have hnames := hfresh.length_eq
  obtain ⟨holes, rest⟩ := template
  match holes, integers, names, hlength, hnames with
  | [], [], [], _, _ => exact hcompute
  | [(before, a)], [n], [name], _, _ =>
      by_cases hblank : (before.isBlank && rest.isBlank) = true
      · have hname : isName name = true := hfresh.isName name List.mem_cons_self
        rw [Bool.and_eq_true] at hblank
        have htext : (Template.refill ⟨[(before, a)], rest⟩ [setOff name]).fill =
            before ++ (setOff name ++ rest) :=
          Template.fill_cons before (setOff name) [] rest
        obtain rfl : formula = .name name :=
          Formula.eq_name_of_isBlank hname hblank.1 hblank.2 (htext ▸ hread)
        have hvalue : Formula.integerOrName [(name, n)] name = .number (.integer n) := by
          rw [Formula.integerOrName, List.lookup_cons_self]
        have hsettle := settle_integer (Bool.and_eq_true_iff.mpr hblank)
          (hintegers n List.mem_cons_self)
        rw [Formula.substitute, List.zip_cons_cons, List.zip_nil_left, hvalue]
        exact hsettle
      · rw [← hcompute]
        exact if_neg hblank
  | _ :: _ :: _, _ :: _ :: _, _ :: _ :: _, _, _ => exact hcompute

end

/-! ## Running the calls -/

/-- No function of the scope gives anything but integers above the least one. -/
def Scope.GivesIntegers (scope : Scope σ) : Prop :=
  ∀ name function, scope.capabilities.function? name = some function →
    ∀ values value, Returns (function.run values) value →
      ∃ n : Int64, value = .number (.integer n) ∧ Int64.minValue < n

theorem mapM_holes {m : Type → Type} [Monad m] [LawfulMonad m] {α β : Type} (f : α → m β)
    (g : β → Text) (holes : List (Text × α)) :
    (holes.mapM fun hole => do
      let b ← f hole.2
      pure (hole.1, g b)) = (do
      let bs ← (holes.map (·.2)).mapM f
      pure ((holes.zip (bs.map g)).map fun hole => (hole.1.1, hole.2))) := by
  induction holes with
  | nil => simp
  | cons hole holes ih =>
      simp only [List.mapM_cons, List.map_cons, ih, bind_assoc, pure_bind, List.zip_cons_cons]

/-- The calls of a text are run from left to right, and their results put in their places. -/
theorem Scope.resolve_eq_refill {scope : Scope σ} {text : Text} {template : Template Call}
    (hcalls : findCalls scope.functions text = .ok template) :
    scope.resolve text = (do
      let values ← template.values.mapM scope.invoke
      pure (template.refill (values.map Value.display))) := by
  rw [resolve_eq, hcalls]
  simp only [mapM_holes scope.invoke Value.display template.holes, bind_assoc, pure_bind]
  rfl

/-! ## Evaluation -/

theorem exists_integers {values : List Value}
    (h : ∀ value ∈ values, ∃ n : Int64, value = .number (.integer n) ∧ Int64.minValue < n) :
    ∃ integers : List Int64, values = integers.map (fun n => .number (.integer n)) ∧
      ∀ n ∈ integers, Int64.minValue < n := by
  induction values with
  | nil => exact ⟨[], rfl, fun n hmem => nomatch hmem⟩
  | cons value values ih =>
      obtain ⟨n, rfl, hn⟩ := h value List.mem_cons_self
      obtain ⟨integers, rfl, hintegers⟩ :=
        ih fun other hmem => h other (List.mem_cons_of_mem _ hmem)
      exact ⟨n :: integers, rfl, List.forall_mem_cons.mpr ⟨hn, hintegers⟩⟩

/-- Calls are operands. Where all calls of an expression give integers, the expression comes to what
the formula comes to that is read with fresh names in the place of the calls, once the integers
take the place of the names. -/
theorem Scope.evaluate_eq_literal {scope : Scope σ} (hscope : scope.GivesIntegers) {text : Text}
    {template : Template Call} (hcalls : findCalls scope.functions text = .ok template)
    {names : List Text} (hfresh : template.Fresh names) {formula : Formula}
    (hread : Formula.ofText (template.refill (names.map setOff)).fill = .ok formula)
    {before after : σ} {values : List Value}
    (hvalues : (template.values.mapM scope.invoke).run before = .ok values after) :
    ∃ integers : List Int64, values = integers.map (fun n => .number (.integer n)) ∧
      (scope.evaluate text).run before =
        match (formula.substitute (Formula.integerOrName (names.zip integers))).literal
          (template.refill (values.map Value.display)).fill with
        | .ok literal => .ok literal after
        | .error error => .error (.evaluation error) after := by
  have hreturns := Returns.forall₂_of_mapM ⟨before, after, hvalues⟩
  have hlength : values.length = template.holes.length := by
    rw [← hreturns.length_eq, Template.values, List.length_map]
  have hgiven : ∀ value ∈ values, ∃ n : Int64, value = .number (.integer n) ∧
      Int64.minValue < n := by
    intro value hmem
    obtain ⟨call, _, hcall⟩ := exists_of_mem_forall₂ hreturns hmem
    obtain ⟨function, args, hfunction, hvalue⟩ := hcall.exists_function_of_invoke
    exact hscope call.name function hfunction args value hvalue
  obtain ⟨integers, rfl, hintegers⟩ := exists_integers hgiven
  refine ⟨integers, rfl, ?_⟩
  rw [List.length_map] at hlength
  rw [EStateM.run] at hvalues ⊢
  have htexts : (integers.map fun n => Value.number (.integer n)).map Value.display =
      integers.map fun n => integerText n.toInt := List.map_map
  have hresolve : scope.resolve text before =
      .ok (template.refill (integers.map fun n => integerText n.toInt)) after := by
    rw [resolve_eq_refill hcalls, run_bind_of_ok hvalues, htexts]
    rfl
  change (scope.resolve text >>= fun results => Effect.ofExcept id (settle results)) before = _
  rw [run_bind_of_ok hresolve, settle_refill hfresh hlength hintegers hread, htexts]
  cases (formula.substitute (Formula.integerOrName (names.zip integers))).literal
      (template.refill (integers.map fun n => integerText n.toInt)).fill with
  | ok literal => rfl
  | error error => rfl

def debts : Scope Unit where
  functions := [['f']]
  capabilities := Capabilities.empty.withFunction "f" [.number] fun values =>
    pure (.number (.integer (if values = [.number (.integer 1)] then -3 else -4)))

theorem givesIntegers_debts : debts.GivesIntegers := by
  intro name function hfunction values value h
  cases List.mem_singleton.mp (mem_of_lookup hfunction)
  rw [h.eq_of_pure]
  refine ⟨_, rfl, ?_⟩
  split
  · decide
  · decide

/-- Negative results behind signs and between operators. -/
theorem evaluate_eq_literal_debts :
    (debts.evaluate "2*-f(1)-f( 2 )/4".toList).run () = .ok ['7'] () := by
  have hcalls : findCalls debts.functions "2*-f(1)-f( 2 )/4".toList =
      .ok ⟨[("2*-".toList, ⟨['f'], [], ['1']⟩), (['-'], ⟨['f'], [], " 2 ".toList⟩)],
        "/4".toList⟩ := by
    with_unfolding_all rfl
  have hread : Formula.ofText "2*- p - q /4".toList =
      .ok (.binary (.binary (.number (.integer 2)) .mul (.signed .minus (.name ['p']))) .sub
        (.binary (.name ['q']) .div (.number (.integer 4)))) := by
    with_unfolding_all rfl
  have hvalues : (([⟨['f'], [], ['1']⟩, ⟨['f'], [], " 2 ".toList⟩] : List Call).mapM
      debts.invoke).run () = .ok [.number (.integer (-3)), .number (.integer (-4))] () := by
    with_unfolding_all rfl
  obtain ⟨integers, hintegers, hliteral⟩ := Scope.evaluate_eq_literal givesIntegers_debts hcalls
    (by with_unfolding_all decide : Template.Fresh _ [['p'], ['q']]) hread hvalues
  have hinjective : Function.Injective fun n : Int64 => Value.number (.integer n) :=
    fun n m h => by cases h; rfl
  obtain rfl : [-3, -4] = integers := List.map_injective_iff.mpr hinjective hintegers
  rw [hliteral]
  with_unfolding_all rfl

end Lindenmayer
