import Lindenmayer.Proofs.Expression.Atoms
import Lindenmayer.Proofs.Formula.Finiteness
import Lindenmayer.Proofs.Formula.Neighbours
import Lindenmayer.Proofs.Text.Call
import Mathlib.Data.Set.List

/-!
# Calls and their neighbours

The results of calls are put into the text of an expression as they are, so an expression that is
not read with names in the place of its calls can have a value all the same: where a result runs
into its neighbours, where a negative one makes its minus an operator, and where white space that is
no layout stands around a single call. Everywhere else such an expression fails.
-/

namespace Lindenmayer

variable {σ : Type}

theorem Template.refill_refill {α β γ : Type} {template : Template α} {values : List β}
    (hlength : values.length = template.holes.length) (others : List γ) :
    (template.refill values).refill others = template.refill others := by
  have hholes (holes : List (Text × α)) (values : List β) (others : List γ)
      (hlength : values.length = holes.length) :
      (((holes.zip values).map fun hole => (hole.1.1, hole.2)).zip others).map
          (fun hole => (hole.1.1, hole.2)) =
        (holes.zip others).map fun hole => (hole.1.1, hole.2) := by
    induction holes generalizing values others with
    | nil => rfl
    | cons hole holes ih =>
        obtain ⟨value, values, rfl⟩ := List.exists_cons_of_length_eq_add_one hlength
        cases others with
        | nil => rfl
        | cons other others => exact congrArg _ (ih values others (Nat.succ.inj hlength))
  exact congrArg (Template.mk · template.rest) (hholes template.holes values others hlength)

theorem Template.length_holes_refill {α β : Type} {template : Template α} {values : List β}
    (hlength : values.length = template.holes.length) :
    (template.refill values).holes.length = template.holes.length := by
  rw [refill, List.length_map, List.length_zip, hlength, Nat.min_self]

theorem Template.exists_of_refill {α β : Type} {template : Template α} {values : List β}
    (hlength : values.length = template.holes.length) {before rest : Text} {value : β}
    (h : template.refill values = ⟨[(before, value)], rest⟩) :
    ∃ a, template = ⟨[(before, a)], rest⟩ := by
  have hone := length_holes_refill hlength
  rw [h] at hone
  obtain ⟨holes, last⟩ := template
  obtain ⟨⟨piece, a⟩, rfl⟩ := List.length_eq_one_iff.mp hone.symm
  obtain ⟨other, rfl⟩ := List.length_eq_one_iff.mp hlength
  cases h
  exact ⟨a, rfl⟩

def Scope.GivesOnlyIntegers (scope : Scope σ) : Prop :=
  ∀ name function, scope.capabilities.function? name = some function →
    ∀ values value, Returns (function.run values) value →
      ∃ n : Int64, value = .number (.integer n)

theorem exists_integers_of_mapM {scope : Scope σ} (hscope : scope.GivesOnlyIntegers)
    {calls : List Call} {values : List Value} (h : Returns (calls.mapM scope.invoke) values) :
    ∃ integers : List Int64, integers.map (fun n => .number (.integer n)) = values := by
  have hrange : values ∈ Set.range (List.map fun n : Int64 => Value.number (.integer n)) := by
    rw [Set.range_list_map]
    intro value hmem
    obtain ⟨call, _, hcall⟩ := exists_of_mem_forall₂ h.forall₂_of_mapM hmem
    obtain ⟨function, args, hfunction, hvalue⟩ := hcall.exists_function_of_invoke
    obtain ⟨n, rfl⟩ := hscope call.name function hfunction args value hvalue
    exact ⟨n, rfl⟩
  exact hrange

/-- Blanks around a single result have no effect. -/
theorem settle_eq_alone {before rest : Text} (hbefore : before.isBlank = true)
    (hrest : rest.isBlank = true) (result : Text) :
    settle ⟨[(before, result)], rest⟩ = settle ⟨[([], result)], []⟩ := by
  have hblank : (before.isBlank && rest.isBlank) = true := by
    rw [hbefore, hrest]
    rfl
  rw [settle, if_pos hblank]
  rfl

section

variable {scope : Scope σ} {text : Text} {template : Template Call}
  (hcalls : findCalls scope.functions text = .ok template)
include hcalls

/-- The results of calls are not computed with where names are refused, unless one of them fuses. -/
theorem fuses_of_compute {names : List Text} (hlength : names.length = template.holes.length)
    (hnames : ∀ name ∈ names, isName name = true) {refusal : ParseError}
    (hread : Formula.ofText (template.refill (names.map setOff)).fill = .error refusal)
    {integers : List Int64} (hcount : integers.length = template.holes.length) {n : Number}
    (hcompute : compute (template.refill integers).fillIntegers = .ok n) :
    (template.refill integers).fuses = true := by
  obtain ⟨formula, hformula, -⟩ := compute_eq_ok_iff.mp hcompute
  have hends hole (hmem : hole ∈ (template.refill integers).holes) :
      Text.Stops isIdentifierChar hole.1.reverse := by
    obtain ⟨pair, hpair, rfl⟩ := List.mem_map.mp hmem
    exact stops_of_findCalls hcalls pair.1 (List.of_mem_zip hpair).1
  cases hfuses : (template.refill integers).fuses with
  | true => rfl
  | false =>
      have hholes := hlength.trans (Template.length_holes_refill hcount).symm
      obtain ⟨named, hnamed⟩ :=
        Formula.exists_ofText_refill hholes hnames hends hfuses hformula
      rw [Template.refill_refill hcount, hread] at hnamed
      cases hnamed

/-- What is evaluated from integers, if anything is. -/
theorem Scope.exists_integers_of_evaluate (hscope : scope.GivesOnlyIntegers) {literal : Text}
    {before after : σ} (h : (scope.evaluate text).run before = .ok literal after) :
    ∃ integers : List Int64, integers.length = template.holes.length ∧
      (template.values.mapM scope.invoke).run before =
          .ok (integers.map fun n => .number (.integer n)) after ∧
        settle ((template.refill integers).map fun n => integerText n.toInt) = .ok literal := by
  obtain ⟨results, between, hresolve, hsettle⟩ := run_bind_eq_ok_iff.mp h
  rw [resolve_eq_refill hcalls] at hresolve
  obtain ⟨values, state, hvalues, hresults⟩ := run_bind_eq_ok_iff.mp hresolve
  cases hresults
  have hreturns : Returns (template.values.mapM scope.invoke) values := ⟨before, between, hvalues⟩
  obtain ⟨integers, rfl⟩ := exists_integers_of_mapM hscope hreturns
  have hcount : integers.length = template.holes.length := by
    have hboth := hreturns.forall₂_of_mapM.length_eq
    rw [Template.values, List.length_map, List.length_map] at hboth
    exact hboth.symm
  have htexts : (template.refill integers).map (fun n => integerText n.toInt) =
      template.refill ((integers.map fun n => Value.number (.integer n)).map Value.display) := by
    rw [Template.map_refill, List.map_map]
    rfl
  rw [← htexts] at hsettle
  cases hsettled : settle ((template.refill integers).map fun n => integerText n.toInt) with
  | error error =>
      rw [hsettled] at hsettle
      cases hsettle
  | ok settled =>
      rw [hsettled] at hsettle
      cases hsettle
      exact ⟨integers, hcount, hvalues, hsettled⟩

/-- An expression that is not read with names in the place of its calls fails, unless one of their
results fuses with its neighbours or nothing but white space stands around a single call. In the
latter case the expression comes to what the result alone comes to. -/
theorem Scope.fails_or_fuses (hscope : scope.GivesOnlyIntegers) {names : List Text}
    (hlength : names.length = template.holes.length) (hnames : ∀ name ∈ names, isName name = true)
    {refusal : ParseError}
    (hread : Formula.ofText (template.refill (names.map setOff)).fill = .error refusal)
    (before : σ) :
    (∃ error after, (scope.evaluate text).run before = .error error after) ∨
      (∃ integers after,
        (template.values.mapM scope.invoke).run before =
            .ok (integers.map fun n => .number (.integer n)) after ∧
          (template.refill integers).fuses = true) ∨
      ∃ first call rest n literal after, template = ⟨[(first, call)], rest⟩ ∧
        first.isBlank = true ∧ rest.isBlank = true ∧
          (scope.invoke call).run before = .ok (.number (.integer n)) after ∧
            settle ⟨[([], integerText n.toInt)], []⟩ = .ok literal ∧
              (scope.evaluate text).run before = .ok literal after := by
  cases hrun : (scope.evaluate text).run before with
  | error error after => exact .inl ⟨error, after, rfl⟩
  | ok literal after =>
      right
      obtain ⟨integers, hcount, hvalues, hsettle⟩ := exists_integers_of_evaluate hcalls hscope hrun
      obtain ⟨n, hcompute, -⟩ | ⟨first, result, rest, hsingle, hfirst, hrest, -⟩ :=
        settle_cases hsettle
      · left
        have hfuses := fuses_of_compute hcalls hlength hnames hread hcount hcompute
        exact ⟨integers, after, hvalues, hfuses⟩
      · right
        rw [Template.map_refill] at hsettle hsingle
        obtain ⟨call, rfl⟩ := Template.exists_of_refill (by simp [hcount]) hsingle
        obtain ⟨n, rfl⟩ := List.length_eq_one_iff.mp hcount
        obtain ⟨found, hfound, hcall⟩ := run_mapM_eq_ok_singleton_iff.mp hvalues
        cases hfound
        refine ⟨first, call, rest, n, literal, after, rfl, hfirst, hrest, hcall, ?_, rfl⟩
        rw [← settle_eq_alone hfirst hrest]
        exact hsettle

end

def swings : Scope Unit where
  functions := [['f']]
  capabilities := Capabilities.empty.withFunction "f" [.number] fun values =>
    pure (.number (.integer (if values = [.number (.integer 1)] then 2 else -2)))

theorem givesOnlyIntegers_swings : swings.GivesOnlyIntegers := by
  intro name function hfunction values value h
  cases List.mem_singleton.mp (mem_of_lookup hfunction)
  rw [h.eq_of_pure]
  exact ⟨_, rfl⟩

/-- A positive result behind an operand does not go on with it. -/
theorem fails_or_fuses_swings :
    ∃ error after, (swings.evaluate "3*(4 f(1)) - f(2)".toList).run () = .error error after := by
  have hcalls : findCalls swings.functions "3*(4 f(1)) - f(2)".toList =
      .ok ⟨[("3*(4 ".toList, ⟨['f'], [], ['1']⟩), (") - ".toList, ⟨['f'], [], ['2']⟩)], []⟩ := by
    with_unfolding_all rfl
  have hread : Formula.ofText "3*(4  p ) -  q ".toList =
      .error (.unexpectedToken ['p'] "3*(4  p ) -  q ".toList) := by
    with_unfolding_all rfl
  have hvalues :
      (([⟨['f'], [], ['1']⟩, ⟨['f'], [], ['2']⟩] : List Call).mapM swings.invoke).run () =
        .ok [.number (.integer 2), .number (.integer (-2))] () := by
    with_unfolding_all rfl
  have hnames : ∀ name ∈ [['p'], ['q']], isName name = true := by decide
  obtain hfails | ⟨integers, after, hrun, hfuses⟩ |
      ⟨first, call, rest, n, literal, after, heq, -⟩ :=
    Scope.fails_or_fuses hcalls givesOnlyIntegers_swings rfl hnames hread ()
  · exact hfails
  · have hinjective : Function.Injective fun n : Int64 => Value.number (.integer n) :=
      fun n m h => by cases h; rfl
    have hmapped := EStateM.Result.ok.inj (hvalues.symm.trans hrun)
    obtain rfl : [2, -2] = integers := List.map_injective_iff.mpr hinjective hmapped.1
    exact absurd hfuses (by with_unfolding_all decide)
  · cases heq

/-- Two results side by side are read as one number. -/
theorem not_fails_of_refused :
    ¬∀ (σ : Type) (scope : Scope σ), scope.GivesOnlyIntegers →
      ∀ (text : Text) (template : Template Call), findCalls scope.functions text = .ok template →
        ∀ names, template.Fresh names → ∀ refusal,
          Formula.ofText (template.refill (names.map setOff)).fill = .error refusal →
            ∀ before, ∃ error after, (scope.evaluate text).run before = .error error after := by
  intro h
  have hcalls : findCalls swings.functions "f(1)f(1)".toList =
      .ok ⟨[([], ⟨['f'], [], ['1']⟩), ([], ⟨['f'], [], ['1']⟩)], []⟩ := by
    with_unfolding_all rfl
  have hread : Formula.ofText " p  q ".toList =
      .error (.unexpectedTrailingTokens ['q'] " p  q ".toList) := by
    with_unfolding_all rfl
  have hrun : (swings.evaluate "f(1)f(1)".toList).run () = .ok "22".toList () := by
    with_unfolding_all rfl
  obtain ⟨error, after, hfails⟩ := h Unit swings givesOnlyIntegers_swings _ _ hcalls
    [['p'], ['q']] (by with_unfolding_all decide) _ hread ()
  cases hrun.symm.trans hfails

end Lindenmayer
