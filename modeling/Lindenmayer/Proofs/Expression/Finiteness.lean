import Lindenmayer.Proofs.Formula.Finiteness
import Lindenmayer.Proofs.Generation.Literals

/-!
# Finite literals

Where functions give numbers, the literal that an expression evaluates to can be read as a number.
What is computed is finite, and finite numbers are read from their texts. The result of a call that
is all there is of an expression is not always computed, though: an infinity and what is no number
are kept as the words they are written as.
-/

namespace Lindenmayer

variable {σ : Type}

theorem isSome_ofText?_of_compute {source : Text} {n : Number} (h : compute source = .ok n) :
    (Number.ofText? n.text).isSome = true := by
  rw [Number.isSome_ofText?_text]
  exact (hasFiniteValue_of_compute h).1

/-- A settled literal can be read, or it is the only result and nothing but blanks is around it. -/
theorem isSome_ofText?_of_settle {results : Template Text} {literal : Text}
    (h : settle results = .ok literal) :
    (Number.ofText? literal).isSome = true ∨
      ∃ before rest, results = ⟨[(before, literal)], rest⟩ ∧ before.isBlank = true ∧
        rest.isBlank = true := by
  obtain ⟨n, hn, rfl⟩ | ⟨before, result, rest, rfl, hbefore, hrest, rfl | ⟨n, hn, rfl⟩⟩ :=
    settle_cases h
  · exact .inl (isSome_ofText?_of_compute hn)
  · exact .inr ⟨before, rest, rfl, hbefore, hrest⟩
  · exact .inl (isSome_ofText?_of_compute hn)

/-- A text with one result in it was a text with one call in it. -/
theorem Scope.exists_call_of_resolve {scope : Scope σ} {text first literal rest : Text}
    {before after : σ}
    (h : (scope.resolve text).run before = .ok ⟨[(first, literal)], rest⟩ after) :
    ∃ call value, findCalls scope.functions text = .ok ⟨[(first, call)], rest⟩ ∧
      (scope.invoke call).run before = .ok value after ∧ value.display = literal := by
  rw [EStateM.run, resolve_eq] at h
  cases hcalls : findCalls scope.functions text with
  | error error =>
      rw [hcalls] at h
      cases h
  | ok template =>
      rw [hcalls] at h
      obtain ⟨holes, between, hholes, hpure⟩ := run_bind_eq_ok_iff.mp h
      cases hpure
      obtain ⟨⟨piece, call⟩, hhole, hcall⟩ := run_mapM_eq_ok_singleton_iff.mp hholes
      obtain ⟨value, state, hvalue, hpair⟩ := run_bind_eq_ok_iff.mp hcall
      cases hpair
      refine ⟨call, value, ?_, hvalue, rfl⟩
      rw [← hhole]

/-- Where functions give numbers, what an expression evaluates to is read as a number. The only
exception is the result of a call with nothing but blanks around it, if it is not finite. -/
theorem Scope.isSome_ofText?_of_evaluate {scope : Scope σ} (hnumbers : scope.GivesNumbers)
    {text literal : Text} {before after : σ}
    (h : (scope.evaluate text).run before = .ok literal after) :
    (Number.ofText? literal).isSome = true ∨
      ∃ first call rest r, findCalls scope.functions text = .ok ⟨[(first, call)], rest⟩ ∧
        first.isBlank = true ∧ rest.isBlank = true ∧
          (scope.invoke call).run before = .ok (.number (.real r)) after ∧
            r.isFinite = false ∧ literal = realText r := by
  obtain ⟨results, between, hresults, hsettle⟩ := run_bind_eq_ok_iff.mp h
  cases hsettled : settle results with
  | error error =>
      rw [hsettled] at hsettle
      cases hsettle
  | ok settled =>
      rw [hsettled] at hsettle
      cases hsettle
      obtain hread | ⟨first, rest, rfl, hfirst, hrest⟩ := isSome_ofText?_of_settle hsettled
      · exact .inl hread
      · obtain ⟨call, value, hcalls, hvalue, rfl⟩ := exists_call_of_resolve hresults
        obtain ⟨n, rfl⟩ := Returns.number_of_invoke hnumbers ⟨before, after, hvalue⟩
        have hread : (Number.ofText? (Value.number n).display).isSome = n.isFinite :=
          n.isSome_ofText?_text
        cases hfinite : n.isFinite with
        | true => exact .inl (hread.trans hfinite)
        | false =>
            cases n with
            | integer n => cases hfinite
            | real r =>
                exact .inr ⟨first, call, rest, r, hcalls, hfirst, hrest, hvalue, hfinite, rfl⟩

def poles : Scope Unit where
  functions := [['f']]
  capabilities := Capabilities.empty.withFunction "f" [.number] fun values =>
    pure (.number (.real (if values = [.number (.integer 2)] then 0.5 else infinity)))

theorem givesNumbers_poles : poles.GivesNumbers := by
  intro name function hfunction values value h
  cases List.mem_singleton.mp (mem_of_lookup hfunction)
  rw [h.eq_of_pure]
  exact ⟨_, rfl⟩

/-- The results of calls in and next to other operands are computed with. -/
theorem isSome_ofText?_of_evaluate_poles :
    (poles.evaluate "1/f(f(2)*4)".toList).run () = .ok ['2'] () ∧
      (Number.ofText? ['2']).isSome = true := by
  have hrun : (poles.evaluate "1/f(f(2)*4)".toList).run () = .ok ['2'] () := by
    with_unfolding_all rfl
  have hcall : findCalls poles.functions "1/f(f(2)*4)".toList =
      .ok ⟨[("1/".toList, ⟨['f'], [], "f(2)*4".toList⟩)], []⟩ := by
    with_unfolding_all rfl
  refine ⟨hrun, ?_⟩
  obtain hread | ⟨first, call, rest, r, hcalls, hfirst, -⟩ :=
    Scope.isSome_ofText?_of_evaluate givesNumbers_poles hrun
  · exact hread
  · rw [hcall] at hcalls
    cases hcalls
    cases hfirst

/-- The infinity is kept as a word where its call stands alone. -/
theorem not_isSome_ofText?_of_evaluate :
    ¬∀ (σ : Type) (scope : Scope σ), scope.GivesNumbers →
      ∀ (text literal : Text) (before after : σ),
        (scope.evaluate text).run before = .ok literal after →
          (Number.ofText? literal).isSome = true := by
  intro h
  have hrun : (poles.evaluate "f(0)".toList).run () = .ok "inf".toList () := by
    with_unfolding_all rfl
  exact absurd (h Unit poles givesNumbers_poles _ _ _ _ hrun) (by decide)

end Lindenmayer
