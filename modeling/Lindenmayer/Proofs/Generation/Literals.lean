import Lindenmayer.Proofs.Generation.Cut

/-!
# The parameters of a generation

A new parameter is what an expression of a successor evaluates to, and this is a number unless it is
the result of a call. Where all functions give numbers, every new parameter is the text of one. An
old parameter stays as it was read.
-/

namespace Lindenmayer

variable {σ : Type}

/-! ## Results of expressions -/

/-- A literal is what the text with the results in it comes to, unless nothing but blanks stands
around a single result. -/
theorem settle_cases {results : Template Text} {literal : Text}
    (h : settle results = .ok literal) :
    (∃ n, compute results.fill = .ok n ∧ literal = n.text) ∨
      ∃ before result rest, results = ⟨[(before, result)], rest⟩ ∧ before.isBlank = true ∧
        rest.isBlank = true ∧
          (literal = result ∨ ∃ n, compute result = .ok n ∧ literal = n.text) := by
  obtain heq | ⟨before, result, rest, hresults, hbefore, hrest, heq | ⟨n, hn, heq⟩⟩ :=
    settle_eq_or results
  · obtain ⟨n, hn, htext⟩ := Except.map_eq_ok_iff.mp (heq.symm.trans h)
    exact .inl ⟨n, hn, htext.symm⟩
  · cases heq.symm.trans h
    exact .inr ⟨before, _, rest, hresults, hbefore, hrest, .inl rfl⟩
  · cases heq.symm.trans h
    exact .inr ⟨before, _, rest, hresults, hbefore, hrest, .inr ⟨n, hn, rfl⟩⟩

/-- A literal is a number, or the result of the only call of its expression. -/
theorem number_or_mem_of_settle {results : Template Text} {literal : Text}
    (h : settle results = .ok literal) :
    (∃ n : Number, literal = n.text) ∨ literal ∈ results.values := by
  obtain ⟨n, -, rfl⟩ | ⟨before, result, rest, rfl, -, -, rfl | ⟨n, -, rfl⟩⟩ := settle_cases h
  · exact Or.inl ⟨n, rfl⟩
  · exact Or.inr List.mem_cons_self
  · exact Or.inl ⟨n, rfl⟩

def Scope.GivesNumbers (scope : Scope σ) : Prop :=
  ∀ name function, scope.capabilities.function? name = some function →
    ∀ values value, Returns (function.run values) value → ∃ n, value = .number n

namespace Returns

variable {scope : Scope σ}

/-- The result of a call is a result of the function that is called. -/
theorem exists_function_of_invoke {call : Call} {value : Value}
    (h : Returns (scope.invoke call) value) :
    ∃ function values, scope.capabilities.function? call.name = some function ∧
      Returns (function.run values) value := by
  rw [Scope.invoke_eq] at h
  cases hfunction : scope.capabilities.function? call.name with
  | none =>
      rw [hfunction] at h
      exact absurd h not_throw
  | some function =>
      cases hparams : Text.splitParameters call.inner with
      | error error =>
          rw [hfunction, hparams] at h
          exact absurd h not_throw
      | ok params =>
          simp only [hfunction, hparams] at h
          by_cases hcount : function.accepts params.length = true
          · rw [if_pos hcount] at h
            obtain ⟨literals, _, hcall⟩ := h.exists_of_bind
            obtain ⟨values, _, hvalue⟩ := hcall.exists_of_bind
            exact ⟨function, values, rfl, hvalue.of_ofHost⟩
          · rw [if_neg hcount] at h
            exact absurd h not_throw

theorem number_of_invoke (hnumbers : scope.GivesNumbers) {call : Call} {value : Value}
    (h : Returns (scope.invoke call) value) : ∃ n, value = .number n := by
  obtain ⟨function, values, hfunction, hvalue⟩ := h.exists_function_of_invoke
  exact hnumbers call.name function hfunction values value hvalue

theorem number_of_resolve (hnumbers : scope.GivesNumbers) {text : Text} {results : Template Text}
    (h : Returns (scope.resolve text) results) :
    ∀ result ∈ results.values, ∃ n : Number, result = n.text := by
  rw [Scope.resolve_eq] at h
  cases hcalls : findCalls scope.functions text with
  | error error =>
      rw [hcalls] at h
      exact absurd h not_throw
  | ok template =>
      rw [hcalls] at h
      obtain ⟨holes, hholes, h⟩ := h.exists_of_bind
      rw [h.eq_of_pure]
      intro result hmem
      obtain ⟨hole, hhole, rfl⟩ := List.mem_map.mp hmem
      obtain ⟨call, _, hcall⟩ := exists_of_mem_forall₂ hholes.forall₂_of_mapM hhole
      obtain ⟨value, hvalue, hpair⟩ := hcall.exists_of_bind
      obtain ⟨n, rfl⟩ := number_of_invoke hnumbers hvalue
      rw [hpair.eq_of_pure]
      exact ⟨n, rfl⟩

/-- Where functions give numbers, expressions come to numbers. -/
theorem number_of_evaluate (hnumbers : scope.GivesNumbers) {text literal : Text}
    (h : Returns (scope.evaluate text) literal) : ∃ n : Number, literal = n.text := by
  obtain ⟨results, hresults, h⟩ := h.exists_of_bind
  rcases number_or_mem_of_settle h.eq_ok_of_ofExcept with hnumber | hmem
  · exact hnumber
  · exact number_of_resolve hnumbers hresults literal hmem

end Returns

/-! ## Where symbols come from -/

namespace Returns

variable {scope : Scope σ}

/-- A symbol of the next generation is an old one, or it is evaluated from a successor. -/
theorem exists_origin_of_nextGeneration {rules : List Rule} {word next : Word}
    (h : Returns (scope.nextGeneration rules word) next) {symbol : Symbol} (hmem : symbol ∈ next) :
    symbol ∈ word ∨ ∃ rule ∈ rules, ∃ origin ∈ rule.successor, scope.Evaluates origin symbol := by
  obtain ⟨words, hwords, hflatten⟩ := h.exists_of_bind
  rw [hflatten.eq_of_pure] at hmem
  obtain ⟨part, hpart, hsymbol⟩ := List.mem_flatten.mp hmem
  obtain ⟨factor, hfactor, hreplace⟩ := exists_of_mem_forall₂ hwords.forall₂_of_mapM hpart
  have hcut := isCut_factors rules word
  cases factor with
  | copy symbol =>
      rw [hreplace.eq_of_pure] at hsymbol
      rw [List.mem_singleton.mp hsymbol, ← hcut.whole]
      exact Or.inl (List.mem_flatMap.mpr ⟨_, hfactor, List.mem_cons_self⟩)
  | apply rule found =>
      obtain ⟨before, after, hsplit⟩ := List.append_of_mem hfactor
      obtain ⟨⟨first, others, hrules, -, -⟩, -⟩ := hcut.fits before _ after hsplit
      have hrule : rule ∈ rules := hrules ▸ List.mem_append_right first List.mem_cons_self
      exact Or.inr ⟨rule, hrule, exists_of_mem_forall₂ hreplace.evaluates_of_instantiate hsymbol⟩

end Returns

end Lindenmayer
