import Lindenmayer.Proofs.Outcome
import Lindenmayer.Proofs.Text.CallSpan

/-!
# The interior of a group

What a group holds is balanced, and so are the parameters in it, with their blanks or without. In a
balanced text every parenthesis that opens a group is followed by the one that closes it. No scan of
such a text comes to a group that is never closed, wherever it starts and whatever the function
names are.
-/

namespace Lindenmayer

namespace Text

variable {depth : Int} {text : Text}

/-! ## Parts of balanced texts -/

theorem nesting_append (u v : Text) : nesting (u ++ v) = nesting u + nesting v := by
  simp only [nesting, List.count_append, Int.natCast_add]
  omega

theorem Closes.of_append {u v : Text} (hcloses : Closes depth (u ++ v)) :
    Closes (depth + nesting u) v where
  start_nonneg := by
    intro start hstart
    rw [Int.add_assoc, ← nesting_append]
    exact hcloses.start_nonneg (u ++ start) ((List.prefix_append_right_inj u).mpr hstart)
  closed := by
    rw [Int.add_assoc, ← nesting_append]
    exact hcloses.closed

theorem Closes.left_of_append {u v : Text} (hcloses : Closes depth (u ++ v))
    (hv : nesting v = 0) : Closes depth u where
  start_nonneg := fun start hstart =>
    hcloses.start_nonneg start (hstart.trans (List.prefix_append u v))
  closed := by
    have hclosed := hcloses.closed
    rwa [nesting_append, hv, Int.add_zero] at hclosed

theorem nesting_blanks {blanks : Text} (hblanks : blanks.all isBlankChar = true) :
    nesting blanks = 0 := by
  have hnot {c : Char} (hc : isBlankChar c = false) : c ∉ blanks := fun hmem => by
    rw [List.all_eq_true.mp hblanks c hmem] at hc
    cases hc
  have hcloses := closes_of_not_mem (hnot not_isBlankChar_openParen)
    (hnot not_isBlankChar_closeParen)
  rw [← Int.zero_add (nesting blanks)]
  exact hcloses.closed

theorem Closes.trim (hcloses : Closes depth text) : Closes depth text.trim := by
  obtain ⟨before, after, hbefore, hafter, htext⟩ := exists_trim_pad text
  rw [htext] at hcloses
  have hrest := hcloses.of_append
  rw [nesting_blanks hbefore, Int.add_zero] at hrest
  exact hrest.left_of_append (nesting_blanks hafter)

/-! ## Scans of balanced texts -/

/-- The groups that are open in front of a text, but for some that the text leaves to what follows,
are closed in it. -/
theorem Closes.exists_splitGroup? {depth : Nat} {outer : Int} (houter : 0 ≤ outer)
    (hdepth : 0 < depth) (hcloses : Closes (outer + depth) text) :
    ∃ inner rest, splitGroup? depth text = some (inner, rest) ∧ Closes outer rest := by
  induction text generalizing depth with
  | nil =>
      have hnone := closes_nil.mp hcloses
      omega
  | cons c text ih =>
      obtain ⟨-, hrest⟩ := closes_cons.mp hcloses
      by_cases hopen : c = '('
      · subst hopen
        rw [nesting_openParen, Int.add_assoc, ← Int.natCast_succ] at hrest
        obtain ⟨inner, rest, hcut, hleft⟩ := ih (Nat.succ_pos depth) hrest
        exact ⟨'(' :: inner, rest, by rw [splitGroup?_openParen, hcut]; rfl, hleft⟩
      by_cases hclose : c = ')'
      · subst hclose
        obtain _ | _ | depth := depth
        · exact absurd hdepth (Nat.lt_irrefl 0)
        · rw [Int.add_assoc, succ_add_nesting_closeParen, Int.natCast_zero, Int.add_zero] at hrest
          exact ⟨[], text, rfl, hrest⟩
        · rw [Int.add_assoc, succ_add_nesting_closeParen] at hrest
          obtain ⟨inner, rest, hcut, hleft⟩ := ih (Nat.succ_pos depth) hrest
          exact ⟨')' :: inner, rest, by rw [splitGroup?_closeParen, hcut]; rfl, hleft⟩
      · rw [nesting_of_ne hopen hclose, Int.add_zero] at hrest
        obtain ⟨inner, rest, hcut, hleft⟩ := ih hdepth hrest
        exact ⟨c :: inner, rest, by rw [splitGroup?_of_ne depth hopen hclose, hcut]; rfl, hleft⟩

theorem Closes.exists_takeParameter? {depth : Nat} (hcloses : Closes depth text) :
    ∃ parameter rest, takeParameter? depth text = some (parameter, rest) := by
  induction text generalizing depth with
  | nil =>
      have hdepth : depth = 0 := by simpa using hcloses
      subst hdepth
      exact ⟨[], none, rfl⟩
  | cons c text ih =>
      obtain ⟨-, hrest⟩ := closes_cons.mp hcloses
      by_cases hopen : c = '('
      · subst hopen
        have hinner : Closes (depth + 1 : Nat) text := hrest
        obtain ⟨parameter, rest, htake⟩ := ih hinner
        exact ⟨_, rest, by rw [takeParameter?_openParen, htake]; rfl⟩
      by_cases hclose : c = ')'
      · subst hclose
        cases depth with
        | zero => exact absurd hrest.nonneg (by decide)
        | succ depth =>
            rw [succ_add_nesting_closeParen] at hrest
            obtain ⟨parameter, rest, htake⟩ := ih hrest
            exact ⟨_, rest, by rw [takeParameter?_closeParen, htake]; rfl⟩
      by_cases hcomma : c = ',' ∧ depth = 0
      · obtain ⟨rfl, rfl⟩ := hcomma
        exact ⟨[], some text, takeParameter?_comma text⟩
      · rw [nesting_of_ne hopen hclose, Int.add_zero] at hrest
        obtain ⟨parameter, rest, htake⟩ := ih hrest
        exact ⟨_, rest, by rw [takeParameter?_of_ne depth hopen hclose hcomma, htake]; rfl⟩

/-- Behind the comma after a parameter, a balanced text is balanced. -/
theorem Closes.rest_of_takeParameter? {parameter rest : Text} (hcloses : Closes 0 text)
    (htake : takeParameter? 0 text = some (parameter, some rest)) : Closes 0 rest := by
  have hparameter := (closes_of_takeParameter? htake).1.closed
  have htext := eq_of_takeParameter? htake
  rw [Option.elim_some] at htext
  rw [htext] at hcloses
  have hcomma := hcloses.of_append
  rw [Int.natCast_zero] at hparameter
  rw [hparameter] at hcomma
  exact (closes_cons.mp hcomma).2

theorem splitParametersOf_ne_unbalanced {whole : Text} (hcloses : Closes 0 text) (source : Text) :
    splitParametersOf whole text ≠ .error (.unbalancedParentheses source) := by
  fun_induction splitParametersOf whole text with
  | case1 text htake =>
      have hbalanced : Closes (0 : Nat) text := hcloses
      obtain ⟨parameter, rest, hsome⟩ := hbalanced.exists_takeParameter?
      rw [htake] at hsome
      cases hsome
  | case2 => exact fun h => by cases h
  | case3 => exact fun h => by cases h
  | case4 text first hblank rest _ htake ih =>
      intro h
      exact ih (hcloses.rest_of_takeParameter? htake) (Except.map_eq_error_iff.mp h)

/-- A balanced parameter list can only be refused for a blank parameter. -/
theorem Closes.splitParameters_ne_unbalanced (hcloses : Closes 0 text) (source : Text) :
    splitParameters text ≠ .error (.unbalancedParentheses source) := by
  cases hblank : text.isBlank with
  | true =>
      rw [splitParameters_of_isBlank hblank]
      exact nofun
  | false =>
      rw [splitParameters_of_notBlank hblank]
      exact splitParametersOf_ne_unbalanced hcloses source

end Text

/-- A balanced text has no call that is never closed. Where a call begins, the group behind its name
is closed in the text, whether the name has parentheses or not. -/
theorem Text.Closes.exists_findCallsFrom? {depth : Int} {text : Text}
    (hcloses : Text.Closes depth text) (functions : List Text) (boundary : Bool) :
    ∃ template, findCallsFrom? functions boundary text = some template := by
  have hinside {text name gap inside : Text} {boundary : Bool} {depth : Int}
      (hcloses : Text.Closes depth text)
      (hhead : (if boundary then Call.firstHead? functions text else none) =
        some (name, gap, inside)) :
      ∃ outer inner rest, Text.splitGroup? 1 inside = some (inner, rest) ∧
        Text.Closes outer rest := by
    cases boundary with
    | false => cases hhead
    | true =>
        rw [Call.eq_of_firstHead? hhead] at hcloses
        obtain ⟨houter, hgroup⟩ := Text.closes_cons.mp hcloses.of_append
        exact ⟨_, Text.Closes.exists_splitGroup? houter Nat.one_pos hgroup⟩
  fun_induction findCallsFrom? functions boundary text generalizing depth with
  | case1 => exact ⟨_, rfl⟩
  | case2 boundary c text _ ih =>
      obtain ⟨template, htemplate⟩ := ih (Text.closes_cons.mp hcloses).2
      exact ⟨_, by rw [htemplate]; rfl⟩
  | case3 boundary c text name gap inside hhead hgroup =>
      obtain ⟨_, inner, rest, hsome, -⟩ := hinside hcloses hhead
      rw [hgroup] at hsome
      cases hsome
  | case4 boundary c text name gap inside hhead inner rest hgroup ih =>
      obtain ⟨outer, _, _, hsome, hrest⟩ := hinside hcloses hhead
      rw [hgroup] at hsome
      cases hsome
      obtain ⟨template, htemplate⟩ := ih hrest
      exact ⟨_, by rw [htemplate]; rfl⟩

theorem Text.Closes.exists_findCalls {depth : Int} {text : Text} (hcloses : Text.Closes depth text)
    (functions : List Text) : ∃ template, findCalls functions text = .ok template := by
  obtain ⟨template, htemplate⟩ := hcloses.exists_findCallsFrom? functions true
  exact ⟨template, findCalls_eq_ok_iff.mpr htemplate⟩

/-- The parenthesis that is found for one that opens a group ends a balanced text. -/
theorem Text.exists_of_matchingParen {before inside : Text} {close : Nat}
    (h : Text.matchingParen (before ++ '(' :: inside) before.utf8Length = .ok close) :
    ∃ inner rest, inside = inner ++ ')' :: rest ∧
      close = before.utf8Length + 1 + inner.utf8Length ∧ Text.Closes 0 inner := by
  rw [Text.matchingParen, Text.dropBytes_append, Text.splitGroup?_openParen] at h
  cases hgroup : Text.splitGroup? 1 inside with
  | none =>
      rw [hgroup] at h
      cases h
  | some cut =>
      obtain ⟨inner, rest⟩ := cut
      rw [hgroup] at h
      have hinner : Text.Closes (1 - 1) inner := Text.closes_of_splitGroup? Nat.one_pos hgroup
      refine ⟨inner, rest, Text.eq_of_splitGroup? hgroup, ?_, hinner⟩
      rw [Nat.add_assoc]
      exact (Except.ok.inj h).symm

/-! ## The calls of a text -/

theorem Call.Scans.exists_of_mem_values {functions : List Text}
    {reached rest before after : Text} {template : Template Call}
    (hscans : Call.Scans functions reached rest before after template) {call : Call}
    (hmem : call ∈ template.values) :
    ∃ u v, before ++ after = u ++ (call.text ++ v) ∧ Call.Stands functions u call v := by
  induction hscans with
  | stay => cases hmem
  | pass _ _ ih =>
      rw [Template.values_pushChar] at hmem
      obtain ⟨u, v, htext, hstands⟩ := ih hmem
      rw [List.append_assoc, List.singleton_append] at htext
      exact ⟨u, v, htext, hstands⟩
  | @call before after other template hstands _ ih =>
      rw [Template.values_pushHole] at hmem
      rcases List.mem_cons.mp hmem with rfl | hmem
      · exact ⟨before, after, rfl, hstands⟩
      · obtain ⟨u, v, htext, hcall⟩ := ih hmem
        rw [List.append_assoc] at htext
        exact ⟨u, v, htext, hcall⟩

/-- Each outermost call of a text stands somewhere in it. -/
theorem exists_stands_of_mem_outermostCalls {functions : List Text} {text : Text} {call : Call}
    (hmem : call ∈ outermostCalls functions text) :
    ∃ u v, text = u ++ (call.text ++ v) ∧ Call.Stands functions u call v := by
  cases hfind : findCalls functions text with
  | error error => simp [outermostCalls, hfind] at hmem
  | ok template =>
      rw [outermostCalls, hfind] at hmem
      have hstart : true = true ↔ Text.Stops isIdentifierChar (List.reverse []) :=
        iff_of_true rfl (Text.stops_nil _)
      have hscans : Call.Scans functions text [] [] text template :=
        Call.scans_of_findCallsFrom? hstart (findCalls_eq_ok_iff.mp hfind)
      exact hscans.exists_of_mem_values hmem

end Lindenmayer
