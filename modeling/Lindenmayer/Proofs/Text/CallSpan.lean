import Lindenmayer.Proofs.Text.Call
import Lindenmayer.Proofs.Text.Offset

/-!
# Where the calls of a text stand

The scan for calls goes through a text from the left and passes over each whole call. It finds a
call at every place where one can begin outside the calls found before, and it fails exactly if it
comes to a call whose parenthesis is never closed. The places of the calls are reported in bytes.
-/

namespace Lindenmayer

namespace Call

/-! ## Where a call can begin -/

/-- The name begins the text and is not continued by an identifier character, and a parenthesis
follows, after blanks if any. -/
def Begins (name text : Text) : Prop :=
  name ≠ [] ∧ ∃ rest, text = name ++ rest ∧ Text.Stops isIdentifierChar rest ∧
    rest.trimStart.head? = some '('

def IsFirst (functions : List Text) (text name : Text) : Prop :=
  ∃ earlier later, functions = earlier ++ name :: later ∧ Begins name text ∧
    ∀ other ∈ earlier, ¬Begins other text

/-- A call can begin between the two parts of a text: no identifier runs on from the first part, and
a function begins the second. -/
structure CanBegin (functions : List Text) (before after : Text) : Prop where
  boundary : Text.Stops isIdentifierChar before.reverse
  begins : ∃ name ∈ functions, Begins name after

def Callable (functions : List Text) (text : Text) (offset : Nat) : Prop :=
  ∃ before after, text = before ++ after ∧ before.utf8Length = offset ∧
    CanBegin functions before after

/-- The call stands between the two parts of a text, as the first function that can begin there, and
its group ends where the parenthesis that opens it is closed. -/
structure Stands (functions : List Text) (before : Text) (call : Call) (after : Text) : Prop where
  boundary : Text.Stops isIdentifierChar before.reverse
  first : IsFirst functions (call.text ++ after) call.name
  gap : call.gap.isBlank = true
  inner : Text.Closes 0 call.inner

/-- A call begins between the two parts of a text whose parenthesis is never closed. -/
def Unclosed (functions : List Text) (before after : Text) : Prop :=
  Text.Stops isIdentifierChar before.reverse ∧
    ∃ name gap inside, after = name ++ gap ++ '(' :: inside ∧ gap.isBlank = true ∧
      IsFirst functions after name ∧
        ∀ inner rest, inside = inner ++ ')' :: rest → ¬Text.Closes 0 inner

theorem text_append (call : Call) (after : Text) :
    call.text ++ after = call.name ++ call.gap ++ '(' :: (call.inner ++ ')' :: after) := by
  simp [text]

theorem begins_iff {name text : Text} :
    Begins name text ↔ ∃ gap inside, head? name text = some (gap, inside) := by
  constructor
  · rintro ⟨hname, rest, rfl, -, hparen⟩
    obtain ⟨inside, hinside⟩ := List.head?_eq_some_iff.mp hparen
    have hrest : name ++ rest = name ++ rest.takeWhile isBlankChar ++ '(' :: inside := by
      rw [List.append_assoc, ← hinside]
      exact congrArg (name ++ ·) List.takeWhile_append_dropWhile.symm
    exact ⟨_, inside, head?_eq_some_iff.mpr ⟨hname, List.all_takeWhile, hrest⟩⟩
  · rintro ⟨gap, inside, hhead⟩
    obtain ⟨hname, hgap, rfl⟩ := head?_eq_some_iff.mp hhead
    have hparen : Text.Stops isBlankChar ('(' :: inside) :=
      Text.stops_cons.mpr not_isBlankChar_openParen
    refine ⟨hname, gap ++ '(' :: inside, List.append_assoc _ _ _, ?_, ?_⟩
    · cases gap with
      | nil => exact Text.stops_cons.mpr (by decide)
      | cons c gap =>
          rw [List.all_cons, Bool.and_eq_true] at hgap
          exact Text.stops_cons.mpr (not_isIdentifierChar_of_isBlankChar hgap.1)
    · rw [Text.trimStart, Text.dropWhile_append_of_stops hgap hparen]
      rfl

theorem head?_eq_none_iff {name text : Text} : head? name text = none ↔ ¬Begins name text := by
  rw [begins_iff]
  cases head? name text with
  | none => simp
  | some head => exact iff_of_false (by simp) fun hnone => hnone ⟨head.1, head.2, rfl⟩

theorem firstHead?_eq_none_iff {functions : List Text} {text : Text} :
    firstHead? functions text = none ↔ ¬∃ name ∈ functions, Begins name text := by
  simp [firstHead?, List.findSome?_eq_none_iff, head?_eq_none_iff]

theorem firstHead?_eq_some_iff {functions : List Text} {text name gap inside : Text} :
    firstHead? functions text = some (name, gap, inside) ↔
      IsFirst functions text name ∧ gap.isBlank = true ∧ text = name ++ gap ++ '(' :: inside := by
  rw [firstHead?, List.findSome?_eq_some_iff]
  constructor
  · rintro ⟨earlier, found, later, hfunctions, hfound, hearlier⟩
    obtain ⟨_, hhead, hpair⟩ := Option.map_eq_some_iff.mp hfound
    cases hpair
    obtain ⟨-, hgap, htext⟩ := head?_eq_some_iff.mp hhead
    refine ⟨⟨earlier, later, hfunctions, begins_iff.mpr ⟨gap, inside, hhead⟩, ?_⟩, hgap, htext⟩
    intro other hmem
    exact head?_eq_none_iff.mp (Option.map_eq_none_iff.mp (hearlier other hmem))
  · rintro ⟨⟨earlier, later, hfunctions, ⟨hname, -⟩, hearlier⟩, hgap, htext⟩
    refine ⟨earlier, name, later, hfunctions, ?_, fun other hmem => ?_⟩
    · rw [head?_eq_some_iff.mpr ⟨hname, hgap, htext⟩]
      rfl
    · rw [head?_eq_none_iff.mpr (hearlier other hmem)]
      rfl

theorem IsFirst.exists_mem {functions : List Text} {text name : Text}
    (hfirst : IsFirst functions text name) : ∃ name ∈ functions, Begins name text := by
  obtain ⟨earlier, later, rfl, hbegins, -⟩ := hfirst
  exact ⟨name, List.mem_append_right earlier List.mem_cons_self, hbegins⟩

theorem Stands.canBegin {functions : List Text} {before after : Text} {call : Call}
    (hstands : Stands functions before call after) :
    CanBegin functions before (call.text ++ after) :=
  ⟨hstands.boundary, hstands.first.exists_mem⟩

/-! ## The scan -/

/-- From the place between `before` and `after`, the scan comes to the place between `reached` and
`rest`, past characters where no call can begin and past whole calls. The template has the calls in
its holes. -/
inductive Scans (functions : List Text) (reached rest : Text) : Text → Text → Template Call → Prop
    where
  | stay : Scans functions reached rest reached rest (.plain [])
  | pass {before after : Text} {c : Char} {template : Template Call} :
      ¬CanBegin functions before (c :: after) →
        Scans functions reached rest (before ++ [c]) after template →
          Scans functions reached rest before (c :: after) (template.pushChar c)
  | call {before after : Text} {call : Call} {template : Template Call} :
      Stands functions before call after →
        Scans functions reached rest (before ++ call.text) after template →
          Scans functions reached rest before (call.text ++ after) (template.pushHole call)

section

variable {functions : List Text} {boundary : Bool} {before after : Text}
  (hboundary : boundary = true ↔ Text.Stops isIdentifierChar before.reverse)
include hboundary

/-- The scan reads no call exactly where none can begin. -/
theorem head_eq_none_iff :
    (if boundary then firstHead? functions after else none) = none ↔
      ¬CanBegin functions before after := by
  cases boundary with
  | true =>
      rw [if_pos rfl, firstHead?_eq_none_iff]
      exact ⟨fun hnone hcan => hnone hcan.begins, fun hnot hbegins =>
        hnot ⟨hboundary.mp rfl, hbegins⟩⟩
  | false =>
      refine iff_of_true rfl fun hcan => ?_
      cases hboundary.mpr hcan.boundary

theorem head_eq_some_iff {name gap inside : Text} :
    (if boundary then firstHead? functions after else none) = some (name, gap, inside) ↔
      Text.Stops isIdentifierChar before.reverse ∧ IsFirst functions after name ∧
        gap.isBlank = true ∧ after = name ++ gap ++ '(' :: inside := by
  cases boundary with
  | true =>
      rw [if_pos rfl, firstHead?_eq_some_iff]
      exact (and_iff_right (hboundary.mp rfl)).symm
  | false =>
      refine iff_of_false (by simp) fun hhead => ?_
      cases hboundary.mpr hhead.1

end

theorem splitGroup?_eq_none_iff {inside : Text} :
    Text.splitGroup? 1 inside = none ↔
      ∀ inner rest, inside = inner ++ ')' :: rest → ¬Text.Closes 0 inner := by
  constructor
  · rintro hnone inner rest rfl hcloses
    have hinner : Text.Closes (0 : Nat) inner := hcloses
    rw [Text.splitGroup?_append hinner] at hnone
    cases hnone
  · intro hnever
    cases hgroup : Text.splitGroup? 1 inside with
    | none => rfl
    | some cut =>
        obtain ⟨inner, rest⟩ := cut
        have hcloses : Text.Closes (1 - 1) inner := Text.closes_of_splitGroup? Nat.one_pos hgroup
        exact absurd hcloses (hnever inner rest (Text.eq_of_splitGroup? hgroup))

theorem stops_reverse_concat (before : Text) (c : Char) :
    (!isIdentifierChar c) = true ↔ Text.Stops isIdentifierChar (before ++ [c]).reverse := by
  rw [List.reverse_append, List.reverse_singleton, List.singleton_append, Text.stops_cons,
    Bool.not_eq_true']

theorem stops_reverse_text (before : Text) (call : Call) :
    Text.Stops isIdentifierChar (before ++ call.text).reverse := by
  rw [text, ← List.append_assoc, List.reverse_append]
  exact Text.stops_cons.mpr (by decide)

/-- Where a head is read and its group is closed, a call stands. -/
theorem stands_of_head {functions : List Text} {boundary : Bool} {before after : Text}
    (hboundary : boundary = true ↔ Text.Stops isIdentifierChar before.reverse)
    {name gap inside inner rest : Text}
    (hhead : (if boundary then firstHead? functions after else none) = some (name, gap, inside))
    (hgroup : Text.splitGroup? 1 inside = some (inner, rest)) :
    Stands functions before ⟨name, gap, inner⟩ rest ∧
      after = Call.text ⟨name, gap, inner⟩ ++ rest := by
  obtain ⟨hstops, hfirst, hgap, htext⟩ := (head_eq_some_iff hboundary).mp hhead
  have hcloses : Text.Closes (1 - 1) inner := Text.closes_of_splitGroup? Nat.one_pos hgroup
  have hafter : after = Call.text ⟨name, gap, inner⟩ ++ rest := by
    rw [text_append, ← Text.eq_of_splitGroup? hgroup]
    exact htext
  refine ⟨⟨hstops, ?_, hgap, hcloses⟩, hafter⟩
  rw [← hafter]
  exact hfirst

/-- A scan that succeeds has come to the end of the text. -/
theorem scans_of_findCallsFrom? {functions : List Text} {boundary : Bool} {before after : Text}
    (hboundary : boundary = true ↔ Text.Stops isIdentifierChar before.reverse)
    {template : Template Call} (h : findCallsFrom? functions boundary after = some template) :
    Scans functions (before ++ after) [] before after template := by
  fun_induction findCallsFrom? functions boundary after generalizing before template with
  | case1 boundary =>
      cases h
      rw [List.append_nil]
      exact .stay
  | case2 boundary c text hhead ih =>
      rw [dite_eq_ite] at hhead
      obtain ⟨others, hothers, rfl⟩ := Option.map_eq_some_iff.mp h
      have hrest := ih (stops_reverse_concat before c) hothers
      rw [List.append_assoc, List.singleton_append] at hrest
      exact .pass ((head_eq_none_iff hboundary).mp hhead) hrest
  | case3 => cases h
  | case4 boundary c text name gap inside hhead inner rest hgroup ih =>
      rw [dite_eq_ite] at hhead
      obtain ⟨others, hothers, rfl⟩ := Option.map_eq_some_iff.mp h
      obtain ⟨hstands, htext⟩ := stands_of_head hboundary hhead hgroup
      have hrest := ih (iff_of_true rfl (stops_reverse_text before ⟨name, gap, inner⟩)) hothers
      rw [List.append_assoc, ← htext] at hrest
      rw [htext] at hrest ⊢
      exact .call hstands hrest

/-- A scan that fails has come to a call that is never closed. -/
theorem exists_unclosed_of_findCallsFrom? {functions : List Text} {boundary : Bool}
    {before after : Text}
    (hboundary : boundary = true ↔ Text.Stops isIdentifierChar before.reverse)
    (h : findCallsFrom? functions boundary after = none) :
    ∃ template reached rest,
      Scans functions reached rest before after template ∧ Unclosed functions reached rest := by
  fun_induction findCallsFrom? functions boundary after generalizing before with
  | case1 => cases h
  | case2 boundary c text hhead ih =>
      rw [dite_eq_ite] at hhead
      obtain ⟨template, reached, rest, hscans, hunclosed⟩ :=
        ih (stops_reverse_concat before c) (Option.map_eq_none_iff.mp h)
      exact ⟨_, reached, rest, .pass ((head_eq_none_iff hboundary).mp hhead) hscans, hunclosed⟩
  | case3 boundary c text name gap inside hhead hgroup =>
      rw [dite_eq_ite] at hhead
      obtain ⟨hstops, hfirst, hgap, htext⟩ := (head_eq_some_iff hboundary).mp hhead
      exact ⟨_, before, c :: text, .stay, hstops, name, gap, inside, htext, hgap, hfirst,
        splitGroup?_eq_none_iff.mp hgroup⟩
  | case4 boundary c text name gap inside hhead inner rest hgroup ih =>
      rw [dite_eq_ite] at hhead
      obtain ⟨hstands, htext⟩ := stands_of_head hboundary hhead hgroup
      obtain ⟨template, reached, left, hscans, hunclosed⟩ :=
        ih (iff_of_true rfl (stops_reverse_text before ⟨name, gap, inner⟩))
          (Option.map_eq_none_iff.mp h)
      rw [htext]
      exact ⟨_, reached, left, .call hstands hscans, hunclosed⟩

/-- A scan that comes to a call that is never closed fails. -/
theorem Scans.findCallsFrom?_eq_none {functions : List Text} {reached rest before after : Text}
    {template : Template Call} (hscans : Scans functions reached rest before after template)
    (hunclosed : Unclosed functions reached rest) {boundary : Bool}
    (hboundary : boundary = true ↔ Text.Stops isIdentifierChar before.reverse) :
    findCallsFrom? functions boundary after = none := by
  induction hscans generalizing boundary with
  | stay =>
      obtain ⟨hstops, name, gap, inside, htext, hgap, hfirst, hnever⟩ := hunclosed
      have hhead := (head_eq_some_iff hboundary).mpr ⟨hstops, hfirst, hgap, htext⟩
      cases rest with
      | nil => simp at htext
      | cons c rest =>
          rw [findCallsFrom?_of_some hhead, splitGroup?_eq_none_iff.mpr hnever]
          rfl
  | pass hnot _ ih =>
      rw [findCallsFrom?_of_none ((head_eq_none_iff hboundary).mpr hnot),
        ih (stops_reverse_concat _ _)]
      rfl
  | @call before after call template hstands _ ih =>
      have hhead := (head_eq_some_iff hboundary).mpr
        ⟨hstands.boundary, hstands.first, hstands.gap, text_append call after⟩
      have hinner : Text.Closes (0 : Nat) call.inner := hstands.inner
      have hrest := ih (iff_of_true rfl (stops_reverse_text before call))
      cases htext : call.text ++ after with
      | nil => simp [text] at htext
      | cons c text =>
          rw [htext] at hhead
          rw [findCallsFrom?_of_some hhead, Text.splitGroup?_append hinner, Option.bind_some, hrest]
          rfl

end Call

/-! ## Spans -/

namespace Template

theorem spansFrom_pushChar (start : Nat) (c : Char) (template : Template Call) :
    spansFrom start (template.pushChar c).holes =
      spansFrom (start + c.utf8Size) template.holes := by
  rcases template with ⟨_ | ⟨⟨before, call⟩, holes⟩, rest⟩
  · rfl
  · simp only [pushChar, spansFrom, Text.utf8Length_cons, Nat.add_assoc]

theorem spansFrom_pushHole (start : Nat) (call : Call) (template : Template Call) :
    spansFrom start (template.pushHole call).holes =
      call.span start :: spansFrom (start + call.text.utf8Length) template.holes :=
  rfl

end Template

/-- The parenthesis that closes the group is the last byte of the call. -/
theorem Call.succ_closeParen_span (call : Call) (start : Nat) :
    (call.span start).closeParen + 1 = start + call.text.utf8Length := by
  have hopen : Text.utf8Length ['('] = 1 := by decide
  have hclose : Text.utf8Length [')'] = 1 := by decide
  simp only [text, span, Text.utf8Length_append, ← List.singleton_append (l := call.inner), hopen,
    hclose]
  omega

/-- Calls in the holes of a template stand one behind the other. -/
theorem Template.pairwise_spansFrom (start : Nat) (holes : List (Text × Call)) :
    (∀ span ∈ spansFrom start holes, start ≤ span.start) ∧
      (spansFrom start holes).Pairwise fun first second => first.closeParen < second.start := by
  induction holes generalizing start with
  | nil => exact ⟨List.forall_mem_nil _, .nil⟩
  | cons hole holes ih =>
      obtain ⟨before, call⟩ := hole
      obtain ⟨hstart, hpairwise⟩ := ih (start + before.utf8Length + call.text.utf8Length)
      have hclose := call.succ_closeParen_span (start + before.utf8Length)
      refine ⟨List.forall_mem_cons.mpr ⟨Nat.le_add_right _ _, fun span hmem => ?_⟩,
        hpairwise.cons fun span hmem => ?_⟩
      · have hspan := hstart span hmem
        omega
      · have hspan := hstart span hmem
        omega

namespace Call

theorem not_begins_nil (name : Text) : ¬Begins name [] := by
  rintro ⟨hname, rest, htext, -⟩
  exact hname (List.append_eq_nil_iff.mp htext.symm).1

namespace Scans

variable {functions : List Text} {reached rest before after : Text} {template : Template Call}

/-- At each span a call stands. -/
theorem exists_stands (hscans : Scans functions reached rest before after template) {span : Span}
    (hmem : span ∈ Template.spansFrom before.utf8Length template.holes) :
    ∃ u call v, before ++ after = u ++ (call.text ++ v) ∧ span = call.span u.utf8Length ∧
      Stands functions u call v := by
  induction hscans with
  | stay => cases hmem
  | @pass before after c template _ _ ih =>
      rw [Template.spansFrom_pushChar] at hmem
      obtain ⟨u, call, v, htext, hspan⟩ := ih (by rwa [Text.utf8Length_append])
      rw [List.append_assoc, List.singleton_append] at htext
      exact ⟨u, call, v, htext, hspan⟩
  | @call before after call template hstands _ ih =>
      rw [Template.spansFrom_pushHole] at hmem
      rcases List.mem_cons.mp hmem with rfl | hmem
      · exact ⟨before, call, after, rfl, rfl, hstands⟩
      · obtain ⟨u, other, v, htext, hspan⟩ := ih (by rwa [Text.utf8Length_append])
        rw [List.append_assoc] at htext
        exact ⟨u, other, v, htext, hspan⟩

/-- A call can begin at no place that the scan has passed, but within the spans. -/
theorem exists_span (hscans : Scans functions reached rest before after template) {u v : Text}
    (htext : before ++ after = u ++ v) (hbefore : before <+: u) (hu : u.length < reached.length)
    (hcan : CanBegin functions u v) :
    ∃ span ∈ Template.spansFrom before.utf8Length template.holes,
      span.start ≤ u.utf8Length ∧ u.utf8Length ≤ span.closeParen := by
  induction hscans with
  | stay => exact absurd hbefore.length_le (Nat.not_le.mpr hu)
  | @pass before after c template hnot _ ih =>
      obtain ⟨between, rfl⟩ := hbefore
      rw [List.append_assoc, List.append_cancel_left_eq] at htext
      cases between with
      | nil =>
          rw [List.nil_append] at htext
          rw [List.append_nil, ← htext] at hcan
          exact absurd hcan hnot
      | cons d between =>
          cases htext
          rw [Template.spansFrom_pushChar]
          have hnext := ih (by simp) ⟨between, by simp⟩
          rwa [Text.utf8Length_append] at hnext
  | @call before after call template hstands _ ih =>
      obtain ⟨between, rfl⟩ := hbefore
      rw [Template.spansFrom_pushHole]
      rw [List.append_assoc, List.append_cancel_left_eq] at htext
      -- The place is behind the call, or so far inside it that some of the call is left.
      have hbehind : call.text <+: between ∨ ∃ more, more ≠ [] ∧ call.text = between ++ more := by
        rcases List.append_eq_append_iff.mp htext with ⟨more, hmore, -⟩ | ⟨more, hmore, -⟩
        · exact Or.inl ⟨more, hmore.symm⟩
        · cases more with
          | nil => exact Or.inl ⟨[], by simp [hmore]⟩
          | cons d more => exact Or.inr ⟨d :: more, List.cons_ne_nil d more, hmore⟩
      rcases hbehind with ⟨more, rfl⟩ | ⟨more, hne, hmore⟩
      · obtain ⟨span, hmem, hspan⟩ := ih (by simpa using htext) ⟨more, by simp⟩
        rw [Text.utf8Length_append] at hmem
        exact ⟨span, List.mem_cons_of_mem _ hmem, hspan⟩
      · have hclose := call.succ_closeParen_span before.utf8Length
        have hpos := Text.utf8Length_pos hne
        rw [hmore, Text.utf8Length_append] at hclose
        refine ⟨call.span before.utf8Length, List.mem_cons_self, ?_⟩
        rw [Text.utf8Length_append]
        exact ⟨Nat.le_add_right _ _, by omega⟩

end Scans

/-! ## What is reported -/

/-- What the span of a call tells about a text: a call can begin at the first place, the four places
are those of the name, of the parenthesis that opens the group of the first function that can begin
there, and of the parenthesis that closes it, and the text can be cut at each of them and behind the
parentheses. -/
structure Span.Outlines (functions : List Text) (text : Text) (span : Span) : Prop where
  callable : Callable functions text span.start
  parts : ∃ before call after, text = before ++ (call.text ++ after) ∧
    span = call.span before.utf8Length ∧ Stands functions before call after
  matching : Text.matchingParen text span.openParen = .ok span.closeParen
  boundaries : ∀ offset ∈ [span.start, span.nameEnd, span.openParen, span.openParen + 1,
    span.closeParen, span.closeParen + 1], Text.IsCharBoundary text offset

theorem findCalls_eq_error_iff {functions : List Text} {text : Text} {error : ParseError} :
    findCalls functions text = .error error ↔
      error = .unbalancedParentheses text ∧ findCallsFrom? functions true text = none := by
  unfold findCalls
  cases findCallsFrom? functions true text with
  | none => simp [eq_comm]
  | some found => simp

theorem Stands.matchingParen_eq {functions : List Text} {before after : Text} {call : Call}
    (hstands : Stands functions before call after) :
    Text.matchingParen (before ++ (call.text ++ after)) (call.span before.utf8Length).openParen =
      .ok (call.span before.utf8Length).closeParen := by
  have hmatching := Text.matchingParen_append hstands.inner (before ++ call.name ++ call.gap) after
  rw [Text.utf8Length_append, Text.utf8Length_append, List.append_assoc, List.append_assoc,
    ← List.append_assoc call.name, ← text_append] at hmatching
  exact hmatching

theorem isCharBoundary_of_prefix {part text : Text} (hpart : part <+: text) (before after : Text) :
    Text.IsCharBoundary (before ++ (text ++ after)) (before.utf8Length + part.utf8Length) := by
  obtain ⟨rest, rfl⟩ := hpart
  have hcut := Text.isCharBoundary_of_append (before ++ part) (rest ++ after)
  rwa [Text.utf8Length_append, List.append_assoc, ← List.append_assoc part] at hcut

theorem Stands.outlines {functions : List Text} {before after : Text} {call : Call}
    (hstands : Stands functions before call after) :
    (call.span before.utf8Length).Outlines functions (before ++ (call.text ++ after)) where
  callable := ⟨before, call.text ++ after, rfl, rfl, hstands.canBegin⟩
  parts := ⟨before, call, after, rfl, rfl, hstands⟩
  matching := hstands.matchingParen_eq
  boundaries := by
    have hparen : Char.utf8Size '(' = 1 := by decide
    have hcut (part rest : Text) {offset : Nat} (htext : call.text = part ++ rest)
        (hoffset : before.utf8Length + part.utf8Length = offset) :
        Text.IsCharBoundary (before ++ (call.text ++ after)) offset :=
      hoffset ▸ isCharBoundary_of_prefix ⟨rest, htext.symm⟩ before after
    simp only [List.forall_mem_cons]
    refine ⟨hcut [] call.text rfl rfl,
      hcut call.name (call.gap ++ '(' :: call.inner ++ [')']) ?_ rfl,
      hcut (call.name ++ call.gap) ('(' :: call.inner ++ [')']) ?_ ?_,
      hcut (call.name ++ call.gap ++ ['(']) (call.inner ++ [')']) ?_ ?_,
      hcut (call.name ++ call.gap ++ ['('] ++ call.inner) [')'] ?_ ?_,
      hcut call.text [] (List.append_nil _).symm (call.succ_closeParen_span _).symm,
      List.forall_mem_nil _⟩
    all_goals simp [text, span, Text.utf8Length_cons, hparen, Nat.add_assoc]

/-- The scan reports exactly the outermost calls of a text: it succeeds unless it comes to a call
whose parenthesis is never closed. -/
theorem findCalls_spans (functions : List Text) (text : Text) :
    (∀ template, findCalls functions text = .ok template →
      (template.spans.Pairwise fun first second => first.closeParen < second.start) ∧
        (∀ span ∈ template.spans, span.Outlines functions text) ∧
          ∀ offset, Callable functions text offset →
            ∃ span ∈ template.spans, span.start ≤ offset ∧ offset ≤ span.closeParen) ∧
      ∀ error, findCalls functions text = .error error ↔
        error = .unbalancedParentheses text ∧ ∃ template reached rest,
          Scans functions reached rest [] text template ∧ Unclosed functions reached rest := by
  have hstart : true = true ↔ Text.Stops isIdentifierChar (List.reverse []) :=
    iff_of_true rfl (Text.stops_nil _)
  constructor
  · intro template htemplate
    have hscans : Scans functions text [] [] text template :=
      scans_of_findCallsFrom? hstart (findCalls_eq_ok_iff.mp htemplate)
    refine ⟨(Template.pairwise_spansFrom 0 template.holes).2, fun span hmem => ?_, ?_⟩
    · obtain ⟨u, call, v, htext, rfl, hstands⟩ := hscans.exists_stands hmem
      rw [List.nil_append] at htext
      rw [htext]
      exact hstands.outlines
    · rintro offset ⟨u, v, htext, rfl, hcan⟩
      have hne : v ≠ [] := by
        rintro rfl
        obtain ⟨name, -, hbegins⟩ := hcan.begins
        exact not_begins_nil name hbegins
      have hu : u.length < text.length := by
        rw [htext, List.length_append]
        exact Nat.lt_add_of_pos_right (List.length_pos_iff.mpr hne)
      exact hscans.exists_span htext List.nil_prefix hu hcan
  · intro error
    rw [findCalls_eq_error_iff]
    refine and_congr_right fun _ => ⟨exists_unclosed_of_findCallsFrom? hstart, ?_⟩
    rintro ⟨template, reached, rest, hscans, hunclosed⟩
    exact hscans.findCallsFrom?_eq_none hunclosed hstart

/-- The call inside the group of another is not reported, and places are counted in bytes. -/
example : (findCalls ["max".toList] "α + max (2, max(3, 4)) * 2".toList).map Template.spans =
    .ok [⟨5, 8, 9, 22⟩] := by
  cbv

end Call

end Lindenmayer
