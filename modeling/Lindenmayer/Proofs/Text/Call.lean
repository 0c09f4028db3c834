import Lindenmayer.Proofs.Text.Balance
import Lindenmayer.Proofs.Text.Class
import Lindenmayer.Proofs.Text.Trim
import Lindenmayer.Text.Call

/-!
# Calls between blanks

Blanks at the end of a text hold no call and end none, since a call ends with a parenthesis. Blanks
at its start hold none either where no function name begins with a blank. So a trimmed text has the
calls that the text has.
-/

namespace Lindenmayer

/-! ## Where a group ends -/

/-- A character that no blank is stands in front of the blanks at the end of a text. -/
theorem Text.exists_of_append_blanks {text blanks before after : Text} {c : Char}
    (hblanks : blanks.all isBlankChar = true) (hc : isBlankChar c = false)
    (h : text ++ blanks = before ++ c :: after) :
    ∃ rest, text = before ++ c :: rest ∧ after = rest ++ blanks := by
  rcases List.append_eq_append_iff.mp h with ⟨overlap, -, hoverlap⟩ | ⟨rest, htext, hrest⟩
  · have hmem : c ∈ blanks := by simp [hoverlap]
    rw [List.all_eq_true.mp hblanks c hmem] at hc
    cases hc
  · cases rest with
    | nil =>
        rw [List.nil_append] at hrest
        rw [← hrest, List.all_cons, hc] at hblanks
        cases hblanks
    | cons d rest =>
        cases hrest
        exact ⟨rest, htext, rfl⟩

theorem Text.splitGroup?_append_blanks {blanks : Text} (hblanks : blanks.all isBlankChar = true)
    (text : Text) :
    splitGroup? 1 (text ++ blanks) =
      (splitGroup? 1 text).map fun cut => (cut.1, cut.2 ++ blanks) := by
  cases hcut : splitGroup? 1 text with
  | some cut =>
      obtain ⟨inner, rest⟩ := cut
      have hinner : Closes (0 : Nat) inner := closes_of_splitGroup? Nat.one_pos hcut
      rw [eq_of_splitGroup? hcut, List.append_assoc, List.cons_append]
      exact splitGroup?_append hinner (rest ++ blanks)
  | none =>
      cases hlong : splitGroup? 1 (text ++ blanks) with
      | none => rfl
      | some cut =>
          obtain ⟨inner, rest⟩ := cut
          have hinner : Closes (0 : Nat) inner := closes_of_splitGroup? Nat.one_pos hlong
          obtain ⟨shorter, rfl, -⟩ :=
            exists_of_append_blanks hblanks not_isBlankChar_closeParen (eq_of_splitGroup? hlong)
          rw [splitGroup?_append hinner shorter] at hcut
          cases hcut

/-! ## Where a call begins -/

namespace Call

/-- A call begins with its name, blanks and a parenthesis. -/
theorem head?_eq_some_iff {name text gap inside : Text} :
    head? name text = some (gap, inside) ↔
      name ≠ [] ∧ gap.all isBlankChar = true ∧ text = name ++ gap ++ '(' :: inside := by
  refine ⟨head?_eq_some, ?_⟩
  rintro ⟨hname, hgap, rfl⟩
  have hstops : Text.Stops isBlankChar ('(' :: inside) :=
    Text.stops_cons.mpr not_isBlankChar_openParen
  have hboundary : ((gap ++ '(' :: inside).head?.any isIdentifierChar) = false := by
    cases gap with
    | nil => rfl
    | cons c gap =>
        rw [List.all_cons, Bool.and_eq_true] at hgap
        exact not_isIdentifierChar_of_isBlankChar hgap.1
  rw [head?, List.append_assoc, if_pos ⟨hname, List.prefix_append _ _⟩, List.drop_left]
  simp only [hboundary, Text.dropWhile_append_of_stops hgap hstops,
    Text.takeWhile_append_of_stops hgap hstops]
  rfl

theorem head?_append_blanks {blanks : Text} (hblanks : blanks.all isBlankChar = true)
    (name text : Text) :
    head? name (text ++ blanks) =
      (head? name text).map fun head => (head.1, head.2 ++ blanks) := by
  cases hhead : head? name text with
  | some head =>
      obtain ⟨gap, inside⟩ := head
      obtain ⟨hname, hgap, rfl⟩ := head?_eq_some_iff.mp hhead
      exact head?_eq_some_iff.mpr ⟨hname, hgap, by simp⟩
  | none =>
      cases hlong : head? name (text ++ blanks) with
      | none => rfl
      | some head =>
          obtain ⟨gap, inside⟩ := head
          obtain ⟨hname, hgap, hwhole⟩ := head?_eq_some_iff.mp hlong
          obtain ⟨shorter, htext, -⟩ :=
            Text.exists_of_append_blanks hblanks not_isBlankChar_openParen hwhole
          rw [head?_eq_some_iff.mpr ⟨hname, hgap, htext⟩] at hhead
          cases hhead

theorem firstHead?_append_blanks {blanks : Text} (hblanks : blanks.all isBlankChar = true)
    (functions : List Text) (text : Text) :
    firstHead? functions (text ++ blanks) =
      (firstHead? functions text).map fun head => (head.1, head.2.1, head.2.2 ++ blanks) := by
  induction functions with
  | nil => rfl
  | cons name functions ih =>
      rw [firstHead?, firstHead?, List.findSome?_cons, List.findSome?_cons,
        head?_append_blanks hblanks]
      cases head? name text with
      | none => exact ih
      | some head => rfl

/-- A call has a parenthesis. -/
theorem firstHead?_eq_none_of_not_mem {text : Text} (hopen : '(' ∉ text) (functions : List Text) :
    firstHead? functions text = none := by
  cases hhead : firstHead? functions text with
  | none => rfl
  | some head =>
      rw [eq_of_firstHead? hhead] at hopen
      exact absurd (List.mem_append_right _ List.mem_cons_self) hopen

/-- A call that begins with a parenthesis has another one behind it, and the first belongs to the
function name. -/
theorem firstHead?_openParen {functions : List Text} {text : Text}
    (h : '(' ∉ text ∨ ∀ name ∈ functions, '(' ∉ name) :
    firstHead? functions ('(' :: text) = none := by
  rw [firstHead?, List.findSome?_eq_none_iff]
  intro name hmem
  cases hhead : head? name ('(' :: text) with
  | none => rfl
  | some head =>
      obtain ⟨gap, inside⟩ := head
      obtain ⟨hname, -, htext⟩ := head?_eq_some_iff.mp hhead
      cases name with
      | nil => exact absurd rfl hname
      | cons c name =>
          cases htext
          rcases h with hopen | hnames
          · exact absurd (List.mem_append_right _ List.mem_cons_self) hopen
          · exact absurd List.mem_cons_self (hnames _ hmem)

/-- No call begins with a blank where no function name does. -/
theorem firstHead?_eq_none_of_isBlankChar {functions : List Text}
    (hfunctions : ∀ name ∈ functions, Text.Stops isBlankChar name) {c : Char}
    (hc : isBlankChar c = true) (text : Text) : firstHead? functions (c :: text) = none := by
  rw [firstHead?, List.findSome?_eq_none_iff]
  intro name hmem
  cases hhead : head? name (c :: text) with
  | none => rfl
  | some head =>
      obtain ⟨gap, inside⟩ := head
      obtain ⟨hname, -, htext⟩ := head?_eq_some_iff.mp hhead
      cases name with
      | nil => exact absurd rfl hname
      | cons d name =>
          cases htext
          rw [Text.stops_cons.mp (hfunctions _ hmem)] at hc
          cases hc

end Call

/-! ## The calls of a text -/

section

variable {functions : List Text} {boundary : Bool} {c : Char} {text : Text}

theorem findCallsFrom?_of_none
    (h : (if boundary then Call.firstHead? functions (c :: text) else none) = none) :
    findCallsFrom? functions boundary (c :: text) =
      (findCallsFrom? functions (!isIdentifierChar c) text).map (.pushChar c) := by
  rw [findCallsFrom?]
  split
  next => rfl
  next hsome => cases h.symm.trans hsome

theorem findCallsFrom?_of_some {name gap inside : Text}
    (h : (if boundary then Call.firstHead? functions (c :: text) else none) =
      some (name, gap, inside)) :
    findCallsFrom? functions boundary (c :: text) =
      (Text.splitGroup? 1 inside).bind fun cut =>
        (findCallsFrom? functions true cut.2).map (.pushHole ⟨name, gap, cut.1⟩) := by
  rw [findCallsFrom?]
  split
  next hnone => cases h.symm.trans hnone
  next hsome =>
    cases h.symm.trans hsome
    cases Text.splitGroup? 1 inside with
    | none => rfl
    | some cut => rfl

end

def Template.pad {α : Type} (before after : Text) (template : Template α) : Template α :=
  before.foldr pushChar ⟨template.holes, template.rest ++ after⟩

namespace Template

variable {α : Type} (after : Text)

theorem pad_cons (c : Char) (before : Text) (template : Template α) :
    template.pad (c :: before) after = (template.pad before after).pushChar c := rfl

theorem pad_pushChar (c : Char) (template : Template α) :
    (template.pushChar c).pad [] after = (template.pad [] after).pushChar c := by
  rcases template with ⟨_ | ⟨⟨before, value⟩, holes⟩, rest⟩ <;> rfl

@[simp] theorem values_pad (before : Text) (template : Template α) :
    (template.pad before after).values = template.values := by
  induction before with
  | nil => rfl
  | cons c before ih => rw [pad_cons, values_pushChar, ih]

end Template

/-- No call begins in the first text, with the second behind it. -/
def Call.NoneIn (functions : List Text) : (text following : Text) → Prop
  | [], _ => True
  | c :: text, following =>
      firstHead? functions (c :: (text ++ following)) = none ∧ NoneIn functions text following

namespace Call.NoneIn

variable {functions : List Text}

theorem of_blanks (hfunctions : ∀ name ∈ functions, Text.Stops isBlankChar name) {blanks : Text}
    (hblanks : blanks.all isBlankChar = true) (following : Text) :
    NoneIn functions blanks following := by
  induction blanks with
  | nil => trivial
  | cons c blanks ih =>
      rw [List.all_cons, Bool.and_eq_true] at hblanks
      exact ⟨firstHead?_eq_none_of_isBlankChar hfunctions hblanks.1 _, ih hblanks.2⟩

theorem of_not_mem {text : Text} (hopen : '(' ∉ text) : NoneIn functions text [] := by
  induction text with
  | nil => trivial
  | cons c text ih =>
      refine ⟨?_, ih fun hmem => hopen (List.mem_cons_of_mem c hmem)⟩
      rw [List.append_nil]
      exact firstHead?_eq_none_of_not_mem hopen functions

end Call.NoneIn

theorem findCallsFrom?_of_noneIn {functions : List Text} {text : Text}
    (hnone : Call.NoneIn functions text []) (boundary : Bool) :
    findCallsFrom? functions boundary text = some (.plain text) := by
  induction text generalizing boundary with
  | nil => rw [findCallsFrom?]
  | cons c text ih =>
      obtain ⟨hhead, hnone⟩ := hnone
      rw [List.append_nil] at hhead
      rw [findCallsFrom?_of_none (by rw [hhead, ite_self]), ih hnone]
      rfl

/-- Blanks hold no call. -/
theorem findCallsFrom?_blanks {blanks : Text} (hblanks : blanks.all isBlankChar = true)
    (functions : List Text) (boundary : Bool) :
    findCallsFrom? functions boundary blanks = some (.plain blanks) := by
  refine findCallsFrom?_of_noneIn (.of_not_mem fun hmem => ?_) boundary
  have hblank := List.all_eq_true.mp hblanks _ hmem
  rw [not_isBlankChar_openParen] at hblank
  cases hblank

/-- Blanks at the end of a text add no call. -/
theorem findCallsFrom?_append_blanks {blanks : Text} (hblanks : blanks.all isBlankChar = true)
    (functions : List Text) (boundary : Bool) (text : Text) :
    findCallsFrom? functions boundary (text ++ blanks) =
      (findCallsFrom? functions boundary text).map (.pad [] blanks) := by
  have hlong (boundary : Bool) (text : Text) :
      (if boundary then Call.firstHead? functions (text ++ blanks) else none) =
        (if boundary then Call.firstHead? functions text else none).map
          fun head => (head.1, head.2.1, head.2.2 ++ blanks) := by
    cases boundary with
    | false => rfl
    | true => exact Call.firstHead?_append_blanks hblanks functions text
  fun_induction findCallsFrom? functions boundary text with
  | case1 boundary => exact findCallsFrom?_blanks hblanks functions boundary
  | case2 boundary c text hhead ih =>
      rw [dite_eq_ite] at hhead
      have hnone := hlong boundary (c :: text)
      rw [hhead, List.cons_append] at hnone
      rw [List.cons_append, findCallsFrom?_of_none hnone, ih, Option.map_map, Option.map_map]
      exact congrArg (Option.map · _) (funext fun _ => (Template.pad_pushChar blanks c _).symm)
  | case3 boundary c text name gap inside hhead hgroup =>
      rw [dite_eq_ite] at hhead
      have hsome := hlong boundary (c :: text)
      rw [hhead, List.cons_append] at hsome
      rw [List.cons_append, findCallsFrom?_of_some hsome, Text.splitGroup?_append_blanks hblanks,
        hgroup]
      rfl
  | case4 boundary c text name gap inside hhead inner rest hgroup ih =>
      rw [dite_eq_ite] at hhead
      have hsome := hlong boundary (c :: text)
      rw [hhead, List.cons_append] at hsome
      rw [List.cons_append, findCallsFrom?_of_some hsome, Text.splitGroup?_append_blanks hblanks,
        hgroup]
      simp only [Option.map_some, Option.bind_some]
      rw [ih, Option.map_map, Option.map_map]
      rfl

/-- Blanks around a text add no call where none begins in those before it. -/
theorem findCallsFrom?_pad {functions : List Text} {before after text : Text}
    (hbefore : before.all isBlankChar = true) (hafter : after.all isBlankChar = true)
    (hnone : Call.NoneIn functions before text) :
    findCallsFrom? functions true (before ++ (text ++ after)) =
      (findCallsFrom? functions true text).map (.pad before after) := by
  induction before with
  | nil => exact findCallsFrom?_append_blanks hafter functions true text
  | cons c before ih =>
      rw [List.all_cons, Bool.and_eq_true] at hbefore
      have hhead : Call.firstHead? functions (c :: (before ++ (text ++ after))) = none := by
        have happend := Call.firstHead?_append_blanks hafter functions (c :: (before ++ text))
        rw [hnone.1] at happend
        rw [← List.append_assoc]
        exact happend
      have hidentifier := not_isIdentifierChar_of_isBlankChar hbefore.1
      rw [List.cons_append, findCallsFrom?_of_none (by rw [hhead, ite_self]), hidentifier,
        Bool.not_false, ih hbefore.2 hnone.2, Option.map_map]
      rfl

/-- A call starts where no identifier runs on: not behind a character of one in the text, and at the
start of the text only if `boundary` says so. -/
theorem stops_of_findCallsFrom? {functions : List Text} {boundary : Bool} {text : Text}
    {template : Template Call} (h : findCallsFrom? functions boundary text = some template) :
    (∀ hole ∈ template.holes, Text.Stops isIdentifierChar hole.1.reverse) ∧
      ∀ hole, template.holes.head? = some hole → hole.1 = [] → boundary = true := by
  fun_induction findCallsFrom? functions boundary text generalizing template with
  | case1 boundary =>
      cases h
      exact ⟨List.forall_mem_nil _, by simp [Template.plain]⟩
  | case2 boundary c text hhead ih =>
      obtain ⟨⟨holes, rest⟩, hinner, rfl⟩ := Option.map_eq_some_iff.mp h
      obtain ⟨hstops, hfirst⟩ := ih hinner
      cases holes with
      | nil => exact ⟨List.forall_mem_nil _, by simp [Template.pushChar]⟩
      | cons hole holes =>
          obtain ⟨before, call⟩ := hole
          obtain ⟨hbefore, hothers⟩ := List.forall_mem_cons.mp hstops
          refine ⟨List.forall_mem_cons.mpr ⟨?_, hothers⟩, ?_⟩
          · rw [List.reverse_cons]
            cases hreverse : before.reverse with
            | nil =>
                have hc := hfirst _ rfl (List.reverse_eq_nil_iff.mp hreverse)
                rw [Bool.not_eq_true'] at hc
                exact Text.stops_cons.mpr hc
            | cons d more =>
                rw [hreverse] at hbefore
                exact Text.stops_cons.mpr (Text.stops_cons.mp hbefore)
          · rintro _ ⟨rfl⟩ hnil
            cases hnil
  | case3 => cases h
  | case4 boundary c text name gap inside hhead inner rest hgroup ih =>
      obtain ⟨others, hothers, rfl⟩ := Option.map_eq_some_iff.mp h
      refine ⟨List.forall_mem_cons.mpr ⟨Text.stops_nil _, (ih hothers).1⟩, fun _ _ _ => ?_⟩
      rw [dite_eq_ite] at hhead
      cases boundary with
      | true => rfl
      | false => cases hhead

theorem stops_of_findCalls {functions : List Text} {text : Text} {template : Template Call}
    (h : findCalls functions text = .ok template) :
    ∀ hole ∈ template.holes, Text.Stops isIdentifierChar hole.1.reverse :=
  (stops_of_findCallsFrom? (findCalls_eq_ok_iff.mp h)).1

def outermostCalls (functions : List Text) (text : Text) : List Call :=
  match findCalls functions text with
  | .error _ => []
  | .ok template => template.values

theorem outermostCalls_eq (functions : List Text) (text : Text) :
    outermostCalls functions text =
      ((findCallsFrom? functions true text).map Template.values).getD [] := by
  unfold outermostCalls findCalls
  cases findCallsFrom? functions true text <;> rfl

/-- Trimming a text keeps its calls where no function name begins with a blank. -/
theorem outermostCalls_trim {functions : List Text}
    (hfunctions : ∀ name ∈ functions, Text.Stops isBlankChar name) (text : Text) :
    outermostCalls functions text.trim = outermostCalls functions text := by
  obtain ⟨before, after, hbefore, hafter, htext⟩ := Text.exists_trim_pad text
  have hpad := findCallsFrom?_pad hbefore hafter
    (Call.NoneIn.of_blanks hfunctions hbefore text.trim)
  rw [← htext] at hpad
  rw [outermostCalls_eq, outermostCalls_eq, hpad, Option.map_map]
  exact congrArg (Option.getD · []) (congrArg (Option.map · _)
    (funext fun template => (template.values_pad after before).symm))

end Lindenmayer
