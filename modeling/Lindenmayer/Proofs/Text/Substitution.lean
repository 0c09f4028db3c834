import Lindenmayer.Text.Substitution
import Lindenmayer.Proofs.Decimal.Numeral

/-!
# Substitution run by run

What substitution does to one run and to one character between runs. A written numeral is left
alone: its runs begin with a digit, unless they are an exponent behind a bare point. Such an
exponent is looked up like a name.
-/

namespace Lindenmayer

def isName : Text → Bool
  | [] => false
  | c :: rest => isNameStart c && rest.all isIdentifierChar

/-- A run that can be the exponent of a numeral with a bare point. -/
def isExponentRun : Text → Bool
  | [] => false
  | c :: digits => (c = 'e' || c = 'E') && digits.all Char.isDigit

/-- The names that stand for nothing but themselves in an expression. -/
def isFormalName (name : Text) : Bool :=
  isName name && !isExponentRun name

namespace Text

variable {bindings : List (Text × Text)}

theorem substitute_cons_of_not {c : Char} (hc : isIdentifierChar c = false) (text : Text) :
    substitute bindings (c :: text) = c :: substitute bindings text := by
  rw [substitute, if_neg (by simp [hc])]

theorem substitute_run_append {run rest : Text} (hne : run ≠ [])
    (hrun : run.all isIdentifierChar = true) (hrest : Stops isIdentifierChar rest) :
    substitute bindings (run ++ rest) = lookupRun bindings run ++ substitute bindings rest := by
  cases run with
  | nil => exact absurd rfl hne
  | cons c run =>
      rw [List.all_cons, Bool.and_eq_true] at hrun
      rw [List.cons_append, substitute, if_pos hrun.1, takeWhile_append_of_stops hrun.2 hrest,
        dropWhile_append_of_stops hrun.2 hrest]

/-- A character between runs stays where it is. -/
theorem head?_substitute {text : Text} (htext : Stops isIdentifierChar text) :
    (substitute bindings text).head? = text.head? := by
  cases text with
  | nil => rw [substitute_nil]
  | cons c text =>
      rw [substitute_cons_of_not (stops_cons.mp htext)]
      rfl

theorem stops_substitute {p : Char → Bool} {text : Text} (htext : Stops isIdentifierChar text)
    (hstops : Stops p text) : Stops p (substitute bindings text) := by
  intro c hc
  rw [head?_substitute htext] at hc
  exact hstops c hc

/-! ## Texts that are left alone -/

/-- Substitution leaves the text alone, in front of every text that does not extend its last run. -/
def Inert (bindings : List (Text × Text)) (text : Text) : Prop :=
  ∀ rest, Stops isIdentifierChar rest →
    substitute bindings (text ++ rest) = text ++ substitute bindings rest

theorem inert_run {run : Text} (hrun : run.all isIdentifierChar = true)
    (hfree : lookupRun bindings run = run) : Inert bindings run := by
  intro rest hrest
  cases run with
  | nil => rfl
  | cons c run => rw [substitute_run_append (List.cons_ne_nil c run) hrun hrest, hfree]

theorem Inert.append_cons {before after : Text} {c : Char} (hbefore : Inert bindings before)
    (hc : isIdentifierChar c = false) (hafter : Inert bindings after) :
    Inert bindings (before ++ c :: after) := by
  intro rest hrest
  rw [List.append_assoc, List.cons_append, hbefore _ (stops_cons.mpr hc),
    substitute_cons_of_not hc, hafter rest hrest, List.append_assoc, List.cons_append]

/-- A run is left alone if all bound names have a property that it lacks. -/
theorem lookupRun_of_not {p : Text → Bool} (hall : ∀ binding ∈ bindings, p binding.1 = true)
    {run : Text} (hrun : p run = false) : lookupRun bindings run = run := by
  have hlookup : bindings.lookup run = none := by
    rw [List.lookup_eq_none_iff]
    intro binding hmem
    rw [bne_iff_ne]
    rintro rfl
    rw [hall binding hmem] at hrun
    cases hrun
  rw [lookupRun, hlookup]
  rfl

theorem all_isIdentifierChar_of_isDigit {digits : Text} (hdigits : digits.all Char.isDigit = true) :
    digits.all isIdentifierChar = true := by
  rw [List.all_eq_true] at hdigits ⊢
  exact fun c hc => isIdentifierChar_of_isDigit (hdigits c hc)

section

variable (hnames : ∀ binding ∈ bindings, isName binding.1 = true)
include hnames

/-- A run that begins with a digit is no name. -/
theorem inert_run_of_isDigit {c : Char} {run : Text} (hc : c.isDigit = true)
    (hrun : run.all isIdentifierChar = true) : Inert bindings (c :: run) := by
  apply inert_run
  · rw [List.all_cons, isIdentifierChar_of_isDigit hc, hrun]
    rfl
  · apply lookupRun_of_not hnames
    rw [isName, not_isNameStart_of_isDigit hc, Bool.false_and]

theorem inert_digits {digits : Text} (hdigits : digits.all Char.isDigit = true) :
    Inert bindings digits := by
  cases digits with
  | nil => exact inert_run rfl (lookupRun_of_not hnames rfl)
  | cons c digits =>
      rw [List.all_cons, Bool.and_eq_true] at hdigits
      exact inert_run_of_isDigit hnames hdigits.1 (all_isIdentifierChar_of_isDigit hdigits.2)

/-- Behind digits an exponent is part of their run, and so is its letter alone. -/
theorem inert_digits_append_exponent {digits text : Text} {exponent : Option (Bool × Text)}
    (hne : digits ≠ []) (hdigits : digits.all Char.isDigit = true)
    (hexponent : Numeral.ExponentText exponent text) : Inert bindings (digits ++ text) := by
  cases hexponent with
  | none =>
      rw [List.append_nil]
      exact inert_digits hnames hdigits
  | @some mark negative sign power hmark hsign hpower _ =>
      have hmantissa {run : Text} (hrun : run.all Char.isDigit = true) :
          Inert bindings (digits ++ mark :: run) := by
        have hidentifier : isIdentifierChar mark = true := by
          rcases hmark with rfl | rfl <;> decide
        obtain ⟨c, digits, rfl⟩ := List.exists_cons_of_ne_nil hne
        rw [List.all_cons, Bool.and_eq_true] at hdigits
        refine inert_run_of_isDigit hnames hdigits.1 ?_
        change (digits ++ mark :: run).all isIdentifierChar = true
        rw [List.all_append, List.all_cons, all_isIdentifierChar_of_isDigit hdigits.2, hidentifier,
          all_isIdentifierChar_of_isDigit hrun]
        rfl
      have hletter : Inert bindings (digits ++ [mark]) := hmantissa rfl
      cases hsign with
      | none => exact hmantissa hpower
      | plus =>
          have hsigned := hletter.append_cons (c := '+') (by decide) (inert_digits hnames hpower)
          simpa using hsigned
      | minus =>
          have hsigned := hletter.append_cons (c := '-') (by decide) (inert_digits hnames hpower)
          simpa using hsigned

end

/-! ## Written numerals -/

/-- What becomes of a written numeral. A point ends the run before it, so the exponent of a numeral
without digits behind its point begins a run of its own, which is looked up like a name. -/
def substituteNumeral (bindings : List (Text × Text)) (written : Text) : Text :=
  match written.dropWhile Char.isDigit with
  | '.' :: mark :: power =>
      if mark = 'e' ∨ mark = 'E' then
        written.takeWhile Char.isDigit ++ '.' ::
          (lookupRun bindings (mark :: power.takeWhile Char.isDigit) ++
            power.dropWhile Char.isDigit)
      else
        written
  | _ => written

theorem substituteNumeral_of_digits {digits text : Text} {exponent : Option (Bool × Text)}
    (hdigits : digits.all Char.isDigit = true) (hexponent : Numeral.ExponentText exponent text) :
    substituteNumeral bindings (digits ++ text) = digits ++ text := by
  have hstops := (Numeral.stops_isDigit_exponentText hexponent (stops_nil _)).1
  rw [List.append_nil] at hstops
  rw [substituteNumeral, dropWhile_append_of_stops hdigits hstops]
  cases hexponent with
  | none => rfl
  | some hmark _ _ _ => rcases hmark with rfl | rfl <;> rfl

theorem substituteNumeral_of_fraction {whole digits text : Text} (hne : digits ≠ [])
    (hwhole : whole.all Char.isDigit = true) (hdigits : digits.all Char.isDigit = true) :
    substituteNumeral bindings (whole ++ '.' :: (digits ++ text)) =
      whole ++ '.' :: (digits ++ text) := by
  obtain ⟨d, digits, rfl⟩ := List.exists_cons_of_ne_nil hne
  rw [List.all_cons, Bool.and_eq_true] at hdigits
  rw [substituteNumeral, dropWhile_append_of_stops hwhole (stops_cons.mpr (by decide))]
  refine if_neg ?_
  rintro (rfl | rfl)
  · exact absurd hdigits.1 (by decide)
  · exact absurd hdigits.1 (by decide)

theorem substituteNumeral_of_bare {whole power : Text} {mark : Char}
    (hwhole : whole.all Char.isDigit = true) (hmark : mark = 'e' ∨ mark = 'E') :
    substituteNumeral bindings (whole ++ '.' :: mark :: power) =
      whole ++ '.' ::
        (lookupRun bindings (mark :: power.takeWhile Char.isDigit) ++
          power.dropWhile Char.isDigit) := by
  have hstops : Stops Char.isDigit ('.' :: mark :: power) := stops_cons.mpr (by decide)
  rw [substituteNumeral, dropWhile_append_of_stops hwhole hstops]
  simp only [if_pos hmark, takeWhile_append_of_stops hwhole hstops]

/-- An exponent as a run of its own: with its digits if no sign stands between them. -/
theorem substitute_exponent_append {mark : Char} {negative : Bool} {sign power rest : Text}
    (hnames : ∀ binding ∈ bindings, isName binding.1 = true) (hmark : mark = 'e' ∨ mark = 'E')
    (hsign : Numeral.SignText negative sign) (hpower : power.all Char.isDigit = true)
    (hrest : Stops isIdentifierChar rest) :
    substitute bindings (mark :: (sign ++ power) ++ rest) =
      lookupRun bindings (mark :: (sign ++ power).takeWhile Char.isDigit) ++
        ((sign ++ power).dropWhile Char.isDigit ++ substitute bindings rest) := by
  have hidentifier : isIdentifierChar mark = true := by
    rcases hmark with rfl | rfl <;> decide
  have hrun {run : Text} (hrun : run.all Char.isDigit = true) :
      (mark :: run).all isIdentifierChar = true := by
    rw [List.all_cons, hidentifier, all_isIdentifierChar_of_isDigit hrun]
    rfl
  have hletter (c : Char) (hc : isIdentifierChar c = false) :
      substitute bindings (mark :: (c :: power) ++ rest) =
        lookupRun bindings [mark] ++ (c :: power ++ substitute bindings rest) := by
    have hstops : Stops isIdentifierChar (c :: (power ++ rest)) := stops_cons.mpr hc
    have happend : substitute bindings (mark :: c :: (power ++ rest)) = _ :=
      substitute_run_append (List.cons_ne_nil mark []) (hrun rfl) hstops
    rw [List.cons_append, List.cons_append, happend, List.cons_append, substitute_cons_of_not hc,
      inert_digits hnames hpower rest hrest]
  cases hsign with
  | none =>
      have htake := takeWhile_append_of_stops hpower (stops_nil _)
      have hdrop := dropWhile_append_of_stops hpower (stops_nil _)
      rw [List.append_nil] at htake hdrop
      rw [List.nil_append, htake, hdrop, List.nil_append]
      exact substitute_run_append (List.cons_ne_nil mark power) (hrun hpower) hrest
  | plus => exact hletter '+' (by decide)
  | minus => exact hletter '-' (by decide)

/-- Digits and a bare point, with an exponent or without. -/
theorem substitute_bare_append (hnames : ∀ binding ∈ bindings, isName binding.1 = true)
    {whole text rest : Text} {exponent : Option (Bool × Text)}
    (hwhole : whole.all Char.isDigit = true) (hexponent : Numeral.ExponentText exponent text)
    (hrest : Stops isIdentifierChar rest) :
    substitute bindings (whole ++ '.' :: text ++ rest) =
      substituteNumeral bindings (whole ++ '.' :: text) ++ substitute bindings rest := by
  have hbefore := inert_digits hnames hwhole
  cases hexponent with
  | none =>
      rw [substituteNumeral, dropWhile_append_of_stops hwhole (stops_cons.mpr (by decide))]
      exact hbefore.append_cons (by decide) (inert_digits hnames rfl) rest hrest
  | some hmark hsign hpower _ =>
      rw [substituteNumeral_of_bare hwhole hmark, List.append_assoc, List.cons_append,
        hbefore _ (stops_cons.mpr (by decide)), substitute_cons_of_not (by decide),
        substitute_exponent_append hnames hmark hsign hpower hrest]
      simp

/-- Substitution treats a written numeral on its own. -/
theorem substitute_written_append (hnames : ∀ binding ∈ bindings, isName binding.1 = true)
    {numeral : Numeral} {written rest : Text} (hwritten : numeral.Written written)
    (hrest : Stops isIdentifierChar rest) :
    substitute bindings (written ++ rest) =
      substituteNumeral bindings written ++ substitute bindings rest := by
  obtain ⟨exponent, hexponent, rfl⟩ := hwritten.text_eq
  cases hfraction : numeral.fraction with
  | none =>
      have hne : numeral.whole ≠ [] := fun hnil =>
        hwritten.notEmpty ⟨hnil, by rw [hfraction, Option.getD_none]⟩
      rw [Numeral.fractionText, List.nil_append,
        substituteNumeral_of_digits hwritten.whole hexponent]
      exact inert_digits_append_exponent hnames hne hwritten.whole hexponent rest hrest
  | some digits =>
      have hdigits := hwritten.fraction digits hfraction
      rw [Numeral.fractionText, List.cons_append]
      by_cases hbare : digits = []
      · rw [hbare, List.nil_append]
        exact substitute_bare_append hnames hwritten.whole hexponent hrest
      · rw [substituteNumeral_of_fraction hbare hwritten.whole hdigits]
        exact (inert_digits hnames hwritten.whole).append_cons (by decide)
          (inert_digits_append_exponent hnames hbare hdigits hexponent) rest hrest

theorem substituteNumeral_of_isFormalName
    (hformal : ∀ binding ∈ bindings, isFormalName binding.1 = true) (written : Text) :
    substituteNumeral bindings written = written := by
  fun_cases substituteNumeral bindings written with
  | case1 mark power hdrop hmark =>
      have hrun : isFormalName (mark :: power.takeWhile Char.isDigit) = false := by
        have hexponent : isExponentRun (mark :: power.takeWhile Char.isDigit) = true := by
          rw [isExponentRun, List.all_takeWhile, Bool.and_true]
          simpa using hmark
        rw [isFormalName, hexponent]
        exact Bool.and_false _
      rw [lookupRun_of_not hformal hrun, List.cons_append, List.takeWhile_append_dropWhile, ← hdrop,
        List.takeWhile_append_dropWhile]
  | case2 => rfl
  | case3 => rfl

/-- No part of a written numeral is replaced. -/
theorem inert_written (hformal : ∀ binding ∈ bindings, isFormalName binding.1 = true)
    {numeral : Numeral} {written : Text} (hwritten : numeral.Written written) :
    Inert bindings written := by
  intro rest hrest
  have hnames : ∀ binding ∈ bindings, isName binding.1 = true := by
    intro binding hmem
    have hname := hformal binding hmem
    rw [isFormalName, Bool.and_eq_true] at hname
    exact hname.1
  rw [substitute_written_append hnames hwritten hrest,
    substituteNumeral_of_isFormalName hformal]

-- The point ends the run before it, so the name `e` is found in this numeral.
example : substitute [(['e'], ['3'])] "1.e+5".toList = "1.3+5".toList := by cbv

end Text

end Lindenmayer
