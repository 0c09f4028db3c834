import Lindenmayer.Proofs.Text.Class
import Lindenmayer.Proofs.Text.Run

/-!
# Written numerals

The scanner of numerals cuts off exactly the written form of a numeral, and finds a written numeral
again in front of every text that cannot extend it.
-/

namespace Lindenmayer

/-- A character that could belong to the numeral before it. -/
def extendsNumeral (c : Char) : Bool :=
  isIdentifierChar c || c = '.'

theorem extendsNumeral_of_isIdentifierChar {c : Char} (h : isIdentifierChar c = true) :
    extendsNumeral c = true := by
  simp [extendsNumeral, h]

namespace Numeral

inductive SignText : Bool → Text → Prop where
  | none : SignText false []
  | plus : SignText false ['+']
  | minus : SignText true ['-']

def fractionText : Option Text → Text
  | none => []
  | some digits => '.' :: digits

inductive ExponentText : Option (Bool × Text) → Text → Prop where
  | none : ExponentText none []
  | some {mark : Char} {negative : Bool} {sign digits : Text} (hmark : mark = 'e' ∨ mark = 'E')
      (hsign : SignText negative sign) (hdigits : digits.all Char.isDigit = true)
      (hne : digits ≠ []) :
      ExponentText (some (negative, digits)) (mark :: (sign ++ digits))

structure Written (numeral : Numeral) (text : Text) : Prop where
  whole : numeral.whole.all Char.isDigit = true
  fraction : ∀ digits, numeral.fraction = some digits → digits.all Char.isDigit = true
  notEmpty : ¬(numeral.whole = [] ∧ numeral.fraction.getD [] = [])
  text_eq : ∃ exponent, ExponentText numeral.exponent exponent ∧
    text = numeral.whole ++ (fractionText numeral.fraction ++ exponent)

theorem written_digits {digits : Text} (hne : digits ≠ [])
    (hdigits : digits.all Char.isDigit = true) : Written ⟨digits, none, none⟩ digits where
  whole := hdigits
  fraction := fun _ hnone => nomatch hnone
  notEmpty := fun hempty => hne hempty.1
  text_eq := ⟨[], .none, by simp [fractionText]⟩

/-! ## What is cut off -/

theorem signText_of_takeSign (text : Text) :
    ∃ sign, SignText (takeSign text).1 sign ∧ text = sign ++ (takeSign text).2 := by
  fun_cases takeSign text with
  | case1 => exact ⟨['-'], .minus, rfl⟩
  | case2 => exact ⟨['+'], .plus, rfl⟩
  | case3 => exact ⟨[], .none, rfl⟩

theorem eq_of_takeFraction (text : Text) :
    text = fractionText (takeFraction text).1 ++ (takeFraction text).2 ∧
      ∀ digits, (takeFraction text).1 = some digits → digits.all Char.isDigit = true := by
  fun_cases takeFraction text with
  | case1 text =>
      refine ⟨by simp [fractionText], ?_⟩
      rintro digits ⟨rfl⟩
      exact List.all_takeWhile
  | case2 =>
      refine ⟨rfl, ?_⟩
      rintro digits ⟨⟩

theorem exponentText_of_takeExponent (text : Text) :
    ∃ exponent, ExponentText (takeExponent text).1 exponent ∧
      text = exponent ++ (takeExponent text).2 := by
  fun_cases takeExponent text with
  | case1 => exact ⟨[], .none, rfl⟩
  | case2 c rest signed hexponent =>
      obtain ⟨hmark, hdigit⟩ := hexponent
      obtain ⟨sign, hsign, hrest⟩ := signText_of_takeSign rest
      refine ⟨_, .some hmark hsign List.all_takeWhile ?_, ?_⟩
      · cases hdigits : (takeSign rest).2 with
        | nil => simp [signed, hdigits] at hdigit
        | cons d digits =>
            have hhead : d.isDigit = true := by simpa [signed, hdigits] using hdigit
            simp [hhead]
      · rw [List.cons_append, List.append_assoc, List.takeWhile_append_dropWhile, ← hrest]
  | case3 => exact ⟨[], .none, rfl⟩

theorem written_of_scan? {text rest : Text} {numeral : Numeral}
    (h : scan? text = some (numeral, rest)) :
    ∃ written, numeral.Written written ∧ text = written ++ rest := by
  obtain ⟨hdigits, hpair⟩ := Option.ite_none_left_eq_some.mp h
  obtain ⟨rfl, rfl⟩ := Prod.mk.inj (Option.some.inj hpair)
  obtain ⟨hfraction, hall⟩ := eq_of_takeFraction (text.dropWhile Char.isDigit)
  obtain ⟨exponent, hexponent, hrest⟩ :=
    exponentText_of_takeExponent (takeFraction (text.dropWhile Char.isDigit)).2
  refine ⟨_, ⟨List.all_takeWhile, hall, hdigits, exponent, hexponent, rfl⟩, ?_⟩
  rw [List.append_assoc, List.append_assoc, ← hrest, ← hfraction, List.takeWhile_append_dropWhile]

theorem written_of_ofText? {text : Text} {numeral : Numeral} (h : ofText? text = some numeral) :
    numeral.Written text := by
  revert h
  fun_cases ofText? text with
  | case1 found hscan =>
      rintro ⟨⟩
      obtain ⟨written, hwritten, rfl⟩ := written_of_scan? hscan
      rwa [List.append_nil]
  | case2 => exact nofun

/-! ## What is found -/

theorem takeSign_of_ne {c : Char} (hminus : c ≠ '-') (hplus : c ≠ '+') (text : Text) :
    takeSign (c :: text) = (false, c :: text) := by
  simp [takeSign, hminus, hplus]

theorem takeSign_append {negative : Bool} {sign digits : Text} (hsign : SignText negative sign)
    (hdigits : digits.all Char.isDigit = true) (hne : digits ≠ []) (rest : Text) :
    takeSign (sign ++ (digits ++ rest)) = (negative, digits ++ rest) := by
  cases hsign with
  | plus => rfl
  | minus => rfl
  | none =>
      cases digits with
      | nil => exact absurd rfl hne
      | cons d digits =>
          rw [List.all_cons, Bool.and_eq_true] at hdigits
          have hdigit : d.isDigit = true := hdigits.1
          have hminus : d ≠ '-' := by
            rintro rfl
            cases hdigit
          have hplus : d ≠ '+' := by
            rintro rfl
            cases hdigit
          exact takeSign_of_ne hminus hplus (digits ++ rest)

theorem takeExponent_append {exponent : Option (Bool × Text)} {text rest : Text}
    (hexponent : ExponentText exponent text) (hrest : Text.Stops extendsNumeral rest) :
    takeExponent (text ++ rest) = (exponent, rest) := by
  cases hexponent with
  | none =>
      cases rest with
      | nil => rfl
      | cons c rest =>
          have hmark : ¬(c = 'e' ∨ c = 'E') := by
            rintro (rfl | rfl) <;> exact absurd (Text.stops_cons.mp hrest) (by decide)
          simp [takeExponent, hmark]
  | @some mark negative sign digits hmark hsign hdigits hne =>
      have hstops : Text.Stops Char.isDigit rest :=
        hrest.mono fun c hc =>
          extendsNumeral_of_isIdentifierChar (isIdentifierChar_of_isDigit hc)
      have hhead : (digits ++ rest).head?.any Char.isDigit = true := by
        cases digits with
        | nil => exact absurd rfl hne
        | cons d digits => simp_all
      rw [List.cons_append, List.append_assoc, takeExponent]
      simp only [takeSign_append hsign hdigits hne, hmark, hhead, and_self, if_true,
        Text.takeWhile_append_of_stops hdigits hstops,
        Text.dropWhile_append_of_stops hdigits hstops]

theorem stops_isDigit_exponentText {exponent : Option (Bool × Text)} {text rest : Text}
    (hexponent : ExponentText exponent text) (hrest : Text.Stops extendsNumeral rest) :
    Text.Stops Char.isDigit (text ++ rest) ∧ (text ++ rest).head? ≠ some '.' := by
  cases hexponent with
  | none =>
      refine ⟨hrest.mono fun c hc =>
        extendsNumeral_of_isIdentifierChar (isIdentifierChar_of_isDigit hc), ?_⟩
      intro hhead
      exact absurd (hrest '.' hhead) (by decide)
  | some hmark hsign hdigits hne =>
      rcases hmark with rfl | rfl <;> simp

theorem takeFraction_of_head?_ne {text : Text} (hpoint : text.head? ≠ some '.') :
    takeFraction text = (none, text) := by
  fun_cases takeFraction text with
  | case1 => exact absurd rfl hpoint
  | case2 => rfl

theorem takeFraction_append {fraction : Option Text} {rest : Text}
    (hfraction : ∀ digits, fraction = some digits → digits.all Char.isDigit = true)
    (hdigit : Text.Stops Char.isDigit rest) (hpoint : rest.head? ≠ some '.') :
    takeFraction (fractionText fraction ++ rest) = (fraction, rest) := by
  cases fraction with
  | none => exact takeFraction_of_head?_ne hpoint
  | some digits =>
      have hall := hfraction digits rfl
      simp only [fractionText, List.cons_append, takeFraction,
        Text.takeWhile_append_of_stops hall hdigit, Text.dropWhile_append_of_stops hall hdigit]

/-- A written numeral is found in front of a text that cannot extend it. -/
theorem scan?_append {numeral : Numeral} {written rest : Text} (hwritten : numeral.Written written)
    (hrest : Text.Stops extendsNumeral rest) :
    scan? (written ++ rest) = some (numeral, rest) := by
  obtain ⟨exponent, hexponent, rfl⟩ := hwritten.text_eq
  obtain ⟨hdigit, hpoint⟩ := stops_isDigit_exponentText hexponent hrest
  have hfraction : Text.Stops Char.isDigit
      (fractionText numeral.fraction ++ (exponent ++ rest)) := by
    cases numeral.fraction with
    | none => exact hdigit
    | some digits => simp [fractionText]
  rw [List.append_assoc, List.append_assoc]
  simp only [scan?, Text.takeWhile_append_of_stops hwritten.whole hfraction,
    Text.dropWhile_append_of_stops hwritten.whole hfraction,
    takeFraction_append hwritten.fraction hdigit hpoint, takeExponent_append hexponent hrest,
    if_neg hwritten.notEmpty]

/-! ## Written forms -/

namespace Written

variable {numeral : Numeral} {written : Text}

theorem exists_head (hwritten : numeral.Written written) :
    ∃ c rest, written = c :: rest ∧ (c.isDigit = true ∨ c = '.') := by
  obtain ⟨exponent, -, rfl⟩ := hwritten.text_eq
  cases hwhole : numeral.whole with
  | cons c digits =>
      have hdigits := hwritten.whole
      rw [hwhole, List.all_cons, Bool.and_eq_true] at hdigits
      exact ⟨c, _, rfl, Or.inl hdigits.1⟩
  | nil =>
      cases hfraction : numeral.fraction with
      | none => exact absurd ⟨hwhole, by simp [hfraction]⟩ hwritten.notEmpty
      | some digits => exact ⟨'.', _, rfl, Or.inr rfl⟩

theorem takeSign_append (hwritten : numeral.Written written) {negative : Bool} {sign : Text}
    (hsign : SignText negative sign) : takeSign (sign ++ written) = (negative, written) := by
  cases hsign with
  | plus => rfl
  | minus => rfl
  | none =>
      obtain ⟨c, rest, rfl, hhead⟩ := hwritten.exists_head
      have hminus : c ≠ '-' := by
        rintro rfl
        revert hhead
        decide
      have hplus : c ≠ '+' := by
        rintro rfl
        revert hhead
        decide
      exact takeSign_of_ne hminus hplus rest

/-- A text is the written form of one numeral at most. -/
theorem eq (hwritten : numeral.Written written) {other : Numeral} (hother : other.Written written) :
    numeral = other := by
  have hscan := scan?_append hwritten (Text.stops_nil _)
  rw [scan?_append hother (Text.stops_nil _)] at hscan
  cases hscan
  rfl

theorem ofText? (hwritten : numeral.Written written) : Numeral.ofText? written = some numeral := by
  have hscan := scan?_append hwritten (Text.stops_nil _)
  rw [List.append_nil] at hscan
  rw [Numeral.ofText?, hscan]

theorem eq_whole_of_isPlain (hwritten : numeral.Written written) (hplain : numeral.isPlain = true) :
    written = numeral.whole := by
  rw [isPlain, Bool.and_eq_true, Option.isNone_iff_eq_none, Option.isNone_iff_eq_none] at hplain
  obtain ⟨exponent, hexponent, rfl⟩ := hwritten.text_eq
  rw [hplain.2] at hexponent
  cases hexponent
  rw [hplain.1, fractionText, List.append_nil, List.append_nil]

end Written

end Numeral

end Lindenmayer
