import Lindenmayer.Proofs.Formula.Substitution

/-!
# Integers in the place of names

An integer as it is written is an operand: digits, with a sign in front of them or without. So in
the place of a name that stands by itself its text is read as the integer, wherever the name stands.
-/

namespace Lindenmayer

/-! ## Integers as operands -/

def Derivation.integer (n : Int64) : Derivation .unary :=
  if n.toInt < 0 then
    .signed .minus (.primary (.number (.integer (Int64.ofInt n.toInt.natAbs))))
  else
    .primary (.number (.integer n))

theorem laid_toDigits {n : Nat} (hn : (n : Int) ≤ Int64.maxValue.toInt) :
    Laid (Nat.toDigits 10 n) [.number (.integer (Int64.ofInt n))] := by
  have hwritten := Numeral.written_digits Nat.toDigits_ne_nil (all_isDigit_toDigits n)
  have hvalue : digitsValue (Nat.toDigits 10 n) = n := Nat.ofDigitChars_ten_toDigits
  have hnumber :
      Numeral.toNumber ⟨Nat.toDigits 10 n, none, none⟩ = .integer (Int64.ofInt n) := by
    simp [Numeral.toNumber, Numeral.isPlain, hvalue, int64?, hn]
  rw [← hnumber]
  exact .of_lexeme (.number hwritten)

/-- The text of an integer is laid out as its operand. The digits of the least integer alone exceed
all integers. -/
theorem laid_integerText {n : Int64} (hn : Int64.minValue < n) :
    Laid (integerText n.toInt) (Derivation.integer n).lexemes := by
  rw [Int64.lt_iff_toInt_lt, Int64.toInt_minValue] at hn
  have hmax := n.toInt_le
  rw [Int64.toInt_maxValue] at hmax
  have hmagnitude : (n.toInt.natAbs : Int) ≤ Int64.maxValue.toInt := by
    rw [Int64.toInt_maxValue]
    omega
  have hdigits := laid_toDigits hmagnitude
  rw [integerText, Derivation.integer]
  by_cases hnegative : n.toInt < 0
  · rw [if_pos hnegative, if_pos hnegative]
    exact .lexeme (.operator .sub) trivial hdigits
  · rw [if_neg hnegative, if_neg hnegative]
    rw [Int.natAbs_of_nonneg (Int.not_lt.mp hnegative), Int64.ofInt_toInt] at hdigits
    exact hdigits

/-- The operand has the integer for its value. -/
theorem eval_integer {n : Int64} (hn : Int64.minValue < n) (source : Text) :
    (Derivation.integer n).meaning.eval source = .ok (.integer n) := by
  rw [Int64.lt_iff_toInt_lt, Int64.toInt_minValue] at hn
  rw [Derivation.integer]
  by_cases hnegative : n.toInt < 0
  · rw [if_pos hnegative]
    have hmagnitude : -(Int64.ofInt n.toInt.natAbs).toInt = n.toInt := by
      rw [Int64.toInt_ofInt_of_le (by omega) (by omega)]
      omega
    have hrange : Int64.minValue.toInt ≤ n.toInt ∧ n.toInt ≤ Int64.maxValue.toInt :=
      ⟨n.minValue_le_toInt, n.toInt_le⟩
    change Number.ofInt source (-(Int64.ofInt n.toInt.natAbs).toInt) = .ok (.integer n)
    rw [hmagnitude, Number.ofInt, int64?, if_pos hrange, Int64.ofInt_toInt]
  · rw [if_neg hnegative]
    rfl

/-! ## Substitution on formulas -/

namespace Formula

/-- Formulas of the same value can take the place of each other. -/
theorem eval_substitute_congr {source : Text} {first second : Text → Formula}
    (h : ∀ t, (first t).eval source = (second t).eval source) (formula : Formula) :
    (formula.substitute first).eval source = (formula.substitute second).eval source := by
  induction formula with
  | number n => rfl
  | name t => exact h t
  | signed sign operand ih =>
      rw [substitute, substitute, eval, eval, ih]
  | binary left operator right ihleft ihright =>
      rw [substitute, substitute, eval, eval, ihleft, ihright]

/-- The text of a derivation is read as its formula. -/
theorem ofText_of_laid {source : Text} {derivation : Derivation .additive}
    (hlaid : Laid source derivation.lexemes) : ofText source = .ok derivation.formula :=
  Except.bind_eq_ok_iff.mpr
    ⟨_, hlaid.lexFrom source, Derivation.ofLexemes_lexemes source derivation⟩

end Formula

/-! ## Splicing -/

def Template.pieces {α : Type} (template : Template α) : List Text :=
  template.holes.map (·.1) ++ [template.rest]

theorem Template.fill_cons (before text : Text) (holes : List (Text × Text)) (rest : Text) :
    fill ⟨(before, text) :: holes, rest⟩ = before ++ (text ++ fill ⟨holes, rest⟩) := by
  simp [fill]

def setOff (name : Text) : Text := ' ' :: name ++ [' ']

/-- A name that is set off is one lexeme between those of the texts around it. -/
theorem Laid.exists_of_setOff {name before rest : Text} (hname : isName name = true)
    {lexemes : List Lexeme} (hlaid : Laid (before ++ (setOff name ++ rest)) lexemes) :
    ∃ first last, Laid before first ∧ Laid rest last ∧ lexemes = first ++ .name name :: last := by
  have htext : before ++ (setOff name ++ rest) = before ++ ' ' :: (name ++ ' ' :: rest) := by
    simp [setOff]
  rw [htext] at hlaid
  obtain ⟨first, tail, hfirst, htail, rfl⟩ := hlaid.exists_of_layout (by decide)
  obtain ⟨middle, last, hmiddle, hlast, rfl⟩ := htail.exists_of_layout (by decide)
  rw [hmiddle.eq_lexemes (.of_isName hname)]
  exact ⟨first, last, hfirst, hlast, rfl⟩

theorem head?_replace (operands : Text → List Lexeme) {lexemes : List Lexeme}
    (hcontinues : ∀ next, lexemes.head? = some next → next.continues = true) :
    (lexemes.flatMap (Lexeme.replace operands)).head? = lexemes.head? := by
  cases lexemes with
  | nil => rfl
  | cons lexeme lexemes =>
      have hlexeme := hcontinues lexeme rfl
      cases lexeme with
      | number n => cases hlexeme
      | name t => cases hlexeme
      | operator operator => rfl
      | openParen => cases hlexeme
      | closeParen => rfl

theorem flatMap_replace_eq_self {operands : Text → List Lexeme} {lexemes : List Lexeme}
    (h : ∀ t, .name t ∈ lexemes → operands t = [.name t]) :
    lexemes.flatMap (Lexeme.replace operands) = lexemes := by
  induction lexemes with
  | nil => rfl
  | cons lexeme lexemes ih =>
      have hlexeme : lexeme.replace operands = [lexeme] := by
        cases lexeme with
        | number n => rfl
        | name t => exact h t List.mem_cons_self
        | operator operator => rfl
        | openParen => rfl
        | closeParen => rfl
      rw [List.flatMap_cons, hlexeme, ih fun t hmem => h t (List.mem_cons_of_mem _ hmem)]
      rfl

/-- Operands in the place of names that are set off are laid out between the lexemes around them. -/
theorem Laid.splice {β : Type} {name value : β → Text} {operands : Text → List Lexeme}
    {atoms : Template β}
    (hatoms : ∀ atom ∈ atoms.values,
      isName (name atom) = true ∧ Laid (value atom) (operands (name atom)))
    (hpieces : ∀ piece ∈ atoms.pieces, ∀ lexemes, Laid piece lexemes →
      lexemes.flatMap (Lexeme.replace operands) = lexemes)
    {lexemes : List Lexeme} (hlaid : Laid (atoms.map fun atom => setOff (name atom)).fill lexemes)
    (hseparated : Separated lexemes) :
    Laid (atoms.map value).fill (lexemes.flatMap (Lexeme.replace operands)) := by
  obtain ⟨holes, rest⟩ := atoms
  induction holes generalizing lexemes with
  | nil =>
      rw [hpieces rest List.mem_cons_self lexemes hlaid]
      exact hlaid
  | cons hole holes ih =>
      obtain ⟨before, atom⟩ := hole
      obtain ⟨hname, hvalue⟩ :
          isName (name atom) = true ∧ Laid (value atom) (operands (name atom)) :=
        hatoms atom List.mem_cons_self
      rw [Template.map, List.map_cons, Template.fill_cons] at hlaid
      obtain ⟨first, last, hfirst, hlast, rfl⟩ := hlaid.exists_of_setOff hname
      obtain ⟨-, hrest, hbetween⟩ := List.isChain_append.mp hseparated
      have hcontinues next (hnext : last.head? = some next) : next.continues = true :=
        hrest.rel_head? hnext rfl
      have hlastSeparated : Separated last := hrest.tail
      have ih := ih hlastSeparated (fun other hmem => hatoms other (List.mem_cons_of_mem _ hmem))
        (fun piece hmem => hpieces piece (List.mem_cons_of_mem _ hmem)) hlast
      -- Behind the name stands what cannot go on with an operand, and before it no operand.
      have hstops : Text.Stops extendsOperand (Template.map value ⟨holes, rest⟩).fill := by
        refine ih.stops fun next hnext => hcontinues next ?_
        rw [← hnext, head?_replace operands hcontinues]
      have hatom lexeme (hmem : first.getLast? = some lexeme) : lexeme.isAtom = false := by
        cases hlexeme : lexeme.isAtom with
        | false => rfl
        | true => cases hbetween lexeme hmem (.name (name atom)) rfl hlexeme
      rw [List.flatMap_append, List.flatMap_cons, hpieces before List.mem_cons_self first hfirst]
      rw [Template.map, List.map_cons, Template.fill_cons]
      exact hfirst.append_of_last (hvalue.append ih hstops) hatom

/-! ## Fresh names -/

def Mentions (text name : Text) : Prop := ∃ lexemes, lex text = .ok lexemes ∧ .name name ∈ lexemes

instance (text name : Text) : Decidable (Mentions text name) :=
  match hlex : lex text with
  | .ok lexemes =>
      decidable_of_iff (.name name ∈ lexemes)
        ⟨fun hmem => ⟨lexemes, hlex, hmem⟩, fun ⟨_, hok, hmem⟩ => by
          cases hlex.symm.trans hok
          exact hmem⟩
  | .error _ =>
      .isFalse fun ⟨_, hok, _⟩ => by
        cases hlex.symm.trans hok

namespace Template

variable {α β γ : Type}

def refill (template : Template α) (values : List β) : Template β :=
  ⟨(template.holes.zip values).map fun hole => (hole.1.1, hole.2), template.rest⟩

theorem map_refill (f : β → γ) (template : Template α) (values : List β) :
    (template.refill values).map f = template.refill (values.map f) := by
  simp [refill, map, List.zip_map_right]

theorem values_refill {template : Template α} {values : List β}
    (hlength : values.length = template.holes.length) :
    (template.refill values).values = values := by
  rw [refill, Template.values, List.map_map]
  exact List.map_snd_zip hlength.le

theorem pieces_refill {template : Template α} {values : List β}
    (hlength : values.length = template.holes.length) :
    (template.refill values).pieces = template.pieces := by
  have hholes : (template.holes.zip values).map (·.1.1) = template.holes.map (·.1) := calc
    (template.holes.zip values).map (·.1.1)
      = ((template.holes.zip values).map Prod.fst).map (·.1) := List.map_map.symm
    _ = template.holes.map (·.1) := by rw [List.map_fst_zip hlength.ge]
  rw [refill, pieces, List.map_map]
  exact congrArg (· ++ [template.rest]) hholes

/-- The names are one for each hole, all different, and not in use between the holes. -/
structure Fresh (template : Template α) (names : List Text) : Prop where
  length_eq : names.length = template.holes.length
  isName : ∀ name ∈ names, isName name = true
  nodup : names.Nodup
  unused : ∀ name ∈ names, ∀ piece ∈ template.pieces, ¬Mentions piece name

instance (template : Template α) (names : List Text) : Decidable (template.Fresh names) :=
  decidable_of_iff
    (names.length = template.holes.length ∧ (∀ name ∈ names, Lindenmayer.isName name = true) ∧
      names.Nodup ∧ ∀ name ∈ names, ∀ piece ∈ template.pieces, ¬Mentions piece name)
    ⟨fun h => ⟨h.1, h.2.1, h.2.2.1, h.2.2.2⟩, fun h => ⟨h.length_eq, h.isName, h.nodup, h.unused⟩⟩

end Template

def Formula.integerOrName (bindings : List (Text × Int64)) (t : Text) : Formula :=
  match bindings.lookup t with
  | some n => .number (.integer n)
  | none => .name t

def Derivation.integerOrName (bindings : List (Text × Int64)) (t : Text) : Derivation .unary :=
  match bindings.lookup t with
  | some n => .integer n
  | none => .primary (.name t)

theorem lookup_of_nodup {β : Type} {bindings : List (Text × β)}
    (hnodup : (bindings.map (·.1)).Nodup) {name : Text} {value : β}
    (hmem : (name, value) ∈ bindings) : bindings.lookup name = some value := by
  obtain ⟨before, after, rfl⟩ := List.append_of_mem hmem
  refine List.lookup_eq_some_iff.mpr ⟨before, after, rfl, fun binding hbefore => ?_⟩
  rw [List.map_append, List.nodup_append] at hnodup
  rw [bne_iff_ne]
  exact (hnodup.2.2 binding.1 (List.mem_map_of_mem hbefore) name List.mem_cons_self).symm

theorem eval_integerOrName {bindings : List (Text × Int64)}
    (hbindings : ∀ binding ∈ bindings, Int64.minValue < binding.2) (source t : Text) :
    (Derivation.integerOrName bindings t).meaning.eval source =
      (Formula.integerOrName bindings t).eval source := by
  unfold Derivation.integerOrName Formula.integerOrName
  cases hlookup : bindings.lookup t with
  | some n => exact eval_integer (hbindings (t, n) (mem_of_lookup hlookup)) source
  | none => rfl

/-! ## Integers for fresh names -/

section

variable {α : Type} {template : Template α} {names : List Text} {integers : List Int64}
  (hfresh : template.Fresh names) (hlength : integers.length = template.holes.length)
include hfresh hlength

theorem Template.Fresh.map_fst_zip : (names.zip integers).map (·.1) = names :=
  List.map_fst_zip (hfresh.length_eq.trans hlength.symm).le

theorem Template.Fresh.map_snd_zip : (names.zip integers).map (·.2) = integers :=
  List.map_snd_zip (hlength.trans hfresh.length_eq.symm).le

theorem Template.Fresh.lookup_zip {name : Text} {n : Int64}
    (hmem : (name, n) ∈ names.zip integers) : (names.zip integers).lookup name = some n := by
  refine lookup_of_nodup ?_ hmem
  rw [hfresh.map_fst_zip hlength]
  exact hfresh.nodup

/-- The texts of integers are laid out in the place of fresh names. -/
theorem Laid.refill (hintegers : ∀ n ∈ integers, Int64.minValue < n) {lexemes : List Lexeme}
    (hlaid : Laid (template.refill (names.map setOff)).fill lexemes)
    (hseparated : Separated lexemes) :
    Laid (template.refill (integers.map fun n => integerText n.toInt)).fill
      (lexemes.flatMap
        (Lexeme.replace fun t => (Derivation.integerOrName (names.zip integers) t).lexemes)) := by
  have hnames := hfresh.map_fst_zip hlength
  have hvalues := hfresh.map_snd_zip hlength
  have hbindings : (names.zip integers).length = template.holes.length := by
    rw [List.length_zip, hfresh.length_eq, hlength, Nat.min_self]
  have hnamed : (template.refill (names.zip integers)).map (fun binding => setOff binding.1) =
      template.refill (names.map setOff) := by
    rw [Template.map_refill]
    conv => rhs; rw [← hnames, List.map_map]
    rfl
  have hspliced : (template.refill (names.zip integers)).map
      (fun binding => integerText binding.2.toInt) =
        template.refill (integers.map fun n => integerText n.toInt) := by
    rw [Template.map_refill]
    conv => rhs; rw [← hvalues, List.map_map]
    rfl
  rw [← hnamed] at hlaid
  rw [← hspliced]
  refine Laid.splice ?_ ?_ hlaid hseparated
  · rw [Template.values_refill hbindings]
    rintro ⟨name, n⟩ hmem
    have hmemZip := List.of_mem_zip hmem
    refine ⟨hfresh.isName name hmemZip.1, ?_⟩
    rw [Derivation.integerOrName, hfresh.lookup_zip hlength hmem]
    exact laid_integerText (hintegers n hmemZip.2)
  · rw [Template.pieces_refill hbindings]
    intro piece hpiece lexemes hlexemes
    refine flatMap_replace_eq_self fun t hmem => ?_
    have hlookup : (names.zip integers).lookup t = none := by
      rw [List.lookup_eq_none_iff]
      rintro ⟨name, n⟩ hbinding
      rw [bne_iff_ne]
      rintro rfl
      exact hfresh.unused t (List.of_mem_zip hbinding).1 piece hpiece
        ⟨lexemes, hlexemes.lexFrom piece, hmem⟩
    rw [Derivation.integerOrName, hlookup]
    rfl

/-- What is read with fresh names is read with integers in their place. -/
theorem Formula.ofText_refill (hintegers : ∀ n ∈ integers, Int64.minValue < n) {formula : Formula}
    (hread : ofText (template.refill (names.map setOff)).fill = .ok formula) :
    ofText (template.refill (integers.map fun n => integerText n.toInt)).fill =
      .ok (formula.substitute fun t =>
        (Derivation.integerOrName (names.zip integers) t).meaning) := by
  obtain ⟨derivation, hlaid, hseparated, rfl⟩ := exists_laid hread
  have hspliced := hlaid.refill hfresh hlength hintegers hseparated
  have hmeaning := derivation.meaning_graft (Derivation.integerOrName (names.zip integers))
  rw [← Derivation.lexemes_graft] at hspliced
  rw [← hmeaning]
  exact ofText_of_laid hspliced

end

end Lindenmayer
