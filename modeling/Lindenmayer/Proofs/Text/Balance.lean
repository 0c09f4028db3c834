import Lindenmayer.Text.Group
import Mathlib.Data.List.Infix

/-!
# Balanced texts

The parentheses of a text balance if none closes a group that is not open and every group is closed
at the end. A parameter is what can stand between the commas of a parameter list: a balanced text
that is not blank and has its own commas inside groups. Both scanners, the one for groups and the
one for parameter lists, find exactly such texts.
-/

namespace Lindenmayer.Text

/-! ## Nesting -/

/-- How many groups more the text opens than it closes. -/
def nesting (text : Text) : Int := text.count '(' - text.count ')'

@[simp]
theorem nesting_nil : nesting [] = 0 := rfl

theorem nesting_cons (c : Char) (text : Text) :
    nesting (c :: text) = nesting [c] + nesting text := by
  simp only [nesting, List.count_cons, List.count_nil]
  omega

@[simp]
theorem nesting_openParen : nesting ['('] = 1 := by decide

@[simp]
theorem nesting_closeParen : nesting [')'] = -1 := by decide

theorem succ_add_nesting_closeParen (depth : Nat) :
    ((depth + 1 : Nat) : Int) + nesting [')'] = depth := by
  rw [nesting_closeParen]
  omega

theorem nesting_of_ne {c : Char} (hopen : c ≠ '(') (hclose : c ≠ ')') : nesting [c] = 0 := by
  simp [nesting, hopen, hclose]

/-- Behind `depth` open groups, the text closes none that is not open, and all of them by its
end. -/
structure Closes (depth : Int) (text : Text) : Prop where
  start_nonneg : ∀ start, start <+: text → 0 ≤ depth + nesting start
  closed : depth + nesting text = 0

/-- Behind `depth` open groups, every comma of the text stands inside a group. -/
def CommasInside (depth : Int) (text : Text) : Prop :=
  ∀ start, start ++ [','] <+: text → 0 < depth + nesting start

/-- What a parameter list can have between two commas. -/
structure IsParameter (text : Text) : Prop where
  notBlank : text.isBlank = false
  balanced : Closes 0 text
  commasInside : CommasInside 0 text

instance (depth : Int) (text : Text) : Decidable (Closes depth text) :=
  decidable_of_iff
    ((∀ start ∈ text.inits, 0 ≤ depth + nesting start) ∧ depth + nesting text = 0)
    ⟨fun h => ⟨fun start hstart => h.1 start ((List.mem_inits start text).mpr hstart), h.2⟩,
      fun h => ⟨fun start hstart => h.start_nonneg start ((List.mem_inits start text).mp hstart),
        h.closed⟩⟩

instance (depth : Int) (text : Text) : Decidable (CommasInside depth text) :=
  decidable_of_iff
    (∀ start ∈ text.inits, start ++ [','] <+: text → 0 < depth + nesting start)
    ⟨fun h start hstart => h start
        ((List.mem_inits start text).mpr ((List.prefix_append start [',']).trans hstart)) hstart,
      fun h start _ => h start⟩

instance (text : Text) : Decidable (IsParameter text) :=
  decidable_of_iff (text.isBlank = false ∧ Closes 0 text ∧ CommasInside 0 text)
    ⟨fun h => ⟨h.1, h.2.1, h.2.2⟩, fun h => ⟨h.notBlank, h.balanced, h.commasInside⟩⟩

variable {depth : Int} {c : Char} {text : Text}

theorem Closes.nonneg (hcloses : Closes depth text) : 0 ≤ depth := by
  have hnil := hcloses.start_nonneg [] List.nil_prefix
  rwa [nesting_nil, Int.add_zero] at hnil

@[simp]
theorem closes_nil : Closes depth [] ↔ depth = 0 := by
  constructor
  · intro hcloses
    simpa using hcloses.closed
  · rintro rfl
    exact ⟨fun start hstart => by simp [List.prefix_nil.mp hstart], rfl⟩

theorem closes_cons : Closes depth (c :: text) ↔ 0 ≤ depth ∧ Closes (depth + nesting [c]) text := by
  constructor
  · intro hcloses
    refine ⟨hcloses.nonneg, fun start hstart => ?_, ?_⟩
    · have hnonneg := hcloses.start_nonneg (c :: start) ((List.prefix_cons_inj c).mpr hstart)
      rwa [nesting_cons, ← Int.add_assoc] at hnonneg
    · rw [Int.add_assoc, ← nesting_cons]
      exact hcloses.closed
  · rintro ⟨hdepth, hcloses⟩
    refine ⟨fun start hstart => ?_, ?_⟩
    · rcases List.prefix_cons_iff.mp hstart with rfl | ⟨inner, rfl, hinner⟩
      · simpa using hdepth
      · rw [nesting_cons, ← Int.add_assoc]
        exact hcloses.start_nonneg inner hinner
    · rw [nesting_cons, ← Int.add_assoc]
      exact hcloses.closed

theorem Closes.cons {next : Int} (hcloses : Closes next text) (hdepth : 0 ≤ depth)
    (hnext : depth + nesting [c] = next) : Closes depth (c :: text) :=
  closes_cons.mpr ⟨hdepth, hnext.symm ▸ hcloses⟩

/-- A balanced text behind another text changes nothing for the groups that are open. -/
theorem Closes.append {rest : Text} (hcloses : Closes depth text) (hrest : Closes 0 rest) :
    Closes depth (text ++ rest) := by
  induction text generalizing depth with
  | nil =>
      rw [closes_nil.mp hcloses]
      exact hrest
  | cons c text ih =>
      obtain ⟨hdepth, hcloses⟩ := closes_cons.mp hcloses
      exact (ih hcloses).cons hdepth rfl

@[simp]
theorem commasInside_nil : CommasInside depth [] := by
  intro start hstart
  simp at hstart

theorem commasInside_cons :
    CommasInside depth (c :: text) ↔
      (c = ',' → 0 < depth) ∧ CommasInside (depth + nesting [c]) text := by
  constructor
  · intro hcommas
    refine ⟨fun hc => ?_, fun start hstart => ?_⟩
    · have hpos := hcommas [] (by simp [hc])
      rwa [nesting_nil, Int.add_zero] at hpos
    · have hpos := hcommas (c :: start) ((List.prefix_cons_inj c).mpr hstart)
      rwa [nesting_cons, ← Int.add_assoc] at hpos
  · rintro ⟨hcomma, hcommas⟩ start hstart
    cases start with
    | nil =>
        rw [nesting_nil, Int.add_zero]
        exact hcomma (List.cons_prefix_cons.mp hstart).1.symm
    | cons d start =>
        obtain ⟨rfl, hinner⟩ := List.cons_prefix_cons.mp hstart
        rw [nesting_cons, ← Int.add_assoc]
        exact hcommas start hinner

theorem CommasInside.cons {next : Int} (hcommas : CommasInside next text)
    (hcomma : c = ',' → 0 < depth) (hnext : depth + nesting [c] = next) :
    CommasInside depth (c :: text) :=
  commasInside_cons.mpr ⟨hcomma, hnext.symm ▸ hcommas⟩

/-! ## Bare texts and what stands in parentheses -/

structure IsBare (text : Text) : Prop where
  notBlank : text.isBlank = false
  noOpenParen : '(' ∉ text
  noCloseParen : ')' ∉ text
  noComma : ',' ∉ text

theorem closes_of_not_mem (hopen : '(' ∉ text) (hclose : ')' ∉ text) : Closes 0 text := by
  have hnesting start (hstart : start <+: text) : nesting start = 0 := by
    rw [nesting, List.count_eq_zero_of_not_mem fun hmem => hopen (hstart.mem hmem),
      List.count_eq_zero_of_not_mem fun hmem => hclose (hstart.mem hmem)]
    rfl
  exact ⟨fun start hstart => by rw [hnesting start hstart]; decide,
    by rw [hnesting text List.prefix_rfl]; decide⟩

theorem IsBare.isParameter (hbare : IsBare text) : IsParameter text where
  notBlank := hbare.notBlank
  balanced := closes_of_not_mem hbare.noOpenParen hbare.noCloseParen
  commasInside := by
    intro start hstart
    exact absurd (hstart.mem (List.mem_append_right start List.mem_cons_self)) hbare.noComma

def enclose (depth : Nat) (text : Text) : Text :=
  List.replicate depth '(' ++ (text ++ List.replicate depth ')')

@[simp]
theorem enclose_zero (text : Text) : enclose 0 text = text := List.append_nil text

theorem replicate_succ_append_replicate_succ {α : Type} (a b : α) (xs : List α) (depth : Nat) :
    List.replicate (depth + 1) a ++ (xs ++ List.replicate (depth + 1) b) =
      a :: (List.replicate depth a ++ (xs ++ List.replicate depth b) ++ [b]) := by
  rw [List.replicate_succ, List.replicate_succ']
  simp only [List.cons_append, List.append_assoc]

theorem enclose_succ (depth : Nat) (text : Text) :
    enclose (depth + 1) text = '(' :: (enclose depth text ++ [')']) :=
  replicate_succ_append_replicate_succ '(' ')' text depth

/-- One open group more is closed by one parenthesis more. -/
theorem Closes.append_closeParen (hcloses : Closes depth text) :
    Closes (depth + 1) (text ++ [')']) := by
  induction text generalizing depth with
  | nil =>
      rw [closes_nil.mp hcloses]
      decide
  | cons c text ih =>
      obtain ⟨hdepth, hcloses⟩ := closes_cons.mp hcloses
      exact (ih hcloses).cons (by omega) (by omega)

/-- A balanced text can be put in parentheses, and then its commas stand inside them. -/
theorem Closes.isParameter_group (hcloses : Closes 0 text) :
    IsParameter ('(' :: (text ++ [')'])) where
  notBlank := rfl
  balanced := hcloses.append_closeParen.cons (Int.le_refl 0) rfl
  commasInside := by
    intro start hstart
    cases start with
    | nil => exact absurd (List.cons_prefix_cons.mp hstart).1 (by decide)
    | cons c start =>
        obtain ⟨rfl, hinner⟩ := List.cons_prefix_cons.mp hstart
        have hprefix : start <+: text := by
          rcases List.prefix_concat_iff.mp hinner with hwhole | hinner
          · exact absurd (List.append_inj' hwhole rfl).2 (by decide)
          · exact (List.prefix_append start [',']).trans hinner
        have hnonneg := hcloses.start_nonneg start hprefix
        rw [nesting_cons, nesting_openParen]
        omega

theorem closes_enclose (hcloses : Closes 0 text) (depth : Nat) :
    Closes 0 (enclose depth text) := by
  induction depth with
  | zero =>
      rw [enclose_zero]
      exact hcloses
  | succ depth ih =>
      rw [enclose_succ]
      exact ih.isParameter_group.balanced

/-! ## Groups -/

theorem splitGroup?_openParen (depth : Nat) (text : Text) :
    splitGroup? depth ('(' :: text) = (splitGroup? (depth + 1) text).map (pushFirst '(') := by
  rw [splitGroup?.eq_def]
  rfl

theorem splitGroup?_closeParen (depth : Nat) (text : Text) :
    splitGroup? (depth + 2) (')' :: text) = (splitGroup? (depth + 1) text).map (pushFirst ')') := by
  rw [splitGroup?.eq_def]
  rfl

theorem splitGroup?_of_ne (depth : Nat) {c : Char} (hopen : c ≠ '(') (hclose : c ≠ ')')
    (text : Text) :
    splitGroup? depth (c :: text) = (splitGroup? depth text).map (pushFirst c) := by
  rw [splitGroup?.eq_def]
  simp only [if_neg hopen, if_neg hclose]

/-- The group that a balanced text fills is found again in front of every text. -/
theorem splitGroup?_append {depth : Nat} {inner : Text} (hcloses : Closes depth inner)
    (rest : Text) : splitGroup? (depth + 1) (inner ++ ')' :: rest) = some (inner, rest) := by
  induction inner generalizing depth with
  | nil =>
      have hdepth : depth = 0 := by simpa using hcloses
      subst hdepth
      rfl
  | cons c inner ih =>
      obtain ⟨-, hcloses⟩ := closes_cons.mp hcloses
      rw [List.cons_append]
      by_cases hopen : c = '('
      · subst hopen
        have hinner : Closes (depth + 1 : Nat) inner := hcloses
        rw [splitGroup?_openParen, ih hinner]
        rfl
      by_cases hclose : c = ')'
      · subst hclose
        cases depth with
        | zero => exact absurd hcloses.nonneg (by decide)
        | succ depth =>
            rw [succ_add_nesting_closeParen] at hcloses
            rw [splitGroup?_closeParen, ih hcloses]
            rfl
      · rw [nesting_of_ne hopen hclose, Int.add_zero] at hcloses
        rw [splitGroup?_of_ne _ hopen hclose, ih hcloses]
        rfl

/-- What fills a group is balanced. -/
theorem closes_of_splitGroup? {depth : Nat} {text inner rest : Text} (hdepth : 0 < depth)
    (h : splitGroup? depth text = some (inner, rest)) : Closes (depth - 1) inner := by
  fun_induction splitGroup? depth text generalizing inner rest with
  | case1 => cases h
  | case2 depth text ih =>
      obtain ⟨inner, rfl, hcut⟩ := map_pushFirst_eq_some h
      refine (ih (Nat.succ_pos depth) hcut).cons (by omega) ?_
      rw [nesting_openParen, Int.natCast_succ]
      omega
  | case3 => cases h
  | case4 text =>
      cases h
      exact closes_nil.mpr rfl
  | case5 text depth _ ih =>
      obtain ⟨inner, rfl, hcut⟩ := map_pushFirst_eq_some h
      refine (ih (Nat.succ_pos _) hcut).cons (by omega) ?_
      rw [nesting_closeParen]
      omega
  | case6 depth c text hopen hclose ih =>
      obtain ⟨inner, rfl, hcut⟩ := map_pushFirst_eq_some h
      refine (ih hdepth hcut).cons (by omega) ?_
      rw [nesting_of_ne hopen hclose, Int.add_zero]

/-! ## Parameters -/

theorem takeParameter?_openParen (depth : Nat) (text : Text) :
    takeParameter? depth ('(' :: text) = (takeParameter? (depth + 1) text).map (pushFirst '(') := by
  rw [takeParameter?.eq_def]
  rfl

theorem takeParameter?_closeParen (depth : Nat) (text : Text) :
    takeParameter? (depth + 1) (')' :: text) = (takeParameter? depth text).map (pushFirst ')') := by
  rw [takeParameter?.eq_def]
  rfl

theorem takeParameter?_comma (text : Text) :
    takeParameter? 0 (',' :: text) = some ([], some text) := by
  rw [takeParameter?.eq_def]
  rfl

theorem takeParameter?_of_ne (depth : Nat) {c : Char} (hopen : c ≠ '(') (hclose : c ≠ ')')
    (hcomma : ¬(c = ',' ∧ depth = 0)) (text : Text) :
    takeParameter? depth (c :: text) = (takeParameter? depth text).map (pushFirst c) := by
  rw [takeParameter?.eq_def]
  simp only [if_neg hopen, if_neg hclose, if_neg hcomma]

/-- A parameter is found again at the end of a list and in front of a comma. -/
theorem takeParameter?_append {depth : Nat} {parameter : Text} (hcloses : Closes depth parameter)
    (hcommas : CommasInside depth parameter) (rest : Option Text) :
    takeParameter? depth (parameter ++ rest.elim [] (',' :: ·)) = some (parameter, rest) := by
  induction parameter generalizing depth with
  | nil =>
      have hdepth : depth = 0 := by simpa using hcloses
      subst hdepth
      cases rest with
      | none => rfl
      | some rest => exact takeParameter?_comma rest
  | cons c parameter ih =>
      obtain ⟨-, hcloses⟩ := closes_cons.mp hcloses
      obtain ⟨hcomma, hcommas⟩ := commasInside_cons.mp hcommas
      rw [List.cons_append]
      by_cases hopen : c = '('
      · subst hopen
        have hinner : Closes (depth + 1 : Nat) parameter := hcloses
        rw [takeParameter?_openParen, ih hinner hcommas]
        rfl
      by_cases hclose : c = ')'
      · subst hclose
        cases depth with
        | zero => exact absurd hcloses.nonneg (by decide)
        | succ depth =>
            rw [succ_add_nesting_closeParen] at hcloses hcommas
            rw [takeParameter?_closeParen, ih hcloses hcommas]
            rfl
      · rw [nesting_of_ne hopen hclose, Int.add_zero] at hcloses hcommas
        have hinside : ¬(c = ',' ∧ depth = 0) := by
          rintro ⟨hc, rfl⟩
          exact absurd (hcomma hc) (by decide)
        rw [takeParameter?_of_ne _ hopen hclose hinside, ih hcloses hcommas]
        rfl

/-- What is cut off a parameter list is balanced, and its commas stand inside groups. -/
theorem closes_of_takeParameter? {depth : Nat} {text parameter : Text} {rest : Option Text}
    (h : takeParameter? depth text = some (parameter, rest)) :
    Closes depth parameter ∧ CommasInside depth parameter := by
  fun_induction takeParameter? depth text generalizing parameter rest with
  | case1 =>
      cases h
      exact ⟨closes_nil.mpr rfl, commasInside_nil⟩
  | case2 => cases h
  | case3 depth text ih =>
      obtain ⟨inner, rfl, hcut⟩ := map_pushFirst_eq_some h
      obtain ⟨hcloses, hcommas⟩ := ih hcut
      exact ⟨hcloses.cons (by omega) rfl, hcommas.cons (fun hc => absurd hc (by decide)) rfl⟩
  | case4 => cases h
  | case5 text depth _ ih =>
      obtain ⟨inner, rfl, hcut⟩ := map_pushFirst_eq_some h
      obtain ⟨hcloses, hcommas⟩ := ih hcut
      have hlevel := succ_add_nesting_closeParen depth
      exact ⟨hcloses.cons (by omega) hlevel,
        hcommas.cons (fun hc => absurd hc (by decide)) hlevel⟩
  | case6 =>
      cases h
      exact ⟨closes_nil.mpr (by simp_all), commasInside_nil⟩
  | case7 depth c text hopen hclose hcomma ih =>
      obtain ⟨inner, rfl, hcut⟩ := map_pushFirst_eq_some h
      obtain ⟨hcloses, hcommas⟩ := ih hcut
      have hlevel : (depth : Int) + nesting [c] = depth := by
        rw [nesting_of_ne hopen hclose, Int.add_zero]
      have hinside : c = ',' → 0 < (depth : Int) := fun hc => by
        have hne : depth ≠ 0 := fun hzero => hcomma ⟨hc, hzero⟩
        omega
      exact ⟨hcloses.cons (by omega) hlevel, hcommas.cons hinside hlevel⟩

/-! ## Parameter lists -/

/-- A parameter list is balanced. -/
theorem closes_join {parameters : List Text}
    (hparameters : ∀ parameter ∈ parameters, IsParameter parameter) :
    Closes 0 (join [','] parameters) := by
  induction parameters with
  | nil => exact closes_nil.mpr rfl
  | cons parameter others ih =>
      have hfirst := (hparameters parameter List.mem_cons_self).balanced
      cases others with
      | nil =>
          rw [join, List.intercalate_singleton]
          exact hfirst
      | cons other others =>
          have hothers := ih fun p hmem => hparameters p (List.mem_cons_of_mem parameter hmem)
          rw [join, List.intercalate_cons_cons, List.append_assoc]
          exact hfirst.append (hothers.cons (Int.le_refl 0) rfl)

theorem isBlank_append (u v : Text) : isBlank (u ++ v) = (isBlank u && isBlank v) :=
  List.all_append

theorem splitParametersOf_of_none {whole text parameter : Text}
    (htake : takeParameter? 0 text = some (parameter, none)) (hblank : parameter.isBlank = false) :
    splitParametersOf whole text = .ok [parameter] := by
  rw [splitParametersOf]
  split
  next found => cases htake.symm.trans found
  next found =>
    cases htake.symm.trans found
    rw [if_neg (by simp [hblank])]

theorem splitParametersOf_of_some {whole text parameter rest : Text}
    (htake : takeParameter? 0 text = some (parameter, some rest))
    (hblank : parameter.isBlank = false) :
    splitParametersOf whole text = (splitParametersOf whole rest).map (parameter :: ·) := by
  rw [splitParametersOf]
  split
  next found => cases htake.symm.trans found
  next found =>
    cases htake.symm.trans found
    rw [if_neg (by simp [hblank])]

/-- Parameters that are joined by commas are found again. -/
theorem splitParametersOf_join (whole : Text) {parameters : List Text} (hne : parameters ≠ [])
    (hparameters : ∀ parameter ∈ parameters, IsParameter parameter) :
    splitParametersOf whole (join [','] parameters) = .ok parameters := by
  induction parameters with
  | nil => exact absurd rfl hne
  | cons parameter others ih =>
      have hparameter := hparameters parameter List.mem_cons_self
      have hcloses : Closes (0 : Nat) parameter := hparameter.balanced
      have htake := takeParameter?_append hcloses hparameter.commasInside
      cases others with
      | nil =>
          have hlast := htake none
          rw [Option.elim_none, List.append_nil] at hlast
          rw [join, List.intercalate_singleton]
          exact splitParametersOf_of_none hlast hparameter.notBlank
      | cons other others =>
          have hothers := ih (List.cons_ne_nil other others) fun p hmem =>
            hparameters p (List.mem_cons_of_mem parameter hmem)
          have hfirst := htake (some (join [','] (other :: others)))
          rw [Option.elim_some] at hfirst
          rw [join, List.intercalate_cons_cons, List.append_assoc, List.singleton_append,
            splitParametersOf_of_some hfirst hparameter.notBlank, hothers]
          rfl

theorem splitParameters_join {parameters : List Text} (hne : parameters ≠ [])
    (hparameters : ∀ parameter ∈ parameters, IsParameter parameter) :
    splitParameters (join [','] parameters) = .ok parameters := by
  have hblank : isBlank (join [','] parameters) = false := by
    cases parameters with
    | nil => exact absurd rfl hne
    | cons parameter others =>
        have hparameter := hparameters parameter List.mem_cons_self
        cases others with
        | nil =>
            rw [join, List.intercalate_singleton]
            exact hparameter.notBlank
        | cons other others =>
            rw [join, List.intercalate_cons_cons, List.append_assoc, isBlank_append,
              hparameter.notBlank, Bool.false_and]
  rw [splitParameters_of_notBlank hblank, splitParametersOf_join _ hne hparameters]

theorem isParameter_of_mem_splitParametersOf {whole text : Text} {parameters : List Text}
    (h : splitParametersOf whole text = .ok parameters) {parameter : Text}
    (hmem : parameter ∈ parameters) : IsParameter parameter := by
  fun_induction splitParametersOf whole text generalizing parameters with
  | case1 => cases h
  | case2 => cases h
  | case3 text first hblank htake =>
      cases h
      rw [List.mem_singleton] at hmem
      subst hmem
      obtain ⟨hcloses, hcommas⟩ := closes_of_takeParameter? htake
      exact ⟨by simpa using hblank, hcloses, hcommas⟩
  | case4 text first hblank rest _ htake ih =>
      cases hrest : splitParametersOf whole rest with
      | error error => simp [hrest, Except.map] at h
      | ok others =>
          rw [hrest] at h
          cases h
          rcases List.mem_cons.mp hmem with rfl | hother
          · obtain ⟨hcloses, hcommas⟩ := closes_of_takeParameter? htake
            exact ⟨by simpa using hblank, hcloses, hcommas⟩
          · exact ih hrest hother

/-- What a parameter list is cut into are parameters. -/
theorem isParameter_of_mem_splitParameters {text : Text} {parameters : List Text}
    (h : splitParameters text = .ok parameters) {parameter : Text}
    (hmem : parameter ∈ parameters) : IsParameter parameter := by
  cases hblank : text.isBlank with
  | true =>
      rw [splitParameters_of_isBlank hblank] at h
      cases h
      cases hmem
  | false =>
      rw [splitParameters_of_notBlank hblank] at h
      exact isParameter_of_mem_splitParametersOf h hmem

end Lindenmayer.Text
