import Lindenmayer.Proofs.Text.Balance

/-!
# Segments of a text

The commas outside all groups cut a text into segments. A text is a parameter list exactly if its
parentheses balance and none of its segments is blank. Its parameters are then the segments, and
commas between them give the text back.
-/

namespace Lindenmayer.Text

/-! ## Cutting at the commas outside all groups -/

/-- Each character of the text, with the depth in front of it: how many groups more have been opened
than closed, counting from `depth`. -/
def withDepth : (depth : Int) → Text → List (Char × Int)
  | _, [] => []
  | depth, c :: text => (c, depth) :: withDepth (depth + nesting [c]) text

def isSeparator (place : Char × Int) : Bool := place.1 = ',' && place.2 = 0

/-- The longest parts of the text that have no comma outside all groups, from left to right. -/
def segments (depth : Int) (text : Text) : List Text :=
  ((withDepth depth text).splitOnP isSeparator).map (·.map Prod.fst)

variable {depth : Int} {c : Char} {text : Text}

theorem segments_comma (text : Text) : segments 0 (',' :: text) = [] :: segments 0 text := by
  have hnext : (0 : Int) + nesting [','] = 0 := by decide
  have hcomma : isSeparator (',', 0) = true := by decide
  rw [segments, withDepth, hnext, List.splitOnP_cons_eq_if_modifyHead, if_pos hcomma]
  rfl

theorem segments_of_ne (hcomma : ¬(c = ',' ∧ depth = 0)) (text : Text) :
    segments depth (c :: text) = (segments (depth + nesting [c]) text).modifyHead (c :: ·) := by
  have hinside : isSeparator (c, depth) = false := by
    simpa [isSeparator] using hcomma
  rw [segments, withDepth, List.splitOnP_cons_eq_if_modifyHead, if_neg (by simp [hinside]),
    segments]
  cases (withDepth (depth + nesting [c]) text).splitOnP isSeparator with
  | nil => rfl
  | cons first others => rfl

theorem segments_ne_nil (depth : Int) (text : Text) : segments depth text ≠ [] := by
  rw [segments, ne_eq, List.map_eq_nil_iff]
  exact List.splitOnP_ne_nil _ _

theorem exists_segments (depth : Int) (text : Text) :
    ∃ first others, segments depth text = first :: others :=
  List.exists_cons_of_ne_nil (segments_ne_nil depth text)

theorem join_modifyHead {separator : Text} {parts : List Text} (hne : parts ≠ []) :
    join separator (parts.modifyHead (c :: ·)) = c :: join separator parts := by
  obtain ⟨first, others, rfl⟩ := List.exists_cons_of_ne_nil hne
  exact List.intercalate_cons_cons_left

/-- Commas between the segments give the text back. -/
theorem join_segments (depth : Int) (text : Text) : join [','] (segments depth text) = text := by
  induction text generalizing depth with
  | nil => rfl
  | cons c text ih =>
      by_cases hcomma : c = ',' ∧ depth = 0
      · obtain ⟨rfl, rfl⟩ := hcomma
        obtain ⟨first, others, hsegments⟩ := exists_segments 0 text
        rw [segments_comma, hsegments, join, List.intercalate_cons_cons, ← join, ← hsegments, ih]
        rfl
      · rw [segments_of_ne hcomma, join_modifyHead (segments_ne_nil _ _), ih]

/-! ## Segments and parameters -/

/-- The segments of a balanced text are balanced, and their commas stand inside groups. The groups
that are open in front of the text are closed by the first of them. -/
theorem closes_of_segments {first : Text} {others : List Text} (hcloses : Closes depth text)
    (hsegments : segments depth text = first :: others) :
    (Closes depth first ∧ CommasInside depth first) ∧
      ∀ segment ∈ others, Closes 0 segment ∧ CommasInside 0 segment := by
  induction text generalizing depth first others with
  | nil =>
      cases hsegments
      exact ⟨⟨hcloses, commasInside_nil⟩, List.forall_mem_nil _⟩
  | cons c text ih =>
      obtain ⟨hdepth, hrest⟩ := closes_cons.mp hcloses
      by_cases hcomma : c = ',' ∧ depth = 0
      · obtain ⟨rfl, rfl⟩ := hcomma
        rw [segments_comma] at hsegments
        cases hsegments
        obtain ⟨next, later, hnext⟩ := exists_segments 0 text
        obtain ⟨hhead, htail⟩ := ih hrest hnext
        rw [hnext]
        exact ⟨⟨closes_nil.mpr rfl, commasInside_nil⟩, List.forall_mem_cons.mpr ⟨hhead, htail⟩⟩
      · obtain ⟨next, later, hnext⟩ := exists_segments (depth + nesting [c]) text
        obtain ⟨⟨hcloses, hcommas⟩, htail⟩ := ih hrest hnext
        rw [segments_of_ne hcomma, hnext] at hsegments
        cases hsegments
        have hinside : c = ',' → 0 < depth := fun hc => by
          have hne : depth ≠ 0 := fun hzero => hcomma ⟨hc, hzero⟩
          omega
        exact ⟨⟨hcloses.cons hdepth rfl, hcommas.cons hinside rfl⟩, htail⟩

theorem isParameter_of_mem_segments (hcloses : Closes 0 text) {segment : Text}
    (hmem : segment ∈ segments 0 text) (hblank : segment.isBlank = false) :
    IsParameter segment := by
  obtain ⟨first, others, hsegments⟩ := exists_segments 0 text
  obtain ⟨hfirst, hothers⟩ := closes_of_segments hcloses hsegments
  rw [hsegments] at hmem
  rcases List.mem_cons.mp hmem with rfl | hmem
  · exact ⟨hblank, hfirst.1, hfirst.2⟩
  · exact ⟨hblank, (hothers segment hmem).1, (hothers segment hmem).2⟩

/-- A parameter is a segment at the end of a text and in front of a comma. -/
theorem segments_append {parameter : Text} (hcloses : Closes depth parameter)
    (hcommas : CommasInside depth parameter) (rest : Option Text) :
    segments depth (parameter ++ rest.elim [] (',' :: ·)) =
      parameter :: rest.elim [] (segments 0) := by
  induction parameter generalizing depth with
  | nil =>
      rw [closes_nil.mp hcloses]
      cases rest with
      | none => rfl
      | some rest => exact segments_comma rest
  | cons c parameter ih =>
      obtain ⟨-, hcloses⟩ := closes_cons.mp hcloses
      obtain ⟨hcomma, hcommas⟩ := commasInside_cons.mp hcommas
      have hinside : ¬(c = ',' ∧ depth = 0) := by
        rintro ⟨hc, rfl⟩
        exact absurd (hcomma hc) (by decide)
      rw [List.cons_append, segments_of_ne hinside, ih hcloses hcommas]
      rfl

/-- Parameters with commas between them are the segments. -/
theorem segments_join {parameters : List Text} (hne : parameters ≠ [])
    (hparameters : ∀ parameter ∈ parameters, IsParameter parameter) :
    segments 0 (join [','] parameters) = parameters := by
  induction parameters with
  | nil => exact absurd rfl hne
  | cons parameter others ih =>
      have hparameter := hparameters parameter List.mem_cons_self
      have hfirst := segments_append hparameter.balanced hparameter.commasInside
      cases others with
      | nil =>
          have hlast := hfirst none
          rw [Option.elim_none, List.append_nil] at hlast
          rw [join, List.intercalate_singleton]
          exact hlast
      | cons other others =>
          have hothers := ih (List.cons_ne_nil other others) fun p hmem =>
            hparameters p (List.mem_cons_of_mem parameter hmem)
          rw [join, List.intercalate_cons_cons, List.append_assoc, List.singleton_append]
          exact (hfirst (some _)).trans (congrArg (parameter :: ·) hothers)

/-! ## Parameter lists -/

theorem join_of_splitParametersOf {whole : Text} {parameters : List Text}
    (h : splitParametersOf whole text = .ok parameters) :
    parameters ≠ [] ∧ join [','] parameters = text := by
  fun_induction splitParametersOf whole text generalizing parameters with
  | case1 => cases h
  | case2 => cases h
  | case3 text first hblank htake =>
      cases h
      have htext := eq_of_takeParameter? htake
      rw [Option.elim_none, List.append_nil] at htext
      exact ⟨List.cons_ne_nil _ _, List.intercalate_singleton.trans htext.symm⟩
  | case4 text first hblank rest _ htake ih =>
      cases hrest : splitParametersOf whole rest with
      | error error => simp [hrest, Except.map] at h
      | ok others =>
          rw [hrest] at h
          cases h
          obtain ⟨hne, hjoin⟩ := ih hrest
          obtain ⟨next, later, rfl⟩ := List.exists_cons_of_ne_nil hne
          refine ⟨List.cons_ne_nil _ _, ?_⟩
          rw [join, List.intercalate_cons_cons, ← join, hjoin, List.append_assoc]
          exact (eq_of_takeParameter? htake).symm

/-- The parameters of a list that is not blank, with commas between them, are the list. -/
theorem join_of_splitParameters {parameters : List Text} (hblank : text.isBlank = false)
    (h : splitParameters text = .ok parameters) :
    parameters ≠ [] ∧ join [','] parameters = text := by
  rw [splitParameters_of_notBlank hblank] at h
  exact join_of_splitParametersOf h

/-- A text that is not blank is a parameter list exactly if its parentheses balance and none of its
segments is blank, and then the segments are its parameters. -/
theorem splitParameters_eq_ok_iff (hblank : text.isBlank = false) {parameters : List Text} :
    splitParameters text = .ok parameters ↔
      Closes 0 text ∧ (∀ segment ∈ segments 0 text, segment.isBlank = false) ∧
        parameters = segments 0 text := by
  constructor
  · intro h
    have hparameters parameter (hmem : parameter ∈ parameters) : IsParameter parameter :=
      isParameter_of_mem_splitParameters h hmem
    obtain ⟨hne, rfl⟩ := join_of_splitParameters hblank h
    rw [segments_join hne hparameters]
    exact ⟨closes_join hparameters, fun p hmem => (hparameters p hmem).notBlank, rfl⟩
  · rintro ⟨hcloses, hsegments, rfl⟩
    have hsplit := splitParameters_join (segments_ne_nil 0 text) fun segment hmem =>
      isParameter_of_mem_segments hcloses hmem (hsegments segment hmem)
    rwa [join_segments] at hsplit

/-- Cutting a parameter list undoes joining its parameters by commas, and succeeds on exactly the
texts that commas outside all groups cut into parameters. -/
theorem splitParameters_segments :
    (∀ text : Text, text.isBlank = true → splitParameters text = .ok []) ∧
      (∀ text : Text, text.isBlank = false →
        (∀ parameters, splitParameters text = .ok parameters ↔
          Closes 0 text ∧ (∀ segment ∈ segments 0 text, segment.isBlank = false) ∧
            parameters = segments 0 text) ∧
          join [','] (segments 0 text) = text) ∧
        ∀ parameters : List Text, parameters ≠ [] →
          (∀ parameter ∈ parameters, IsParameter parameter) →
            splitParameters (join [','] parameters) = .ok parameters := by
  refine ⟨fun text hblank => splitParameters_of_isBlank hblank, fun text hblank => ?_, ?_⟩
  · exact ⟨fun parameters => splitParameters_eq_ok_iff hblank, join_segments 0 text⟩
  · exact fun parameters hne hparameters => splitParameters_join hne hparameters

/-- The comma inside a group cuts nothing. -/
example : segments 0 "max(1,2), 3".toList = ["max(1,2)".toList, " 3".toList] := by decide

end Lindenmayer.Text
