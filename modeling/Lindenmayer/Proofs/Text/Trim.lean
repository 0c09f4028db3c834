import Lindenmayer.Proofs.Text.Run

/-!
# Trimming

A trimmed text is what is left between blanks, and has no blanks left to trim.
-/

namespace Lindenmayer.Text

theorem exists_trimEnd_append (text : Text) :
    ∃ blanks, blanks.all isBlankChar = true ∧ text = trimEnd text ++ blanks := by
  refine ⟨(text.reverse.takeWhile isBlankChar).reverse, ?_, ?_⟩
  · rw [List.all_reverse]
    exact List.all_takeWhile
  · rw [trimEnd, ← List.reverse_append, List.takeWhile_append_dropWhile, List.reverse_reverse]

/-- A text is its trimmed part between blanks. -/
theorem exists_trim_pad (text : Text) :
    ∃ before after, before.all isBlankChar = true ∧ after.all isBlankChar = true ∧
      text = before ++ (trim text ++ after) := by
  obtain ⟨after, hafter, hend⟩ := exists_trimEnd_append text.trimStart
  refine ⟨text.takeWhile isBlankChar, after, List.all_takeWhile, hafter, ?_⟩
  have hstart : text = text.takeWhile isBlankChar ++ trimStart text :=
    List.takeWhile_append_dropWhile.symm
  rw [trim, ← hend]
  exact hstart

theorem trimStart_of_stops {text : Text} (hstops : Stops isBlankChar text) :
    trimStart text = text := by
  cases text with
  | nil => rfl
  | cons c text => rw [trimStart, List.dropWhile_cons_of_neg (by simp [stops_cons.mp hstops])]

theorem stops_trimStart (text : Text) : Stops isBlankChar (trimStart text) :=
  stops_dropWhile isBlankChar text

theorem trimEnd_trimEnd (text : Text) : trimEnd (trimEnd text) = trimEnd text := by
  have hstops := trimStart_of_stops (stops_trimStart text.reverse)
  rw [trimEnd, trimEnd, List.reverse_reverse]
  exact congrArg List.reverse hstops

theorem stops_trimEnd {text : Text} (hstops : Stops isBlankChar text) :
    Stops isBlankChar (trimEnd text) := by
  obtain ⟨blanks, -, htext⟩ := exists_trimEnd_append text
  cases htrim : trimEnd text with
  | nil => exact stops_nil _
  | cons c rest =>
      rw [htrim] at htext
      rw [htext, List.cons_append, stops_cons] at hstops
      exact stops_cons.mpr hstops

@[simp]
theorem trim_trim (text : Text) : trim (trim text) = trim text := by
  have hstart : trimStart (trim text) = trim text :=
    trimStart_of_stops (stops_trimEnd (stops_trimStart text))
  have hend : trimEnd (trim text) = trim text := trimEnd_trimEnd (trimStart text)
  exact (congrArg trimEnd hstart).trans hend

/-- A text without blanks at either end is trimmed. -/
theorem trim_eq_self {text : Text} (hstart : Stops isBlankChar text)
    (hend : Stops isBlankChar text.reverse) : text.trim = text := by
  have hreverse : (trimStart text.reverse).reverse = text := by
    rw [trimStart_of_stops hend, List.reverse_reverse]
  rw [trim, trimStart_of_stops hstart]
  exact hreverse

theorem trim_of_forall_not_blank {text : Text} (hall : ∀ c ∈ text, isBlankChar c = false) :
    text.trim = text := by
  have hstops {text : Text} (hall : ∀ c ∈ text, isBlankChar c = false) : Stops isBlankChar text :=
    fun c hc => hall c (List.mem_of_head? hc)
  exact trim_eq_self (hstops hall) (hstops fun c hmem => hall c (List.mem_reverse.mp hmem))

theorem stops_of_trim_eq_self {text : Text} (htrim : text.trim = text) :
    Stops isBlankChar text ∧ Stops isBlankChar text.reverse := by
  constructor
  · rw [← htrim]
    exact stops_trimEnd (stops_trimStart text)
  · rw [← htrim, trim, trimEnd, List.reverse_reverse]
    exact stops_trimStart _

end Lindenmayer.Text
