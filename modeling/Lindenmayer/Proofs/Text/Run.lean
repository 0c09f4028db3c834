import Lindenmayer.Text

/-!
# Runs of characters

A run ends where the text ends or where a character follows that does not belong to it.
-/

namespace Lindenmayer.Text

/-- No character of the class `p` stands at the start of the text. -/
def Stops (p : Char → Bool) (text : Text) : Prop :=
  ∀ c, text.head? = some c → p c = false

instance (p : Char → Bool) (text : Text) : Decidable (Stops p text) :=
  match text with
  | [] => .isTrue fun _ hc => nomatch hc
  | c :: _ =>
      if h : p c = false then .isTrue fun _ hc => Option.some.inj hc ▸ h
      else .isFalse fun hstops => h (hstops c rfl)

@[simp]
theorem stops_nil (p : Char → Bool) : Stops p [] := by
  intro c hc
  cases hc

@[simp]
theorem stops_cons {p : Char → Bool} {c : Char} {text : Text} :
    Stops p (c :: text) ↔ p c = false := by
  simp [Stops]

theorem Stops.mono {p q : Char → Bool} {text : Text} (hstops : Stops p text)
    (himp : ∀ c, q c = true → p c = true) : Stops q text := by
  intro c hc
  cases hq : q c with
  | false => rfl
  | true => exact absurd (hstops c hc) (by simp [himp c hq])

theorem stops_append {p : Char → Bool} {u v : Text} (hu : Stops p u) (hv : Stops p v) :
    Stops p (u ++ v) := by
  cases u with
  | nil => exact hv
  | cons c u => exact stops_cons.mpr (stops_cons.mp hu)

theorem stops_dropWhile (p : Char → Bool) (text : Text) : Stops p (text.dropWhile p) := by
  intro c hc
  have hhead := List.head?_dropWhile_not p text
  rw [hc] at hhead
  exact hhead

theorem takeWhile_append_of_stops {p : Char → Bool} {run rest : Text} (hrun : run.all p = true)
    (hrest : Stops p rest) : (run ++ rest).takeWhile p = run := by
  rw [List.takeWhile_append_of_pos (List.all_eq_true.mp hrun)]
  cases rest with
  | nil => simp
  | cons c rest => simp [stops_cons.mp hrest]

theorem dropWhile_append_of_stops {p : Char → Bool} {run rest : Text} (hrun : run.all p = true)
    (hrest : Stops p rest) : (run ++ rest).dropWhile p = rest := by
  rw [List.dropWhile_append_of_pos (List.all_eq_true.mp hrun)]
  cases rest with
  | nil => rfl
  | cons c rest => simp [stops_cons.mp hrest]

/-- A text is cut at the first place of a character in one way only. -/
theorem eq_of_append_cons {c : Char} {first second rest other : Text} (hfirst : c ∉ first)
    (hsecond : c ∉ second) (h : first ++ c :: rest = second ++ c :: other) :
    first = second ∧ rest = other := by
  have htake {text after : Text} (hmem : c ∉ text) :
      (text ++ c :: after).takeWhile (· != c) = text := by
    refine takeWhile_append_of_stops (List.all_eq_true.mpr fun d hd => ?_) (by simp)
    exact bne_iff_ne.mpr fun heq => hmem (heq ▸ hd)
  have heq : first = second := by rw [← htake hfirst, h, htake hsecond]
  subst heq
  exact ⟨rfl, (List.cons.inj (List.append_cancel_left h)).2⟩

end Lindenmayer.Text
