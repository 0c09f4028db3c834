import Lindenmayer.Proofs.Text.Interior
import Lindenmayer.Proofs.Text.Segments

/-!
# Depth

The depth of a text is the greatest number of its groups that are open at one place, where a
parenthesis that closes nothing is passed over. No part of a text is deeper than the text, and the
group of a call is less deep than the text that the call stands in.
-/

namespace Lindenmayer

namespace Text

def openBehind (depth : Nat) (c : Char) : Nat :=
  if c = '(' then depth + 1 else if c = ')' then depth - 1 else depth

/-- The greatest number of groups that are open in front of a character of the text or at its end,
with `depth` open in front of the text. -/
def deepest : (depth : Nat) → Text → Nat
  | depth, [] => depth
  | depth, c :: text => max depth (deepest (openBehind depth c) text)

def maxDepth (text : Text) : Nat := deepest 0 text

theorem openBehind_mono {depth deeper : Nat} (h : depth ≤ deeper) (c : Char) :
    openBehind depth c ≤ openBehind deeper c := by
  unfold openBehind
  by_cases hopen : c = '('
  · simpa only [if_pos hopen] using Nat.succ_le_succ h
  by_cases hclose : c = ')'
  · simpa only [if_neg hopen, if_pos hclose] using Nat.sub_le_sub_right h 1
  · simpa only [if_neg hopen, if_neg hclose] using h

theorem deepest_mono {depth deeper : Nat} (h : depth ≤ deeper) (text : Text) :
    deepest depth text ≤ deepest deeper text := by
  induction text generalizing depth deeper with
  | nil => exact h
  | cons c text ih =>
      have hrest := ih (openBehind_mono h c)
      rw [deepest, deepest]
      omega

theorem deepest_append (depth : Nat) (u v : Text) :
    deepest depth (u ++ v) = max (deepest depth u) (deepest (u.foldl openBehind depth) v) := by
  induction u generalizing depth with
  | nil =>
      have hle : depth ≤ deepest depth v := by
        cases v with
        | nil => exact Nat.le_refl depth
        | cons c v => exact Nat.le_max_left _ _
      exact (Nat.max_eq_right hle).symm
  | cons c u ih => rw [List.cons_append, deepest, deepest, List.foldl_cons, ih, Nat.max_assoc]

theorem deepest_le_append_left (depth : Nat) (u v : Text) :
    deepest depth u ≤ deepest depth (u ++ v) := by
  rw [deepest_append]
  exact Nat.le_max_left _ _

theorem deepest_le_append_right (depth : Nat) (u v : Text) :
    deepest (u.foldl openBehind depth) v ≤ deepest depth (u ++ v) := by
  rw [deepest_append]
  exact Nat.le_max_right _ _

theorem maxDepth_le_of_infix {part text : Text} (h : part <:+: text) :
    part.maxDepth ≤ text.maxDepth := by
  obtain ⟨before, after, rfl⟩ := h
  calc
    deepest 0 part ≤ deepest (before.foldl openBehind 0) part := deepest_mono (Nat.zero_le _) part
    _ ≤ deepest 0 (before ++ part) := deepest_le_append_right 0 before part
    _ ≤ deepest 0 (before ++ part ++ after) := deepest_le_append_left 0 (before ++ part) after

/-- In a text that closes no other groups than are open, one group more is open everywhere if one
more is open in front of it. -/
theorem deepest_succ {depth : Nat} {text : Text} (hcloses : Closes depth text) :
    deepest (depth + 1) text = deepest depth text + 1 := by
  induction text generalizing depth with
  | nil => rfl
  | cons c text ih =>
      obtain ⟨-, hrest⟩ := closes_cons.mp hcloses
      have hnext :
          deepest (openBehind (depth + 1) c) text = deepest (openBehind depth c) text + 1 := by
        by_cases hopen : c = '('
        · subst hopen
          exact ih hrest
        by_cases hclose : c = ')'
        · subst hclose
          cases depth with
          | zero => exact absurd hrest.nonneg (by decide)
          | succ depth =>
              rw [succ_add_nesting_closeParen] at hrest
              exact ih hrest
        · rw [nesting_of_ne hopen hclose, Int.add_zero] at hrest
          simp only [openBehind, if_neg hopen, if_neg hclose]
          exact ih hrest
      rw [deepest, deepest, hnext, Nat.add_max_add_right]

/-- A balanced text is less deep than any text in which it stands in parentheses. -/
theorem maxDepth_lt_group {inner : Text} (hcloses : Closes 0 inner) (before after : Text) :
    inner.maxDepth < (before ++ '(' :: (inner ++ after)).maxDepth := by
  have hinner : Closes (0 : Nat) inner := hcloses
  calc
    deepest 0 inner < deepest 1 inner := by
        rw [deepest_succ hinner]
        exact Nat.lt_succ_self _
    _ ≤ deepest (before.foldl openBehind 0 + 1) inner := deepest_mono (Nat.le_add_left 1 _) inner
    _ ≤ deepest (before.foldl openBehind 0 + 1) (inner ++ after) := deepest_le_append_left _ _ _
    _ ≤ deepest (before.foldl openBehind 0) ('(' :: (inner ++ after)) := Nat.le_max_right _ _
    _ ≤ deepest 0 (before ++ '(' :: (inner ++ after)) := deepest_le_append_right 0 before _

/-! ## Parameters -/

theorem infix_join_of_mem {separator parameter : Text} {parameters : List Text}
    (hmem : parameter ∈ parameters) : parameter <:+: join separator parameters := by
  induction parameters with
  | nil => cases hmem
  | cons first others ih =>
      cases others with
      | nil =>
          rw [List.mem_singleton.mp hmem, join, List.intercalate_singleton]
      | cons other others =>
          rw [join, List.intercalate_cons_cons, List.append_assoc]
          rcases List.mem_cons.mp hmem with rfl | hmem
          · exact (List.prefix_append _ _).isInfix
          · exact (ih hmem).trans
              ((List.suffix_append separator _).trans (List.suffix_append first _)).isInfix

/-- A parameter is a part of its list. -/
theorem infix_of_mem_splitParameters {text parameter : Text} {parameters : List Text}
    (h : splitParameters text = .ok parameters) (hmem : parameter ∈ parameters) :
    parameter <:+: text := by
  cases hblank : text.isBlank with
  | true =>
      rw [splitParameters_of_isBlank hblank] at h
      cases h
      cases hmem
  | false =>
      obtain ⟨-, hjoin⟩ := join_of_splitParameters hblank h
      rw [← hjoin]
      exact infix_join_of_mem hmem

theorem trim_infix (text : Text) : text.trim <:+: text := by
  obtain ⟨before, after, -, -, htext⟩ := exists_trim_pad text
  refine ⟨before, after, ?_⟩
  rw [List.append_assoc]
  exact htext.symm

end Text

/-- The group of a call is less deep than the text that the call stands in. -/
theorem maxDepth_inner_lt_of_mem_outermostCalls {functions : List Text} {text : Text} {call : Call}
    (hmem : call ∈ outermostCalls functions text) : call.inner.maxDepth < text.maxDepth := by
  obtain ⟨before, after, rfl, hstands⟩ := exists_stands_of_mem_outermostCalls hmem
  have hlt := Text.maxDepth_lt_group hstands.inner (before ++ call.name ++ call.gap) (')' :: after)
  rwa [List.append_assoc, List.append_assoc, ← List.append_assoc call.name,
    ← Call.text_append] at hlt

end Lindenmayer
