import Lindenmayer.Proofs.Outcome
import Lindenmayer.Proofs.Text.Substitution
import Mathlib.Data.List.SplitBy

/-!
# Substitutions one after the other

A text falls into the maximal runs of identifier characters and, one by one, the characters between
them. Substitution treats each of these pieces by itself. The neighbours of a run belong to no
identifier, so nothing that takes the place of the run grows together with them: the pieces of the
result are those of the texts put in. Two substitutions, one after the other, are therefore one.
-/

namespace Lindenmayer.Text

/-! ## Pieces -/

/-- The maximal runs of identifier characters, and each of the other characters by itself. -/
def runs (text : Text) : List Text :=
  text.splitBy fun c d => isIdentifierChar c && isIdentifierChar d

/-- What takes the place of a piece. Only a run is looked up. -/
def replaceRun (bindings : List (Text × Text)) (run : Text) : Text :=
  if run.all isIdentifierChar then lookupRun bindings run else run

theorem runs_append_of_stops (first : Text) {second : Text}
    (hsecond : Stops isIdentifierChar second) :
    runs (first ++ second) = runs first ++ runs second := by
  refine List.splitBy_append fun c _ d hd => ?_
  rw [hsecond d hd, Bool.and_false]

theorem runs_cons_of_not {c : Char} (hc : isIdentifierChar c = false) (text : Text) :
    runs (c :: text) = [c] :: runs text := by
  have hsplit : runs ([c] ++ text) = runs [c] ++ runs text := by
    refine List.splitBy_append fun d hd e _ => ?_
    obtain rfl : c = d := Option.some.inj hd
    rw [hc, Bool.false_and]
  exact hsplit

theorem runs_of_all {run : Text} (hne : run ≠ []) (hrun : run.all isIdentifierChar = true) :
    runs run = [run] := by
  rw [List.all_eq_true] at hrun
  refine List.splitBy_of_isChain hne (List.pairwise_of_forall_mem_list ?_).isChain
  intro c hc d hd
  rw [hrun c hc, hrun d hd, Bool.and_self]

/-- Induction along the pieces of a text. -/
@[elab_as_elim]
theorem runs_induction {motive : Text → Prop} (nil : motive [])
    (other : ∀ c rest, isIdentifierChar c = false → motive rest → motive (c :: rest))
    (run : ∀ run rest, run ≠ [] → run.all isIdentifierChar = true → Stops isIdentifierChar rest →
      motive rest → motive (run ++ rest))
    (text : Text) : motive text := by
  match text with
  | [] => exact nil
  | c :: rest =>
      cases hc : isIdentifierChar c with
      | false => exact other c rest hc (runs_induction nil other run rest)
      | true =>
          have hrest := runs_induction nil other run (rest.dropWhile isIdentifierChar)
          have hrun : (c :: rest.takeWhile isIdentifierChar).all isIdentifierChar = true := by
            rw [List.all_cons, hc, List.all_takeWhile, Bool.and_self]
          have hwhole := run _ _ (List.cons_ne_nil c _) hrun (stops_dropWhile _ rest) hrest
          rwa [List.cons_append, List.takeWhile_append_dropWhile] at hwhole
termination_by text.length
decreasing_by
  · exact Nat.lt_succ_self _
  · exact Nat.lt_succ_of_le (List.dropWhile_suffix _).length_le

/-! ## Substitution piece by piece -/

theorem replaceRun_of_not {bindings : List (Text × Text)} {c : Char}
    (hc : isIdentifierChar c = false) : replaceRun bindings [c] = [c] := by
  rw [replaceRun, List.all_cons, hc, Bool.false_and, if_neg Bool.false_ne_true]

theorem replaceRun_of_all {bindings : List (Text × Text)} {run : Text}
    (hrun : run.all isIdentifierChar = true) : replaceRun bindings run = lookupRun bindings run :=
  if_pos hrun

/-- Every piece is replaced by itself, all with the same bindings. -/
theorem substitute_eq_flatMap_runs (bindings : List (Text × Text)) (text : Text) :
    substitute bindings text = (runs text).flatMap (replaceRun bindings) := by
  induction text using runs_induction with
  | nil => exact substitute_nil bindings
  | other c rest hc ih =>
      rw [substitute_cons_of_not hc, runs_cons_of_not hc, List.flatMap_cons, replaceRun_of_not hc,
        ih]
      rfl
  | run run rest hne hrun hrest ih =>
      rw [substitute_run_append hne hrun hrest, runs_append_of_stops run hrest,
        runs_of_all hne hrun, List.flatMap_append, List.flatMap_singleton, replaceRun_of_all hrun,
        ih]

theorem substitute_append_of_stops (bindings : List (Text × Text)) (first : Text) {second : Text}
    (hsecond : Stops isIdentifierChar second) :
    substitute bindings (first ++ second) =
      substitute bindings first ++ substitute bindings second := by
  simp only [substitute_eq_flatMap_runs, runs_append_of_stops first hsecond, List.flatMap_append]

/-- What is put in does not grow together with its neighbours. -/
theorem runs_substitute (bindings : List (Text × Text)) (text : Text) :
    runs (substitute bindings text) =
      (runs text).flatMap fun run => runs (replaceRun bindings run) := by
  induction text using runs_induction with
  | nil => rw [substitute_nil]; rfl
  | other c rest hc ih =>
      rw [substitute_cons_of_not hc, runs_cons_of_not hc, runs_cons_of_not hc, List.flatMap_cons,
        replaceRun_of_not hc, runs_cons_of_not hc, ih]
      rfl
  | run run rest hne hrun hrest ih =>
      have hstops : Stops isIdentifierChar (substitute bindings rest) :=
        stops_substitute hrest hrest
      rw [substitute_run_append hne hrun hrest, runs_append_of_stops _ hstops,
        runs_append_of_stops run hrest, runs_of_all hne hrun, List.flatMap_append,
        List.flatMap_singleton, replaceRun_of_all hrun, ih]

/-! ## Composition -/

/-- A run that `first` leaves alone is looked up in `second`; in a value that `first` puts in, the
runs are. -/
theorem lookupRun_append (first second : List (Text × Text)) {run : Text} (hne : run ≠ [])
    (hrun : run.all isIdentifierChar = true) :
    lookupRun (first.map (fun binding => (binding.1, substitute second binding.2)) ++ second) run =
      substitute second (lookupRun first run) := by
  have hsecond : substitute second run = lookupRun second run := by
    have hrest : substitute second (run ++ []) = _ :=
      substitute_run_append hne hrun (stops_nil _)
    rwa [substitute_nil, List.append_nil, List.append_nil] at hrest
  rw [lookupRun, lookupRun, List.lookup_append, lookup_map_values]
  cases first.lookup run with
  | none => exact hsecond.symm
  | some value => rfl

/-- Two substitutions, one after the other, are one: the values of the first are put through the
second, and what the first does not bind is left to the second. A substitution acts on all pieces
of a text at once, and the pieces of the result are the pieces of what stands in their places. -/
theorem substitute_substitute (first second : List (Text × Text)) (text : Text) :
    substitute second (substitute first text) =
        substitute
          (first.map (fun binding => (binding.1, substitute second binding.2)) ++ second) text ∧
      substitute first text = (runs text).flatMap (replaceRun first) ∧
      runs (substitute first text) =
        (runs text).flatMap fun run => runs (replaceRun first run) := by
  refine ⟨?_, substitute_eq_flatMap_runs first text, runs_substitute first text⟩
  induction text using runs_induction with
  | nil => simp only [substitute_nil]
  | other c rest hc ih => simp only [substitute_cons_of_not hc, ih]
  | run run rest hne hrun hrest ih =>
      have hstops : Stops isIdentifierChar (substitute first rest) := stops_substitute hrest hrest
      rw [substitute_run_append hne hrun hrest, substitute_append_of_stops second _ hstops, ih,
        substitute_run_append hne hrun hrest, lookupRun_append first second hne hrun]

-- The name that is put in for `x` is not looked up again.
example : substitute [(['x'], ['y']), (['y'], ['2'])] "x+y".toList = "y+2".toList := by cbv

end Lindenmayer.Text
