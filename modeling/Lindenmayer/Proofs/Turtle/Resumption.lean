import Lindenmayer.Proofs.Decimal.Writing
import Lindenmayer.Proofs.Turtle.Stream
import Lindenmayer.Proofs.Word.Reading

/-!
# Growth that is written down and resumed

The parameters that growth on a turtle computes are numbers, so in a clear alphabet a word that has
grown can be written down and read back. Growth can therefore be stopped after any generation and
resumed from the notation of the word, on any turtle that has the random stream as it was left.
-/

namespace Lindenmayer

/-! ## Words that can be written -/

namespace Alphabet

variable {alphabet : Alphabet}

theorem Declares.mem_symbolNames {symbol : Symbol} (hdeclares : alphabet.Declares symbol) :
    symbol.name ∈ alphabet.symbolNames := by
  rcases hdeclares with hconstant | hvariable
  · obtain ⟨c, hc⟩ := Option.isSome_iff_exists.mp hconstant
    obtain ⟨hname, hc⟩ := constantOf?_eq_some_iff.mp hc
    rw [hname]
    exact mem_symbolNames_of_constant (isConstant_iff.mp hc)
  · exact mem_symbolNames_of_variable (List.contains_iff_mem.mp hvariable)

/-- A symbol that can be written still can with numbers for parameters. -/
theorem Spells.of_evaluates {σ : Type} {scope : Scope σ} (hnumbers : scope.GivesNumbers)
    {origin symbol : Symbol} (hspells : alphabet.Spells origin)
    (hevaluates : scope.Evaluates origin symbol) : alphabet.Spells symbol := by
  cases hevaluates with
  | bare name => exact hspells
  | @list name args literals bindings hliterals =>
      obtain ⟨hname, hne, -⟩ := spells_list_iff.mp hspells
      refine .list hname ?_ fun literal hmem => ?_
      · rw [← List.length_pos_iff, ← hliterals.length_eq]
        exact List.length_pos_iff.mpr hne
      · obtain ⟨arg, _, hliteral⟩ := exists_of_mem_forall₂ hliterals hmem
        obtain ⟨n, rfl⟩ := hliteral.number_of_evaluate hnumbers
        exact n.isParameter_text

/-- Growth keeps what can be written. -/
theorem spells_of_growFrom {σ : Type} {system : System σ} (hnumbers : system.scope.GivesNumbers)
    {rules : List Rule} (hrules : ∀ rule ∈ rules, ∀ symbol ∈ rule.successor, alphabet.Spells symbol)
    {generation generations : Nat} {word grown : Word}
    (hword : ∀ symbol ∈ word, alphabet.Spells symbol)
    (h : Returns (system.growFrom rules generation generations word) grown) :
    ∀ symbol ∈ grown, alphabet.Spells symbol := by
  have hstep (last next : Word) (hlast : ∀ symbol ∈ last, alphabet.Spells symbol)
      (hnext : Returns (system.scope.nextGeneration rules last) next) :
      ∀ symbol ∈ next, alphabet.Spells symbol := by
    intro symbol hmem
    rcases hnext.exists_origin_of_nextGeneration hmem with hold | ⟨rule, hrule, origin, hin, hnew⟩
    · exact hlast symbol hold
    · exact (hrules rule hrule origin hin).of_evaluates hnumbers hnew
  exact h.invariant_of_growFrom hstep generations hword

end Alphabet

namespace Turtle

variable {alphabet : Alphabet}

/-! ## The parameters of a turtle -/

theorem number_of_randomFunction {values : List Value} {value : Value}
    (h : Returns (randomFunction values) value) : ∃ n, value = .number n := by
  match values with
  | [min, max] =>
      obtain ⟨_, _, h⟩ := h.exists_of_bind
      obtain ⟨_, _, _, _, hrun⟩ := h.exists_of_bind
      cases hrun
      exact ⟨_, rfl⟩
  | [] => exact absurd h Returns.not_throw
  | [_] => exact absurd h Returns.not_throw
  | _ :: _ :: _ :: _ => exact absurd h Returns.not_throw

theorem givesNumbers_system (limit : Option Nat) : (system alphabet limit).scope.GivesNumbers := by
  intro name function hfunction values value h
  cases function?_eq_some hfunction
  exact number_of_randomFunction h

/-- What a turtle grows from declared symbols can be written. -/
theorem spells_of_growFrom_declared {limit : Option Nat} {start : Text} {rules : List (Text × Text)}
    {word grown : Word} {readRules : List Rule} (hword : alphabet.readWord start = .ok word)
    (hrules : alphabet.readRules rules = .ok readRules)
    (hdeclared : ∀ symbol ∈ word, alphabet.Declares symbol)
    (hsuccessors : ∀ rule ∈ readRules, ∀ symbol ∈ rule.successor, alphabet.Declares symbol)
    {generation generations : Nat}
    (h : Returns ((system alphabet limit).growFrom readRules generation generations word) grown) :
    ∀ symbol ∈ grown, alphabet.Spells symbol := by
  have hstart : ∀ symbol ∈ word, alphabet.Spells symbol := fun symbol hmem =>
    Alphabet.spells_of_readWord hword hmem (hdeclared symbol hmem).mem_symbolNames
  have hnew : ∀ rule ∈ readRules, ∀ symbol ∈ rule.successor, alphabet.Spells symbol := by
    intro rule hrule symbol hmem
    obtain ⟨_, _, _, _, hsuccessor⟩ := Alphabet.exists_readWord_of_readRules hrules hrule
    exact Alphabet.spells_of_readWord hsuccessor hmem
      (hsuccessors rule hrule symbol hmem).mem_symbolNames
  exact Alphabet.spells_of_growFrom (givesNumbers_system limit) hnew hstart h

/-! ## Resumption -/

/-- Growth that is resumed from the notation of a word ends like growth that is not interrupted. -/
theorem ending_of_resumed (hclear : alphabet.Clear) {start : Text} {rules : List (Text × Text)}
    {word : Word} {readRules : List Rule} (hword : alphabet.readWord start = .ok word)
    (hrules : alphabet.readRules rules = .ok readRules)
    (hdeclared : ∀ symbol ∈ word, alphabet.Declares symbol)
    (hsuccessors : ∀ rule ∈ readRules, ∀ symbol ∈ rule.successor, alphabet.Declares symbol)
    {n m : Nat} {before resumed : Turtle} {grown : Word} {stream : Generator}
    (hgrown :
      ending (((system alphabet none).build start rules n).run before) = (.ok grown, stream))
    (hresumed : resumed.generator = stream) :
    ending (((system alphabet none).build grown.text rules m).run resumed) =
      ending (((system alphabet none).build start rules (n + m)).run before) := by
  have hbuild iterations : (system alphabet none).build start rules iterations =
      (system alphabet none).growFrom readRules 1 iterations word :=
    System.build_eq_growFrom hrules hword iterations
  obtain ⟨after, hfirst, hafter⟩ := exists_of_ending hgrown
  rw [hbuild, EStateM.run] at hfirst
  -- What has grown is read back as it is, and then grows on by the same rules.
  have hspells := spells_of_growFrom_declared hword hrules hdeclared hsuccessors
    ⟨before, after, hfirst⟩
  have hread : alphabet.readWord grown.text = .ok grown := by
    rw [Alphabet.readWord, hclear.trim_wordText hspells, hclear.readWordFrom_text hspells]
  have hrest : (system alphabet none).build grown.text rules m =
      (system alphabet none).growFrom readRules 1 m grown :=
    System.build_eq_growFrom hrules hread m
  calc ending (((system alphabet none).build grown.text rules m).run resumed)
      = ending ((system alphabet none).growFrom readRules 1 m grown resumed) := by
        rw [hrest, EStateM.run]
    _ = ending ((system alphabet none).growFrom readRules 1 m grown after) :=
        (ignoresDrawing_growFrom readRules m 1 grown).ending_congr (hresumed.trans hafter.symm)
    _ = ending ((system alphabet none).growFrom readRules 1 (n + m) word before) := by
        rw [System.growFrom_of_reached rfl hfirst m]
    _ = ending (((system alphabet none).build start rules (n + m)).run before) := by
        rw [hbuild, EStateM.run]

def rolling : Alphabet := ⟨["fwd".toList], ["randrange".toList], ['[', ']']⟩

def rollingRules : List (Text × Text) := [("fwd(a,b)".toList, "fwd(a+randrange(1,7),b)[]".toList)]

def rolled : Word := [⟨"fwd".toList, some [['6'], ['1']]⟩, .bare ['['], .bare [']']]

/-- The line grows on for another turtle. -/
theorem ending_of_resumed_rolled :
    Word.text rolled = "fwd(6,1)[]".toList ∧
      ending (((system rolling none).build "fwd(1, 1)".toList rollingRules 1).run (.ofSeed 0)) =
        (.ok rolled, { Generator.ofSeed 0 with drawn := 1 }) ∧
      ending (((system rolling none).build rolled.text rollingRules 1).run
          { Turtle.ofSeed 7 with generator := { Generator.ofSeed 0 with drawn := 1 } }) =
        ending (((system rolling none).build "fwd(1, 1)".toList rollingRules (1 + 1)).run
          (.ofSeed 0)) := by
  have hgrown :
      ending (((system rolling none).build "fwd(1, 1)".toList rollingRules 1).run (.ofSeed 0)) =
        (.ok rolled, { Generator.ofSeed 0 with drawn := 1 }) := by
    decide +kernel
  have hclear : rolling.Clear := by decide +kernel
  have hword : rolling.readWord "fwd(1, 1)".toList =
      .ok [⟨"fwd".toList, some [['1'], [' ', '1']]⟩] := by
    decide +kernel
  have hrules : rolling.readRules rollingRules =
      .ok [⟨[⟨"fwd".toList, some [['a'], ['b']]⟩],
        [⟨"fwd".toList, some ["a+randrange(1,7)".toList, ['b']]⟩, .bare ['['], .bare [']']]⟩] := by
    decide +kernel
  exact ⟨by decide +kernel, hgrown, ending_of_resumed hclear hword hrules (by decide +kernel)
    (by decide +kernel) hgrown rfl⟩

end Turtle

end Lindenmayer
