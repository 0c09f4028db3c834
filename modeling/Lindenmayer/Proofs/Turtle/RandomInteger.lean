import Lindenmayer.Turtle

/-!
# Random integers of a range

An integer of a range is drawn in 64-bit words, with arithmetic that wraps. The width of the range
is the difference of its bounds, which always fits an unsigned word, though not always a signed one.
Draws are multiplied by the width until the low half of a product is accepted, and its high half is
added to the lower bound. Where a range is wide, the difference and the sum wrap on the way, but the
integer that comes out lies in the range.
-/

namespace Lindenmayer

/-! ## The scheme in words -/

def rangeWidth (min max : Int64) : UInt64 := (max - min).toUInt64

/-- The high half of the product of two words. The low half is the product that wraps. -/
def highHalf (a b : UInt64) : UInt64 := UInt64.ofNat (a.toNat * b.toNat / UInt64.size)

namespace Generator

/-- The greatest low half that is accepted for a width, shifted and diminished as a word. -/
def wordZone (width : UInt64) : UInt64 :=
  (width <<< UInt64.ofNat (leadingZeros width.toNat)) - 1

def Accepts (width : UInt64) (generator : Generator) : Prop :=
  generator.draw.1 * width ≤ wordZone width

instance (width : UInt64) (generator : Generator) : Decidable (generator.Accepts width) :=
  inferInstanceAs (Decidable (_ ≤ _))

/-- Drawing until a number is accepted comes to this high half and leaves this stream. It comes to
nothing if no number is ever accepted. -/
inductive DrawsTo (width : UInt64) : Generator → UInt64 → Generator → Prop where
  | accept {generator : Generator} :
      generator.Accepts width →
        DrawsTo width generator (highHalf generator.draw.1 width) generator.draw.2
  | reject {generator after : Generator} {high : UInt64} :
      ¬generator.Accepts width → DrawsTo width generator.draw.2 high after →
        DrawsTo width generator high after

end Generator

/-! ## Words and numbers -/

theorem toNat_rangeWidth {min max : Int64} (h : min < max) :
    ((rangeWidth min max).toNat : Int) = max.toInt - min.toInt := by
  have hmin : min.toInt = min.toBitVec.toInt := rfl
  have hmax : max.toInt = max.toBitVec.toInt := rfl
  have hwidth : (rangeWidth min max).toNat = (max.toBitVec - min.toBitVec).toNat := rfl
  have hminBound := min.toBitVec.isLt
  have hmaxBound := max.toBitVec.isLt
  rw [Int64.lt_iff_toInt_lt] at h
  rw [BitVec.toInt_eq_toNat_cond] at hmin hmax
  rw [hwidth, BitVec.toNat_sub]
  omega

theorem toNat_highHalf (a b : UInt64) :
    (highHalf a b).toNat = a.toNat * b.toNat / UInt64.size := by
  have hhigh : a.toNat * b.toNat / UInt64.size < UInt64.size :=
    Nat.div_lt_of_lt_mul (Nat.mul_lt_mul'' a.toNat_lt b.toNat_lt)
  exact Nat.mod_eq_of_lt hhigh

/-- The high half of a product is below each factor. -/
theorem highHalf_lt (a : UInt64) {b : UInt64} (hb : 0 < b.toNat) :
    (highHalf a b).toNat < b.toNat := by
  rw [toNat_highHalf, Nat.div_lt_iff_lt_mul (by decide), Nat.mul_comm b.toNat]
  exact Nat.mul_lt_mul_of_pos_right a.toNat_lt hb

/-- A sum that is a signed word is not changed by wrapping, however great the word that is added. -/
theorem toInt_add_toInt64 {min : Int64} {high : UInt64}
    (h : min.toInt + high.toNat ≤ Int64.maxValue.toInt) :
    (min + high.toInt64).toInt = min.toInt + high.toNat := by
  have hmin := Int64.le_toInt min
  have hhigh : high.toInt64.toInt = high.toBitVec.toInt := rfl
  have hnat : high.toBitVec.toNat = high.toNat := rfl
  have hbound := high.toNat_lt
  rw [Int64.toInt_maxValue] at h
  rw [BitVec.toInt_eq_toNat_cond] at hhigh
  rw [Int64.toInt_add, Int.bmod_def]
  omega

/-- What is below the width of a range leads from its lower bound to an integer of the range. -/
theorem toInt_add_of_lt_rangeWidth {min max : Int64} (h : min < max) {high : UInt64}
    (hhigh : high.toNat < (rangeWidth min max).toNat) :
    (min + high.toInt64).toInt = min.toInt + high.toNat ∧ min ≤ min + high.toInt64 ∧
      min + high.toInt64 < max := by
  have hwidth := toNat_rangeWidth h
  have hmax := Int64.toInt_lt max
  have hfits : min.toInt + high.toNat ≤ Int64.maxValue.toInt := by
    rw [Int64.toInt_maxValue]
    omega
  have hsum := toInt_add_toInt64 hfits
  rw [Int64.le_iff_toInt_le, Int64.lt_iff_toInt_lt, hsum]
  exact ⟨rfl, by omega, by omega⟩

namespace Generator

theorem shiftLeft_leadingZeros {n : Nat} (hpos : 0 < n) (hlt : n < UInt64.size) :
    n ≤ n <<< leadingZeros n ∧ n <<< leadingZeros n < UInt64.size := by
  have hlog : n.log2 < 64 := (Nat.log2_lt (Nat.ne_of_gt hpos)).mpr hlt
  rw [leadingZeros, if_neg (Nat.ne_of_gt hpos), Nat.shiftLeft_eq]
  constructor
  · exact Nat.le_mul_of_pos_right n (Nat.two_pow_pos _)
  · calc n * 2 ^ (63 - n.log2) < 2 ^ (n.log2 + 1) * 2 ^ (63 - n.log2) :=
          Nat.mul_lt_mul_of_pos_right Nat.lt_log2_self (Nat.two_pow_pos _)
      _ = 2 ^ 64 := by
          rw [← Nat.pow_add]
          congr 1
          omega

/-- Neither the shift nor the difference of the zone wraps. -/
theorem toNat_wordZone {width : UInt64} (hwidth : 0 < width.toNat) :
    (wordZone width).toNat = zone width.toNat := by
  obtain ⟨hle, hlt⟩ := shiftLeft_leadingZeros hwidth width.toNat_lt
  have hzeros : leadingZeros width.toNat < 64 := by
    rw [leadingZeros, if_neg (Nat.ne_of_gt hwidth)]
    omega
  have hshift : (width <<< UInt64.ofNat (leadingZeros width.toNat)).toNat =
      width.toNat <<< leadingZeros width.toNat := by
    have hamount : (UInt64.ofNat (leadingZeros width.toNat)).toNat = leadingZeros width.toNat :=
      Nat.mod_eq_of_lt (by omega)
    rw [UInt64.toNat_shiftLeft, hamount, Nat.mod_eq_of_lt hzeros]
    exact Nat.mod_eq_of_lt hlt
  have hone : 1 ≤ width <<< UInt64.ofNat (leadingZeros width.toNat) := by
    rw [UInt64.le_iff_toNat_le, hshift]
    exact Nat.le_trans hwidth hle
  rw [wordZone, UInt64.toNat_sub_of_le _ _ hone, hshift]
  rfl

theorem accepts_iff {width : UInt64} (hwidth : 0 < width.toNat) (generator : Generator) :
    generator.Accepts width ↔
      generator.draw.1.toNat * width.toNat % UInt64.size ≤ zone width.toNat := by
  rw [Accepts, UInt64.le_iff_toNat_le, toNat_wordZone hwidth, UInt64.toNat_mul]

/-! ## The first number that is accepted -/

def skip (generator : Generator) (draws : Nat) : Generator :=
  { generator with drawn := generator.drawn + draws }

theorem drawn_skip (generator : Generator) (draws : Nat) :
    (generator.skip draws).drawn = generator.drawn + draws := rfl

theorem block_skip (generator : Generator) (draws number : Nat) :
    (generator.skip draws).block number = generator.block number := rfl

theorem skip_draw (generator : Generator) (draws : Nat) :
    generator.draw.2.skip draws = generator.skip (draws + 1) := by
  have hdrawn : generator.drawn + 1 + draws = generator.drawn + (draws + 1) := by omega
  exact congrArg (Generator.mk generator.lowKey generator.highKey) hdrawn

/-- The counter of the blocks comes round. -/
theorem block_add_size (generator : Generator) (number : Nat) :
    generator.block (number + UInt64.size) = generator.block number := by
  have hcounter : UInt64.ofNat (number + UInt64.size) = UInt64.ofNat number := by
    rw [← UInt64.toNat_inj, UInt64.toNat_ofNat', UInt64.toNat_ofNat']
    exact Nat.add_mod_right number UInt64.size
  rw [block, block, hcounter]

theorem draw_congr {generator other : Generator}
    (hblock : generator.block (generator.drawn / 8) = other.block (other.drawn / 8))
    (hplace : generator.drawn % 8 = other.drawn % 8) : generator.draw.1 = other.draw.1 := by
  simp only [draw, hblock, hplace]

/-- The stream repeats. -/
theorem draw_skip_period (generator : Generator) (draws : Nat) :
    (generator.skip (draws + period)).draw.1 = (generator.skip draws).draw.1 := by
  have hdiv (n : Nat) : (n + period) / 8 = n / 8 + UInt64.size :=
    Nat.add_mul_div_left n UInt64.size (by decide)
  have hmod (n : Nat) : (n + period) % 8 = n % 8 := Nat.add_mul_mod_self_left n 8 UInt64.size
  refine draw_congr ?_ ?_
  · rw [block_skip, block_skip, drawn_skip, drawn_skip, ← Nat.add_assoc, hdiv, block_add_size]
  · rw [drawn_skip, drawn_skip, ← Nat.add_assoc, hmod]

/-- The number after this many draws is the first that is accepted. -/
structure FirstAccepted (width : UInt64) (generator : Generator) (draws : Nat) : Prop where
  accepted : (generator.skip draws).Accepts width
  rejected : ∀ earlier < draws, ¬(generator.skip earlier).Accepts width

theorem firstAccepted_succ_iff {width : UInt64} {generator : Generator} {draws : Nat} :
    FirstAccepted width generator (draws + 1) ↔
      ¬generator.Accepts width ∧ FirstAccepted width generator.draw.2 draws := by
  constructor
  · intro hfirst
    refine ⟨hfirst.rejected 0 (Nat.succ_pos draws), ?_, fun earlier hlt => ?_⟩
    · rw [skip_draw]
      exact hfirst.accepted
    · rw [skip_draw]
      exact hfirst.rejected (earlier + 1) (Nat.succ_lt_succ hlt)
  · rintro ⟨hrejects, haccepted, hrejected⟩
    refine ⟨by rwa [← skip_draw], fun earlier hlt => ?_⟩
    cases earlier with
    | zero => exact hrejects
    | succ earlier =>
        rw [← skip_draw]
        exact hrejected earlier (Nat.lt_of_succ_lt_succ hlt)

theorem DrawsTo.exists_first {width : UInt64} {generator after : Generator} {high : UInt64}
    (h : DrawsTo width generator high after) :
    ∃ draws, FirstAccepted width generator draws ∧
      high = highHalf (generator.skip draws).draw.1 width ∧ after = generator.skip (draws + 1) := by
  induction h with
  | accept haccepts =>
      exact ⟨0, ⟨haccepts, fun _ hlt => absurd hlt (Nat.not_lt_zero _)⟩, rfl, rfl⟩
  | reject hrejects _ ih =>
      obtain ⟨draws, hfirst, hhigh, hafter⟩ := ih
      rw [skip_draw] at hhigh hafter
      exact ⟨draws + 1, firstAccepted_succ_iff.mpr ⟨hrejects, hfirst⟩, hhigh, hafter⟩

/-- What is accepted at all is accepted before the stream repeats. -/
theorem FirstAccepted.lt_period {width : UInt64} {generator : Generator} {draws : Nat}
    (hfirst : FirstAccepted width generator draws) : draws < period := by
  refine Nat.lt_of_not_le fun hge => ?_
  obtain ⟨earlier, rfl⟩ := Nat.exists_eq_add_of_le' hge
  have hearlier : earlier < earlier + period := Nat.lt_add_of_pos_right (by decide)
  have haccepted := hfirst.accepted
  rw [Accepts, draw_skip_period] at haccepted
  exact hfirst.rejected earlier hearlier haccepted

theorem FirstAccepted.drawBelow_eq {width : UInt64} (hwidth : 0 < width.toNat)
    {generator : Generator} {draws limit : Nat} (hfirst : FirstAccepted width generator draws)
    (hlimit : draws < limit) :
    drawBelow width.toNat limit generator =
      ((highHalf (generator.skip draws).draw.1 width).toNat, generator.skip (draws + 1)) := by
  induction draws generalizing generator limit with
  | zero =>
      cases limit with
      | zero => cases hlimit
      | succ limit =>
          rw [drawBelow, if_pos ((accepts_iff hwidth generator).mp hfirst.accepted), toNat_highHalf]
          rfl
  | succ draws ih =>
      cases limit with
      | zero => cases hlimit
      | succ limit =>
          obtain ⟨hrejects, hrest⟩ := firstAccepted_succ_iff.mp hfirst
          rw [accepts_iff hwidth] at hrejects
          have hnext := ih hrest (Nat.lt_of_succ_lt_succ hlimit)
          rw [skip_draw, skip_draw] at hnext
          rw [drawBelow, if_neg hrejects]
          exact hnext

/-- The bounded search for a number that is accepted finds what drawing without a bound comes to. -/
theorem DrawsTo.drawBelow_eq {width : UInt64} (hwidth : 0 < width.toNat)
    {generator after : Generator} {high : UInt64} (h : DrawsTo width generator high after) :
    drawBelow width.toNat period generator = (high.toNat, after) ∧ high.toNat < width.toNat := by
  obtain ⟨draws, hfirst, rfl, rfl⟩ := h.exists_first
  exact ⟨hfirst.drawBelow_eq hwidth hfirst.lt_period, highHalf_lt _ hwidth⟩

/-! ## Ranges -/

theorem inRange_of_le {min max : Int64} (h : max ≤ min) (generator : Generator) :
    generator.inRange min max = (min, generator) :=
  if_pos h

/-- The exact sum of the lower bound and what is drawn below the width is the sum of words. -/
theorem inRange_of_lt {min max : Int64} (h : min < max) {generator after : Generator}
    {high : UInt64} (hhigh : high.toNat < (rangeWidth min max).toNat)
    (hdraws : generator.drawBelow (rangeWidth min max).toNat period = (high.toNat, after)) :
    generator.inRange min max = (min + high.toInt64, after) := by
  have hbound : (max.toInt - min.toInt).toNat = (rangeWidth min max).toNat := by
    rw [← toNat_rangeWidth h]
    rfl
  have hsum := (toInt_add_of_lt_rangeWidth h hhigh).1
  rw [inRange, if_neg (Int64.not_le.mpr h), hbound]
  simp only [hdraws]
  rw [← hsum, Int64.ofInt_toInt]

/-- Whatever the stream is like, what is drawn is below the width. -/
theorem exists_drawBelow {width : UInt64} (hwidth : 0 < width.toNat) (generator : Generator) :
    ∃ (high : UInt64) (after : Generator),
      generator.drawBelow width.toNat period = (high.toNat, after) ∧
      high.toNat < width.toNat := by
  have hlt := drawBelow_lt hwidth period generator
  have hnat : (UInt64.ofNat (generator.drawBelow width.toNat period).1).toNat =
      (generator.drawBelow width.toNat period).1 :=
    Nat.mod_eq_of_lt (Nat.lt_trans hlt width.toNat_lt)
  refine ⟨UInt64.ofNat (generator.drawBelow width.toNat period).1,
    (generator.drawBelow width.toNat period).2, ?_, ?_⟩
  · rw [hnat]
  · rwa [hnat]

end Generator

namespace Turtle

theorem randomFunction_integers (min max : Int64) (turtle : Turtle) :
    randomFunction [.number (.integer min), .number (.integer max)] turtle =
      .ok (.number (.integer (turtle.generator.inRange min max).1))
        { turtle with generator := (turtle.generator.inRange min max).2 } :=
  rfl

/-- For every pair of bounds and every random stream, the integer is the lower bound and the turtle
is left as it is if the range is empty, and else the integer lies in the range. It is then the
wrapped sum of the lower bound and of what drawing in words comes to, if that comes to an end. -/
theorem randomFunction_in_range (min max : Int64) (turtle : Turtle) :
    (max ≤ min →
      randomFunction [.number (.integer min), .number (.integer max)] turtle =
        .ok (.number (.integer min)) turtle) ∧
      (min < max →
        (∃ n after, randomFunction [.number (.integer min), .number (.integer max)] turtle =
          .ok (.number (.integer n)) after ∧ min ≤ n ∧ n < max) ∧
        ∀ high stream, Generator.DrawsTo (rangeWidth min max) turtle.generator high stream →
          randomFunction [.number (.integer min), .number (.integer max)] turtle =
              .ok (.number (.integer (min + high.toInt64))) { turtle with generator := stream } ∧
            min ≤ min + high.toInt64 ∧ min + high.toInt64 < max) := by
  refine ⟨fun hle => ?_, fun hlt => ?_⟩
  · rw [randomFunction_integers, Generator.inRange_of_le hle]
  have hwidth : 0 < (rangeWidth min max).toNat := by
    have hdifference := toNat_rangeWidth hlt
    rw [Int64.lt_iff_toInt_lt] at hlt
    omega
  constructor
  · obtain ⟨high, after, hdraws, hhigh⟩ := turtle.generator.exists_drawBelow hwidth
    refine ⟨min + high.toInt64, { turtle with generator := after }, ?_,
      (toInt_add_of_lt_rangeWidth hlt hhigh).2⟩
    rw [randomFunction_integers, Generator.inRange_of_lt hlt hhigh hdraws]
  · intro high stream hscheme
    obtain ⟨hdraws, hhigh⟩ := hscheme.drawBelow_eq hwidth
    refine ⟨?_, (toInt_add_of_lt_rangeWidth hlt hhigh).2⟩
    rw [randomFunction_integers, Generator.inRange_of_lt hlt hhigh hdraws]

/-- A range of more integers than a signed word can count: the first number drawn is rejected, and
the sum wraps to a positive integer. -/
theorem randomFunction_in_range_wide :
    Generator.DrawsTo (rangeWidth (-6000000000000000000) 6000000000000000000) (.ofSeed 0)
        9281522212238858118 ((Generator.ofSeed 0).skip 2) ∧
      randomFunction [.number (.integer (-6000000000000000000)),
          .number (.integer 6000000000000000000)] (.ofSeed 0) =
        .ok (.number (.integer 3281522212238858118))
          { Turtle.ofSeed 0 with generator := (Generator.ofSeed 0).skip 2 } := by
  have hsecond : highHalf (Generator.ofSeed 0).draw.2.draw.1
      (rangeWidth (-6000000000000000000) 6000000000000000000) = 9281522212238858118 := by
    decide +kernel
  have hdraws : Generator.DrawsTo (rangeWidth (-6000000000000000000) 6000000000000000000)
      (.ofSeed 0) 9281522212238858118 ((Generator.ofSeed 0).skip 2) := by
    rw [← hsecond]
    exact .reject (by decide +kernel) (.accept (by decide +kernel))
  have hlt : (-6000000000000000000 : Int64) < 6000000000000000000 := by decide
  exact ⟨hdraws, (((randomFunction_in_range _ _ (.ofSeed 0)).2 hlt).2 _ _ hdraws).1⟩

end Turtle

end Lindenmayer
