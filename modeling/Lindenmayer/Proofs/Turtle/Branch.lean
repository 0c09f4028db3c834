import Lindenmayer.Proofs.Turtle.Motion

/-!
# Branches

A branch is a well nested word between brackets. It is drawn from where the turtle stands, and at
its end the turtle is back there with the poses that were saved before. So but for the segments of
the branch the drawing is the same as without it.
-/

namespace Lindenmayer

def Word.branch (word : Word) : Word := .bare ['['] :: word ++ [.bare [']']]

namespace Turtle

variable {alphabet : Alphabet} {limit : Option Nat}

/-! ## Saved poses -/

/-- The poses that were saved before stay below those that the depth counts. -/
theorem Motion.exists_saved {name : Text} {turtle after : Turtle}
    (hmotion : Motion (alphabet.constantOf? name) turtle after) {top below : List Pose}
    (hsaved : turtle.saved = top ++ below) {next : Nat}
    (hdeepen : alphabet.deepen? top.length name = some next) :
    ∃ rest, after.saved = rest ++ below ∧ rest.length = next := by
  unfold Alphabet.deepen? at hdeepen
  generalize alphabet.constantOf? name = constant at hmotion hdeepen
  cases hmotion with
  | save =>
      cases hdeepen
      exact ⟨turtle.pose :: top, congrArg (List.cons turtle.pose) hsaved, rfl⟩
  | restore hpose =>
      cases top with
      | nil => cases hdeepen
      | cons last top =>
          cases hdeepen
          rw [hsaved, List.cons_append, List.cons.injEq] at hpose
          exact ⟨top, hpose.2.symm, rfl⟩
  | forward length thickness =>
      cases hdeepen
      exact ⟨top, hsaved, rfl⟩
  | turn angle =>
      cases hdeepen
      exact ⟨top, hsaved, rfl⟩
  | rest =>
      cases hdeepen
      exact ⟨top, hsaved, rfl⟩

theorem exists_saved_of_forM {word : Word} {turtle after : Turtle}
    (hrun : word.forM (system alphabet limit).dispatch turtle = .ok () after)
    {top below : List Pose} (hsaved : turtle.saved = top ++ below) {reached : Nat}
    (hdepth : alphabet.depth? top.length word.names = some reached) :
    ∃ rest, after.saved = rest ++ below ∧ rest.length = reached := by
  induction word generalizing turtle top with
  | nil =>
      cases hrun
      cases hdepth
      exact ⟨top, hsaved, rfl⟩
  | cons symbol word ih =>
      rw [List.forM] at hrun
      obtain ⟨_, between, hsymbol, hword⟩ := run_bind_eq_ok_iff.mp hrun
      rw [Word.names, List.map_cons, Alphabet.depth?, List.foldlM_cons] at hdepth
      obtain ⟨next, hdeepen, hrest⟩ := Option.bind_eq_some_iff.mp hdepth
      obtain ⟨rest, hbetween, rfl⟩ := (motion_of_dispatch hsymbol).exists_saved hsaved hdeepen
      exact ih hword hbetween hrest

/-- A well nested word leaves the saved poses as they are. -/
theorem saved_of_nested {word : Word} (hnested : alphabet.Nested word) {turtle after : Turtle}
    (hrun : word.forM (system alphabet limit).dispatch turtle = .ok () after) :
    after.saved = turtle.saved := by
  obtain ⟨rest, hsaved, hlength⟩ :=
    exists_saved_of_forM hrun (List.nil_append turtle.saved).symm hnested
  rw [hsaved, List.length_eq_zero_iff.mp hlength, List.nil_append]

/-! ## Segments -/

/-- The turtle with its segments behind those of a sheet. -/
def onSheet (sheet : Array Segment) (turtle : Turtle) : Turtle :=
  { turtle with segments := sheet ++ turtle.segments }

theorem unseen_onSheet (sheet : Array Segment) : Unseen (onSheet sheet) where
  pose := fun _ => rfl
  saved := fun _ => rfl
  place := fun _ _ _ => rfl
  forward := by
    intro length thickness turtle
    simp only [Turtle.forward, onSheet, Array.append_push]

/-- What a word draws comes behind what has been drawn, and does not depend on it. -/
theorem exists_drawn_of_forM {word : Word} {turtle after : Turtle}
    (hrun : word.forM (system alphabet limit).dispatch turtle = .ok () after) :
    ∃ drawn : Array Segment, ∀ sheet : Array Segment,
      word.forM (system alphabet limit).dispatch { turtle with segments := sheet } =
        .ok () { after with segments := sheet ++ drawn } := by
  have hsheet sheet :
      word.forM (system alphabet limit).dispatch { turtle with segments := sheet } =
        mapState (onSheet sheet)
          (word.forM (system alphabet limit).dispatch { turtle with segments := #[] }) := by
    have hblank : CommutesWith (onSheet sheet) (word.forM (system alphabet limit).dispatch) :=
      (unseen_onSheet sheet).forM_dispatch word
    simpa only [onSheet, Array.append_empty] using hblank { turtle with segments := #[] }
  have hturtle := hsheet turtle.segments
  rw [hrun] at hturtle
  cases hblank : word.forM (system alphabet limit).dispatch { turtle with segments := #[] } with
  | ok _ drawn =>
      rw [hblank, mapState, EStateM.Result.ok.injEq] at hturtle
      refine ⟨drawn.segments, fun sheet => ?_⟩
      rw [hsheet, hblank, hturtle.2]
      rfl
  | error error drawn =>
      rw [hblank] at hturtle
      cases hturtle

/-! ## Whole words -/

theorem generator_of_forM {word : Word} {turtle after : Turtle}
    (hrun : word.forM (system alphabet limit).dispatch turtle = .ok () after) :
    after.generator = turtle.generator := by
  have hkeeps : Keeps (fun other : Turtle => other.generator = turtle.generator)
      (word.forM (system alphabet limit).dispatch) := by
    refine .forM fun symbol _ => (makes_dispatch symbol).keeps ?_
    exact fun before after hmotion hbefore => hmotion.generator_eq.trans hbefore
  have hafter := hkeeps turtle rfl
  rwa [hrun] at hafter

/-- Behind a branch the turtle is as it was before it, but for what the branch has drawn. -/
theorem exists_tip_of_branch (hopen : alphabet.isConstant '[' = true)
    (hclose : alphabet.isConstant ']' = true) {word : Word} (hnested : alphabet.Nested word)
    {fork back : Turtle}
    (hrun : word.branch.forM (system alphabet limit).dispatch fork = .ok () back) :
    ∃ tip drawn,
      (Symbol.bare ['['] :: word).forM (system alphabet limit).dispatch fork = .ok () tip ∧
        tip.segments = fork.segments ++ drawn ∧
          back = { fork with segments := fork.segments ++ drawn } := by
  have hopening : alphabet.constantOf? ['['] = some '[' :=
    Alphabet.constantOf?_eq_some_iff.mpr ⟨rfl, hopen⟩
  have hclosing : alphabet.constantOf? [']'] = some ']' :=
    Alphabet.constantOf?_eq_some_iff.mpr ⟨rfl, hclose⟩
  obtain ⟨tip, htip, hback⟩ := run_forM_append_eq_ok_iff.mp hrun
  obtain ⟨_, start, hstart, hword⟩ := run_bind_eq_ok_iff.mp htip
  obtain ⟨_, _, hend, ⟨⟩⟩ := run_bind_eq_ok_iff.mp hback
  have hsave := motion_of_dispatch hstart
  have hrestore := motion_of_dispatch hend
  rw [Symbol.bare, hopening] at hsave
  rw [Symbol.bare, hclosing] at hrestore
  cases hsave
  obtain ⟨drawn, hdrawn⟩ := exists_drawn_of_forM hword
  have hsegments : tip.segments = fork.segments ++ drawn := by
    have hsame := hdrawn fork.segments
    rw [hword, EStateM.Result.ok.injEq] at hsame
    exact congrArg Turtle.segments hsame.2
  have hsaved : tip.saved = fork.pose :: fork.saved := saved_of_nested hnested hword
  have hgenerator : tip.generator = fork.generator := by
    rw [generator_of_forM hword]
  refine ⟨tip, drawn, htip, hsegments, ?_⟩
  cases hrestore with
  | restore hpose =>
      rw [hsaved, List.cons.injEq] at hpose
      rw [← hsegments, ← hgenerator, hpose.1, hpose.2]

/-- A word with a branch in it is drawn as it is without the branch, but for the segments of the
branch, which come behind those drawn before it. -/
theorem execute_branch (hopen : alphabet.isConstant '[' = true)
    (hclose : alphabet.isConstant ']' = true) {before word rest : Word}
    (hnested : alphabet.Nested word) {turtle after : Turtle}
    (hrun : ((system alphabet limit).execute (before ++ word.branch ++ rest)).run turtle =
      .ok () after) :
    ∃ (fork tip pruned : Turtle) (drawn later : Array Segment),
      ((system alphabet limit).execute before).run turtle = .ok () fork ∧
      ((system alphabet limit).execute (before ++ Symbol.bare ['['] :: word)).run turtle =
        .ok () tip ∧
      ((system alphabet limit).execute (before ++ rest)).run turtle = .ok () pruned ∧
      pruned.pose = after.pose ∧ pruned.saved = after.saved ∧
      tip.segments = fork.segments ++ drawn ∧
      pruned.segments = fork.segments ++ later ∧
      after.segments = fork.segments ++ drawn ++ later := by
  obtain ⟨back, hbefore, hrest⟩ := run_forM_append_eq_ok_iff.mp hrun
  obtain ⟨fork, hfork, hbranch⟩ := run_forM_append_eq_ok_iff.mp hbefore
  obtain ⟨tip, drawn, htip, hdrawn, rfl⟩ := exists_tip_of_branch hopen hclose hnested hbranch
  obtain ⟨later, hlater⟩ := exists_drawn_of_forM hrest
  have hafter := hlater (fork.segments ++ drawn)
  rw [hrest, EStateM.Result.ok.injEq] at hafter
  refine ⟨fork, tip, { after with segments := fork.segments ++ later }, drawn, later, hfork, ?_, ?_,
    rfl, rfl, hdrawn, rfl, congrArg Turtle.segments hafter.2⟩
  · exact run_forM_append_eq_ok_iff.mpr ⟨fork, hfork, htip⟩
  · exact run_forM_append_eq_ok_iff.mpr ⟨fork, hfork, hlater fork.segments⟩

def line : Word := [⟨"fwd".toList, some [['1'], ['1']]⟩]

def twig : Word := ⟨"rot".toList, some ["90".toList]⟩ :: line ++ Word.branch line

/-- Two lines with a twig between them are drawn as the two lines are. -/
theorem execute_branch_twig :
    ∃ after : Turtle,
      ((system branching none).execute (line ++ twig.branch ++ line)).run (.ofSeed 0) =
        .ok () after ∧
      ∃ (fork tip pruned : Turtle) (drawn later : Array Segment),
        ((system branching none).execute line).run (.ofSeed 0) = .ok () fork ∧
        ((system branching none).execute (line ++ Symbol.bare ['['] :: twig)).run (.ofSeed 0) =
          .ok () tip ∧
        ((system branching none).execute (line ++ line)).run (.ofSeed 0) = .ok () pruned ∧
        pruned.pose = after.pose ∧ pruned.saved = after.saved ∧
        tip.segments = fork.segments ++ drawn ∧
        pruned.segments = fork.segments ++ later ∧
        after.segments = fork.segments ++ drawn ++ later := by
  have hrun : ∃ after : Turtle,
      ((system branching none).execute (line ++ twig.branch ++ line)).run (.ofSeed 0) =
        .ok () after :=
    ⟨_, by with_unfolding_all rfl⟩
  obtain ⟨after, hrun⟩ := hrun
  exact ⟨after, hrun, execute_branch (by decide) (by decide) (by with_unfolding_all rfl) hrun⟩

end Turtle

end Lindenmayer
