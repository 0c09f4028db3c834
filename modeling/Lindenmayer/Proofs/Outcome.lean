import Lindenmayer.Host
import Mathlib.Data.List.Forall2

/-!
# Outcomes

What follows from a computation about its parts, and from its parts about a computation.
-/

namespace Lindenmayer

variable {ε σ α β : Type}

theorem exists_of_mem_forall₂ {R : α → β → Prop} {xs : List α} {ys : List β}
    (h : List.Forall₂ R xs ys) {y : β} (hmem : y ∈ ys) : ∃ x ∈ xs, R x y := by
  induction h with
  | nil => cases hmem
  | cons hhead _ ih =>
      rcases List.mem_cons.mp hmem with rfl | hmem
      · exact ⟨_, List.mem_cons_self, hhead⟩
      · obtain ⟨x, hx, hrel⟩ := ih hmem
        exact ⟨x, List.mem_cons_of_mem _ hx, hrel⟩

theorem mem_of_lookup [BEq α] [LawfulBEq α] {table : List (α × β)} {key : α} {entry : β}
    (h : table.lookup key = some entry) : (key, entry) ∈ table := by
  obtain ⟨before, after, htable, -⟩ := List.lookup_eq_some_iff.mp h
  rw [htable]
  exact List.mem_append_right before List.mem_cons_self

theorem lookup_map_values {γ : Type} [BEq α] (f : β → γ) (table : List (α × β)) (key : α) :
    (table.map fun entry => (entry.1, f entry.2)).lookup key = (table.lookup key).map f := by
  induction table with
  | nil => rfl
  | cons entry table ih =>
      rw [List.map_cons, List.lookup_cons, List.lookup_cons]
      cases key == entry.1 with
      | true => rfl
      | false => exact ih

/-! ## Computations without a host -/

theorem Except.ite_ok_eq_ok_iff {p : Prop} [Decidable p] {a b : α} {error : ε} :
    (if p then Except.ok a else .error error) = .ok b ↔ p ∧ a = b := by
  by_cases h : p
  · simp [h]
  · simp [h]

theorem Except.bind_eq_ok_iff {first : Except ε α} {next : α → Except ε β} {b : β} :
    (first >>= next) = .ok b ↔ ∃ a, first = .ok a ∧ next a = .ok b := by
  cases first with
  | error error => simp [bind, Except.bind]
  | ok a => simp [bind, Except.bind]

theorem Except.map_eq_ok_iff {first : Except ε α} {f : α → β} {b : β} :
    first.map f = .ok b ↔ ∃ a, first = .ok a ∧ f a = b := by
  cases first with
  | error error => simp [Except.map]
  | ok a => simp [Except.map]

theorem Except.bind_eq_error_iff {first : Except ε α} {next : α → Except ε β} {error : ε} :
    (first >>= next) = .error error ↔
      first = .error error ∨ ∃ a, first = .ok a ∧ next a = .error error := by
  cases first with
  | error other => simp [bind, Except.bind]
  | ok a => simp [bind, Except.bind]

theorem Except.map_eq_error_iff {first : Except ε α} {f : α → β} {error : ε} :
    first.map f = .error error ↔ first = .error error := by
  cases first with
  | error other => simp [Except.map]
  | ok a => simp [Except.map]

theorem Except.mapError_eq_ok_iff {δ : Type} {first : Except ε α} {wrap : ε → δ} {a : α} :
    first.mapError wrap = .ok a ↔ first = .ok a := by
  cases first with
  | error error => simp [Except.mapError]
  | ok b => simp [Except.mapError]

theorem Except.exists_of_mapError {δ : Type} {first : Except ε α} {wrap : ε → δ} {error : δ}
    (h : first.mapError wrap = .error error) : ∃ fault, error = wrap fault := by
  cases first with
  | error fault =>
      cases h
      exact ⟨fault, rfl⟩
  | ok a => cases h

theorem Except.forall₂_of_mapM {f : α → Except ε β} {xs : List α} :
    ∀ {ys : List β}, xs.mapM f = .ok ys → List.Forall₂ (fun x y => f x = .ok y) xs ys := by
  induction xs with
  | nil =>
      intro ys h
      cases h
      exact .nil
  | cons x xs ih =>
      intro ys h
      rw [List.mapM_cons] at h
      obtain ⟨y, hy, h⟩ := Except.bind_eq_ok_iff.mp h
      obtain ⟨rest, hrest, h⟩ := Except.bind_eq_ok_iff.mp h
      cases h
      exact .cons hy (ih hrest)

/-- A traversal returns what its parts return. -/
theorem Except.mapM_of_forall₂ {f : α → Except ε β} {xs : List α} {ys : List β}
    (h : List.Forall₂ (fun x y => f x = .ok y) xs ys) : xs.mapM f = .ok ys := by
  induction h with
  | nil => rfl
  | cons hhead _ ih =>
      rw [List.mapM_cons, hhead, ih]
      rfl

/-- Without one of its parts a traversal returns the rest. -/
theorem Except.mapM_eraseIdx {f : α → Except ε β} {xs : List α} {ys : List β}
    (h : xs.mapM f = .ok ys) (i : Nat) : (xs.eraseIdx i).mapM f = .ok (ys.eraseIdx i) := by
  have hparts := Except.forall₂_of_mapM h
  rw [List.eraseIdx_eq_take_drop_succ, List.eraseIdx_eq_take_drop_succ]
  exact Except.mapM_of_forall₂
    (List.rel_append (List.forall₂_take i hparts) (List.forall₂_drop (i + 1) hparts))

theorem Except.mapM_cons_eq_error_iff {f : α → Except ε β} {x : α} {xs : List α} {error : ε} :
    (x :: xs).mapM f = .error error ↔
      f x = .error error ∨ (∃ y, f x = .ok y) ∧ xs.mapM f = .error error := by
  cases hx : f x with
  | error other => simp [List.mapM_cons, hx, bind, Except.bind]
  | ok y => cases hxs : xs.mapM f <;> simp [List.mapM_cons, hx, hxs, bind, Except.bind, pure,
      Except.pure]

/-- A traversal fails in the first of its parts that does. -/
theorem Except.mapM_eq_error_iff {f : α → Except ε β} {xs : List α} {error : ε} :
    xs.mapM f = .error error ↔
      ∃ before x rest, xs = before ++ x :: rest ∧ (∀ y ∈ before, ∃ b, f y = .ok b) ∧
        f x = .error error := by
  induction xs with
  | nil => simp [pure, Except.pure]
  | cons x xs ih =>
      rw [Except.mapM_cons_eq_error_iff, ih]
      constructor
      · rintro (hx | ⟨hx, before, found, rest, rfl, hbefore, hfound⟩)
        · exact ⟨[], x, xs, rfl, nofun, hx⟩
        · exact ⟨x :: before, found, rest, rfl, List.forall_mem_cons.mpr ⟨hx, hbefore⟩, hfound⟩
      · rintro ⟨before, found, rest, hxs, hbefore, hfound⟩
        cases before with
        | nil =>
            cases hxs
            exact .inl hfound
        | cons _ before =>
            cases hxs
            obtain ⟨hx, hbefore⟩ := List.forall_mem_cons.mp hbefore
            exact .inr ⟨hx, before, found, rest, rfl, hbefore, hfound⟩

theorem Except.exists_of_mapM {f : α → Except ε β} {xs : List α} {error : ε}
    (h : xs.mapM f = .error error) : ∃ x ∈ xs, f x = .error error := by
  obtain ⟨before, x, rest, rfl, -, hx⟩ := Except.mapM_eq_error_iff.mp h
  exact ⟨x, List.mem_append_right before List.mem_cons_self, hx⟩

/-! ## Two computations on a host -/

theorem run_bind_of_ok {first : EStateM ε σ α} {next : α → EStateM ε σ β} {before between : σ}
    {a : α} (h : first before = .ok a between) : (first >>= next) before = next a between := by
  change EStateM.bind first next before = next a between
  rw [EStateM.bind, h]

theorem run_bind_of_error {first : EStateM ε σ α} {next : α → EStateM ε σ β} {before after : σ}
    {error : ε} (h : first before = .error error after) :
    (first >>= next) before = .error error after := by
  change EStateM.bind first next before = .error error after
  rw [EStateM.bind, h]

theorem run_bind_eq_ok_iff {first : EStateM ε σ α} {next : α → EStateM ε σ β} {before after : σ}
    {b : β} :
    (first >>= next) before = .ok b after ↔
      ∃ a between, first before = .ok a between ∧ next a between = .ok b after := by
  constructor
  · intro h
    cases hfirst : first before with
    | ok a between =>
        rw [run_bind_of_ok hfirst] at h
        exact ⟨a, between, rfl, h⟩
    | error error between =>
        rw [run_bind_of_error hfirst] at h
        cases h
  · rintro ⟨a, between, hfirst, hnext⟩
    rw [run_bind_of_ok hfirst, hnext]

theorem run_bind_eq_error_iff {first : EStateM ε σ α} {next : α → EStateM ε σ β}
    {before after : σ} {error : ε} :
    (first >>= next) before = .error error after ↔
      first before = .error error after ∨
        ∃ a between, first before = .ok a between ∧ next a between = .error error after := by
  cases hfirst : first before with
  | ok a between =>
      rw [run_bind_of_ok hfirst]
      simp
  | error other between =>
      rw [run_bind_of_error hfirst]
      simp

theorem run_forM_append_eq_ok_iff {f : α → EStateM ε σ PUnit} {xs ys : List α}
    {before after : σ} :
    (xs ++ ys).forM f before = .ok () after ↔
      ∃ between, xs.forM f before = .ok () between ∧ ys.forM f between = .ok () after := by
  have happend : (xs ++ ys).forM f = xs.forM f >>= fun _ => ys.forM f := List.forM_append
  rw [happend, run_bind_eq_ok_iff]
  constructor
  · rintro ⟨_, between, hfirst, hsecond⟩
    exact ⟨between, hfirst, hsecond⟩
  · rintro ⟨between, hfirst, hsecond⟩
    exact ⟨(), between, hfirst, hsecond⟩

/-- A loop fails at one of its steps, in the state that the steps before it have led to. -/
theorem run_forM_eq_error_iff {f : α → EStateM ε σ PUnit} {xs : List α} {before after : σ}
    {error : ε} :
    xs.forM f before = .error error after ↔
      ∃ (k : Nat) (hk : k < xs.length) (between : σ),
        (xs.take k).forM f before = .ok () between ∧ f xs[k] between = .error error after := by
  induction xs generalizing before with
  | nil =>
      constructor
      · nofun
      · rintro ⟨k, hk, -⟩
        exact absurd hk (Nat.not_lt_zero k)
  | cons x xs ih =>
      rw [List.forM, run_bind_eq_error_iff]
      constructor
      · rintro (hx | ⟨_, between, hx, hxs⟩)
        · exact ⟨0, Nat.zero_lt_succ _, before, rfl, hx⟩
        · obtain ⟨k, hk, last, htake, hlast⟩ := ih.mp hxs
          refine ⟨k + 1, Nat.succ_lt_succ hk, last, ?_, hlast⟩
          exact run_bind_eq_ok_iff.mpr ⟨_, between, hx, htake⟩
      · rintro ⟨k, hk, last, htake, hlast⟩
        cases k with
        | zero =>
            cases htake
            exact .inl hlast
        | succ k =>
            obtain ⟨_, between, hx, hrest⟩ := run_bind_eq_ok_iff.mp htake
            exact .inr ⟨_, between, hx, ih.mpr ⟨k, Nat.lt_of_succ_lt_succ hk, last, hrest, hlast⟩⟩

theorem run_ofHost_of_ok {wrap : ε → Error} {run : EStateM ε σ α} {before after : σ} {a : α}
    (h : run before = .ok a after) : Effect.ofHost wrap run before = .ok a after := by
  unfold Effect.ofHost EStateM.adaptExcept
  rw [h]

theorem run_ofHost_of_error {wrap : ε → Error} {run : EStateM ε σ α} {before after : σ} {error : ε}
    (h : run before = .error error after) :
    Effect.ofHost wrap run before = .error (wrap error) after := by
  unfold Effect.ofHost EStateM.adaptExcept
  rw [h]

theorem run_ofHost_eq_error_iff {wrap : ε → Error} {run : EStateM ε σ α} {before after : σ}
    {error : Error} :
    Effect.ofHost wrap run before = .error error after ↔
      ∃ fault, run before = .error fault after ∧ error = wrap fault := by
  cases hrun : run before with
  | ok a between =>
      rw [run_ofHost_of_ok hrun]
      simp
  | error fault between =>
      rw [run_ofHost_of_error hrun]
      simp [eq_comm, and_comm]

theorem run_read_bind_eq_error_iff {read : Except ε α} {next : α → EStateM ε σ β} {before after : σ}
    {error : ε} :
    (MonadExcept.ofExcept read >>= next) before = .error error after ↔
      read = .error error ∧ after = before ∨
        ∃ a, read = .ok a ∧ next a before = .error error after := by
  cases read with
  | ok a =>
      have hrun : (MonadExcept.ofExcept (.ok a) >>= next) before = next a before := rfl
      simp [hrun]
  | error other =>
      have hrun : (MonadExcept.ofExcept (.error other) >>= next) before = .error other before := rfl
      simp [hrun, eq_comm]

theorem run_ofExcept_bind_eq_error_iff {wrap : ε → Error} {read : Except ε α}
    {next : α → Effect σ β} {before after : σ} {error : Error} :
    (Effect.ofExcept wrap read >>= next) before = .error error after ↔
      (∃ fault, read = .error fault ∧ error = wrap fault) ∧ after = before ∨
        ∃ a, read = .ok a ∧ next a before = .error error after := by
  cases read with
  | ok a =>
      have hrun : (Effect.ofExcept wrap (.ok a) >>= next) before = next a before := rfl
      simp [hrun]
  | error other =>
      have hrun : (Effect.ofExcept wrap (.error other) >>= next) before =
        .error (wrap other) before := rfl
      simp [hrun, eq_comm]

def outcome : EStateM.Result ε σ α → Except ε α
  | .ok a _ => .ok a
  | .error error _ => .error error

def hostLeft : EStateM.Result ε σ α → σ
  | .ok _ after => after
  | .error _ after => after

theorem hostLeft_ofExcept (wrap : ε → Error) (result : Except ε α) (state : σ) :
    hostLeft (Effect.ofExcept wrap result state) = state := by
  cases result <;> rfl

theorem toOption_outcome_ofExcept (wrap : ε → Error) (result : Except ε α) (state : σ) :
    (outcome (Effect.ofExcept wrap result state)).toOption = result.toOption := by
  cases result <;> rfl

/-! ## What a computation can return -/

/-- The computation returns the result from some state of the host. -/
def Returns (run : EStateM ε σ α) (a : α) : Prop := ∃ before after, run before = .ok a after

namespace Returns

theorem not_throw {error : ε} {a : α} : ¬Returns (throw error : EStateM ε σ α) a := by
  rintro ⟨_, _, hrun⟩
  cases hrun

theorem eq_of_pure {a b : α} (h : Returns (pure a : EStateM ε σ α) b) : b = a := by
  obtain ⟨_, _, hrun⟩ := h
  cases hrun
  rfl

theorem exists_of_bind {first : EStateM ε σ α} {next : α → EStateM ε σ β} {b : β}
    (h : Returns (first >>= next) b) : ∃ a, Returns first a ∧ Returns (next a) b := by
  obtain ⟨before, after, hrun⟩ := h
  obtain ⟨a, between, hfirst, hnext⟩ := run_bind_eq_ok_iff.mp hrun
  exact ⟨a, ⟨before, between, hfirst⟩, ⟨between, after, hnext⟩⟩

theorem eq_ok_of_ofExcept {wrap : ε → Error} {outcome : Except ε α} {a : α}
    (h : Returns (Effect.ofExcept wrap outcome : Effect σ α) a) : outcome = .ok a := by
  obtain ⟨_, _, hrun⟩ := h
  cases outcome with
  | ok b =>
      cases hrun
      rfl
  | error error => cases hrun

theorem of_ofHost {wrap : ε → Error} {run : EStateM ε σ α} {a : α}
    (h : Returns (Effect.ofHost wrap run) a) : Returns run a := by
  obtain ⟨before, after, h⟩ := h
  cases hrun : run before with
  | ok b between =>
      rw [run_ofHost_of_ok hrun] at h
      cases h
      exact ⟨before, after, hrun⟩
  | error error between =>
      rw [run_ofHost_of_error hrun] at h
      cases h

/-- A traversal returns what its parts return. -/
theorem forall₂_of_mapM {f : α → EStateM ε σ β} {xs : List α} :
    ∀ {ys : List β}, Returns (xs.mapM f) ys → List.Forall₂ (fun x y => Returns (f x) y) xs ys := by
  induction xs with
  | nil =>
      intro ys h
      rw [List.mapM_nil] at h
      rw [h.eq_of_pure]
      exact .nil
  | cons x xs ih =>
      intro ys h
      rw [List.mapM_cons] at h
      obtain ⟨y, hy, h⟩ := h.exists_of_bind
      obtain ⟨rest, hrest, h⟩ := h.exists_of_bind
      rw [h.eq_of_pure]
      exact .cons hy (ih hrest)

end Returns

/-- A traversal with one result has one part. -/
theorem run_mapM_eq_ok_singleton_iff {f : α → EStateM ε σ β} {xs : List α} {before after : σ}
    {y : β} :
    xs.mapM f before = .ok [y] after ↔ ∃ x, xs = [x] ∧ f x before = .ok y after := by
  constructor
  · intro h
    obtain ⟨x, rfl⟩ : ∃ x, xs = [x] := by
      have hreturns : Returns (xs.mapM f) [y] := ⟨before, after, h⟩
      exact List.length_eq_one_iff.mp hreturns.forall₂_of_mapM.length_eq
    refine ⟨x, rfl, ?_⟩
    rw [List.mapM_cons] at h
    obtain ⟨z, between, hrun, hpure⟩ := run_bind_eq_ok_iff.mp h
    cases hpure
    exact hrun
  · rintro ⟨x, rfl, hrun⟩
    rw [List.mapM_cons, run_bind_of_ok hrun]
    rfl

/-! ## How a computation ends -/

/-- From the state `before`, the computation ends with a result and a state as `post` has them, or
fails as `fails` allows. -/
def Ends (run : EStateM ε σ α) (before : σ) (post : α → σ → Prop) (fails : ε → Prop) : Prop :=
  match run before with
  | .ok a after => post a after
  | .error error _ => fails error

namespace Ends

variable {before : σ} {fails : ε → Prop}

theorem bind {first : EStateM ε σ α} {next : α → EStateM ε σ β} (between : α → σ → Prop)
    {post : β → σ → Prop} (hfirst : Ends first before between fails)
    (hnext : ∀ a state, between a state → Ends (next a) state post fails) :
    Ends (first >>= next) before post fails := by
  unfold Ends at hfirst ⊢
  cases hrun : first before with
  | ok a between =>
      rw [hrun] at hfirst
      rw [run_bind_of_ok hrun]
      exact hnext a between hfirst
  | error error after =>
      rw [hrun] at hfirst
      rw [run_bind_of_error hrun]
      exact hfirst

theorem mono {run : EStateM ε σ α} {strong weak : α → σ → Prop}
    (h : Ends run before strong fails) (himp : ∀ a state, strong a state → weak a state) :
    Ends run before weak fails := by
  unfold Ends at h ⊢
  cases hrun : run before with
  | ok a after =>
      rw [hrun] at h
      exact himp a after h
  | error error after =>
      rw [hrun] at h
      exact h

theorem ofExcept {wrap : ε → Error} {outcome : Except ε α} {post : α → σ → Prop}
    {fails : Error → Prop} (hok : ∀ a, outcome = .ok a → post a before)
    (herror : ∀ error, outcome = .error error → fails (wrap error)) :
    Ends (Effect.ofExcept wrap outcome) before post fails := by
  cases outcome with
  | ok a => exact hok a rfl
  | error error => exact herror error rfl

theorem ofHost {wrap : ε → Error} {run : EStateM ε σ α} {post : α → σ → Prop}
    {fails : Error → Prop} (h : Ends run before post fun error => fails (wrap error)) :
    Ends (Effect.ofHost wrap run) before post fails := by
  unfold Ends at h ⊢
  cases hrun : run before with
  | ok a after =>
      rw [hrun] at h
      rw [run_ofHost_of_ok hrun]
      exact h
  | error error after =>
      rw [hrun] at h
      rw [run_ofHost_of_error hrun]
      exact h

end Ends

/-! ## What a computation keeps -/

/-- From a host with the property the computation leaves one with it, however it ends. -/
def Keeps (invariant : σ → Prop) (run : EStateM ε σ α) : Prop :=
  ∀ before, invariant before → invariant (hostLeft (run before))

namespace Keeps

variable {invariant : σ → Prop}

theorem pure (a : α) : Keeps invariant (Pure.pure a : EStateM ε σ α) := fun _ hbefore => hbefore

theorem modify {f : σ → σ} (hf : ∀ before, invariant before → invariant (f before)) :
    Keeps invariant (modify f : EStateM ε σ PUnit) := fun before hbefore => hf before hbefore

theorem bind {first : EStateM ε σ α} {next : α → EStateM ε σ β} (hfirst : Keeps invariant first)
    (hnext : ∀ a, Keeps invariant (next a)) : Keeps invariant (first >>= next) := by
  intro before hbefore
  have hbetween := hfirst before hbefore
  cases hrun : first before with
  | ok a between =>
      rw [hrun] at hbetween
      rw [run_bind_of_ok hrun]
      exact hnext a between hbetween
  | error error after =>
      rw [hrun] at hbetween
      rw [run_bind_of_error hrun]
      exact hbetween

theorem ofHost {wrap : ε → Error} {run : EStateM ε σ α} (hrun : Keeps invariant run) :
    Keeps invariant (Effect.ofHost wrap run) := by
  intro before hbefore
  have hafter := hrun before hbefore
  cases hstate : run before with
  | ok a after =>
      rw [hstate] at hafter
      rw [run_ofHost_of_ok hstate]
      exact hafter
  | error error after =>
      rw [hstate] at hafter
      rw [run_ofHost_of_error hstate]
      exact hafter

theorem forM {f : α → EStateM ε σ PUnit} {xs : List α} (hf : ∀ x ∈ xs, Keeps invariant (f x)) :
    Keeps invariant (xs.forM f) := by
  induction xs with
  | nil => exact .pure _
  | cons x xs ih =>
      exact .bind (hf x List.mem_cons_self) fun _ =>
        ih fun other hmem => hf other (List.mem_cons_of_mem x hmem)

end Keeps

end Lindenmayer
