import TdsWasm.LibProgram

/-! Code over a state that may fail, and the comparison of two such codes. Two runs are compared from related
states, under an assumption about the states in which they end; states only grow along a run, so that what is
assumed of the end holds on the way as well. -/

set_option autoImplicit false

/-! ### Sequences -/

/-- As far as both sequences go, they are the same. -/
def Consistent {α : Type} (first second : List α) : Prop := first <+: second ∨ second <+: first

namespace Consistent

variable {α : Type} {first first' second second' : List α}

/-- What is consistent in the end has been so before. -/
theorem of_prefix (hfirst : first <+: first') (hsecond : second <+: second')
    (h : Consistent first' second') : Consistent first second := by
  rcases h with h | h
  · exact List.prefix_or_prefix_of_prefix (hfirst.trans h) hsecond
  · exact List.prefix_or_prefix_of_prefix hfirst (hsecond.trans h)

/-- What follows a common beginning is consistent. -/
theorem of_append {before : List α} (h : Consistent (before ++ first) (before ++ second)) :
    Consistent first second := by
  rcases h with h | h
  · exact Or.inl ((List.prefix_append_right_inj before).mp h)
  · exact Or.inr ((List.prefix_append_right_inj before).mp h)

theorem eq_of_singleton {a b : α} (h : Consistent [a] [b]) : a = b := by
  rcases h with ⟨rest, h⟩ | ⟨rest, h⟩
  · exact (List.cons.inj h).1
  · exact (List.cons.inj h).1.symm

/-- Sequences of one element, repeated. -/
theorem of_constant {a : α} (hfirst : ∀ x ∈ first, x = a) (hsecond : ∀ x ∈ second, x = a) :
    Consistent first second := by
  rw [List.eq_replicate_of_mem hfirst, List.eq_replicate_of_mem hsecond]
  rcases Nat.le_total first.length second.length with hle | hle
  · exact Or.inl (List.prefix_replicate_iff.mpr ⟨by simpa using hle, by simp⟩)
  · exact Or.inr (List.prefix_replicate_iff.mpr ⟨by simpa using hle, by simp⟩)

end Consistent

/-! ### Code -/

/-- Code that runs over a state and may fail. -/
abbrev Call (ε σ α : Type) : Type := ExceptT ε (StateM σ) α

namespace Call

variable {ε σ τ α β : Type}

theorem bind_apply (call : Call ε σ α) (next : α → Call ε σ β) (state : σ) :
    (call >>= next) state = match call state with
      | (.ok a, after) => next a after
      | (.error e, after) => (.error e, after) := by
  show (ExceptT.bind call next) state = _
  simp only [ExceptT.bind, ExceptT.mk, bind, StateT.bind, ExceptT.bindCont]
  cases call state with
  | mk outcome after => cases outcome <;> rfl

theorem bind_of_ok {call : Call ε σ α} {state after : σ} {a : α} (h : call state = (.ok a, after))
    (next : α → Call ε σ β) : (call >>= next) state = next a after := by
  rw [bind_apply, h]

theorem bind_of_error {call : Call ε σ α} {state after : σ} {e : ε} (h : call state = (.error e, after))
    (next : α → Call ε σ β) : (call >>= next) state = (.error e, after) := by
  rw [bind_apply, h]

/-- Code whose failures are thrown again in another form. -/
theorem tryCatch_apply (call : Call ε σ α) (failing : ε → ε) (state : σ) :
    (tryCatch call fun e => throw (failing e) : Call ε σ α) state =
      ((call state).1.mapError failing, (call state).2) := by
  show (ExceptT.tryCatch call fun e => throw (failing e)) state = _
  simp only [ExceptT.tryCatch, ExceptT.mk, bind, StateT.bind]
  cases call state with
  | mk outcome after => cases outcome <;> rfl

section Results

variable {call : Call ε σ α} {state final : σ} {e : ε}

/-- A sequence that does not fail is two calls that do not. -/
theorem bind_eq_ok {next : α → Call ε σ β} {b : β} (h : (call >>= next) state = (.ok b, final)) :
    ∃ a middle, call state = (.ok a, middle) ∧ next a middle = (.ok b, final) := by
  rw [bind_apply] at h
  cases hcall : call state with
  | mk outcome middle =>
      rw [hcall] at h
      cases outcome with
      | ok a => exact ⟨a, middle, rfl, h⟩
      | error e => cases h

/-- A sequence fails with its first call or with its second. -/
theorem bind_eq_error {next : α → Call ε σ β} (h : (call >>= next) state = (.error e, final)) :
    call state = (.error e, final) ∨
      ∃ a middle, call state = (.ok a, middle) ∧ next a middle = (.error e, final) := by
  rw [bind_apply] at h
  cases hcall : call state with
  | mk outcome middle =>
      rw [hcall] at h
      cases outcome with
      | ok a => exact Or.inr ⟨a, middle, rfl, h⟩
      | error e' =>
          cases h
          exact Or.inl rfl

/-- A call whose failures are thrown again fails no more often. -/
theorem tryCatch_eq_ok {failing : ε → ε} {a : α}
    (h : (tryCatch call fun e => throw (failing e)) state = (.ok a, final)) : call state = (.ok a, final) := by
  rw [tryCatch_apply] at h
  cases hcall : call state with
  | mk outcome middle =>
      rw [hcall] at h
      cases outcome with
      | ok a => exact h
      | error e => cases h

theorem tryCatch_eq_error {failing : ε → ε}
    (h : (tryCatch call fun e => throw (failing e)) state = (.error e, final)) :
    ∃ cause, call state = (.error cause, final) ∧ e = failing cause := by
  rw [tryCatch_apply] at h
  cases hcall : call state with
  | mk outcome middle =>
      rw [hcall] at h
      cases outcome with
      | ok a => cases h
      | error cause =>
          cases h
          exact ⟨cause, rfl, rfl⟩

end Results

/-! ### Comparisons -/

/-- How runs over two kinds of states are compared. -/
structure Comparison (ε σ τ : Type) where
  related : σ → τ → Prop
  /-- What relates the states that a failure leaves. -/
  failed : ε → σ → τ → Prop
  /-- What is assumed of the states in which two runs end. -/
  agree : σ → τ → Prop
  left : σ → σ → Prop
  right : τ → τ → Prop
  left_refl : ∀ state, left state state
  left_trans : ∀ {before middle after}, left before middle → left middle after → left before after
  right_refl : ∀ state, right state state
  right_trans : ∀ {before middle after}, right before middle → right middle after → right before after
  agree_before : ∀ {s s' t t'}, left s s' → right t t' → agree s' t' → agree s t

namespace Comparison

/-- The comparison that assumes nothing of the ends of the runs. -/
def lockstep (related : σ → τ → Prop) (failed : ε → σ → τ → Prop) : Comparison ε σ τ where
  related := related
  failed := failed
  agree _ _ := True
  left _ _ := True
  right _ _ := True
  left_refl _ := trivial
  left_trans _ _ := trivial
  right_refl _ := trivial
  right_trans _ _ := trivial
  agree_before _ _ h := h

/-- What relates the states that this outcome leaves. -/
def ended (c : Comparison ε σ τ) : Except ε α → σ → τ → Prop
  | .ok _ => c.related
  | .error e => c.failed e

end Comparison

/-- From related states both codes come to the same outcome, and to states related by it, if they end in
agreement. -/
structure Coupled (c : Comparison ε σ τ) (x : Call ε σ α) (y : Call ε τ α) : Prop where
  left : ∀ s, c.left s (x s).2
  right : ∀ t, c.right t (y t).2
  both : ∀ {s t}, c.related s t → c.agree (x s).2 (y t).2 →
    (x s).1 = (y t).1 ∧ c.ended (x s).1 (x s).2 (y t).2

namespace Coupled

variable {c : Comparison ε σ τ}

/-- Code that looks at the state and leaves it alone. -/
theorem look {f : σ → Except ε α} {g : τ → Except ε α}
    (h : ∀ {s t}, c.related s t → f s = g t ∧ c.ended (f s) s t) :
    Coupled c (fun s => (f s, s) : Call ε σ α) (fun t => (g t, t) : Call ε τ α) where
  left := c.left_refl
  right := c.right_refl
  both hrelated _ := h hrelated

theorem value (a : α) : Coupled c (pure a : Call ε σ α) (pure a : Call ε τ α) :=
  look (f := fun _ => .ok a) (g := fun _ => .ok a) fun hrelated => ⟨rfl, hrelated⟩

theorem failure {e : ε} (hfailed : ∀ {s t}, c.related s t → c.failed e s t) :
    Coupled c (throw e : Call ε σ α) (throw e : Call ε τ α) :=
  look (f := fun _ => .error e) (g := fun _ => .error e) fun hrelated => ⟨rfl, hfailed hrelated⟩

section Sequence

variable {x : Call ε σ α} {y : Call ε τ α} {f : α → Call ε σ β} {g : α → Call ε τ β}

/-- A sequence grows the state at least as its first call does. -/
theorem grows_left (hf : ∀ a, Coupled c (f a) (g a)) (s : σ) : c.left (x s).2 ((x >>= f) s).2 := by
  rw [bind_apply]
  cases x s with
  | mk outcome after =>
      cases outcome with
      | ok a => exact (hf a).left after
      | error e => exact c.left_refl after

theorem grows_right (hf : ∀ a, Coupled c (f a) (g a)) (t : τ) : c.right (y t).2 ((y >>= g) t).2 := by
  rw [bind_apply]
  cases y t with
  | mk outcome after =>
      cases outcome with
      | ok a => exact (hf a).right after
      | error e => exact c.right_refl after

/-- Sequences that end in agreement have agreed after their first calls. -/
theorem agree_first (hf : ∀ a, Coupled c (f a) (g a)) {s : σ} {t : τ}
    (hagree : c.agree ((x >>= f) s).2 ((y >>= g) t).2) : c.agree (x s).2 (y t).2 :=
  c.agree_before (grows_left hf s) (grows_right hf t) hagree

theorem bind (hx : Coupled c x y) (hf : ∀ a, Coupled c (f a) (g a)) : Coupled c (x >>= f) (y >>= g) where
  left s := c.left_trans (hx.left s) (grows_left hf s)
  right t := c.right_trans (hx.right t) (grows_right hf t)
  both {s t} hrelated hagree := by
    have hboth := hx.both hrelated (agree_first hf hagree)
    rw [bind_apply, bind_apply] at hagree ⊢
    cases hxs : x s with
    | mk outcome after =>
        cases hyt : y t with
        | mk outcome' after' =>
            rw [hxs, hyt] at hagree hboth
            obtain ⟨hsame, hafter⟩ := hboth
            simp only at hsame hafter
            subst hsame
            cases outcome with
            | ok a => exact (hf a).both hafter hagree
            | error e => exact ⟨rfl, hafter⟩

end Sequence

theorem tryCatch {x : Call ε σ α} {y : Call ε τ α} (hx : Coupled c x y) {failing : ε → ε}
    (hfailing : ∀ {e s t}, c.failed e s t → c.failed (failing e) s t) :
    Coupled c (tryCatch x fun e => throw (failing e)) (tryCatch y fun e => throw (failing e)) := by
  constructor
  · intro s
    rw [tryCatch_apply]
    exact hx.left s
  · intro t
    rw [tryCatch_apply]
    exact hx.right t
  · intro s t hrelated hagree
    rw [tryCatch_apply, tryCatch_apply] at hagree ⊢
    obtain ⟨hsame, hafter⟩ := hx.both hrelated hagree
    refine ⟨congrArg (Except.mapError failing) hsame, ?_⟩
    cases hxs : (x s).1 with
    | ok a =>
        rw [hxs] at hafter
        exact hafter
    | error e =>
        rw [hxs] at hafter
        exact hfailing hafter

/-- A program over two environments is coupled when each of its questions is. -/
theorem program {sig : Signature} {first : sig.Handler σ} {second : sig.Handler τ}
    (hop : ∀ op, Coupled c (fun s => (Except.ok (first s op).1, (first s op).2) : Call ε σ (sig.Answer op))
      (fun t => (Except.ok (second t op).1, (second t op).2) : Call ε τ (sig.Answer op)))
    (code : Program sig α) :
    Coupled c (fun s => (Except.ok (code.run first s).result, (code.run first s).state) : Call ε σ α)
      (fun t => (Except.ok (code.run second t).result, (code.run second t).state) : Call ε τ α) := by
  induction code with
  | done a => exact value a
  | ask op next ih =>
      have hsequence := (hop op).bind ih
      refine ⟨fun s => ?_, fun t => ?_, fun {s t} hrelated hagree => ?_⟩
      · exact hsequence.left s
      · exact hsequence.right t
      · exact hsequence.both hrelated hagree

end Coupled

end Call
