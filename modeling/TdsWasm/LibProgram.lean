import Mathlib.Data.List.Basic

/-! Programs that ask their environment for answers and compute the rest themselves. A program is
the tree of its questions. A handler answers every question from a state of its own; a stopping
handler may end the program at a question. A program over one signature becomes a program over a
lower one when every question is answered by a program below, and is interpreted in any monad that
has an action for every question. -/

set_option autoImplicit false

/-- The questions a program may ask and the type of the answer to each. -/
structure Signature where
  Op : Type
  Answer : Op → Type

inductive Program (sig : Signature) (α : Type) where
  | done (result : α)
  | ask (op : sig.Op) (next : sig.Answer op → Program sig α)

namespace Program

variable {sig : Signature} {α β : Type}

def bind : Program sig α → (α → Program sig β) → Program sig β
  | done result, f => f result
  | ask op next, f => ask op fun answer => (next answer).bind f

instance : Monad (Program sig) where
  pure := done
  bind := bind

/-- The program that asks one question and returns the answer. -/
def perform (op : sig.Op) : Program sig (sig.Answer op) := ask op done

@[simp] theorem pure_eq (result : α) : (pure result : Program sig α) = done result := rfl

@[simp] theorem done_bind (result : α) (f : α → Program sig β) : done result >>= f = f result := rfl

@[simp] theorem ask_bind (op : sig.Op) (next : sig.Answer op → Program sig α)
    (f : α → Program sig β) : ask op next >>= f = ask op fun answer => next answer >>= f := rfl

@[simp] theorem perform_bind (op : sig.Op) (f : sig.Answer op → Program sig β) :
    perform op >>= f = ask op f := rfl

end Program

namespace Signature

/-- One question with the answer it got. -/
structure Event (sig : Signature) where
  op : sig.Op
  answer : sig.Answer op

/-- An environment: it answers every question from its state. -/
def Handler (sig : Signature) (σ : Type) : Type := σ → (op : sig.Op) → sig.Answer op × σ

/-- An environment that may end the program at a question. -/
def StoppingHandler (sig : Signature) (ε σ : Type) : Type :=
  σ → (op : sig.Op) → Except ε (sig.Answer op) × σ

/-- An environment that might end the program and never does. -/
def Handler.unstopped {sig : Signature} {σ : Type} (handler : sig.Handler σ) : sig.StoppingHandler Empty σ :=
  fun state op => (.ok (handler state op).1, (handler state op).2)

end Signature

namespace Program

variable {sig lower : Signature} {α β σ ε : Type}

/-! ### Runs -/

/-- A finished run: the result, the environment it leaves and the questions with their answers. -/
structure Outcome (sig : Signature) (σ α : Type) where
  result : α
  state : σ
  trace : List sig.Event

def run (handler : sig.Handler σ) : Program sig α → σ → Outcome sig σ α
  | done result, state => ⟨result, state, []⟩
  | ask op next, state =>
      let (answer, state') := handler state op
      let rest := run handler (next answer) state'
      ⟨rest.result, rest.state, ⟨op, answer⟩ :: rest.trace⟩

/-- The program asks the questions of the trace, gets its answers and ends with the result. -/
def Yields : Program sig α → List sig.Event → α → Prop
  | done a, trace, result => trace = [] ∧ result = a
  | ask op next, trace, result =>
      ∃ answer rest, trace = ⟨op, answer⟩ :: rest ∧ Yields (next answer) rest result

@[simp] theorem yields_done {a result : α} {trace : List sig.Event} :
    Yields (done a) trace result ↔ trace = [] ∧ result = a := Iff.rfl

@[simp] theorem yields_ask {op : sig.Op} {next : sig.Answer op → Program sig α} {result : α}
    {trace : List sig.Event} : Yields (ask op next) trace result ↔
      ∃ answer rest, trace = ⟨op, answer⟩ :: rest ∧ Yields (next answer) rest result := Iff.rfl

/-- A run of a sequence is a run of the first program and then one of the second. -/
theorem yields_bind {program : Program sig α} {f : α → Program sig β} {trace : List sig.Event}
    {result : β} : Yields (program >>= f) trace result ↔
      ∃ first middle second, Yields program first middle ∧ Yields (f middle) second result ∧
        trace = first ++ second := by
  induction program generalizing trace with
  | done a =>
      constructor
      · intro h
        exact ⟨[], a, trace, ⟨rfl, rfl⟩, h, rfl⟩
      · rintro ⟨first, middle, second, ⟨rfl, rfl⟩, h, rfl⟩
        exact h
  | ask op next ih =>
      constructor
      · rintro ⟨answer, rest, rfl, h⟩
        obtain ⟨first, middle, second, hfirst, hsecond, rfl⟩ := (ih answer).mp h
        exact ⟨⟨op, answer⟩ :: first, middle, second, ⟨answer, first, rfl, hfirst⟩, hsecond, rfl⟩
      · rintro ⟨_, middle, second, ⟨answer, first, rfl, hfirst⟩, hsecond, rfl⟩
        exact ⟨answer, first ++ second, rfl, (ih answer).mpr ⟨first, middle, second, hfirst, hsecond, rfl⟩⟩

theorem yields_run (handler : sig.Handler σ) (program : Program sig α) (state : σ) :
    Yields program (run handler program state).trace (run handler program state).result := by
  induction program generalizing state with
  | done a => exact ⟨rfl, rfl⟩
  | ask op next ih => exact ⟨_, _, rfl, ih _ _⟩

/-- Run a program under a handler that may stop it. -/
def exec (handler : sig.StoppingHandler ε σ) : Program sig α → σ → Except ε α × σ
  | done result, state => (.ok result, state)
  | ask op next, state =>
      match handler state op with
      | (.ok answer, state') => exec handler (next answer) state'
      | (.error stop, state') => (.error stop, state')

@[simp] theorem exec_done (handler : sig.StoppingHandler ε σ) (result : α) (state : σ) :
    exec handler (done result) state = (.ok result, state) := rfl

/-- A program goes on with the answer when its question is served. -/
theorem exec_ask_ok {handler : sig.StoppingHandler ε σ} {state middle : σ} {op : sig.Op}
    {answer : sig.Answer op} (h : handler state op = (.ok answer, middle))
    (next : sig.Answer op → Program sig α) :
    exec handler (ask op next) state = exec handler (next answer) middle := by
  rw [exec, h]

/-- A program that is not stopped has got an answer to its first question. -/
theorem exec_ask_eq_ok {handler : sig.StoppingHandler ε σ} {state final : σ} {op : sig.Op}
    {next : sig.Answer op → Program sig α} {result : α}
    (h : exec handler (ask op next) state = (.ok result, final)) :
    ∃ answer middle, handler state op = (.ok answer, middle) ∧
      exec handler (next answer) middle = (.ok result, final) := by
  cases hop : handler state op with
  | mk outcome middle =>
      cases outcome with
      | ok answer => exact ⟨answer, middle, rfl, (exec_ask_ok hop next).symm.trans h⟩
      | error stop =>
          rw [exec, hop] at h
          cases h

/-- Answer every question by a program below. -/
def translate (f : (op : sig.Op) → Program lower (sig.Answer op)) : Program sig α → Program lower α
  | done result => done result
  | ask op next => f op >>= fun answer => translate f (next answer)

theorem exec_bind (handler : sig.StoppingHandler ε σ) (program : Program sig α)
    (f : α → Program sig β) (state : σ) :
    exec handler (program >>= f) state =
      match exec handler program state with
      | (.ok answer, state') => exec handler (f answer) state'
      | (.error stop, state') => (.error stop, state') := by
  induction program generalizing state with
  | done a => rfl
  | ask op next ih =>
      rw [ask_bind, exec, exec]
      cases handler state op with
      | mk outcome state' =>
          cases outcome with
          | ok answer => exact ih answer state'
          | error stop => rfl

/-- The stopping handler serves the questions of a trace one after the other, without a stop. -/
inductive Served (handler : sig.StoppingHandler ε σ) : σ → List sig.Event → σ → Prop where
  | nil (state : σ) : Served handler state [] state
  | cons {state middle final : σ} {op : sig.Op} {answer : sig.Answer op} {rest : List sig.Event}
      (hop : handler state op = (.ok answer, middle)) (hrest : Served handler middle rest final) :
      Served handler state (⟨op, answer⟩ :: rest) final

/-- The handler above that answers a question by running a program below. -/
def through (handler : lower.StoppingHandler ε σ) (f : (op : sig.Op) → Program lower (sig.Answer op)) :
    sig.StoppingHandler ε σ := fun state op => exec handler (f op) state

/-- A translated program is executed as the program above, with its questions answered below. -/
theorem exec_translate (handler : lower.StoppingHandler ε σ)
    (f : (op : sig.Op) → Program lower (sig.Answer op)) (program : Program sig α) (state : σ) :
    exec handler (program.translate f) state = exec (through handler f) program state := by
  induction program generalizing state with
  | done a => rfl
  | ask op next ih =>
      rw [translate, exec_bind, exec, through]
      cases exec handler (f op) state with
      | mk outcome middle =>
          cases outcome with
          | ok answer => exact ih answer middle
          | error stop => rfl

/-- An execution that is not stopped is a run whose questions were all served. -/
theorem served_of_exec {handler : sig.StoppingHandler ε σ} {program : Program sig α} {state final : σ}
    {result : α} (h : exec handler program state = (.ok result, final)) :
    ∃ trace, Yields program trace result ∧ Served handler state trace final := by
  induction program generalizing state with
  | done a =>
      cases h
      exact ⟨[], ⟨rfl, rfl⟩, .nil _⟩
  | ask op next ih =>
      obtain ⟨answer, middle, hop, hrest⟩ := exec_ask_eq_ok h
      obtain ⟨rest, hyields, hserved⟩ := ih answer hrest
      exact ⟨⟨op, answer⟩ :: rest, ⟨answer, rest, rfl, hyields⟩, .cons hop hserved⟩

/-! ### Interpretations -/

/-- The questions that an execution comes to, each as what is left of the program there, with the state in
which it is asked. -/
def visits (handler : sig.StoppingHandler ε σ) : Program sig α → σ → List (σ × Program sig α)
  | done _, _ => []
  | ask op next, state =>
      (state, ask op next) :: match handler state op with
        | (.ok answer, state') => visits handler (next answer) state'
        | (.error _, _) => []

theorem visits_bind (handler : sig.StoppingHandler ε σ) (program : Program sig α)
    (f : α → Program sig β) (state : σ) :
    visits handler (program >>= f) state =
      (visits handler program state).map (fun visit => (visit.1, visit.2 >>= f)) ++
        match exec handler program state with
        | (.ok answer, state') => visits handler (f answer) state'
        | (.error _, _) => [] := by
  induction program generalizing state with
  | done a => rfl
  | ask op next ih =>
      rw [ask_bind, visits, visits, exec]
      cases handler state op with
      | mk outcome state' =>
          cases outcome with
          | ok answer => exact congrArg (List.cons _) (ih answer state')
          | error stop => rfl

/-- The program asks questions of this kind only. -/
def Only (kind : sig.Op → Prop) : Program sig α → Prop
  | done _ => True
  | ask op next => kind op ∧ ∀ answer, Only kind (next answer)

namespace Only

variable {kind : sig.Op → Prop} {program : Program sig α}

theorem bind {f : α → Program sig β} (hprogram : program.Only kind) (hf : ∀ a, (f a).Only kind) :
    (program >>= f).Only kind := by
  induction program with
  | done a => exact hf a
  | ask op next ih => exact ⟨hprogram.1, fun answer => ih answer (hprogram.2 answer)⟩

theorem mono {other : sig.Op → Prop} (hkind : ∀ op, kind op → other op) (hprogram : program.Only kind) :
    program.Only other := by
  induction program with
  | done a => exact trivial
  | ask op next ih => exact ⟨hkind op hprogram.1, fun answer => ih answer (hprogram.2 answer)⟩

/-- What every question of the kind does, an execution does. -/
theorem exec {handler : sig.StoppingHandler ε σ} (does : σ → σ → Prop) (hprogram : program.Only kind)
    (hrefl : ∀ state, does state state)
    (htrans : ∀ {before middle after}, does before middle → does middle after → does before after)
    (hop : ∀ state op, kind op → does state (handler state op).2) (state : σ) :
    does state (program.exec handler state).2 := by
  induction program generalizing state with
  | done a => exact hrefl state
  | ask op next ih =>
      have hfirst := hop state op hprogram.1
      unfold Program.exec
      cases hasked : handler state op with
      | mk outcome middle =>
          rw [hasked] at hfirst
          cases outcome with
          | ok answer => exact htrans hfirst (ih answer (hprogram.2 answer) middle)
          | error stop => exact hfirst

theorem visits {handler : sig.StoppingHandler ε σ} (hprogram : program.Only kind) (state : σ) :
    ∀ visit ∈ program.visits handler state, ∃ op next, visit.2 = ask op next ∧ kind op := by
  induction program generalizing state with
  | done a => exact nofun
  | ask op next ih =>
      unfold Program.visits
      refine List.forall_mem_cons.mpr ⟨⟨op, next, rfl, hprogram.1⟩, ?_⟩
      cases handler state op with
      | mk outcome middle =>
          cases outcome with
          | ok answer => exact ih answer (hprogram.2 answer) middle
          | error stop => exact nofun

end Only

/-! ### Ends of an execution -/

/-- The execution ends in a result and a state of this kind, or it is stopped in a state of that kind. -/
def Ends (handler : sig.StoppingHandler ε σ) (returns : α → σ → Prop) (stops : σ → Prop) (program : Program sig α)
    (state : σ) : Prop :=
  match program.exec handler state with
  | (.ok result, final) => returns result final
  | (.error _, final) => stops final

namespace Ends

variable {handler : sig.StoppingHandler ε σ} {returns : α → σ → Prop} {stops : σ → Prop} {state : σ}

theorem done {result : α} (h : returns result state) : Ends handler returns stops (.done result) state := h

/-- A question is answered, and the rest ends so, or it is stopped. -/
theorem ask {op : sig.Op} {next : sig.Answer op → Program sig α}
    (hanswered : ∀ answer middle, handler state op = (.ok answer, middle) →
      Ends handler returns stops (next answer) middle)
    (hstopped : ∀ stop final, handler state op = (.error stop, final) → stops final) :
    Ends handler returns stops (.ask op next) state := by
  unfold Ends
  cases hop : handler state op with
  | mk outcome middle =>
      cases outcome with
      | ok answer =>
          rw [exec_ask_ok hop next]
          exact hanswered answer middle hop
      | error stop =>
          rw [exec, hop]
          exact hstopped stop middle hop

theorem bind {program : Program sig β} {f : β → Program sig α}
    (h : Ends handler (fun middle => Ends handler returns stops (f middle)) stops program state) :
    Ends handler returns stops (program >>= f) state := by
  unfold Ends at h ⊢
  rw [exec_bind]
  cases hexec : program.exec handler state with
  | mk outcome middle =>
      rw [hexec] at h
      cases outcome with
      | ok result => exact h
      | error stop => exact h

/-- What holds however the execution ends. -/
theorem holds {program : Program sig α} {p : σ → Prop} (h : Ends handler (fun _ => p) p program state) :
    p (program.exec handler state).2 := by
  unfold Ends at h
  cases hexec : program.exec handler state with
  | mk outcome final =>
      rw [hexec] at h
      cases outcome with
      | ok result => exact h
      | error stop => exact h

theorem mono {program : Program sig α} {returns' : α → σ → Prop} {stops' : σ → Prop}
    (hreturns : ∀ result final, returns result final → returns' result final)
    (hstops : ∀ final, stops final → stops' final) (h : Ends handler returns stops program state) :
    Ends handler returns' stops' program state := by
  unfold Ends at h ⊢
  cases hexec : program.exec handler state with
  | mk outcome final =>
      rw [hexec] at h
      cases outcome with
      | ok result => exact hreturns result final h
      | error stop => exact hstops final h

end Ends

/-! ### Derived runs -/

/-- By the rules of the handler the program comes to this result in this state, and every question on the way is
asked in a state that is good for it. -/
inductive Derives (handler : sig.Handler σ) (good : σ → sig.Op → Prop) : Program sig α → σ → α → σ → Prop where
  | done (result : α) (state : σ) : Derives handler good (done result) state result state
  | ask {op : sig.Op} {next : sig.Answer op → Program sig α} {state final : σ} {result : α} (hop : good state op)
      (hrest : Derives handler good (next (handler state op).1) (handler state op).2 result final) :
      Derives handler good (ask op next) state result final

namespace Derives

variable {handler : sig.Handler σ} {good : σ → sig.Op → Prop}

theorem bind {program : Program sig α} {f : α → Program sig β} {state middle final : σ} {a : α} {b : β}
    (hfirst : Derives handler good program state a middle) (hrest : Derives handler good (f a) middle b final) :
    Derives handler good (program >>= f) state b final := by
  induction hfirst with
  | done a state => exact hrest
  | ask hop _ ih => exact .ask hop (ih hrest)

/-- A question whose answer and next state are known. -/
theorem ask_of_eq {op : sig.Op} {next : sig.Answer op → Program sig α} {state middle final : σ}
    {answer : sig.Answer op} {result : α} (hop : good state op) (hanswer : handler state op = (answer, middle))
    (hrest : Derives handler good (next answer) middle result final) :
    Derives handler good (Program.ask op next) state result final := by
  refine .ask hop ?_
  rw [hanswer]
  exact hrest

/-- What a program comes to by the rules is what a run of it comes to. -/
theorem run_result {program : Program sig α} {state final : σ} {result : α}
    (h : Derives handler good program state result final) : (program.run handler state).result = result := by
  induction h with
  | done result state => rfl
  | ask _ _ ih => exact ih

/-- A stopping handler that gives the answers of the handler, to questions that are good and that it allows, and
whose states show those of the handler, comes to the same result when it is not stopped. -/
theorem of_exec {τ : Type} {stopping : sig.StoppingHandler ε τ} (view : τ → σ) (allows : τ → sig.Op → Prop)
    (hsame : ∀ store op answer next, allows store op → good (view store) op →
      stopping store op = (.ok answer, next) → handler (view store) op = (answer, view next))
    {program : Program sig α} {store last : τ} {state final : σ} {result given : α}
    (h : Derives handler good program state result final) (hview : view store = state)
    (hallows : ∀ visit ∈ program.visits stopping store, ∀ op next, visit.2 = Program.ask op next → allows visit.1 op)
    (hexec : program.exec stopping store = (.ok given, last)) : given = result ∧ view last = final := by
  induction h generalizing store with
  | done result state =>
      cases hexec
      exact ⟨rfl, hview⟩
  | ask hop _ ih =>
      subst hview
      obtain ⟨answer, middle, hasked, hrest⟩ := exec_ask_eq_ok hexec
      rw [visits, hasked] at hallows
      obtain ⟨hfirst, hlater⟩ := List.forall_mem_cons.mp hallows
      have hanswer := hsame _ _ _ _ (hfirst _ _ rfl) hop hasked
      rw [hanswer] at ih
      exact ih rfl hlater hrest

/-- A stopping handler that is ready for all the questions to come, and answers each of them as the handler does and
stays ready for the rest, comes to the result. -/
theorem exec_of_ready {τ : Type} {stopping : sig.StoppingHandler ε τ} (view : τ → σ)
    (ready : τ → List (σ × Program sig α) → Prop)
    (hserves : ∀ store op next rest, good (view store) op → ready store ((view store, Program.ask op next) :: rest) →
      ∃ served, stopping store op = (.ok (handler (view store) op).1, served) ∧
        view served = (handler (view store) op).2 ∧ ready served rest)
    {program : Program sig α} {store : τ} {state final : σ} {result : α}
    (h : Derives handler good program state result final) (hview : view store = state)
    (hready : ready store (program.visits handler.unstopped state)) :
    ∃ last, program.exec stopping store = (.ok result, last) ∧ ready last [] := by
  induction h generalizing store with
  | done result state => exact ⟨store, rfl, hready⟩
  | @ask op next state final result hop _ ih =>
      subst hview
      obtain ⟨served, hasked, hserved, hrest⟩ := hserves store op next _ hop hready
      obtain ⟨last, hexec, hlast⟩ := ih hserved hrest
      exact ⟨last, (exec_ask_ok hasked next).trans hexec, hlast⟩

/-- When the handler is asked nothing but what fits, and the stopping one allows what is good and fits, then it
allows all that it is asked. -/
theorem allows_of_fits {τ : Type} {stopping : sig.StoppingHandler ε τ} (view : τ → σ) (allows : τ → sig.Op → Prop)
    (fits : σ → sig.Op → Prop)
    (hallows : ∀ store op, good (view store) op → fits (view store) op → allows store op)
    (hsame : ∀ store op answer next, allows store op → good (view store) op →
      stopping store op = (.ok answer, next) → handler (view store) op = (answer, view next))
    {program : Program sig α} {store : τ} {state final : σ} {result : α}
    (h : Derives handler good program state result final) (hview : view store = state)
    (hfits : ∀ visit ∈ program.visits handler.unstopped state, ∀ op next, visit.2 = Program.ask op next →
      fits visit.1 op) :
    ∀ visit ∈ program.visits stopping store, ∀ op next, visit.2 = Program.ask op next → allows visit.1 op := by
  induction h generalizing store with
  | done result state => exact nofun
  | @ask op next state final result hop _ ih =>
      subst hview
      obtain ⟨hfirst, hlater⟩ := List.forall_mem_cons.mp hfits
      have hallowed := hallows store op hop (hfirst op next rfl)
      rw [visits]
      refine List.forall_mem_cons.mpr ⟨fun _ _ hasked => ?_, ?_⟩
      · cases hasked
        exact hallowed
      · cases hasked : stopping store op with
        | mk outcome middle =>
            cases outcome with
            | ok answer =>
                have hanswer := hsame store op answer middle hallowed hop hasked
                rw [hanswer] at ih hlater
                exact ih rfl hlater
            | error stop => exact nofun

end Derives

end Program
