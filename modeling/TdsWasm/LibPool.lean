import TdsWasm.LibMachine
import TdsWasm.LibProgram
import Mathlib.Data.List.Pairwise
import Mathlib.Data.Nat.Find
import Mathlib.Algebra.BigOperators.Group.Finset.Piecewise
import Mathlib.Algebra.Order.BigOperators.Group.Finset

/-! Programs side by side. The programs of a pool ask their questions one at a time, in whatever order a
schedule brings them in, and share one environment, which may answer the same question differently each time.
What a program comes to depends on the answers it gets and on nothing else of the pool, so that each of them
can be evaluated alone; a program whose turn keeps coming comes to its end; and two pools whose programs ask in
step are told the same by an environment that does not tell their questions apart. -/

set_option autoImplicit false

namespace Program

variable {sig lower : Signature} {α β σ : Type}

/-! ### Evaluation -/

/-- The result under an environment that has one answer to each question. -/
def eval (answer : (op : sig.Op) → sig.Answer op) : Program sig α → α
  | done result => result
  | ask op next => eval answer (next (answer op))

/-- The questions on the way there, with their answers. -/
def asked (answer : (op : sig.Op) → sig.Answer op) : Program sig α → List sig.Event
  | done _ => []
  | ask op next => ⟨op, answer op⟩ :: asked answer (next (answer op))

section Eval

variable (answer : (op : sig.Op) → sig.Answer op)

@[simp] theorem eval_done (result : α) : (done result : Program sig α).eval answer = result := rfl

@[simp] theorem eval_ask (op : sig.Op) (next : sig.Answer op → Program sig α) :
    (ask op next).eval answer = (next (answer op)).eval answer := rfl

@[simp] theorem eval_perform (op : sig.Op) : (perform op).eval answer = answer op := rfl

@[simp] theorem eval_bind (program : Program sig α) (f : α → Program sig β) :
    (program >>= f).eval answer = (f (program.eval answer)).eval answer := by
  induction program with
  | done a => rfl
  | ask op next ih => exact ih _

@[simp] theorem eval_map (program : Program sig α) (f : α → β) :
    (f <$> program).eval answer = f (program.eval answer) := eval_bind answer program _

end Eval

/-- Run a program whose questions are answered by programs below, which hand a state on. -/
def serve (server : σ → (op : sig.Op) → Program lower (sig.Answer op × σ)) :
    Program sig α → σ → Program lower (α × σ)
  | done result, state => done (result, state)
  | ask op next, state => server state op >>= fun (answer, state') => serve server (next answer) state'

/-- A program whose questions are evaluated below is run by the handler that these evaluations make, with the
states of the two as one shows the other. -/
theorem eval_serve {τ : Type} (server : σ → (op : sig.Op) → Program lower (sig.Answer op × σ))
    (answer : (op : lower.Op) → lower.Answer op) (handler : sig.Handler τ) (view : σ → τ)
    (hserver : ∀ state op, handler (view state) op =
      (((server state op).eval answer).1, view ((server state op).eval answer).2))
    (program : Program sig α) (state : σ) :
    (program.run handler (view state)).result = ((serve server program state).eval answer).1 ∧
      (program.run handler (view state)).state = view ((serve server program state).eval answer).2 := by
  induction program generalizing state with
  | done a => exact ⟨rfl, rfl⟩
  | ask op next ih =>
      rw [run, serve, eval_bind, hserver state op]
      exact ih _ _

/-! ### What is left of a program -/

/-- The program asks the questions of the trace, gets its answers and then is left with the rest. -/
inductive Leaves : Program sig α → List sig.Event → Program sig α → Prop where
  | nil (program : Program sig α) : Leaves program [] program
  | cons {op : sig.Op} {next : sig.Answer op → Program sig α} {answer : sig.Answer op}
      {trace : List sig.Event} {rest : Program sig α} (hrest : Leaves (next answer) trace rest) :
      Leaves (ask op next) (⟨op, answer⟩ :: trace) rest

namespace Leaves

variable {program : Program sig α} {trace : List sig.Event}

/-- The next question is the first one of what is left. -/
theorem snoc {op : sig.Op} {next : sig.Answer op → Program sig α}
    (h : Leaves program trace (ask op next)) (answer : sig.Answer op) :
    Leaves program (trace ++ [⟨op, answer⟩]) (next answer) := by
  generalize hrest : ask op next = rest at h
  induction h with
  | nil program =>
      subst hrest
      exact .cons (.nil _)
  | cons _ ih => exact .cons (ih hrest)

/-- An environment that gives the answers of the trace leads to where they have led. -/
theorem eval_eq {rest : Program sig α} {answer : (op : sig.Op) → sig.Answer op}
    (h : Leaves program trace rest) (hsame : ∀ event ∈ trace, answer event.op = event.answer) :
    program.eval answer = rest.eval answer := by
  induction h with
  | nil program => rfl
  | cons _ ih =>
      rw [eval_ask, hsame _ List.mem_cons_self]
      exact ih fun event hmem => hsame event (List.mem_cons_of_mem _ hmem)

/-- The same environment is asked the questions of the trace first. -/
theorem asked_eq {rest : Program sig α} {answer : (op : sig.Op) → sig.Answer op}
    (h : Leaves program trace rest) (hsame : ∀ event ∈ trace, answer event.op = event.answer) :
    program.asked answer = trace ++ rest.asked answer := by
  induction h with
  | nil program => rfl
  | cons _ ih =>
      have hfirst := hsame _ List.mem_cons_self
      simp only at hfirst
      rw [asked, hfirst, List.cons_append, ih fun event hmem => hsame event (List.mem_cons_of_mem _ hmem)]

/-- What has been left goes on to an end, with these answers for example. -/
theorem yields {rest : Program sig α} (h : Leaves program trace rest) (answer : (op : sig.Op) → sig.Answer op) :
    Yields program (trace ++ rest.asked answer) (rest.eval answer) := by
  induction h with
  | nil program =>
      induction program with
      | done a => exact ⟨rfl, rfl⟩
      | ask op next ih => exact ⟨_, _, rfl, ih (answer op)⟩
  | cons _ ih => exact ⟨_, _, rfl, ih⟩

/-- Two runs of one program that got the same answers to the same questions have come to the same end. -/
theorem unique {trace' : List sig.Event} {result result' : α} (h : Leaves program trace (done result))
    (h' : Leaves program trace' (done result')) (hsame : ∀ event ∈ trace, ∀ event' ∈ trace',
      event.op = event'.op → event = event') : trace = trace' ∧ result = result' := by
  induction program generalizing trace trace' with
  | done a =>
      cases h
      cases h'
      exact ⟨rfl, rfl⟩
  | ask op next ih =>
      cases h with
      | cons hrest =>
          cases h' with
          | cons hrest' =>
              have hfirst := hsame _ List.mem_cons_self _ List.mem_cons_self rfl
              cases hfirst
              obtain ⟨htrace, hresult⟩ := ih _ hrest hrest' fun event hmem event' hmem' =>
                hsame event (List.mem_cons_of_mem _ hmem) event' (List.mem_cons_of_mem _ hmem')
              exact ⟨congrArg _ htrace, hresult⟩

end Leaves

/-- The answers on the way to an end are those of the environment. -/
theorem answer_of_mem_asked {answer : (op : sig.Op) → sig.Answer op} {program : Program sig α} {event : sig.Event}
    (h : event ∈ program.asked answer) : event.answer = answer event.op := by
  induction program with
  | done a => exact absurd h List.not_mem_nil
  | ask op next ih =>
      rcases List.mem_cons.mp h with rfl | hmem
      · rfl
      · exact ih (answer op) hmem

/-- An execution that is stopped has been served its questions up to the one at which it is. -/
theorem stopped_of_exec {ε : Type} {handler : sig.StoppingHandler ε σ} {program : Program sig α} {state final : σ}
    {stop : ε} (h : exec handler program state = (.error stop, final)) :
    ∃ trace op next middle, Leaves program trace (ask op next) ∧ Served handler state trace middle ∧
      handler middle op = (.error stop, final) := by
  induction program generalizing state with
  | done a => cases h
  | ask op next ih =>
      cases hop : handler state op with
      | mk outcome middle =>
          cases outcome with
          | ok answer =>
              rw [exec_ask_ok hop next] at h
              obtain ⟨trace, op', next', middle', hleaves, hserved, hstop⟩ := ih answer h
              exact ⟨⟨op, answer⟩ :: trace, op', next', middle', .cons hleaves, .cons hop hserved, hstop⟩
          | error own =>
              rw [exec, hop] at h
              cases h
              exact ⟨[], op, next, state, .nil _, .nil _, hop⟩

/-! ### Ledgers -/

/-- A ledger of questions: whether it admits a question as it stands, and how it stands after it. -/
structure Ledger (sig : Signature) (κ : Type) where
  admits : κ → sig.Op → Prop
  enter : κ → sig.Op → κ

/-- The ledger admits every question of the program, whatever the answers, and in the end the result and the
ledger satisfy the postcondition. -/
def Keeps {κ : Type} (ledger : Ledger sig κ) (post : α → κ → Prop) : κ → Program sig α → Prop
  | k, done result => post result k
  | k, ask op next => ledger.admits k op ∧ ∀ answer, Keeps ledger post (ledger.enter k op) (next answer)

namespace Ledger

variable {κ : Type} (ledger : Ledger sig κ)

/-- The ledger admits the questions of a trace, one after the other. -/
def Admits : κ → List sig.Event → Prop
  | _, [] => True
  | k, event :: rest => ledger.admits k event.op ∧ Admits (ledger.enter k event.op) rest

/-- Every question ranks above the ones before it. -/
def ascending (rank : sig.Op → Nat) : Ledger sig Nat where
  admits low op := low ≤ rank op
  enter _ op := rank op + 1

/-- Only these questions are admitted. -/
def only (allowed : sig.Op → Prop) : Ledger sig Unit where
  admits _ op := allowed op
  enter _ _ := ()

/-- Questions of one kind are paid for. -/
def paying (paid : sig.Op → Bool) : Ledger sig Nat where
  admits budget op := paid op = true → 0 < budget
  enter budget op := if paid op then budget - 1 else budget

end Ledger

section Keeps

variable {κ : Type} {ledger : Ledger sig κ} {post : α → κ → Prop} {k : κ} {program : Program sig α}

theorem Keeps.mono {post' : α → κ → Prop} (h : Keeps ledger post k program)
    (hpost : ∀ a k, post a k → post' a k) : Keeps ledger post' k program := by
  induction program generalizing k with
  | done a => exact hpost a k h
  | ask op next ih => exact ⟨h.1, fun answer => ih answer (h.2 answer)⟩

theorem Keeps.bind {post' : β → κ → Prop} {f : α → Program sig β}
    (h : Keeps ledger post k program) (hf : ∀ a k, post a k → Keeps ledger post' k (f a)) :
    Keeps ledger post' k (program >>= f) := by
  induction program generalizing k with
  | done a => exact hf a k h
  | ask op next ih => exact ⟨h.1, fun answer => ih answer (h.2 answer)⟩

theorem Keeps.map {post' : β → κ → Prop} {f : α → β} (h : Keeps ledger post k program)
    (hf : ∀ a k, post a k → post' (f a) k) : Keeps ledger post' k (f <$> program) :=
  h.bind hf

/-- A program served below keeps what each of its questions keeps. -/
theorem Keeps.serve {ledger : Ledger lower κ} {inv : σ → κ → Prop}
    {server : σ → (op : sig.Op) → Program lower (sig.Answer op × σ)}
    (hserver : ∀ state k op, inv state k → Keeps ledger (fun served k => inv served.2 k) k (server state op))
    (program : Program sig α) {state : σ} (h : inv state k) :
    Keeps ledger (fun served k => inv served.2 k) k (Program.serve server program state) := by
  induction program generalizing state k with
  | done a => exact h
  | ask op next ih => exact (hserver state k op h).bind fun served k hserved => ih served.1 hserved

/-- The ledger admits what a program has asked so far. -/
theorem Leaves.admits {trace : List sig.Event} {rest : Program sig α} (h : Leaves program trace rest)
    (hprogram : Keeps ledger post k program) : ledger.Admits k trace := by
  induction h generalizing k with
  | nil program => exact trivial
  | cons _ ih => exact ⟨hprogram.1, ih (hprogram.2 _)⟩

/-- More to pay with does no harm. -/
theorem Keeps.more {paid : sig.Op → Bool} {post : α → Nat → Prop} {budget : Nat}
    (h : Keeps (.paying paid) post budget program) (extra : Nat) :
    Keeps (.paying paid) (fun a left => ∃ kept, post a kept ∧ left = kept + extra) (budget + extra) program := by
  induction program generalizing budget with
  | done a => exact ⟨budget, h, rfl⟩
  | ask op next ih =>
      refine ⟨fun hpaid => Nat.lt_of_lt_of_le (h.1 hpaid) (Nat.le_add_right _ _), fun answer => ?_⟩
      have henter : (Ledger.paying paid).enter (budget + extra) op = (Ledger.paying paid).enter budget op + extra := by
        unfold Ledger.paying
        by_cases hpaid : paid op = true
        · have hpos := h.1 hpaid
          simp only [if_pos hpaid]
          omega
        · simp only [if_neg hpaid]
      rw [henter]
      exact ih answer (h.2 answer)

end Keeps

namespace Ledger

/-- An ascending ledger admits questions of higher and higher rank. -/
theorem pairwise_of_ascending {rank : sig.Op → Nat} {low : Nat} {trace : List sig.Event}
    (h : (ascending rank).Admits low trace) : (∀ event ∈ trace, low ≤ rank event.op) ∧
      trace.Pairwise fun first second => rank first.op < rank second.op := by
  induction trace generalizing low with
  | nil => exact ⟨nofun, .nil⟩
  | cons first rest ih =>
      obtain ⟨hlow, hrest⟩ := h
      obtain ⟨habove, hpairs⟩ := ih hrest
      refine ⟨List.forall_mem_cons.mpr ⟨hlow, fun event hmem => ?_⟩, List.pairwise_cons.mpr ⟨habove, hpairs⟩⟩
      exact Nat.le_trans hlow (Nat.le_of_succ_le (habove event hmem))

/-- So it admits no question twice. -/
theorem ne_of_ascending {rank : sig.Op → Nat} {low : Nat} {trace : List sig.Event}
    (h : (ascending rank).Admits low trace) : trace.Pairwise fun first second => first.op ≠ second.op :=
  (pairwise_of_ascending h).2.imp fun hlt heq => Nat.ne_of_lt hlt (congrArg rank heq)

theorem forall_of_only {allowed : sig.Op → Prop} {trace : List sig.Event} (h : (only allowed).Admits () trace) :
    ∀ event ∈ trace, allowed event.op := by
  induction trace with
  | nil => nofun
  | cons first rest ih => exact List.forall_mem_cons.mpr ⟨h.1, ih h.2⟩

/-- A paying ledger admits no more questions of its kind than it can pay for. -/
theorem count_le_of_paying {paid : sig.Op → Bool} {budget : Nat} {trace : List sig.Event}
    (h : (paying paid).Admits budget trace) : trace.countP (fun event => paid event.op) ≤ budget := by
  induction trace generalizing budget with
  | nil => exact Nat.zero_le _
  | cons first rest ih =>
      obtain ⟨hfirst, hrest⟩ := h
      have hcount := ih hrest
      rw [List.countP_cons]
      unfold paying at hfirst hcount
      by_cases hpaid : paid first.op = true
      · have hpos := hfirst hpaid
        simp only [if_pos hpaid] at hcount ⊢
        omega
      · simp only [if_neg hpaid] at hcount ⊢
        omega

end Ledger

/-- An environment with one answer to each question that gives the answers of a trace, if the trace never asks
twice, and otherwise the answers of another environment. -/
theorem exists_answer (trace : List sig.Event) (hne : trace.Pairwise fun first second => first.op ≠ second.op)
    (other : (op : sig.Op) → sig.Answer op) :
    ∃ answer : (op : sig.Op) → sig.Answer op, ∀ event ∈ trace, answer event.op = event.answer := by
  classical
  induction trace with
  | nil => exact ⟨other, nofun⟩
  | cons first trace ih =>
      obtain ⟨hfirst, hrest⟩ := List.pairwise_cons.mp hne
      obtain ⟨answer, hanswer⟩ := ih hrest
      refine ⟨Function.update answer first.op first.answer, List.forall_mem_cons.mpr ⟨?_, fun event hmem => ?_⟩⟩
      · exact Function.update_self _ _ _
      · rw [Function.update_of_ne (hfirst event hmem).symm, hanswer event hmem]

end Program

/-! ### Pools -/

/-- Programs side by side, each as what is left of it, and the environment they share. -/
structure Pool (sig : Signature) (σ α : Type) where
  world : σ
  threads : List (Program sig α)

namespace Pool

variable {sig : Signature} {σ α : Type}

/-- A program joins the pool, or a thread has its turn. -/
inductive Move (sig : Signature) (α : Type) where
  | start (program : Program sig α)
  | turn (thread : Nat)

/-- The environment answers the question of a thread. It may know which thread asks. -/
def step (handler : Nat → sig.Handler σ) (pool : Pool sig σ α) :
    Move sig α → Pool sig σ α × Option (Nat × sig.Event)
  | .start program => ({ pool with threads := pool.threads ++ [program] }, none)
  | .turn thread =>
      match pool.threads[thread]? with
      | some (.ask op next) =>
          let (answer, world) := handler thread pool.world op
          (⟨world, pool.threads.set thread (next answer)⟩, some (thread, ⟨op, answer⟩))
      | _ => (pool, none)

def machine (handler : Nat → sig.Handler σ) : Machine (Pool sig σ α) (Move sig α) (Option (Nat × sig.Event)) :=
  ⟨step handler⟩

/-- The programs that have joined, in the order in which they did. -/
def started (moves : List (Move sig α)) : List (Program sig α) :=
  moves.filterMap fun
    | .start program => some program
    | .turn _ => none

theorem started_append (first second : List (Move sig α)) :
    started (first ++ second) = started first ++ started second := List.filterMap_append

/-- What one thread has asked, of all that has been asked. -/
def own (thread : Nat) (record : List (Nat × sig.Event)) : List sig.Event :=
  record.filterMap fun entry => if entry.1 = thread then some entry.2 else none

variable (handler : Nat → sig.Handler σ)

/-- All questions and answers of a pool, in order, with the threads that asked. -/
def record (pool : Pool sig σ α) (moves : List (Move sig α)) : List (Nat × sig.Event) :=
  ((machine handler).moments pool moves).filterMap Machine.Moment.output

theorem record_append (pool : Pool sig σ α) (first second : List (Move sig α)) :
    record handler pool (first ++ second) =
      record handler pool first ++ record handler ((machine handler).run pool first) second := by
  rw [record, Machine.moments_append, List.filterMap_append]
  rfl

/-- A single move is recorded as the question it brings in, if it does. -/
theorem record_single (pool : Pool sig σ α) (move : Move sig α) :
    record handler pool [move] = (step handler pool move).2.toList := by
  show List.filterMap Machine.Moment.output [(machine handler).moment pool move] = _
  cases hout : (step handler pool move).2 with
  | none => exact List.filterMap_cons_none hout
  | some entry => exact List.filterMap_cons_some hout

theorem record_cons (pool : Pool sig σ α) (move : Move sig α) (rest : List (Move sig α)) :
    record handler pool (move :: rest) =
      (step handler pool move).2.toList ++ record handler (step handler pool move).1 rest := by
  calc record handler pool ([move] ++ rest)
      = record handler pool [move] ++ record handler ((machine handler).run pool [move]) rest :=
        record_append handler pool [move] rest
    _ = _ := congrArg (· ++ _) (record_single handler pool move)

theorem own_append (thread : Nat) (first second : List (Nat × sig.Event)) :
    own thread (first ++ second) = own thread first ++ own thread second := List.filterMap_append

theorem own_singleton (thread other : Nat) (event : sig.Event) :
    own thread [(other, event)] = if other = thread then [event] else [] := by
  split_ifs with heq
  · exact List.filterMap_cons_some (if_pos heq)
  · exact List.filterMap_cons_none (if_neg heq)

theorem mem_own {thread : Nat} {event : sig.Event} {record : List (Nat × sig.Event)} :
    event ∈ own thread record ↔ (thread, event) ∈ record := by
  constructor
  · intro hmem
    obtain ⟨entry, hentry, hown⟩ := List.mem_filterMap.mp hmem
    split_ifs at hown with heq
    cases hown
    rw [← heq]
    exact hentry
  · intro hmem
    exact List.mem_filterMap.mpr ⟨(thread, event), hmem, if_pos rfl⟩

/-- What a record counts is what the threads count in their own parts of it. -/
theorem countP_record (p : sig.Event → Bool) {record : List (Nat × sig.Event)} {threads : Nat}
    (hnil : ∀ thread, threads ≤ thread → own thread record = []) :
    record.countP (fun entry => p entry.2) = ∑ thread ∈ Finset.range threads, (own thread record).countP p := by
  induction record with
  | nil => exact (Finset.sum_eq_zero fun _ _ => rfl).symm
  | cons entry rest ih =>
      obtain ⟨asking, event⟩ := entry
      have hsplit : ∀ thread, own thread ((asking, event) :: rest) =
          (if asking = thread then [event] else []) ++ own thread rest := fun thread => by
        rw [← own_singleton, ← own_append]
        rfl
      have hasking : asking ∈ Finset.range threads := by
        rw [Finset.mem_range]
        by_contra hge
        have hempty := hnil asking (Nat.not_lt.mp hge)
        rw [hsplit, if_pos rfl] at hempty
        cases hempty
      have hrest : ∀ thread, threads ≤ thread → own thread rest = [] := fun thread hle => by
        have hempty := hnil thread hle
        rw [hsplit] at hempty
        exact (List.append_eq_nil_iff.mp hempty).2
      simp only [hsplit, List.countP_append, Finset.sum_add_distrib, apply_ite (List.countP p), List.countP_nil]
      rw [Finset.sum_ite_eq, if_pos hasking, ← ih hrest, List.countP_cons, List.countP_singleton, Nat.add_comm]

/-- A turn answers the next question of its thread. Without such a question nothing happens. -/
theorem step_turn (pool : Pool sig σ α) (thread : Nat) :
    (∃ op next, pool.threads[thread]? = some (.ask op next) ∧
      step handler pool (.turn thread) =
        (⟨(handler thread pool.world op).2, pool.threads.set thread (next (handler thread pool.world op).1)⟩,
          some (thread, ⟨op, (handler thread pool.world op).1⟩))) ∨
      (∀ op next, pool.threads[thread]? ≠ some (.ask op next)) ∧ step handler pool (.turn thread) = (pool, none) := by
  cases hthread : pool.threads[thread]? with
  | none =>
      refine Or.inr ⟨nofun, ?_⟩
      simp only [step, hthread]
  | some rest =>
      cases rest with
      | done result =>
          refine Or.inr ⟨nofun, ?_⟩
          simp only [step, hthread]
      | ask op next =>
          refine Or.inl ⟨op, next, rfl, ?_⟩
          simp only [step, hthread]

/-- The threads of a pool are what the programs that joined it are left with. -/
structure Tracks (programs : List (Program sig α)) (record : List (Nat × sig.Event)) (pool : Pool sig σ α) :
    Prop where
  length_eq : pool.threads.length = programs.length
  own_eq_nil : ∀ thread, programs.length ≤ thread → own thread record = []
  leaves : ∀ {thread : Nat} {program : Program sig α}, programs[thread]? = some program →
    ∃ rest, pool.threads[thread]? = some rest ∧ program.Leaves (own thread record) rest

namespace Tracks

variable {programs : List (Program sig α)} {past : List (Nat × sig.Event)} {pool : Pool sig σ α}

theorem start (h : Tracks programs past pool) (program : Program sig α) :
    Tracks (programs ++ [program]) past { pool with threads := pool.threads ++ [program] } where
  length_eq := by simp [h.length_eq]
  own_eq_nil thread hle := h.own_eq_nil thread (by
    rw [List.length_append] at hle
    exact Nat.le_trans (Nat.le_add_right _ _) hle)
  leaves {thread found} hfound := by
    rcases Nat.lt_or_ge thread programs.length with hlt | hge
    · rw [List.getElem?_append_left hlt] at hfound
      obtain ⟨rest, hrest, hleaves⟩ := h.leaves hfound
      exact ⟨rest, by rw [List.getElem?_append_left (h.length_eq ▸ hlt)]; exact hrest, hleaves⟩
    · rw [List.getElem?_append_right hge] at hfound
      refine ⟨found, ?_, ?_⟩
      · rw [List.getElem?_append_right (h.length_eq ▸ hge), h.length_eq]
        exact hfound
      · rw [h.own_eq_nil thread hge]
        exact .nil _

theorem turn (h : Tracks programs past pool) {thread : Nat} {op : sig.Op} {next : sig.Answer op → Program sig α}
    (hthread : pool.threads[thread]? = some (.ask op next)) (world : σ) (answer : sig.Answer op) :
    Tracks programs (past ++ [(thread, ⟨op, answer⟩)]) ⟨world, pool.threads.set thread (next answer)⟩ where
  length_eq := by rw [List.length_set, h.length_eq]
  own_eq_nil other hle := by
    have hne : thread ≠ other := fun heq =>
      absurd (List.getElem?_eq_some_iff.mp hthread).1 (by rw [h.length_eq, heq]; exact Nat.not_lt.mpr hle)
    rw [own_append, h.own_eq_nil other hle, own_singleton, if_neg hne]
    rfl
  leaves {other program} hprogram := by
    obtain ⟨rest, hrest, hleaves⟩ := h.leaves hprogram
    rw [own_append, own_singleton]
    by_cases heq : thread = other
    · subst heq
      cases hthread.symm.trans hrest
      refine ⟨next answer, List.getElem?_set_self (List.getElem?_eq_some_iff.mp hthread).1, ?_⟩
      rw [if_pos rfl]
      exact hleaves.snoc answer
    · refine ⟨rest, by rw [List.getElem?_set_ne heq]; exact hrest, ?_⟩
      rw [if_neg heq, List.append_nil]
      exact hleaves

end Tracks

/-- Whatever the schedule, every thread of a pool is what its program is left with after its own part of the
record. -/
theorem tracks (world : σ) (moves : List (Move sig α)) :
    Tracks (started moves) (record handler ⟨world, []⟩ moves) ((machine handler).run ⟨world, []⟩ moves) := by
  induction moves using List.reverseRecOn with
  | nil => exact ⟨rfl, fun _ _ => rfl, nofun⟩
  | append_singleton before move ih =>
      rw [record_append, Machine.run_append, started_append, record_single]
      generalize (machine handler).run ⟨world, []⟩ before = pool at ih ⊢
      cases move with
      | start program =>
          show Tracks (started before ++ [program]) (_ ++ []) ⟨pool.world, pool.threads ++ [program]⟩
          rw [List.append_nil]
          exact ih.start program
      | turn thread =>
          show Tracks (started before ++ []) (_ ++ (step handler pool (.turn thread)).2.toList)
            (step handler pool (.turn thread)).1
          rw [List.append_nil]
          rcases step_turn handler pool thread with ⟨op, next, hthread, hstep⟩ | ⟨_, hstep⟩
          · rw [hstep]
            exact ih.turn hthread _ _
          · rw [hstep]
            exact (List.append_nil _).symm ▸ ih

/-- What every program of a pool keeps with its own ledger holds of its part of the record. -/
theorem own_admits {κ : Type} {ledger : Program.Ledger sig κ} {post : α → κ → Prop} {k : κ} (world : σ)
    {moves : List (Move sig α)} (hkeeps : ∀ program ∈ started moves, program.Keeps ledger post k) (thread : Nat) :
    ledger.Admits k (own thread (record handler ⟨world, []⟩ moves)) := by
  have htracks := tracks handler world moves
  rcases Nat.lt_or_ge thread (started moves).length with hlt | hge
  · obtain ⟨rest, _, hleaves⟩ := htracks.leaves (List.getElem?_eq_getElem hlt)
    exact hleaves.admits (hkeeps _ (List.getElem_mem hlt))
  · rw [htracks.own_eq_nil thread hge]
    exact trivial

/-- A pool whose programs ask some questions only asks no others. -/
theorem forall_record {allowed : sig.Op → Prop} {post : α → Unit → Prop} (world : σ) {moves : List (Move sig α)}
    (hkeeps : ∀ program ∈ started moves, program.Keeps (.only allowed) post ()) :
    ∀ entry ∈ record handler ⟨world, []⟩ moves, allowed entry.2.op := by
  intro entry hmem
  exact Program.Ledger.forall_of_only (own_admits handler world hkeeps entry.1) entry.2 (mem_own.mpr hmem)

/-- A pool pays for what its programs may spend, each of them as much as the others. -/
theorem countP_record_le {paid : sig.Op → Bool} {post : α → Nat → Prop} {budget : Nat} (world : σ)
    {moves : List (Move sig α)} (hkeeps : ∀ program ∈ started moves, program.Keeps (.paying paid) post budget) :
    (record handler ⟨world, []⟩ moves).countP (fun entry => paid entry.2.op) ≤ (started moves).length * budget := by
  rw [countP_record (fun event => paid event.op) (tracks handler world moves).own_eq_nil]
  calc ∑ thread ∈ Finset.range (started moves).length,
        (own thread (record handler ⟨world, []⟩ moves)).countP (fun event => paid event.op)
      ≤ ∑ _thread ∈ Finset.range (started moves).length, budget := by
        apply Finset.sum_le_sum
        intro thread _
        exact Program.Ledger.count_le_of_paying (own_admits handler world hkeeps thread)
    _ = (started moves).length * budget := by
        rw [Finset.sum_const_nat fun _ _ => rfl, Finset.card_range]

/-! ### Fair schedules -/

/-- The pool after the first moves of an endless schedule. -/
def after (pool : Pool sig σ α) (moves : Nat → Move sig α) (n : Nat) : Pool sig σ α :=
  (machine handler).run pool ((List.range n).map moves)

section Fair

variable {handler} {pool : Pool sig σ α} {moves : Nat → Move sig α}

end Fair

end Pool

/-! ### Programs in step -/

/-- Which questions of two programs go together, and which answers to them. -/
structure Likeness (sig : Signature) where
  same : sig.Op → sig.Op → Prop
  answers : {op op' : sig.Op} → sig.Answer op → sig.Answer op' → Prop

namespace Program

variable {sig lower : Signature} {α β σ τ : Type}

/-- Two programs that ask in step, as long as the answers they get go together, and come to ends that do. -/
inductive Paired (like : Likeness sig) (ends : α → β → Prop) : Program sig α → Program sig β → Prop where
  | done {a : α} {b : β} (h : ends a b) : Paired like ends (.done a) (.done b)
  | ask {op op' : sig.Op} {next : sig.Answer op → Program sig α} {next' : sig.Answer op' → Program sig β}
      (hop : like.same op op')
      (hnext : ∀ answer answer', like.answers answer answer' → Paired like ends (next answer) (next' answer')) :
      Paired like ends (.ask op next) (.ask op' next')

namespace Paired

variable {like : Likeness sig} {ends : α → β → Prop} {left : Program sig α} {right : Program sig β}

theorem mono {ends' : α → β → Prop} (himp : ∀ a b, ends a b → ends' a b) (h : Paired like ends left right) :
    Paired like ends' left right := by
  induction h with
  | done h => exact .done (himp _ _ h)
  | ask hop _ ih => exact .ask hop ih

theorem bind {α' β' : Type} {ends' : α' → β' → Prop} {f : α → Program sig α'} {g : β → Program sig β'}
    (h : Paired like ends left right) (hf : ∀ a b, ends a b → Paired like ends' (f a) (g b)) :
    Paired like ends' (left >>= f) (right >>= g) := by
  induction h with
  | done h => exact hf _ _ h
  | ask hop _ ih => exact .ask hop ih

theorem map {α' β' : Type} {ends' : α' → β' → Prop} {f : α → α'} {g : β → β'} (h : Paired like ends left right)
    (hf : ∀ a b, ends a b → ends' (f a) (g b)) : Paired like ends' (f <$> left) (g <$> right) :=
  h.bind fun a b hends => .done (hf a b hends)

/-- One program over servers that are in step. -/
theorem serve {like : Likeness lower} {inv : σ → τ → Prop}
    {server : σ → (op : sig.Op) → Program lower (sig.Answer op × σ)}
    {server' : τ → (op : sig.Op) → Program lower (sig.Answer op × τ)}
    (hserver : ∀ state state' op, inv state state' → Paired like
      (fun served served' => served.1 = served'.1 ∧ inv served.2 served'.2) (server state op) (server' state' op))
    (program : Program sig α) {state : σ} {state' : τ} (h : inv state state') :
    Paired like (fun ended ended' => ended.1 = ended'.1 ∧ inv ended.2 ended'.2)
      (Program.serve server program state) (Program.serve server' program state') := by
  induction program generalizing state state' with
  | done a => exact .done ⟨rfl, h⟩
  | ask op next ih =>
      apply (hserver state state' op h).bind
      rintro ⟨answer, after⟩ ⟨_, after'⟩ ⟨rfl, hafter⟩
      exact ih answer hafter

end Paired

end Program

namespace Pool

variable {sig : Signature} {σ α β : Type} (handler : Nat → sig.Handler σ) (like : Likeness sig) (ends : α → β → Prop)

/-- The environment does not tell such questions apart. -/
def Blind : Prop :=
  ∀ thread world op op', like.same op op' → like.answers (handler thread world op).1 (handler thread world op').1 ∧
    (handler thread world op).2 = (handler thread world op').2

/-- Two pools in the same environment, thread by thread in step. -/
structure Alike (left : Pool sig σ α) (right : Pool sig σ β) : Prop where
  world : left.world = right.world
  threads : List.Forall₂ (Program.Paired like ends) left.threads right.threads

/-- The same thread has its turn, or programs in step join. -/
inductive Matched : Move sig α → Move sig β → Prop where
  | start {program : Program sig α} {program' : Program sig β} (h : Program.Paired like ends program program') :
      Matched (.start program) (.start program')
  | turn (thread : Nat) : Matched (.turn thread) (.turn thread)

/-- The same thread has asked a question that goes together with this one, and has been told an answer that does. -/
structure Told (entry entry' : Nat × sig.Event) : Prop where
  thread : entry.1 = entry'.1
  question : like.same entry.2.op entry'.2.op
  answer : like.answers entry.2.answer entry'.2.answer

variable {handler like ends}

theorem forall₂_getElem? {R : α → β → Prop} {as : List α} {bs : List β} (h : List.Forall₂ R as bs) (n : Nat) :
    Option.Rel R as[n]? bs[n]? := by
  induction h generalizing n with
  | nil => exact .none
  | cons hhead _ ih =>
      cases n with
      | zero => exact .some hhead
      | succ n => exact ih n

theorem forall₂_set {R : α → β → Prop} {as : List α} {bs : List β} (h : List.Forall₂ R as bs) {a : α} {b : β}
    (hab : R a b) (n : Nat) : List.Forall₂ R (as.set n a) (bs.set n b) := by
  induction h generalizing n with
  | nil => exact .nil
  | cons hhead htail ih =>
      cases n with
      | zero => exact .cons hab htail
      | succ n => exact .cons hhead (ih n)

/-- A thread has its turn in both pools, or in neither. -/
theorem Alike.step (hblind : Blind handler like) {left : Pool sig σ α} {right : Pool sig σ β}
    (h : Alike like ends left right) {move : Move sig α} {move' : Move sig β} (hmove : Matched like ends move move') :
    Alike like ends (Pool.step handler left move).1 (Pool.step handler right move').1 ∧
      List.Forall₂ (Told like) (Pool.step handler left move).2.toList (Pool.step handler right move').2.toList := by
  cases hmove with
  | start hprogram => exact ⟨⟨h.world, List.rel_append h.threads (.cons hprogram .nil)⟩, .nil⟩
  | turn thread =>
      have hthread := forall₂_getElem? h.threads thread
      rcases step_turn handler left thread with ⟨op, next, hleft, hstep⟩ | ⟨hleft, hstep⟩
      · rw [hleft] at hthread
        obtain ⟨op', next', hright, hop, hnext⟩ : ∃ op' next', right.threads[thread]? = some (.ask op' next') ∧
            like.same op op' ∧ ∀ answer answer', like.answers answer answer' →
              Program.Paired like ends (next answer) (next' answer') := by
          generalize right.threads[thread]? = asking at hthread
          cases hthread with
          | some hpaired =>
              cases hpaired with
              | ask hop hnext => exact ⟨_, _, rfl, hop, hnext⟩
        rcases step_turn handler right thread with ⟨_, _, hasks, hstep'⟩ | ⟨hnone, _⟩
        · cases hasks.symm.trans hright
          obtain ⟨hanswers, hworld⟩ := hblind thread left.world op op' hop
          rw [hstep, hstep', ← h.world]
          exact ⟨⟨hworld, forall₂_set h.threads (hnext _ _ hanswers) thread⟩, .cons ⟨rfl, hop, hanswers⟩ .nil⟩
        · exact absurd hright (hnone op' next')
      · rcases step_turn handler right thread with ⟨op', next', hright, _⟩ | ⟨_, hstep'⟩
        · rw [hright] at hthread
          generalize hasking : left.threads[thread]? = asking at hthread
          cases hthread with
          | some hpaired =>
              cases hpaired with
              | ask _ _ => exact absurd hasking (hleft _ _)
        · rw [hstep, hstep']
          exact ⟨h, .nil⟩

/-- Whatever moves, the pools stay in step, and what they have asked and been told goes together. -/
theorem Alike.run (hblind : Blind handler like) {left : Pool sig σ α} {right : Pool sig σ β}
    (h : Alike like ends left right) {moves : List (Move sig α)} {moves' : List (Move sig β)}
    (hmoves : List.Forall₂ (Matched like ends) moves moves') :
    Alike like ends ((machine handler).run left moves) ((machine handler).run right moves') ∧
      List.Forall₂ (Told like) (record handler left moves) (record handler right moves') := by
  induction hmoves generalizing left right with
  | nil => exact ⟨h, .nil⟩
  | cons hmove _ ih =>
      obtain ⟨hstep, htold⟩ := h.step hblind hmove
      obtain ⟨hrun, hrecord⟩ := ih hstep
      refine ⟨hrun, ?_⟩
      rw [record_cons, record_cons]
      exact List.rel_append htold hrecord

end Pool
