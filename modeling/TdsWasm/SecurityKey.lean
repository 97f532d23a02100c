import TdsWasm.HostRetry
import TdsWasm.HostSteps
import TdsWasm.LibCall

/-! Two hosts that differ in the API key of their provider only. The key goes into the requests and nowhere
else, so as long as the world gives both hosts the same answers, a move of the guest is answered in the same
way and leaves two hosts that again differ in the key only. -/

set_option autoImplicit false

namespace TdsWasm

/-! ### What the world answers -/

/-- The outcomes of the requests among the effects of a completion. -/
def outcomes (effects : List ModelEffect) : List (Except String HttpResponse) :=
  effects.filterMap fun
    | .send _ exchange => some exchange.outcome
    | .sleep _ => none

theorem outcomes_append (first second : List ModelEffect) :
    outcomes (first ++ second) = outcomes first ++ outcomes second := List.filterMap_append

namespace History

/-- The outcomes of the requests to the model. -/
def upstream (history : History) : List (Except String HttpResponse) :=
  history.filterMap fun
    | .model (.send _ exchange) => some exchange.outcome
    | _ => none

/-- The outcomes of the fetches. -/
def fetched (history : History) : List (Except String HttpResponse) :=
  history.filterMap fun
    | .get _ exchange => some exchange.outcome
    | _ => none

/-- What calls of the clock have been answered. -/
def times (history : History) : List (Except CapError String) :=
  history.filterMap fun
    | .invoked request answer => if request.name = "now" then some answer else none
    | _ => none

variable (first second : History)

theorem upstream_append : upstream (first ++ second) = upstream first ++ upstream second :=
  List.filterMap_append

theorem fetched_append : fetched (first ++ second) = fetched first ++ fetched second :=
  List.filterMap_append

theorem times_append : times (first ++ second) = times first ++ times second := List.filterMap_append

/-- A completion gets the outcomes of its requests, and nothing else of the world. -/
theorem answers_completion (effects : List ModelEffect) (request : LlmRequest)
    (answer : Except CapError LlmResponse) :
    upstream (effects.map .model ++ [.completed request answer]) = outcomes effects ∧
      fetched (effects.map .model ++ [.completed request answer]) = [] ∧
      times (effects.map .model ++ [.completed request answer]) = [] := by
  refine ⟨?_, ?_, ?_⟩
  · rw [upstream_append, upstream, List.filterMap_map]
    simp only [upstream, List.filterMap_cons, List.filterMap_nil, List.append_nil]
    apply List.filterMap_congr
    intro effect _
    cases effect <;> rfl
  · rw [fetched_append, fetched, List.filterMap_map]
    simp [fetched]
  · rw [times_append, times, List.filterMap_map]
    simp [times]

end History

/-- The world gives the same answers in both records, as far as both go. -/
structure SameAnswers (first second : History) : Prop where
  upstream : Consistent first.upstream second.upstream
  fetched : Consistent first.fetched second.fetched
  times : Consistent first.times second.times

/-- The world has given the same answers so far. -/
structure Answered (first second : History) : Prop where
  upstream : first.upstream = second.upstream
  fetched : first.fetched = second.fetched
  times : first.times = second.times

/-- Records that end with the same answers have always held the same answers. -/
theorem SameAnswers.before {first first' second second' : History} (hfirst : first <+: first')
    (hsecond : second <+: second') (h : SameAnswers first' second') : SameAnswers first second := by
  obtain ⟨rest, rfl⟩ := hfirst
  obtain ⟨rest', rfl⟩ := hsecond
  obtain ⟨hupstream, hfetched, htimes⟩ := h
  rw [History.upstream_append, History.upstream_append] at hupstream
  rw [History.fetched_append, History.fetched_append] at hfetched
  rw [History.times_append, History.times_append] at htimes
  have hstarts : ∀ {α : Type} (l r : List α), l <+: l ++ r := List.prefix_append
  exact ⟨hupstream.of_prefix (hstarts _ _) (hstarts _ _), hfetched.of_prefix (hstarts _ _) (hstarts _ _),
    htimes.of_prefix (hstarts _ _) (hstarts _ _)⟩

/-- After the same answers so far, what is new is the same as far as it goes. -/
theorem Answered.new {first second new new' : History} (h : Answered first second)
    (hsame : SameAnswers (first ++ new) (second ++ new')) : SameAnswers new new' := by
  obtain ⟨hupstream, hfetched, htimes⟩ := hsame
  rw [History.upstream_append, History.upstream_append, h.upstream] at hupstream
  rw [History.fetched_append, History.fetched_append, h.fetched] at hfetched
  rw [History.times_append, History.times_append, h.times] at htimes
  exact ⟨hupstream.of_append, hfetched.of_append, htimes.of_append⟩

theorem Answered.append {first second new new' : History} (h : Answered first second)
    (hnew : Answered new new') : Answered (first ++ new) (second ++ new') where
  upstream := by rw [History.upstream_append, History.upstream_append, h.upstream, hnew.upstream]
  fetched := by rw [History.fetched_append, History.fetched_append, h.fetched, hnew.fetched]
  times := by rw [History.times_append, History.times_append, h.times, hnew.times]

/-! ### A completion -/

namespace AnthropicProvider

variable (platform : Platform)

/-- The outcome of an attempt comes right after what has been done before it. -/
theorem prefix_outcomes (provider : AnthropicProvider) (history : History) (http : ModelRequest)
    (attempt : UInt32) (done : List ModelEffect) :
    outcomes done ++ [(provider.attemptNext history http done).outcome] <+:
      outcomes (provider.completeLoop platform history http attempt done).2 := by
  have hsend := (attempt_prefix_completeLoop platform provider history http attempt done).filterMap fun
    | .send _ exchange => some exchange.outcome
    | .sleep _ => none
  rw [List.filterMap_append] at hsend
  exact hsend

/-- Two providers that differ in the key, and get the same outcomes, come to the same answer after the same
number of attempts. -/
theorem completeLoop_answered {first second : AnthropicProvider}
    (hkey : second = { first with apiKey := second.apiKey }) (history history' : History)
    (http http' : ModelRequest) (attempt : UInt32) (done done' : List ModelEffect)
    (hdone : outcomes done = outcomes done')
    (hsame : Consistent (outcomes (first.completeLoop platform history http attempt done).2)
      (outcomes (second.completeLoop platform history' http' attempt done').2)) :
    (first.completeLoop platform history http attempt done).1 =
        (second.completeLoop platform history' http' attempt done').1 ∧
      outcomes (first.completeLoop platform history http attempt done).2 =
        outcomes (second.completeLoop platform history' http' attempt done').2 := by
  have hconfig : second.config = first.config := by rw [hkey]
  have hnext : ∀ {attempt : UInt32} {done done' : List ModelEffect}, outcomes done = outcomes done' →
      Consistent (outcomes (first.completeLoop platform history http attempt done).2)
        (outcomes (second.completeLoop platform history' http' attempt done').2) →
      (first.attemptNext history http done).outcome = (second.attemptNext history' http' done').outcome := by
    intro attempt done done' hdone hsame
    have hfirst := prefix_outcomes platform first history http attempt done
    have hsecond := prefix_outcomes platform second history' http' attempt done'
    rw [← hdone] at hsecond
    exact (hsame.of_prefix hfirst hsecond).of_append.eq_of_singleton
  revert done' hdone hsame
  apply completeLoop_induction platform first history http (motive := fun attempt done result =>
    ∀ done', outcomes done = outcomes done' →
      Consistent (outcomes (first.completeLoop platform history http attempt done).2)
        (outcomes (second.completeLoop platform history' http' attempt done').2) →
      result.1 = (second.completeLoop platform history' http' attempt done').1 ∧
        outcomes result.2 = outcomes (second.completeLoop platform history' http' attempt done').2)
  · intro attempt done answer hjudge done' hdone hsame
    have houtcome := hnext hdone hsame
    rw [completeLoop_eq platform second, hconfig, ← houtcome, hjudge]
    refine ⟨rfl, ?_⟩
    rw [outcomes_append, outcomes_append, hdone]
    exact congrArg (fun outcome => outcomes done' ++ [outcome]) houtcome
  · intro attempt done wait hjudge ih done' hdone hsame
    have houtcome := hnext hdone hsame
    rw [completeLoop_eq platform first, hjudge, completeLoop_eq platform second, hconfig, ← houtcome, hjudge] at hsame
    rw [completeLoop_eq platform second, hconfig, ← houtcome, hjudge]
    refine ih _ ?_ hsame
    rw [outcomes_append, outcomes_append, outcomes_append, outcomes_append, hdone]
    exact congrArg (fun outcome => outcomes done' ++ [outcome] ++ []) houtcome

end AnthropicProvider

/-! ### A tool call -/

namespace ToolBox

variable (platform : Platform)

theorem httpGet_answered (tools : ToolBox) (history history' : History) (input : JsonValue)
    (hsame : Consistent (History.fetched (tools.httpGet platform history input).2)
      (History.fetched (tools.httpGet platform history' input).2)) :
    (tools.httpGet platform history input).1 = (tools.httpGet platform history' input).1 ∧
      History.fetched (tools.httpGet platform history input).2 =
        History.fetched (tools.httpGet platform history' input).2 := by
  unfold httpGet at hsame ⊢
  cases hraw : stringArg platform input "url" with
  | error e => exact ⟨rfl, rfl⟩
  | ok raw =>
      simp only [hraw] at hsame ⊢
      cases hurl : platform.urlParse raw with
      | error e => exact ⟨rfl, rfl⟩
      | ok url =>
          simp only [hurl] at hsame ⊢
          by_cases hscheme : url.scheme ≠ "https"
          · simp only [if_pos hscheme, and_self]
          simp only [if_neg hscheme] at hsame ⊢
          cases hhost : url.hostStr with
          | none => exact ⟨rfl, rfl⟩
          | some host =>
              simp only [hhost] at hsame ⊢
              by_cases hallow : (!tools.policy.tools.http.allows host) = true
              · simp only [if_pos hallow, and_self]
              simp only [if_neg hallow] at hsame ⊢
              -- the outcome is all that the world contributes
              generalize tools.http.send history url = exchange at hsame ⊢
              generalize tools.http.send history' url = exchange' at hsame ⊢
              obtain ⟨hops, hle, outcome⟩ := exchange
              obtain ⟨hops', hle', outcome'⟩ := exchange'
              have houtcome : outcome = outcome' := by
                cases outcome <;> cases outcome' <;> exact Consistent.eq_of_singleton hsame
              subst houtcome
              cases outcome <;> exact ⟨rfl, rfl⟩

theorem invoke_answered (tools : ToolBox) (history history' : History) (name : String) (input : JsonValue)
    (hfetched : Consistent (History.fetched (tools.invoke platform history name input).2.2)
      (History.fetched (tools.invoke platform history' name input).2.2))
    (htime : name = "now" → (tools.invoke platform history name input).1 =
      (tools.invoke platform history' name input).1) :
    (tools.invoke platform history name input).1 = (tools.invoke platform history' name input).1 ∧
      (tools.invoke platform history name input).2.1 = (tools.invoke platform history' name input).2.1 ∧
      History.fetched (tools.invoke platform history name input).2.2 =
        History.fetched (tools.invoke platform history' name input).2.2 := by
  by_cases hdisabled : (!tools.policy.tools.enabled.any (· = name)) = true
  · simp only [invoke, if_pos hdisabled, and_self]
  by_cases hget : name = "http_get"
  · subst hget
    simp only [invoke, if_neg hdisabled] at hfetched ⊢
    obtain ⟨hanswer, hevents⟩ := httpGet_answered platform tools history history' input hfetched
    exact ⟨hanswer, trivial, hevents⟩
  by_cases hnow : name = "now"
  · refine ⟨htime hnow, ?_⟩
    subst hnow
    simp only [invoke, if_neg hdisabled, and_self]
  · have hsame : tools.invoke platform history name input = tools.invoke platform history' name input := by
      simp only [invoke, if_neg hdisabled]
      split <;> trivial
    rw [hsame]
    exact ⟨rfl, rfl, rfl⟩

/-- Apart from fetches, a tool call leaves nothing in the record before it is entered itself. -/
theorem answers_invoke (tools : ToolBox) (history : History) (name : String) (input : JsonValue) :
    History.upstream (tools.invoke platform history name input).2.2 = [] ∧
      History.times (tools.invoke platform history name input).2.2 = [] := by
  obtain ⟨_, hnone | ⟨event, hevent, hget⟩⟩ := invoke_spec platform tools history name input
  · rw [hnone]
    exact ⟨rfl, rfl⟩
  · obtain ⟨_, url, _, _, _, _, _, _, rfl⟩ := hget.target
    rw [hevent]
    exact ⟨rfl, rfl⟩

end ToolBox

/-! ### A move of the guest -/

/-- Two hosts that differ in the key of their provider, and in what the key is part of in the record. -/
structure Indistinct (platform : Platform) (first second : AnthropicProvider) (left right : HostRun) : Prop where
  left_llm : left.data.llm = first.toProvider platform
  right_llm : right.data.llm = second.toProvider platform
  data : right.data = { left.data with llm := right.data.llm }
  answered : Answered left.history right.history

section Moves

variable {platform : Platform} {first second : AnthropicProvider}
  (hkey : second = { first with apiKey := second.apiKey })

include hkey

/-- A capability answers the same, whatever the key is. -/
theorem Indistinct.handle {left right : HostRun} (h : Indistinct platform first second left right)
    (request : Bytes) (cap : Capability)
    (hsame : SameAnswers (cap.handle platform left.data left.history request).2.2
      (cap.handle platform right.data right.history request).2.2) :
    (cap.handle platform left.data left.history request).1 =
        (cap.handle platform right.data right.history request).1 ∧
      Indistinct platform first second
        ⟨(cap.handle platform left.data left.history request).2.1,
          left.history ++ (cap.handle platform left.data left.history request).2.2⟩
        ⟨(cap.handle platform right.data right.history request).2.1,
          right.history ++ (cap.handle platform right.data right.history request).2.2⟩ := by
  obtain ⟨hleft, hright, hdata, hanswered⟩ := h
  obtain ⟨⟨policy, llm, tools, pending, logs, llmCalls⟩, history⟩ := left
  obtain ⟨right, history'⟩ := right
  simp only at hleft hright hdata hanswered
  rw [hdata, hright] at hsame ⊢
  subst hleft
  have hnothing : Answered (history ++ []) (history' ++ []) := by
    rw [List.append_nil, List.append_nil]
    exact hanswered
  cases cap with
  | toolsList => exact ⟨rfl, rfl, rfl, rfl, hnothing⟩
  | other name => exact ⟨rfl, rfl, rfl, rfl, hnothing⟩
  | toolInvoke =>
      simp only [Capability.handle] at hsame ⊢
      cases hread : platform.codec.fromSlice "ToolInvokeRequest" ToolInvokeRequest.decode request with
      | error e => exact ⟨rfl, rfl, rfl, rfl, hnothing⟩
      | ok req =>
          simp only [hread] at hsame ⊢
          obtain ⟨hupstream, htimes⟩ := ToolBox.answers_invoke platform tools history req.name req.input
          obtain ⟨hupstream', htimes'⟩ := ToolBox.answers_invoke platform tools history' req.name req.input
          obtain ⟨hsent, hfetched, htime⟩ := hsame
          rw [History.fetched_append, History.fetched_append] at hfetched
          rw [History.times_append, History.times_append, htimes, htimes'] at htime
          have hinvoke := ToolBox.invoke_answered platform tools history history' req.name req.input
            (hfetched.of_prefix (List.prefix_append _ _) (List.prefix_append _ _)) (by
              intro hnow
              simp only [History.times, List.filterMap_cons, List.filterMap_nil, hnow, if_true,
                List.nil_append] at htime
              exact hnow ▸ htime.eq_of_singleton)
          obtain ⟨hanswer, htools, hget⟩ := hinvoke
          refine ⟨by rw [hanswer], rfl, rfl, by rw [htools], hanswered.append ⟨?_, ?_, ?_⟩⟩
          · rw [History.upstream_append, History.upstream_append, hupstream, hupstream']
            rfl
          · rw [History.fetched_append, History.fetched_append, hget]
            rfl
          · rw [History.times_append, History.times_append, htimes, htimes', hanswer]
  | llmComplete =>
      simp only [Capability.handle] at hsame ⊢
      split_ifs at hsame ⊢ with hspent
      · exact ⟨rfl, rfl, rfl, rfl, hnothing⟩
      cases hread : platform.codec.fromSlice "LlmRequest" LlmRequest.decode request with
      | error e => exact ⟨rfl, rfl, rfl, rfl, hnothing⟩
      | ok req =>
          simp only [hread] at hsame ⊢
          obtain ⟨hupstream, hfetched, htimes⟩ := History.answers_completion
            (first.complete platform history req).2 req (first.complete platform history req).1
          obtain ⟨hupstream', hfetched', htimes'⟩ := History.answers_completion
            (second.complete platform history' req).2 req (second.complete platform history' req).1
          have hsent := hsame.upstream
          simp only [AnthropicProvider.toProvider] at hsent ⊢
          rw [hupstream, hupstream'] at hsent
          obtain ⟨hanswer, houtcomes⟩ := AnthropicProvider.completeLoop_answered platform hkey history history'
            _ _ 0 [] [] rfl hsent
          refine ⟨hanswer, rfl, rfl, rfl, hanswered.append ⟨?_, ?_, ?_⟩⟩
          · rw [hupstream, hupstream']
            exact houtcomes
          · rw [hfetched, hfetched']
          · rw [htimes, htimes']

/-- Every move of the guest gets the same reply and leaves two hosts that differ in the key only. -/
theorem Indistinct.step {left right : HostRun} (h : Indistinct platform first second left right)
    (move : GuestMove)
    (hsame : SameAnswers (left.step platform move).1.history (right.step platform move).1.history) :
    (left.step platform move).2 = (right.step platform move).2 ∧
      Indistinct platform first second (left.step platform move).1 (right.step platform move).1 := by
  have hhandle := h.handle hkey
  obtain ⟨hleft, hright, hdata, hanswered⟩ := h
  obtain ⟨⟨policy, llm, tools, pending, logs, llmCalls⟩, history⟩ := left
  obtain ⟨right, history'⟩ := right
  simp only at hleft hright hdata hanswered hhandle
  rw [hright] at hdata
  subst hleft hdata
  obtain ⟨memory, invocation⟩ := move
  cases invocation with
  | log level ptr len =>
      obtain ⟨lines, hlog⟩ : ∃ lines, ∀ (llm : LlmProvider) (history : History),
          Caller.log ⟨⟨policy, llm, tools, pending, logs, llmCalls⟩, memory, history⟩ level ptr len =
            ⟨⟨policy, llm, tools, pending, lines, llmCalls⟩, memory, history⟩ := by
        simp only [Caller.log]
        cases readGuest memory ptr (min len Caller.maxLogBytes) with
        | none => exact ⟨logs, fun _ _ => rfl⟩
        | some bytes =>
            by_cases hlines : logs.length < Caller.maxLogLines
            · exact ⟨_, fun _ _ => if_pos hlines⟩
            · exact ⟨_, fun _ _ => if_neg hlines⟩
      simp only [HostRun.step, HostRun.caller, hlog]
      exact ⟨rfl, rfl, rfl, rfl, hanswered⟩
  | responseRead ptr len =>
      obtain ⟨value, waiting, written, hread⟩ : ∃ value waiting written, ∀ (llm : LlmProvider) (history : History),
          Caller.responseRead ⟨⟨policy, llm, tools, pending, logs, llmCalls⟩, memory, history⟩ ptr len =
            (value, ⟨⟨policy, llm, tools, waiting, logs, llmCalls⟩, written, history⟩) := by
        simp only [Caller.responseRead, Caller.setPending]
        by_cases hlen : pending.length ≠ len.toNat
        · exact ⟨_, _, _, fun _ _ => if_pos hlen⟩
        · simp only [if_neg hlen]
          cases writeGuest memory ptr pending with
          | none => exact ⟨_, _, _, fun _ _ => rfl⟩
          | some written => exact ⟨_, _, _, fun _ _ => rfl⟩
      simp only [HostRun.step, HostRun.caller, hread]
      exact ⟨rfl, rfl, rfl, rfl, hanswered⟩
  | call namePtr nameLen reqPtr reqLen =>
      have hreceive : Caller.receive
          ⟨⟨policy, second.toProvider platform, tools, pending, logs, llmCalls⟩, memory, history'⟩ namePtr nameLen
            reqPtr reqLen = Caller.receive
          ⟨⟨policy, first.toProvider platform, tools, pending, logs, llmCalls⟩, memory, history⟩ namePtr nameLen
            reqPtr reqLen := by
        simp only [Caller.receive]
      simp only [HostRun.step, HostRun.caller, HostRun.ofCaller, Caller.call_eq, Caller.oversizedResponse,
        hreceive] at hsame ⊢
      generalize Caller.receive ⟨⟨policy, first.toProvider platform, tools, pending, logs, llmCalls⟩, memory,
        history⟩ namePtr nameLen reqPtr reqLen = received at hsame ⊢
      cases received with
      | oversized =>
          simp only [Caller.setPending]
          exact ⟨trivial, rfl, rfl, rfl, hanswered⟩
      | rejected code =>
          simp only
          exact ⟨trivial, rfl, rfl, rfl, hanswered⟩
      | request name body =>
          simp only [Capability.dispatch_eq] at hsame ⊢
          obtain ⟨hanswer, hafter⟩ := hhandle body (Capability.ofName name) (hanswered.new hsame)
          rw [hanswer]
          refine ⟨rfl, hafter.left_llm, hafter.right_llm, ?_, hafter.answered⟩
          have hstate := hafter.data
          simp only at hstate ⊢
          rw [hstate]

end Moves

end TdsWasm
