import TdsWasm.HostSteps

/-! What leaves the host through the tools. A GET is sent only inside a move that invokes `http_get`,
to the URL that was checked, and a refused invocation sends none. -/

set_option autoImplicit false

namespace TdsWasm

/-- The URLs that the tools have fetched. -/
def History.gets (history : History) : List Url :=
  history.filterMap fun
    | .get url _ => some url
    | _ => none

theorem History.gets_append (first second : History) :
    History.gets (first ++ second) = first.gets ++ second.gets := List.filterMap_append

theorem gets_completion (effects : List ModelEffect) (request : LlmRequest)
    (answer : Except CapError LlmResponse) :
    History.gets (effects.map .model ++ [.completed request answer]) = [] := by
  rw [History.gets_append, History.gets, List.filterMap_map]
  simp [History.gets]

namespace HostRun

/-- What a move has added to the record. -/
def added (m : HostMoment) : History := m.after.history.drop m.before.history.length

end HostRun

variable (platform : Platform) (policy : Policy)

/-- The move is a call of `tool.invoke` for `http_get`, its argument `url` parses to this URL, and
the policy enables the tool and allows the URL's scheme and host. -/
def FetchOrdered (m : HostMoment) (url : Url) : Prop :=
  ∃ body req raw host, m.before.receive m.input = some (.request Cap.toolInvoke body) ∧
    platform.codec.fromSlice "ToolInvokeRequest" ToolInvokeRequest.decode body = .ok req ∧
    req.name = "http_get" ∧ "http_get" ∈ policy.tools.enabled ∧
    stringArg platform req.input "url" = .ok raw ∧ platform.urlParse raw = .ok url ∧
    url.scheme = "https" ∧ url.hostStr = some host ∧ policy.tools.http.allows host = true

/-- The handler answered the request of the move with an error of this kind. -/
def FailedWith (m : HostMoment) (kind : String) : Prop :=
  ∃ name body e, m.before.receive m.input = some (.request name body) ∧
    (Capability.handle platform m.before.data m.before.history body (.ofName name)).1 = .error e ∧
    e.kind = kind

/-- A move fetches nothing, or the one URL it ordered, and then it does not fail but upstream. -/
theorem gets_step {run : HostRun} (hpolicy : run.data.tools.policy = policy) (move : GuestMove) :
    let m := (HostRun.machine platform).moment run move
    ∃ events, m.after.history = run.history ++ events ∧
      (History.gets events = [] ∨ ∃ url, History.gets events = [url] ∧ FetchOrdered platform policy m url ∧
        ∀ kind, FailedWith platform m kind → kind = "upstream") := by
  intro m
  have hmoved := HostRun.step_moved platform run move
  have hafter : m.after = ((HostRun.machine platform).step run move).1 := rfl
  rw [hafter]
  generalize ((HostRun.machine platform).step run move).1 = next at hmoved ⊢
  cases hmoved with
  | quiet pending logs _ => exact ⟨[], (List.append_nil _).symm, Or.inl rfl⟩
  | request name body hreceive state events pending hhandled =>
      refine ⟨events, rfl, ?_⟩
      cases hhandled with
      | quiet name _ _ => exact Or.inl rfl
      | completed req hturns hread => exact Or.inl (gets_completion _ _ _)
      | invoked req hread =>
          obtain ⟨_, hnone | ⟨event, hevent, hget⟩⟩ :=
            ToolBox.invoke_spec platform run.data.tools run.history req.name req.input
          · rw [hnone]
            exact Or.inl rfl
          · obtain ⟨raw, url, host, hraw, hurl, hscheme, hhost, hallow, rfl⟩ := hget.target
            refine Or.inr ⟨url, by rw [hevent]; rfl, ?_, ?_⟩
            · have henabled := hget.enabled
              rw [hget.name_eq, hpolicy] at henabled
              rw [hpolicy] at hallow
              exact ⟨body, req, raw, host, hreceive, hread, hget.name_eq, henabled, hraw, hurl, hscheme,
                hhost, hallow⟩
            · rintro kind ⟨name', body', e, hreceive', herror, rfl⟩
              obtain ⟨rfl, rfl⟩ : Cap.toolInvoke = name' ∧ body = body' := by
                simpa using hreceive.symm.trans hreceive'
              have hanswer : ((run.data.tools.invoke platform run.history req.name req.input).1.map
                  ToolInvokeResponse.mk) = .error e := by
                have hhandle : (Capability.handle platform run.data run.history body .toolInvoke).1 =
                    (run.data.tools.invoke platform run.history req.name req.input).1.map
                      ToolInvokeResponse.mk := by
                  simp only [Capability.handle, hread]
                  rfl
                exact hhandle.symm.trans herror
              cases hinvoke : (run.data.tools.invoke platform run.history req.name req.input).1 with
              | ok content =>
                  rw [hinvoke] at hanswer
                  cases hanswer
              | error e' =>
                  rw [hinvoke] at hanswer
                  cases hanswer
                  exact hget.failure e hinvoke

/-- Egress safety: every URL that was ever fetched was fetched in a move that ordered it, a move fetches one URL at
most, the one that it orders itself, and a move whose request is denied or invalid fetches none. -/
theorem egress_safe {tools : ToolBox} (hnew : ToolBox.new platform policy = .ok tools)
    (llm : LlmProvider) (moves : List GuestMove) :
    let moments := (HostRun.machine platform).moments (.start policy llm tools) moves
    (∀ url ∈ ((HostRun.machine platform).run (.start policy llm tools) moves).history.gets,
      ∃ m ∈ moments, url ∈ (HostRun.added m).gets ∧ FetchOrdered platform policy m url) ∧
    ∀ m ∈ moments, (∀ url ∈ (HostRun.added m).gets, FetchOrdered platform policy m url) ∧
      (HostRun.added m).gets.length ≤ 1 ∧
      (FailedWith platform m "denied" ∨ FailedWith platform m "invalid" → (HostRun.added m).gets = []) := by
  have htools := ToolBox.policy_of_new hnew
  intro moments
  constructor
  · refine ((HostRun.machine platform).history_induction
      (motive := fun past run => run.data.tools.policy = policy ∧
        ∀ url ∈ run.history.gets, ∃ m ∈ past, url ∈ (HostRun.added m).gets ∧ FetchOrdered platform policy m url)
      ⟨htools, fun url hmem => by cases hmem⟩ ?_ moves).2
    rintro past run move ⟨hpolicy, hpast⟩
    refine ⟨toolsPolicy_step platform policy run move hpolicy, fun url hmem => ?_⟩
    obtain ⟨events, hafter, hgets⟩ := gets_step platform policy hpolicy move
    have hadded : HostRun.added ((HostRun.machine platform).moment run move) = events := by
      rw [HostRun.added, hafter, Machine.moment_before, List.drop_left]
    rw [Machine.moment_after] at hafter
    rw [hafter, History.gets_append] at hmem
    rcases List.mem_append.mp hmem with hmem | hmem
    · obtain ⟨m, hm, hordered⟩ := hpast url hmem
      exact ⟨m, List.mem_append_left _ hm, hordered⟩
    · refine ⟨_, List.mem_append_right _ (List.mem_singleton.mpr rfl), hadded ▸ hmem, ?_⟩
      rcases hgets with hnone | ⟨fetched, hone, hordered, _⟩
      · rw [hnone] at hmem
        cases hmem
      · rw [hone, List.mem_singleton] at hmem
        exact hmem ▸ hordered
  · intro m hm
    obtain ⟨hpolicy, hmoment⟩ := (HostRun.machine platform).moment_of_mem
      (motive := fun run => run.data.tools.policy = policy) (toolsPolicy_step platform policy) htools hm
    obtain ⟨events, hafter, hgets⟩ := gets_step platform policy hpolicy m.input
    rw [← hmoment] at hafter hgets
    have hadded : HostRun.added m = events := by
      rw [HostRun.added, hafter, List.drop_left]
    rw [hadded]
    rcases hgets with hnone | ⟨url, hone, hordered, hfailed⟩
    · rw [hnone]
      exact ⟨nofun, Nat.zero_le _, fun _ => rfl⟩
    · rw [hone]
      refine ⟨List.forall_mem_singleton.mpr hordered, le_rfl, fun h => ?_⟩
      rcases h with h | h <;> exact absurd (hfailed _ h) (by decide)

/-- A policy that lets the tools fetch from one host. -/
def oneHostPolicy : Policy :=
  { Policy.default with
    tools := { ToolsConfig.default with
      enabled := ["http_get"]
      http := { HttpToolConfig.default with allowedHosts := ["example.com"] } } }

def oneHostUrl : Url := ⟨"https", some "example.com", "https://example.com/"⟩

def oneHostPlatform : Platform := .scripted oneHostUrl .unreachable .unreachable

/-- A guest that fetches the root of that host. -/
def oneHostMoves : List GuestMove :=
  [.request Cap.toolInvoke (Text.utf8
    "\x7b\"name\":\"http_get\",\"input\":\x7b\"url\":\"https://example.com/\"\x7d\x7d")]

def oneHostStart : HostRun :=
  .start oneHostPolicy (.constant (.error (.upstream "down"))) ⟨oneHostPolicy, .unreachable, .empty⟩

theorem egress_safe_fetch :
    ∃ m ∈ (HostRun.machine oneHostPlatform).moments oneHostStart oneHostMoves,
      oneHostUrl ∈ (HostRun.added m).gets ∧ FetchOrdered oneHostPlatform oneHostPolicy m oneHostUrl :=
  (egress_safe oneHostPlatform oneHostPolicy rfl (.constant (.error (.upstream "down")))
    oneHostMoves).1 oneHostUrl (by decide +kernel)

end TdsWasm
