import TdsWasm.SecurityFrame

/-! The scratchpad of a run as a map with read-your-writes: what it holds under a key is what the record of the run
says was stored there last, whatever else the guest has asked for. A key that was never stored reads as a
placeholder, which is a text that can be stored as well. -/

set_option autoImplicit false

namespace TdsWasm

variable (platform : Platform)

/-- The value that an event has stored under a key, if it is a successful `kv_put` of that key. -/
def HostEvent.stored (key : String) : HostEvent → Option String
  | .invoked req (.ok _) =>
      if req.name = "kv_put" ∧ stringArg platform req.input "key" = .ok key then
        (stringArg platform req.input "value").toOption
      else none
  | _ => none

/-- The value of the most recent successful `kv_put` of a key. -/
def History.lastStored (history : History) (key : String) : Option String :=
  history.reverse.findSome? (HostEvent.stored platform key)

/-- What `kv_get` answers for a key that was never stored. -/
def placeholder (key : String) : String := "(no value stored for " ++ Text.debug platform.plain key ++ ")"

theorem History.lastStored_append (history events : History) (key : String) :
    History.lastStored platform (history ++ events) key =
      (History.lastStored platform events key).or (History.lastStored platform history key) := by
  rw [lastStored, List.reverse_append, List.findSome?_append]
  rfl

theorem History.lastStored_eq_none {events : History} {key : String}
    (h : ∀ event ∈ events, event.stored platform key = none) : History.lastStored platform events key = none :=
  List.findSome?_eq_none_iff.mpr fun event hmem => h event (List.mem_reverse.mp hmem)

namespace ToolBox

variable {platform} {tools : ToolBox} {name : String} {input : JsonValue}

/-- A `kv_put` that stores nothing is refused. -/
theorem invoke_refused (h : ∀ key value, ¬ Stores platform tools "kv_put" input key value) (history : History) :
    ∃ e, (tools.invoke platform history "kv_put" input).1 = .error e := by
  unfold invoke
  by_cases henabled : "kv_put" ∈ tools.policy.tools.enabled
  · rw [if_neg (by simp [henabled])]
    obtain ⟨e, hput⟩ := kvPut_of_not_stores henabled h
    exact ⟨e, congrArg Prod.fst hput⟩
  · have hany : ∀ x ∈ tools.policy.tools.enabled, x ≠ "kv_put" := fun x hmem heq => henabled (heq ▸ hmem)
    rw [if_pos (by simpa using hany)]
    exact ⟨_, rfl⟩

/-- A `kv_put` that is refused leaves the tools as they are. -/
theorem invoke_of_refused {history : History} {e : CapError}
    (h : (tools.invoke platform history "kv_put" input).1 = .error e) :
    (tools.invoke platform history "kv_put" input).2.1 = tools := by
  apply invoke_quiet
  intro key value hstores
  rw [invoke_of_stores hstores] at h
  cases h

/-- The reading of an enabled key. -/
theorem invoke_kvGet (henabled : "kv_get" ∈ tools.policy.tools.enabled) {key : String}
    (hkey : stringArg platform input "key" = .ok key) (history : History) :
    (tools.invoke platform history "kv_get" input).1 = .ok ((tools.kv.get key).getD (placeholder platform key)) := by
  unfold invoke
  rw [if_neg (by simp [henabled])]
  show tools.kvGet platform input = _
  rw [kvGet, hkey]
  rfl

variable (platform tools name input)

/-- After a tool call, a key holds what its record says was stored there, or else what it held before. -/
theorem get_invoke (history : History) (key : String) :
    let result := tools.invoke platform history name input
    result.2.1.kv.get key =
      (History.lastStored platform (result.2.2 ++ [.invoked ⟨name, input⟩ result.1]) key).or (tools.kv.get key) := by
  intro result
  have hfetch : History.lastStored platform result.2.2 key = none := by
    apply History.lastStored_eq_none
    intro event hmem
    obtain ⟨url, exchange, rfl⟩ := get_of_invoke platform tools history name input event hmem
    rfl
  have hlast : History.lastStored platform (result.2.2 ++ [.invoked ⟨name, input⟩ result.1]) key =
      HostEvent.stored platform key (.invoked ⟨name, input⟩ result.1) := by
    rw [History.lastStored_append, hfetch, Option.or_none]
    show List.findSome? _ [_] = _
    rw [List.findSome?_singleton]
  rw [hlast]
  by_cases hstores : ∃ other value, Stores platform tools name input other value
  · obtain ⟨other, value, hstores⟩ := hstores
    have hresult : result = _ := invoke_of_stores hstores history
    rw [hresult]
    simp only [HostEvent.stored, hstores.name_eq, hstores.key_eq, hstores.value_eq, true_and, Except.ok.injEq]
    by_cases hsame : other = key
    · rw [if_pos hsame, hsame]
      exact OrderedMap.get_insert_self _ _ _
    · rw [if_neg hsame]
      exact OrderedMap.get_insert_of_ne _ _ (Ne.symm hsame)
  · have hnone : ∀ other value, ¬ Stores platform tools name input other value :=
      fun other value h => hstores ⟨other, value, h⟩
    have hquiet : result.2.1 = tools := invoke_quiet hnone history
    have hstored : HostEvent.stored platform key (.invoked ⟨name, input⟩ result.1) = none := by
      by_cases hput : name = "kv_put"
      · subst hput
        obtain ⟨e, he⟩ := invoke_refused hnone history
        rw [show result.1 = .error e from he]
        rfl
      · cases result.1 with
        | error e => rfl
        | ok text => exact if_neg fun h => hput h.1
    rw [hquiet, hstored, Option.none_or]

end ToolBox

/-- In every run, each key of the scratchpad holds what was stored there last. -/
theorem get_run (policy : Policy) (llm : LlmProvider) (http : HttpClient Url 0) (moves : List GuestMove)
    (key : String) :
    let run := (HostRun.machine platform).run (.start policy llm ⟨policy, http, .empty⟩) moves
    run.data.tools.kv.get key = History.lastStored platform run.history key := by
  refine (HostRun.machine platform).run_invariant
    (motive := fun run => run.data.tools.kv.get key = History.lastStored platform run.history key)
    (fun run move h => ?_) rfl moves
  have hmoved := HostRun.step_moved platform run move
  generalize ((HostRun.machine platform).step run move).1 = next at hmoved ⊢
  cases hmoved with
  | quiet pending logs _ => exact h
  | request name body hreceive state events pending hhandled =>
      cases hhandled with
      | quiet name _ _ => exact h.trans (by rw [List.append_nil])
      | completed req hturns hread =>
          have hsilent : History.lastStored platform ((run.data.llm.complete run.history req).2.map .model ++
              [.completed req (run.data.llm.complete run.history req).1]) key = none := by
            apply History.lastStored_eq_none
            intro event hmem
            rcases List.mem_append.mp hmem with hmodel | hlast
            · obtain ⟨effect, _, rfl⟩ := List.mem_map.mp hmodel
              rfl
            · rw [List.mem_singleton.mp hlast]
              rfl
          show run.data.tools.kv.get key = _
          rw [History.lastStored_append, hsilent, Option.none_or, h]
      | invoked req hread =>
          calc _ = _ := run.data.tools.get_invoke platform req.name req.input run.history key
            _ = (History.lastStored platform _ key).or (History.lastStored platform run.history key) := by rw [h]
            _ = _ := (History.lastStored_append platform run.history _ key).symm

/-- The tool box is a map with read-your-writes to this record of the run. -/
structure ReadsWrites (tools : ToolBox) (history : History) : Prop where
  /-- A key reads as the value that was stored last, or as the placeholder. -/
  read : ∀ now input key, "kv_get" ∈ tools.policy.tools.enabled → stringArg platform input "key" = .ok key →
    (tools.invoke platform now "kv_get" input).1 =
      .ok ((history.lastStored platform key).getD (placeholder platform key))
  /-- It reads as the placeholder when nothing was stored there, or when the last value is that very text. -/
  missing : ∀ now input key, "kv_get" ∈ tools.policy.tools.enabled → stringArg platform input "key" = .ok key →
    ((tools.invoke platform now "kv_get" input).1 = .ok (placeholder platform key) ↔
      history.lastStored platform key = none ∨
        history.lastStored platform key = some (placeholder platform key))
  /-- A `kv_put` that is refused changes no later reading. -/
  refused : ∀ now input e, (tools.invoke platform now "kv_put" input).1 = .error e →
    (tools.invoke platform now "kv_put" input).2.1 = tools ∧
      ∀ key, History.lastStored platform (history ++ (tools.invoke platform now "kv_put" input).2.2 ++
        [HostEvent.invoked ⟨"kv_put", input⟩ (.error e)]) key = history.lastStored platform key
  /-- A key that was stored takes a new value within the limit, however many keys there are. -/
  overwrites : ∀ now input key value, "kv_put" ∈ tools.policy.tools.enabled →
    stringArg platform input "key" = .ok key → stringArg platform input "value" = .ok value →
    history.lastStored platform key ≠ none → value.utf8ByteSize ≤ tools.policy.tools.kv.maxValueBytes →
    (∃ text, (tools.invoke platform now "kv_put" input).1 = .ok text) ∧
      (tools.invoke platform now "kv_put" input).2.1.kv.get key = some value

theorem readsWrites_of_get {tools : ToolBox} {history : History}
    (hget : ∀ key, tools.kv.get key = history.lastStored platform key) : ReadsWrites platform tools history where
  read now input key henabled hkey := by
    rw [ToolBox.invoke_kvGet henabled hkey, hget]
  missing now input key henabled hkey := by
    rw [ToolBox.invoke_kvGet henabled hkey, hget]
    cases history.lastStored platform key with
    | none => exact ⟨fun _ => Or.inl rfl, fun _ => rfl⟩
    | some value => simp
  refused now input e he := by
    have hquiet := ToolBox.invoke_of_refused he
    refine ⟨hquiet, fun key => ?_⟩
    have hsame := tools.get_invoke platform "kv_put" input now key
    simp only [he, hquiet, hget] at hsame
    rw [List.append_assoc, History.lastStored_append]
    exact hsame.symm
  overwrites now input key value henabled hkey hvalue hheld hsize := by
    have hold : tools.kv.contains key = true := by
      rw [OrderedMap.contains, hget, Option.isSome_iff_ne_none]
      exact hheld
    have hstores : tools.Stores platform "kv_put" input key value :=
      ⟨rfl, henabled, hkey, hvalue, hsize, Or.inl hold⟩
    rw [ToolBox.invoke_of_stores hstores]
    exact ⟨⟨_, rfl⟩, OrderedMap.get_insert_self _ _ _⟩

/-- In every state that a run of any guest reaches, the scratchpad is a map with read-your-writes. -/
theorem scratchpad_reads_writes (policy : Policy) (llm : LlmProvider) (http : HttpClient Url 0)
    (moves : List GuestMove) :
    let run := (HostRun.machine platform).run (.start policy llm ⟨policy, http, .empty⟩) moves
    ReadsWrites platform run.data.tools run.history :=
  readsWrites_of_get platform (get_run platform policy llm http moves)

/-- A guest that stores the placeholder of a key under this key. -/
def mirrorInput : JsonValue :=
  (Json.obj [("key", .str "k"), ("value", .str (placeholder stillPlatform "k"))]).toValue

def mirrorMove : GuestMove :=
  .request Cap.toolInvoke (JsonCodec.compact.toVec (ToolInvokeRequest.encode ⟨"kv_put", mirrorInput⟩))

theorem placeholder_stored :
    let run := (HostRun.machine stillPlatform).run stillStart [mirrorMove]
    run.history.lastStored stillPlatform "k" ≠ none ∧
      (run.data.tools.invoke stillPlatform run.history "kv_get" mirrorInput).1 =
        .ok (placeholder stillPlatform "k") := by
  decide +kernel

end TdsWasm
