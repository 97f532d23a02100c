import TdsWasm.HostLlm

/-! The provider without a model (`MockProvider` of `llm.rs`): a line `!tool <name> <json-args>` of the task becomes a
tool call on the first turn, and once there are results the answer is a summary of them. -/

set_option autoImplicit false

namespace TdsWasm

/-- The text of this block, if it is the result of a tool call. -/
def Content.asToolResult : Content → Option String
  | known (.toolResult _ content _) => some content
  | _ => none

/-- The content blocks of all messages. -/
def LlmRequest.blocks (request : LlmRequest) : List Content := request.messages.flatMap Message.content

namespace MockProvider

def firstLine (s : String) : String := Text.trim ((Text.lines s).head?.getD "")

section Directives

variable (codec : JsonCodec)

/-- The tool and its arguments in a line that is a directive. Arguments that do not parse are an empty object. -/
def parseDirective (line : String) : Option (String × JsonValue) := do
  let rest ← Text.stripPrefix "!tool " (Text.trim line)
  let (name, args) := match Text.splitOnceWhitespace rest with
    | some (name, args) => (Text.trim name, Text.trim args)
    | none => (Text.trim rest, "\x7b\x7d")
  let input := match codec.fromSlice "Value" Decode.value (Text.utf8 args) with
    | .ok input => input
    | .error _ => (Json.obj []).toValue
  return (name, input)

/-- Pull `!tool <name> <json>` directives out of the task text. -/
def parseDirectives (task : String) : List (String × JsonValue) :=
  (Text.lines task).filterMap (parseDirective codec)

end Directives

section Completions

variable (platform : Platform)

/-- The tool calls for these directives. -/
def toolUses (directives : List (String × JsonValue)) : List Content :=
  directives.zipIdx.map fun ((name, input), i) => .known (.toolUse ("toolu_mock_" ++ toString i) name input)

/-- The directives in the texts of a request that name a tool it offers. -/
def offeredDirectives (request : LlmRequest) : List (String × JsonValue) :=
  let task := "\n".intercalate (request.blocks.filterMap Content.asText)
  let available := request.tools.map ToolSpec.name
  (parseDirectives platform.codec task).filter fun directive => available.contains directive.1

def complete (request : LlmRequest) : LlmResponse :=
  let alreadyUsedTools := request.blocks.any fun block => block.asToolResult.isSome
  let calls := if alreadyUsedTools then [] else toolUses (offeredDirectives platform request)
  if !calls.isEmpty then ⟨"tool_use", calls, ⟨100, 20⟩⟩
  else
    let results := request.blocks.filterMap Content.asToolResult
    let answer := if results.isEmpty then "[mock] No tools were needed. Task was: " ++
        firstLine ("\n".intercalate (request.blocks.filterMap Content.asText))
      else "[mock] Tool results: " ++ " | ".intercalate results
    ⟨"end_turn", [.text answer], ⟨120, 30⟩⟩

/-- The mock behind the provider interface. It asks nobody. -/
def toProvider : LlmProvider where
  complete _ request := (.ok (complete platform request), [])
  describe := "mock"

end Completions

end MockProvider

/-- The provider that a policy asks for (`llm::build`). -/
def LlmProvider.build (platform : Platform) (config : LlmConfig) : Except String LlmProvider :=
  match config.provider with
  | .mock => .ok (MockProvider.toProvider platform)
  | .anthropic => (AnthropicProvider.new platform config).map (AnthropicProvider.toProvider platform)

namespace MockProvider

variable {codec : JsonCodec} {platform : Platform}

/-! ### Directives -/

theorem parseDirective_trim (line other : String) (h : Text.trim line = Text.trim other) :
    parseDirective codec line = parseDirective codec other := by
  rw [parseDirective, parseDirective, h]

theorem parseDirective_empty : parseDirective codec "" = none := rfl

/-- The directives of two texts with a line feed between them are those of the one and then those of the other. -/
theorem parseDirectives_append (left right : String) : parseDirectives codec (left ++ "\n" ++ right) =
    parseDirectives codec left ++ parseDirectives codec right :=
  Text.filterMap_lines_append parseDirective_trim parseDirective_empty left right

/-- There is no directive in a blank text. -/
theorem parseDirectives_blank {s : String} (hblank : Text.trim s = "") : parseDirectives codec s = [] :=
  Text.filterMap_lines_blank parseDirective_trim parseDirective_empty hblank

/-! ### Turns -/

theorem toolUses_eq_nil {directives : List (String × JsonValue)} : toolUses directives = [] ↔ directives = [] := by
  rw [toolUses, List.map_eq_nil_iff, List.zipIdx_eq_nil_iff]

/-- The calls ask for the tools of the directives, with their arguments. -/
theorem asked_toolUses (directives : List (String × JsonValue)) :
    ((toolUses directives).filterMap Content.asToolUse).map Prod.snd = directives := by
  have hasked : (toolUses directives).filterMap Content.asToolUse =
      directives.zipIdx.map fun call => ("toolu_mock_" ++ toString call.2, call.1) := by
    rw [toolUses, List.filterMap_map, List.filterMap_eq_map_iff_forall_eq_some]
    exact fun _ _ => rfl
  rw [hasked, List.map_map]
  exact List.zipIdx_map_fst 0 directives

theorem any_isSome_iff {blocks : List Content} : (blocks.any fun block => block.asToolResult.isSome) = true ↔
    blocks.filterMap Content.asToolResult ≠ [] := by
  rw [List.any_eq_true, ne_eq, List.filterMap_eq_nil_iff, not_forall]
  refine exists_congr fun block => ?_
  rw [Option.isSome_iff_ne_none, Classical.not_imp]

/-- Before there are results, the mock calls the tools of the directives, or says that it needs none. -/
theorem complete_unused {request : LlmRequest} (hfresh : request.blocks.filterMap Content.asToolResult = []) :
    complete platform request = if offeredDirectives platform request = [] then
        ⟨"end_turn", [.text ("[mock] No tools were needed. Task was: " ++
          firstLine ("\n".intercalate (request.blocks.filterMap Content.asText)))], ⟨120, 30⟩⟩
      else ⟨"tool_use", toolUses (offeredDirectives platform request), ⟨100, 20⟩⟩ := by
  have hnone : ¬ (request.blocks.any fun block => block.asToolResult.isSome) = true :=
    mt any_isSome_iff.mp (not_not.mpr hfresh)
  unfold complete
  simp only [if_neg hnone, hfresh, Bool.not_eq_true', List.isEmpty_eq_false_iff, ne_eq, toolUses_eq_nil]
  by_cases hcalls : offeredDirectives platform request = []
  · rw [if_neg (not_not.mpr hcalls), if_pos hcalls]
    rfl
  · rw [if_pos hcalls, if_neg hcalls]

/-- Once there are results, the mock answers with all of them. -/
theorem complete_used {request : LlmRequest} (hused : request.blocks.filterMap Content.asToolResult ≠ []) :
    complete platform request = ⟨"end_turn", [.text ("[mock] Tool results: " ++
      " | ".intercalate (request.blocks.filterMap Content.asToolResult))], ⟨120, 30⟩⟩ := by
  have hsome := any_isSome_iff.mpr hused
  have hresults : ¬ (request.blocks.filterMap Content.asToolResult).isEmpty = true :=
    fun hempty => hused (List.isEmpty_iff.mp hempty)
  unfold complete
  simp only [if_pos hsome, if_neg hresults]
  rfl

end MockProvider

end TdsWasm
