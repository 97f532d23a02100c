import TdsWasm.HostPolicy

/-! The tools the host runs on the agent's behalf (`tools.rs`). A tool call answers text or an
error, may change the scratchpad, and may fetch one URL. -/

set_option autoImplicit false

namespace TdsWasm

/-- Per-run tool state. -/
structure ToolBox where
  policy : Policy
  http : HttpClient Url 0
  kv : OrderedMap String String

namespace ToolBox

/-- A fresh box with an empty scratchpad. Its client does not follow redirects. -/
def new (platform : Platform) (policy : Policy) : Except String ToolBox := do
  let http ← platform.buildToolClient policy.tools.http.timeoutMs
  return ⟨policy, http, .empty⟩

end ToolBox

def objectSchema (properties : List (String × Json)) (required : List String) : JsonValue :=
  (Json.obj [("type", .str "object"), ("properties", .obj properties),
    ("required", .arr (required.map .str))]).toValue

def stringProperty : Json := .obj [("type", .str "string")]

def specFor (name : String) : Option ToolSpec :=
  let described : Option (String × JsonValue) :=
    match name with
    | "now" => some
        ("Get the current UTC time as an RFC 3339 timestamp. The sandbox has no clock of its own, " ++
          "so this is the only way to learn the time.", objectSchema [] [])
    | "http_get" => some
        ("Fetch a URL over HTTPS and return the status and body. Only hosts on the runtime's " ++
          "allowlist can be reached; anything else is denied. Responses are truncated past a size " ++
          "limit and redirects are reported rather than followed.",
        objectSchema [("url", .obj [("type", .str "string"),
          ("description", .str "Absolute https:// URL to fetch.")])] ["url"])
    | "kv_get" => some
        ("Read a value previously saved with kv_put. Returns a placeholder if the key has never " ++
          "been set. The scratchpad lasts only for this run.",
        objectSchema [("key", stringProperty)] ["key"])
    | "kv_put" => some
        ("Save a string under a key so you can retrieve it later in this run. Use it to park " ++
          "intermediate findings instead of restating them each turn.",
        objectSchema [("key", stringProperty), ("value", stringProperty)] ["key", "value"])
    | _ => none
  described.map fun (description, schema) => ⟨name, description, schema⟩

def nowRfc3339 (platform : Platform) (history : History) : String :=
  (platform.formatNow history).getD "unavailable"

def stringArg (platform : Platform) (input : JsonValue) (field : String) :
    Except CapError String :=
  match (input.get field).bind Json.asStr with
  | some s => .ok s
  | none => .error (.invalid ("missing required string argument " ++ Text.debug platform.plain field))

namespace ToolBox

variable (platform : Platform)

/-- The tool surface the agent is shown. A disabled tool is not described and not listed. -/
def specs (tools : ToolBox) : List ToolSpec := tools.policy.tools.enabled.filterMap specFor

/-- What a fetch answers, once the response is there. -/
def fetched (tools : ToolBox) (response : HttpResponse) : Except CapError String :=
  if response.isRedirection then
    .ok ("HTTP " ++ toString response.status ++ " redirect to " ++
      (response.header "location").getD "(none)" ++ ". Redirects are not followed automatically; " ++
      "fetch that URL explicitly if you still want it.")
  else
    let cap := tools.policy.tools.http.maxResponseBytes
    match response.take cap with
    | .error e => .error (.upstream ("reading response body: " ++ e))
    | .ok body =>
        let truncated := cap ≤ body.length
        .ok ("HTTP " ++ toString response.status ++
          (if truncated then " (truncated to " ++ toString cap ++ " bytes)" else "") ++ "\n\n" ++
          Text.fromUtf8Lossy body)

/-- Every check comes before the send: the argument, the URL, its scheme, its host, the allowlist. -/
def httpGet (tools : ToolBox) (history : History) (input : JsonValue) :
    Except CapError String × List HostEvent :=
  match stringArg platform input "url" with
  | .error e => (.error e, [])
  | .ok raw =>
      match platform.urlParse raw with
      | .error e => (.error (.invalid ("url is not valid: " ++ e)), [])
      | .ok parsed =>
          if parsed.scheme ≠ "https" then
            (.error (.denied "only https URLs may be fetched"), [])
          else
            match parsed.hostStr with
            | none => (.error (.invalid "url has no host"), [])
            | some host =>
                if !tools.policy.tools.http.allows host then
                  (.error (.denied ("host " ++ Text.debug platform.plain host ++
                    " is not in this host's allowlist")), [])
                else
                  let exchange := tools.http.send history parsed
                  match exchange.outcome with
                  | .error e =>
                      (.error (.upstream ("GET " ++ host ++ " failed: " ++ e)), [.get parsed exchange])
                  | .ok response => (tools.fetched response, [.get parsed exchange])

def kvGet (tools : ToolBox) (input : JsonValue) : Except CapError String := do
  let key ← stringArg platform input "key"
  return (tools.kv.get key).getD ("(no value stored for " ++ Text.debug platform.plain key ++ ")")

def kvPut (tools : ToolBox) (input : JsonValue) : Except CapError String × ToolBox :=
  match stringArg platform input "key" with
  | .error e => (.error e, tools)
  | .ok key =>
      match stringArg platform input "value" with
      | .error e => (.error e, tools)
      | .ok value =>
          let limits := tools.policy.tools.kv
          if limits.maxValueBytes < value.utf8ByteSize then
            (.error (.denied ("value is " ++ toString value.utf8ByteSize ++ " bytes, over the " ++
              toString limits.maxValueBytes ++ " byte limit")), tools)
          else if !tools.kv.contains key && limits.maxKeys ≤ tools.kv.size then
            (.error (.denied ("the scratchpad already holds its maximum of " ++
              toString limits.maxKeys ++ " keys")), tools)
          else
            (.ok ("stored " ++ Text.debug platform.plain key),
              { tools with kv := tools.kv.insert key value })

def invoke (tools : ToolBox) (history : History) (name : String) (input : JsonValue) :
    Except CapError String × ToolBox × List HostEvent :=
  if !tools.policy.tools.enabled.any (· = name) then
    (.error (.denied ("tool " ++ Text.debug platform.plain name ++
      " is not enabled by this host's policy")), tools, [])
  else
    match name with
    | "now" => (.ok (nowRfc3339 platform history), tools, [])
    | "http_get" =>
        let (answer, events) := tools.httpGet platform history input
        (answer, tools, events)
    | "kv_get" => (tools.kvGet platform input, tools, [])
    | "kv_put" =>
        let (answer, tools) := tools.kvPut platform input
        (answer, tools, [])
    | other => (.error (.notFound ("no tool named " ++ Text.debug platform.plain other)), tools, [])

end ToolBox

end TdsWasm
