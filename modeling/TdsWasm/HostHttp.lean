import TdsWasm.AbiContent
import TdsWasm.LibJsonText

/-! What the host process does to the world and what the world answers: HTTP exchanges of the two
clients, and the record of everything done so far in a run. The world may answer anything, and
differently each time, so a client is a function of that record. -/

set_option autoImplicit false

namespace TdsWasm

/-- A parsed URL, as far as the tools look into it. -/
structure Url where
  scheme : String
  hostStr : Option String
  serialization : String
  deriving DecidableEq

/-- The answer to a request. Reading the body gives `body` and then ends, or fails with
`bodyError`. `charsetText` is the body decoded by the charset its headers name. -/
structure HttpResponse where
  status : Nat
  headers : List (String × Bytes)
  body : Bytes
  bodyError : Option String
  charsetText : String

namespace HttpResponse

def isSuccess (response : HttpResponse) : Bool := 200 ≤ response.status && response.status < 300

def isRedirection (response : HttpResponse) : Bool := 300 ≤ response.status && response.status < 400

def isServerError (response : HttpResponse) : Bool := 500 ≤ response.status && response.status < 600

/-- A header as text: there when all its bytes are visible ASCII. -/
def header (response : HttpResponse) (name : String) : Option String :=
  (response.headers.lookup name).bind fun bytes =>
    if bytes.all fun b => b = 9 || Text.inRange 32 126 b then Text.fromUtf8 bytes else none

/-- The whole body. -/
def bytes (response : HttpResponse) : Except String Bytes :=
  match response.bodyError with
  | some e => .error e
  | none => .ok response.body

/-- The body read through a reader that stops after `cap` bytes. -/
def take (response : HttpResponse) (cap : Nat) : Except String Bytes :=
  if cap ≤ response.body.length then .ok (response.body.take cap) else response.bytes

end HttpResponse

inductive Method where
  | get
  | post
  deriving DecidableEq

/-- A redirect that the client followed by itself. -/
structure Hop where
  status : Nat
  location : String

/-- One `send`: the redirects followed on the way, at most as many as the client allows, and what
the caller gets in the end. -/
structure Exchange (maxRedirects : Nat) where
  hops : List Hop
  hops_le : hops.length ≤ maxRedirects
  outcome : Except String HttpResponse

namespace Exchange

/-- The redirects that keep the method of a request; the others turn it into a GET. -/
def keepsMethod (hop : Hop) : Bool := hop.status == 307 || hop.status == 308

/-- The methods of all requests that one `send` puts on the wire. -/
def methods : Method → List Hop → List Method
  | method, [] => [method]
  | method, hop :: rest => method :: methods (if keepsMethod hop then method else .get) rest

theorem length_methods (method : Method) (hops : List Hop) : (methods method hops).length = hops.length + 1 := by
  induction hops generalizing method with
  | nil => rfl
  | cons hop rest ih => rw [methods, List.length_cons, ih, List.length_cons]

variable {maxRedirects : Nat}

/-- How many POSTs one `send` of a POST puts on the wire. -/
def posts (exchange : Exchange maxRedirects) : Nat := (methods .post exchange.hops).count .post

end Exchange

/-- A request to the model endpoint. -/
structure ModelRequest where
  url : String
  headers : List (String × String)
  body : JsonValue

/-- The redirects a client follows when it is built without a redirect policy. -/
def defaultRedirects : Nat := 10

/-- What the model provider does during a completion. -/
inductive ModelEffect where
  | send (request : ModelRequest) (exchange : Exchange defaultRedirects)
  | sleep (milliseconds : Nat)

/-- One entry of the record of a run. A completion and a tool call are entered when they are
answered, after what was done to answer them. -/
inductive HostEvent where
  | get (url : Url) (exchange : Exchange 0)
  | model (effect : ModelEffect)
  | completed (request : LlmRequest) (answer : Except CapError LlmResponse)
  | invoked (request : ToolInvokeRequest) (answer : Except CapError String)

abbrev History := List HostEvent

structure HttpClient (Request : Type) (maxRedirects : Nat) where
  send : History → Request → Exchange maxRedirects

namespace HttpClient

variable {Request : Type} {maxRedirects : Nat}

/-- A network on which every exchange goes the same way. -/
def constant (exchange : Exchange maxRedirects) : HttpClient Request maxRedirects := ⟨fun _ _ => exchange⟩

/-- A network that answers nothing. -/
def unreachable : HttpClient Request maxRedirects := constant ⟨[], Nat.zero_le _, .error "unreachable"⟩

end HttpClient

/-- The libraries and the operating system under the host. The JSON library is taken to read back all numbers as it has
written them. -/
structure Platform where
  codec : JsonCodec
  numbers_exact : ∀ n, codec.rereads n
  /-- Whether the debug text of a string shows a character as itself. -/
  plain : Char → Bool
  urlParse : String → Except String Url
  /-- The formatted clock, when formatting succeeds. -/
  formatNow : History → Option String
  envVar : String → Option String
  /-- Building a client with a request timeout and redirects switched off. -/
  buildToolClient : UInt64 → Except String (HttpClient Url 0)
  /-- Building a client with a request timeout and no redirect policy. -/
  buildModelClient : UInt64 → Except String (HttpClient ModelRequest defaultRedirects)

theorem Platform.numbers (platform : Platform) (j : Json) : j.Numbers platform.codec.rereads :=
  Json.numbers_of_forall platform.numbers_exact j

/-- A platform with a concrete JSON library, a fixed clock and environment, a parser that knows one
URL, and these clients. -/
def Platform.scripted (url : Url) (tool : HttpClient Url 0)
    (model : HttpClient ModelRequest defaultRedirects) : Platform where
  codec := .compact
  numbers_exact _ := trivial
  plain c := 32 ≤ c.toNat && c.toNat < 127
  urlParse raw := if raw = url.serialization then .ok url else .error "invalid URL"
  formatNow _ := some "2026-01-01T00:00:00Z"
  envVar _ := some "key"
  buildToolClient _ := .ok tool
  buildModelClient _ := .ok model

/-- A platform without a network. -/
def Platform.offline : Platform :=
  .scripted ⟨"https", some "example.com", "https://example.com/"⟩ .unreachable .unreachable

end TdsWasm
