import TdsWasm.HostHttp

/-! The requests that go out. One send of the client of the model provider makes the request it is given, and, as the
client is built without a redirect policy, one more for every redirect that it follows by itself. -/

set_option autoImplicit false

namespace TdsWasm

/-- One request on the wire. -/
structure WireRequest where
  method : Method
  url : String
  headers : List (String × String)
  body : Option JsonValue

namespace WireRequest

/-- The headers that a client takes off when a redirect leads to another origin. -/
def sensitiveHeaders : List String := ["authorization", "cookie", "proxy-authorization", "www-authenticate"]

/-- The headers that go with a body. -/
def payloadHeaders : List String := ["content-type", "content-length", "content-encoding", "transfer-encoding"]

def without (names : List String) (headers : List (String × String)) : List (String × String) :=
  headers.filter fun header => !names.contains header.1

variable {ω : Type} [DecidableEq ω] (origin : String → Option ω)

/-- The request by which a client follows a redirect. -/
def follow (wire : WireRequest) (hop : Hop) : WireRequest :=
  let kept : WireRequest := if Exchange.keepsMethod hop then wire
    else ⟨.get, wire.url, without payloadHeaders wire.headers, none⟩
  ⟨kept.method, hop.location,
    if origin hop.location = origin wire.url then kept.headers else without sensitiveHeaders kept.headers,
    kept.body⟩

/-- The request and those by which its redirects are followed. -/
def chain (wire : WireRequest) : List Hop → List WireRequest
  | [] => [wire]
  | hop :: rest => wire :: chain (follow origin wire hop) rest

/-- The request that a send is given. -/
def first (request : ModelRequest) : WireRequest := ⟨.post, request.url, request.headers, some request.body⟩

/-- The requests that a completion has its client make, one send after the other. -/
def made (effects : List ModelEffect) : List WireRequest :=
  effects.flatMap fun
    | .send request exchange => chain origin (first request) exchange.hops
    | .sleep _ => []

variable {origin}

theorem method_follow (wire : WireRequest) (hop : Hop) :
    (follow origin wire hop).method = if Exchange.keepsMethod hop then wire.method else .get := by
  unfold follow
  simp only
  split_ifs <;> rfl

/-- The methods on the wire are those of the exchange. -/
theorem methods_chain (wire : WireRequest) (hops : List Hop) :
    (chain origin wire hops).map method = Exchange.methods wire.method hops := by
  induction hops generalizing wire with
  | nil => rfl
  | cons hop rest ih => rw [chain, List.map_cons, ih, Exchange.methods, method_follow]

/-- Every redirect that is followed makes one request more. -/
theorem length_chain (wire : WireRequest) (hops : List Hop) : (chain origin wire hops).length = hops.length + 1 := by
  rw [← List.length_map method, methods_chain, Exchange.length_methods]

theorem made_append (first second : List ModelEffect) :
    made origin (first ++ second) = made origin first ++ made origin second := List.flatMap_append

end WireRequest

end TdsWasm
