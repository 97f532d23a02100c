import TdsWasm.HostSteps

/-! What a fetch says of a body that it did not read to its end. The body is read through a reader that stops at
the limit, and a body that fills the limit is taken for one that was cut. -/

set_option autoImplicit false

namespace TdsWasm

/-- The mark of a text that was cut. -/
def truncatedNote (cap : Nat) : String := " (truncated to " ++ toString cap ++ " bytes)"

/-- The text of a fetch that read these bytes, with a mark when the body was cut. -/
def fetchText (status cap : Nat) (marked : Bool) (read : Bytes) : String :=
  "HTTP " ++ toString status ++ (if marked then truncatedNote cap else "") ++ "\n\n" ++ Text.fromUtf8Lossy read

/-- The mark can be told from the text. -/
theorem fetchText_inj {status cap : Nat} {read : Bytes} {marked other : Bool} :
    fetchText status cap marked read = fetchText status cap other read ↔ marked = other := by
  have hsize : ∀ marked, (fetchText status cap marked read).utf8ByteSize =
      (fetchText status cap false read).utf8ByteSize + if marked then (truncatedNote cap).utf8ByteSize else 0 := by
    intro marked
    cases marked with
    | false => rfl
    | true =>
        simp only [fetchText, if_true, Bool.false_eq_true, if_false, String.append_empty, String.utf8ByteSize_append]
        omega
  have hnote : 0 < (truncatedNote cap).utf8ByteSize := by
    show 0 < (" (truncated to " ++ toString cap ++ " bytes)").utf8ByteSize
    rw [String.append_assoc, String.utf8ByteSize_append]
    exact Nat.add_pos_left (by decide) _
  constructor
  · intro h
    have hsame := congrArg String.utf8ByteSize h
    rw [hsize marked, hsize other, Nat.add_left_cancel_iff] at hsame
    cases marked <;> cases other
    · rfl
    · exact absurd hsame (Nat.ne_of_lt hnote)
    · exact absurd hsame (Nat.ne_of_gt hnote)
    · rfl
  · rintro rfl
    rfl

/-- The text gives the status and the first bytes of the body up to the limit, and its mark is there exactly when the
body is longer. -/
def ReportsBody (response : HttpResponse) (cap : Nat) (text : String) : Prop :=
  ∃ marked : Bool, (marked = true ↔ cap < response.body.length) ∧
    text = fetchText response.status cap marked (response.body.take (min response.body.length cap))

/-- A body that can be read is reported, and whatever is reported is reported truthfully. -/
def FetchedTruthfully (response : HttpResponse) (cap : Nat) (answer : Except CapError String) : Prop :=
  (response.bodyError = none → ∃ text, answer = .ok text) ∧ ∀ text, answer = .ok text → ReportsBody response cap text

namespace ToolBox

variable {tools : ToolBox} {response : HttpResponse}

/-- What a fetch answers when the response is no redirect: its text is marked when the bytes fill the limit. -/
theorem fetched_direct (hdirect : response.isRedirection = false) :
    tools.fetched response = ((response.take tools.policy.tools.http.maxResponseBytes).mapError fun e =>
      .upstream ("reading response body: " ++ e)).map fun read =>
        fetchText response.status tools.policy.tools.http.maxResponseBytes
          (decide (tools.policy.tools.http.maxResponseBytes ≤ read.length)) read := by
  unfold fetched
  rw [if_neg (by simp [hdirect])]
  simp only
  cases response.take tools.policy.tools.http.maxResponseBytes with
  | error e => rfl
  | ok read =>
      have hnote : (if tools.policy.tools.http.maxResponseBytes ≤ read.length then
          truncatedNote tools.policy.tools.http.maxResponseBytes else "") =
          if decide (tools.policy.tools.http.maxResponseBytes ≤ read.length) then
            truncatedNote tools.policy.tools.http.maxResponseBytes else "" :=
        if_congr decide_eq_true_iff.symm rfl rfl
      exact congrArg (fun note => Except.ok ("HTTP " ++ toString response.status ++ note ++ "\n\n" ++
        Text.fromUtf8Lossy read)) hnote

/-- The mark is right for every body but one that is exactly as long as the limit. -/
theorem fetchedTruthfully_iff (hdirect : response.isRedirection = false) :
    FetchedTruthfully response tools.policy.tools.http.maxResponseBytes (tools.fetched response) ↔
      response.body.length ≠ tools.policy.tools.http.maxResponseBytes := by
  rw [fetched_direct hdirect]
  generalize tools.policy.tools.http.maxResponseBytes = cap
  unfold FetchedTruthfully HttpResponse.take
  by_cases hfull : cap ≤ response.body.length
  · have hlength : (response.body.take cap).length = cap := List.length_take_of_le hfull
    have hmin : min response.body.length cap = cap := Nat.min_eq_right hfull
    rw [if_pos hfull]
    simp only [Except.mapError, Except.map, hlength, le_refl, decide_true, Except.ok.injEq, exists_eq', implies_true,
      true_and, forall_eq', ReportsBody, hmin, fetchText_inj]
    constructor
    · rintro ⟨marked, hmarked, rfl⟩
      exact Nat.ne_of_gt (hmarked.mp rfl)
    · intro hne
      exact ⟨true, iff_of_true rfl (Nat.lt_of_le_of_ne hfull (Ne.symm hne)), rfl⟩
  · have hshort : response.body.length < cap := Nat.not_le.mp hfull
    rw [if_neg hfull]
    refine iff_of_true ?_ (Nat.ne_of_lt hshort)
    cases hread : response.bodyError with
    | some e => simp [HttpResponse.bytes, hread, Except.mapError, Except.map]
    | none =>
        have hmark : decide (cap ≤ response.body.length) = false := decide_eq_false hfull
        simp only [HttpResponse.bytes, hread, Except.mapError, Except.map, hmark, Except.ok.injEq, exists_eq',
          implies_true, true_and, forall_eq']
        refine ⟨false, iff_of_false Bool.false_ne_true (Nat.not_lt.mpr hshort.le), ?_⟩
        rw [Nat.min_eq_left hshort.le, List.take_length]

/-- A fetch that was answered answers with what is made of the response. -/
theorem httpGet_fetched {platform : Platform} {history : History} {input : JsonValue} {url : Url}
    {exchange : Exchange 0}
    (hsent : HostEvent.get url exchange ∈ (tools.httpGet platform history input).2)
    (houtcome : exchange.outcome = .ok response) :
    (tools.httpGet platform history input).1 = tools.fetched response := by
  unfold httpGet at hsent ⊢
  cases hraw : stringArg platform input "url" with
  | error e =>
      rw [hraw] at hsent
      cases hsent
  | ok raw =>
      simp only [hraw] at hsent ⊢
      cases hurl : platform.urlParse raw with
      | error e =>
          rw [hurl] at hsent
          cases hsent
      | ok parsed =>
          simp only [hurl] at hsent ⊢
          split_ifs at hsent ⊢ with hscheme
          · cases hsent
          · cases hhost : parsed.hostStr with
            | none =>
                rw [hhost] at hsent
                cases hsent
            | some host =>
                simp only [hhost] at hsent ⊢
                split_ifs at hsent ⊢ with hallow
                · cases hsent
                · cases hanswer : (tools.http.send history parsed).outcome with
                  | error e =>
                      simp only [hanswer, List.mem_singleton, HostEvent.get.injEq] at hsent
                      obtain ⟨_, rfl⟩ := hsent
                      rw [hanswer] at houtcome
                      cases houtcome
                  | ok found =>
                      simp only [hanswer, List.mem_singleton, HostEvent.get.injEq] at hsent ⊢
                      obtain ⟨_, rfl⟩ := hsent
                      rw [hanswer] at houtcome
                      cases houtcome
                      rfl

end ToolBox

/-- What a fetch reports of a body is true exactly when the body is not as long as the limit, for every response
that is no redirect. -/
theorem fetch_reported_iff (platform : Platform) (tools : ToolBox) (history : History) (input : JsonValue) (url : Url)
    (exchange : Exchange 0) (response : HttpResponse)
    (hsent : HostEvent.get url exchange ∈ (tools.httpGet platform history input).2)
    (houtcome : exchange.outcome = .ok response) (hdirect : response.isRedirection = false) :
    FetchedTruthfully response tools.policy.tools.http.maxResponseBytes (tools.httpGet platform history input).1 ↔
      response.body.length ≠ tools.policy.tools.http.maxResponseBytes := by
  rw [ToolBox.httpGet_fetched hsent houtcome]
  exact ToolBox.fetchedTruthfully_iff hdirect

/-- A page that is five bytes long. -/
def helloResponse : HttpResponse := ⟨200, [], Text.utf8 "hello", none, "hello"⟩

def helloExchange : Exchange 0 := ⟨[], le_rfl, .ok helloResponse⟩

def helloUrl : Url := ⟨"https", some "example.com", "https://example.com/"⟩

def helloPlatform : Platform := .scripted helloUrl (.constant helloExchange) .unreachable

/-- A tool box that may fetch the page, up to this many bytes of it. -/
def helloTools (cap : Nat) : ToolBox :=
  ⟨{ Policy.default with
      tools := { ToolsConfig.default with
        enabled := ["http_get"]
        http := { HttpToolConfig.default with allowedHosts := ["example.com"], maxResponseBytes := cap } } },
    .constant helloExchange, .empty⟩

def helloInput : JsonValue := (Json.obj [("url", .str "https://example.com/")]).toValue

theorem fetch_reported_short :
    FetchedTruthfully helloResponse 4 ((helloTools 4).httpGet helloPlatform [] helloInput).1 :=
  (fetch_reported_iff helloPlatform (helloTools 4) [] helloInput helloUrl helloExchange helloResponse
    (List.mem_singleton.mpr rfl) rfl rfl).mpr (by decide)

theorem fetch_marked_whole :
    ((helloTools 5).httpGet helloPlatform [] helloInput).1 = .ok "HTTP 200 (truncated to 5 bytes)\n\nhello" ∧
      ¬ FetchedTruthfully helloResponse 5 ((helloTools 5).httpGet helloPlatform [] helloInput).1 := by
  have hanswer : ((helloTools 5).httpGet helloPlatform [] helloInput).1 =
      .ok "HTTP 200 (truncated to 5 bytes)\n\nhello" := by
    decide +kernel
  refine ⟨hanswer, fun htruthful => ?_⟩
  obtain ⟨marked, hmarked, htext⟩ := htruthful.2 _ hanswer
  have hsame : fetchText 200 5 true (Text.utf8 "hello") = fetchText 200 5 marked (Text.utf8 "hello") := htext
  have hlong : 5 < (Text.utf8 "hello").length := hmarked.mp (fetchText_inj.mp hsame).symm
  exact absurd hlong (by decide)

end TdsWasm
