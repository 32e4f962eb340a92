import CodeAtlas.Advice.Suggestion
import CodeAtlas.Json.Reader
import CodeAtlas.Text.Utf8
import CodeAtlas.Web.Request

/-!
# Text providers

Text is asked of a local or a hosted model. Each kind of provider has its own form of request and
puts the text at its own place of the answer. A provider that cannot be reached, or whose answer
is no JSON, gives nothing; an answer of an unforeseen form may fail.
-/

namespace CodeAtlas

/-- The providers of text. -/
inductive ProviderKind where
  | ollama
  | openai
  | anthropic
deriving DecidableEq

namespace ProviderKind

/-- What a provider is called. -/
def name : ProviderKind → String
  | .ollama => "ollama"
  | .openai => "openai"
  | .anthropic => "anthropic"

/-- All providers. -/
def all : List ProviderKind := [.ollama, .openai, .anthropic]

/-- The provider of a name. -/
def ofName? (name : String) : Option ProviderKind := all.find? (·.name == name)

/-- The model asked if none is chosen. -/
def defaultModel : ProviderKind → String
  | .ollama => "qwen2.5-coder:7b"
  | .openai => "gpt-4"
  | .anthropic => "claude-3-5-sonnet-20241022"

/-- The address asked if none is chosen. -/
def defaultEndpoint : ProviderKind → String
  | .ollama => "http://127.0.0.1:11434/api/generate"
  | .openai => "https://api.openai.com/v1/chat/completions"
  | .anthropic => "https://api.anthropic.com/v1/messages"

end ProviderKind

/-- What is chosen of a provider; an empty text leaves the choice open. -/
structure ProviderSettings where
  provider : String
  model : String
  apiKey : String
  endpoint : String

/-- The settings in use before any are chosen. -/
def ProviderSettings.initial : ProviderSettings where
  provider := ProviderKind.ollama.name
  model := ProviderKind.ollama.defaultModel
  apiKey := ""
  endpoint := ProviderKind.ollama.defaultEndpoint

/-- The text, or another one if it is empty. -/
def filledOr (s otherwise : String) : String := if s.isEmpty then otherwise else s

/-- The chosen settings, filled up from others. -/
def ProviderSettings.over (chosen base : ProviderSettings) : ProviderSettings where
  provider := filledOr chosen.provider base.provider
  model := filledOr chosen.model base.model
  apiKey := filledOr chosen.apiKey base.apiKey
  endpoint := filledOr chosen.endpoint base.endpoint

/-- A provider as it is asked. -/
structure TextProvider where
  kind : ProviderKind
  model : String
  apiKey : String
  endpoint : String

/-- Why a prompt brings no answer. -/
inductive ProviderError where
  /-- The endpoint is no address. -/
  | badAddress
  /-- The request is refused as it stands. -/
  | refused
  /-- The answer is not encoded as text. -/
  | notText
  /-- A whole number in the answer has too many digits. -/
  | longNumber
  /-- The answer is nested too deeply. -/
  | tooDeep
  /-- The answer is not an object. -/
  | notObject
  /-- What is given for the text is something else. -/
  | notWords
deriving DecidableEq

/-- What comes back from a provider. -/
inductive ProviderReply where
  | body (bytes : List UInt8)
  /-- The provider is not reached, or not in time. -/
  | unreachable
  | refused

/-- The replies to come, and the requests sent. -/
structure Exchange where
  replies : List ProviderReply
  sent : List WebRequest

/-- A request and its reply; once none is left, no one is reached. -/
def Exchange.send (x : Exchange) (r : WebRequest) : ProviderReply × Exchange :=
  (x.replies.headD .unreachable, ⟨x.replies.tail, x.sent ++ [r]⟩)

namespace TextProvider

/-- The provider that settings choose; a hosted address takes the place of a local one. -/
def ofSettings (s : ProviderSettings) : TextProvider :=
  let kind := (ProviderKind.ofName? (Text.lower s.provider)).getD .ollama
  let model := if s.model == ProviderKind.ollama.defaultModel then kind.defaultModel else s.model
  let endpoint := match kind with
    | .ollama => s.endpoint
    | .openai =>
      if s.endpoint.isEmpty || s.endpoint == ProviderKind.ollama.defaultEndpoint then
        kind.defaultEndpoint
      else s.endpoint
    | .anthropic => kind.defaultEndpoint
  ⟨kind, model, s.apiKey, endpoint⟩

/-- The prompt as the message of a user. -/
def userMessage (prompt : String) : Json :=
  .arr [.obj [("role", .str "user"), ("content", .str prompt)]]

/-- What is posted for a prompt. -/
def payload (p : TextProvider) (prompt : String) : Json :=
  match p.kind with
  | .ollama =>
    .obj
      [("model", .str p.model), ("prompt", .str prompt), ("stream", .bool false),
        ("options", .obj [("temperature", .float 0.1)])]
  | .openai =>
    .obj
      [("model", .str p.model), ("messages", userMessage prompt), ("temperature", .float 0.1),
        ("max_tokens", .int 1024)]
  | .anthropic =>
    .obj
      [("model", .str p.model), ("messages", userMessage prompt), ("max_tokens", .int 1024),
        ("temperature", .float 0.1)]

/-- The headers of a request. -/
def headers (p : TextProvider) : Table String String :=
  match p.kind with
  | .ollama => [jsonHeader]
  | .openai => [jsonHeader, bearerHeader p.apiKey]
  | .anthropic => [jsonHeader, ("x-api-key", p.apiKey), ("anthropic-version", "2023-06-01")]

/-- A hosted provider is asked only with a key. -/
def isReady (p : TextProvider) : Bool := p.kind == .ollama || !p.apiKey.isEmpty

/-- The request for a prompt; none if the endpoint is no address. -/
def request? (p : TextProvider) (prompt : String) : Option WebRequest :=
  (webAddress? p.endpoint).map fun url => ⟨url, p.payload prompt, p.headers, .whole 30⟩

/-- The JSON value of a reply; none if there is no such reply. -/
def decode (reply : ProviderReply) : Except ProviderError (Option Json) :=
  match reply with
  | .unreachable => .ok none
  | .refused => .error .refused
  | .body bytes =>
    match Utf8.strict? bytes with
    | none => .error .notText
    | some text =>
      match Json.parse text with
      | .ok value => .ok (some value)
      | .error .malformed => .ok none
      | .error .longNumber => .error .longNumber
      | .error .tooDeep => .error .tooDeep

/-- What stands in the place of the text. -/
def textOf (kind : ProviderKind) (answer : Json) : Except ProviderError Json :=
  match kind with
  | .ollama =>
    match answer with
    | .obj members => .ok ((Table.get? members "response").getD .null)
    | _ => if answer.isVoid then .ok .null else .error .notObject
  | .openai =>
    .ok (((((answer.get? "choices").bind Json.first?).bind (Json.get? "message")).bind
      (Json.get? "content")).getD .null)
  | .anthropic =>
    .ok ((((answer.get? "content").bind Json.first?).bind (Json.get? "text")).getD .null)

/-- What a reply has for a text; nothing if it is none or empty. -/
def read (kind : ProviderKind) (reply : ProviderReply) : Except ProviderError Json := do
  match ← decode reply with
  | none => return .null
  | some answer => textOf kind answer

/-- The answer to a prompt, and the exchange after it. -/
def generate (p : TextProvider) (prompt : String) (x : Exchange) :
    Except ProviderError Json × Exchange :=
  if p.isReady then
    match p.request? prompt with
    | none => (.error .badAddress, x)
    | some request =>
      let (reply, x) := x.send request
      (read p.kind reply, x)
  else (.ok .null, x)

/-- The words of an answer, if there are any. -/
def words : Json → Except ProviderError (Option String)
  | .str s => .ok (if s.isEmpty then none else some (Text.trim s))
  | value => if value.isVoid then .ok none else .error .notWords

/-- The words that a prompt brings. -/
def suggest (p : TextProvider) (prompt : String) (x : Exchange) :
    Except ProviderError (Option String) × Exchange :=
  let (answer, x) := p.generate prompt x
  (answer.bind words, x)

/-- The provider as a service of advice. -/
def service (p : TextProvider) : AdviceService Exchange := fun prompt x =>
  match p.suggest prompt x with
  | (.ok (some words), x) => (.text words, x)
  | (.ok none, x) => (.nothing, x)
  | (.error _, x) => (.failed, x)

end TextProvider

end CodeAtlas
