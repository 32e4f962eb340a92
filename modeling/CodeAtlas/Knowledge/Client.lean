import CodeAtlas.Json.Writer
import CodeAtlas.Number.Numeral
import CodeAtlas.Sorting
import CodeAtlas.Web.Request

/-!
# Knowledge

A knowledge source answers searches in plain words with ranked hits. What it knows of a hit beside
its content has no fixed form.
-/

namespace CodeAtlas

/-- What a knowledge source is asked. -/
structure Search where
  query : String
  limit : Int
  domain : Option String
deriving Inhabited

/-- What a knowledge source finds. -/
structure Hit where
  score : Amount
  content : Json := .str ""
  details : Option Members
  id : String := ""
deriving Inhabited

/-- Why a search fails. -/
inductive SearchFault where
  /-- The source cannot be asked. -/
  | unavailable (message : String)
  /-- The source fails in another way. -/
  | crashed
deriving DecidableEq

/-- What answers searches. -/
abbrev KnowledgeSource : Type := Search → Except SearchFault (List Hit)

/-- The detail of a name. -/
def Hit.detail? (h : Hit) (name : String) : Option Json := h.details.bind (Table.get? · name)

/-! ## Knowledge over the web

A service answers with memories, documents and entities, which become hits, the highest score first.
A whole number too large for a score fails the search, and so does an answer that is nested too
deeply. -/

/-- A source behind a web service. -/
structure KnowledgeClient where
  endpoint : String
  apiKey : String := ""
  timeout : Amount := .real 20

/-- The client for an endpoint; none if it is empty. -/
def KnowledgeClient.configured? (endpoint apiKey : String) : Option KnowledgeClient :=
  if endpoint.isEmpty then none else some { endpoint := endpoint, apiKey := apiKey }

/-- The request of a search. -/
def KnowledgeClient.request (c : KnowledgeClient) (s : Search) : WebRequest where
  url := Text.dropTrailing (· == '/') c.endpoint ++ "/graphrag/api/search"
  payload := .obj ([("query", .str s.query), ("limit", .int s.limit)] ++
    match s.domain.filter (!·.isEmpty) with
    | some domain => [("filters", .obj [("domain", .str domain)])]
    | none => [])
  headers := jsonHeader :: if c.apiKey.isEmpty then [] else [bearerHeader c.apiKey]
  timeout := c.timeout

/-- What comes back from a service. -/
inductive KnowledgeReply where
  | payload (value : Json)
  /-- There is no answer, or it is no JSON text. -/
  | failed (message : String)
  /-- Reading the answer breaks off, as it does if the answer is nested too deeply. -/
  | brokenOff

/-- Why a service gives no hits. -/
inductive ClientError where
  /-- The service cannot be asked. -/
  | failed (message : String)
  /-- The answer is no object. -/
  | unexpected
  | scoreTooLarge
  /-- Reading the answer broke off. -/
  | brokenOff
deriving DecidableEq

namespace ClientError

/-- The error in words. -/
def message : ClientError → String
  | .failed message => "Knowledge search failed: " ++ message
  | .unexpected => "Knowledge search returned an unexpected payload"
  | .scoreTooLarge | .brokenOff => ""

/-- What the error is to a search. -/
def fault : ClientError → SearchFault
  | .scoreTooLarge | .brokenOff => .crashed
  | e => .unavailable e.message

end ClientError

/-! ## Hits in an answer -/

/-- The kinds of hits. -/
inductive HitKind where
  | memory
  | document
  | entity
deriving DecidableEq

namespace HitKind

/-- The name of a kind. -/
def name : HitKind → String
  | .memory => "memory"
  | .document => "document"
  | .entity => "entity"

/-- Where hits of a kind are listed. -/
def listed : HitKind → String
  | .memory => "memories"
  | .document => "documents"
  | .entity => "entities"

end HitKind

/-- The first of the members that does not count as absent. -/
def firstFilled (item : Members) (names : List String) (otherwise : Json) : Json :=
  ((names.filterMap (Table.get? item)).find? (!·.isVoid)).getD otherwise

/-- The number that a value gives as a score; none if it gives no number. -/
def readScore : Json → Except ClientError (Option Float)
  | .int n => if (nearestWhole n).isInf then .error .scoreTooLarge else .ok (some (nearestWhole n))
  | .float x => .ok (some x)
  | .bool b => .ok (some (if b then 1 else 0))
  | .str s => .ok (readFloat? s)
  | _ => .ok none

/-- The details of an item. -/
def itemDetails (kind : HitKind) (item : Members) : Members :=
  let own := (Table.get? item "metadata").bind Json.members? |>.getD []
  match kind with
  | .memory => [("type", .str kind.name), ("tags", firstFilled item ["tags"] (.arr []))]
  | .document => Table.update [("type", .str kind.name)] own
  | .entity =>
    Table.update
      [("type", .str kind.name), ("entity_type", (Table.get? item "entity_type").getD .null)] own

/-- The hit of an item. -/
def itemHit (kind : HitKind) (item : Members) (score : Float) : Hit where
  score := .real score
  content := firstFilled item ["content", "text", "name"] (.str "")
  details := some (itemDetails kind item)
  id := ((Table.get? item "id").map Json.display).getD ""

/-- The hit that a value stands for, if it has a score. -/
def readHit (kind : HitKind) (value : Json) : Except ClientError (Option Hit) := do
  match value with
  | .obj item =>
    let score ← readScore (firstFilled item ["relevance", "score"] (.int 0))
    return score.map (itemHit kind item)
  | _ => return none

/-- The hits of a kind in an answer. -/
def hitsOfKind (answer : Members) (kind : HitKind) : Except ClientError (List Hit) := do
  let values := (Table.get? answer kind.listed).bind Json.items? |>.getD []
  return (← values.mapM (readHit kind)).reduceOption

/-- The hits in an answer, ranked by their scores, the highest first. -/
def readHits : Json → Except ClientError (List Hit)
  | .obj answer => do
    let found ← [HitKind.memory, .document, .entity].mapM (hitsOfKind answer)
    return Sorting.ranked (fun a b => a.score.below b.score) found.flatten
  | _ => .error .unexpected

namespace KnowledgeClient

/-- The hits in a reply. -/
def search (reply : KnowledgeReply) : Except ClientError (List Hit) :=
  match reply with
  | .payload value => readHits value
  | .failed message => .error (.failed message)
  | .brokenOff => .error .brokenOff

/-- The client as a source. -/
def source (c : KnowledgeClient) (service : WebRequest → KnowledgeReply) : KnowledgeSource :=
  fun s => (search (service (c.request s))).mapError ClientError.fault

end KnowledgeClient

/-- The hit as a record. -/
def Hit.record (h : Hit) : Json :=
  .record
    [("score", .ofAmount h.score), ("content", h.content),
      ("metadata", .ofOption .obj h.details), ("id", .str h.id)]

end CodeAtlas
