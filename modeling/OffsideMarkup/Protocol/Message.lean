/-
OffsideMarkup.Protocol.Message — the messages between the editor and the server.

The editor sends requests, notifications, and responses to what the server asks of it on its own
account; the server sends answers and refusals to requests, questions for the host and their
withdrawal, and the diagnostics of documents. A message with an identifier and a method is a
request, one with an identifier alone a response, one with a method alone a notification.
-/
import OffsideMarkup.Protocol.Feature
import OffsideMarkup.Protocol.HostAnswer
import OffsideMarkup.Protocol.Request

namespace OffsideMarkup

/-! ## 1. From the editor -/

/-- How the host replies to a question. What it says about a failure changes nothing. -/
inductive HostReply
  | failure (report : Json)
  | result (value : Json)
  deriving Repr, Inhabited

/-- The result in a reply, if the host did not fail. -/
def HostReply.result? : HostReply → Option Json
  | .failure _ => none
  | .result value => some value

/-- A message from the editor. -/
inductive ClientMessage
  | request (id : RequestId) (body : Except Refusal Request)
  | response (id : RequestId) (reply : HostReply)
  /-- A notification that means nothing to the server has no body. -/
  | notification (body : Option Notification)
  deriving Inhabited

namespace ClientMessage

/-- The reply in a response. An error of any form is a failure, even beside a result; a response
with neither has the result null. -/
def replyOf (j : Json) : HostReply :=
  match (j.get? "error").getD .null with
  | .null => .result ((j.get? "result").getD .null)
  | report => .failure report

/-- The message of a JSON value. -/
def ofJson? (j : Json) : Option ClientMessage :=
  let params := (j.get? "params").getD .null
  match (j.get? "id").bind RequestId.ofJson?, (j.get? "method").bind Json.str? with
  | some id, some method => some (.request id (Request.read method params))
  | some id, none => some (.response id (replyOf j))
  | none, some method => some (.notification (Notification.read? method params))
  | none, none => none

end ClientMessage

/-! ## 2. From the server -/

/-- What is offered at a place. -/
inductive Offer
  | modifier (m : Modifier)
  | host (item : HostItem)
  deriving Repr, Inhabited

def Offer.toJson : Offer → Json
  | .modifier m => m.itemJson
  | .host item => item.toJson

/-- What answers a request. -/
inductive Answer
  | nothing
  | folds (fs : List Fold)
  | symbols (ss : List Symbol)
  | highlights (hs : List RelativeHighlight)
  | keyHints (hs : List KeyHint)
  | completion (isIncomplete : Bool) (offers : List Offer)
  | modifierHover (m : Modifier)
  | hostHover (h : HostHover)
  deriving Repr, Inhabited

def Answer.toJson : Answer → Json
  | .nothing => .null
  | .folds fs => .arr (fs.map Fold.toJson)
  | .symbols ss => .arr (Symbol.listJson ss)
  | .highlights hs => .obj [("data", .arr (hs.flatMap fun h => h.numbers.map .nat))]
  | .keyHints hs => .arr (hs.map KeyHint.toJson)
  | .completion isIncomplete offers =>
    .obj [("isIncomplete", .bool isIncomplete), ("items", .arr (offers.map Offer.toJson))]
  | .modifierHover m => m.hoverJson
  | .hostHover h => .obj [("contents", h.contents)]

/-- What the host is asked. Of a place that has offers of its own these are kept until the host's
come in. -/
inductive Question
  | completion (offered : List Modifier) (target : Target)
  | hover (fragment : Fragment)
  deriving DecidableEq, Repr, Inhabited

namespace Question

def method : Question → String
  | completion _ _ => "requestCompletionFrom"
  | hover _ => "requestHoverInfoFrom"

/-- The language, the text and the position in it. -/
def fragmentJson (f : Fragment) : List Json :=
  [.str f.language.name, .text f.source, f.position.toJson]

/-- A list of arguments, as the only item of an array. -/
def paramsJson : Question → Json
  | completion _ target =>
    .arr [.arr (fragmentJson target.fragment ++ [.orNull (target.itemKind?.map .nat)])]
  | hover fragment => .arr [.arr (fragmentJson fragment)]

end Question

/-- A diagnostic of a document as editors show it. -/
def Diagnostic.toJson (uri : String) (d : Diagnostic) : Json :=
  let related := d.related.map fun r =>
    Json.obj [("location", .obj [("uri", .str uri), ("range", r.region.toJson)]),
      ("message", .str r.note)]
  .obj ([("range", d.region.toJson), ("severity", .nat d.severity.number), ("code", .nat d.code),
      ("source", .str "efml"), ("message", .str d.text)]
    ++ Json.field? "relatedInformation" (if related.isEmpty then none else some (.arr related)))

/-- A message from the server. -/
inductive ServerMessage
  | answer (id : RequestId) (a : Answer)
  | refusal (id : RequestId) (r : Refusal)
  | question (number : Nat) (q : Question)
  /-- The answer to a question is no longer wanted. -/
  | withdrawal (number : Nat)
  | diagnostics (uri : String) (version : Option Int) (ds : List Diagnostic)
  deriving Repr, Inhabited

namespace ServerMessage

def toJson : ServerMessage → Json
  | answer id a => .obj [("id", id.toJson), ("result", a.toJson)]
  | refusal id r =>
    .obj [("id", id.toJson),
      ("error", .obj [("code", .num r.code), ("message", .str r.message)])]
  | question number q =>
    .obj [("id", .nat number), ("method", .str q.method), ("params", q.paramsJson)]
  | withdrawal number =>
    .obj [("method", .str "$/cancelRequest"), ("params", .obj [("id", .nat number)])]
  | diagnostics uri version ds =>
    .obj [("method", .str "textDocument/publishDiagnostics"),
      ("params", .obj ([("uri", .str uri), ("diagnostics", .arr (ds.map (Diagnostic.toJson uri)))]
        ++ Json.field? "version" (version.map .num)))]

/-- The request that a message settles. -/
def settles? : ServerMessage → Option RequestId
  | answer id _ | refusal id _ => some id
  | _ => none

end ServerMessage

end OffsideMarkup
