/-
OffsideMarkup.Protocol.Request — what an editor asks for and tells.

A request has a method and parameters, and both have to be known for it to mean anything; what is
wrong with one that means nothing is a `Refusal`. A notification that means nothing is simply passed
over, since no answer to it is expected.
-/
import OffsideMarkup.Document
import OffsideMarkup.Editor.Fault
import OffsideMarkup.Protocol.Shape

namespace OffsideMarkup

/-! ## 1. Identifiers and refusals -/

/-- What a request is called by the one who makes it. A number and a text of its digits differ. -/
inductive RequestId
  | number (n : Int)
  | text (s : String)
  deriving DecidableEq, Repr, Inhabited

def RequestId.toJson : RequestId → Json
  | .number n => .num n
  | .text s => .str s

def RequestId.ofJson? (j : Json) : Option RequestId :=
  match Shape.token.read? j with
  | some (.num n) => some (.number n)
  | some (.str s) => some (.text s)
  | _ => none

/-- Why a request is not answered. -/
inductive Refusal
  | fault (f : Fault)
  | shuttingDown
  | unknownMethod
  | invalidParams (method : String)
  deriving DecidableEq, Repr, Inhabited

def Refusal.code : Refusal → Int
  | .fault f => .ofNat f.code
  | .shuttingDown => -32600
  | .unknownMethod => -32601
  | .invalidParams _ => -32602

def Refusal.message : Refusal → String
  | .fault f => f.message
  | .shuttingDown => "shutdown already requested"
  | .unknownMethod => "unknown request"
  | .invalidParams method => "Failed to deserialize " ++ method

/-! ## 2. Requests -/

/-- What an editor asks for. -/
inductive Request
  | shutdown
  | folds (uri : String)
  | symbols (uri : String)
  | highlights (uri : String)
  | completion (uri : String) (position : Position)
  | hover (uri : String) (position : Position)
  | keyHints (uri : String)
  deriving DecidableEq, Repr, Inhabited

/-- The document that plain parameters name. -/
def uriOf? (params : Json) : Option String := do
  (← (← params.get? "textDocument").get? "uri").str?

/-- The position that plain parameters name. -/
def positionOf? (params : Json) : Option Position := do
  Position.ofPlain? (← params.get? "position")

namespace Request

/-- Parameters that name a document, by themselves. -/
def documentShape : Shape := .record true [("textDocument", true, .identifier)]

/-- Fields for the progress of a request, in parameters that share their object with them. -/
def progressFields : List (String × Bool × Shape) :=
  [("workDoneToken", false, .token), ("partialResultToken", false, .token)]

/-- Parameters that name a document, among those for progress. -/
def wholeShape : Shape := .record false (("textDocument", true, .identifier) :: progressFields)

def completionShape : Shape :=
  .record false
    ([("textDocument", true, .identifier), ("position", true, .position),
        ("context", false,
          .record true [("triggerKind", true, .signed), ("triggerCharacter", false, .text)])]
      ++ progressFields)

/-- A hover comes all at once, so there is no token for a part of it. -/
def hoverShape : Shape :=
  .record false
    [("textDocument", true, .identifier), ("position", true, .position),
      ("workDoneToken", false, .token)]

/-- The only argument of a list of arguments, which is the only item of an array. -/
def soleArgument? : Json → Option Json
  | .arr [.arr [argument]] => some argument
  | _ => none

/-- The methods, each with how its parameters are understood. -/
def methods : List (String × (Json → Option Request)) :=
  [("shutdown", fun params => if params.isNull then some .shutdown else none),
   ("textDocument/foldingRange", fun params => do
      return .folds (← uriOf? (← wholeShape.read? params))),
   ("textDocument/documentSymbol", fun params => do
      return .symbols (← uriOf? (← wholeShape.read? params))),
   ("textDocument/semanticTokens/full", fun params => do
      return .highlights (← uriOf? (← wholeShape.read? params))),
   ("textDocument/completion", fun params => do
      let plain ← completionShape.read? params
      return .completion (← uriOf? plain) (← positionOf? plain)),
   ("textDocument/hover", fun params => do
      let plain ← hoverShape.read? params
      return .hover (← uriOf? plain) (← positionOf? plain)),
   ("onUnstableInlayHints", fun params => do
      return .keyHints (← uriOf? (← documentShape.read? (← soleArgument? params))))]

/-- The request that a method and its parameters make. -/
def read (method : String) (params : Json) : Except Refusal Request :=
  match methods.lookup method with
  | none => .error .unknownMethod
  | some understand =>
    match understand params with
    | some request => .ok request
    | none => .error (.invalidParams method)

end Request

/-! ## 3. Notifications -/

/-- What an editor tells. -/
inductive Notification
  | opened (uri language : String) (version : Int) (text : List Char)
  | changed (uri : String) (version : Int) (changes : List Change)
  | closed (uri : String)
  /-- The answer to a request is no longer wanted. -/
  | cancelled (id : RequestId)
  | exit
  deriving DecidableEq, Repr, Inhabited

namespace Notification

def openedShape : Shape :=
  .record true
    [("textDocument", true,
      .record true
        [("uri", true, .reference), ("languageId", true, .text), ("version", true, .signed),
          ("text", true, .text)])]

def changedShape : Shape :=
  .record true
    [("textDocument", true,
        .record true [("uri", true, .reference), ("version", true, .signed)]),
      ("contentChanges", true,
        .list (.record true
          [("range", false, .region), ("rangeLength", false, .unsigned), ("text", true, .text)]))]

def cancelledShape : Shape := .record true [("id", true, .token)]

/-- A change in plain form. -/
def changeOf? (j : Json) : Option Change := do
  let text ← (← j.get? "text").str?
  match j.get? "range" with
  | some region => return ⟨some (← Region.ofPlain? region), text.toList⟩
  | none => return ⟨none, text.toList⟩

/-- The methods, each with how its parameters are understood. -/
def methods : List (String × (Json → Option Notification)) :=
  [("textDocument/didOpen", fun params => do
      let document ← (← openedShape.read? params).get? "textDocument"
      return .opened (← (← document.get? "uri").str?) (← (← document.get? "languageId").str?)
        (← (← document.get? "version").int?) (← (← document.get? "text").str?).toList),
   ("textDocument/didChange", fun params => do
      let plain ← changedShape.read? params
      let document ← plain.get? "textDocument"
      let changes ← (← plain.get? "contentChanges").arr?
      return .changed (← (← document.get? "uri").str?) (← (← document.get? "version").int?)
        (← changes.mapM changeOf?)),
   ("textDocument/didClose", fun params => do
      return .closed (← uriOf? (← Request.documentShape.read? params))),
   ("$/cancelRequest", fun params => do
      return .cancelled (← RequestId.ofJson? (← (← cancelledShape.read? params).get? "id"))),
   ("exit", fun _ => some .exit)]

/-- The notification that a method and its parameters make, if they make any. -/
def read? (method : String) (params : Json) : Option Notification :=
  (methods.lookup method).bind fun understand => understand params

end Notification

end OffsideMarkup
