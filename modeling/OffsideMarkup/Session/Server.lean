/-
OffsideMarkup.Session.Server — one server and what each message does to it.

The state is a value and every step a function: it takes the server, the time and a message and
gives the server after it with the messages that it sends. A step also sees the messages that are
waiting behind the one it handles, because a request that is taken back by one of those need not be
worked on.

A request that needs the host is not answered in its step. The server asks the host a question,
under a number that it has not used before, and keeps the request pending until the reply, the
deadline or a cancellation settles it; whichever comes first removes it, so it is settled once.

The open questions are kept in a table that is gone over in an order of its own. It is not the order
in which they were asked, and it may be another one after every step. A list stands for the table
together with the order it has at the time (`Server.pending`), and a change of the order is a step
that can come at any time (`Server.reorder`).
-/
import OffsideMarkup.Protocol.Message
import OffsideMarkup.Session.Cache
import OffsideMarkup.Session.Config

namespace OffsideMarkup

/-! ## 1. State -/

/-- A request that waits for the host. -/
structure Forward where
  /-- The number of the question to the host. -/
  number : Nat
  /-- The request that is waiting. -/
  origin : RequestId
  /-- When the host is given up. -/
  deadline : Nat
  question : Question
  deriving DecidableEq, Repr, Inhabited

/-- A server: the open documents, the questions asked so far and those still open, and what is
remembered of the replies. -/
structure Server where
  config : Config
  documents : Table String Analysis
  /-- How many questions have been asked; the last one had this number. -/
  asked : Nat
  /-- The open questions, in the order in which their table is gone over. -/
  pending : List Forward
  cache : Cache
  isShuttingDown : Bool
  deriving Inhabited

namespace Server

/-- A server at the start of a session. -/
def create (config : Config) : Server := ⟨config, .empty, 0, [], .empty, false⟩

/-! ## 2. Questions to the host -/

/-- From now on the open questions are gone over in this order, if it is an order of them. -/
def reorder (s : Server) (pending : List Forward) : Server :=
  if pending.Perm s.pending then { s with pending := pending } else s

/-- Asks the host on behalf of a request. The new question is gone over last until the order
changes. -/
def ask (s : Server) (now : Nat) (origin : RequestId) (question : Question) :
    Server × List ServerMessage :=
  let number := s.asked + 1
  ({ s with
      asked := number
      pending := s.pending ++ [⟨number, origin, now + s.config.forwardTimeout, question⟩] },
    [.question number question])

/-- What is offered where the host has been asked: what the place offers by itself, and what fits of
the list of the host, if there is one. -/
def offers (offered : List Modifier) (target : Target) (list : Option HostList) : Answer :=
  .completion (list.elim false (·.isIncomplete))
    (offered.map .modifier ++ list.elim [] fun l => (target.select l).items.map .host)

/-- Settles a request that has been waiting, with the result of the host if there is one. A list is
kept for later, whatever becomes of the document. -/
def settle (s : Server) (now : Nat) (f : Forward) (result : Option Json) :
    Server × List ServerMessage :=
  match f.question with
  | .completion offered target =>
    let list := result.bind HostList.ofJson?
    ({ s with cache := list.elim s.cache (s.cache.store now target) },
      [.answer f.origin (offers offered target list)])
  | .hover _ =>
    (s, [.answer f.origin ((result.bind HostHover.ofJson?).elim .nothing .hostHover)])

/-- The server without a pending request. -/
def forget (s : Server) (f : Forward) : Server :=
  { s with pending := s.pending.filter (·.number != f.number) }

/-- Takes the reply of the host to a question. A reply to anything else is passed over. -/
def resume (s : Server) (now : Nat) (id : RequestId) (reply : HostReply) :
    Server × List ServerMessage :=
  match s.pending.find? fun f => id = .number f.number with
  | some f => (s.forget f).settle now f (reply.result?)
  | none => (s, [])

/-- Settles requests in this order, without a result. -/
def settleAll (s : Server) (now : Nat) : List Forward → Server × List ServerMessage
  | [] => (s, [])
  | f :: fs =>
    let first := (s.forget f).settle now f none
    let others := first.1.settleAll now fs
    (others.1, first.2 ++ others.2)

/-- Gives up the questions whose deadline has come. -/
def expire (s : Server) (now : Nat) : Server × List ServerMessage :=
  s.settleAll now (s.pending.filter (·.deadline ≤ now))

/-- Takes back a question asked on behalf of a request, the first one that is come by. -/
def cancel (s : Server) (id : RequestId) : Server × List ServerMessage :=
  match s.pending.find? (·.origin = id) with
  | some f => (s.forget f, [.withdrawal f.number, .refusal id (.fault .requestCancelled)])
  | none => (s, [])

/-! ## 3. Requests -/

/-- The message that answers a request or says why it is not answered. -/
def reply (id : RequestId) : Except Fault Answer → ServerMessage
  | .ok a => .answer id a
  | .error f => .refusal id (.fault f)

/-- Carries on with a document, if it is open. -/
def withDocument (s : Server) (id : RequestId) (uri : String)
    (next : Analysis → Server × List ServerMessage) : Server × List ServerMessage :=
  match s.documents.get? uri with
  | some a => next a
  | none => (s, [reply id (.error .documentNotFound)])

/-- Offers what fits at a position, from the catalogue, from what is remembered or by asking the
host. -/
def complete (s : Server) (now : Nat) (id : RequestId) (a : Analysis) (p : Position) :
    Server × List ServerMessage :=
  let offered := a.tree.modifiersAt p
  match a.tree.targetAt? p with
  | none => (s, [.answer id (.completion false (offered.map .modifier))])
  | some target =>
    match s.cache.get? s.config.tagLifetimeMillis now target with
    | some list => (s, [.answer id (offers offered target (some list))])
    | none => s.ask now id (.completion offered target)

/-- Shows what is known about a position, or asks the host. -/
def explain (s : Server) (now : Nat) (id : RequestId) (a : Analysis) (p : Position) :
    Server × List ServerMessage :=
  match a.tree.hoverAt? p with
  | none => (s, [.answer id .nothing])
  | some (.modifier m) => (s, [.answer id (.modifierHover m)])
  | some (.ask fragment) => s.ask now id (.hover fragment)

/-- Does what a request asks. `cancelled` says that it has been taken back already, which not every
kind of request looks at. -/
def serve (s : Server) (now : Nat) (cancelled : Bool) (id : RequestId) :
    Request → Server × List ServerMessage
  | .shutdown => ({ s with isShuttingDown := true }, [.answer id .nothing])
  | .folds uri => s.withDocument id uri fun a =>
    let (result, a) := a.foldsUnless cancelled
    ({ s with documents := s.documents.insert uri a }, [reply id (result.map .folds)])
  | .symbols uri => s.withDocument id uri fun a =>
    (s, [reply id ((a.symbolsUnless cancelled).map .symbols)])
  | .highlights uri => s.withDocument id uri fun a =>
    (s, [reply id ((a.highlightsUnless cancelled).map .highlights)])
  | .completion uri p => s.withDocument id uri fun a => s.complete now id a p
  | .hover uri p => s.withDocument id uri fun a => s.explain now id a p
  | .keyHints uri => s.withDocument id uri fun a => (s, [.answer id (.keyHints a.tree.keyHints)])

/-- Handles a request, unless the server is shutting down or the request means nothing. -/
def answer (s : Server) (now : Nat) (cancelled : Bool) (id : RequestId)
    (body : Except Refusal Request) : Server × List ServerMessage :=
  if s.isShuttingDown then (s, [.refusal id .shuttingDown])
  else
    match body with
    | .error r => (s, [.refusal id r])
    | .ok request => s.serve now cancelled id request

/-! ## 4. Notifications -/

/-- Keeps a document and publishes what was found in it. -/
def keep (s : Server) (uri : String) (a : Analysis) : Server × List ServerMessage :=
  ({ s with documents := s.documents.insert uri a },
    [.diagnostics uri (some a.document.version) a.tree.diagnostics])

/-- Takes notice of what the editor tells. -/
def notice (s : Server) : Notification → Server × List ServerMessage
  | .opened uri language version text =>
    s.keep uri (.create (.create uri language version text))
  | .changed uri version changes =>
    match s.documents.get? uri with
    | some a => s.keep uri (a.update changes version)
    | none => (s, [])
  | .closed uri =>
    ({ s with documents := s.documents.erase uri }, [.diagnostics uri none []])
  | .cancelled id => s.cancel id
  | .exit => (s, [])

/-! ## 5. Messages -/

/-- Among the messages there is one that takes the request back. -/
def isTakenBack (id : RequestId) (messages : List ClientMessage) : Bool :=
  messages.any fun
    | .notification (some (.cancelled other)) => other = id
    | _ => false

/-- Handles a message; `waiting` are the messages behind it. -/
def handle (s : Server) (now : Nat) (waiting : List ClientMessage) :
    ClientMessage → Server × List ServerMessage
  | .request id body => s.answer now (isTakenBack id waiting) id body
  | .response id reply => s.resume now id reply
  | .notification none => (s, [])
  | .notification (some n) => if s.isShuttingDown then (s, []) else s.notice n

end Server

end OffsideMarkup
