/-
OffsideMarkup.Session.Run — a whole session.

Messages come in batches; those of a batch are handled in order, each with the later ones of the
batch in sight. Between two batches the clock may tick, which gives up what has waited too long, and
the table of open questions may come to be gone over in another order. A session ends when the
editor says so, and what was waiting behind that message is not handled.
-/
import OffsideMarkup.Session.Server

namespace OffsideMarkup

/-- A server that may have come to its end. -/
structure Session where
  server : Server
  isClosed : Bool
  deriving Inhabited

/-- What happens to a session. -/
inductive Event
  | batch (now : Nat) (messages : List ClientMessage)
  | tick (now : Nat)
  | reorder (pending : List Forward)
  deriving Inhabited

/-- The message that ends a session. -/
def ClientMessage.isExit : ClientMessage → Bool
  | .notification (some .exit) => true
  | _ => false

namespace Session

/-- A session that has just been opened. -/
def create (config : Config) : Session := ⟨.create config, false⟩

/-- Handles messages in order, up to the one that ends the session. -/
def handleAll (s : Server) (now : Nat) : List ClientMessage → Session × List ServerMessage
  | [] => (⟨s, false⟩, [])
  | m :: later =>
    if m.isExit then (⟨s, true⟩, [])
    else
      let first := s.handle now later m
      let others := handleAll first.1 now later
      (others.1, first.2 ++ others.2)

/-- The session after an event, and the messages that the server sends. -/
def step (s : Session) (e : Event) : Session × List ServerMessage :=
  if s.isClosed then (s, [])
  else
    match e with
    | .batch now messages => handleAll s.server now messages
    | .tick now => let after := s.server.expire now; (⟨after.1, false⟩, after.2)
    | .reorder pending => (⟨s.server.reorder pending, false⟩, [])

/-- The session after some events, and all messages that the server sends. -/
def run (s : Session) : List Event → Session × List ServerMessage
  | [] => (s, [])
  | e :: events =>
    let first := s.step e
    let others := first.1.run events
    (others.1, first.2 ++ others.2)

end Session

end OffsideMarkup
