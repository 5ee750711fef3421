/-
OffsideMarkup.Protocol.Capabilities — how the server introduces itself.

What it can do is fixed: edits are sent as changes, modifiers are offered behind a dot, and pieces
of text are told apart for whole documents only.
-/
import OffsideMarkup.Protocol.Feature

namespace OffsideMarkup

/-- Documents are kept up to date by sending what has changed in them. -/
def incrementalSync : Nat := 2

def capabilities : Json :=
  .obj
    [("textDocumentSync", .nat incrementalSync),
      ("foldingRangeProvider", .bool true),
      ("documentSymbolProvider", .bool true),
      ("hoverProvider", .bool true),
      ("completionProvider", .obj [("triggerCharacters", .arr [.str "."])]),
      ("semanticTokensProvider",
        .obj
          [("legend", Meaning.legendJson), ("range", .bool false), ("full", .bool true)])]

/-- What answers the request by which an editor opens a session. -/
def introduction : Json :=
  .obj
    [("capabilities", capabilities),
      ("serverInfo", .obj [("name", .str "efml"), ("version", .str "0.1.0")])]

end OffsideMarkup
