/-
OffsideMarkup.Session.Config — how long a server waits and how long it remembers.

An editor may set both when it opens a session. Options that are not understood as a whole are not
used at all, so a session never runs with half of them.
-/
import OffsideMarkup.Json.Basic
import OffsideMarkup.Text.Number

namespace OffsideMarkup

/-- Milliseconds until a question to the host is given up, and seconds for which the host's list of
tags is kept. -/
structure Config where
  forwardTimeout : Nat
  tagLifetime : Nat
  deriving DecidableEq, Repr, Inhabited

namespace Config

/-- Five seconds, and half an hour. -/
def standard : Config := ⟨5000, 30 * 60⟩

/-- A duration that fits 64 bits. -/
def duration? (j : Json) : Option Nat := j.nat?.filter (· < longBound)

/-- A duration, or the standard one where nothing is said. -/
def durationOr? (standard : Nat) : Option Json → Option Nat
  | none => some standard
  | some j => duration? j

/-- The configuration that options describe, by name or by position. -/
def read? (options : Json) : Option Config :=
  match options with
  | .obj _ => do
    return ⟨← durationOr? standard.forwardTimeout (options.get? "forwardTimeoutMs"),
      ← durationOr? standard.tagLifetime (options.get? "tagCacheTtlSecs")⟩
  | .arr given =>
    if given.length ≤ 2 then do
      return ⟨← durationOr? standard.forwardTimeout given[0]?,
        ← durationOr? standard.tagLifetime given[1]?⟩
    else none
  | _ => none

/-- The configuration of a session opened with these options. -/
def ofOptions (options : Option Json) : Config :=
  ((options.filter (!·.isNull)).bind read?).getD standard

/-- Milliseconds for which the list of tags is kept. -/
def tagLifetimeMillis (c : Config) : Nat := c.tagLifetime * 1000

end Config

end OffsideMarkup
