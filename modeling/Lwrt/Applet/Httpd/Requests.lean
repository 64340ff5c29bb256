import Lwrt.Applet.Httpd.Route
import Lwrt.Library.Lines

/-! Reading a request of the admin UI from its connection. -/

namespace Lwrt.Httpd

open Library Text Utf8

/-- `strip_prefix` of a string. -/
def stripStart (pre s : Text) : Option Text :=
  if pre.isPrefixOf s then some (s.drop pre.length) else none

/-- Pull `session=<token>` out of a Cookie header value. -/
def cookieToken (value : Text) : Option Text :=
  ((value.splitOn ';').map trim).findSome? (stripStart "session=".toList)

/-- What the header lines have set so far. -/
structure Headers where
  clen : ℕ
  cookie : Option Text
  csrf : Option Text
deriving DecidableEq

/-- One header line. The names, and the values but for the last one, are read in lower case. -/
def Headers.line (hs : Headers) (h : Text) : Headers :=
  let lower := h.map Char.toLower
  match stripStart "content-length:".toList lower with
  | some v => { hs with clen := (parseUnsigned (2 ^ 32) (trim v)).getD 0 }
  | none =>
      match stripStart "cookie:".toList lower with
      | some v => { hs with cookie := cookieToken (trim v) }
      | none =>
          if "x-csrf-token:".toList.isPrefixOf lower then
            { hs with csrf := some (trim (h.drop "x-csrf-token:".length)) }
          else hs

/-- The loop over the header lines, up to an empty one or the end of the stream, and the lines
that are left then. It fails on a line that is not UTF-8. -/
def readHeaders : Headers → List (List UInt8) → Option (Headers × List (List UInt8))
  | hs, [] => some (hs, [])
  | hs, line :: rest =>
      match fromUtf8 line with
      | none => none
      | some h =>
          if h = "\r\n".toList ∨ h = "\n".toList then some (hs, rest)
          else readHeaders (hs.line h) rest

/-- The cap on a body. -/
def maxBody : ℕ :=
  256 * 1024

/-- A stream that breaks off before the end of the body fails, too. -/
def readRequest (stream : List UInt8) : Option Request :=
  match fromUtf8 ((rawLines stream).headD []) with
  | none => none
  | some line =>
      let parts := splitWhitespace line
      match readHeaders ⟨0, none, none⟩ (rawLines stream).tail with
      | none => none
      | some (hs, rest) =>
          let clen := min hs.clen maxBody
          if rest.flatten.length < clen then none
          else some
            { method := parts.headD []
              path := parts.tail.headD "/".toList
              body := rest.flatten.take clen
              cookieToken := hs.cookie
              csrf := hs.csrf }

end Lwrt.Httpd
