import Lwrt.Applet.Httpd.Threads

/-! What a connection of the admin UI is answered with. -/

namespace Lwrt.Httpd

open Library Text

def cookieHeader : Option Text → Text
  | some tok =>
      "Set-Cookie: session=".toList ++ tok ++ "; HttpOnly; SameSite=Strict; Path=/\r\n".toList
  | none => []

def responseHead (resp : Resp) : Text :=
  "HTTP/1.0 ".toList ++ resp.status ++ "\r\nContent-Type: ".toList ++ resp.ctype ++ "\r\n".toList ++
    cookieHeader resp.setCookie ++ "Content-Length: ".toList ++ decimal resp.payload.length ++
    "\r\nConnection: close\r\n\r\n".toList

/-- The end of `handle`. -/
def responseBytes (resp : Resp) : List UInt8 :=
  Utf8.encode (responseHead resp) ++ resp.payload

end Lwrt.Httpd
