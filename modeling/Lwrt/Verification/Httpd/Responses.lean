import Lwrt.Applet.Httpd.Responses
import Lwrt.Verification.Httpd.Requests

/-! # The responses on the wire

What a connection is sent can be read in one way only, and nothing of a request gets into its
head. -/

namespace Lwrt.HttpMessage

open Library Text Utf8

/-! ## One reading of a message -/

/-- Two lists that agree, each up to its first element of a kind. -/
theorem append_cons_inj {α : Type*} {P : α → Prop} {a a' b b' : List α} {x x' : α}
    (ha : ∀ y ∈ a, ¬P y) (ha' : ∀ y ∈ a', ¬P y) (hx : P x) (hx' : P x')
    (h : a ++ x :: b = a' ++ x' :: b') : a = a' ∧ x = x' ∧ b = b' := by
  induction a generalizing a' with
  | nil =>
      cases a' with
      | nil => exact ⟨rfl, List.cons.inj h⟩
      | cons y a' =>
          obtain ⟨rfl, -⟩ := List.cons.inj h
          exact absurd hx (ha' x (by simp))
  | cons y a ih =>
      cases a' with
      | nil =>
          obtain ⟨rfl, -⟩ := List.cons.inj h
          exact absurd hx' (ha y (by simp))
      | cons z a' =>
          obtain ⟨rfl, htail⟩ := List.cons.inj h
          obtain ⟨rfl, hrest⟩ := ih (fun y hy => ha y (by simp [hy]))
            (fun y hy => ha' y (by simp [hy])) htail
          exact ⟨rfl, hrest⟩

/-- An empty line, with its line end. -/
def IsBlank (line : List UInt8) : Prop :=
  line = [byte '\n'] ∨ line = [byte '\r', byte '\n']

theorem Field.not_blank (f : Field) : ¬IsBlank (f.line ++ [byte '\n']) := by
  have hcolon : byte ':' ∈ f.line ++ [byte '\n'] := by simp [Field.line]
  rintro (h | h)
  · rw [h] at hcolon
    exact absurd hcolon (by decide)
  · rw [h] at hcolon
    exact absurd hcolon (by decide)

theorem Field.line_inj {f g : Field} (h : f.line = g.line) : f = g := by
  obtain ⟨name, value, hcolon, hname, hvalue⟩ := f
  obtain ⟨name', value', hcolon', hname', hvalue'⟩ := g
  obtain ⟨rfl, -, rfl⟩ := append_cons_inj (P := (· = byte ':'))
    (fun y hy hyc => hcolon (hyc ▸ hy)) (fun y hy hyc => hcolon' (hyc ▸ hy)) rfl rfl h
  rfl

/-- The first line is not empty. -/
def Message.Begun (m : Message) : Prop :=
  ¬IsBlank (m.start ++ [byte '\n'])

/-- The bytes of a message can be read in one way only. -/
theorem Message.eq_of_bytes {m m' : Message} (hm : m.Begun) (hm' : m'.Begun)
    (h : m.bytes = m'.bytes) : m = m' := by
  have hblank : ∀ m : Message, IsBlank (m.emptyLine ++ [byte '\n']) := by
    intro m
    rw [emptyLine]
    cases m.crlf
    · exact Or.inl rfl
    · exact Or.inr rfl
  have hhead : ∀ {m : Message}, m.Begun →
      ∀ l ∈ m.head.map (· ++ [byte '\n']), ¬IsBlank l := by
    intro m hm l hl
    rw [head, List.map_cons, List.mem_cons, List.map_map, List.mem_map] at hl
    rcases hl with rfl | ⟨f, -, rfl⟩
    · exact hm
    · exact f.not_blank
  have hlines := congrArg rawLines h
  have hraw : ∀ m : Message, rawLines m.bytes = m.head.map (· ++ [byte '\n']) ++
      (m.emptyLine ++ [byte '\n']) :: rawLines m.body := by
    intro m
    rw [Httpd.rawLines_bytes, head, List.map_cons, List.cons_append]
  rw [hraw, hraw] at hlines
  obtain ⟨hheads, hempty, hbody⟩ :=
    append_cons_inj (hhead hm) (hhead hm') (hblank m) (hblank m') hlines
  have hinj : Function.Injective fun l : List UInt8 => l ++ [byte '\n'] :=
    fun _ _ h => List.append_cancel_right h
  have hsame := List.map_injective_iff.mpr hinj hheads
  rw [head, head, List.cons.injEq] at hsame
  obtain ⟨start, fields, crlf, body, hnewline⟩ := m
  obtain ⟨start', fields', crlf', body', hnewline'⟩ := m'
  simp only at hsame hbody
  obtain ⟨rfl, hfields⟩ := hsame
  obtain rfl := List.map_injective_iff.mpr (fun _ _ h => Field.line_inj h) hfields
  obtain rfl : body = body' := by
    rw [← flatten_rawLines body, ← flatten_rawLines body', hbody]
  obtain rfl : crlf = crlf' := by
    cases crlf <;> cases crlf' <;> simp_all [emptyLine]
  rfl

/-! ## Messages of texts -/

/-- A field that is written with a blank in front of the value and a carriage return behind it. -/
structure TextField where
  name : Text
  value : Text
  colon_not_mem : ':' ∉ name
  newline_not_mem_name : '\n' ∉ name
  newline_not_mem_value : '\n' ∉ value

def TextField.field (f : TextField) : Field where
  name := encode f.name
  value := encode (' ' :: (f.value ++ ['\r']))
  colon_not_mem := by
    rw [mem_encode_iff (by decide)]
    exact f.colon_not_mem
  newline_not_mem_name := by
    rw [mem_encode_iff (by decide)]
    exact f.newline_not_mem_name
  newline_not_mem_value := by
    rw [mem_encode_iff (by decide)]
    exact List.not_mem_cons_of_ne_of_not_mem (by decide)
      (List.not_mem_append f.newline_not_mem_value (by decide))

/-- The line of the field, with its end. -/
def TextField.text (f : TextField) : Text :=
  f.name ++ (": ".toList ++ (f.value ++ "\r\n".toList))

theorem TextField.line_field (f : TextField) :
    f.field.line ++ [byte '\n'] = encode f.text := by
  have hends : encode "\r\n".toList = encode ['\r'] ++ [byte '\n'] := by decide
  have hcolon : encode (": ".toList) = byte ':' :: encode [' '] := by decide
  rw [Field.line, field, text]
  dsimp only
  rw [encode_append, encode_append, encode_append, hends, hcolon,
    ← List.singleton_append (l := f.value ++ ['\r']), encode_append, encode_append]
  simp only [List.append_assoc, List.cons_append]

def TextField.named (name : Text) (f : TextField) : Bool :=
  eqIgnoreAsciiCase f.name name

theorem TextField.named_field (f : TextField) (name : Text) :
    f.field.named name = f.named name := by
  rw [Field.named, field, fromUtf8Lossy_encode, named]

/-- The white space around the value is not part of it. -/
theorem TextField.content_field (f : TextField) : f.field.content = strip f.value := by
  rw [Field.content, Field.text, field, fromUtf8Lossy_encode, strip, strip,
    List.dropWhile_cons_of_pos (by decide), List.dropWhile_append]
  by_cases hblank : (f.value.dropWhile isOws).isEmpty
  · rw [if_pos hblank, List.isEmpty_iff.mp hblank]
    rfl
  · rw [if_neg hblank, List.rdropWhile_concat_pos _ _ _ (by decide)]

def Message.ofTexts (start : Text) (hstart : '\n' ∉ start) (fields : List TextField)
    (body : List UInt8) : Message where
  start := encode (start ++ ['\r'])
  fields := fields.map TextField.field
  crlf := true
  body := body
  newline_not_mem_start := by
    rw [mem_encode_iff (by decide)]
    exact List.not_mem_append hstart (by decide)

section OfTexts

variable {start : Text} {hstart : '\n' ∉ start} {fields : List TextField} {body : List UInt8}

theorem Message.bytes_ofTexts : (Message.ofTexts start hstart fields body).bytes =
    encode (start ++ ("\r\n".toList ++ (fields.flatMap TextField.text ++ "\r\n".toList))) ++
      body := by
  have hends : encode "\r\n".toList = [byte '\r', byte '\n'] := by decide
  have hreturn : encode ['\r'] = [byte '\r'] := by decide
  have hfields : (fields.map TextField.field).flatMap (fun f => f.line ++ [byte '\n']) =
      encode (fields.flatMap TextField.text) := by
    induction fields with
    | nil => rfl
    | cons f fields ih =>
        rw [List.map_cons, List.flatMap_cons, List.flatMap_cons, f.line_field, ih, encode_append]
  rw [List.flatMap_map] at hfields
  rw [Message.bytes, Message.head, Message.emptyLine, ofTexts]
  simp only [List.cons_append, List.nil_append, List.append_nil, List.append_assoc,
    List.flatMap_cons, List.flatMap_append, List.flatMap_map, List.flatMap_nil, if_true,
    encode_append, hends, hreturn, hfields]

theorem Message.hasField_ofTexts {name value : Text} (f : TextField)
    (hf : fields.filter (TextField.named name) = [f])
    (hvalue : strip f.value = value) :
    (Message.ofTexts start hstart fields body).HasField name value := by
  refine ⟨f.field, ?_, f.content_field.trans hvalue⟩
  have hnamed : Field.named name ∘ TextField.field = TextField.named name :=
    funext fun f => f.named_field name
  rw [ofTexts, List.filter_map, hnamed, hf, List.map_singleton]

end OfTexts

theorem strip_eq_self {s : Text} (hfirst : ∀ c ∈ s.head?, isOws c = false)
    (hlast : ∀ c ∈ s.getLast?, isOws c = false) : strip s = s := by
  have hstart : s.dropWhile isOws = s := by
    cases s with
    | nil => rfl
    | cons c s => exact List.dropWhile_cons_of_neg (by simp [hfirst c rfl])
  rw [strip, hstart, List.rdropWhile_eq_self_iff]
  intro h
  rw [hlast _ (List.getLast_mem_getLast? h)]
  exact Bool.false_ne_true

end Lwrt.HttpMessage

namespace Lwrt.Httpd

open Library Text Utf8 HttpMessage

/-! ## What is sent -/

def statuses : List Text :=
  ["200 OK".toList, "401 Unauthorized".toList, "403 Forbidden".toList, "404 Not Found".toList,
    "500 Error".toList]

def contentTypes : List Text :=
  ["text/html; charset=utf-8".toList, "text/plain".toList]

/-- The head of the response is the server's own: constants, and a token that it made. -/
structure OwnHead (resp : Resp) : Prop where
  status : resp.status ∈ statuses
  ctype : resp.ctype ∈ contentTypes
  cookie : ∀ token ∈ resp.setCookie, ∃ random, token = newToken random

theorem ownHead_html {status : Text} (h : status ∈ statuses) (body : Text) :
    OwnHead (html status body) :=
  ⟨h, List.mem_cons_self, nofun⟩

theorem ownHead_saveAnswer (ok : Bool) : OwnHead (saveAnswer ok) := by
  rw [saveAnswer]
  split
  · exact ownHead_html (by decide) _
  · exact ownHead_html (by decide) _

/-- A thread that is through has such a response. -/
def Phase.OwnHead : Phase → Prop
  | .finished resp => Httpd.OwnHead resp
  | _ => True

def Task.OwnHead : Task → Prop
  | .respond resp => Httpd.OwnHead resp
  | _ => True

theorem ownHead_received (content : Option (List UInt8)) (files : Files) (why : Purpose) :
    (received content files why).OwnHead := by
  cases why with
  | handle req => trivial
  | status => exact ownHead_html (by decide) _
  | settings => exact ownHead_html (by decide) _
  | merge body => trivial

theorem ownHead_login (req : Request) (cfg : Config) (sessions : Sessions) (host : Text)
    (now later : ℕ) (random : List UInt8) :
    (login req cfg sessions host now later random).2.OwnHead := by
  rw [login]
  dsimp only
  split
  · refine ⟨List.mem_cons_self, List.mem_cons_self, ?_⟩
    intro token htoken
    exact ⟨random, (Option.mem_some.mp htoken).symm⟩
  · exact ownHead_html (by decide) _

theorem ownHead_dispatch (req : Request) (cfg : Config) (sessions : Sessions) (now later : ℕ)
    (random : List UInt8) : (dispatch req cfg sessions now later random).2.OwnHead := by
  simp only [dispatch, apply_ite Prod.snd]
  split_ifs
  · exact ownHead_html (by decide) _
  · exact ownHead_html (by decide) _
  · exact ownHead_html (by decide) _
  · exact ownHead_login req cfg sessions _ now later random
  · exact ownHead_html (by decide) _
  · trivial
  · trivial
  · trivial
  · trivial
  · exact ownHead_html (by decide) _
  · trivial
  · exact ownHead_html (by decide) _
  · exact ⟨by decide, by decide, fun _ h => absurd h (Option.not_mem_none _)⟩

theorem ownHead_phase (files : Files) {task : Task} (h : task.OwnHead) :
    (task.phase files).OwnHead := by
  cases task with
  | respond resp => exact h
  | status => trivial
  | clients => exact ownHead_html (by decide) _
  | settings => trivial
  | save body => trivial
  | reboot => exact ownHead_html (by decide) _

/-- No step leaves another response. -/
def OwnHeads (s : Server) : Prop :=
  ∀ i phase, s.threads i = some phase → phase.OwnHead

theorem OwnHeads.put {s : Server} (hs : OwnHeads s) (i : ℕ) {phase : Phase} (h : phase.OwnHead) :
    OwnHeads (s.put i phase) := by
  intro j phase' hj
  rw [Server.put] at hj
  dsimp only at hj
  split at hj
  · rwa [← Option.some.inj hj]
  · exact hs j phase' hj

theorem OwnHeads.progress {s : Server} (hs : OwnHeads s) (i : ℕ) (contents : List UInt8)
    (written : ℕ) : OwnHeads (s.progress i contents written).1 := by
  rw [Server.progress]
  split
  · exact hs.put i (ownHead_saveAnswer true)
  · exact hs.put i trivial

theorem OwnHeads.step {s : Server} (hs : OwnHeads s) (a : Action) :
    OwnHeads (Httpd.step s a).1 := by
  have hfile : ∀ file, OwnHeads { s with file := file } := fun _ => hs
  cases a with
  | connect i req =>
      simp only [Httpd.step]
      split
      · exact hs.put i trivial
      · exact hs
  | openRead i files =>
      simp only [Httpd.step]
      split
      · split
        · exact hs.put i (ownHead_received _ files _)
        · exact hs.put i trivial
      · exact hs
  | read i n files =>
      simp only [Httpd.step]
      split
      · split
        · exact hs.put i (ownHead_received _ files _)
        · exact hs.put i trivial
      · exact hs
  | route i wait pause random files =>
      simp only [Httpd.step]
      split
      · exact OwnHeads.put (s := { s with sessions := _, signals := _, clock := _ }) hs i
          (ownHead_phase files (ownHead_dispatch _ _ _ _ _ random))
      · exact hs
  | truncate i =>
      simp only [Httpd.step]
      split
      · exact (hfile _).progress i _ 0
      · exact hs
  | write i n =>
      simp only [Httpd.step]
      split
      · exact (hfile _).progress i _ _
      · exact hs
  | fail i =>
      simp only [Httpd.step]
      split
      · exact hs.put i (ownHead_saveAnswer false)
      · exact hs.put i (ownHead_saveAnswer false)
      · exact hs

theorem ownHeads_run (file : Option (List UInt8)) (actions : List Action) :
    OwnHeads (Machine.run Httpd.step (Server.start file) actions).1 :=
  Machine.run_invariant Httpd.step (motive := fun s _ => OwnHeads s) actions
    (fun _ _ a _ hs => hs.step a) (Server.start file) [] nofun

/-! ## The message that is sent -/

def cookieValue (token : Text) : Text :=
  "session=".toList ++ (token ++ "; HttpOnly; SameSite=Strict; Path=/".toList)

/-- The bytes of the response are this message, and each field has the value that it is for. -/
structure Answers (m : Message) (resp : Resp) : Prop where
  bytes : m.bytes = responseBytes resp
  begun : m.Begun
  start : m.start = encode ("HTTP/1.0 ".toList ++ (resp.status ++ ['\r']))
  ctype : m.HasField "content-type".toList resp.ctype
  length : m.HasField "content-length".toList (decimal m.body.length)
  close : m.HasField "connection".toList "close".toList
  cookie : ∀ token ∈ resp.setCookie, m.HasField "set-cookie".toList (cookieValue token)
  fields : m.fields.length = 3 + resp.setCookie.toList.length
  body : m.body = resp.payload

theorem newline_not_mem_cookieValue {token : Text} (h : '\n' ∉ token) :
    '\n' ∉ cookieValue token :=
  List.not_mem_append (by decide) (List.not_mem_append h (by decide +kernel))

def contentType (ctype : Text) (h : '\n' ∉ ctype) : TextField :=
  ⟨"Content-Type".toList, ctype, by decide, by decide, h⟩

def setCookie (token : Text) (h : '\n' ∉ token) : TextField :=
  ⟨"Set-Cookie".toList, cookieValue token, by decide, by decide, newline_not_mem_cookieValue h⟩

def contentLength (n : ℕ) : TextField :=
  ⟨"Content-Length".toList, decimal n, by decide, by decide,
    (isToken_decimal n).newline_not_mem⟩

def connection : TextField :=
  ⟨"Connection".toList, "close".toList, by decide, by decide, by decide⟩

theorem text_contentType (ctype : Text) (h : '\n' ∉ ctype) : (contentType ctype h).text =
    "Content-Type: ".toList ++ (ctype ++ "\r\n".toList) := rfl

theorem text_setCookie (token : Text) (h : '\n' ∉ token) :
    (setCookie token h).text = cookieHeader (some token) := by
  have hset : "Set-Cookie: session=".toList =
      "Set-Cookie".toList ++ (": ".toList ++ "session=".toList) := by decide +kernel
  have hpath : "; HttpOnly; SameSite=Strict; Path=/\r\n".toList =
      "; HttpOnly; SameSite=Strict; Path=/".toList ++ "\r\n".toList := by decide +kernel
  unfold cookieHeader TextField.text setCookie cookieValue
  rw [hset, hpath]
  simp only [List.append_assoc]

theorem text_contentLength (n : ℕ) : (contentLength n).text =
    "Content-Length: ".toList ++ (decimal n ++ "\r\n".toList) := rfl

theorem text_connection : connection.text = "Connection: close\r\n".toList := by
  decide +kernel

def answerFields (resp : Resp) (hctype : '\n' ∉ resp.ctype)
    (hcookie : ∀ token ∈ resp.setCookie, '\n' ∉ token) : List TextField :=
  contentType resp.ctype hctype :: ((resp.setCookie.pmap setCookie hcookie).toList ++
    [contentLength resp.payload.length, connection])

/-- The response as a message, if no line of its head is broken. -/
def answer (resp : Resp) (hstatus : '\n' ∉ resp.status) (hctype : '\n' ∉ resp.ctype)
    (hcookie : ∀ token ∈ resp.setCookie, '\n' ∉ token) : Message :=
  .ofTexts ("HTTP/1.0 ".toList ++ resp.status) (List.not_mem_append (by decide) hstatus)
    (answerFields resp hctype hcookie) resp.payload

section Answer

variable {resp : Resp} (hstatus : '\n' ∉ resp.status) (hctype : '\n' ∉ resp.ctype)
  (hcookie : ∀ token ∈ resp.setCookie, '\n' ∉ token)

theorem text_answerFields : (answerFields resp hctype hcookie).flatMap TextField.text =
    "Content-Type: ".toList ++ (resp.ctype ++ ("\r\n".toList ++ (cookieHeader resp.setCookie ++
      ("Content-Length: ".toList ++ (decimal resp.payload.length ++
        ("\r\n".toList ++ "Connection: close\r\n".toList)))))) := by
  obtain ⟨status, ctype, payload, cookie⟩ := resp
  have hcookies : ((cookie.pmap setCookie hcookie).toList).flatMap TextField.text =
      cookieHeader cookie := by
    cases cookie with
    | none => rfl
    | some token =>
        rw [Option.pmap_some, Option.toList_some, List.flatMap_singleton, text_setCookie]
  rw [answerFields, List.flatMap_cons, List.flatMap_append, hcookies, List.flatMap_cons,
    List.flatMap_singleton, text_contentType, text_contentLength, text_connection]
  simp only [List.append_assoc]

theorem answer_bytes : (answer resp hstatus hctype hcookie).bytes = responseBytes resp := by
  have htype : "\r\nContent-Type: ".toList = "\r\n".toList ++ "Content-Type: ".toList := rfl
  have hclose : "\r\nConnection: close\r\n\r\n".toList =
      "\r\n".toList ++ ("Connection: close\r\n".toList ++ "\r\n".toList) := by decide +kernel
  rw [answer, Message.bytes_ofTexts, text_answerFields]
  unfold responseBytes responseHead
  rw [htype, hclose]
  simp only [List.append_assoc]

theorem strip_cookieValue (token : Text) : strip (cookieValue token) = cookieValue token := by
  apply strip_eq_self
  · intro c hc
    unfold cookieValue at hc
    rw [List.head?_append, show "session=".toList.head? = some 's' by decide] at hc
    rw [← Option.mem_some.mp hc]
    rfl
  · intro c hc
    unfold cookieValue at hc
    rw [List.getLast?_append, List.getLast?_append,
      show "; HttpOnly; SameSite=Strict; Path=/".toList.getLast? = some '/' by decide +kernel] at hc
    rw [← Option.mem_some.mp hc]
    rfl

theorem strip_decimal (n : ℕ) : strip (decimal n) = decimal n := by
  have hplain : ∀ c ∈ decimal n, isOws c = false := by
    intro c hc
    exact Bool.eq_false_iff.mpr (mt isWhitespace_of_isOws (by simp [(isToken_decimal n).2 c hc]))
  exact strip_eq_self (fun c hc => hplain c (List.mem_of_mem_head? hc))
    (fun c hc => hplain c (List.mem_of_mem_getLast? hc))

theorem filter_setCookie {cookie : Option Text} (hcookie : ∀ token ∈ cookie, '\n' ∉ token)
    {name : Text} (h : eqIgnoreAsciiCase "Set-Cookie".toList name = false) :
    (cookie.pmap setCookie hcookie).toList.filter (TextField.named name) = [] := by
  cases cookie with
  | none => rfl
  | some token =>
      have hname : ¬TextField.named name (setCookie token (hcookie token rfl)) = true :=
        Bool.eq_false_iff.mp h
      rw [Option.pmap_some, Option.toList_some, List.filter_cons_of_neg hname, List.filter_nil]

theorem begun_answer : (answer resp hstatus hctype hcookie).Begun := by
  have hmem : byte 'H' ∈ (answer resp hstatus hctype hcookie).start ++ [byte '\n'] := by
    have hstart : (answer resp hstatus hctype hcookie).start =
        encode ('H' :: ("TTP/1.0 ".toList ++ resp.status ++ ['\r'])) := rfl
    rw [hstart, List.mem_append, mem_encode_iff (by decide)]
    exact Or.inl List.mem_cons_self
  rintro (h | h)
  · rw [h] at hmem
    exact absurd hmem (by decide)
  · rw [h] at hmem
    exact absurd hmem (by decide)

theorem answers_answer (hstrip : strip resp.ctype = resp.ctype) :
    Answers (answer resp hstatus hctype hcookie) resp where
  bytes := answer_bytes hstatus hctype hcookie
  begun := begun_answer hstatus hctype hcookie
  start := congrArg encode (List.append_assoc _ _ _)
  ctype := by
    have hname : (contentType resp.ctype hctype).named "content-type".toList = true :=
      (by decide : eqIgnoreAsciiCase "Content-Type".toList "content-type".toList = true)
    refine Message.hasField_ofTexts (contentType resp.ctype hctype) ?_ hstrip
    rw [answerFields, List.filter_cons_of_pos hname, List.filter_append,
      filter_setCookie hcookie (by decide)]
    rfl
  length := by
    have hname : ¬(contentType resp.ctype hctype).named "content-length".toList = true :=
      (by decide : ¬eqIgnoreAsciiCase "Content-Type".toList "content-length".toList = true)
    refine Message.hasField_ofTexts (contentLength resp.payload.length) ?_ (strip_decimal _)
    rw [answerFields, List.filter_cons_of_neg hname, List.filter_append,
      filter_setCookie hcookie (by decide)]
    rfl
  close := by
    have hname : ¬(contentType resp.ctype hctype).named "connection".toList = true :=
      (by decide : ¬eqIgnoreAsciiCase "Content-Type".toList "connection".toList = true)
    refine Message.hasField_ofTexts connection ?_ (by decide)
    rw [answerFields, List.filter_cons_of_neg hname, List.filter_append,
      filter_setCookie hcookie (by decide)]
    rfl
  cookie := by
    intro token htoken
    refine Message.hasField_ofTexts (setCookie token (hcookie token htoken)) ?_
      (strip_cookieValue token)
    obtain ⟨status, ctype, payload, cookie⟩ := resp
    cases htoken
    rfl
  fields := by
    obtain ⟨status, ctype, payload, cookie⟩ := resp
    cases cookie <;> rfl
  body := rfl

end Answer

/-- In every run, what a connection is sent is one message and can be read as no other. Its status
and its type are constants of the server, and a cookie is a token that the server made. -/
theorem responses_sent (file : Option (List UInt8)) (actions : List Action) (i : ℕ) (resp : Resp)
    (h : (Machine.run step (Server.start file) actions).1.threads i = some (.finished resp)) :
    OwnHead resp ∧ ∃ m, Answers m resp ∧
      ∀ m' : Message, m'.Begun → m'.bytes = responseBytes resp → m' = m := by
  have hown : OwnHead resp := ownHeads_run file actions i (.finished resp) h
  have hstatuses : ∀ status ∈ statuses, '\n' ∉ status := by decide
  have hctypes : ∀ ctype ∈ contentTypes, '\n' ∉ ctype ∧ strip ctype = ctype := by decide +kernel
  have hcookie : ∀ token ∈ resp.setCookie, '\n' ∉ token := by
    intro token htoken hmem
    obtain ⟨random, rfl⟩ := hown.cookie token htoken
    exact absurd (newToken_plain random _ hmem) (by decide)
  obtain ⟨hctype, hstrip⟩ := hctypes resp.ctype hown.ctype
  have hanswers := answers_answer (hstatuses resp.status hown.status) hctype hcookie hstrip
  refine ⟨hown, _, hanswers, ?_⟩
  intro m' hbegun hbytes
  exact Message.eq_of_bytes hbegun hanswers.begun (hbytes.trans hanswers.bytes.symm)

def Phase.response : Phase → Option Resp
  | .finished resp => some resp
  | _ => none

theorem eq_finished_of_response {phase : Option Phase} {resp : Resp}
    (h : phase.bind Phase.response = some resp) : phase = some (.finished resp) := by
  obtain ⟨phase, rfl, hphase⟩ := Option.bind_eq_some_iff.mp h
  cases phase with
  | finished resp' => rw [← Option.some.inj hphase]
  | opening => cases hphase
  | reading => cases hphase
  | ready => cases hphase
  | saving => cases hphase
  | writing => cases hphase

/-- A login at a server with the password `x`. -/
def loginRun : List Action :=
  [.connect 0 ⟨"POST".toList, "/ui/login".toList, encode "password=x".toList, none, none⟩,
    .openRead 0 ⟨none, none, none⟩, .read 0 100 ⟨none, none, none⟩, .read 0 0 ⟨none, none, none⟩,
    .route 0 0 1 [7] ⟨none, none, none⟩]

theorem responses_sent_loginRun : ∃ resp, resp.setCookie = some (newToken [7]) ∧
    OwnHead resp ∧ ∃ m, Answers m resp ∧
      ∀ m' : Message, m'.Begun → m'.bytes = responseBytes resp → m' = m := by
  have hlogin : (((Machine.run step
      (Server.start (some (encode "[admin]\npassword = x\n".toList))) loginRun).1.threads 0).bind
        Phase.response).any (fun resp => resp.setCookie = some (newToken [7])) = true := by
    decide +kernel
  obtain ⟨resp, hresp, hcookie⟩ := (Option.any_eq_true _ _).mp hlogin
  exact ⟨resp, of_decide_eq_true hcookie,
    responses_sent _ loginRun 0 resp (eq_finished_of_response hresp)⟩

end Lwrt.Httpd
