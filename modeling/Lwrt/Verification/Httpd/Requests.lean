import Lwrt.Applet.Httpd.Requests
import Lwrt.Applet.Httpd.Threads
import Lwrt.Model.HttpMessage
import Lwrt.Verification.Httpd.Sessions

/-! # The requests after a login

The token of a login is in the Cookie field and in a field of its own. The server takes the first of
them from the line in lower case, the second from the line as it is. -/

namespace Lwrt.Httpd

open Library Text Utf8 HttpMessage

/-! ## Header lines -/

/-- A field as the text of a header line. -/
def headerText (f : Field) : Text :=
  fromUtf8Lossy f.name ++ ':' :: (f.text ++ ['\n'])

/-- A line that is UTF-8 has a name and a value that are. -/
theorem exists_texts {f : Field} (h : ∃ s, encode s = f.line) :
    encode (fromUtf8Lossy f.name) = f.name ∧ encode f.text = f.value ∧
      ':' ∉ fromUtf8Lossy f.name := by
  obtain ⟨s, hs⟩ := h
  obtain ⟨name, value, rfl, hname, hvalue⟩ := encode_eq_append_cons (by decide) hs
  have hcolon := f.colon_not_mem
  rw [Field.text, ← hname, ← hvalue, fromUtf8Lossy_encode, fromUtf8Lossy_encode]
  rw [← hname, mem_encode_iff (by decide)] at hcolon
  exact ⟨rfl, rfl, hcolon⟩

theorem fromUtf8_line {f : Field} (h : ∃ s, encode s = f.line) :
    fromUtf8 (f.line ++ [byte '\n']) = some (headerText f) := by
  obtain ⟨hname, hvalue, -⟩ := exists_texts h
  rw [fromUtf8_eq_some_iff, headerText, encode_append, encode_cons, encode_append, hname, hvalue,
    Field.line, List.append_assoc]
  rfl

theorem fromUtf8_newline_eq_none {l : List UInt8} (h : ¬ ∃ s, encode s = l) :
    fromUtf8 (l ++ [byte '\n']) = none := by
  rw [Option.eq_none_iff_forall_ne_some]
  intro s hs
  rw [fromUtf8_eq_some_iff] at hs
  obtain ⟨x, y, -, hx, -⟩ := encode_eq_append_cons (by decide) hs
  exact h ⟨x, hx⟩

/-- A name and a colon in front of a text. -/
theorem isPrefixOf_name {w n : Text} (hw : ':' ∉ w) (hn : ':' ∉ n) (v : Text) :
    (w ++ [':']).isPrefixOf (n ++ ':' :: v) = true ↔ w = n := by
  rw [List.isPrefixOf_iff_prefix]
  constructor
  · rintro ⟨r, hr⟩
    rw [List.append_assoc, List.singleton_append] at hr
    have hsplit := congrArg (splitOnce ':') hr
    rw [splitOnce_append hw, splitOnce_append hn] at hsplit
    exact (Prod.mk.inj (Option.some.inj hsplit)).1
  · rintro rfl
    exact ⟨v, by simp⟩

theorem drop_name {w : Text} {k : ℕ} (h : w.length + 1 = k) (v : Text) :
    (w ++ ':' :: v).drop k = v := by
  rw [← h, List.drop_append, List.drop_eq_nil_of_le (Nat.le_succ _), Nat.add_sub_cancel_left]
  rfl

theorem stripStart_name {w n : Text} (hw : ':' ∉ w) (hn : ':' ∉ n) (v : Text) :
    stripStart (w ++ [':']) (n ++ ':' :: v) = if w = n then some v else none := by
  rw [stripStart]
  by_cases h : w = n
  · subst h
    rw [if_pos ((isPrefixOf_name hw hw v).mpr rfl), if_pos rfl, drop_name (by simp)]
  · rw [if_neg (mt (isPrefixOf_name hw hn v).mp h), if_neg h]

/-- What a field sets. -/
def Headers.field (hs : Headers) (f : Field) : Headers :=
  if f.named "content-length".toList then
    { hs with clen := (parseUnsigned (2 ^ 32) (trim (f.text.map Char.toLower))).getD 0 }
  else if f.named "cookie".toList then
    { hs with cookie := cookieToken (f.text.map Char.toLower) }
  else if f.named "x-csrf-token".toList then { hs with csrf := some (trim f.text) }
  else hs

theorem cookieToken_trim (s : Text) : cookieToken (trim s) = cookieToken s := by
  rw [cookieToken, cookieToken, map_trim_splitOn_trim (by decide)]

theorem named_iff {f : Field} {name : Text} (hname : name.map Char.toLower = name) :
    f.named name = true ↔ name = (fromUtf8Lossy f.name).map Char.toLower := by
  rw [Field.named, eqIgnoreAsciiCase_iff, hname, eq_comm]

theorem headerText_toLower (f : Field) : (headerText f).map Char.toLower =
    (fromUtf8Lossy f.name).map Char.toLower ++ ':' :: (f.text.map Char.toLower ++ ['\n']) := by
  simp [headerText]

theorem colon_not_mem_toLower {f : Field} (h : ∃ s, encode s = f.line) :
    ':' ∉ (fromUtf8Lossy f.name).map Char.toLower := by
  obtain ⟨-, -, hcolon⟩ := exists_texts h
  simpa [toLower_eq_iff] using hcolon

theorem stripStart_headerText {f : Field} (h : ∃ s, encode s = f.line) {w : Text} (hw : ':' ∉ w)
    (hlower : w.map Char.toLower = w) :
    stripStart (w ++ [':']) ((headerText f).map Char.toLower) =
      if f.named w then some (f.text.map Char.toLower ++ ['\n']) else none := by
  rw [headerText_toLower, stripStart_name hw (colon_not_mem_toLower h)]
  simp only [named_iff hlower]

theorem isPrefixOf_headerText {f : Field} (h : ∃ s, encode s = f.line) {w : Text} (hw : ':' ∉ w)
    (hlower : w.map Char.toLower = w) :
    (w ++ [':']).isPrefixOf ((headerText f).map Char.toLower) = true ↔ f.named w = true := by
  rw [headerText_toLower, named_iff hlower]
  exact isPrefixOf_name hw (colon_not_mem_toLower h) _

/-- A name takes as many characters in either letter case. -/
theorem drop_headerText {f : Field} {w : Text} (hlower : w.map Char.toLower = w)
    (h : f.named w = true) : (headerText f).drop (w.length + 1) = f.text ++ ['\n'] := by
  rw [named_iff hlower] at h
  have hlen := congrArg List.length h
  rw [List.length_map] at hlen
  exact drop_name (by rw [hlen]) _

theorem line_headerText (hs : Headers) {f : Field} (h : ∃ s, encode s = f.line) :
    hs.line (headerText f) = hs.field f := by
  have htrim : ∀ s : Text, trim (s ++ ['\n']) = trim s :=
    fun s => trim_append_whitespace s (by decide)
  have hlength := stripStart_headerText h (w := "content-length".toList) (by decide) (by decide)
  have hcookie := stripStart_headerText h (w := "cookie".toList) (by decide) (by decide)
  have hcsrf : "x-csrf-token:".toList.isPrefixOf ((headerText f).map Char.toLower) = true ↔
      f.named "x-csrf-token".toList = true :=
    isPrefixOf_headerText h (w := "x-csrf-token".toList) (by decide) (by decide)
  rw [Headers.line, Headers.field,
    show "content-length:".toList = "content-length".toList ++ [':'] from rfl, hlength,
    show "cookie:".toList = "cookie".toList ++ [':'] from rfl, hcookie]
  by_cases hl : f.named "content-length".toList
  · rw [if_pos hl, if_pos hl]
    dsimp only
    rw [htrim]
  · rw [if_neg hl, if_neg hl]
    by_cases hc : f.named "cookie".toList
    · rw [if_pos hc, if_pos hc]
      dsimp only
      rw [htrim, cookieToken_trim]
    · rw [if_neg hc, if_neg hc]
      dsimp only
      by_cases hx : f.named "x-csrf-token".toList
      · have hvalue : (headerText f).drop "x-csrf-token:".length = f.text ++ ['\n'] :=
          drop_headerText (w := "x-csrf-token".toList) (by decide) hx
        rw [if_pos (hcsrf.mpr hx), if_pos hx, hvalue, htrim]
      · rw [if_neg (mt hcsrf.mp hx), if_neg hx]

/-! ## The head of a request -/

theorem ne_emptyLine (f : Field) :
    ¬ (headerText f = "\r\n".toList ∨ headerText f = "\n".toList) := by
  have hmem : ':' ∈ headerText f := by simp [headerText]
  rintro (h | h)
  · rw [h] at hmem
    exact absurd hmem (by decide)
  · rw [h] at hmem
    exact absurd hmem (by decide)

theorem readHeaders_fields {fields : List Field} (h : ∀ f ∈ fields, ∃ s, encode s = f.line)
    (hs : Headers) (rest : List (List UInt8)) :
    readHeaders hs ((fields.map Field.line).map (· ++ [byte '\n']) ++ rest) =
      readHeaders (fields.foldl Headers.field hs) rest := by
  induction fields generalizing hs with
  | nil => rfl
  | cons f fields ih =>
      obtain ⟨hf, hfields⟩ := List.forall_mem_cons.mp h
      rw [List.map_cons, List.map_cons, List.cons_append, readHeaders, fromUtf8_line hf]
      dsimp only
      rw [if_neg (ne_emptyLine f), line_headerText hs hf, ih hfields, List.foldl_cons]

/-- A line ends the reading if it is not UTF-8. -/
theorem readHeaders_eq_none {fields : List Field} {f : Field} (hf : f ∈ fields)
    (h : ¬ ∃ s, encode s = f.line) (hs : Headers) (rest : List (List UInt8)) :
    readHeaders hs ((fields.map Field.line).map (· ++ [byte '\n']) ++ rest) = none := by
  induction fields generalizing hs with
  | nil => cases hf
  | cons g fields ih =>
      rw [List.map_cons, List.map_cons, List.cons_append, readHeaders]
      by_cases hg : ∃ s, encode s = g.line
      · have hne : f ≠ g := by
          rintro rfl
          exact h hg
        rw [fromUtf8_line hg]
        dsimp only
        rw [if_neg (ne_emptyLine g), ih (List.mem_of_ne_of_mem hne hf)]
      · rw [fromUtf8_newline_eq_none hg]

/-- What the fields of a message set. -/
def Headers.ofMessage (m : Message) : Headers :=
  m.fields.foldl Headers.field ⟨0, none, none⟩

theorem rawLines_bytes (m : Message) :
    rawLines m.bytes = (m.start ++ [byte '\n']) ::
      ((m.fields.map Field.line).map (· ++ [byte '\n']) ++
        (m.emptyLine ++ [byte '\n']) :: rawLines m.body) := by
  rw [Message.bytes, rawLines_flatMap m.newline_not_mem, Message.head]
  simp

theorem readHeaders_emptyLine (m : Message) (hs : Headers) (rest : List (List UInt8)) :
    readHeaders hs ((m.emptyLine ++ [byte '\n']) :: rest) = some (hs, rest) := by
  rw [Message.emptyLine]
  cases m.crlf <;> rfl

/-- A request whose head is UTF-8 is read. -/
theorem readRequest_eq_some {m : Message} (h : ∀ l ∈ m.head, ∃ s, encode s = l)
    (hlen : (Headers.ofMessage m).clen ≤ m.body.length) :
    ∃ req, readRequest m.bytes = some req ∧ req.cookieToken = (Headers.ofMessage m).cookie ∧
      req.csrf = (Headers.ofMessage m).csrf := by
  rw [Message.head, List.forall_mem_cons, List.forall_mem_map] at h
  obtain ⟨⟨s, hs⟩, hfields⟩ := h
  have hstart : fromUtf8 (m.start ++ [byte '\n']) = some (s ++ ['\n']) := by
    rw [fromUtf8_eq_some_iff, encode_append, hs]
    rfl
  have hbody : ¬ (rawLines m.body).flatten.length < min (Headers.ofMessage m).clen maxBody := by
    rw [flatten_rawLines]
    omega
  rw [readRequest, rawLines_bytes, List.headD_cons, hstart, List.tail_cons,
    readHeaders_fields hfields, readHeaders_emptyLine]
  exact ⟨_, if_neg hbody, rfl, rfl⟩

theorem readRequest_eq_none {m : Message} (h : ¬ ∀ l ∈ m.head, ∃ s, encode s = l) :
    readRequest m.bytes = none := by
  rw [Message.head, List.forall_mem_cons, List.forall_mem_map, not_and_or] at h
  rw [readRequest, rawLines_bytes, List.headD_cons, List.tail_cons]
  rcases h with hstart | hfields
  · rw [fromUtf8_newline_eq_none hstart]
  · push Not at hfields
    obtain ⟨f, hf, hline⟩ := hfields
    rw [readHeaders_eq_none hf (not_exists.mpr hline)]
    cases fromUtf8 (m.start ++ [byte '\n']) <;> rfl

/-! ## The fields that count -/

/-- The last field of a name sets what the name is for. -/
theorem foldl_field {β : Type} {get : Headers → β} {name : Text} {val : Field → β}
    (h : ∀ hs f, get (Headers.field hs f) = if f.named name then val f else get hs)
    (fields : List Field) (hs : Headers) :
    get (fields.foldl Headers.field hs) =
      ((fields.filter (Field.named name)).getLast?.map val).getD (get hs) := by
  induction fields using List.reverseRecOn with
  | nil => rfl
  | append_singleton fields f ih =>
      rw [List.foldl_append, List.foldl_cons, List.foldl_nil, h, List.filter_append]
      by_cases hf : f.named name
      · rw [if_pos hf, List.filter_cons_of_pos hf, List.getLast?_append]
        rfl
      · rw [if_neg hf, List.filter_cons_of_neg hf, ih, List.filter_nil, List.append_nil]

theorem named_eq_false {f : Field} {a b : Text} (ha : a.map Char.toLower = a)
    (hb : b.map Char.toLower = b) (hne : a ≠ b) (h : f.named a = true) : ¬ f.named b = true := by
  rw [named_iff ha] at h
  rw [named_iff hb, ← h]
  exact Ne.symm hne

theorem clen_field (hs : Headers) (f : Field) :
    (hs.field f).clen = if f.named "content-length".toList then
      (parseUnsigned (2 ^ 32) (trim (f.text.map Char.toLower))).getD 0 else hs.clen := by
  rw [Headers.field]
  split_ifs <;> rfl

theorem cookie_field (hs : Headers) (f : Field) :
    (hs.field f).cookie = if f.named "cookie".toList then cookieToken (f.text.map Char.toLower)
      else hs.cookie := by
  rw [Headers.field]
  by_cases hc : f.named "cookie".toList
  · rw [if_neg (named_eq_false (by decide) (by decide) (by decide) hc), if_pos hc, if_pos hc]
  · rw [if_neg hc, if_neg hc]
    split_ifs <;> rfl

theorem csrf_field (hs : Headers) (f : Field) :
    (hs.field f).csrf = if f.named "x-csrf-token".toList then some (trim f.text)
      else hs.csrf := by
  rw [Headers.field]
  by_cases hx : f.named "x-csrf-token".toList
  · rw [if_neg (named_eq_false (by decide) (by decide) (by decide) hx),
      if_neg (named_eq_false (by decide) (by decide) (by decide) hx), if_pos hx, if_pos hx]
  · rw [if_neg hx, if_neg hx]
    split_ifs <;> rfl

/-- What a complete request announces is there. -/
theorem clen_le {m : Message} (h : m.Complete) : (Headers.ofMessage m).clen ≤ m.body.length := by
  rw [Headers.ofMessage, foldl_field clen_field]
  cases hlast : (m.fields.filter (Field.named "content-length".toList)).getLast? with
  | none => exact Nat.zero_le _
  | some f =>
      obtain ⟨hf, hnamed⟩ := List.mem_filter.mp (List.mem_of_getLast? hlast)
      obtain ⟨n, hn, hle⟩ := h f hf hnamed
      have htrim : trim (f.text.map Char.toLower) = f.content := by
        rw [trim_map_toLower, ← trim_strip, ← Field.content,
          trim_eq_self fun c hc => (hn.plain c hc).1]
        exact (List.map_congr_left fun c hc => (hn.plain c hc).2).trans (List.map_id _)
      rw [Option.map_some, Option.getD_some, htrim]
      cases hparse : parseUnsigned (2 ^ 32) f.content with
      | none => exact Nat.zero_le _
      | some k =>
          obtain ⟨hk, -⟩ := parseUnsigned_eq_some_iff.mp hparse
          rw [Option.getD_some, hk.unique hn]
          exact hle

/-! ## Cookies -/

/-- The cookies of a field, as far as the server tells them apart. -/
def pairs (f : Field) : List Text :=
  (f.text.splitOn ';').map trim

/-- A cookie that is called `session`, in lower case. -/
def isSession (kv : Text) : Bool :=
  "session=".toList.isPrefixOf (kv.map Char.toLower)

theorem findSome?_stripStart (pre : Text) (kvs : List Text) :
    (kvs.map (List.map Char.toLower)).findSome? (stripStart pre) =
      (kvs.find? fun kv => pre.isPrefixOf (kv.map Char.toLower)).map
        fun kv => (kv.map Char.toLower).drop pre.length := by
  induction kvs with
  | nil => rfl
  | cons kv kvs ih =>
      rw [List.map_cons, List.findSome?_cons, List.find?_cons, stripStart]
      by_cases h : pre.isPrefixOf (kv.map Char.toLower) = true
      · simp [h]
      · simp [h, ih]

/-- The cookie is looked for in lower case. -/
theorem cookieToken_map_toLower (f : Field) :
    cookieToken (f.text.map Char.toLower) =
      ((pairs f).find? isSession).map fun kv => (kv.map Char.toLower).drop 8 := by
  have hpairs : ((f.text.map Char.toLower).splitOn ';').map trim =
      (pairs f).map (List.map Char.toLower) := by
    rw [splitOn_map_toLower (by decide), pairs, List.map_map, List.map_map]
    exact List.map_congr_left fun kv _ => trim_map_toLower kv
  rw [cookieToken, hpairs]
  exact findSome?_stripStart _ _

theorem isSession_iff {kv : Text} : isSession kv = true ↔
    kv.map Char.toLower = "session=".toList ++ (kv.map Char.toLower).drop 8 := by
  rw [isSession, List.isPrefixOf_iff_prefix]
  constructor
  · rintro ⟨t, ht⟩
    rw [← ht]
    rfl
  · intro h
    exact ⟨_, h.symm⟩

/-- The session cookie itself is called `session`. -/
theorem exists_isSession {f : Field} {token : Text}
    (h : f.cookies.filter ("session".toList ++ ['=']).isPrefixOf =
      ["session".toList ++ '=' :: token]) : ∃ kv, (pairs f).find? isSession = some kv := by
  have hmem : "session".toList ++ '=' :: token ∈ f.cookies :=
    (List.mem_filter.mp (h ▸ List.mem_singleton_self _)).1
  obtain ⟨kv, hkv, hstrip⟩ := List.mem_map.mp hmem
  have hlike : isSession (trim kv) = true := by
    rw [← trim_strip, hstrip, trim_append_cons _ _ (by decide), isSession,
      List.isPrefixOf_iff_prefix]
    exact ⟨(trimEnd token).map Char.toLower, by rw [List.map_append]; rfl⟩
  rw [← Option.isSome_iff_exists, List.find?_isSome]
  exact ⟨trim kv, List.mem_map_of_mem hkv, hlike⟩

/-- A request with this token: complete, with one cookie of the name `session`, and with the token
once more in a field of its own. -/
structure Presents (m : Message) (token : Text) : Prop where
  complete : m.Complete
  cookie : m.HasCookie "session".toList token
  csrf : m.HasField "x-csrf-token".toList token

/-- The head is UTF-8, and the first cookie that is called `session` in any letter case has the
token, in any letter case. -/
structure Legible (m : Message) (token : Text) : Prop where
  utf8 : ∀ l ∈ m.head, ∃ s, encode s = l
  first : ∀ f ∈ m.fields, f.named "cookie".toList → ∀ kv, (pairs f).find? isSession = some kv →
    kv.map Char.toLower = "session=".toList ++ token

theorem cookie_eq_some_iff {m : Message} {token : Text}
    (h : m.HasCookie "session".toList token) : (Headers.ofMessage m).cookie = some token ↔
      ∀ f ∈ m.fields, f.named "cookie".toList → ∀ kv, (pairs f).find? isSession = some kv →
        kv.map Char.toLower = "session=".toList ++ token := by
  obtain ⟨f, hf, hcookies⟩ := h
  obtain ⟨kv, hkv⟩ := exists_isSession hcookies
  have hlower := isSession_iff.mp (List.find?_some hkv)
  have hcookie : (Headers.ofMessage m).cookie = some ((kv.map Char.toLower).drop 8) := by
    rw [Headers.ofMessage, foldl_field cookie_field, hf, List.getLast?_singleton, Option.map_some,
      Option.getD_some, cookieToken_map_toLower, hkv, Option.map_some]
  rw [hcookie, Option.some_inj]
  constructor
  · rintro rfl g hg hnamed kv' hkv'
    have hmem := List.mem_filter.mpr ⟨hg, hnamed⟩
    rw [hf, List.mem_singleton] at hmem
    subst hmem
    rw [hkv, Option.some_inj] at hkv'
    rw [← hkv', ← hlower]
  · intro hall
    obtain ⟨hmem, hnamed⟩ := List.mem_filter.mp (hf ▸ List.mem_singleton_self f)
    rw [hall f hmem hnamed kv hkv]
    rfl

theorem csrf_eq_some {m : Message} {token : Text} (h : m.HasField "x-csrf-token".toList token)
    (htoken : ∀ c ∈ token, isWhitespace c = false) :
    (Headers.ofMessage m).csrf = some token := by
  obtain ⟨f, hf, hcontent⟩ := h
  rw [Headers.ofMessage, foldl_field csrf_field, hf, List.getLast?_singleton, Option.map_some,
    Option.getD_some, ← trim_strip, ← Field.content, hcontent, trim_eq_self htoken]

theorem newToken_plain (random : List UInt8) : ∀ c ∈ newToken random, isWhitespace c = false := by
  intro c hc
  rw [newToken, Sha256.hex, List.mem_flatMap] at hc
  obtain ⟨b, -, hb⟩ := hc
  exact (isToken_hex2 b).2 c hb

/-! ## The sessions of the server -/

/-- What a step does to the sessions: nothing, or it adds a token. -/
inductive Issues (s s' : Server) : Prop where
  | kept (h : s'.sessions = s.sessions) (hclock : s.clock ≤ s'.clock)
  | added (token : Text) (now : ℕ) (h : s'.sessions = s.sessions.insert token now s'.clock)
      (hnow : s.clock ≤ now) (hclock : now ≤ s'.clock)

theorem dispatch_sessions (req : Request) (cfg : Config) (sessions : Sessions) (now later : ℕ)
    (random : List UInt8) :
    (dispatch req cfg sessions now later random).1 = sessions ∨
      (dispatch req cfg sessions now later random).1 =
        sessions.insert (newToken random) now later := by
  -- the tasks do not matter, and only a login leaves other sessions
  simp only [dispatch, apply_ite Prod.fst, ite_self]
  split
  · exact .inl rfl
  · split
    · rw [login]
      dsimp only
      split
      · exact .inr rfl
      · exact .inl rfl
    · exact .inl rfl

theorem Issues.put {s s' : Server} (h : Issues s s') (i : ℕ) (phase : Phase) :
    Issues s (s'.put i phase) := by
  cases h with
  | kept h hclock => exact .kept h hclock
  | added token now h hnow hclock => exact .added token now h hnow hclock

theorem Issues.progress {s s' : Server} (h : Issues s s') (i : ℕ) (contents : List UInt8)
    (written : ℕ) : Issues s (s'.progress i contents written).1 := by
  rw [Server.progress]
  split
  · exact h.put i _
  · exact h.put i _

theorem issues_step (s : Server) (a : Action) : Issues s (step s a).1 := by
  have hsame : Issues s s := .kept rfl (Nat.le_refl _)
  have hfile : ∀ file, Issues s { s with file := file } := fun _ => .kept rfl (Nat.le_refl _)
  cases a with
  | connect i req =>
      simp only [step]
      split
      · exact hsame.put i _
      · exact hsame
  | openRead i files =>
      simp only [step]
      split
      · split
        · exact hsame.put i _
        · exact hsame.put i _
      · exact hsame
  | read i n files =>
      simp only [step]
      split
      · split
        · exact hsame.put i _
        · exact hsame.put i _
      · exact hsame
  | route i wait pause random files =>
      simp only [step]
      split
      · rename_i req cfg _
        apply Issues.put
        have hnow : s.clock ≤ s.clock + wait := Nat.le_add_right _ _
        have hlater : s.clock + wait ≤ s.clock + wait + pause := Nat.le_add_right _ _
        rcases dispatch_sessions req cfg s.sessions (s.clock + wait) (s.clock + wait + pause)
          random with hkept | hadded
        · exact .kept hkept (hnow.trans hlater)
        · exact .added _ _ hadded hnow hlater
      · exact hsame
  | truncate i =>
      simp only [step]
      split
      · exact (hfile _).progress i _ _
      · exact hsame
  | write i n =>
      simp only [step]
      split
      · exact (hfile _).progress i _ _
      · exact hsame
  | fail i =>
      simp only [step]
      split
      · exact hsame.put i _
      · exact hsame.put i _
      · exact hsame

/-- While its time is not over, a token that was issued at `issued` is in the store. -/
structure Alive (token : Text) (issued : ℕ) (s : Server) : Prop where
  clock : issued ≤ s.clock
  stored : s.clock < issued + sessionTtl →
    ∃ t, s.sessions.tokens[token]? = some t ∧ issued ≤ t

theorem Alive.next {token : Text} {issued : ℕ} {s s' : Server} (h : Alive token issued s)
    (hstep : Issues s s') : Alive token issued s' := by
  have hclock := h.clock
  cases hstep with
  | kept hsessions hle =>
      refine ⟨hclock.trans hle, ?_⟩
      intro hlive
      rw [hsessions]
      exact h.stored (Nat.lt_of_le_of_lt hle hlive)
  | added token' now hsessions hnow hle =>
      refine ⟨hclock.trans (hnow.trans hle), ?_⟩
      intro hlive
      rw [hsessions, Sessions.getElem?_insert]
      by_cases heq : token = token'
      · exact ⟨s'.clock, if_pos heq, by omega⟩
      · -- the tokens that are dropped are older
        obtain ⟨t, ht, hissued⟩ := h.stored (by omega)
        refine ⟨t, ?_, hissued⟩
        rw [if_neg heq, ht, Option.filter_some, if_pos (by simp only [decide_eq_true_eq]; omega)]

theorem Alive.run {token : Text} {issued : ℕ} {s : Server} (h : Alive token issued s)
    (actions : List Action) : Alive token issued (Machine.run step s actions).1 :=
  Machine.run_invariant step (motive := fun s _ => Alive token issued s) actions
    (fun s _ a _ hs => hs.next (issues_step s a)) s [] h

theorem Alive.valid {token : Text} {issued : ℕ} {s : Server} (h : Alive token issued s) {wait : ℕ}
    (hlive : s.clock + wait < issued + sessionTtl) :
    s.sessions.valid token (s.clock + wait) = true := by
  obtain ⟨t, ht, hissued⟩ := h.stored (Nat.lt_of_le_of_lt (Nat.le_add_right _ _) hlive)
  have hpos : 0 < sessionTtl := by decide
  rw [Sessions.valid_iff]
  exact ⟨t, ht, by omega⟩

/-- The thread is ready to route a login with the correct password. -/
structure LoggingIn (s : Server) (i : ℕ) (req : Request) (cfg : Config) : Prop where
  ready : s.threads i = some (.ready req cfg)
  required : authRequired cfg
  method : req.method = "POST".toList
  path : req.path = "/ui/login".toList
  verified : verifyPassword cfg (suppliedPassword req)

theorem LoggingIn.dispatch_eq {s : Server} {i : ℕ} {req : Request} {cfg : Config}
    (h : LoggingIn s i req cfg) (now later : ℕ) (random : List UInt8) :
    dispatch req cfg s.sessions now later random =
      login req cfg s.sessions (cfg.getOr "system".toList "hostname".toList "lwrt".toList) now later
        random := by
  rw [dispatch]
  dsimp only
  rw [if_neg, if_pos ⟨h.method, h.path⟩]
  rintro ⟨hget, -⟩
  rw [h.method] at hget
  exact absurd hget (by decide)

/-- The login returns a new token and stores it. -/
theorem LoggingIn.routed {s : Server} {i : ℕ} {req : Request} {cfg : Config}
    (h : LoggingIn s i req cfg) (wait pause : ℕ) (random : List UInt8) (files : Files) :
    (∃ resp, (step s (.route i wait pause random files)).1.threads i = some (.finished resp) ∧
        resp.setCookie = some (newToken random)) ∧
      Alive (newToken random) (s.clock + wait + pause)
        (step s (.route i wait pause random files)).1 := by
  have hverified := h.verified
  rw [suppliedPassword] at hverified
  have hlogin : ∀ host now later, login req cfg s.sessions host now later random =
      (s.sessions.insert (newToken random) now later,
        .respond { html "200 OK".toList (shellInner (some (newToken random)) host) with
          setCookie := some (newToken random) }) := by
    intro host now later
    rw [login]
    dsimp only
    rw [h.required, hverified]
    rfl
  simp only [step, h.ready, h.dispatch_eq, hlogin]
  refine ⟨⟨_, if_pos rfl, rfl⟩, Nat.le_refl _, ?_⟩
  intro _
  refine ⟨_, ?_, Nat.le_refl _⟩
  exact (Sessions.getElem?_insert _ _ _ _ _).trans (if_pos rfl)

/-- A request with the token of a session in its field has it in its cookie if it is accepted. -/
theorem accepted_iff {req : Request} {cfg : Config} (hrequired : authRequired cfg)
    {sessions : Sessions} {now : ℕ} {token : Text} (hvalid : sessions.valid token now = true)
    (hcsrf : req.csrf = some token) :
    isAuthed req cfg sessions now ∧ csrfOk req cfg ↔ req.cookieToken = some token := by
  constructor
  · intro haccepted
    obtain ⟨hauthed, hok⟩ := haccepted
    rw [isAuthed, if_pos hrequired] at hauthed
    cases hcookie : req.cookieToken with
    | none => simp [hcookie] at hauthed
    | some token' =>
        have heq := csrf_eq_of_csrfOk hrequired hok hcookie
        rw [hcsrf] at heq
        exact heq.symm
  · intro hcookie
    refine ⟨?_, ?_⟩
    · rw [isAuthed, if_pos hrequired, hcookie]
      exact hvalid
    · rw [csrfOk, if_pos hrequired, hcookie, hcsrf]
      exact beq_self_eq_true _

/-- A server with the password `x` and a login. -/
def loginServer : Server :=
  { Server.start none with
    threads := fun i => if i = 0 then
      some (.ready ⟨"POST".toList, "/ui/login".toList, encode "password=x".toList, none, none⟩
        (Config.parse "[admin]\npassword = x\n".toList)) else none }

def fieldOf (name value : Text) (hcolon : byte ':' ∉ encode name) (hname : byte '\n' ∉ encode name)
    (hvalue : byte '\n' ∉ encode value) : Field :=
  ⟨encode name, encode value, hcolon, hname, hvalue⟩

/-- A save after the login that gave the token `07`, with one more cookie. -/
def saveRequest (cookie : Text) (h : byte '\n' ∉ encode (cookie ++ "; session=07\r".toList)) :
    Message where
  start := encode "POST /ui/settings HTTP/1.1\r".toList
  fields := [fieldOf "COOKIE".toList (cookie ++ "; session=07\r".toList) (by decide) (by decide) h,
    fieldOf "content-length".toList " 2\r".toList (by decide) (by decide) (by decide),
    fieldOf "X-CSRF-Token".toList " 07\r".toList (by decide) (by decide) (by decide)]
  crlf := true
  body := [97, 98]
  newline_not_mem_start := by decide

theorem loginServer_loggingIn : LoggingIn loginServer 0
    ⟨"POST".toList, "/ui/login".toList, encode "password=x".toList, none, none⟩
    (Config.parse "[admin]\npassword = x\n".toList) :=
  ⟨rfl, by decide +kernel, rfl, rfl, by decide +kernel⟩

theorem saveRequest_complete (cookie : Text)
    (h : byte '\n' ∉ encode (cookie ++ "; session=07\r".toList)) :
    (saveRequest cookie h).Complete := by
  intro f hf hnamed
  rw [saveRequest, List.mem_cons, List.mem_cons, List.mem_singleton] at hf
  rcases hf with rfl | rfl | rfl
  · rw [Field.named, fieldOf, fromUtf8Lossy_encode] at hnamed
    exact absurd hnamed (by decide)
  · have hcontent : strip " 2\r".toList = "2".toList := by decide
    refine ⟨2, ?_, Nat.le_refl 2⟩
    rw [Field.content, Field.text, fieldOf, fromUtf8Lossy_encode, hcontent]
    exact ⟨['2'], Or.inl rfl, by decide, List.forall_mem_singleton.mpr rfl, rfl⟩
  · rw [Field.named, fieldOf, fromUtf8Lossy_encode] at hnamed
    exact absurd hnamed (by decide)

end Lwrt.Httpd
