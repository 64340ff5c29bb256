import Lwrt.Applet.Httpd.Route

/-! # Sessions guard the protected routes

Along every run, a protected request carries the token of an earlier login that has not
expired. -/

namespace Lwrt.Httpd

open Library Text

/-! ## The session store -/

theorem Sessions.getElem?_insert (s : Sessions) (token t : Text) (now later : ℕ) :
    (s.insert token now later).tokens[t]? =
      if t = token then some later
      else s.tokens[t]?.filter fun issued => now - issued < sessionTtl := by
  simp only [insert, gc, Std.TreeMap.getElem?_insert, Std.LawfulEqOrd.compare_eq_iff_eq,
    Std.TreeMap.getElem?_filter']
  by_cases h : t = token
  · simp [h]
  · simp [h, Ne.symm h]

theorem Sessions.valid_iff {s : Sessions} {token : Text} {now : ℕ} :
    s.valid token now ↔ ∃ issued, s.tokens[token]? = some issued ∧ now - issued < sessionTtl := by
  rw [valid]
  cases s.tokens[token]? <;> simp

/-! ## Fragments and other responses -/

/-- The second character of a page or fragment tells them apart. -/
def Opens (c : Char) (text : Text) : Prop :=
  text.take 2 = ['<', c]

instance (c : Char) (text : Text) : Decidable (Opens c text) :=
  inferInstanceAs (Decidable (_ = _))

theorem Opens.append {c : Char} {a : Text} (h : Opens c a) (b : Text) : Opens c (a ++ b) := by
  have hlen : 2 ≤ a.length := by
    have := congrArg List.length h
    simp only [List.length_take, List.length_cons, List.length_nil] at this
    omega
  rw [Opens, List.take_append_of_le_length hlen, h]

theorem Opens.eq_cons {c : Char} {text : Text} (h : Opens c text) : ∃ t, text = '<' :: c :: t := by
  refine ⟨text.drop 2, ?_⟩
  rw [← List.take_append_drop 2 text, h]
  simp

theorem opens_fragStatus (cfg : Config) (files : Files) : Opens 'd' (fragStatus cfg files) := by
  unfold fragStatus
  iterate 8 refine Opens.append ?_ _
  decide +kernel

theorem opens_fragClients (files : Files) : Opens 'd' (fragClients files) := by
  simp only [fragClients]
  split
  · decide +kernel
  · iterate 2 refine Opens.append ?_ _
    decide +kernel

theorem opens_fragSettings (cfg : Config) : Opens 'd' (fragSettings cfg) := by
  unfold fragSettings
  iterate 21 refine Opens.append ?_ _
  decide +kernel

theorem opens_fullPage (inner : Text) : Opens '!' (fullPage inner) := by
  unfold fullPage
  iterate 6 refine Opens.append ?_ _
  decide +kernel

theorem opens_shellInner (token host : Text) : Opens 'm' (shellInner (some token) host) := by
  unfold shellInner
  iterate 9 refine Opens.append ?_ _
  rw [Option.map_some, Option.getD_some]
  iterate 2 refine Opens.append ?_ _
  decide +kernel

/-- Bodies that open differently have different bytes. -/
theorem encode_ne_of_opens {c d : Char} {a b : Text} {x y : UInt8} (ha : Opens c a) (hb : Opens d b)
    (hc : String.utf8EncodeChar c = [x]) (hd : String.utf8EncodeChar d = [y]) (hxy : x ≠ y) :
    Utf8.encode a ≠ Utf8.encode b := by
  obtain ⟨s, rfl⟩ := ha.eq_cons
  obtain ⟨t, rfl⟩ := hb.eq_cons
  simp [Utf8.encode, hc, hd, hxy]

/-- The response shows one of the three fragments. -/
def Exchange.Shows (x : Exchange) : Prop :=
  x.resp = html "200 OK".toList (fragStatus x.before.config x.call.files) ∨
    x.resp = html "200 OK".toList (fragClients x.call.files) ∨
    x.resp = html "200 OK".toList (fragSettings x.before.config)

/-- A response that anyone may get. -/
def Public (resp : Resp) : Prop :=
  resp.status ≠ "200 OK".toList ∨
    ∃ c x text, Opens c text ∧ String.utf8EncodeChar c = [x] ∧ x ≠ 100 ∧
      resp.payload = Utf8.encode text

theorem not_shows_of_public {x : Exchange} (h : Public x.resp) : ¬x.Shows := by
  have hcard : ∀ body, Opens 'd' body → x.resp ≠ html "200 OK".toList body := by
    intro body hbody heq
    rw [heq] at h
    rcases h with h | ⟨c, b, text, hopens, hc, hb, hpayload⟩
    · exact h rfl
    · exact encode_ne_of_opens hopens hbody hc (y := 100) (by decide) hb hpayload.symm
  rintro (h | h | h)
  · exact hcard _ (opens_fragStatus _ _) h
  · exact hcard _ (opens_fragClients _) h
  · exact hcard _ (opens_fragSettings _) h

/-! ## The decisions of a request -/

/-- The password of a login form. -/
def suppliedPassword (req : Request) : Text :=
  (field (parseForm req.body) "password".toList).getD []

/-- What the router can decide on when a password is set. -/
inductive Decision (req : Request) (cfg : Config) (sessions : Sessions) (now later : ℕ)
    (random : List UInt8) : Sessions × Task → Prop
  | login (host : Text) (hmethod : req.method = "POST".toList)
      (hpath : req.path = "/ui/login".toList)
      (hverify : verifyPassword cfg (suppliedPassword req)) :
      Decision req cfg sessions now later random
        (sessions.insert (newToken random) now later,
          .respond { html "200 OK".toList (shellInner (some (newToken random)) host) with
            setCookie := some (newToken random) })
  | answer (resp : Resp) (hcookie : resp.setCookie = none) (hpublic : Public resp) :
      Decision req cfg sessions now later random (sessions, .respond resp)
  | read (task : Task) (hauthed : isAuthed req cfg sessions now)
      (htask : task = .status ∨ task = .clients ∨ task = .settings) :
      Decision req cfg sessions now later random (sessions, task)
  | act (task : Task) (hauthed : isAuthed req cfg sessions now) (hcsrf : csrfOk req cfg)
      (htask : task = .save req.body ∨ task = .reboot) :
      Decision req cfg sessions now later random (sessions, task)

theorem html_payload (status body : Text) : (html status body).payload = Utf8.encode body :=
  rfl

theorem public_fullPage (inner : Text) : Public (html "200 OK".toList (fullPage inner)) :=
  Or.inr ⟨'!', 33, fullPage inner, opens_fullPage inner, by decide, by decide, html_payload _ _⟩

theorem public_of_status {status : Text} (body : Text) (h : status ≠ "200 OK".toList) :
    Public (html status body) :=
  Or.inl h

theorem dispatch_decision (req : Request) {cfg : Config} (hauth : authRequired cfg)
    (sessions : Sessions) (now later : ℕ) (random : List UInt8) :
    Decision req cfg sessions now later random (dispatch req cfg sessions now later random) := by
  simp only [dispatch]
  split
  · split
    · exact .answer _ rfl (public_fullPage _)
    · exact .answer _ rfl (public_fullPage _)
  · split
    · rename_i hlogin
      simp only [login]
      split
      · rename_i hverify
        rw [hauth, Bool.not_true, Bool.false_or] at hverify
        exact .login _ hlogin.1 hlogin.2 hverify
      · exact .answer _ rfl (public_of_status _ (by decide +kernel))
    · split
      · exact .answer _ rfl (public_of_status _ (by decide +kernel))
      · rename_i hauthed
        simp only [Bool.not_eq_true', Bool.not_eq_false] at hauthed
        split
        · exact .read _ hauthed (Or.inl rfl)
        · split
          · exact .read _ hauthed (Or.inr (Or.inl rfl))
          · split
            · exact .read _ hauthed (Or.inr (Or.inr rfl))
            · split
              · by_cases hcsrf : csrfOk req cfg
                · rw [if_pos hcsrf]
                  exact .act _ hauthed hcsrf (Or.inl rfl)
                · rw [if_neg hcsrf]
                  exact .answer _ rfl (public_of_status _ (by decide +kernel))
              · split
                · by_cases hcsrf : csrfOk req cfg
                  · rw [if_pos hcsrf]
                    exact .act _ hauthed hcsrf (Or.inr rfl)
                  · rw [if_neg hcsrf]
                    exact .answer _ rfl (public_of_status _ (by decide +kernel))
                · exact .answer _ rfl (Or.inl (by decide +kernel))

/-! ## One request -/

def Exchange.Saves (x : Exchange) : Prop :=
  ∃ body, x.task = .save body

def Exchange.Reboots (x : Exchange) : Prop :=
  x.task = .reboot

/-- A login that succeeded and returned `token`. -/
structure LoggedIn (x : Exchange) (token : Text) : Prop where
  method : x.call.req.method = "POST".toList
  path : x.call.req.path = "/ui/login".toList
  verified : verifyPassword x.call.cfg (suppliedPassword x.call.req)
  returned : x.resp.setCookie = some token

/-- The request carries the token of one of the earlier logins that is still alive. -/
def Authorised (earlier : List Exchange) (x : Exchange) (token : Text) : Prop :=
  x.call.req.cookieToken = some token ∧
    ∃ y ∈ earlier, LoggedIn y token ∧ y.later ≤ x.now ∧ x.now < y.later + sessionTtl

/-- What holds of a request, given the ones before it. -/
structure Guarded (earlier : List Exchange) (x : Exchange) : Prop where
  shows : x.Shows → ∃ token, Authorised earlier x token
  acts : x.Saves ∨ x.Reboots → ∃ token, Authorised earlier x token ∧ x.call.req.csrf = some token
  stored : ¬x.Saves → x.after.stored = x.before.stored
  signals : ¬x.Reboots → x.after.signals = x.before.signals
  sessions : x.resp.setCookie = none → x.after.sessions = x.before.sessions
  /-- A login adds one token and drops only expired ones. -/
  added : ∀ token, x.resp.setCookie = some token →
    LoggedIn x token ∧ x.before.sessions.tokens[token]? = none ∧
      ∀ t, x.after.sessions.tokens[t]? =
        if t = token then some x.later
        else x.before.sessions.tokens[t]?.filter fun issued => x.now - issued < sessionTtl

/-- Every token of the store comes from a login, and the clock does not run backwards. -/
structure Sound (s : Site) (out : List Exchange) : Prop where
  issued : ∀ token t, s.sessions.tokens[token]? = some t → ∃ y ∈ out, LoggedIn y token ∧ y.later = t
  clock : ∀ y ∈ out, y.later ≤ s.clock

theorem authorised_of_isAuthed {s : Site} {out : List Exchange} (h : Sound s out) {c : Call}
    (hauth : authRequired c.cfg)
    (hauthed : isAuthed c.req c.cfg s.sessions (s.clock + c.wait)) :
    ∃ token, Authorised out (route s c) token := by
  rw [isAuthed, if_pos hauth] at hauthed
  cases hcookie : c.req.cookieToken with
  | none => simp [hcookie] at hauthed
  | some token =>
      rw [hcookie] at hauthed
      obtain ⟨t, ht, hfresh⟩ := Sessions.valid_iff.mp hauthed
      obtain ⟨y, hy, hlogin, rfl⟩ := h.issued token t ht
      have hclock := h.clock y hy
      refine ⟨token, hcookie, y, hy, hlogin, ?_, ?_⟩
      · change y.later ≤ s.clock + c.wait
        omega
      · change s.clock + c.wait < y.later + sessionTtl
        omega

theorem csrf_eq_of_csrfOk {req : Request} {cfg : Config} (hauth : authRequired cfg)
    (h : csrfOk req cfg) {token : Text} (hcookie : req.cookieToken = some token) :
    req.csrf = some token := by
  rw [csrfOk, if_pos hauth, hcookie] at h
  cases hcsrf : req.csrf with
  | none => simp [hcsrf] at h
  | some header =>
      simp only [hcsrf, beq_iff_eq] at h
      rw [h]

/-- The exchange that a decision leads to. -/
def exchange (s : Site) (c : Call) (d : Sessions × Task) : Exchange where
  before := s
  call := c
  task := d.2
  after := ⟨(perform s c d.2).1, (perform s c d.2).2.1, d.1, s.clock + c.wait + c.pause⟩
  resp := (perform s c d.2).2.2

theorem route_eq_exchange (s : Site) (c : Call) :
    route s c = exchange s c (dispatch c.req c.cfg s.sessions (s.clock + c.wait)
      (s.clock + c.wait + c.pause) c.random) :=
  rfl

theorem public_login (token host : Text) :
    Public { html "200 OK".toList (shellInner (some token) host) with setCookie := some token } :=
  Or.inr ⟨'m', 109, shellInner (some token) host, opens_shellInner token host, by decide, by decide,
    html_payload "200 OK".toList _⟩

theorem perform_stored (s : Site) (c : Call) {task : Task} (h : ¬∃ body, task = .save body) :
    (perform s c task).1 = s.stored := by
  cases task with
  | save body => exact absurd ⟨body, rfl⟩ h
  | _ => rfl

theorem perform_signals (s : Site) (c : Call) {task : Task} (h : task ≠ .reboot) :
    (perform s c task).2.1 = s.signals := by
  cases task with
  | reboot => exact absurd rfl h
  | _ => rfl

theorem saveAnswer_setCookie (ok : Bool) : (saveAnswer ok).setCookie = none := by
  cases ok <;> rfl

section

variable {s : Site} {c : Call} {d : Sessions × Task}
  (hd : Decision c.req c.cfg s.sessions (s.clock + c.wait) (s.clock + c.wait + c.pause) c.random d)

include hd

theorem Decision.isAuthed_of_shows (h : (exchange s c d).Shows) :
    isAuthed c.req c.cfg s.sessions (s.clock + c.wait) := by
  cases hd with
  | login host _ _ _ => exact absurd h (not_shows_of_public (public_login _ host))
  | answer resp _ hpublic => exact absurd h (not_shows_of_public hpublic)
  | read _ hauthed _ => exact hauthed
  | act _ hauthed _ _ => exact hauthed

theorem Decision.authorised_of_acts (h : (exchange s c d).Saves ∨ (exchange s c d).Reboots) :
    isAuthed c.req c.cfg s.sessions (s.clock + c.wait) ∧ csrfOk c.req c.cfg := by
  cases hd with
  | login host _ _ _ =>
      rcases h with ⟨_, h⟩ | h
      · cases h
      · cases h
  | answer resp _ _ =>
      rcases h with ⟨_, h⟩ | h
      · cases h
      · cases h
  | read task _ htask =>
      rcases htask with rfl | rfl | rfl
      all_goals
        rcases h with ⟨_, h⟩ | h
        · cases h
        · cases h
  | act _ hauthed hcsrf _ => exact ⟨hauthed, hcsrf⟩

/-- The sessions change only where a cookie is set. -/
theorem Decision.sessions_eq :
    (exchange s c d).resp.setCookie = none ∧ (exchange s c d).after.sessions = s.sessions ∨
      ∃ token, (exchange s c d).resp.setCookie = some token ∧ LoggedIn (exchange s c d) token ∧
        (exchange s c d).after.sessions =
          s.sessions.insert token (s.clock + c.wait) (s.clock + c.wait + c.pause) := by
  cases hd with
  | login host hmethod hpath hverify => exact Or.inr ⟨_, rfl, ⟨hmethod, hpath, hverify, rfl⟩, rfl⟩
  | answer resp hcookie _ => exact Or.inl ⟨hcookie, rfl⟩
  | read task _ htask =>
      rcases htask with rfl | rfl | rfl
      · exact Or.inl ⟨rfl, rfl⟩
      · exact Or.inl ⟨rfl, rfl⟩
      · exact Or.inl ⟨rfl, rfl⟩
  | act task _ _ htask =>
      rcases htask with rfl | rfl
      · exact Or.inl ⟨saveAnswer_setCookie _, rfl⟩
      · exact Or.inl ⟨rfl, rfl⟩

/-- What holds of a request, given that the sessions it relies on come from logins. -/
theorem Decision.guarded {out : List Exchange} (h : Sound s out) (hauth : authRequired c.cfg)
    (hauthorised : isAuthed c.req c.cfg s.sessions (s.clock + c.wait) →
      ∃ token, Authorised out (exchange s c d) token)
    (hnew : ∀ token, (exchange s c d).resp.setCookie = some token →
      ∀ y ∈ out, y.resp.setCookie ≠ some token) : Guarded out (exchange s c d) := by
  refine ⟨?_, ?_, ?_, ?_, ?_, ?_⟩
  · exact fun hshows => hauthorised (hd.isAuthed_of_shows hshows)
  · intro hacts
    obtain ⟨hauthed, hcsrf⟩ := hd.authorised_of_acts hacts
    obtain ⟨token, htoken⟩ := hauthorised hauthed
    exact ⟨token, htoken, csrf_eq_of_csrfOk hauth hcsrf htoken.1⟩
  · exact fun hsaves => perform_stored s c hsaves
  · exact fun hreboots => perform_signals s c hreboots
  · intro hnone
    rcases hd.sessions_eq with ⟨-, hkept⟩ | ⟨token, hsome, -⟩
    · exact hkept
    · rw [hnone] at hsome
      cases hsome
  · intro token hsome
    rcases hd.sessions_eq with ⟨hnone, -⟩ | ⟨token', hsome', hlogin, hinsert⟩
    · rw [hnone] at hsome
      cases hsome
    · rw [hsome] at hsome'
      cases hsome'
      refine ⟨hlogin, ?_, ?_⟩
      · cases hold : s.sessions.tokens[token]? with
        | none => exact hold
        | some t =>
            obtain ⟨y, hy, hylogin, -⟩ := h.issued token t hold
            exact absurd hylogin.returned (hnew token hsome y hy)
      · intro t
        rw [hinsert]
        exact s.sessions.getElem?_insert token t _ _

theorem Decision.sound {out : List Exchange} (h : Sound s out) :
    Sound (exchange s c d).after (out ++ [exchange s c d]) := by
  refine ⟨?_, ?_⟩
  · intro token t ht
    rcases hd.sessions_eq with ⟨-, hkept⟩ | ⟨token', hsome, hlogin, hinsert⟩
    · rw [hkept] at ht
      obtain ⟨y, hy, hy'⟩ := h.issued token t ht
      exact ⟨y, List.mem_append_left _ hy, hy'⟩
    · rw [hinsert, Sessions.getElem?_insert] at ht
      by_cases heq : token = token'
      · subst heq
        rw [if_pos rfl, Option.some.injEq] at ht
        exact ⟨_, by simp, hlogin, ht⟩
      · rw [if_neg heq, Option.filter_eq_some_iff] at ht
        obtain ⟨y, hy, hy'⟩ := h.issued token t ht.1
        exact ⟨y, List.mem_append_left _ hy, hy'⟩
  · intro y hy
    change y.later ≤ s.clock + c.wait + c.pause
    rcases List.mem_append.mp hy with hy | hy
    · have := h.clock y hy
      omega
    · rw [List.mem_singleton.mp hy]
      exact le_refl _

end

/-- One request keeps the invariant and is guarded. -/
theorem route_step {s : Site} {out : List Exchange} (h : Sound s out) {c : Call}
    (hauth : authRequired c.cfg)
    (hnew : ∀ token, (route s c).resp.setCookie = some token →
      ∀ y ∈ out, y.resp.setCookie ≠ some token) :
    Guarded out (route s c) ∧ Sound (route s c).after (out ++ [route s c]) := by
  have hauthorised := authorised_of_isAuthed h hauth
  have hd := dispatch_decision c.req hauth s.sessions (s.clock + c.wait)
    (s.clock + c.wait + c.pause) c.random
  rw [route_eq_exchange] at hnew hauthorised ⊢
  exact ⟨hd.guarded h hauth hauthorised hnew, hd.sound h⟩

/-! ## Whole runs -/

/-- The tokens returned by the logins of a run. -/
def returnedTokens (out : List Exchange) : List Text :=
  out.filterMap (·.resp.setCookie)

theorem returnedTokens_append (a b : List Exchange) :
    returnedTokens (a ++ b) = returnedTokens a ++ returnedTokens b :=
  List.filterMap_append

theorem mem_returnedTokens {out : List Exchange} {y : Exchange} (hy : y ∈ out) {token : Text}
    (h : y.resp.setCookie = some token) : token ∈ returnedTokens out :=
  List.mem_filterMap.mpr ⟨y, hy, h⟩

/-- Every request of a run is guarded by the ones before it. -/
theorem requests_guarded (s₀ : Site) (h₀ : s₀.sessions = .empty) (calls : List Call)
    (hauth : ∀ c ∈ calls, authRequired c.cfg)
    (hfresh : (returnedTokens (Machine.run serve s₀ calls).2).Nodup)
    {earlier later : List Exchange} {x : Exchange}
    (hx : (Machine.run serve s₀ calls).2 = earlier ++ x :: later) : Guarded earlier x := by
  have hinit : Sound s₀ [] := ⟨by simp [h₀, Sessions.empty], by simp⟩
  have hrun := Machine.run_invariant serve
    (motive := fun s out => (returnedTokens out).Nodup →
      Sound s out ∧ Each Guarded out)
    calls ?_ s₀ [] (fun _ => ⟨hinit, .nil⟩)
  · rw [List.nil_append] at hrun
    exact (hrun hfresh).2 _ _ _ hx
  · intro s out c hc ih hnodup
    simp only [serve] at hnodup ⊢
    rw [returnedTokens_append] at hnodup
    obtain ⟨hout, -, hdisjoint⟩ := List.nodup_append.mp hnodup
    obtain ⟨hsound, hguarded⟩ := ih hout
    have hnew : ∀ token, (route s c).resp.setCookie = some token →
        ∀ y ∈ out, y.resp.setCookie ≠ some token := by
      intro token htoken y hy hyt
      exact hdisjoint token (mem_returnedTokens hy hyt) token
        (mem_returnedTokens (List.mem_singleton_self _) htoken) rfl
    obtain ⟨hlast, hnext⟩ := route_step hsound (hauth c hc) hnew
    exact ⟨hnext, hguarded.snoc hlast⟩

/-- A login a minute before a reboot, with what they need of a system. -/
def sampleCalls : List Call :=
  [⟨⟨"POST".toList, "/ui/login".toList, Utf8.encode "password=x".toList, none, none⟩,
      Config.parse "[admin]\npassword = x\n".toList, 0, 1, [7], ⟨none, none, none⟩, .done⟩,
    ⟨⟨"POST".toList, "/ui/reboot".toList, [], some "07".toList, some "07".toList⟩,
      Config.parse "[admin]\npassword = x\n".toList, 60 * 10 ^ 9, 0, [8], ⟨none, none, none⟩, .done⟩]

theorem requests_guarded_reboot :
    ∃ y x, (Machine.run serve ⟨none, 0, .empty, 0⟩ sampleCalls).2 = [y, x] ∧ x.Reboots ∧
      x.after.signals = 1 ∧ Guarded [y] x := by
  refine ⟨_, _, rfl, ?_, ?_, ?_⟩
  · unfold Exchange.Reboots
    decide +kernel
  · decide +kernel
  · refine requests_guarded ⟨none, 0, .empty, 0⟩ rfl sampleCalls ?_ ?_ (List.append_nil _).symm
    · decide +kernel
    · decide +kernel

end Lwrt.Httpd
