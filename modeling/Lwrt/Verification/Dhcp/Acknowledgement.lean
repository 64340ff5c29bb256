import Lwrt.Verification.Dhcp.Exchange

/-! # Where the configuration of a client comes from

The client takes its address from the offer and the rest from the acknowledgement. -/

namespace Lwrt.Dhcp

open Library

/-! ## Datagrams -/

/-- The server identifier in the options. Neither `parse` nor `parse_ack` looks at it. -/
def serverId (buf : List UInt8) : Option Ipv4Addr :=
  ((options buf).filter (·.1 = optServerid)).getLast?.bind fun opt => ipv4 opt.2

/-- Both datagrams carry the same server identifier. -/
def SameServer (a o : List UInt8) : Prop :=
  ∃ server, serverId a = some server ∧ serverId o = some server

/-- What `parse_ack` accepts is a packet. -/
theorem parse_of_parseAck {buf : List UInt8} {xid : Xid}
    {fields : Ipv4Addr × Option Ipv4Addr × Option Ipv4Addr} (h : parseAck buf xid = some fields) :
    ∃ p, parse buf = some p := by
  have hhead : ¬ (buf.length < 240 ∨ extract buf 236 4 ≠ magic) := by
    intro hbad
    rw [parseAck, if_pos (by tauto)] at h
    cases h
  obtain ⟨hlen, hmagic⟩ := not_or.mp hhead
  obtain ⟨p, -, hp⟩ := exists_parse (Nat.le_of_not_lt hlen) (not_not.mp hmagic)
  exact ⟨_, hp⟩

/-! ## The exchange -/

/-- What the client reads, cut to its buffer. -/
def ClientEvent.datagram : ClientEvent → List UInt8
  | .recv d _ => d.take 1024
  | _ => []

/-- A client waits for the acknowledgement of an offer that it has read. -/
theorem Client.step_eq_waitAck {xid : Xid} {mac : Mac} {s : Client} {e : ClientEvent} {p : Packet}
    (h : (s.step xid mac e).1 = .waitAck p) :
    s = .waitAck p ∨ (s = .waitOffer ∧ parse e.datagram = some p) := by
  unfold step at h
  split at h
  · split at h <;> cases h
  · split at h
    · rename_i q hq
      split at h
      · cases h
        exact Or.inr ⟨rfl, hq⟩
      · cases h
    · cases h
  · cases h
  · split at h
    · split at h <;> cases h
    · exact Or.inl h
  · cases h
  · exact Or.inl h

/-- A configured client has read an acknowledgement. -/
theorem Client.step_eq_configured {xid : Xid} {mac : Mac} {s : Client} {e : ClientEvent}
    {addr mask : Ipv4Addr} {gw dns : Option Ipv4Addr}
    (h : (s.step xid mac e).1 = .configured addr mask gw dns) :
    s = .configured addr mask gw dns ∨ ∃ p d, s = .waitAck p ∧ e = .recv d true ∧
      p.yiaddr = addr ∧ parseAck e.datagram xid = some (mask, gw, dns) := by
  unfold step at h
  split at h
  · split at h <;> cases h
  · split at h
    · split at h <;> cases h
    · cases h
  · cases h
  · rename_i p d configures
    split at h
    · rename_i hfields
      split at h
      · rename_i hconf
        cases h
        exact Or.inr ⟨p, d, rfl, by rw [hconf], rfl, hfields⟩
      · cases h
    · cases h
  · cases h
  · exact Or.inl h

/-- The converse: what an acknowledgement configures. -/
theorem Client.step_waitAck {xid : Xid} {d : List UInt8} {mask : Ipv4Addr}
    {gw dns : Option Ipv4Addr} (h : parseAck (d.take 1024) xid = some (mask, gw, dns)) (mac : Mac)
    (p : Packet) :
    (Client.step xid mac (.waitAck p) (.recv d true)).1 = .configured p.yiaddr mask gw dns := by
  simp only [step, h, if_true]

/-- A client together with the last datagram that each of its loops has read, which is the offer
or the acknowledgement once the loop is left. -/
structure Trail where
  client : Client
  offered : List UInt8
  acked : List UInt8

def Trail.start : Trail :=
  ⟨.start, [], []⟩

def Trail.step (xid : Xid) (mac : Mac) (t : Trail) (e : ClientEvent) : Trail where
  client := (t.client.step xid mac e).1
  offered := match t.client with
    | .waitOffer => e.datagram
    | _ => t.offered
  acked := match t.client with
    | .waitAck _ => e.datagram
    | _ => t.acked

def trail (xid : Xid) (mac : Mac) (es : List ClientEvent) : Trail :=
  es.foldl (Trail.step xid mac) .start

theorem trail_concat (xid : Xid) (mac : Mac) (es : List ClientEvent) (e : ClientEvent) :
    trail xid mac (es ++ [e]) = (trail xid mac es).step xid mac e := by
  rw [trail, List.foldl_append, List.foldl_cons, List.foldl_nil, trail]

/-- The client of the trail is the client. -/
theorem client_trail (xid : Xid) (mac : Mac) (es : List ClientEvent) :
    (trail xid mac es).client = (Machine.run (Client.step xid mac) .start es).1 := by
  have hrun : ∀ t : Trail, (es.foldl (Trail.step xid mac) t).client =
      (Machine.run (Client.step xid mac) t.client es).1 := by
    induction es with
    | nil => intro t; rfl
    | cons e es ih =>
        intro t
        rw [List.foldl_cons, ih, Machine.run_cons, Trail.step]
  exact hrun Trail.start

/-- The offer that a client waits on was read from the datagram of the trail. -/
theorem offered_trail {xid : Xid} {mac : Mac} {es : List ClientEvent} {p : Packet}
    (h : (trail xid mac es).client = .waitAck p) : parse (trail xid mac es).offered = some p := by
  induction es using List.reverseRecOn with
  | nil => cases h
  | append_singleton es e ih =>
      rw [trail_concat] at h ⊢
      rcases Client.step_eq_waitAck h with hold | ⟨hold, hp⟩
      · simp only [Trail.step, hold]
        exact ih hold
      · simp only [Trail.step, hold]
        exact hp

/-! ## One acknowledgement -/

/-- The four values come from one acknowledgement to this client, from the server that made the
offer. -/
structure FromOneAck (xid : Xid) (mac : Mac) (t : Trail) (addr mask : Ipv4Addr)
    (gw dns : Option Ipv4Addr) : Prop where
  lease : ∃ q, parse t.acked = some q ∧ q.yiaddr = addr ∧ q.chaddr = mac
  parameters : parseAck t.acked xid = some (mask, gw, dns)
  server : SameServer t.acked t.offered

def OneSource (xid : Xid) (mac : Mac) (t : Trail) : Prop :=
  ∀ addr mask gw dns, t.client = .configured addr mask gw dns →
    FromOneAck xid mac t addr mask gw dns

/-- A datagram that the client would take for its acknowledgement is one: for the address in the
offer, to this client, and from the server of the offer. -/
def Agrees (xid : Xid) (mac : Mac) (t : Trail) (e : ClientEvent) : Prop :=
  ∀ p d, t.client = .waitAck p → e = .recv d true →
    ∀ q fields, parse e.datagram = some q → parseAck e.datagram xid = some fields →
      q.yiaddr = p.yiaddr ∧ q.chaddr = mac ∧ SameServer e.datagram t.offered

theorem oneSource_step {xid : Xid} {mac : Mac} {t : Trail} (h : OneSource xid mac t)
    {e : ClientEvent} (he : Agrees xid mac t e) : OneSource xid mac (t.step xid mac e) := by
  intro addr mask gw dns hconf
  rcases Client.step_eq_configured hconf with hold | ⟨p, d, hold, hrecv, haddr, hfields⟩
  · have hsame := h addr mask gw dns hold
    have hoffered : (t.step xid mac e).offered = t.offered := by simp only [Trail.step, hold]
    have hacked : (t.step xid mac e).acked = t.acked := by simp only [Trail.step, hold]
    refine ⟨?_, ?_, ?_⟩
    · rw [hacked]
      exact hsame.lease
    · rw [hacked]
      exact hsame.parameters
    · rw [hacked, hoffered]
      exact hsame.server
  · obtain ⟨q, hq⟩ := parse_of_parseAck hfields
    obtain ⟨hy, hmac, hserver⟩ := he p d hold hrecv q _ hq hfields
    have hoffered : (t.step xid mac e).offered = t.offered := by simp only [Trail.step, hold]
    have hacked : (t.step xid mac e).acked = e.datagram := by simp only [Trail.step, hold]
    refine ⟨⟨q, ?_, hy.trans haddr, hmac⟩, ?_, ?_⟩
    · rw [hacked, hq]
    · rw [hacked, hfields]
    · rw [hacked, hoffered]
      exact hserver

/-- A datagram that disagrees shows in the configuration. -/
theorem agrees_of_oneSource {xid : Xid} {mac : Mac} {t : Trail} {e : ClientEvent}
    (h : OneSource xid mac (t.step xid mac e)) : Agrees xid mac t e := by
  intro p d hold hrecv q fields hq hfields
  subst hrecv
  have hoffered : (t.step xid mac (.recv d true)).offered = t.offered := by
    simp only [Trail.step, hold]
  have hacked : (t.step xid mac (.recv d true)).acked = (ClientEvent.recv d true).datagram := by
    simp only [Trail.step, hold]
  have hconf : (t.step xid mac (.recv d true)).client =
      .configured p.yiaddr fields.1 fields.2.1 fields.2.2 := by
    simp only [Trail.step, hold]
    exact Client.step_waitAck hfields mac p
  obtain ⟨⟨q', hq', hy, hmac⟩, -, hserver⟩ := h _ _ _ _ hconf
  rw [hacked, hq, Option.some.injEq] at hq'
  rw [hacked, hoffered] at hserver
  rw [hq']
  exact ⟨hy, hmac, hserver⟩

/-- In a run every configuration comes from one acknowledgement exactly if each datagram that is
taken for an acknowledgement agrees with the offer and is for this client. -/
theorem configured_from_one_ack_iff (xid : Xid) (mac : Mac) (es : List ClientEvent) :
    (∀ es₁ es₂, es = es₁ ++ es₂ → OneSource xid mac (trail xid mac es₁)) ↔
      ∀ es₁ e es₂, es = es₁ ++ e :: es₂ → Agrees xid mac (trail xid mac es₁) e := by
  constructor
  · intro h es₁ e es₂ hsplit
    have hafter := h (es₁ ++ [e]) es₂ (by rw [hsplit, List.append_assoc, List.singleton_append])
    rw [trail_concat] at hafter
    exact agrees_of_oneSource hafter
  · intro h es₁
    induction es₁ using List.reverseRecOn with
    | nil =>
        intro es₂ _ addr mask gw dns hconf
        cases hconf
    | append_singleton es₁ e ih =>
        intro es₂ hsplit
        rw [List.append_assoc, List.singleton_append] at hsplit
        rw [trail_concat]
        exact oneSource_step (ih (e :: es₂) hsplit) (h es₁ e es₂ hsplit)

/-- One server offers, and another one acknowledges its own lease of another client. -/
def crossedServers : List ClientEvent :=
  [.begin true,
    .recv (buildReply (clientRequest (nthXid 1) (nthMac 1) discover none) offer
      ⟨10, 0, 0, 2⟩ ⟨10, 0, 0, 1⟩ ⟨255, 0, 0, 0⟩ ⟨10, 0, 0, 1⟩ 3600) true,
    .recv (buildReply (clientRequest (nthXid 1) (nthMac 2) request none) ack
      ⟨192, 168, 9, 9⟩ ⟨192, 168, 9, 1⟩ ⟨255, 255, 255, 0⟩ ⟨192, 168, 9, 1⟩ 3600) true]

theorem crossedServers_two_sources :
    ¬ OneSource #v[0, 0, 0, 1] #v[2, 0, 0, 0, 0, 1]
      (trail #v[0, 0, 0, 1] #v[2, 0, 0, 0, 0, 1] crossedServers) := by
  have hconf : (trail #v[0, 0, 0, 1] #v[2, 0, 0, 0, 0, 1] crossedServers).client =
      .configured ⟨10, 0, 0, 2⟩ ⟨255, 255, 255, 0⟩ (some ⟨192, 168, 9, 1⟩)
        (some ⟨192, 168, 9, 1⟩) := by
    decide +kernel
  have hacked : parse (trail #v[0, 0, 0, 1] #v[2, 0, 0, 0, 0, 1] crossedServers).acked =
      some { op := opReply, xid := #v[0, 0, 0, 1], chaddr := #v[2, 0, 0, 0, 0, 2],
             yiaddr := ⟨192, 168, 9, 9⟩, msgType := ack, reqIp := none, hostname := none } := by
    decide +kernel
  intro h
  obtain ⟨q, hq, hy, -⟩ := (h _ _ _ _ hconf).lease
  rw [hacked, Option.some.injEq] at hq
  rw [← hq] at hy
  exact absurd hy (by decide)

end Lwrt.Dhcp
