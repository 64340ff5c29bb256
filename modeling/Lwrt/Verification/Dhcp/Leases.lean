import Lwrt.Applet.Dns
import Lwrt.Verification.Dhcp.Pool

/-! # The lease file and its reader -/

namespace Lwrt.Dhcp

open Library Text

namespace Pool

/-- The name printed for an address. -/
def nameOf (pool : Pool) (v : UInt32) : Text :=
  pool.names[v]?.getD ['*']

/-- The file written from `pool` has one line per binding, a lookup only answers with a
leased address under its recorded name, and every recorded name is answered by a client
that recorded it. -/
structure FileFaithful (pool : Pool) (now : UInt64) : Prop where
  lines_eq : (lines (pool.persist now)).length = pool.byMac.size
  sound : ∀ host ip, Dns.lookupLease (some (pool.persist now)) host = some ip →
    (∃ m : Mac, pool.byMac[m]? = some ip.toU32) ∧
      ∃ name, pool.names[ip.toU32]? = some name ∧ eqIgnoreAsciiCase host name
  complete : ∀ (m : Mac) (v : UInt32) (name : Text), pool.byMac[m]? = some v →
    pool.names[v]? = some name →
      ∃ ip, Dns.lookupLease (some (pool.persist now)) name = some ip ∧
        (∃ m' : Mac, pool.byMac[m']? = some ip.toU32) ∧
        ∃ name', pool.names[ip.toU32]? = some name' ∧ eqIgnoreAsciiCase name name'

/-- Every recorded name of a leased address is a token, and the first binding printed with
the name `*` is not that of a client without a name. -/
structure NamesPrintable (pool : Pool) : Prop where
  token : ∀ (m : Mac) (v : UInt32) (name : Text), pool.byMac[m]? = some v →
    pool.names[v]? = some name → IsToken name
  star : ∀ e, pool.byMac.toList.find? (fun e => pool.nameOf e.2 = ['*']) = some e →
    ∃ name, pool.names[e.2]? = some name

/-! ## Fields of a line -/

theorem isToken_toText (ip : Ipv4Addr) : IsToken ip.toText := by
  have hdot : isWhitespace '.' = false := by decide
  exact (isToken_decimal _).append (.cons hdot ((isToken_decimal _).append
    (.cons hdot ((isToken_decimal _).append (.cons hdot (isToken_decimal _))))))

theorem isToken_macText (mac : Mac) : IsToken (macText mac) := by
  apply IsToken.intercalate (List.forall_mem_singleton.mpr (by decide))
  · intro hnil
    have hlen := congrArg List.length hnil
    simp at hlen
  · intro l hl
    obtain ⟨b, -, rfl⟩ := List.mem_map.mp hl
    exact isToken_hex2 b

/-- A line whose name is a token has exactly the four fields it was written from. -/
theorem splitWhitespace_leaseLine (pool : Pool) (now : UInt64) (e : Mac × UInt32)
    (h : IsToken (pool.nameOf e.2)) :
    splitWhitespace (pool.leaseLine now e) =
      [decimal (pool.expiry now).toNat, macText e.1, (Ipv4Addr.ofU32 e.2).toText,
        pool.nameOf e.2] := by
  have hsp : isWhitespace ' ' = true := by decide
  rw [leaseLine, splitWhitespace_token_cons (isToken_decimal _) _ hsp,
    splitWhitespace_token_cons (isToken_macText _) _ hsp,
    splitWhitespace_token_cons (isToken_toText _) _ hsp]
  rw [← nameOf, splitWhitespace_token h]

theorem leaseLine_eq (pool : Pool) (now : UInt64) (e : Mac × UInt32) :
    ∃ front, '\n' ∉ front ∧ pool.leaseLine now e = front ++ pool.nameOf e.2 := by
  refine ⟨decimal (pool.expiry now).toNat ++ ' ' :: (macText e.1 ++ ' ' ::
    ((Ipv4Addr.ofU32 e.2).toText ++ [' '])), ?_, by simp [leaseLine, nameOf]⟩
  have h₁ := (isToken_decimal (pool.expiry now).toNat).newline_not_mem
  have h₂ := (isToken_macText e.1).newline_not_mem
  have h₃ := (isToken_toText (Ipv4Addr.ofU32 e.2)).newline_not_mem
  simp [h₁, h₂, h₃]

/-- With tokens for names the file is one line per binding. -/
theorem lines_persist (pool : Pool) (now : UInt64)
    (h : ∀ e ∈ pool.byMac.toList, IsToken (pool.nameOf e.2)) :
    lines (pool.persist now) = pool.byMac.toList.map (pool.leaseLine now) := by
  apply lines_unlines
  intro l hl
  obtain ⟨e, he, rfl⟩ := List.mem_map.mp hl
  obtain ⟨front, hfront, heq⟩ := pool.leaseLine_eq now e
  have htok := h e he
  rw [heq]
  constructor
  · simp [hfront, htok.newline_not_mem]
  · rw [List.getLast?_append_of_ne_nil _ htok.1]
    intro hcr
    exact absurd (htok.2 _ (List.mem_of_getLast? hcr)) (by decide)

/-- With tokens for names a lookup finds the first binding printed under the name. -/
theorem lookupLease_persist (pool : Pool) (now : UInt64)
    (h : ∀ e ∈ pool.byMac.toList, IsToken (pool.nameOf e.2)) (host : Text) :
    Dns.lookupLease (some (pool.persist now)) host =
      (pool.byMac.toList.find? (fun e => eqIgnoreAsciiCase (pool.nameOf e.2) host)).map
        (fun e => Ipv4Addr.ofU32 e.2) := by
  have hfields : (lines (pool.persist now)).map splitWhitespace =
      pool.byMac.toList.map (fun e => [decimal (pool.expiry now).toNat, macText e.1,
        (Ipv4Addr.ofU32 e.2).toText, pool.nameOf e.2]) := by
    rw [lines_persist pool now h, List.map_map]
    apply List.map_congr_left
    intro e he
    exact splitWhitespace_leaseLine pool now e (h e he)
  have hpred : (Dns.namesHost host ∘ fun e : Mac × UInt32 =>
      [decimal (pool.expiry now).toNat, macText e.1, (Ipv4Addr.ofU32 e.2).toText,
        pool.nameOf e.2]) = fun e => eqIgnoreAsciiCase (pool.nameOf e.2) host := by
    funext e
    simp [Dns.namesHost]
  simp only [Dns.lookupLease, Option.bind_eq_bind, Option.bind_some]
  rw [hfields, List.find?_map, hpred]
  cases pool.byMac.toList.find? (fun e => eqIgnoreAsciiCase (pool.nameOf e.2) host) with
  | none => rfl
  | some e => simp

/-- A lookup only ever succeeds for a token. -/
theorem isToken_of_lookupLease {text host : Text} {ip : Ipv4Addr}
    (h : Dns.lookupLease (some text) host = some ip) : IsToken host := by
  simp only [Dns.lookupLease, Option.bind_eq_bind, Option.bind_some, Option.bind_eq_some_iff] at h
  obtain ⟨f, hfind, -⟩ := h
  have hmem := List.mem_of_find?_eq_some hfind
  obtain ⟨line, -, rfl⟩ := List.mem_map.mp hmem
  have hnames := List.find?_some hfind
  simp only [Dns.namesHost, Bool.and_eq_true, Option.any_eq_true] at hnames
  obtain ⟨-, name, hname, heq⟩ := hnames
  exact (isToken_of_mem_splitWhitespace (List.mem_of_getElem? hname)).of_eqIgnoreAsciiCase heq

/-! ## Exactly when the file is faithful -/

theorem isToken_nameOf {pool : Pool}
    (h : ∀ (m : Mac) (v : UInt32) (name : Text), pool.byMac[m]? = some v →
      pool.names[v]? = some name → IsToken name) :
    ∀ e ∈ pool.byMac.toList, IsToken (pool.nameOf e.2) := by
  intro e he
  have hbound := Std.TreeMap.mem_toList_iff_getElem?_eq_some.mp he
  unfold nameOf
  cases hname : pool.names[e.2]? with
  | none => decide
  | some name => exact h e.1 e.2 name hbound hname

theorem eqIgnoreAsciiCase_star (s : Text) : eqIgnoreAsciiCase s ['*'] = decide (s = ['*']) := by
  have hstar : ∀ c : Char, c.toLower = '*' ↔ c = '*' := fun c => toLower_eq_iff (by decide)
  have hfold : ['*'].map Char.toLower = ['*'] := by decide
  rw [Bool.eq_iff_iff, eqIgnoreAsciiCase_iff, hfold, decide_eq_true_eq]
  cases s with
  | nil => simp
  | cons c s => simp [hstar]

theorem lookupLease_sound {pool : Pool} (h : pool.NamesPrintable) (now : UInt64) (host : Text)
    (ip : Ipv4Addr) (hlook : Dns.lookupLease (some (pool.persist now)) host = some ip) :
    (∃ m : Mac, pool.byMac[m]? = some ip.toU32) ∧
      ∃ name, pool.names[ip.toU32]? = some name ∧ eqIgnoreAsciiCase host name := by
  rw [lookupLease_persist pool now (isToken_nameOf h.token)] at hlook
  obtain ⟨e, hfind, rfl⟩ := Option.map_eq_some_iff.mp hlook
  have hbound := Std.TreeMap.mem_toList_iff_getElem?_eq_some.mp (List.mem_of_find?_eq_some hfind)
  have hmatch := List.find?_some hfind
  rw [Ipv4Addr.toU32_ofU32]
  refine ⟨⟨e.1, hbound⟩, ?_⟩
  cases hname : pool.names[e.2]? with
  | some name =>
      refine ⟨name, rfl, ?_⟩
      simp only [nameOf, hname, Option.getD_some] at hmatch
      rw [eqIgnoreAsciiCase_iff] at hmatch ⊢
      exact hmatch.symm
  | none =>
      -- the name searched for is the placeholder, so the first binding printed with it matched
      have hhost : host = ['*'] := by
        simp only [nameOf, hname, Option.getD_none] at hmatch
        rw [eqIgnoreAsciiCase_iff] at hmatch
        have hfold := eqIgnoreAsciiCase_iff.mpr hmatch.symm
        rwa [eqIgnoreAsciiCase_star, decide_eq_true_eq] at hfold
      simp only [hhost, eqIgnoreAsciiCase_star] at hfind
      obtain ⟨name, hn⟩ := h.star e hfind
      simp [hn] at hname

/-- The lease file of a pool is faithful exactly when its names are printable. -/
theorem fileFaithful_iff (pool : Pool) (now : UInt64) :
    pool.FileFaithful now ↔ pool.NamesPrintable := by
  constructor
  · intro h
    have htoken : ∀ (m : Mac) (v : UInt32) (name : Text), pool.byMac[m]? = some v →
        pool.names[v]? = some name → IsToken name := by
      intro m v name hm hn
      obtain ⟨ip, hlook, -⟩ := h.complete m v name hm hn
      exact isToken_of_lookupLease hlook
    refine ⟨htoken, ?_⟩
    intro e he
    have hlook : Dns.lookupLease (some (pool.persist now)) ['*'] = some (Ipv4Addr.ofU32 e.2) := by
      rw [lookupLease_persist pool now (isToken_nameOf htoken)]
      simp only [eqIgnoreAsciiCase_star, he, Option.map_some]
    obtain ⟨-, name, hname, -⟩ := h.sound ['*'] _ hlook
    exact ⟨name, by simpa using hname⟩
  · intro h
    refine ⟨?_, lookupLease_sound h now, ?_⟩
    · rw [lines_persist pool now (isToken_nameOf h.token), List.length_map,
        Std.TreeMap.length_toList]
    · intro m v name hm hn
      have hfound : (pool.byMac.toList.find?
          (fun e => eqIgnoreAsciiCase (pool.nameOf e.2) name)).isSome := by
        rw [List.find?_isSome]
        refine ⟨(m, v), Std.TreeMap.mem_toList_iff_getElem?_eq_some.mpr hm, ?_⟩
        simp [nameOf, hn, eqIgnoreAsciiCase]
      obtain ⟨e, he⟩ := Option.isSome_iff_exists.mp hfound
      have hlook : Dns.lookupLease (some (pool.persist now)) name =
          some (Ipv4Addr.ofU32 e.2) := by
        rw [lookupLease_persist pool now (isToken_nameOf h.token), he]
        rfl
      exact ⟨_, hlook, lookupLease_sound h now name _ hlook⟩

/-- Every leased address has a recorded name, and it is a token. -/
def AllNamed (pool : Pool) : Prop :=
  ∀ (m : Mac) (v : UInt32), pool.byMac[m]? = some v →
    ∃ name, pool.names[v]? = some name ∧ IsToken name

theorem AllNamed.namesPrintable {pool : Pool} (h : pool.AllNamed) : pool.NamesPrintable := by
  constructor
  · intro m v name hm hn
    obtain ⟨name', hn', htok⟩ := h m v hm
    rw [hn, Option.some.injEq] at hn'
    exact hn' ▸ htok
  · intro e he
    have hbound := Std.TreeMap.mem_toList_iff_getElem?_eq_some.mp (List.mem_of_find?_eq_some he)
    obtain ⟨name, hn, -⟩ := h e.1 e.2 hbound
    exact ⟨name, hn⟩

/-- Leasing to a client that sends a token for its name keeps every lease named. -/
theorem AllNamed.insertName {pool pool' : Pool} (h : pool.AllNamed) {mac : Mac} {ip : Ipv4Addr}
    (hl : pool.LeaseSpec mac (pool', some ip)) {name : Text} (htok : IsToken name) :
    (pool'.insertName ip (some name)).AllNamed := by
  intro m v hm
  rw [byMac_insertName] at hm
  have hnames : (pool'.insertName ip (some name)).names = pool.names.insert ip.toU32 name := by
    simp only [Pool.insertName]
    rw [← hl.names_eq]
  rw [hnames, Std.TreeMap.getElem?_insert]
  by_cases hv : ip.toU32 = v
  · exact ⟨name, by simp [hv], htok⟩
  · rw [if_neg (by simpa using hv)]
    have hne : m ≠ mac := by
      rintro rfl
      rw [hl.bound ip rfl, Option.some.injEq] at hm
      exact hv hm
    rw [hl.others m hne] at hm
    exact h m v hm

end Pool

/-! ## Every run -/

/-- The request in the datagram, if there is one, carries a host name that is a token. -/
def Arrival.SendsToken (arrival : Arrival) : Prop :=
  ∀ req, Server.accept arrival.datagram = some req → ∃ name, req.hostname = some name ∧ IsToken name

theorem Server.run_allNamed (s : Server) (h : s.pool.AllNamed) (arrivals : List Arrival)
    (hsends : ∀ a ∈ arrivals, a.SendsToken) : (s.run arrivals).1.pool.AllNamed := by
  have hrun := Machine.run_invariant Server.step
    (motive := fun (t : Server) (_ : List (List UInt8)) => t.pool.AllNamed) arrivals
    (fun t out arrival ha ht => by
      rcases (t.step_spec arrival).pool_cases with heq | ⟨req, pool, ip, hreq, hl, heq⟩
      · rwa [heq]
      · obtain ⟨name, hname, htok⟩ := hsends arrival ha req hreq
        rw [heq, hname]
        exact ht.insertName hl htok)
    s [] h
  exact hrun

/-- A persist writes the pool as it then is. -/
theorem Server.leases_step (s : Server) (arrival : Arrival) :
    (s.step arrival).1.leases = s.leases ∨
      (s.step arrival).1.leases = some ((s.step arrival).1.pool.persist arrival.now) := by
  unfold step
  split
  · exact Or.inl rfl
  · split
    · left
      unfold onDiscover
      split <;> rfl
    · split
      · unfold onRequest
        split
        · cases arrival.create
          · exact Or.inl rfl
          · exact Or.inr rfl
        · exact Or.inl rfl
      · exact Or.inl rfl

/-- After any sequence of datagrams the lease file is faithful exactly when the names in the
pool are printable; in particular it is whenever every request carried a token for its
host name. -/
theorem lease_file_faithful_iff (start count : UInt32) (mask server : Ipv4Addr) (lease : UInt32)
    (arrivals : List Arrival) (now : UInt64) :
    let pool := ((Server.init start count mask server lease).run arrivals).1.pool
    (pool.FileFaithful now ↔ pool.NamesPrintable) ∧
      ((∀ a ∈ arrivals, a.SendsToken) → pool.FileFaithful now) := by
  intro pool
  refine ⟨pool.fileFaithful_iff now, ?_⟩
  intro hsends
  have hinit : (Server.init start count mask server lease).pool.AllNamed := by
    intro m v hm
    simp [Server.init, Pool.new] at hm
  exact (pool.fileFaithful_iff now).mpr
    ((Server.run_allNamed _ hinit arrivals hsends).namesPrintable)

/-- A REQUEST with a given host name option. -/
def requestNamed (name : Text) : List UInt8 :=
  (buildClient (Vector.replicate 4 1) (Vector.replicate 6 2) request none none).dropLast ++
    optHostname :: UInt8.ofNat (Utf8.encode name).length :: Utf8.encode name ++ [optEnd]

theorem lease_file_faithful_laptop :
    let pool := ((Server.init 0xC0A80164 2 ⟨255, 255, 255, 0⟩ ⟨192, 168, 1, 1⟩ 43200).run
      [⟨requestNamed "laptop".toList, 0, true⟩]).1.pool
    pool.FileFaithful 0 ∧
      Dns.lookupLease (some (pool.persist 0)) "LapTop".toList = some ⟨192, 168, 1, 100⟩ := by
  intro pool
  refine ⟨(lease_file_faithful_iff 0xC0A80164 2 ⟨255, 255, 255, 0⟩ ⟨192, 168, 1, 1⟩ 43200
    [⟨requestNamed "laptop".toList, 0, true⟩] 0).2 ?_, by decide +kernel⟩
  intro a ha req hreq
  have hname : (Server.accept (requestNamed "laptop".toList)).map (·.hostname) =
      some (some "laptop".toList) := by
    decide +kernel
  rw [List.mem_singleton.mp ha] at hreq
  rw [hreq] at hname
  exact ⟨"laptop".toList, by simpa using hname, by decide⟩

/-- A host name with a line break forges a lease: the name on the line it adds resolves to an
address that nobody holds. -/
theorem forged_lease :
    let s := ((Server.init 0xC0A80164 2 ⟨255, 255, 255, 0⟩ ⟨192, 168, 1, 1⟩ 43200).run
      [⟨requestNamed "pc\n0 0 6.6.6.6 bank".toList, 0, true⟩]).1
    Dns.lookupLease s.leases "bank".toList = some ⟨6, 6, 6, 6⟩ ∧
      s.leases = some (s.pool.persist 0) ∧ ¬ s.pool.FileFaithful 0 := by
  intro s
  refine ⟨by decide +kernel, by decide +kernel, ?_⟩
  intro h
  have hlines : (lines (s.pool.persist 0)).length ≠ s.pool.byMac.size := by decide +kernel
  exact hlines h.lines_eq

end Lwrt.Dhcp
