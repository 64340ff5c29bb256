import Lwrt.Verification.Dhcp.Leases
import Lwrt.Verification.Dhcp.Progress
import Lwrt.Verification.Dns.LetterCase
import Lwrt.Verification.Dns.Messages

/-! # From a lease to a name

The DHCP server writes the lease file, and the resolver reads it. -/

namespace Lwrt.Dhcp

open Library Text

/-- The address is leased to a client of this name, in any letters. -/
def Pool.LeasedAs (pool : Pool) (host : Text) (ip : Ipv4Addr) : Prop :=
  ∃ (m : Mac) (name : Text), pool.byMac[m]? = some ip.toU32 ∧
    pool.names[ip.toU32]? = some name ∧ eqIgnoreAsciiCase host name

/-- A name is looked up in the file of a pool as it is in the pool. -/
theorem Pool.lookupLease_leasedAs {pool : Pool} (h : pool.NamesPrintable) (now : UInt64)
    (host : Text) :
    (∃ ip, Dns.lookupLease (some (pool.persist now)) host = some ip ∧ pool.LeasedAs host ip) ∨
      Dns.lookupLease (some (pool.persist now)) host = none ∧ ∀ ip, ¬pool.LeasedAs host ip := by
  have hfaithful := (pool.fileFaithful_iff now).mpr h
  cases hlook : Dns.lookupLease (some (pool.persist now)) host with
  | some ip =>
      obtain ⟨⟨m, hm⟩, name, hname, heq⟩ := hfaithful.sound host ip hlook
      exact Or.inl ⟨ip, rfl, m, name, hm, hname, heq⟩
  | none =>
      refine Or.inr ⟨rfl, ?_⟩
      rintro ip ⟨m, name, hm, hname, heq⟩
      obtain ⟨ip', hfound, -⟩ := hfaithful.complete m ip.toU32 name hm hname
      rw [← Dns.lookupLease_congr _ (eqIgnoreAsciiCase_iff.mp heq), hlook] at hfound
      cases hfound

/-- A REQUEST that can be served is granted, under the name in it, and the file is written. -/
theorem Server.step_granted {s : Server} {a : Arrival} {req : Packet}
    (hreq : accept a.datagram = some req) (htype : req.msgType = request)
    (hcreate : a.create = true) (hserve : s.pool.CanServe req.chaddr) :
    ∃ ip : Ipv4Addr, (s.step a).1.pool.byMac[req.chaddr]? = some ip.toU32 ∧
      (∀ name, req.hostname = some name → (s.step a).1.pool.names[ip.toU32]? = some name) ∧
      (s.step a).1.leases = some ((s.step a).1.pool.persist a.now) := by
  obtain ⟨pool, ip, hlease⟩ := hserve.leaseFor req.reqIp
  have hspec := s.pool.leaseFor_spec req.chaddr req.reqIp
  rw [hlease] at hspec
  have hother : request ≠ discover := by decide
  have hstep : (s.step a).1 = ⟨pool.insertName ip req.hostname,
      some ((pool.insertName ip req.hostname).persist a.now)⟩ := by
    simp only [step, hreq, htype, hother, if_false, if_true, onRequest, s.grant_eq, hlease, hcreate]
  rw [hstep]
  refine ⟨ip, ?_, ?_, rfl⟩
  · rw [Pool.byMac_insertName]
    exact hspec.bound ip rfl
  · intro name hname
    simp [Pool.insertName, hname]

end Lwrt.Dhcp

namespace Lwrt.Dns

open Library Checked Dhcp

/-- What the resolver does with a question for an address follows the lease file. -/
theorem AsksA.step_of_lookup {a : Arrival} {labels : List Label} (h : AsksA a.query labels)
    {ip : Ipv4Addr} (hip : lookupLease a.leases (host labels) = some ip) (cache : Cache) :
    ∃ reply, Resolver.step ⟨cache, false⟩ a = (⟨cache, false⟩, [⟨a.client, reply⟩]) ∧
      Synthesised a.query reply labels ip := by
  refine ⟨_, ?_, synthesised h.name h.length ip⟩
  have hlong : ¬a.query.length < 12 := by
    have := h.length
    omega
  have hlocal := h.localAnswer_eq a.leases
  rw [hip, Option.map_some] at hlocal
  rw [Resolver.step, if_neg (by simp), turn, if_neg hlong, hlocal]
  rfl

theorem AsksA.step_of_no_lookup {a : Arrival} {labels : List Label} (h : AsksA a.query labels)
    (hnone : lookupLease a.leases (host labels) = none) (s : Resolver) :
    s.step a = s.step { a with leases := none } := by
  have hlocal : localAnswer a.leases a.query = localAnswer none a.query := by
    rw [h.localAnswer_eq, h.localAnswer_eq, hnone]
    rfl
  have hquery : Arrival.query { a with leases := none } = a.query := rfl
  simp only [Resolver.step, turn, hquery, hlocal]
  rfl

/-- A laptop that asks for a lease. -/
def laptopRequest : Dhcp.Arrival :=
  ⟨requestNamed "laptop".toList, 0, true⟩

theorem accept_laptopRequest :
    Server.accept laptopRequest.datagram = some
      ⟨opRequest, Vector.replicate 4 1, Vector.replicate 6 2, Ipv4Addr.unspecified, request, none,
        some "laptop".toList⟩ := by
  decide +kernel

theorem sendsToken_laptopRequest : ∀ x ∈ [] ++ [laptopRequest], x.SendsToken := by
  intro x hx req hreq
  rw [List.nil_append, List.mem_singleton] at hx
  rw [hx, accept_laptopRequest] at hreq
  exact ⟨"laptop".toList, by rw [← Option.some.inj hreq], by decide⟩

theorem canServe_laptop :
    ((Server.init 0xC0A80164 2 ⟨255, 255, 255, 0⟩ ⟨192, 168, 1, 1⟩ 43200).run
      []).1.pool.CanServe (Vector.replicate 6 2) := by
  right
  intro hall
  exact absurd (hall 0 (by decide)) (by decide +kernel)

end Lwrt.Dns
