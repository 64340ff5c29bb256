import Lwrt.Verification.Dns.Bounds

/-! # Transparency of the cache

Behind an upstream server that is a function of the query, the resolver is compared with that
function. -/

namespace Lwrt.Dns

open Library Checked

/-! ## The server -/

/-- A server that copies the id of a query, and whose replies do not depend on it otherwise. -/
structure Serves (U : List UInt8 → List UInt8) : Prop where
  id : ∀ query, (U query).take 2 = query.take 2
  rest : ∀ query query', query.drop 2 = query'.drop 2 → (U query).drop 2 = (U query').drop 2

/-- A query that the applet does not answer itself, before such a server. -/
structure Relays (U : List UInt8 → List UInt8) (a : Arrival) : Prop where
  asks : Asks a
  network : ∀ server query, a.network server query = some (U query)

variable {U : List UInt8 → List UInt8}

/-- What is received of a reply. -/
def received (U : List UInt8 → List UInt8) (query : List UInt8) : List UInt8 :=
  (U query).take bufSize

theorem Relays.forward_eq {a : Arrival} (h : Relays U a) :
    forward a.network a.wanDns a.query = some (received U a.query) := by
  rw [forward, h.network]
  rfl

theorem take_received (hU : Serves U) (query : List UInt8) :
    (received U query).take 2 = query.take 2 := by
  rw [received, List.take_take, ← hU.id]
  rfl

theorem withId_received (hU : Serves U) (query : List UInt8) :
    withId query (received U query) = received U query := by
  rw [withId, ← take_received hU, List.take_append_drop]

theorem withId_withoutId (query resp : List UInt8) :
    withId query (withoutId resp) = withId query resp :=
  rfl

/-! ## Runs -/

/-- Every entry of the cache is the reply to a query with its key. -/
def Kept (U : List UInt8 → List UInt8) (past : List Arrival) (cache : Cache) : Prop :=
  ∀ (key : List UInt8) (e : List UInt8 × ℕ), cache[key]? = some e →
    ∃ x ∈ past, x.query.drop 12 = key ∧ e.1 = withoutId (received U x.query)

theorem Kept.roomy {past : List Arrival} {cache : Cache} (h : Kept U past cache) : Roomy cache := by
  intro key e he
  obtain ⟨x, -, -, hx⟩ := h key e he
  rw [hx, withoutId]
  simp

theorem Kept.mono {past more : List Arrival} {cache : Cache} (h : Kept U past cache) :
    Kept U (past ++ more) cache := by
  intro key e he
  obtain ⟨x, hx, hkept⟩ := h key e he
  exact ⟨x, List.mem_append_left _ hx, hkept⟩

theorem Kept.insert {past : List Arrival} {cache : Cache} (h : Kept U past cache) (a : Arrival) :
    Kept U (past ++ [a])
      (cache.insert (a.query.drop 12) (withoutId (received U a.query), a.later)) := by
  intro key e he
  rw [Std.TreeMap.getElem?_insert] at he
  split at he
  case isTrue hkey =>
    obtain rfl := Option.some.inj he
    exact ⟨a, by simp, Std.LawfulEqOrd.eq_of_compare hkey, rfl⟩
  case isFalse => exact h.mono key e he

/-- A turn answers with the reply to this query, or to an earlier one with the same bytes after
its header. -/
theorem step_relays (hU : Serves U) {past : List Arrival} {cache : Cache} (h : Kept U past cache)
    {a : Arrival} (ha : Relays U a) :
    ∃ cache', ∃ x ∈ past ++ [a], x.query.drop 12 = a.query.drop 12 ∧
      Resolver.step ⟨cache, false⟩ a =
        (⟨cache', false⟩, [⟨a.client, withId a.query (received U x.query)⟩]) ∧
      Kept U (past ++ [a]) cache' := by
  have hlong := ha.asks.length
  generalize hnext : Resolver.step ⟨cache, false⟩ a = next
  cases hnext ▸ step_outcome h.roomy a with
  | dropped hshort => exact absurd hshort (Nat.not_lt_of_le hlong)
  | answered _ heq =>
      have hnone := ha.asks.unanswered
      rw [heq] at hnone
      cases hnone
  | @hit resp hhit =>
      obtain ⟨e, he, hresp⟩ := Option.bind_eq_some_iff.mp hhit.2
      obtain ⟨x, hx, hkey, hstored⟩ := h _ e he
      have hfresh : e.1 = resp := by
        split at hresp
        case isTrue => exact Option.some.inj hresp
        case isFalse => cases hresp
      refine ⟨cache, x, List.mem_append_left _ hx, hkey, ?_, h.mono⟩
      rw [← hfresh, hstored, withId_withoutId]
  | @relayed resp _ hresp _ =>
      obtain rfl := Option.some.inj (ha.forward_eq.symm.trans hresp)
      exact ⟨_, a, by simp, rfl, by rw [withId_received hU], h.insert a⟩
  | lost _ hnone =>
      rw [ha.forward_eq] at hnone
      cases hnone
  | @crashed resp _ hresp hshort =>
      obtain rfl := Option.some.inj (ha.forward_eq.symm.trans hresp)
      have hlen := congrArg List.length (take_received hU a.query)
      rw [List.length_take, List.length_take] at hlen
      omega

theorem run_relays (hU : Serves U) {past arrivals : List Arrival} {cache : Cache}
    (h : Kept U past cache) (hall : ∀ a ∈ arrivals, Relays U a) :
    ∃ cache', (Resolver.step.run ⟨cache, false⟩ arrivals).1 = ⟨cache', false⟩ ∧
      Kept U (past ++ arrivals) cache' := by
  induction arrivals generalizing past cache with
  | nil => exact ⟨cache, rfl, h.mono⟩
  | cons a arrivals ih =>
      obtain ⟨next, x, -, -, hstep, hkept⟩ := step_relays hU h (hall a (by simp))
      obtain ⟨last, hrun, hlast⟩ := ih hkept fun b hb => hall b (by simp [hb])
      rw [Machine.run_cons, hstep]
      exact ⟨last, hrun, by rwa [List.append_assoc] at hlast⟩

/-- After any queries the reply to the next one is the server's reply to it, or to an earlier one
with the same bytes after its header, under the id of this one and cut to the buffer. It is the
server's own if flags and counts of the two agree and the reply fits. -/
theorem reply_transparent (hU : Serves U) {arrivals : List Arrival} {a : Arrival}
    (h : ∀ x ∈ arrivals ++ [a], Relays U x) :
    ∃ x ∈ arrivals ++ [a], x.query.drop 12 = a.query.drop 12 ∧
      ((Resolver.step.run Resolver.start arrivals).1.step a).2 =
        [⟨a.client, a.query.take 2 ++ ((U x.query).take bufSize).drop 2⟩] ∧
      (x.query.drop 2 = a.query.drop 2 → (U x.query).length ≤ bufSize →
        ((Resolver.step.run Resolver.start arrivals).1.step a).2 = [⟨a.client, U a.query⟩]) := by
  have hempty : Kept U [] ∅ := fun key e he => by simp at he
  have hpast : ∀ x ∈ arrivals, Relays U x := fun x hx => h x (List.mem_append_left _ hx)
  obtain ⟨cache, hrun, hkept⟩ := run_relays hU hempty hpast
  obtain ⟨next, x, hx, hkey, hstep, -⟩ := step_relays hU hkept (h a (by simp))
  rw [List.nil_append] at hx
  have hreply : ((Resolver.step.run Resolver.start arrivals).1.step a).2 =
      [⟨a.client, withId a.query (received U x.query)⟩] := by
    rw [Resolver.start, hrun, hstep]
  refine ⟨x, hx, hkey, hreply, fun hheader hfits => ?_⟩
  rw [hreply, withId, received, List.take_of_length_le hfits, ← hU.id a.query,
    hU.rest _ _ hheader, List.take_append_drop]

/-- A server that sends the query back, flags included, with the response bit set. -/
def echo (query : List UInt8) : List UInt8 :=
  query.take 2 ++ (query.drop 2).set 0 ((query.drop 2).getD 0 0 ||| 0x80)

theorem echo_serves : Serves echo where
  id
    | [] => rfl
    | [_] => rfl
    | _ :: _ :: _ => rfl
  rest := by
    have hdrop (query : List UInt8) :
        (echo query).drop 2 = (query.drop 2).set 0 ((query.drop 2).getD 0 0 ||| 0x80) := by
      match query with
      | [] => rfl
      | [_] => rfl
      | _ :: _ :: _ => rfl
    intro query query' h
    rw [hdrop, hdrop, h]

/-- A question for the address of `a`, with or without the wish for recursion. -/
def asking (id flags : UInt8) : Arrival :=
  ⟨(⟨192, 168, 1, 7⟩, 5353), askA id flags, none, none, fun _ query => some (echo query), 0, 0⟩

theorem asking_relays (id flags : UInt8) : Relays echo (asking id flags) where
  asks := ⟨by simp [asking, Arrival.query, askA, bufSize], rfl⟩
  network := fun _ _ => rfl

theorem reply_transparent_again :
    ((Resolver.step.run Resolver.start [asking 1 1]).1.step (asking 2 1)).2 =
      [⟨(asking 2 1).client, echo (askA 2 1)⟩] := by
  have hall : ∀ x ∈ [asking 1 1] ++ [asking 2 1], Relays echo x := by
    intro x hx
    simp only [List.singleton_append, List.mem_cons, List.not_mem_nil, or_false] at hx
    cases hx with
    | inl hx => exact hx ▸ asking_relays 1 1
    | inr hx => exact hx ▸ asking_relays 2 1
  obtain ⟨x, hx, -, -, hexact⟩ := reply_transparent echo_serves hall
  simp only [List.singleton_append, List.mem_cons, List.not_mem_nil, or_false] at hx
  cases hx with
  | inl hx => exact hexact (by rw [hx]; rfl) (by rw [hx]; decide)
  | inr hx => exact hexact (by rw [hx]) (by rw [hx]; decide)

/-- The same question without the wish for recursion gets the reply to the one with it. -/
theorem flags_not_transparent :
    Serves echo ∧ Relays echo (asking 1 1) ∧ Relays echo (asking 2 0) ∧
      ((Resolver.step.run Resolver.start [asking 1 1]).1.step (asking 2 0)).2 ≠
        [⟨(asking 2 0).client, echo (asking 2 0).query⟩] :=
  ⟨echo_serves, asking_relays 1 1, asking_relays 2 0, by decide +kernel⟩

end Lwrt.Dns
