import Lwrt.Verification.Dns.Names

/-! # Bounds of the resolver

What one turn of the loop does, with every access to a buffer checked, and from it when the loop
survives. -/

namespace Lwrt.Dns

open Library Checked

/-! ## Local answers -/

theorem u16At_of_lt {buf : List UInt8} {i : ℕ} (h : i + 1 < buf.length) :
    u16At buf i = .ok (ofBeBytes [buf[i], buf[i + 1]]) := by
  rw [u16At, get_of_lt (by omega), ok_bind, get_of_lt h]
  rfl

theorem u16At_eq {buf : List UInt8} {i : ℕ} (h : i + 1 < buf.length) :
    u16At buf i = .ok (ofBeBytes (extract buf i 2)) := by
  rw [u16At_of_lt h, extract, List.drop_eq_getElem_cons (by omega), List.drop_eq_getElem_cons h]
  rfl

def addressRecord (ip : Ipv4Addr) : List UInt8 :=
  [0xc0, 0x0c] ++ toBe16 1 ++ toBe16 1 ++ toBe32 120 ++ toBe16 4 ++ ip.octets

/-- The question with the flags of an answer, and the record for the address. -/
def answerBytes (query : List UInt8) (after : ℕ) (ip : Ipv4Addr) : List UInt8 :=
  ((((query.take (after + 4)).set 2 0x81).set 3 0x80).set 6 0).set 7 1 ++ addressRecord ip

theorem response_eq {query : List UInt8} {after : ℕ} (h : after + 4 ≤ query.length)
    (hafter : 12 < after) (ip : Ipv4Addr) :
    response query after ip = .ok (answerBytes query after ip) := by
  have hlen : ((query.take (after + 4)).drop 0).length = after + 4 := by
    rw [List.drop_zero, List.length_take]
    omega
  rw [response, slice_of_le (Nat.zero_le _) h, ok_bind, set_of_lt (by omega), ok_bind,
    set_of_lt (by rw [List.length_set]; omega), ok_bind,
    set_of_lt (by rw [List.length_set, List.length_set]; omega), ok_bind,
    set_of_lt (by rw [List.length_set, List.length_set, List.length_set]; omega), ok_bind,
    List.drop_zero]
  rfl

/-- What `local_answer` has found where it answers. -/
structure Answerable (query : List UInt8) (after : ℕ) : Prop where
  count : u16At query 4 = .ok 1
  name : ∃ name, readName query 12 = .ok (some (name, after))
  lt_after : 12 < after
  after_le : after + 4 ≤ query.length

/-- A query with one question, for the address of a name. Bytes after the question may follow. -/
structure AsksA (query : List UInt8) (labels : List Label) : Prop where
  count : ofBeBytes (extract query 4 2) = 1
  name : wire labels <+: query.drop 12
  type : ofBeBytes (extract query (12 + (wire labels).length) 2) = 1
  length : 12 + (wire labels).length + 4 ≤ query.length

theorem AsksA.readName_eq {query : List UInt8} {labels : List Label} (h : AsksA query labels) :
    readName query 12 = .ok (some (text labels, 12 + (wire labels).length)) := by
  obtain ⟨post, hpost⟩ := h.name
  have hlen := h.length
  have hhead : (query.take 12).length = 12 := by
    rw [List.length_take]
    omega
  have hfuel : labels.length < query.length + 1 := by
    have := length_le_wire labels
    omega
  have hread := nameFrom_wire labels (query.take 12) post [] hfuel
  rwa [hpost, List.take_append_drop, hhead] at hread

/-- What is looked up, and what is sent, depend on the query by the labels of its name. -/
theorem AsksA.localAnswer_eq {query : List UInt8} {labels : List Label} (h : AsksA query labels)
    (leases : Option Text) :
    localAnswer leases query = .ok ((lookupLease leases (host labels)).map
      (answerBytes query (12 + (wire labels).length))) := by
  have hlen := h.length
  have hpos := wire_length_pos labels
  rw [localAnswer, u16At_eq (by omega), ok_bind, if_neg (not_not.mpr h.count), h.readName_eq,
    ok_bind]
  simp only [if_neg (Nat.not_lt_of_le hlen)]
  rw [u16At_eq (by omega), ok_bind, if_neg (not_not.mpr h.type), ← host]
  cases lookupLease leases (host labels) with
  | none => rfl
  | some ip =>
      simp only [response_eq hlen (Nat.lt_add_of_pos_right hpos)]
      rfl

/-- Every other query is left to the upstream server. -/
theorem asksA_or_none (leases : Option Text) {query : List UInt8} (h : 12 ≤ query.length) :
    (∃ labels, AsksA query labels) ∨ localAnswer leases query = .ok none := by
  rw [localAnswer, u16At_eq (by omega), ok_bind]
  by_cases hcount : ofBeBytes (extract query 4 2) = 1
  case neg => exact Or.inr (if_pos hcount)
  rw [if_neg (not_not.mpr hcount)]
  cases nameFrom_cases query (query.length + 1) 12 [] with
  | inl hnone =>
      right
      rw [readName, hnone]
      rfl
  | inr hsome =>
      obtain ⟨name, after, hname, -, -⟩ := hsome
      obtain ⟨labels, -, rfl, hstart⟩ := exists_labels hname
      rw [readName, hname, ok_bind]
      by_cases hend : query.length < 12 + (wire labels).length + 4
      · exact Or.inr (if_pos hend)
      · simp only [if_neg hend]
        rw [u16At_eq (by omega), ok_bind]
        by_cases htype : ofBeBytes (extract query (12 + (wire labels).length) 2) = 1
        case neg => exact Or.inr (if_pos htype)
        exact Or.inl ⟨labels, hcount, hstart, htype, Nat.le_of_not_lt hend⟩

theorem AsksA.answerable {query : List UInt8} {labels : List Label} (h : AsksA query labels) :
    Answerable query (12 + (wire labels).length) where
  count := by
    have := h.length
    rw [u16At_eq (by omega), h.count]
  name := ⟨_, h.readName_eq⟩
  lt_after := Nat.lt_add_of_pos_right (wire_length_pos labels)
  after_le := h.length

theorem localAnswer_cases (leases : Option Text) {query : List UInt8} (h : 12 ≤ query.length) :
    localAnswer leases query = .ok none ∨
      ∃ after ip, Answerable query after ∧
        localAnswer leases query = .ok (some (answerBytes query after ip)) := by
  cases asksA_or_none leases h with
  | inr hnone => exact Or.inl hnone
  | inl hasks =>
      obtain ⟨labels, hasks⟩ := hasks
      have heq := hasks.localAnswer_eq leases
      cases hlease : lookupLease leases (host labels) with
      | none =>
          rw [hlease] at heq
          exact Or.inl heq
      | some ip =>
          rw [hlease] at heq
          exact Or.inr ⟨_, ip, hasks.answerable, heq⟩

/-! ## Turns -/

/-- A reply under the id of a query. -/
def withId (query resp : List UInt8) : List UInt8 :=
  query.take 2 ++ resp.drop 2

/-- A reply as the cache keeps it. -/
def withoutId (resp : List UInt8) : List UInt8 :=
  [0, 0] ++ resp.drop 2

theorem set_set {resp : List UInt8} (h : 2 ≤ resp.length) (x y : UInt8) :
    (do let out ← Checked.set resp 0 x
        Checked.set out 1 y) = .ok ([x, y] ++ resp.drop 2) := by
  rw [set_of_lt (by omega), ok_bind, set_of_lt (by rw [List.length_set]; omega)]
  match resp, h with
  | _ :: _ :: rest, _ => rfl

theorem take_two {buf : List UInt8} (h : 2 ≤ buf.length) : buf.take 2 = [buf[0], buf[1]] := by
  match buf, h with
  | _ :: _ :: _, _ => rfl

/-- The query of a turn is neither too short nor answered by the applet itself. -/
structure Asks (a : Arrival) : Prop where
  length : 12 ≤ a.query.length
  unanswered : localAnswer a.leases a.query = .ok none

def Hits (cache : Cache) (a : Arrival) (resp : List UInt8) : Prop :=
  Asks a ∧ cached cache (a.query.drop 12) a.now = some resp

/-- The query of a turn is sent to the upstream server. -/
def Forwards (cache : Cache) (a : Arrival) : Prop :=
  Asks a ∧ cached cache (a.query.drop 12) a.now = none

/-- The datagram that answers the forwarded query. -/
def Receives (a : Arrival) (resp : List UInt8) : Prop :=
  forward a.network a.wanDns a.query = some resp

/-- What can come of one turn. -/
inductive Outcome (cache : Cache) (a : Arrival) : Resolver × List Reply → Prop where
  | dropped (h : a.query.length < 12) : Outcome cache a (⟨cache, false⟩, [])
  | answered {after : ℕ} {ip : Ipv4Addr} (h : Answerable a.query after)
      (heq : localAnswer a.leases a.query = .ok (some (answerBytes a.query after ip))) :
      Outcome cache a (⟨cache, false⟩, [⟨a.client, answerBytes a.query after ip⟩])
  | hit {resp : List UInt8} (h : Hits cache a resp) :
      Outcome cache a (⟨cache, false⟩, [⟨a.client, withId a.query resp⟩])
  | relayed {resp : List UInt8} (h : Forwards cache a) (hresp : Receives a resp)
      (hlong : 2 ≤ resp.length) :
      Outcome cache a (⟨cache.insert (a.query.drop 12) (withoutId resp, a.later), false⟩,
        [⟨a.client, resp⟩])
  | lost (h : Forwards cache a) (hresp : forward a.network a.wanDns a.query = none) :
      Outcome cache a (⟨cache, false⟩, [])
  | crashed {resp : List UInt8} (h : Forwards cache a) (hresp : Receives a resp)
      (hshort : resp.length < 2) : Outcome cache a (⟨cache, true⟩, [])

/-- Every entry of the cache has room for an id. -/
def Roomy (cache : Cache) : Prop :=
  ∀ (key : List UInt8) (e : List UInt8 × ℕ), cache[key]? = some e → 2 ≤ e.1.length

theorem Roomy.of_cached {cache : Cache} (h : Roomy cache) {key resp : List UInt8} {now : ℕ}
    (hcached : cached cache key now = some resp) : 2 ≤ resp.length := by
  obtain ⟨e, he, hresp⟩ := Option.bind_eq_some_iff.mp hcached
  split at hresp
  case isTrue => exact Option.some.inj hresp ▸ h key e he
  case isFalse => cases hresp

theorem answerFromCache_eq {cache : Cache} {a : Arrival} {resp : List UInt8} (ha : Asks a)
    (h : 2 ≤ resp.length) :
    answerFromCache cache a resp = .ok (cache, [⟨a.client, withId a.query resp⟩]) := by
  have hlen := ha.length
  have hset := set_set h a.query[0] a.query[1]
  rw [set_of_lt (by omega), ok_bind] at hset
  rw [answerFromCache, get_of_lt (by omega), ok_bind, set_of_lt (by omega), ok_bind,
    get_of_lt (by omega), ok_bind, hset, withId, take_two (by omega)]
  rfl

theorem relay_cases (cache : Cache) (a : Arrival) (key resp : List UInt8) :
    (2 ≤ resp.length ∧ relay cache a key resp =
      .ok (cache.insert key (withoutId resp, a.later), [⟨a.client, resp⟩])) ∨
    (resp.length < 2 ∧ relay cache a key resp = .error .outOfBounds) := by
  by_cases h : 2 ≤ resp.length
  · left
    have hset := set_set h 0 0
    rw [set_of_lt (by omega), ok_bind] at hset
    rw [relay, set_of_lt (by omega), ok_bind, hset]
    exact ⟨h, rfl⟩
  · right
    refine ⟨by omega, ?_⟩
    match resp with
    | [] => rfl
    | [_] => rfl
    | _ :: _ :: _ => simp at h

/-- What comes of one turn. -/
theorem step_outcome {cache : Cache} (h : Roomy cache) (a : Arrival) :
    Outcome cache a (Resolver.step ⟨cache, false⟩ a) := by
  rw [Resolver.step, if_neg (by simp)]
  simp only [turn]
  by_cases hshort : a.query.length < 12
  · rw [if_pos hshort]
    exact .dropped hshort
  have hlong := Nat.le_of_not_lt hshort
  rw [if_neg hshort]
  cases localAnswer_cases a.leases hlong with
  | inr hanswer =>
      obtain ⟨after, ip, hafter, heq⟩ := hanswer
      rw [heq]
      exact .answered hafter heq
  | inl hnone =>
      have hasks : Asks a := ⟨hlong, hnone⟩
      rw [hnone, ok_bind, slice_of_le hlong (Nat.le_refl _), ok_bind, List.take_length]
      cases hcached : cached cache (a.query.drop 12) a.now with
      | some resp =>
          simp only [answerFromCache_eq hasks (h.of_cached hcached)]
          exact .hit ⟨hasks, hcached⟩
      | none =>
          cases hresp : forward a.network a.wanDns a.query with
          | none => exact .lost ⟨hasks, hcached⟩ hresp
          | some resp =>
              cases relay_cases cache a (a.query.drop 12) resp with
              | inl hok =>
                  simp only [hok.2]
                  exact .relayed ⟨hasks, hcached⟩ hresp hok.1
              | inr hpanic =>
                  simp only [hpanic.2]
                  exact .crashed ⟨hasks, hcached⟩ hresp hpanic.1

/-! ## Runs -/

theorem roomy_empty : Roomy ∅ := by
  intro key e he
  simp at he

theorem Roomy.insert {cache : Cache} (h : Roomy cache) (key resp : List UInt8) (now : ℕ) :
    Roomy (cache.insert key (withoutId resp, now)) := by
  intro k e he
  rw [Std.TreeMap.getElem?_insert] at he
  split at he
  case isTrue =>
    rw [← Option.some.inj he, withoutId]
    simp
  case isFalse => exact h k e he

theorem roomy_step {cache : Cache} (h : Roomy cache) (a : Arrival) :
    Roomy (Resolver.step ⟨cache, false⟩ a).1.cache := by
  generalize hnext : Resolver.step ⟨cache, false⟩ a = next
  cases hnext ▸ step_outcome h a with
  | dropped _ => exact h
  | answered _ _ => exact h
  | hit _ => exact h
  | relayed _ _ _ => exact h.insert _ _ _
  | lost _ _ => exact h
  | crashed _ _ _ => exact h

/-- A datagram that is taken for the answer to a forwarded query has room for an id. -/
def LongEnough (s : Resolver) (a : Arrival) : Prop :=
  Forwards s.cache a → ∀ resp, Receives a resp → 2 ≤ resp.length

theorem step_crashed_iff {cache : Cache} (h : Roomy cache) (a : Arrival) :
    (Resolver.step ⟨cache, false⟩ a).1.crashed = false ↔ LongEnough ⟨cache, false⟩ a := by
  generalize hnext : Resolver.step ⟨cache, false⟩ a = next
  cases hnext ▸ step_outcome h a with
  | dropped hshort =>
      exact iff_of_true rfl fun hfwd => absurd hfwd.1.length (Nat.not_le_of_lt hshort)
  | answered _ heq =>
      refine iff_of_true rfl fun hfwd => ?_
      have hnone := hfwd.1.unanswered
      rw [heq] at hnone
      cases hnone
  | hit hhit =>
      refine iff_of_true rfl fun hfwd => ?_
      have hnone := hfwd.2
      rw [hhit.2] at hnone
      cases hnone
  | relayed hfwd hresp hlong =>
      refine iff_of_true rfl fun _ resp' hresp' => ?_
      rw [← Option.some.inj (hresp.symm.trans hresp')]
      exact hlong
  | lost hfwd hnone =>
      refine iff_of_true rfl fun _ resp hresp => ?_
      rw [Receives, hnone] at hresp
      cases hresp
  | crashed hfwd hresp hshort =>
      refine iff_of_false (by simp) fun hlong => ?_
      exact absurd (hlong hfwd _ hresp) (Nat.not_le_of_lt hshort)

theorem run_crashed (cache : Cache) (arrivals : List Arrival) :
    (Resolver.step.run ⟨cache, true⟩ arrivals).1 = ⟨cache, true⟩ := by
  induction arrivals with
  | nil => rfl
  | cons a arrivals ih => exact ih

/-- The resolver survives a run exactly if no datagram that it takes for an answer of the upstream
server is shorter than an id. No other access is out of bounds, whatever arrives. -/
theorem not_crashed_iff (arrivals : List Arrival) :
    (Resolver.step.run Resolver.start arrivals).1.crashed = false ↔
      Resolver.step.Meets LongEnough Resolver.start arrivals := by
  suffices h : ∀ cache, Roomy cache →
      ((Resolver.step.run ⟨cache, false⟩ arrivals).1.crashed = false ↔
        Resolver.step.Meets LongEnough ⟨cache, false⟩ arrivals) from h ∅ roomy_empty
  induction arrivals with
  | nil => exact fun _ _ => iff_of_true rfl trivial
  | cons a arrivals ih =>
      intro cache hcache
      have hstep := step_crashed_iff hcache a
      have hroomy := roomy_step hcache a
      rw [Machine.run_cons, Machine.Meets, ← hstep]
      generalize (Resolver.step ⟨cache, false⟩ a).1 = next at hroomy ⊢
      obtain ⟨nextCache, crashed⟩ := next
      cases crashed with
      | false => exact (ih nextCache hroomy).trans (by simp)
      | true => simp [run_crashed]

/-- A question for the address of `a`, under the given id and flags. -/
def askA (id flags : UInt8) : List UInt8 :=
  [0, id, flags, 0, 0, 1, 0, 0, 0, 0, 0, 0] ++ [1, 97, 0, 0, 1, 0, 1]

/-- A client asks, and an empty datagram arrives for it. -/
def emptyAnswer : Arrival :=
  ⟨(⟨192, 168, 1, 7⟩, 5353), askA 1 1, none, none, fun _ _ => some [], 0, 0⟩

theorem emptyAnswer_crashes :
    (Resolver.step.run Resolver.start [emptyAnswer]).1.crashed = true := by
  decide +kernel

end Lwrt.Dns
