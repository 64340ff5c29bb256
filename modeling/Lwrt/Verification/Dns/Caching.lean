import Lwrt.Library.WriteLog
import Lwrt.Verification.Dns.Bounds

/-! # The cache over a run

The resolver answers as one that keeps every datagram it has received and looks a question up among
them. So an upstream server that has answered a question is left alone for a while. -/

namespace Lwrt.Dns

open Library Checked WriteLog

/-! ## A resolver that keeps everything -/

/-- What the upstream server sent for each question, and when. -/
abbrev Receipts := WriteLog (List UInt8) (List UInt8 × ℕ)

/-- The last datagram for a question, while it is not too old. -/
def fresh (log : Receipts) (key : List UInt8) (now : ℕ) : Option (List UInt8) :=
  (final log key).bind fun r => if now - r.2 < ttl then some r.1 else none

structure Archive where
  log : Receipts
  crashed : Bool

def Archive.start : Archive :=
  ⟨[], false⟩

/-- The question is sent to the upstream server. -/
def Archive.ask (log : Receipts) (a : Arrival) : Archive × List Reply :=
  match forward a.network a.wanDns a.query with
  | none => (⟨log, false⟩, [])
  | some resp =>
      if resp.length < 2 then (⟨log, true⟩, [])
      else (⟨log ++ [(a.query.drop 12, resp, a.later)], false⟩, [⟨a.client, resp⟩])

/-- A turn for a query with a header. -/
def Archive.consult (log : Receipts) (a : Arrival) : Archive × List Reply :=
  match localAnswer a.leases a.query with
  | .ok (some reply) => (⟨log, false⟩, [⟨a.client, reply⟩])
  | .ok none =>
      match fresh log (a.query.drop 12) a.now with
      | some resp => (⟨log, false⟩, [⟨a.client, withId a.query resp⟩])
      | none => Archive.ask log a
  | .error _ => (⟨log, true⟩, [])

def Archive.step : Machine Archive Arrival Reply := fun s a =>
  if s.crashed then (s, [])
  else if a.query.length < 12 then (⟨s.log, false⟩, [])
  else Archive.consult s.log a

/-! ## The cache and the log -/

/-- The cache holds the last datagram for each question, without its id. -/
def Mirrors (cache : Cache) (log : Receipts) : Prop :=
  ∀ key, cache[key]? = (final log key).map fun r => (withoutId r.1, r.2)

theorem mirrors_empty : Mirrors ∅ [] := by
  intro key
  rw [final_nil]
  simp

theorem Mirrors.roomy {cache : Cache} {log : Receipts} (h : Mirrors cache log) : Roomy cache := by
  intro key e he
  rw [h key, Option.map_eq_some_iff] at he
  obtain ⟨r, -, rfl⟩ := he
  simp [withoutId]

theorem Mirrors.cached_eq {cache : Cache} {log : Receipts} (h : Mirrors cache log)
    (key : List UInt8) (now : ℕ) :
    cached cache key now = (fresh log key now).map withoutId := by
  rw [cached, fresh, h key]
  cases final log key with
  | none => rfl
  | some r =>
      simp only [Option.map_some, Option.bind_some]
      split
      · rfl
      · rfl

theorem Mirrors.insert {cache : Cache} {log : Receipts} (h : Mirrors cache log)
    (key resp : List UInt8) (time : ℕ) :
    Mirrors (cache.insert key (withoutId resp, time)) (log ++ [(key, resp, time)]) := by
  intro k
  rw [Std.TreeMap.getElem?_insert, final_concat, h k]
  by_cases hk : key = k
  · subst hk
    simp
  · rw [if_neg hk, if_neg (mt Std.LawfulEqOrd.eq_of_compare hk)]

/-- The state of the one resolver beside the state of the other. -/
structure Agrees (s : Resolver) (t : Archive) : Prop where
  crashed : s.crashed = t.crashed
  mirrors : Mirrors s.cache t.log

section Turns

variable {cache : Cache} {log : Receipts} {a : Arrival}

theorem Archive.step_of_lt (h : a.query.length < 12) :
    Archive.step ⟨log, false⟩ a = (⟨log, false⟩, []) := by
  rw [step, if_neg Bool.false_ne_true, if_pos h]

theorem Archive.step_of_le (h : 12 ≤ a.query.length) :
    Archive.step ⟨log, false⟩ a = Archive.consult log a := by
  rw [step, if_neg Bool.false_ne_true, if_neg (Nat.not_lt_of_le h)]

theorem Archive.step_of_fresh (h : Asks a) {resp : List UInt8}
    (hfresh : fresh log (a.query.drop 12) a.now = some resp) :
    Archive.step ⟨log, false⟩ a = (⟨log, false⟩, [⟨a.client, withId a.query resp⟩]) := by
  rw [Archive.step_of_le h.length, consult, h.unanswered]
  simp only [hfresh]

theorem Archive.step_of_not_fresh (h : Asks a)
    (hfresh : fresh log (a.query.drop 12) a.now = none) :
    Archive.step ⟨log, false⟩ a = Archive.ask log a := by
  rw [Archive.step_of_le h.length, consult, h.unanswered]
  simp only [hfresh]

theorem Mirrors.forwards_iff (h : Mirrors cache log) :
    Forwards cache a ↔ Asks a ∧ fresh log (a.query.drop 12) a.now = none := by
  rw [Forwards, h.cached_eq, Option.map_eq_none_iff]

/-- Both resolvers do the same in a turn. -/
theorem Mirrors.step (h : Mirrors cache log) (a : Arrival) :
    (Resolver.step ⟨cache, false⟩ a).2 = (Archive.step ⟨log, false⟩ a).2 ∧
      Agrees (Resolver.step ⟨cache, false⟩ a).1 (Archive.step ⟨log, false⟩ a).1 := by
  have hsame : Agrees ⟨cache, false⟩ ⟨log, false⟩ := ⟨rfl, h⟩
  generalize hnext : Resolver.step ⟨cache, false⟩ a = next
  cases hnext ▸ step_outcome h.roomy a with
  | dropped hshort =>
      rw [Archive.step_of_lt hshort]
      exact ⟨rfl, hsame⟩
  | answered hafter heq =>
      have hlong : 12 ≤ a.query.length := by
        have := hafter.lt_after
        have := hafter.after_le
        omega
      rw [Archive.step_of_le hlong, Archive.consult, heq]
      exact ⟨rfl, hsame⟩
  | @hit resp hhit =>
      obtain ⟨hasks, hcached⟩ := hhit
      rw [h.cached_eq, Option.map_eq_some_iff] at hcached
      obtain ⟨raw, hfresh, rfl⟩ := hcached
      rw [Archive.step_of_fresh hasks hfresh]
      exact ⟨rfl, hsame⟩
  | @relayed resp hforwards hresp hlong =>
      obtain ⟨hasks, hfresh⟩ := h.forwards_iff.mp hforwards
      rw [Archive.step_of_not_fresh hasks hfresh, Archive.ask, hresp]
      dsimp only
      rw [if_neg (Nat.not_lt_of_le hlong)]
      exact ⟨rfl, rfl, h.insert _ _ _⟩
  | lost hforwards hnone =>
      obtain ⟨hasks, hfresh⟩ := h.forwards_iff.mp hforwards
      rw [Archive.step_of_not_fresh hasks hfresh, Archive.ask, hnone]
      exact ⟨rfl, hsame⟩
  | @crashed resp hforwards hresp hshort =>
      obtain ⟨hasks, hfresh⟩ := h.forwards_iff.mp hforwards
      rw [Archive.step_of_not_fresh hasks hfresh, Archive.ask, hresp]
      dsimp only
      rw [if_pos hshort]
      exact ⟨rfl, rfl, h⟩

end Turns

/-! ## Runs -/

theorem Agrees.step {s : Resolver} {t : Archive} (h : Agrees s t) (a : Arrival) :
    (Resolver.step s a).2 = (Archive.step t a).2 ∧
      Agrees (Resolver.step s a).1 (Archive.step t a).1 := by
  obtain ⟨cache, crashed⟩ := s
  obtain ⟨log, crashed'⟩ := t
  obtain rfl : crashed = crashed' := h.crashed
  cases crashed with
  | false => exact h.mirrors.step a
  | true => exact ⟨rfl, h⟩

theorem Agrees.run {s : Resolver} {t : Archive} (h : Agrees s t) (arrivals : List Arrival) :
    (Resolver.step.run s arrivals).2 = (Archive.step.run t arrivals).2 ∧
      Agrees (Resolver.step.run s arrivals).1 (Archive.step.run t arrivals).1 := by
  induction arrivals generalizing s t with
  | nil => exact ⟨rfl, h⟩
  | cons a arrivals ih =>
      obtain ⟨hreplies, hnext⟩ := h.step a
      obtain ⟨hrest, hlast⟩ := ih hnext
      rw [Machine.run_cons, Machine.run_cons, hreplies, hrest]
      exact ⟨rfl, hlast⟩

/-- In every run the resolver answers as the one that keeps everything, and crashes where it
does. -/
theorem run_eq_archive (arrivals : List Arrival) :
    (Resolver.step.run Resolver.start arrivals).2 = (Archive.step.run Archive.start arrivals).2 ∧
      (Resolver.step.run Resolver.start arrivals).1.crashed =
        (Archive.step.run Archive.start arrivals).1.crashed := by
  have hstart : Agrees Resolver.start Archive.start := ⟨rfl, mirrors_empty⟩
  obtain ⟨hreplies, hend⟩ := hstart.run arrivals
  exact ⟨hreplies, hend.crashed⟩

/-! ## The upstream server is left alone -/

theorem Archive.log_step (s : Archive) (a : Arrival) :
    (Archive.step s a).1.log = s.log ∨ ∃ resp, Receives a resp ∧
      (Archive.step s a).1.log = s.log ++ [(a.query.drop 12, resp, a.later)] := by
  have hask : (Archive.ask s.log a).1.log = s.log ∨ ∃ resp, Receives a resp ∧
      (Archive.ask s.log a).1.log = s.log ++ [(a.query.drop 12, resp, a.later)] := by
    rw [Archive.ask]
    cases hresp : forward a.network a.wanDns a.query with
    | none => exact Or.inl rfl
    | some resp =>
        by_cases hshort : resp.length < 2
        · simp only [if_pos hshort, true_or]
        · simp only [if_neg hshort]
          exact Or.inr ⟨resp, hresp, rfl⟩
  rw [Archive.step]
  split
  · exact Or.inl rfl
  · split
    · exact Or.inl rfl
    · rw [consult]
      split
      · exact Or.inl rfl
      · split
        · exact Or.inl rfl
        · exact hask
      · exact Or.inl rfl

/-- The last datagram for the question was received in one of these turns. -/
def Held (arrivals : List Arrival) (key : List UInt8) (log : Receipts) : Prop :=
  ∃ z ∈ arrivals, ∃ resp, Receives z resp ∧ z.query.drop 12 = key ∧
    final log key = some (resp, z.later)

theorem Held.step {arrivals : List Arrival} {key : List UInt8} {s : Archive}
    (h : Held arrivals key s.log) (a : Arrival) :
    Held (arrivals ++ [a]) key (Archive.step s a).1.log := by
  obtain ⟨z, hz, resp, hresp, hkey, hfinal⟩ := h
  have hbefore : z ∈ arrivals ++ [a] := List.mem_append_left _ hz
  rcases Archive.log_step s a with hlog | ⟨resp', hresp', hlog⟩
  · exact ⟨z, hbefore, resp, hresp, hkey, by rw [hlog, hfinal]⟩
  · rw [hlog]
    by_cases ha : a.query.drop 12 = key
    · exact ⟨a, by simp, resp', hresp', ha, by rw [final_concat, if_pos ha]⟩
    · exact ⟨z, hbefore, resp, hresp, hkey, by rw [final_concat, if_neg ha, hfinal]⟩

theorem Held.run {arrivals : List Arrival} {key : List UInt8} {s : Archive}
    (h : Held arrivals key s.log) (more : List Arrival) :
    Held (arrivals ++ more) key (Archive.step.run s more).1.log := by
  induction more generalizing arrivals s with
  | nil => rwa [List.append_nil]
  | cons a more ih =>
      have hnext := ih (h.step a)
      rwa [List.append_assoc] at hnext

theorem crashed_of_run {s : Resolver} {arrivals : List Arrival}
    (h : (Resolver.step.run s arrivals).1.crashed = false) : s.crashed = false := by
  obtain ⟨cache, crashed⟩ := s
  cases crashed with
  | false => rfl
  | true => rw [run_crashed] at h; exact h

/-- The question is answered without the network. -/
theorem step_of_hits {s : Resolver} (hlive : s.crashed = false) (hroomy : Roomy s.cache)
    {a : Arrival} {resp : List UInt8} (h : Hits s.cache a resp) :
    Resolver.step s a = (s, [⟨a.client, withId a.query resp⟩]) := by
  obtain ⟨cache, crashed⟩ := s
  obtain rfl : crashed = false := hlive
  obtain ⟨hasks, hcached⟩ := h
  rw [Resolver.step, if_neg Bool.false_ne_true, turn, if_neg (Nat.not_lt_of_le hasks.length),
    hasks.unanswered, ok_bind, slice_of_le hasks.length (Nat.le_refl _), ok_bind, List.take_length]
  simp only [hcached, answerFromCache_eq hasks (hroomy.of_cached hcached)]

theorem crashed_of_step {s : Resolver} {a : Arrival}
    (h : (Resolver.step s a).1.crashed = false) : s.crashed = false :=
  @crashed_of_run s [a] h

/-- A question that was sent to the upstream server and answered is in the log. -/
theorem Agrees.held {s : Resolver} {t : Archive} (h : Agrees s t) {x : Arrival}
    {resp : List UInt8} (hforwards : Forwards s.cache x) (hresp : Receives x resp)
    (hnext : (Resolver.step s x).1.crashed = false) :
    Held [x] (x.query.drop 12) (Archive.step t x).1.log := by
  obtain ⟨cache, crashed⟩ := s
  obtain ⟨log, crashed'⟩ := t
  obtain rfl : crashed = false := crashed_of_step hnext
  obtain rfl : false = crashed' := h.crashed
  obtain ⟨hasks, hfresh⟩ := h.mirrors.forwards_iff.mp hforwards
  rw [(h.step x).2.crashed] at hnext
  have hlong : ¬resp.length < 2 := by
    intro hshort
    rw [Archive.step_of_not_fresh hasks hfresh, Archive.ask, hresp] at hnext
    simp [hshort] at hnext
  rw [Archive.step_of_not_fresh hasks hfresh, Archive.ask, hresp]
  dsimp only
  rw [if_neg hlong]
  exact ⟨x, by simp, resp, hresp, rfl, by rw [final_concat, if_pos rfl]⟩

/-- A question for the address of `a` at a time, before a server that sends it back. -/
def askedAt (id : UInt8) (now : ℕ) : Arrival :=
  ⟨(⟨192, 168, 1, 7⟩, 5353), askA id 1, none, none, fun _ query => some query, now, now⟩

theorem asks_askedAt (id : UInt8) (now : ℕ) : Asks (askedAt id now) :=
  ⟨by simp [askedAt, Arrival.query, askA, bufSize], rfl⟩

end Lwrt.Dns
