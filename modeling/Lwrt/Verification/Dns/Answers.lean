import Lwrt.Library.Bytes
import Lwrt.Verification.Dns.Bounds

/-! # Answers of the resolver

A client should get an answer to its own question. What this resolver sends and keeps is compared
with that, for all datagrams that clients and strangers send. -/

namespace Lwrt.Dns

open Library Checked

/-! ## Questions -/

/-- The bytes of a name: labels up to the empty one, or up to a pointer. -/
inductive IsName : List UInt8 → Prop where
  | root : IsName [0]
  | pointer (hi lo : UInt8) (h : 0xc0 ≤ hi.toNat) : IsName [hi, lo]
  | label {n : UInt8} {text rest : List UInt8} (hpos : n.toNat ≠ 0) (h : n.toNat < 0xc0)
      (hlen : text.length = n.toNat) (hrest : IsName rest) : IsName (n :: (text ++ rest))

/-- The bytes of a number of questions: a name, a type and a class each. -/
inductive IsQuestions : ℕ → List UInt8 → Prop where
  | nil : IsQuestions 0 []
  | cons {n : ℕ} {name kind rest : List UInt8} (hname : IsName name) (hkind : kind.length = 4)
      (hrest : IsQuestions n rest) : IsQuestions (n + 1) (name ++ (kind ++ rest))

/-- The question section of a message. -/
def HasQuestion (msg q : List UInt8) : Prop :=
  IsQuestions (ofBeBytes (extract msg 4 2)) q ∧ q <+: msg.drop 12

def SameQuestion (query reply : List UInt8) : Prop :=
  extract reply 4 2 = extract query 4 2 ∧ ∀ q, HasQuestion reply q ↔ HasQuestion query q

/-- A whole header with the response bit, and the question of the query. -/
structure Answers (query reply : List UInt8) : Prop where
  length : 12 ≤ reply.length
  response : reply.getD 2 0 &&& 0x80 ≠ 0
  question : SameQuestion query reply

theorem sameQuestion_of_eq {query reply : List UInt8} (hcount : extract reply 4 2 = extract query 4 2)
    (h : reply.drop 12 = query.drop 12) : SameQuestion query reply := by
  refine ⟨hcount, fun q => ?_⟩
  rw [HasQuestion, HasQuestion, hcount, h]

/-- Of two names at the front of one buffer none is longer. -/
theorem IsName.eq_of_append {x y s t : List UInt8} (hx : IsName x) (hy : IsName y)
    (h : x ++ s = y ++ t) : x = y := by
  induction hx generalizing y with
  | root =>
      cases hy with
      | root => rfl
      | pointer hi lo hhi =>
          obtain ⟨rfl, -⟩ := List.cons.inj h
          exact absurd hhi (by decide)
      | label hpos =>
          obtain ⟨rfl, -⟩ := List.cons.inj h
          exact absurd rfl hpos
  | pointer hi lo hhi =>
      cases hy with
      | root =>
          obtain ⟨rfl, -⟩ := List.cons.inj h
          exact absurd hhi (by decide)
      | pointer hi' lo' => simp_all
      | label _ hlt =>
          obtain ⟨rfl, -⟩ := List.cons.inj h
          exact absurd hhi (Nat.not_le_of_lt hlt)
  | label hpos hlt hlen hrest ih =>
      cases hy with
      | root =>
          obtain ⟨rfl, -⟩ := List.cons.inj h
          exact absurd rfl hpos
      | pointer hi lo hhi =>
          obtain ⟨rfl, -⟩ := List.cons.inj h
          exact absurd hhi (Nat.not_le_of_lt hlt)
      | label hpos' hlt' hlen' hrest' =>
          rw [List.cons_append, List.cons_append, List.append_assoc, List.append_assoc] at h
          obtain ⟨rfl, htail⟩ := List.cons.inj h
          obtain ⟨rfl, hrests⟩ := List.append_inj htail (hlen.trans hlen'.symm)
          rw [ih hrest' hrests]

theorem IsQuestions.eq_of_append {n : ℕ} {x y s t : List UInt8} (hx : IsQuestions n x)
    (hy : IsQuestions n y) (h : x ++ s = y ++ t) : x = y := by
  induction hx generalizing y with
  | nil =>
      cases hy with
      | nil => rfl
  | cons hname hkind hrest ih =>
      cases hy with
      | cons hname' hkind' hrest' =>
          simp only [List.append_assoc] at h
          obtain rfl := hname.eq_of_append hname' h
          have htail := List.append_cancel_left h
          obtain ⟨rfl, hrests⟩ := List.append_inj htail (hkind.trans hkind'.symm)
          rw [ih hrest' hrests]

/-! ## Local answers -/

theorem isName_wire (labels : List Label) : IsName (wire labels) := by
  induction labels with
  | nil => exact .root
  | cons l labels ih =>
      rw [wire_cons]
      refine .label ?_ ?_ ?_ ih
      · rw [l.toNat_length]
        exact l.length_pos.ne'
      · rw [l.toNat_length]
        exact l.length_lt
      · rw [l.toNat_length]

theorem IsQuestions.prefix_iff {n : ℕ} {body q rest : List UInt8} (h : IsQuestions n body) :
    (IsQuestions n q ∧ q <+: body ++ rest) ↔ q = body := by
  constructor
  · intro hq
    obtain ⟨hquestions, tail, htail⟩ := hq
    exact hquestions.eq_of_append h htail
  · intro hq
    rw [hq]
    exact ⟨h, List.prefix_append _ _⟩

theorem answerBytes_eq (q₀ q₁ q₂ q₃ q₄ q₅ q₆ q₇ q₈ q₉ q₁₀ q₁₁ : UInt8) (rest : List UInt8) (k : ℕ)
    (ip : Ipv4Addr) :
    answerBytes ([q₀, q₁, q₂, q₃, q₄, q₅, q₆, q₇, q₈, q₉, q₁₀, q₁₁] ++ rest) (12 + k) ip =
      [q₀, q₁, 0x81, 0x80, q₄, q₅, 0, 1, q₈, q₉, q₁₀, q₁₁] ++
        (rest.take (k + 4) ++ addressRecord ip) := by
  have hlen : 12 + k + 4 =
      [q₀, q₁, q₂, q₃, q₄, q₅, q₆, q₇, q₈, q₉, q₁₀, q₁₁].length + (k + 4) := by
    simp only [List.length_cons, List.length_nil]
    omega
  rw [answerBytes, hlen, List.take_length_add_append]
  rfl

/-- What a local answer is made of. -/
structure Synthesised (query reply : List UInt8) (labels : List Label) (ip : Ipv4Addr) : Prop where
  id : reply.take 2 = query.take 2
  response : reply.getD 2 0 &&& 0x80 ≠ 0
  count : extract reply 4 2 = extract query 4 2
  one : extract reply 6 2 = toBe16 1
  authority : extract reply 8 2 = extract query 8 2
  additional : extract reply 10 2 = extract query 10 2
  body : ∃ kind rest : List UInt8, kind.length = 4 ∧
    query.drop 12 = wire labels ++ (kind ++ rest) ∧
    reply.drop 12 = wire labels ++ (kind ++ addressRecord ip)

theorem synthesised {query : List UInt8} {labels : List Label}
    (hname : wire labels <+: query.drop 12) (hlen : 12 + (wire labels).length + 4 ≤ query.length)
    (ip : Ipv4Addr) :
    Synthesised query (answerBytes query (12 + (wire labels).length) ip) labels ip := by
  obtain ⟨post, hpost⟩ := hname
  obtain ⟨head, rest, hhead, rfl⟩ : ∃ head rest, head.length = 12 ∧ query = head ++ rest :=
    ⟨query.take 12, query.drop 12, by rw [List.length_take]; omega,
      (List.take_append_drop 12 query).symm⟩
  have hrest : rest = wire labels ++ post := by
    rw [hpost, ← hhead, List.drop_left]
  match head, hhead with
  | [q₀, q₁, q₂, q₃, q₄, q₅, q₆, q₇, q₈, q₉, q₁₀, q₁₁], hhead =>
    have hflag : (0x81 : UInt8) &&& 0x80 ≠ 0 := by decide
    rw [List.length_append, hhead, hrest, List.length_append] at hlen
    rw [answerBytes_eq, hrest, List.take_length_add_append, List.append_assoc]
    refine ⟨rfl, hflag, rfl, rfl, rfl, rfl, post.take 4, post.drop 4, ?_, ?_, rfl⟩
    · rw [List.length_take]
      omega
    · rw [List.take_append_drop]
      rfl

/-- The question is copied, and it is the only one. -/
theorem Synthesised.sameQuestion {query reply : List UInt8} {labels : List Label} {ip : Ipv4Addr}
    (h : Synthesised query reply labels ip) (hcount : ofBeBytes (extract query 4 2) = 1) :
    SameQuestion query reply := by
  obtain ⟨kind, rest, hkind, hquery, hreply⟩ := h.body
  have hbody : IsQuestions 1 (wire labels ++ (kind ++ [])) :=
    .cons (isName_wire labels) hkind .nil
  rw [List.append_nil] at hbody
  refine ⟨h.count, fun q => ?_⟩
  rw [HasQuestion, HasQuestion, h.count, hcount, hquery, hreply, ← List.append_assoc,
    ← List.append_assoc, hbody.prefix_iff, hbody.prefix_iff]

/-- A local answer is one. -/
theorem answerBytes_answers {query : List UInt8} {after : ℕ} (h : Answerable query after)
    (ip : Ipv4Addr) :
    Answers query (answerBytes query after ip) ∧
      (answerBytes query after ip).take 2 = query.take 2 := by
  obtain ⟨name, hname⟩ := h.name
  obtain ⟨labels, -, rfl, hstart⟩ := exists_labels hname
  have hlen := h.after_le
  have hcount := h.count
  rw [u16At_eq (by omega)] at hcount
  have hparts := synthesised hstart hlen ip
  obtain ⟨kind, rest, -, -, hreply⟩ := hparts.body
  have hlong : 12 ≤ (answerBytes query (12 + (wire labels).length) ip).length := by
    by_contra hshort
    rw [List.drop_of_length_le (by omega)] at hreply
    simp [wire] at hreply
  exact ⟨⟨hlong, hparts.response, hparts.sameQuestion (Except.ok.inj hcount)⟩, hparts.id⟩

/-! ## The purpose -/

/-- What one turn sends and stores are answers to the query of the turn. A reply carries its id, and
an entry was taken from a datagram that carried it. -/
structure Genuine (s : Resolver) (a : Arrival) : Prop where
  replies : ∀ r ∈ (s.step a).2, Answers a.query r.bytes ∧ r.bytes.take 2 = a.query.take 2
  entries : ∀ (key : List UInt8) (e : List UInt8 × ℕ), (s.step a).1.cache[key]? = some e →
    s.cache[key]? ≠ some e → key = a.query.drop 12 ∧ Answers a.query e.1 ∧
      ∃ resp, Receives a resp ∧ resp.take 2 = a.query.take 2 ∧ e.1 = withoutId resp

/-- The datagram that is taken for the answer to a forwarded query is one, and a query that hits an
entry has as many questions as the reply there. -/
structure Honest (s : Resolver) (a : Arrival) : Prop where
  answers : Forwards s.cache a → ∀ resp, Receives a resp → 2 ≤ resp.length →
    Answers a.query resp ∧ resp.take 2 = a.query.take 2
  hits : ∀ resp, Hits s.cache a resp → extract resp 4 2 = extract a.query 4 2

/-- Every entry is an answer to a query with its key. -/
structure Answering (cache : Cache) : Prop where
  roomy : Roomy cache
  answers : ∀ (key : List UInt8) (e : List UInt8 × ℕ), cache[key]? = some e →
    ∃ query : List UInt8, query.drop 12 = key ∧ Answers query e.1

theorem Answering.of_cached {cache : Cache} (h : Answering cache) {key resp : List UInt8} {now : ℕ}
    (hcached : cached cache key now = some resp) :
    ∃ query : List UInt8, query.drop 12 = key ∧ Answers query resp := by
  obtain ⟨e, he, hresp⟩ := Option.bind_eq_some_iff.mp hcached
  split at hresp
  case isTrue => exact Option.some.inj hresp ▸ h.answers key e he
  case isFalse => cases hresp

/-- The first two bytes of a message do not belong to its question. -/
theorem Answers.congr {query reply reply' : List UInt8} (h : Answers query reply)
    (hlen : 2 ≤ reply'.length) (hdrop : reply'.drop 2 = reply.drop 2) : Answers query reply' := by
  have hlong := h.length
  have hlen' : reply'.length = reply.length := by
    have := congrArg List.length hdrop
    rw [List.length_drop, List.length_drop] at this
    omega
  have hrest (n : ℕ) : reply'.drop (2 + n) = reply.drop (2 + n) := by
    rw [← List.drop_drop, hdrop, List.drop_drop]
  have hcount : extract reply' 4 2 = extract reply 4 2 := congrArg (List.take 2) (hrest 2)
  refine ⟨hlen' ▸ hlong, ?_, hcount.trans h.question.1, fun q => ?_⟩
  · have hflag := h.response
    rw [List.getD_eq_getElem?_getD] at hflag ⊢
    have hbyte := congrArg (·[0]?) hdrop
    simp only [List.getElem?_drop] at hbyte
    rwa [hbyte]
  · rw [HasQuestion, hcount, hrest 10]
    exact h.question.2 q

theorem drop_withId {query : List UInt8} (h : 2 ≤ query.length) (resp : List UInt8) :
    (withId query resp).drop 2 = resp.drop 2 := by
  rw [withId, List.drop_left' (by rw [List.length_take]; omega)]

theorem take_withId {query : List UInt8} (h : 2 ≤ query.length) (resp : List UInt8) :
    (withId query resp).take 2 = query.take 2 := by
  rw [withId, List.take_left' (by rw [List.length_take]; omega)]

theorem Hits.not_forwards {cache : Cache} {a : Arrival} {resp : List UInt8} (h : Hits cache a resp) :
    ¬ Forwards cache a := by
  intro hfwd
  have hnone := hfwd.2
  rw [h.2] at hnone
  cases hnone

/-! ## One turn -/

theorem honest_of_not_asks {s : Resolver} {a : Arrival} (h : ¬ Asks a) : Honest s a :=
  ⟨fun hfwd => absurd hfwd.1 h, fun _ hhit => absurd hhit.1 h⟩

/-- A turn that sends nothing and keeps the cache is genuine. -/
theorem genuine_of_quiet {cache : Cache} {a : Arrival} {crashed : Bool}
    (h : Resolver.step ⟨cache, false⟩ a = (⟨cache, crashed⟩, [])) : Genuine ⟨cache, false⟩ a where
  replies := by
    rw [h]
    simp
  entries := by
    rw [h]
    exact fun _ _ he hne => absurd he hne

theorem genuine_hit_iff {cache : Cache} (h : Answering cache) {a : Arrival} {resp : List UInt8}
    (hhit : Hits cache a resp)
    (hstep : Resolver.step ⟨cache, false⟩ a =
      (⟨cache, false⟩, [⟨a.client, withId a.query resp⟩])) :
    Genuine ⟨cache, false⟩ a ↔ extract resp 4 2 = extract a.query 4 2 := by
  have hlen : 2 ≤ a.query.length := Nat.le_trans (by decide) hhit.1.length
  have hroom : 2 ≤ (withId a.query resp).length := by
    rw [withId, List.length_append, List.length_take]
    omega
  have hcount : extract (withId a.query resp) 4 2 = extract resp 4 2 := by
    have hdrop := congrArg (fun l => (l.drop 2).take 2) (drop_withId hlen resp)
    simp only [List.drop_drop] at hdrop
    exact hdrop
  constructor
  · intro hgenuine
    have hreply := hgenuine.replies ⟨a.client, withId a.query resp⟩ (by simp [hstep])
    exact hcount ▸ hreply.1.question.1
  · intro hsame
    obtain ⟨query, hkey, hanswers⟩ := h.of_cached hhit.2
    have hquestion : SameQuestion query a.query :=
      sameQuestion_of_eq (hsame.symm.trans hanswers.question.1) hkey.symm
    have hanswer : Answers a.query resp :=
      ⟨hanswers.length, hanswers.response, hsame,
        fun q => (hanswers.question.2 q).trans (hquestion.2 q).symm⟩
    constructor
    · intro r hr
      rw [hstep, List.mem_singleton] at hr
      rw [hr]
      exact ⟨hanswer.congr hroom (drop_withId hlen resp), take_withId hlen resp⟩
    · rw [hstep]
      exact fun _ _ he hne => absurd he hne

theorem genuine_relayed_iff {cache : Cache} {a : Arrival} {resp : List UInt8}
    (hresp : Receives a resp)
    (hstep : Resolver.step ⟨cache, false⟩ a =
      (⟨cache.insert (a.query.drop 12) (withoutId resp, a.later), false⟩, [⟨a.client, resp⟩])) :
    Genuine ⟨cache, false⟩ a ↔ Answers a.query resp ∧ resp.take 2 = a.query.take 2 := by
  constructor
  · intro hgenuine
    exact hgenuine.replies ⟨a.client, resp⟩ (by simp [hstep])
  · intro hanswer
    have hstored : Answers a.query (withoutId resp) :=
      hanswer.1.congr (by simp [withoutId]) rfl
    constructor
    · intro r hr
      rw [hstep, List.mem_singleton] at hr
      rw [hr]
      exact hanswer
    · rw [hstep]
      intro key e he hne
      rw [Std.TreeMap.getElem?_insert] at he
      split at he
      case isTrue hkey =>
        obtain rfl := Option.some.inj he
        exact ⟨(Std.LawfulEqOrd.eq_of_compare hkey).symm, hstored, resp, hresp, hanswer.2, rfl⟩
      case isFalse => exact absurd he hne

/-- A turn is genuine exactly if what comes from outside is honest. -/
theorem genuine_iff_honest {cache : Cache} (h : Answering cache) (a : Arrival) :
    Genuine ⟨cache, false⟩ a ↔ Honest ⟨cache, false⟩ a := by
  generalize hnext : Resolver.step ⟨cache, false⟩ a = next
  cases hnext ▸ step_outcome h.roomy a with
  | dropped hshort =>
      have hquiet : ¬ Asks a := fun hasks => absurd hasks.length (Nat.not_le_of_lt hshort)
      exact iff_of_true (genuine_of_quiet hnext) (honest_of_not_asks hquiet)
  | answered hanswerable heq =>
      have hquiet : ¬ Asks a := by
        intro hasks
        have hnone := hasks.unanswered
        rw [heq] at hnone
        cases hnone
      refine iff_of_true ⟨?_, ?_⟩ (honest_of_not_asks hquiet)
      · intro r hr
        rw [hnext, List.mem_singleton] at hr
        rw [hr]
        exact answerBytes_answers hanswerable _
      · rw [hnext]
        exact fun _ _ he hne => absurd he hne
  | hit hhit =>
      rw [genuine_hit_iff h hhit hnext]
      constructor
      · intro hsame
        refine ⟨fun hfwd => absurd hfwd hhit.not_forwards, fun resp hresp => ?_⟩
        rw [← Option.some.inj (hhit.2.symm.trans hresp.2)]
        exact hsame
      · intro hhonest
        exact hhonest.hits _ hhit
  | relayed hfwd hresp hlong =>
      rw [genuine_relayed_iff hresp hnext]
      constructor
      · intro hanswer
        refine ⟨fun _ resp hresp' _ => ?_, fun _ hhit => absurd hfwd hhit.not_forwards⟩
        rw [← Option.some.inj (hresp.symm.trans hresp')]
        exact hanswer
      · intro hhonest
        exact hhonest.answers hfwd _ hresp hlong
  | lost hfwd hnone =>
      refine iff_of_true (genuine_of_quiet hnext)
        ⟨fun _ resp hresp => ?_, fun _ hhit => absurd hfwd hhit.not_forwards⟩
      rw [Receives, hnone] at hresp
      cases hresp
  | crashed hfwd hresp hshort =>
      refine iff_of_true (genuine_of_quiet hnext)
        ⟨fun _ resp hresp' hlong => ?_, fun _ hhit => absurd hfwd hhit.not_forwards⟩
      rw [← Option.some.inj (hresp.symm.trans hresp')] at hlong
      exact absurd hlong (Nat.not_le_of_lt hshort)

/-! ## Runs -/

theorem answering_step {cache : Cache} (h : Answering cache) {a : Arrival}
    (hgenuine : Genuine ⟨cache, false⟩ a) : Answering (Resolver.step ⟨cache, false⟩ a).1.cache where
  roomy := roomy_step h.roomy a
  answers := by
    intro key e he
    by_cases hold : cache[key]? = some e
    · exact h.answers key e hold
    · obtain ⟨hkey, hanswers, -⟩ := hgenuine.entries key e he hold
      exact ⟨a.query, hkey.symm, hanswers⟩

theorem answering_empty : Answering ∅ :=
  ⟨roomy_empty, fun key e he => by simp at he⟩

/-- In a run every turn sends and stores answers exactly if every datagram that is taken for an
answer is one, and every query that hits an entry of the cache has as many questions as it. -/
theorem genuine_iff (arrivals : List Arrival) :
    Resolver.step.Meets Genuine Resolver.start arrivals ↔
      Resolver.step.Meets (fun s a => s.crashed = false → Honest s a) Resolver.start arrivals := by
  refine Machine.meets_congr Resolver.step (fun s => s.crashed = false → Answering s.cache) ?_ ?_
    (fun _ => answering_empty) arrivals
  · intro s a hs
    obtain ⟨cache, crashed⟩ := s
    cases crashed with
    | false => exact (genuine_iff_honest (hs rfl) a).trans (by simp)
    | true => exact iff_of_true ⟨by simp [Resolver.step], fun _ _ he hne => absurd he hne⟩ (by simp)
  · intro s a hs hhonest
    obtain ⟨cache, crashed⟩ := s
    cases crashed with
    | false =>
        have hcache := hs rfl
        exact fun _ => answering_step hcache ((genuine_iff_honest hcache a).mpr (hhonest rfl))
    | true => exact fun halive => absurd halive (by simp [Resolver.step])

/-- Twelve zeros, sent by anybody. -/
def forged : List UInt8 :=
  List.replicate 12 0

def poisoned : Arrival :=
  ⟨(⟨192, 168, 1, 7⟩, 5353), askA 1 1, none, none, fun _ _ => some forged, 0, 0⟩

/-- Another client asks the same a second later. -/
def victim : Arrival :=
  ⟨(⟨192, 168, 1, 8⟩, 5353), askA 2 1, none, none, fun _ _ => none, 1000000000, 1000000000⟩

/-- A stranger answers the first client, and the second one gets the same from the cache. -/
theorem forged_not_genuine :
    (Resolver.step.run Resolver.start [poisoned, victim]).2 =
      [⟨poisoned.client, forged⟩, ⟨victim.client, withId (askA 2 1) forged⟩] ∧
      ¬ Resolver.step.Meets Genuine Resolver.start [poisoned, victim] := by
  refine ⟨by decide +kernel, ?_⟩
  intro hmeets
  have hreplies : (Resolver.start.step poisoned).2 = [⟨poisoned.client, forged⟩] := by
    decide +kernel
  have hforged := hmeets.1.replies ⟨poisoned.client, forged⟩ (by simp [hreplies])
  exact hforged.1.response (by decide)

end Lwrt.Dns
