import Lwrt.Verification.Dns.Answers

/-! # Local answers as messages

The header of a message announces how many questions and records follow it. A local answer takes
the counts of authority and additional records from the query, and the records it does not take. -/

namespace Lwrt.Dns

open Library

/-! ## The format -/

/-- Where a pointer leads. -/
def target (hi lo : UInt8) : ℕ :=
  (hi.toNat - 0xc0) * 256 + lo.toNat

/-- The name that stands at a position of a message, and where it ends. A pointer stands for a
name before it. -/
inductive NameAt (msg : List UInt8) : ℕ → List Label → ℕ → Prop where
  | root {pos : ℕ} (h : [0] <+: msg.drop pos) : NameAt msg pos [] (pos + 1)
  | label {pos next : ℕ} {l : Label} {labels : List Label} (h : l.wire <+: msg.drop pos)
      (hrest : NameAt msg (pos + l.wire.length) labels next) : NameAt msg pos (l :: labels) next
  | pointer {pos next : ℕ} {hi lo : UInt8} {labels : List Label} (h : [hi, lo] <+: msg.drop pos)
      (hhi : 0xc0 ≤ hi.toNat) (hback : target hi lo < pos)
      (hrest : NameAt msg (target hi lo) labels next) : NameAt msg pos labels (pos + 2)

structure Record where
  name : List Label
  type : UInt16
  cls : UInt16
  ttl : UInt32
  data : List UInt8

/-- A record after its name. -/
def Record.body (r : Record) (size : UInt16) : List UInt8 :=
  toBe16 r.type ++ toBe16 r.cls ++ toBe32 r.ttl ++ toBe16 size ++ r.data

def RecordAt (msg : List UInt8) (pos : ℕ) (r : Record) (next : ℕ) : Prop :=
  ∃ stop size, NameAt msg pos r.name stop ∧ size.toNat = r.data.length ∧
    r.body size <+: msg.drop stop ∧ next = stop + (r.body size).length

/-- So many things in a row. -/
inductive Times (P : ℕ → ℕ → Prop) : ℕ → ℕ → ℕ → Prop where
  | zero {pos : ℕ} : Times P 0 pos pos
  | succ {n pos mid next : ℕ} (head : P pos mid) (tail : Times P n mid next) :
      Times P (n + 1) pos next

variable (Legal : List Label → Prop)

/-- A question between two positions, for a name that is allowed in messages. -/
def HasQuestionAt (msg : List UInt8) (pos next : ℕ) : Prop :=
  ∃ labels stop, NameAt msg pos labels stop ∧ Legal labels ∧ next = stop + 4 ∧ next ≤ msg.length

def HasRecordAt (msg : List UInt8) (pos next : ℕ) : Prop :=
  ∃ r, RecordAt msg pos r next ∧ Legal r.name

/-- After the header stand as many questions, answers, authority and additional records as it
announces, and no other bytes. -/
structure IsMessage (msg : List UInt8) : Prop where
  header : 12 ≤ msg.length
  sections : ∃ answers authority additional,
    Times (HasQuestionAt Legal msg) (ofBeBytes (extract msg 4 2)) 12 answers ∧
    Times (HasRecordAt Legal msg) (ofBeBytes (extract msg 6 2)) answers authority ∧
    Times (HasRecordAt Legal msg) (ofBeBytes (extract msg 8 2)) authority additional ∧
    Times (HasRecordAt Legal msg) (ofBeBytes (extract msg 10 2)) additional msg.length

/-- The reply of the resolver itself: the leased address, under the name that was asked for. -/
structure LocalReply (leases : Option Text) (query reply : List UInt8) : Prop
    extends Answers query reply where
  id : reply.take 2 = query.take 2
  message : IsMessage Legal reply
  one : ofBeBytes (extract reply 6 2) = 1
  answer : ∃ labels stop ip ttl next, NameAt reply 12 labels stop ∧
    lookupLease leases (host labels) = some ip ∧
    RecordAt reply (stop + 4) ⟨labels, 1, 1, ttl, ip.octets⟩ next

variable {Legal} {msg : List UInt8}

/-! ## One reading of a message -/

theorem first_unique {x y : UInt8} {xs ys s : List UInt8} (h : x :: xs <+: s)
    (h' : y :: ys <+: s) : x = y := by
  obtain ⟨t, rfl⟩ := h
  exact (List.cons_prefix_cons.mp h').1.symm

theorem prefix_drop {s t : List UInt8} {pos : ℕ} (h : s ++ t <+: msg.drop pos) :
    s <+: msg.drop pos ∧ t <+: msg.drop (pos + s.length) := by
  obtain ⟨rest, hrest⟩ := h
  rw [List.append_assoc] at hrest
  refine ⟨⟨t ++ rest, hrest⟩, rest, ?_⟩
  rw [← List.drop_drop, ← hrest, List.drop_left]

theorem Label.length_ne_zero (l : Label) : UInt8.ofNat l.bytes.length ≠ 0 := by
  intro h
  have hlen := l.toNat_length
  rw [h] at hlen
  exact l.length_pos.ne hlen

theorem Label.not_pointer (l : Label) : ¬ 0xc0 ≤ (UInt8.ofNat l.bytes.length).toNat := by
  rw [l.toNat_length]
  exact Nat.not_le_of_lt l.length_lt

theorem Label.unique {l m : Label} {s : List UInt8} (hl : l.wire <+: s) (hm : m.wire <+: s) :
    l = m := by
  have hbyte := first_unique hl hm
  have hlen : l.bytes.length = m.bytes.length := by
    rw [← l.toNat_length, hbyte, m.toNat_length]
  have hstart := List.prefix_of_prefix_length_le hl hm (by simp [hlen])
  exact Label.ext (List.cons.inj (hstart.eq_of_length (by simp [hlen]))).2

/-- The first byte says how a name goes on, so it is the only one at its position. -/
theorem NameAt.unique {pos next next' : ℕ} {labels labels' : List Label}
    (h : NameAt msg pos labels next) (h' : NameAt msg pos labels' next') :
    labels = labels' ∧ next = next' := by
  induction h generalizing labels' next' with
  | root h =>
      cases h' with
      | root => exact ⟨rfl, rfl⟩
      | label hm => exact absurd (first_unique hm h) (Label.length_ne_zero _)
      | pointer hp hhi => exact absurd (first_unique hp h ▸ hhi) (by decide)
  | label h hrest ih =>
      cases h' with
      | root hm => exact absurd (first_unique h hm) (Label.length_ne_zero _)
      | label hm hrest' =>
          obtain rfl := Label.unique h hm
          obtain ⟨rfl, rfl⟩ := ih hrest'
          exact ⟨rfl, rfl⟩
      | pointer hp hhi => exact absurd (first_unique hp h ▸ hhi) (Label.not_pointer _)
  | pointer h hhi hback hrest ih =>
      cases h' with
      | root hm => exact absurd (first_unique h hm ▸ hhi) (by decide)
      | label hm => exact absurd (first_unique h hm ▸ hhi) (Label.not_pointer _)
      | pointer hp _ _ hrest' =>
          have hstart := List.prefix_of_prefix_length_le h hp (Nat.le_refl _)
          obtain ⟨rfl, rfl⟩ : _ = _ ∧ _ = _ := by simpa using hstart.eq_of_length rfl
          exact ⟨(ih hrest').1, rfl⟩

theorem NameAt.lt {pos next : ℕ} {labels : List Label} (h : NameAt msg pos labels next) :
    pos < next := by
  induction h with
  | root => exact Nat.lt_succ_self _
  | label _ _ ih => omega
  | pointer => omega

theorem Record.length_body (r : Record) (size : UInt16) :
    (r.body size).length = 10 + r.data.length := by
  simp only [Record.body, List.length_append, length_toBe16, length_toBe32]

theorem extract_size {r : Record} {size : UInt16} {pos : ℕ} (h : r.body size <+: msg.drop pos) :
    extract msg (pos + 8) 2 = toBe16 size := by
  rw [extract_inside h (by rw [Record.length_body]; omega)]
  rfl

/-- The length of the data stands before it. -/
theorem RecordAt.unique {pos next next' : ℕ} {r r' : Record} (h : RecordAt msg pos r next)
    (h' : RecordAt msg pos r' next') : next = next' := by
  obtain ⟨stop, size, hname, hsize, hbody, rfl⟩ := h
  obtain ⟨stop', size', hname', hsize', hbody', rfl⟩ := h'
  obtain ⟨-, rfl⟩ := hname.unique hname'
  obtain rfl := toBe16_injective ((extract_size hbody).symm.trans (extract_size hbody'))
  rw [Record.length_body, Record.length_body, ← hsize, ← hsize']

theorem RecordAt.bounds {pos next : ℕ} {r : Record} (h : RecordAt msg pos r next) :
    pos < next ∧ next ≤ msg.length := by
  obtain ⟨stop, size, hname, hsize, hbody, rfl⟩ := h
  have hlt := hname.lt
  have hlen := hbody.length_le
  rw [Record.length_body, List.length_drop] at hlen
  rw [Record.length_body]
  omega

theorem Times.unique {P : ℕ → ℕ → Prop} (hP : ∀ pos a b, P pos a → P pos b → a = b) {n pos a b : ℕ}
    (h : Times P n pos a) (h' : Times P n pos b) : a = b := by
  induction h with
  | zero =>
      cases h' with
      | zero => rfl
  | succ head tail ih =>
      cases h' with
      | succ head' tail' =>
          obtain rfl := hP _ _ _ head head'
          exact ih tail'

/-- No record fits behind the end. -/
theorem Times.eq_zero {n next : ℕ} (h : Times (HasRecordAt Legal msg) n msg.length next) :
    n = 0 := by
  cases h with
  | zero => rfl
  | succ head =>
      obtain ⟨r, hr, -⟩ := head
      have hbounds := hr.bounds
      omega

theorem times_one {P : ℕ → ℕ → Prop} {pos next : ℕ} (h : P pos next) : Times P 1 pos next :=
  .succ h .zero

/-! ## The reply -/

theorem nameAt_wire {labels : List Label} {pos : ℕ} (h : wire labels <+: msg.drop pos) :
    NameAt msg pos labels (pos + (wire labels).length) := by
  induction labels generalizing pos with
  | nil => exact .root h
  | cons l labels ih =>
      rw [wire_cons] at h
      obtain ⟨hl, hlabels⟩ := prefix_drop h
      rw [wire_cons, List.length_append, ← Nat.add_assoc]
      exact .label hl (ih hlabels)

namespace Synthesised

variable {query reply : List UInt8} {labels : List Label} {ip : Ipv4Addr}

theorem nameAt (h : Synthesised query reply labels ip) :
    NameAt reply 12 labels (12 + (wire labels).length) := by
  obtain ⟨kind, -, -, -, hbody⟩ := h.body
  exact nameAt_wire ⟨_, hbody.symm⟩

/-- The record of the answer ends the reply. -/
theorem recordAt (h : Synthesised query reply labels ip) :
    RecordAt reply (12 + (wire labels).length + 4) ⟨labels, 1, 1, 120, ip.octets⟩
      reply.length := by
  obtain ⟨kind, -, hkind, -, hbody⟩ := h.body
  have hlen : reply.length = 12 + (wire labels).length + 4 + (addressRecord ip).length := by
    have hdrop := congrArg List.length hbody
    have hpos := wire_length_pos labels
    rw [List.length_drop, List.length_append, List.length_append, hkind] at hdrop
    omega
  have hrecord : reply.drop (12 + (wire labels).length + 4) = addressRecord ip := by
    rw [← List.drop_drop, ← List.drop_drop, hbody, List.drop_left, ← hkind, List.drop_left]
  have hpointer : [0xc0, 0x0c] <+: reply.drop (12 + (wire labels).length + 4) := by
    rw [hrecord]
    exact ⟨_, rfl⟩
  refine ⟨_, 4, .pointer hpointer (by decide) ?_ h.nameAt, rfl, ?_, ?_⟩
  · exact Nat.lt_add_right 4 (Nat.lt_add_of_pos_right (wire_length_pos labels))
  · rw [← List.drop_drop, hrecord]
    exact List.prefix_rfl
  · rw [hlen]
    rfl

theorem isMessage (h : Synthesised query reply labels ip)
    (hcount : ofBeBytes (extract query 4 2) = 1) (hlegal : Legal labels)
    (hauthority : ofBeBytes (extract query 8 2) = 0)
    (hadditional : ofBeBytes (extract query 10 2) = 0) : IsMessage Legal reply := by
  have hbounds := h.recordAt.bounds
  have hquestion : HasQuestionAt Legal reply 12 (12 + (wire labels).length + 4) :=
    ⟨labels, _, h.nameAt, hlegal, rfl, Nat.le_of_lt hbounds.1⟩
  have hrecord : HasRecordAt Legal reply (12 + (wire labels).length + 4) reply.length :=
    ⟨_, h.recordAt, hlegal⟩
  refine ⟨by omega, 12 + (wire labels).length + 4, reply.length, reply.length, ?_, ?_, ?_, ?_⟩
  · rw [h.count, hcount]
    exact times_one hquestion
  · rw [h.one]
    exact times_one hrecord
  · rw [h.authority, hauthority]
    exact .zero
  · rw [h.additional, hadditional]
    exact .zero

/-- The counts of a whole message are those of the reply, so the query announces nothing that is
cut off. -/
theorem of_isMessage (h : Synthesised query reply labels ip)
    (hcount : ofBeBytes (extract query 4 2) = 1) (hmessage : IsMessage Legal reply) :
    Legal labels ∧ ofBeBytes (extract query 8 2) = 0 ∧ ofBeBytes (extract query 10 2) = 0 := by
  obtain ⟨answers, authority, additional, hquestions, hanswers, hauthority, hadditional⟩ :=
    hmessage.sections
  rw [h.count, hcount] at hquestions
  rw [h.one] at hanswers
  rw [h.authority] at hauthority
  rw [h.additional] at hadditional
  cases hquestions with
  | succ head tail =>
    cases tail
    obtain ⟨labels', stop, hname, hlegal, rfl, -⟩ := head
    obtain ⟨rfl, rfl⟩ := hname.unique h.nameAt
    cases hanswers with
    | succ head tail =>
      cases tail
      obtain ⟨r, hr, -⟩ := head
      obtain rfl := hr.unique h.recordAt
      have hzero := hauthority.eq_zero
      rw [hzero] at hauthority
      cases hauthority
      exact ⟨hlegal, hzero, hadditional.eq_zero⟩

end Synthesised

/-- A local answer is a whole message, with one answer for the name of the question, if and only if
the query announces no authority and no additional records; whatever else is asked of the names in
a message is asked of the name in the query. -/
theorem localReply_iff (Legal : List Label → Prop) {leases : Option Text}
    {query reply : List UInt8} (hlen : 12 ≤ query.length) (h : localAnswer leases query = .ok (some reply)) :
    LocalReply Legal leases query reply ↔
      ofBeBytes (extract query 8 2) = 0 ∧ ofBeBytes (extract query 10 2) = 0 ∧
        ∃ labels stop, NameAt query 12 labels stop ∧ Legal labels := by
  cases asksA_or_none leases hlen with
  | inr hnone =>
      rw [hnone] at h
      cases h
  | inl hasks =>
      obtain ⟨labels, hasks⟩ := hasks
      rw [hasks.localAnswer_eq] at h
      obtain ⟨ip, hlease, rfl⟩ := Option.map_eq_some_iff.mp (Except.ok.inj h)
      have hparts := synthesised hasks.name hasks.length ip
      constructor
      · intro hreply
        obtain ⟨hlegal, hauthority, hadditional⟩ := hparts.of_isMessage hasks.count hreply.message
        exact ⟨hauthority, hadditional, labels, _, nameAt_wire hasks.name, hlegal⟩
      · intro hquery
        obtain ⟨hauthority, hadditional, labels', stop, hname, hlegal⟩ := hquery
        obtain ⟨rfl, rfl⟩ := hname.unique (nameAt_wire hasks.name)
        obtain ⟨hanswers, hid⟩ := answerBytes_answers hasks.answerable ip
        exact
          { toAnswers := hanswers
            id := hid
            message := hparts.isMessage hasks.count hlegal hauthority hadditional
            one := by rw [hparts.one]; rfl
            answer := ⟨_, _, ip, 120, _, hparts.nameAt, hlease, hparts.recordAt⟩ }

/-- The limits of the protocol: 63 bytes for a label, 255 for a name. -/
structure WithinLimits (labels : List Label) : Prop where
  label : ∀ l ∈ labels, l.bytes.length ≤ 63
  name : (wire labels).length ≤ 255

/-- The name `a`. -/
def nameA : List Label :=
  [⟨[97], by decide, by decide⟩]

def leaseA : Text :=
  "1700000000 02:00:00:00:00:01 192.168.1.100 a".toList

theorem localReply_plain :
    LocalReply WithinLimits (some leaseA) (askA 1 1)
      (answerBytes (askA 1 1) 15 ⟨192, 168, 1, 100⟩) :=
  (localReply_iff WithinLimits (by decide) (by decide +kernel)).mpr
    ⟨rfl, rfl, nameA, _, nameAt_wire ⟨_, rfl⟩, by decide, by decide⟩

/-- The question for the address of `a` with the record that asks for large replies. -/
def askLarge : List UInt8 :=
  [0, 1, 1, 0, 0, 1, 0, 0, 0, 0, 0, 1] ++ [1, 97, 0, 0, 1, 0, 1] ++
    [0, 0, 41, 16, 0, 0, 0, 0, 0, 0, 0]

theorem askLarge_asksA : AsksA askLarge nameA where
  count := rfl
  name := ⟨_, rfl⟩
  type := rfl
  length := by decide

/-- The reply announces a record that was cut off. -/
theorem askLarge_no_message :
    ∃ reply, localAnswer (some leaseA) askLarge = .ok (some reply) ∧
      ¬ LocalReply (fun _ => True) (some leaseA) askLarge reply := by
  refine ⟨answerBytes askLarge 15 ⟨192, 168, 1, 100⟩, by decide +kernel, ?_⟩
  intro h
  have hparts := synthesised askLarge_asksA.name askLarge_asksA.length ⟨192, 168, 1, 100⟩
  have hcounts := hparts.of_isMessage rfl h.message
  exact absurd hcounts.2.2 (by decide)

end Lwrt.Dns
