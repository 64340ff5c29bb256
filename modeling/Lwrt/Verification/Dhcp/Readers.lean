import Lwrt.Verification.Dhcp.Packet

/-! # The two packet readers

`parse` keeps the last message type of a packet, `parse_ack` asks whether one of them is ACK. -/

namespace Lwrt.Dhcp

open Library

/-- The first bytes of the message-type options, in order. -/
def messageTypes (buf : List UInt8) : List (Option UInt8) :=
  ((options buf).filter (·.1 = optMsgtype)).map (·.2.head?)

/-- A packet of a server with the transaction id. -/
structure IsReplyTo (buf : List UInt8) (xid : Xid) : Prop where
  length_le : 240 ≤ buf.length
  magic_eq : extract buf 236 4 = magic
  xid_eq : extract buf 4 4 = xid.toList
  op_eq : buf[0]? = some opReply

/-! ## What each reader keeps -/

theorem foldl_readOption (opts : List (UInt8 × List UInt8)) (p : Packet) :
    (opts.foldl Packet.readOption p).op = p.op ∧ (opts.foldl Packet.readOption p).xid = p.xid ∧
      (opts.foldl Packet.readOption p).msgType =
        ((opts.filter (·.1 = optMsgtype)).getLast?.map (·.2.head?.getD 0)).getD p.msgType := by
  induction opts using List.reverseRecOn with
  | nil => exact ⟨rfl, rfl, rfl⟩
  | append_singleton opts opt ih =>
      rw [List.foldl_append, List.foldl_cons, List.foldl_nil, List.filter_append]
      by_cases htype : opt.1 = optMsgtype
      · simp [Packet.readOption, htype, ih]
      · simp only [Packet.readOption, htype, if_false, List.filter_cons, List.filter_nil,
          decide_false, Bool.false_eq_true, List.append_nil]
        split
        · exact ih
        · split
          · exact ih
          · exact ih

theorem foldl_ackFields (opts : List (UInt8 × List UInt8)) (f : AckFields) :
    (opts.foldl AckFields.readOption f).isAck = true ↔
      f.isAck = true ∨ ∃ opt ∈ opts, opt.1 = optMsgtype ∧ opt.2.head? = some ack := by
  induction opts generalizing f with
  | nil => simp
  | cons opt opts ih =>
      rw [List.foldl_cons, ih]
      by_cases hack : opt.1 = optMsgtype ∧ opt.2.head? = some ack
      · simp [AckFields.readOption, hack]
      · have hkeep : (f.readOption opt).isAck = f.isAck := by
          unfold AckFields.readOption
          rw [if_neg hack]
          split
          · rfl
          · split
            · rfl
            · split <;> rfl
        rw [hkeep]
        simp [hack]

/-! ## What each reader accepts -/

theorem parseAck_isSome_iff (buf : List UInt8) (xid : Xid) :
    (parseAck buf xid).isSome = true ↔ IsReplyTo buf xid ∧ some ack ∈ messageTypes buf := by
  have hmem : some ack ∈ messageTypes buf ↔
      ∃ opt ∈ options buf, opt.1 = optMsgtype ∧ opt.2.head? = some ack := by
    simp only [messageTypes, List.mem_map, List.mem_filter, decide_eq_true_eq, and_assoc]
  rw [hmem, parseAck]
  split
  case isTrue hbad =>
    refine iff_of_false Bool.false_ne_true fun h => ?_
    obtain ⟨hlen, hmagic, hxid, hop⟩ := h.1
    rcases hbad with hbad | hbad | hbad | hbad
    · exact absurd hlen (Nat.not_le_of_lt hbad)
    · exact hbad hmagic
    · exact hbad hxid
    · exact hbad hop
  case isFalse hgood =>
    simp only [not_or, not_not] at hgood
    obtain ⟨hlen, hmagic, hxid, hop⟩ := hgood
    have hreply : IsReplyTo buf xid := ⟨Nat.le_of_not_lt hlen, hmagic, hxid, hop⟩
    have hfold := foldl_ackFields (options buf)
      { isAck := false, mask := ⟨255, 255, 255, 0⟩, gw := none, dns := none }
    simp only [Bool.false_eq_true, false_or] at hfold
    rw [← hfold, and_iff_right hreply]
    dsimp only
    split
    · rename_i hack
      exact iff_of_true rfl hack
    · rename_i hnot
      exact iff_of_false Bool.false_ne_true hnot

/-- No option and an empty one count as zero, which is not ACK. -/
theorem lastType_eq_ack_iff (buf : List UInt8) :
    (((options buf).filter (·.1 = optMsgtype)).getLast?.map (·.2.head?.getD 0)).getD 0 = ack ↔
      (messageTypes buf).getLast? = some (some ack) := by
  rw [messageTypes, List.getLast?_map]
  cases ((options buf).filter (·.1 = optMsgtype)).getLast? with
  | none => exact iff_of_false (by decide) (by simp)
  | some opt =>
      simp only [Option.map_some, Option.getD_some, Option.some.injEq]
      cases opt.2.head? with
      | none => exact iff_of_false (by decide) (by simp)
      | some b => simp

theorem parse_ack_iff (buf : List UInt8) (xid : Xid) :
    (∃ p, parse buf = some p ∧ p.op = opReply ∧ p.xid = xid ∧ p.msgType = ack) ↔
      IsReplyTo buf xid ∧ (messageTypes buf).getLast? = some (some ack) := by
  by_cases hhead : 240 ≤ buf.length ∧ extract buf 236 4 = magic
  case neg =>
    have hnone : parse buf = none := by
      rw [parse, if_pos]
      rw [← Nat.not_le]
      exact not_and_or.mp hhead
    refine iff_of_false ?_ fun h => hhead ⟨h.1.length_le, h.1.magic_eq⟩
    rw [hnone]
    simp
  obtain ⟨hlen, hmagic⟩ := hhead
  obtain ⟨p, hstart, hparse⟩ := exists_parse hlen hmagic
  obtain ⟨hop, hxid, htype⟩ := foldl_readOption (options buf) p
  have hreply : IsReplyTo buf xid ↔ p.op = opReply ∧ p.xid = xid := by
    constructor
    · intro h
      refine ⟨Option.some.inj (hstart.op_eq.symm.trans h.op_eq), Vector.toList_inj.mp ?_⟩
      rw [← hstart.xid_eq, h.xid_eq]
    · intro h
      obtain ⟨h₁, h₂⟩ := h
      exact ⟨hlen, hmagic, h₂ ▸ hstart.xid_eq, h₁ ▸ hstart.op_eq⟩
  rw [hstart.msgType_eq] at htype
  simp only [hparse, Option.some.injEq, exists_eq_left', hop, hxid, htype,
    lastType_eq_ack_iff, hreply, and_assoc]

/-! ## Agreement -/

/-- The readers agree on a buffer exactly if the last message type is ACK wherever one is, in a reply
with the transaction id. A later message type takes an ACK back for `parse` only. -/
theorem readers_agree_iff (buf : List UInt8) (xid : Xid) :
    ((parseAck buf xid).isSome = true ↔
      ∃ p, parse buf = some p ∧ p.op = opReply ∧ p.xid = xid ∧ p.msgType = ack) ↔
    (IsReplyTo buf xid → some ack ∈ messageTypes buf →
      (messageTypes buf).getLast? = some (some ack)) := by
  have hlast : (messageTypes buf).getLast? = some (some ack) → some ack ∈ messageTypes buf :=
    List.mem_of_getLast?
  rw [parseAck_isSome_iff, parse_ack_iff]
  tauto

/-- An ACK that says NAK in the end. -/
def ackThenNak : List UInt8 :=
  [opReply] ++ List.replicate 235 0 ++ magic ++
    [optMsgtype, 1, ack, optMsgtype, 1, nak, optEnd]

theorem ackThenNak_read_differently :
    (parse ackThenNak).map (fun p => (p.op, p.xid, p.msgType)) =
        some (opReply, #v[0, 0, 0, 0], nak) ∧
      (parseAck ackThenNak #v[0, 0, 0, 0]).isSome = true := by
  decide +kernel

end Lwrt.Dhcp
