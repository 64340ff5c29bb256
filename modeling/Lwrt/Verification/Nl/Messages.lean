import Lwrt.Verification.Nl.RoundTrip
import Mathlib.Algebra.Order.BigOperators.Group.List

/-! # Messages read back

A buffer of messages is split at its length fields, and each part gives back the message that
was built. -/

namespace Lwrt.Nl

open Library

/-! ## Building -/

/-- A message: its header fields, the fixed header of its body and its attributes. -/
structure Msg where
  msgType : UInt16
  flags : UInt16
  seq : UInt32
  header : List UInt8
  attrs : List Attr

/-- The calls for a message. -/
def putMsg (b : NlBuf) (m : Msg) : NlBuf :=
  let opened := b.beginMessage m.msgType m.flags m.seq
  (putAll (opened.1.bytes m.header) m.attrs).endMessage opened.2

/-- The body of a message after the 16 bytes of its header. -/
def Msg.body (m : Msg) : List UInt8 :=
  m.header ++ encodeAll m.attrs

/-- The header after its length field. -/
def Msg.fields (m : Msg) : List UInt8 :=
  toLe16 m.msgType ++ toLe16 m.flags ++ toLe32 m.seq ++ toLe32 0

def Msg.size (m : Msg) : ℕ :=
  16 + m.body.length

def Msg.encode (m : Msg) : List UInt8 :=
  toLe32 (UInt32.ofNat m.size) ++ (m.fields ++ m.body)

theorem length_fields (m : Msg) : m.fields.length = 12 := by
  simp [Msg.fields]

theorem length_encode (m : Msg) : m.encode.length = m.size := by
  simp only [Msg.encode, List.length_append, length_toLe32, length_fields, Msg.size]
  omega

/-- The attributes start at a multiple of four. -/
def Msg.Aligned (m : Msg) : Prop :=
  m.header.length % 4 = 0

structure Msg.Fits (m : Msg) : Prop where
  header : m.header.length % 4 = 0
  attrs : FitAll m.attrs

theorem Msg.Aligned.size_mod {m : Msg} (h : m.Aligned) : m.size % 4 = 0 := by
  have hattrs := length_encodeAll_mod m.attrs
  have hheader : m.header.length % 4 = 0 := h
  rw [Msg.size, Msg.body, List.length_append]
  omega

/-- A message is appended whole. -/
theorem putMsg_eq {b : NlBuf} (hb : b.length % 4 = 0) {m : Msg} (h : m.Aligned) :
    putMsg b m = b ++ m.encode := by
  have hopen : ((b.beginMessage m.msgType m.flags m.seq).1.bytes m.header).length % 4 = 0 := by
    have hheader : m.header.length % 4 = 0 := h
    simp only [NlBuf.beginMessage, NlBuf.bytes, List.length_append, List.length_cons,
      List.length_nil, length_toLe16, length_toLe32]
    omega
  have hbuf : (b.beginMessage m.msgType m.flags m.seq).1.bytes m.header ++ encodeAll m.attrs =
      b ++ [0, 0, 0, 0] ++ (m.fields ++ m.body) := by
    simp only [NlBuf.beginMessage, NlBuf.bytes, Msg.fields, Msg.body, List.append_assoc]
  have hlen : (b ++ [0, 0, 0, 0] ++ (m.fields ++ m.body)).length - b.length = m.size := by
    simp only [List.length_append, List.length_cons, List.length_nil, length_fields, Msg.size]
    omega
  have hpadded : (b ++ m.encode).length % 4 = 0 := by
    have hsize := h.size_mod
    rw [List.length_append, length_encode]
    omega
  rw [putMsg, putAll_eq hopen, hbuf, NlBuf.endMessage, NlBuf.beginMessage, hlen,
    copyAt_append _ (by rfl), List.append_assoc, ← Msg.encode, pad_eq_self hpadded]

def putMsgs (msgs : List Msg) : NlBuf :=
  msgs.foldl putMsg []

theorem foldl_putMsg_eq {msgs : List Msg} (h : ∀ m ∈ msgs, m.Aligned) {b : NlBuf}
    (hb : b.length % 4 = 0) : msgs.foldl putMsg b = b ++ msgs.flatMap Msg.encode := by
  induction msgs generalizing b with
  | nil => simp
  | cons m msgs ih =>
      have hm := h m (by simp)
      have hnext : (b ++ m.encode).length % 4 = 0 := by
        have := hm.size_mod
        rw [List.length_append, length_encode]
        omega
      rw [List.foldl_cons, putMsg_eq hb hm, ih (fun x hx => h x (by simp [hx])) hnext,
        List.flatMap_cons, List.append_assoc]

theorem putMsgs_eq {msgs : List Msg} (h : ∀ m ∈ msgs, m.Aligned) :
    putMsgs msgs = msgs.flatMap Msg.encode :=
  foldl_putMsg_eq h rfl

/-- The largest length of a `Vec` on the 32-bit target. -/
def isizeMax : ℕ :=
  2 ^ 31 - 1

/-- The calls for a batch. A `Vec` that would outgrow the address space panics instead; the
buffer only grows, so its final length decides. -/
def build (msgs : List Msg) : Option NlBuf :=
  if (putMsgs msgs).length ≤ isizeMax then some (putMsgs msgs) else none

/-! ## Splitting -/

theorem length_field {m : Msg} (h : m.size < 2 ^ 32) {buf a rest : List UInt8} {pos : ℕ}
    (hbuf : buf = a ++ (m.encode ++ rest)) (hpos : pos = a.length) :
    ofLeBytes (extract buf pos 4) = m.size := by
  have hsplit : buf = a ++ (toLe32 (UInt32.ofNat m.size) ++ (m.fields ++ m.body ++ rest)) := by
    rw [hbuf, Msg.encode, List.append_assoc]
  have hfield : extract buf pos 4 = toLe32 (UInt32.ofNat m.size) :=
    extract_middle hsplit hpos rfl
  rw [hfield, ofLeBytes_toLe32]
  exact UInt32.toNat_ofNat_of_lt h

/-- One turn of the loop. -/
theorem messagesFrom_encode {m : Msg} (hm : m.Aligned) (h : m.size < 2 ^ 32)
    {buf a rest : List UInt8} {pos : ℕ} (hbuf : buf = a ++ (m.encode ++ rest))
    (hpos : pos = a.length) (fuel : ℕ) :
    messagesFrom buf (fuel + 1) pos =
      (messagesFrom buf fuel (pos + m.encode.length)).map (m.encode :: ·) := by
  have hfield := length_field h hbuf hpos
  have hpart : extract buf pos m.size = m.encode :=
    extract_middle hbuf hpos (length_encode m).symm
  have hlen : buf.length = pos + m.size + rest.length := by
    rw [hbuf, hpos, List.length_append, List.length_append, length_encode, Nat.add_assoc]
  have hmin : 16 ≤ m.size := Nat.le_add_right 16 m.body.length
  rw [messagesFrom, if_pos (by omega)]
  simp only [hfield, hpart, align4_eq_self hm.size_mod, length_encode]
  rw [if_pos ⟨hmin, by omega⟩]

theorem messagesFrom_flatMap {msgs : List Msg} (haligned : ∀ m ∈ msgs, m.Aligned)
    (hsize : ∀ m ∈ msgs, m.size < 2 ^ 32) {buf a : List UInt8} {pos fuel : ℕ}
    (hbuf : buf = a ++ msgs.flatMap Msg.encode) (hpos : pos = a.length)
    (hfuel : msgs.length < fuel) :
    messagesFrom buf fuel pos = some (msgs.map Msg.encode) := by
  induction msgs generalizing a pos fuel with
  | nil =>
      obtain ⟨fuel, rfl⟩ := Nat.exists_eq_succ_of_ne_zero (Nat.ne_of_gt hfuel)
      have hend : pos = buf.length := by simp [hbuf, hpos]
      rw [messagesFrom, if_neg (by omega), if_pos hend, List.map_nil]
  | cons m msgs ih =>
      obtain ⟨fuel, rfl⟩ := Nat.exists_eq_succ_of_ne_zero (Nat.ne_zero_of_lt hfuel)
      rw [List.flatMap_cons] at hbuf
      rw [messagesFrom_encode (haligned m (by simp)) (hsize m (by simp)) hbuf hpos,
        ih (fun x hx => haligned x (by simp [hx])) (fun x hx => hsize x (by simp [hx]))
          (a := a ++ m.encode) (by rw [hbuf, List.append_assoc])
          (by rw [hpos, List.length_append]) (by simpa using hfuel),
        Option.map_some, List.map_cons]

theorem length_le_flatMap (msgs : List Msg) :
    msgs.length ≤ (msgs.flatMap Msg.encode).length := by
  apply length_le_length_flatMap
  intro m _
  rw [← List.length_pos_iff, length_encode, Msg.size]
  omega

/-- The length fields tile the buffer. -/
theorem messages_flatMap {msgs : List Msg} (haligned : ∀ m ∈ msgs, m.Aligned)
    (hsize : ∀ m ∈ msgs, m.size < 2 ^ 32) :
    messages (msgs.flatMap Msg.encode) = some (msgs.map Msg.encode) :=
  messagesFrom_flatMap haligned hsize (a := []) rfl rfl (Nat.lt_succ_of_le (length_le_flatMap msgs))

/-! ## Reading -/

/-- What a reader knows of a message: the length of its fixed header and the shapes of its
attributes. -/
structure Layout where
  header : ℕ
  attrs : List Shape

def Msg.layout (m : Msg) : Layout :=
  ⟨m.header.length, shapes m.attrs⟩

def readMsg (l : Layout) (part : List UInt8) : Option Msg :=
  (walk l.attrs (part.drop (16 + l.header))).map fun attrs =>
    { msgType := UInt16.ofNat (ofLeBytes (extract part 4 2))
      flags := UInt16.ofNat (ofLeBytes (extract part 6 2))
      seq := UInt32.ofNat (ofLeBytes (extract part 8 4))
      header := extract part 16 l.header
      attrs := attrs }

def readMsgs : List Layout → List (List UInt8) → Option (List Msg)
  | [], [] => some []
  | l :: ls, part :: parts =>
      (readMsg l part).bind fun m => (readMsgs ls parts).map (m :: ·)
  | _, _ => none

theorem extract_msgType (m : Msg) : extract m.encode 4 2 = toLe16 m.msgType := by
  refine extract_middle (a := toLe32 (UInt32.ofNat m.size))
    (c := toLe16 m.flags ++ (toLe32 m.seq ++ (toLe32 0 ++ m.body))) ?_ rfl rfl
  simp only [Msg.encode, Msg.fields, List.append_assoc]

theorem extract_flags (m : Msg) : extract m.encode 6 2 = toLe16 m.flags := by
  refine extract_middle (a := toLe32 (UInt32.ofNat m.size) ++ toLe16 m.msgType)
    (c := toLe32 m.seq ++ (toLe32 0 ++ m.body)) ?_ rfl rfl
  simp only [Msg.encode, Msg.fields, List.append_assoc]

theorem extract_seq (m : Msg) : extract m.encode 8 4 = toLe32 m.seq := by
  refine extract_middle (a := toLe32 (UInt32.ofNat m.size) ++ toLe16 m.msgType ++ toLe16 m.flags)
    (c := toLe32 0 ++ m.body) ?_ rfl rfl
  simp only [Msg.encode, Msg.fields, List.append_assoc]

theorem extract_header (m : Msg) : extract m.encode 16 m.header.length = m.header := by
  refine extract_middle (a := toLe32 (UInt32.ofNat m.size) ++ m.fields)
    (c := encodeAll m.attrs) ?_ ?_ rfl
  · simp only [Msg.encode, Msg.body, List.append_assoc]
  · rw [List.length_append, length_toLe32, length_fields]

theorem drop_header (m : Msg) : m.encode.drop (16 + m.header.length) = encodeAll m.attrs := by
  have hsplit : m.encode =
      (toLe32 (UInt32.ofNat m.size) ++ m.fields ++ m.header) ++ encodeAll m.attrs := by
    simp only [Msg.encode, Msg.body, List.append_assoc]
  have hlen : (toLe32 (UInt32.ofNat m.size) ++ m.fields ++ m.header).length =
      16 + m.header.length := by
    rw [List.length_append, List.length_append, length_toLe32, length_fields]
  rw [hsplit, ← hlen, List.drop_left]

theorem readMsg_encode {m : Msg} (h : FitAll m.attrs) : readMsg m.layout m.encode = some m := by
  simp only [readMsg, Msg.layout, drop_header, walk_encodeAll h, Option.map_some, extract_msgType,
    extract_flags, extract_seq, extract_header, ofLeBytes_toLe16, ofLeBytes_toLe32,
    UInt16.ofNat_toNat, UInt32.ofNat_toNat]

theorem readMsgs_encode {msgs : List Msg} (h : ∀ m ∈ msgs, m.Fits) :
    readMsgs (msgs.map Msg.layout) (msgs.map Msg.encode) = some msgs := by
  induction msgs with
  | nil => rfl
  | cons m msgs ih =>
      rw [List.map_cons, List.map_cons, readMsgs, readMsg_encode (h m (by simp)).attrs,
        Option.bind_some, ih fun x hx => h x (by simp [hx]), Option.map_some]

/-! ## What is built is read back -/

theorem length_flatMap_encode (msgs : List Msg) :
    (msgs.flatMap Msg.encode).length = (msgs.map Msg.size).sum := by
  induction msgs with
  | nil => rfl
  | cons m msgs ih =>
      rw [List.flatMap_cons, List.length_append, length_encode, ih, List.map_cons, List.sum_cons]

theorem size_le_sum {msgs : List Msg} {m : Msg} (h : m ∈ msgs) :
    m.size ≤ (msgs.map Msg.size).sum :=
  List.single_le_sum (by simp) _ (List.mem_map_of_mem h)

/-- A batch of messages is built unless it is too long for the address space. Then its parts
tile the buffer at multiples of four, and hold the messages with all their attributes. -/
theorem build_reads_back {msgs : List Msg} (h : ∀ m ∈ msgs, m.Fits) :
    (build msgs = none → isizeMax < (msgs.map Msg.size).sum) ∧
    ∀ buf, build msgs = some buf →
      ∃ parts, messages buf = some parts ∧ parts.flatten = buf ∧
        (∀ part ∈ parts, part.length % 4 = 0 ∧ ofLeBytes (part.take 4) = part.length) ∧
        readMsgs (msgs.map Msg.layout) parts = some msgs := by
  have haligned : ∀ m ∈ msgs, m.Aligned := fun m hm => (h m hm).header
  have hlen : (putMsgs msgs).length = (msgs.map Msg.size).sum := by
    rw [putMsgs_eq haligned, length_flatMap_encode]
  constructor
  · intro hnone
    by_contra hle
    rw [build, if_pos (by omega)] at hnone
    exact Option.some_ne_none _ hnone
  · intro buf hbuf
    rw [build] at hbuf
    split at hbuf
    case isFalse => cases hbuf
    case isTrue hle =>
      obtain rfl := Option.some.inj hbuf
      have hsize : ∀ m ∈ msgs, m.size < 2 ^ 32 := by
        intro m hm
        have hsum := size_le_sum hm
        rw [isizeMax] at hle
        omega
      rw [putMsgs_eq haligned]
      refine ⟨msgs.map Msg.encode, messages_flatMap haligned hsize, ?_, ?_, readMsgs_encode h⟩
      · rw [List.flatMap_def]
      · intro part hpart
        obtain ⟨m, hm, rfl⟩ := List.mem_map.mp hpart
        have hwhole : m.encode = [] ++ (m.encode ++ []) := by
          rw [List.append_nil, List.nil_append]
        rw [length_encode]
        exact ⟨(haligned m hm).size_mod, length_field (hsize m hm) hwhole rfl⟩

/-- Two messages: a rule with its expressions nested two deep, and an empty one. -/
def sampleBatch : List Msg :=
  [⟨0xa06, 0x405, 1, [1, 0, 0, 0],
      [.str 2 [105, 110], .nested 4 [.nested 1 [.leaf 1 [0, 0, 0, 6], .raw 2 [7]]]]⟩,
    ⟨17, 1, 2, [0, 0, 0, 10], []⟩]

theorem sampleBatch_fits : ∀ m ∈ sampleBatch, m.Fits := by
  intro m hm
  simp only [sampleBatch, List.mem_cons, List.not_mem_nil, or_false] at hm
  rcases hm with rfl | rfl
  · refine ⟨by decide, ⟨by decide, by decide⟩, ⟨by decide, by decide +kernel, ?_⟩, trivial⟩
    exact ⟨⟨by decide, by decide +kernel, ⟨by decide, by decide⟩, ⟨by decide, by decide⟩, trivial⟩,
      trivial⟩
  · exact ⟨by decide, trivial⟩

theorem build_reads_back_sample :
    (∀ m ∈ sampleBatch, m.Fits) ∧
    ∃ buf parts, build sampleBatch = some buf ∧ messages buf = some parts ∧ parts.flatten = buf ∧
      readMsgs (sampleBatch.map Msg.layout) parts = some sampleBatch := by
  obtain ⟨-, hsome⟩ := build_reads_back sampleBatch_fits
  have hbuf : build sampleBatch = some (putMsgs sampleBatch) := by decide +kernel
  obtain ⟨parts, hparts, hflat, -, hread⟩ := hsome _ hbuf
  exact ⟨sampleBatch_fits, _, parts, hbuf, hparts, hflat, hread⟩

end Lwrt.Nl
