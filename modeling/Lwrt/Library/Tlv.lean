import Mathlib.Data.List.Basic
import Mathlib.Data.List.Infix

/-! Sequences of code, length and value, with pads between them and a code that ends them. -/

namespace Lwrt.Library.Tlv

/-- The codes that stand alone. -/
structure Codes where
  pad : UInt8
  stop : UInt8
  ne : pad ≠ stop

/-- A value under a code of its own. Its length fits the length byte. -/
structure Field (c : Codes) where
  code : UInt8
  value : List UInt8
  ne_stop : code ≠ c.stop
  ne_pad : code ≠ c.pad
  length_lt : value.length < 256

inductive Item (c : Codes) where
  | pad
  | field (f : Field c)

variable {c : Codes}

def Item.bytes : Item c → List UInt8
  | .pad => [c.pad]
  | .field f => f.code :: UInt8.ofNat f.value.length :: f.value

def Item.field? : Item c → Option (UInt8 × List UInt8)
  | .pad => none
  | .field f => some (f.code, f.value)

def encode (items : List (Item c)) : List UInt8 :=
  items.flatMap Item.bytes

def fields (items : List (Item c)) : List (UInt8 × List UInt8) :=
  items.filterMap Item.field?

/-! ## Reading -/

/-- The fields up to the stop code or the end. A value that reaches beyond the end is taken as far
as it is there. -/
def read (c : Codes) : List UInt8 → List (UInt8 × List UInt8)
  | [] => []
  | code :: rest =>
      if code = c.stop then []
      else if code = c.pad then read c rest
      else match rest with
        | [] => []
        | len :: rest => (code, rest.take len.toNat) :: read c (rest.drop len.toNat)
termination_by bs => bs.length
decreasing_by
  · simp
  · simp only [List.length_drop, List.length_cons]
    omega

theorem read_nil : read c [] = [] := by
  rw [read]

theorem read_stop (bs : List UInt8) : read c (c.stop :: bs) = [] := by
  rw [read.eq_def]
  exact if_pos rfl

theorem read_pad (bs : List UInt8) : read c (c.pad :: bs) = read c bs := by
  rw [read.eq_def]
  dsimp only
  rw [if_neg c.ne, if_pos rfl]

theorem read_bare (code : UInt8) : read c [code] = [] := by
  rw [read.eq_def]
  dsimp only
  split
  · rfl
  · split
    · exact read_nil
    · rfl

theorem read_field {code : UInt8} (hstop : code ≠ c.stop) (hpad : code ≠ c.pad) (len : UInt8)
    (bs : List UInt8) :
    read c (code :: len :: bs) = (code, bs.take len.toNat) :: read c (bs.drop len.toNat) := by
  rw [read.eq_def]
  dsimp only
  rw [if_neg hstop, if_neg hpad]

/-- The cases of `read`. -/
theorem read_induction {motive : List UInt8 → Prop} (nil : motive [])
    (stop : ∀ bs, motive (c.stop :: bs)) (pad : ∀ bs, motive bs → motive (c.pad :: bs))
    (bare : ∀ code, motive [code])
    (field : ∀ code len bs, code ≠ c.stop → code ≠ c.pad → motive (bs.drop len.toNat) →
      motive (code :: len :: bs)) (bs : List UInt8) : motive bs := by
  induction bs using read.induct (c := c) with
  | case1 => exact nil
  | case2 bs => exact stop bs
  | case3 bs _ ih => exact pad bs ih
  | case4 code => exact bare code
  | case5 code hstop hpad len bs ih => exact field code len bs hstop hpad ih

/-- What was encoded is read, up to the stop code and whatever follows it. -/
theorem read_encode (items : List (Item c)) (trailing : List UInt8) :
    read c (encode items ++ c.stop :: trailing) = fields items := by
  induction items with
  | nil => exact read_stop trailing
  | cons item items ih =>
      cases item with
      | pad =>
          rw [show encode (.pad :: items) = c.pad :: encode items from rfl, List.cons_append,
            read_pad, ih]
          rfl
      | field f =>
          have hlen : (UInt8.ofNat f.value.length).toNat = f.value.length :=
            UInt8.toNat_ofNat_of_lt' f.length_lt
          rw [show encode (.field f :: items) =
              f.code :: UInt8.ofNat f.value.length :: (f.value ++ encode items) from rfl,
            List.cons_append, List.cons_append, List.append_assoc,
            read_field f.ne_stop f.ne_pad, hlen, List.take_left, List.drop_left, ih]
          rfl

/-! ## Truncation -/

/-- Every field that is read is there with the whole of its value. -/
def Complete (c : Codes) (bs : List UInt8) : Prop :=
  ∃ (items : List (Item c)) (rest : List UInt8), bs = encode items ++ rest ∧
    read c bs = fields items

/-- The first `m` bytes end inside the value of a field. -/
inductive CutsValue (c : Codes) : List UInt8 → ℕ → Prop where
  | pad {bs : List UInt8} {m : ℕ} (h : CutsValue c bs m) : CutsValue c (c.pad :: bs) (m + 1)
  | here {code len : UInt8} {bs : List UInt8} {m : ℕ} (hstop : code ≠ c.stop)
      (hpad : code ≠ c.pad) (hm : m < len.toNat) : CutsValue c (code :: len :: bs) (m + 2)
  | later {code len : UInt8} {bs : List UInt8} {m : ℕ} (hstop : code ≠ c.stop)
      (hpad : code ≠ c.pad) (h : CutsValue c (bs.drop len.toNat) m) :
      CutsValue c (code :: len :: bs) (len.toNat + m + 2)

/-- Items before bytes that are complete. -/
theorem Complete.cons {bs : List UInt8} (h : Complete c bs) (item : Item c)
    (hread : read c (item.bytes ++ bs) = item.field?.toList ++ read c bs) :
    Complete c (item.bytes ++ bs) := by
  obtain ⟨items, rest, heq, hfields⟩ := h
  refine ⟨item :: items, rest, ?_, ?_⟩
  · rw [heq, encode, encode, List.flatMap_cons, List.append_assoc]
  · rw [hread, hfields, fields, fields, List.filterMap_cons]
    cases item <;> rfl

theorem complete_of_read_eq_nil {bs : List UInt8} (h : read c bs = []) : Complete c bs :=
  ⟨[], bs, rfl, h⟩

/-- A field whose value is followed by the bytes that are left. -/
theorem take_field (code len : UInt8) (bs : List UInt8) (k : ℕ) :
    (code :: len :: bs).take (len.toNat + k + 2) =
      code :: len :: (bs.take len.toNat ++ (bs.drop len.toNat).take k) := by
  rw [List.take_succ_cons, List.take_succ_cons, List.take_add]

/-- A value that is there as a whole. -/
def Field.ofBytes {code len : UInt8} {bs : List UInt8} (hstop : code ≠ c.stop) (hpad : code ≠ c.pad)
    (h : len.toNat ≤ bs.length) : Field c where
  code := code
  value := bs.take len.toNat
  ne_stop := hstop
  ne_pad := hpad
  length_lt := by
    rw [List.length_take, Nat.min_eq_left h]
    exact len.toNat_lt

theorem Field.bytes_ofBytes {code len : UInt8} {bs : List UInt8} (hstop : code ≠ c.stop)
    (hpad : code ≠ c.pad) (h : len.toNat ≤ bs.length) :
    Item.bytes (.field (ofBytes hstop hpad h)) = code :: len :: bs.take len.toNat := by
  rw [Item.bytes, ofBytes, List.length_take, Nat.min_eq_left h, UInt8.ofNat_toNat]

theorem read_take_field {code len : UInt8} {bs : List UInt8} (hstop : code ≠ c.stop)
    (hpad : code ≠ c.pad) (h : len.toNat ≤ bs.length) (k : ℕ) :
    read c ((code :: len :: bs).take (len.toNat + k + 2)) =
      (code, bs.take len.toNat) :: read c ((bs.drop len.toNat).take k) := by
  have hlen : (bs.take len.toNat).length = len.toNat := by
    rw [List.length_take, Nat.min_eq_left h]
  rw [take_field, read_field hstop hpad, List.take_left' hlen, List.drop_left' hlen]

/-- Bytes that are cut off between the fields are read up to there. -/
theorem complete_take {bs : List UInt8} {m : ℕ} (hm : m ≤ bs.length) (h : ¬ CutsValue c bs m) :
    Complete c (bs.take m) ∧ read c (bs.take m) <+: read c bs := by
  have hempty {bs : List UInt8} {m : ℕ} (hread : read c (bs.take m) = []) :
      Complete c (bs.take m) ∧ read c (bs.take m) <+: read c bs :=
    ⟨complete_of_read_eq_nil hread, hread ▸ List.nil_prefix⟩
  induction bs using read_induction (c := c) generalizing m with
  | nil => exact hempty (by rw [List.take_nil, read_nil])
  | stop bs =>
      cases m with
      | zero => exact hempty read_nil
      | succ m => exact hempty (read_stop _)
  | pad bs ih =>
      cases m with
      | zero => exact hempty read_nil
      | succ m =>
          obtain ⟨hcomplete, hprefix⟩ := ih (Nat.le_of_succ_le_succ hm) fun hcut => h (.pad hcut)
          rw [List.take_succ_cons, read_pad, read_pad]
          exact ⟨hcomplete.cons .pad (read_pad _), hprefix⟩
  | bare code =>
      cases m with
      | zero => exact hempty read_nil
      | succ m => exact hempty (by rw [List.take_succ_cons, List.take_nil, read_bare])
  | field code len bs hstop hpad ih =>
      match m with
      | 0 => exact hempty read_nil
      | 1 => exact hempty (read_bare code)
      | m + 2 =>
          have hle : len.toNat ≤ m := Nat.le_of_not_lt fun hlt => h (.here hstop hpad hlt)
          obtain ⟨k, rfl⟩ := Nat.exists_eq_add_of_le hle
          simp only [List.length_cons] at hm
          have hvalue : len.toNat ≤ bs.length := by omega
          have hrest : k ≤ (bs.drop len.toNat).length := by
            rw [List.length_drop]
            omega
          obtain ⟨hcomplete, hprefix⟩ := ih hrest fun hcut => h (.later hstop hpad hcut)
          constructor
          · have hcons := hcomplete.cons (.field (.ofBytes hstop hpad hvalue)) (by
              rw [Field.bytes_ofBytes, List.cons_append, List.cons_append, ← take_field,
                read_take_field hstop hpad hvalue]
              rfl)
            rw [Field.bytes_ofBytes, List.cons_append, List.cons_append] at hcons
            rw [take_field]
            exact hcons
          · rw [read_take_field hstop hpad hvalue, read_field hstop hpad,
              List.cons_prefix_cons]
            exact ⟨rfl, hprefix⟩

theorem Complete.of_pad {bs : List UInt8} (h : Complete c (c.pad :: bs)) : Complete c bs := by
  obtain ⟨items, rest, heq, hread⟩ := h
  rw [read_pad] at hread
  cases items with
  | nil => exact complete_of_read_eq_nil hread
  | cons item items =>
      cases item with
      | pad => exact ⟨items, rest, (List.cons.inj heq).2, hread⟩
      | field f => exact absurd (List.cons.inj heq).1.symm f.ne_pad

theorem Complete.of_field {code len : UInt8} {bs : List UInt8} (hstop : code ≠ c.stop)
    (hpad : code ≠ c.pad) (h : Complete c (code :: len :: bs)) :
    len.toNat ≤ bs.length ∧ Complete c (bs.drop len.toNat) := by
  obtain ⟨items, rest, heq, hread⟩ := h
  rw [read_field hstop hpad] at hread
  cases items with
  | nil => cases hread
  | cons item items =>
      cases item with
      | pad => exact absurd (List.cons.inj heq).1 hpad
      | field f =>
          have hbytes : code :: len :: bs =
              f.code :: UInt8.ofNat f.value.length :: (f.value ++ (encode items ++ rest)) := by
            rw [heq, ← List.append_assoc]
            rfl
          obtain ⟨-, htail⟩ := List.cons.inj hbytes
          obtain ⟨hlen, hbs⟩ := List.cons.inj htail
          have hcount : len.toNat = f.value.length := by
            rw [hlen]
            exact UInt8.toNat_ofNat_of_lt' f.length_lt
          have hdrop : bs.drop len.toNat = encode items ++ rest := by
            rw [hbs, hcount, List.drop_left]
          refine ⟨?_, items, rest, hdrop, (List.cons.inj hread).2⟩
          rw [hbs, hcount, List.length_append]
          exact Nat.le_add_right _ _

/-- Bytes that are cut off inside a value are read with a part of it. -/
theorem not_complete_take {bs : List UInt8} {m : ℕ} (h : CutsValue c bs m) :
    ¬ Complete c (bs.take m) := by
  induction h with
  | pad _ ih => exact fun hcomplete => ih hcomplete.of_pad
  | here hstop hpad hm =>
      intro hcomplete
      have hle := (hcomplete.of_field hstop hpad).1
      rw [List.length_take] at hle
      omega
  | @later code len bs m hstop hpad hcut ih =>
      intro hcomplete
      rw [take_field] at hcomplete
      have hle : len.toNat ≤ bs.length := by
        by_contra hgt
        rw [List.drop_of_length_le (Nat.le_of_not_le hgt)] at hcut
        cases hcut
      have hrest := (hcomplete.of_field hstop hpad).2
      rw [List.drop_left' (by rw [List.length_take, Nat.min_eq_left hle])] at hrest
      exact ih hrest

/-- Truncated bytes are read as the first of the whole fields exactly if no value is cut. -/
theorem complete_take_iff {bs : List UInt8} {m : ℕ} (hm : m ≤ bs.length) :
    Complete c (bs.take m) ∧ read c (bs.take m) <+: read c bs ↔ ¬ CutsValue c bs m :=
  ⟨fun h hcut => not_complete_take hcut h.1, complete_take hm⟩

end Lwrt.Library.Tlv
