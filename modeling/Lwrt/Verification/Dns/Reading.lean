import Lwrt.Verification.Dns.Names

/-! # Reading a name

The loop of `read_name` ends on every buffer: with the name, or because the name does not. -/

namespace Lwrt.Dns

open Library Checked

/-! ## Runs of the loop -/

/-- A run of the loop of `read_name` to its end, one rule for each way through a turn. -/
inductive Reads (buf : List UInt8) : ℕ → List Text → Option (Text × ℕ) → Prop where
  | past {pos : ℕ} {parts : List Text} (h : buf.length ≤ pos) : Reads buf pos parts none
  | root {pos : ℕ} {parts : List Text} (h : pos < buf.length) (hzero : buf[pos].toNat = 0) :
      Reads buf pos parts (some (['.'].intercalate parts, pos + 1))
  | pointer {pos : ℕ} {parts : List Text} (h : pos < buf.length) (hlen : 0xc0 ≤ buf[pos].toNat) :
      Reads buf pos parts none
  | cut {pos : ℕ} {parts : List Text} (h : pos < buf.length) (hzero : buf[pos].toNat ≠ 0)
      (hlen : buf[pos].toNat < 0xc0) (hend : buf.length < pos + 1 + buf[pos].toNat) :
      Reads buf pos parts none
  | label {pos : ℕ} {parts : List Text} {r : Option (Text × ℕ)} (h : pos < buf.length)
      (hzero : buf[pos].toNat ≠ 0) (hlen : buf[pos].toNat < 0xc0)
      (hend : pos + 1 + buf[pos].toNat ≤ buf.length)
      (rest : Reads buf (pos + 1 + buf[pos].toNat) (parts ++ [Utf8.fromUtf8Lossy
          ((buf.take (pos + 1 + buf[pos].toNat)).drop (pos + 1))]) r) :
      Reads buf pos parts r

theorem exists_reads (buf : List UInt8) {fuel pos : ℕ} (h : buf.length < pos + fuel)
    (parts : List Text) : ∃ r, Reads buf pos parts r ∧ nameFrom buf fuel pos parts = .ok r := by
  induction fuel generalizing pos parts with
  | zero => exact ⟨none, .past (Nat.le_of_lt h), rfl⟩
  | succ fuel ih =>
      by_cases hpos : pos < buf.length
      case neg =>
        have hle := Nat.le_of_not_lt hpos
        exact ⟨none, .past hle, nameFrom_of_le hle _ _⟩
      rw [nameFrom_succ hpos]
      by_cases hzero : buf[pos].toNat = 0
      case pos => exact ⟨_, .root hpos hzero, if_pos hzero⟩
      rw [if_neg hzero]
      by_cases hlen : 0xc0 ≤ buf[pos].toNat
      case pos => exact ⟨none, .pointer hpos hlen, if_pos (Or.inl hlen)⟩
      by_cases hend : buf.length < pos + 1 + buf[pos].toNat
      case pos => exact ⟨none, .cut hpos hzero (Nat.lt_of_not_le hlen) hend, if_pos (Or.inr hend)⟩
      obtain ⟨r, hr, heq⟩ := @ih (pos + 1 + buf[pos].toNat) (by omega) _
      exact ⟨r, .label hpos hzero (Nat.lt_of_not_le hlen) (Nat.le_of_not_lt hend) hr,
        (if_neg (not_or.mpr ⟨hlen, hend⟩)).trans heq⟩

/-! ## Names that do not end -/

/-- The name at a position does not end: the buffer does, or there is a pointer. -/
def Unfinished (buf : List UInt8) (start : ℕ) : Prop :=
  ∃ (labels : List Label) (rest : List UInt8),
    buf.drop start = labels.flatMap Label.wire ++ rest ∧
      (rest = [] ∨ ∃ len tail, rest = len :: tail ∧
        (0xc0 ≤ len.toNat ∨ (len ≠ 0 ∧ tail.length < len.toNat)))

/-- The loop only gives up on a name that does not end. -/
theorem Reads.unfinished {buf : List UInt8} {pos : ℕ} {parts : List Text}
    (h : Reads buf pos parts none) : Unfinished buf pos := by
  generalize hr : (none : Option (Text × ℕ)) = r at h
  induction h with
  | past h => exact ⟨[], [], List.drop_eq_nil_of_le h, Or.inl rfl⟩
  | root h hzero => cases hr
  | pointer h hlen =>
      exact ⟨[], _, List.drop_eq_getElem_cons h, Or.inr ⟨_, _, rfl, Or.inl hlen⟩⟩
  | @cut pos _ h hzero _ hend =>
      refine ⟨[], _, List.drop_eq_getElem_cons h, Or.inr ⟨_, _, rfl, Or.inr ⟨?_, ?_⟩⟩⟩
      · exact fun heq => hzero (congrArg UInt8.toNat heq)
      · rw [List.length_drop]
        omega
  | label h hzero hlen hend _ ih =>
      obtain ⟨l, -, -, hdrop⟩ := exists_label h hzero hlen hend
      obtain ⟨labels, rest, heq, hrest⟩ := ih hr
      refine ⟨l :: labels, rest, ?_, hrest⟩
      rw [hdrop, heq, List.flatMap_cons, List.append_assoc]

theorem Unfinished.nameFrom {buf : List UInt8} {start fuel : ℕ} (h : Unfinished buf start)
    (hfuel : buf.length < fuel) (parts : List Text) :
    nameFrom buf fuel start parts = .ok none := by
  by_cases hstart : start < buf.length
  case neg => exact nameFrom_of_le (Nat.le_of_not_lt hstart) _ _
  obtain ⟨labels, rest, hdrop, hrest⟩ := h
  have hbuf : buf = buf.take start ++ (labels.flatMap Label.wire ++ rest) := by
    rw [← hdrop, List.take_append_drop]
  have hpre : (buf.take start).length = start := by
    rw [List.length_take]
    omega
  generalize buf.take start = pre at hbuf hpre
  subst hbuf hpre
  have hlabels := length_le_flatMap labels
  simp only [List.length_append] at hfuel
  obtain ⟨fuel, rfl⟩ := Nat.exists_eq_add_of_le (show labels.length + 1 ≤ fuel by omega)
  rw [show labels.length + 1 + fuel = fuel + 1 + labels.length by omega, nameFrom_labels]
  rcases hrest with rfl | ⟨len, tail, rfl, hlen⟩
  · exact nameFrom_of_le (by simp) _ _
  · rw [← List.append_assoc pre, ← List.length_append]
    generalize pre ++ labels.flatMap Label.wire = before
    have hlt : before.length < (before ++ len :: tail).length := by simp
    have hbyte : (before ++ len :: tail)[before.length] = len := by simp
    rw [nameFrom_succ hlt, hbyte]
    rcases hlen with hpointer | ⟨hzero, hcut⟩
    · rw [if_neg (by omega), if_pos (Or.inl hpointer)]
    · have hlen : len.toNat ≠ 0 := fun heq => hzero (UInt8.toNat_inj.mp heq)
      rw [if_neg hlen, if_pos (Or.inr ?_)]
      simp only [List.length_append, List.length_cons]
      omega

/-! ## Names that do -/

/-- A label of 1 to 63 bytes of UTF-8. -/
structure TextLabel where
  text : Text
  ne_nil : text ≠ []
  length_le : (Utf8.encode text).length ≤ 63

def TextLabel.label (l : TextLabel) : Label where
  bytes := Utf8.encode l.text
  ne_nil := by
    intro hnil
    have htext := Utf8.fromUtf8Lossy_encode l.text
    rw [hnil] at htext
    exact l.ne_nil htext.symm
  length_lt := Nat.lt_of_le_of_lt l.length_le (by decide)

/-- A name that ends is read as its labels and the position after it, wherever it stands. The loop
ends without an access out of bounds on every buffer; it returns nothing exactly if the name does
not end, and otherwise a later position in the buffer. -/
theorem read_name_exact :
    (∀ (labels : List TextLabel) (pre post : List UInt8),
      readName (pre ++ (wire (labels.map TextLabel.label) ++ post)) pre.length =
        .ok (some (['.'].intercalate (labels.map TextLabel.text),
          pre.length + (wire (labels.map TextLabel.label)).length))) ∧
    ∀ buf start,
      (∃ r, Reads buf start [] r ∧ readName buf start = .ok r) ∧
      (readName buf start = .ok none ↔ Unfinished buf start) ∧
      ∀ name after, readName buf start = .ok (some (name, after)) →
        start < after ∧ after ≤ buf.length := by
  constructor
  · intro labels pre post
    have hfuel := length_le_wire (labels.map TextLabel.label)
    have htext : (labels.map TextLabel.label).map Label.text = labels.map TextLabel.text := by
      rw [List.map_map]
      exact List.map_congr_left fun l _ => Utf8.fromUtf8Lossy_encode l.text
    rw [readName, nameFrom_wire _ _ _ _ (by simp only [List.length_append]; omega),
      List.nil_append, htext]
  · intro buf start
    obtain ⟨r, hr, heq⟩ := exists_reads buf (show buf.length < start + (buf.length + 1) by omega) []
    refine ⟨⟨r, hr, heq⟩, ⟨?_, fun h => h.nameFrom (Nat.lt_succ_self _) []⟩, ?_⟩
    · intro hnone
      rw [readName, heq] at hnone
      rw [Except.ok.inj hnone] at hr
      exact hr.unfinished
    · intro name after hsome
      rcases nameFrom_cases buf (buf.length + 1) start [] with hnone | ⟨_, _, hread, hlt, hle⟩
      · rw [readName, hnone] at hsome
        cases hsome
      · rw [readName, hread] at hsome
        cases hsome
        exact ⟨hlt, hle⟩

end Lwrt.Dns
