import Lwrt.Library.Text

/-! Lines of a byte stream. -/

namespace Lwrt.Library

open Utf8

/-- `BufRead::lines`, before the lines are decoded: a `\r` right before a `\n` belongs to the
line end. -/
def byteLines : List UInt8 → List (List UInt8)
  | [] => []
  | b :: bs =>
      if b = byte '\n' then [] :: byteLines bs
      else if b = byte '\r' ∧ bs.head? = some (byte '\n') then byteLines bs
      else match byteLines bs with
        | [] => [[b]]
        | l :: ls => (b :: l) :: ls

/-- The lines a loop over `BufRead::lines` sees when it stops at the first that is not UTF-8. -/
def readLines (stream : List UInt8) : List Text :=
  (((byteLines stream).map fromUtf8).takeWhile Option.isSome).filterMap id

/-- `BufRead::read_line`: the first line with its line end, if it is UTF-8. -/
def readLine (stream : List UInt8) : Option Text :=
  fromUtf8 (stream.takeWhile (· != byte '\n') ++ (stream.dropWhile (· != byte '\n')).take 1)

/-- The lines that `BufRead::read_line` reads call after call, before they are decoded. -/
def rawLines : List UInt8 → List (List UInt8)
  | [] => []
  | b :: bs =>
      if b = byte '\n' then [b] :: rawLines bs
      else match rawLines bs with
        | [] => [[b]]
        | l :: ls => (b :: l) :: ls

theorem flatten_rawLines (bs : List UInt8) : (rawLines bs).flatten = bs := by
  induction bs with
  | nil => rfl
  | cons b bs ih =>
      rw [rawLines]
      split
      · rw [List.flatten_cons, ih, List.singleton_append]
      · cases hlines : rawLines bs with
        | nil =>
            rw [hlines, List.flatten_nil] at ih
            rw [← ih]
            rfl
        | cons l ls =>
            rw [hlines, List.flatten_cons] at ih
            rw [← ih]
            rfl

theorem rawLines_append_newline {l : List UInt8} (h : byte '\n' ∉ l) (rest : List UInt8) :
    rawLines (l ++ byte '\n' :: rest) = (l ++ [byte '\n']) :: rawLines rest := by
  induction l with
  | nil => rw [List.nil_append, rawLines, if_pos rfl, List.nil_append]
  | cons b l ih =>
      obtain ⟨hb, hl⟩ := not_or.mp (mt List.mem_cons.mpr h)
      rw [List.cons_append, rawLines, if_neg (Ne.symm hb), ih hl]
      rfl

theorem rawLines_flatMap {ls : List (List UInt8)} (h : ∀ l ∈ ls, byte '\n' ∉ l)
    (rest : List UInt8) :
    rawLines (ls.flatMap (· ++ [byte '\n']) ++ rest) =
      ls.map (· ++ [byte '\n']) ++ rawLines rest := by
  induction ls with
  | nil => rfl
  | cons l ls ih =>
      obtain ⟨hl, hls⟩ := List.forall_mem_cons.mp h
      rw [List.flatMap_cons, List.append_assoc, List.append_assoc, List.singleton_append,
        rawLines_append_newline hl, ih hls, List.map_cons, List.cons_append]

/-- Bytes that end no line go in front of the first line. -/
theorem byteLines_append {pre : List UInt8} (hpre : ∀ b ∈ pre, b ≠ byte '\n' ∧ b ≠ byte '\r')
    {bs l : List UInt8} {ls : List (List UInt8)} (h : byteLines bs = l :: ls) :
    byteLines (pre ++ bs) = (pre ++ l) :: ls := by
  induction pre with
  | nil => exact h
  | cons b pre ih =>
      obtain ⟨hnl, hcr⟩ := hpre b (by simp)
      rw [List.cons_append, byteLines, if_neg hnl, if_neg (by simp [hcr]),
        ih fun c hc => hpre c (by simp [hc])]
      rfl

/-- A line of text, with its `\n`, at the start of a stream. -/
theorem byteLines_encode_newline {l : Text} (hnl : '\n' ∉ l) (hcr : '\r' ∉ l)
    (rest : List UInt8) :
    byteLines (encode (l ++ ['\n']) ++ rest) = encode l :: byteLines rest := by
  have hmem : ∀ b ∈ encode l, b ≠ byte '\n' ∧ b ≠ byte '\r' := by
    intro b hb
    constructor
    · rintro rfl
      exact hnl ((mem_encode_iff (by decide)).mp hb)
    · rintro rfl
      exact hcr ((mem_encode_iff (by decide)).mp hb)
  have hend : byteLines (byte '\n' :: rest) = [] :: byteLines rest := by
    rw [byteLines, if_pos rfl]
  have hsplit : encode (l ++ ['\n']) ++ rest = encode l ++ byte '\n' :: rest := by
    rw [encode_append, List.append_assoc]
    rfl
  rw [hsplit, byteLines_append hmem hend, List.append_nil]

/-- Lines of text without line ends of their own are read back from their bytes. -/
theorem readLines_encode (ls : List Text) (h : ∀ l ∈ ls, '\n' ∉ l ∧ '\r' ∉ l) :
    readLines (ls.flatMap fun l => encode (l ++ ['\n'])) = ls := by
  have hbytes : byteLines (ls.flatMap fun l => encode (l ++ ['\n'])) = ls.map encode := by
    induction ls with
    | nil => rfl
    | cons l ls ih =>
        obtain ⟨hnl, hcr⟩ := h l (by simp)
        rw [List.flatMap_cons, byteLines_encode_newline hnl hcr,
          ih fun m hm => h m (by simp [hm]), List.map_cons]
  have hdecode : (ls.map encode).map fromUtf8 = ls.map some := by
    rw [List.map_map]
    exact List.map_congr_left fun l _ => fromUtf8_encode l
  have hall : (ls.map some).takeWhile Option.isSome = ls.map some :=
    List.takeWhile_eq_self_iff.mpr (by simp)
  rw [readLines, hbytes, hdecode, hall, List.filterMap_map]
  exact List.filterMap_some

theorem readLine_encode {l : Text} (h : '\n' ∉ l) (rest : List UInt8) :
    readLine (encode (l ++ ['\n']) ++ rest) = some (l ++ ['\n']) := by
  have hmem : ∀ b ∈ encode l, (b != byte '\n') = true := by
    intro b hb
    simp only [bne_iff_ne, ne_eq]
    rintro rfl
    exact h ((mem_encode_iff (by decide)).mp hb)
  have hsplit : encode (l ++ ['\n']) ++ rest = encode l ++ byte '\n' :: rest := by
    rw [encode_append, List.append_assoc]
    rfl
  have hline : encode l ++ [byte '\n'] = encode (l ++ ['\n']) := by
    rw [encode_append]
    rfl
  rw [readLine, hsplit, List.takeWhile_append_of_pos hmem, List.dropWhile_append_of_pos hmem]
  simp only [List.takeWhile_cons, List.dropWhile_cons, bne_self_eq_false, Bool.false_eq_true,
    if_false, List.append_nil, List.take_succ_cons, List.take_zero]
  rw [hline, fromUtf8_encode]

end Lwrt.Library
