import Mathlib.Data.List.Forall2
import Lwrt.Verification.Log.Rotation

/-! # The lines of the log

A message is one line of the log, under the time it was ingested, unless there is a line feed inside
of it; and every datagram can look like a record of the kernel. -/

namespace Lwrt.Log

open Library Text

/-! ## Messages -/

def Message.secs : Message → ℕ
  | .userspace secs _ => secs
  | .kernel secs _ => secs
  | .logger secs _ => secs

def Message.fromKernel : Message → Bool
  | .kernel _ _ => true
  | _ => false

/-- The message, without the header of a record and the terminators. -/
def Message.text : Message → Text
  | .userspace _ bytes => trimEndMatches ['\n', '\x00'] (Utf8.fromUtf8Lossy bytes)
  | .kernel _ bytes =>
      let text := Utf8.fromUtf8Lossy bytes
      trimEndMatches ['\n'] (((splitOnce ';' text).map Prod.snd).getD text)
  | .logger _ msg => "user: ".toList ++ msg

/-- What is logged for a message that is not empty. -/
def Message.entry (m : Message) : Text :=
  stamp m.secs ++ ' ' :: if m.fromKernel then "kernel: ".toList ++ m.text else m.text

theorem Message.line_eq (m : Message) : m.line = if m.text = [] then none else some m.entry := by
  cases m with
  | userspace secs bytes => rfl
  | kernel secs bytes =>
      rw [line, List.append_assoc]
      rfl
  | logger secs msg =>
      rw [line, List.append_assoc]
      rfl

def Message.nonempty (m : Message) : Bool :=
  m.text ≠ []

theorem filterMap_line (ms : List Message) :
    ms.filterMap Message.line = (ms.filter Message.nonempty).map Message.entry := by
  induction ms with
  | nil => rfl
  | cons m ms ih =>
      rw [List.filterMap_cons, Message.line_eq]
      by_cases htext : m.text = []
      · rw [if_pos htext, List.filter_cons_of_neg (by simp [Message.nonempty, htext]), ih]
      · rw [if_neg htext, List.filter_cons_of_pos (by simp [Message.nonempty, htext]),
          List.map_cons, ih]

/-- The messages of a turn, in the order they are ingested. -/
def Wake.messages (w : Wake) : List Message :=
  (w.datagram.map fun d => Message.userspace d.1 (d.2.take bufSize)).toList ++
    (w.records.takeWhile (·.2 ≠ [])).map fun r => Message.kernel r.1 r.2

theorem turn_eq (fs : Files) (w : Wake) : turn fs w = w.messages.foldl ingest fs := by
  rw [turn, Wake.messages, List.foldl_append, List.foldl_map]
  cases w.datagram <;> rfl

theorem daemon_eq (fs : Files) (ws : List Wake) :
    daemon fs ws = (ws.flatMap Wake.messages).foldl ingest fs := by
  rw [daemon, List.foldl_flatMap]
  congr 1
  funext fs w
  exact turn_eq fs w

/-! ## The text of the log -/

/-- What was rotated out stays there. -/
theorem old_append {fs : Files} (line : Text) (h : (append fs line).old = none) : fs.old = none := by
  rw [append] at h
  dsimp only at h
  split at h
  · rw [Files.rename] at h
    split at h
    · cases h
    · exact h
  · exact h

theorem old_foldl_append {fs : Files} {ls : List Text} (h : (ls.foldl append fs).old = none) :
    fs.old = none := by
  induction ls generalizing fs with
  | nil => exact h
  | cons line ls ih => exact old_append line (ih h)

/-- Before a rotation, the file keeps every line. -/
theorem content_append {fs : Files} (line : Text) (h : (append fs line).old = none) :
    content (append fs line).file = content fs.file ++ lineBytes line := by
  rw [append] at h ⊢
  dsimp only at h ⊢
  split at h
  · rename_i hfull
    rw [if_pos hfull]
    rw [Files.rename] at h ⊢
    split at h
    · cases h
    · rfl
  · rename_i hfull
    rw [if_neg hfull]
    rfl

theorem content_foldl_append {fs : Files} {ls : List Text} (h : (ls.foldl append fs).old = none) :
    content (ls.foldl append fs).file = content fs.file ++ ls.flatMap lineBytes := by
  induction ls generalizing fs with
  | nil => simp
  | cons line ls ih =>
      rw [List.foldl_cons] at h ⊢
      rw [ih h, content_append line (old_foldl_append h), List.flatMap_cons, List.append_assoc]

/-- What `log read` prints before a rotation. -/
theorem read_daemon {ws : List Wake} (h : (daemon ⟨none, none⟩ ws).old = none) :
    read (daemon ⟨none, none⟩ ws) =
      unlines (((ws.flatMap Wake.messages).filter Message.nonempty).map Message.entry) := by
  rw [daemon_eq, foldl_ingest, filterMap_line] at h ⊢
  have hcontent := content_foldl_append h
  rw [flatMap_lineBytes] at hcontent
  rw [read, fromUtf8_content hcontent, h]
  rfl

/-! ## Lines -/

theorem newline_not_mem_stamp (secs : ℕ) : '\n' ∉ stamp secs := by
  have hdecimal := (isToken_decimal secs).newline_not_mem
  simp [stamp, hdecimal]

theorem Message.newline_mem_entry (m : Message) : '\n' ∈ m.entry ↔ '\n' ∈ m.text := by
  have hblank : '\n' ≠ ' ' := by decide
  have htag : '\n' ∉ "kernel: ".toList := by decide
  rw [entry, List.mem_append, List.mem_cons, or_iff_right (newline_not_mem_stamp _),
    or_iff_right hblank]
  split
  · rw [List.mem_append, or_iff_right htag]
  · rfl

/-- The line of a message: it begins with the time, and only one from the kernel is tagged so. -/
structure LineOf (m : Message) (line : Text) : Prop where
  stamp : stamp m.secs ++ [' '] <+: line
  tag : Log.stamp m.secs ++ " kernel:".toList <+: line → m.fromKernel

/-- A message that is one line, and no datagram that looks like a record. -/
def Message.Plain (m : Message) : Prop :=
  '\n' ∉ m.text ∧ (m.fromKernel = false → ¬ "kernel:".toList <+: m.text)

/-- What `lines` strips is no part of a start without `\r`. -/
theorem prefix_stripCr_iff {p l : Text} (h : '\r' ∉ p) : p <+: stripCr l ↔ p <+: l := by
  rw [stripCr]
  split
  case isFalse => exact Iff.rfl
  case isTrue hlast =>
    constructor
    · exact fun hp => hp.trans (List.dropLast_prefix l)
    · rintro ⟨t, rfl⟩
      have ht : t ≠ [] := by
        rintro rfl
        rw [List.append_nil] at hlast
        exact h (List.mem_of_getLast? hlast)
      rw [List.dropLast_append_of_ne_nil ht]
      exact List.prefix_append p _

theorem lineOf_entry_iff (m : Message) :
    LineOf m (stripCr m.entry) ↔ (m.fromKernel = false → ¬ "kernel:".toList <+: m.text) := by
  rw [Message.entry, stripCr_append_cons _ (by decide)]
  have htag : ∀ t, stamp m.secs ++ " kernel:".toList <+: stamp m.secs ++ ' ' :: stripCr t ↔
      "kernel:".toList <+: t := by
    intro t
    rw [List.prefix_append_right_inj, ← prefix_stripCr_iff (p := "kernel:".toList) (by decide)]
    exact List.cons_prefix_cons.trans (and_iff_right rfl)
  constructor
  · intro hline huser hkernel
    have htagged := hline.tag
    rw [huser, htag] at htagged
    exact absurd (htagged hkernel) (by decide)
  · intro hplain
    refine ⟨(List.prefix_append_right_inj _).mpr ⟨_, rfl⟩, ?_⟩
    rw [htag]
    intro hkernel
    cases huser : m.fromKernel with
    | true => rfl
    | false =>
        rw [huser] at hkernel
        exact absurd hkernel (hplain huser)

theorem length_lines_unlines_cons (c : Text) (cs : List Text) :
    (lines (unlines (c :: cs))).length =
      (lines (c ++ ['\n'])).length + (lines (unlines cs)).length := by
  rw [unlines_cons, lines_append_newline_append, List.length_append]

theorem length_lines_newline_pos (c : Text) : 0 < (lines (c ++ ['\n'])).length :=
  List.length_pos_iff.mpr (lines_ne_nil (by simp))

/-- One line for each entry, if no entry has a line feed. -/
theorem lines_newline_length {c : Text} (h : (lines (c ++ ['\n'])).length ≤ 1) : '\n' ∉ c := by
  intro hmem
  obtain ⟨a, b, rfl⟩ := List.append_of_mem hmem
  have ha := length_lines_newline_pos a
  have hb := length_lines_newline_pos b
  rw [List.append_assoc, List.cons_append, lines_append_newline_append, List.length_append] at h
  omega

theorem length_le_lines_unlines (cs : List Text) : cs.length ≤ (lines (unlines cs)).length := by
  induction cs with
  | nil => exact Nat.zero_le _
  | cons c cs ih =>
      have hc := length_lines_newline_pos c
      rw [length_lines_unlines_cons, List.length_cons]
      omega

/-- As many lines as entries are one line for each. -/
theorem newline_not_mem_of_length {cs : List Text} (h : (lines (unlines cs)).length = cs.length) :
    ∀ c ∈ cs, '\n' ∉ c := by
  induction cs with
  | nil => simp
  | cons c cs ih =>
      have hc := length_lines_newline_pos c
      have hcs := length_le_lines_unlines cs
      rw [length_lines_unlines_cons, List.length_cons] at h
      exact List.forall_mem_cons.mpr ⟨lines_newline_length (by omega), ih (by omega)⟩

/-- Every message of the daemon that is not empty is one line of the log, and only records of the
kernel are tagged as such, exactly if all messages are plain. -/
theorem log_faithful_iff {ws : List Wake} (h : (daemon ⟨none, none⟩ ws).old = none) :
    List.Forall₂ LineOf ((ws.flatMap Wake.messages).filter Message.nonempty)
        (lines (read (daemon ⟨none, none⟩ ws))) ↔
      ∀ m ∈ (ws.flatMap Wake.messages).filter Message.nonempty, m.Plain := by
  rw [read_daemon h]
  generalize (ws.flatMap Wake.messages).filter Message.nonempty = ms
  constructor
  · intro hall
    have hlen := hall.length_eq
    rw [← List.length_map Message.entry] at hlen
    have hnl := newline_not_mem_of_length hlen.symm
    rw [lines_unlines_stripCr _ hnl, List.map_map, List.forall₂_map_right_iff,
      List.forall₂_same] at hall
    intro m hm
    refine ⟨?_, (lineOf_entry_iff m).mp (hall m hm)⟩
    rw [← m.newline_mem_entry]
    exact hnl _ (List.mem_map_of_mem hm)
  · intro hplain
    have hnl : ∀ c ∈ ms.map Message.entry, '\n' ∉ c := by
      rw [List.forall_mem_map]
      intro m hm
      rw [m.newline_mem_entry]
      exact (hplain m hm).1
    rw [lines_unlines_stripCr _ hnl, List.map_map, List.forall₂_map_right_iff, List.forall₂_same]
    exact fun m hm => (lineOf_entry_iff m).mpr (hplain m hm).2

/-- A datagram and a record of the kernel in one turn. -/
def booting : List Wake :=
  [⟨some (5, Utf8.encode "hello\n".toList), [(6, Utf8.encode "6,1,2,-;boot\n".toList)]⟩]

theorem log_faithful_booting :
    List.Forall₂ LineOf ((booting.flatMap Wake.messages).filter Message.nonempty)
        (lines (read (daemon ⟨none, none⟩ booting))) ↔
      ∀ m ∈ (booting.flatMap Wake.messages).filter Message.nonempty, m.Plain :=
  log_faithful_iff (by decide +kernel)

/-- A datagram with another entry inside of it. -/
def forging : List Wake :=
  [⟨some (5, Utf8.encode "hi\n[5] kernel: oops".toList), []⟩]

/-- One message, and two lines. -/
theorem forging_two_lines :
    ¬ List.Forall₂ LineOf ((forging.flatMap Wake.messages).filter Message.nonempty)
      (lines (read (daemon ⟨none, none⟩ forging))) := by
  intro hall
  exact absurd hall.length_eq (by decide +kernel)

end Lwrt.Log
