import Mathlib.Data.List.MinMax
import Lwrt.Applet.Log
import Lwrt.Library.Generations

/-! # What the log keeps

The two files are two generations of appended lines. -/

namespace Lwrt.Log

open Library Text

/-- The bytes of a line in the file. -/
def lineBytes (line : Text) : List UInt8 :=
  Utf8.encode (line ++ ['\n'])

/-- The size of the longest line, with its newline. -/
def longest (ls : List Text) : ℕ :=
  (ls.map fun line => (lineBytes line).length).foldr max 0

theorem length_lineBytes_le_longest {line : Text} {ls : List Text} (h : line ∈ ls) :
    (lineBytes line).length ≤ longest ls :=
  List.le_max_of_le' 0 (List.mem_map_of_mem h) (le_refl _)

theorem flatMap_lineBytes (ls : List Text) : ls.flatMap lineBytes = Utf8.encode (unlines ls) := by
  induction ls with
  | nil => rfl
  | cons line ls ih =>
      rw [List.flatMap_cons, ih, lineBytes, ← Utf8.encode_append, unlines, unlines,
        List.flatMap_cons]

/-- The bytes of a file; a missing one has none. -/
def content (file : Option (List UInt8)) : List UInt8 :=
  file.getD []

/-- The files hold these generations of lines. -/
structure Stores (fs : Files) (g : Generations Text) : Prop where
  file : content fs.file = g.current.flatMap lineBytes
  old : content fs.old = g.old.flatMap lineBytes

theorem Stores.append {fs : Files} {g : Generations Text} (h : Stores fs g) (line : Text) :
    Stores (append fs line) (g.push lineBytes maxSize line) := by
  have hsize : (fs.file.map List.length).getD 0 = (g.current.flatMap lineBytes).length := by
    rw [← h.file, content]
    cases fs.file <;> rfl
  rw [Log.append, hsize, Generations.push]
  split
  · rename_i hfull
    cases hfile : fs.file with
    | none =>
        -- a missing file is not full
        rw [← hsize, hfile] at hfull
        exact absurd hfull (by decide)
    | some bytes =>
        have hbytes : bytes = g.current.flatMap lineBytes := by
          rw [← h.file, hfile]
          rfl
        constructor
        · simp [Files.rename, hfile, content, lineBytes]
        · simp [Files.rename, hfile, content, hbytes]
  · constructor
    · simp only [content, Option.getD_some, List.flatMap_append, ← h.file]
      simp [lineBytes]
    · exact h.old

theorem Stores.foldl_append {fs : Files} {g : Generations Text} (h : Stores fs g)
    (ls : List Text) :
    Stores (ls.foldl Log.append fs) (ls.foldl (Generations.push lineBytes maxSize) g) := by
  induction ls generalizing fs g with
  | nil => exact h
  | cons line ls ih => exact ih (h.append line)

theorem fromUtf8_content {file : Option (List UInt8)} {s : Text}
    (h : content file = Utf8.encode s) : (file.bind Utf8.fromUtf8).getD [] = s := by
  cases file with
  | none =>
      have hs := congrArg Utf8.fromUtf8 h
      rw [Utf8.fromUtf8_encode] at hs
      exact Option.some.inj hs
  | some bytes =>
      rw [content, Option.getD_some] at h
      rw [Option.bind_some, h, Utf8.fromUtf8_encode, Option.getD_some]

theorem Stores.read_eq {fs : Files} {g : Generations Text} (h : Stores fs g) :
    read fs = unlines g.entries := by
  have hfile := fromUtf8_content (h.file.trans (flatMap_lineBytes _))
  have hold := fromUtf8_content (h.old.trans (flatMap_lineBytes _))
  rw [read, hfile, hold, Generations.entries, unlines, unlines, unlines, List.flatMap_append]

/-- From empty files on, `log read` prints the last lines that were appended, the current file
stays below `maxSize` and one more line, and once a line was dropped the files hold at least
`maxSize` bytes. -/
theorem read_foldl_append {fs : Files} (hfile : content fs.file = []) (hold : content fs.old = [])
    (ls : List Text) :
    (∃ dropped kept, ls = dropped ++ kept ∧ read (ls.foldl append fs) = unlines kept ∧
      (dropped ≠ [] → maxSize ≤ (content (ls.foldl append fs).old ++
        content (ls.foldl append fs).file).length)) ∧
    (content (ls.foldl append fs).file).length < maxSize + longest ls := by
  have hstart : Stores fs .empty := ⟨hfile, hold⟩
  have hstores := hstart.foldl_append ls
  have hlimit : 0 < maxSize := by decide
  have hholds := Generations.Holds.foldl_push lineBytes hlimit ls
  constructor
  · obtain ⟨dropped, hls, hfull⟩ := hholds.last
    refine ⟨dropped, _, hls, hstores.read_eq, ?_⟩
    intro hne
    rw [List.length_append, hstores.old]
    exact (hfull hne).trans (Nat.le_add_right _ _)
  · rw [hstores.file]
    exact hholds.bounded _ fun line hline => length_lineBytes_le_longest hline

/-- From missing files on. -/
theorem read_append_twice :
    (∃ dropped kept, ["a".toList, "b".toList] = dropped ++ kept ∧
      read (append (append ⟨none, none⟩ "a".toList) "b".toList) = unlines kept ∧
      (dropped ≠ [] → maxSize ≤ (content (append (append ⟨none, none⟩ "a".toList) "b".toList).old ++
        content (append (append ⟨none, none⟩ "a".toList) "b".toList).file).length)) ∧
    (content (append (append ⟨none, none⟩ "a".toList) "b".toList).file).length <
      maxSize + longest ["a".toList, "b".toList] :=
  @read_foldl_append ⟨none, none⟩ rfl rfl ["a".toList, "b".toList]

/-! ## Messages -/

/-- The line a message is logged as. -/
def Message.line : Message → Option Text
  | .userspace secs bytes =>
      let msg := trimEndMatches ['\n', '\x00'] (Utf8.fromUtf8Lossy bytes)
      if msg = [] then none else some (stamp secs ++ ' ' :: msg)
  | .kernel secs bytes =>
      let text := Utf8.fromUtf8Lossy bytes
      let body := trimEndMatches ['\n'] (((splitOnce ';' text).map Prod.snd).getD text)
      if body = [] then none else some (stamp secs ++ " kernel: ".toList ++ body)
  | .logger secs msg => some (stamp secs ++ " user: ".toList ++ msg)

theorem ingest_eq (fs : Files) (m : Message) : ingest fs m = (m.line.map (append fs)).getD fs := by
  cases m with
  | userspace secs bytes =>
      simp only [ingest, ingestUserspace, Message.line]
      split <;> rfl
  | kernel secs bytes =>
      simp only [ingest, ingestKernel, Message.line]
      split <;> rfl
  | logger secs msg => rfl

/-- A run of the daemon appends the lines of its messages. -/
theorem foldl_ingest (ms : List Message) (fs : Files) :
    ms.foldl ingest fs = (ms.filterMap Message.line).foldl append fs := by
  induction ms generalizing fs with
  | nil => rfl
  | cons m ms ih =>
      rw [List.foldl_cons, ih, ingest_eq]
      cases h : m.line with
      | none => simp [h]
      | some line => simp [h]

end Lwrt.Log
