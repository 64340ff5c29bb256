import Lwrt.Applet.Mtd
import Lwrt.Model.ProcMtd

/-! # Partitions by name

A name is looked up in the table of the kernel, and nothing else in a line is taken for it. -/

namespace Lwrt.Mtd

open Library Text ProcMtd

/-! ## A line of the table -/

/-- What a line without a quote is skipped for. -/
theorem tableEntry_of_not_mem {line : Text} (h : '"' ∉ line) : tableEntry line = none := by
  rw [tableEntry]
  cases hsplit : splitOnce ':' line with
  | none => rfl
  | some parts =>
      have hrest : '"' ∉ parts.2 := by
        intro hmem
        rw [(splitOnce_eq_some_iff (y := parts.2) (x := parts.1)).mp hsplit |>.1] at h
        exact h (by simp [hmem])
      simp only [Option.bind_some, List.splitOn_eq_singleton hrest]
      rfl

/-- The name is between the quotes, whatever it is made of. -/
theorem tableEntry_line (p : Partition) :
    tableEntry p.line = some (p.name, p.device) := by
  have hsizes : '"' ∉ p.sizes := fun h => (p.sizes_plain h).1 rfl
  rw [tableEntry, Partition.line, splitOnce_append p.colon_not_mem_device]
  simp only [Option.bind_some]
  rw [List.splitOn_append_cons_self_of_not_mem hsizes,
    List.splitOn_append_cons_self_of_not_mem p.quote_not_mem, trim_token p.isToken_device]
  rfl

theorem lines_table (header : Header) (ps : List Partition) :
    lines (table header ps) = stripCr header.text :: ps.map Partition.line := by
  have hnl : ∀ l ∈ header.text :: ps.map Partition.line, '\n' ∉ l := by
    rw [List.forall_mem_cons, List.forall_mem_map]
    exact ⟨header.newline_not_mem, fun p _ => p.newline_not_mem_line⟩
  have hcr : ∀ p : Partition, stripCr p.line = p.line := by
    intro p
    rw [stripCr_eq_self_iff, Partition.line, ← List.cons_append, ← List.append_assoc,
      ← List.cons_append, ← List.append_assoc, List.getLast?_concat]
    simp
  rw [table, lines_unlines_stripCr _ hnl, List.map_cons, List.map_map]
  exact congrArg _ (List.map_congr_left fun p _ => hcr p)

/-! ## Resolving -/

/-- The search through the lines is one through the partitions. -/
theorem findSome?_lines (ps : List Partition) (part : Text) :
    ((ps.map Partition.line).findSome? fun line =>
        (tableEntry line).bind fun (name, dev) => if name = part then some dev else none) =
      (ps.find? (·.name = part)).map Partition.device := by
  induction ps with
  | nil => rfl
  | cons p ps ih =>
      rw [List.map_cons, List.findSome?_cons, tableEntry_line, Option.bind_some, List.find?_cons]
      by_cases hname : p.name = part
      · simp [hname]
      · simp only [hname, if_false, decide_false]
        exact ih

/-- An argument that is looked up: neither the path of a device nor a shorthand. -/
def IsPartitionName (part : Text) : Prop :=
  ¬ "/dev/".toList <+: part ∧
    ∀ n, part = "mtd".toList ++ n → n ≠ [] → ∃ c ∈ n, c.isDigit = false

theorem resolve_table {fs : FileSystem} {header : Header} {ps : List Partition} {part : Text}
    (htable : fs.readToString (Path.resolve [] procMtd) = some (table header ps))
    (hpart : IsPartitionName part) :
    resolve fs part = match ps.find? (·.name = part) with
      | some p => .ok ("/dev/".toList ++ p.device)
      | none => .error ("no mtd partition named '".toList ++ part ++ "'".toList) := by
  have hdev : "/dev/".toList.isPrefixOf part = false := by
    rw [Bool.eq_false_iff, ne_eq, List.isPrefixOf_iff_prefix]
    exact hpart.1
  have hshort : ¬ ("mtd".toList.isPrefixOf part ∧ (part.drop 3).all Char.isDigit ∧
      part.drop 3 ≠ []) := by
    rintro ⟨hstart, hall, hne⟩
    obtain ⟨n, rfl⟩ := List.isPrefixOf_iff_prefix.mp hstart
    obtain ⟨c, hc, hdigit⟩ := hpart.2 n rfl hne
    have hc' := List.all_eq_true.mp hall c hc
    rw [hdigit] at hc'
    cases hc'
  have hheader : '"' ∉ stripCr header.text :=
    fun h => header.quote_not_mem ((stripCr_sublist _).subset h)
  simp only [resolve, hdev, Bool.false_eq_true, if_false, if_neg hshort, htable, lines_table,
    List.findSome?_cons, tableEntry_of_not_mem hheader, Option.bind_none, findSome?_lines]
  cases ps.find? (·.name = part) <;> rfl

/-- A name stands for the device of the first partition that is called so, and for none if no
partition is. -/
theorem resolve_exact {fs : FileSystem} {header : Header} {ps : List Partition} {part : Text}
    (htable : fs.readToString (Path.resolve [] procMtd) = some (table header ps))
    (hpart : IsPartitionName part) :
    (∀ before p after, ps = before ++ p :: after → (∀ q ∈ before, q.name ≠ part) →
      p.name = part → resolve fs part = .ok ("/dev/mtd".toList ++ decimal p.index)) ∧
    ((∃ e, resolve fs part = .error e) ↔ ∀ p ∈ ps, p.name ≠ part) ∧
    ∀ dev, resolve fs part = .ok dev →
      ∃ p ∈ ps, p.name = part ∧ dev = "/dev/mtd".toList ++ decimal p.index := by
  have hresolve := resolve_table htable hpart
  refine ⟨?_, ?_, ?_⟩
  · rintro before p after rfl hbefore hname
    have hfind : (before ++ p :: after).find? (·.name = part) = some p := by
      rw [List.find?_eq_some_iff_append]
      refine ⟨by simpa using hname, before, after, rfl, ?_⟩
      intro q hq
      simpa using hbefore q hq
    rw [hresolve, hfind]
    rfl
  · rw [hresolve]
    cases hfind : ps.find? (·.name = part) with
    | none =>
        have hnone := List.find?_eq_none.mp hfind
        exact iff_of_true ⟨_, rfl⟩ fun p hp => by simpa using hnone p hp
    | some p =>
        have hname : p.name = part := by simpa using List.find?_some hfind
        refine iff_of_false ?_ fun h => h p (List.mem_of_find?_eq_some hfind) hname
        rintro ⟨e, he⟩
        cases he
  · intro dev hdev
    rw [hresolve] at hdev
    cases hfind : ps.find? (·.name = part) with
    | none =>
        rw [hfind] at hdev
        cases hdev
    | some p =>
        rw [hfind] at hdev
        refine ⟨p, List.mem_of_find?_eq_some hfind, by simpa using List.find?_some hfind, ?_⟩
        exact (Except.ok.inj hdev).symm

/-- A table with colons, spaces and a duplicate in its names. -/
def sampleTable : List Partition :=
  [⟨0, 0x30000, 0x10000, "mtd1: x".toList, by decide, by decide⟩,
    ⟨1, 0x10000, 0x10000, "x".toList, by decide, by decide⟩,
    ⟨2, 0xfa0000, 0x10000, "x".toList, by decide, by decide⟩]

def sampleHeader : Header :=
  ⟨"dev:    size   erasesize  name".toList, by decide, by decide⟩

/-- Every file shows the same text. -/
def showing (text : Text) : FileSystem :=
  ⟨fun _ => some (Utf8.encode text), fun _ => false⟩

theorem readToString_showing (text : Text) (p : Path) :
    (showing text).readToString p = some text :=
  Utf8.fromUtf8_encode text

theorem resolve_exact_sample :
    (∀ before p after, sampleTable = before ++ p :: after → (∀ q ∈ before, q.name ≠ "x".toList) →
      p.name = "x".toList → resolve (showing (table sampleHeader sampleTable)) "x".toList =
        .ok ("/dev/mtd".toList ++ decimal p.index)) ∧
    ((∃ e, resolve (showing (table sampleHeader sampleTable)) "x".toList = .error e) ↔
      ∀ p ∈ sampleTable, p.name ≠ "x".toList) ∧
    ∀ dev, resolve (showing (table sampleHeader sampleTable)) "x".toList = .ok dev →
      ∃ p ∈ sampleTable, p.name = "x".toList ∧ dev = "/dev/mtd".toList ++ decimal p.index :=
  resolve_exact (readToString_showing _ _) ⟨by decide, fun n hn => by cases hn⟩

end Lwrt.Mtd
