import Lwrt.Model.Ustar
import Lwrt.Verification.Ipkg.Walk

/-! # Unpacking a well-formed archive -/

namespace Lwrt.Ipkg

open Library Text Utf8

/-- A member as the loop comes to see it. -/
def memberOf (e : Ustar.Entry) : Member :=
  ⟨e.name, e.typeflag, e.content⟩

/-! ## Fields of a header -/

theorem usize_of_lt {n : ℕ} (h : n < 2 ^ 32) : usize n = n := by
  rw [usize, Nat.mod_eq_of_lt h]

theorem align512_of_lt {n : ℕ} (h : n < 2 ^ 31) : align512 n = n + (512 - n % 512) % 512 := by
  rw [align512, usize_of_lt (by omega)]
  omega

theorem ne_zero_of_mem_encode {s : Text} (h : Char.ofNat 0 ∉ s) {b : UInt8} (hb : b ∈ encode s) :
    b ≠ 0 := by
  rintro rfl
  exact h ((mem_encode_iff (by decide)).mp hb)

/-- A text without NUL, filled up with NUL bytes. -/
theorem cstr_encode_append {s : Text} (h : Char.ofNat 0 ∉ s) (n : ℕ) :
    cstr (encode s ++ List.replicate n 0) = s := by
  have hne : ∀ b ∈ encode s, decide (b ≠ 0) = true :=
    fun b hb => decide_eq_true (ne_zero_of_mem_encode h hb)
  have hzeros : (List.replicate n (0 : UInt8)).takeWhile (· ≠ 0) = [] := by
    cases n with
    | zero => rfl
    | succ n => rfl
  rw [cstr, List.takeWhile_append_of_pos hne, hzeros, List.append_nil, fromUtf8Lossy_encode]

theorem cstr_nameField (e : Ustar.Entry) : cstr e.nameField = e.name :=
  cstr_encode_append e.nul_not_mem _

theorem octalDigits_ascii {width n : ℕ} {c : Char} (h : c ∈ Ustar.octalDigits width n) :
    48 ≤ c.toNat ∧ c.toNat ≤ 55 := by
  obtain ⟨hlo, hhi⟩ := Ustar.octalDigits_bounds h
  exact ⟨hlo, hhi⟩

theorem isToken_octalDigits {width : ℕ} (hwidth : width ≠ 0) (n : ℕ) :
    IsToken (Ustar.octalDigits width n) := by
  constructor
  · intro hnil
    have hlen := Ustar.length_octalDigits width n
    rw [hnil] at hlen
    exact hwidth hlen.symm
  · intro c hc
    obtain ⟨hlo, hhi⟩ := octalDigits_ascii hc
    exact isWhitespace_eq_false_of_le (by omega) (by omega)

theorem parseOctal_octalDigits {width n bound : ℕ} (hwidth : width ≠ 0) (hn : n < 8 ^ width)
    (hbound : n < bound) : parseOctal bound (Ustar.octalDigits width n) = some n := by
  have htoken := isToken_octalDigits hwidth n
  have hplus : stripPrefix '+' (Ustar.octalDigits width n) = none := by
    obtain ⟨c, s, hs⟩ := List.exists_cons_of_ne_nil htoken.1
    have hc := (octalDigits_ascii (hs ▸ List.mem_cons_self : c ∈ Ustar.octalDigits width n)).1
    rw [hs, stripPrefix, if_neg]
    rintro rfl
    exact absurd hc (by decide)
  have hdigits : (Ustar.octalDigits width n).all (fun c => '0' ≤ c && c ≤ '7') = true := by
    rw [List.all_eq_true]
    intro c hc
    obtain ⟨hlo, hhi⟩ := Ustar.octalDigits_bounds hc
    simp [hlo, hhi]
  simp only [parseOctal, hplus, Option.getD_none, Ustar.foldl_octalDigits hn]
  rw [if_pos ⟨htoken.1, hdigits, hbound⟩]

theorem octal_sizeField {e : Ustar.Entry} (h : e.content.length < 2 ^ 31) :
    octal e.sizeField = e.content.length := by
  generalize hdigits : Ustar.octalDigits 11 e.content.length = digits
  have htoken : IsToken digits := hdigits ▸ isToken_octalDigits (by decide) _
  have hascii : ∀ c ∈ digits, 48 ≤ c.toNat ∧ c.toNat ≤ 55 :=
    fun c hc => octalDigits_ascii (hdigits ▸ hc)
  have hnul : Char.ofNat 0 ∉ digits := fun hmem => absurd (hascii _ hmem).1 (by decide)
  have hmap : digits.map byte = encode digits :=
    (encode_ascii fun c hc => by have := hascii c hc; omega).symm
  have hcstr : trim (cstr e.sizeField) = digits := by
    rw [Ustar.Entry.sizeField, hdigits, hmap]
    rcases e.terminator_eq with hterm | hterm
    · rw [hterm]
      exact (congrArg trim (cstr_encode_append hnul 1)).trans (trim_token htoken)
    · have hspace : encode digits ++ [(32 : UInt8)] = encode (digits ++ [' ']) := by
        rw [encode_append]
        rfl
      have hnul' : Char.ofNat 0 ∉ digits ++ [' '] := by
        rw [List.mem_append, not_or]
        exact ⟨hnul, by decide⟩
      have hread := cstr_encode_append hnul' 0
      rw [List.replicate_zero, List.append_nil] at hread
      rw [hterm, hspace, hread, trim_append_whitespace digits (by decide), trim_token htoken]
  have hparse := parseOctal_octalDigits (by decide : 11 ≠ 0)
    (by omega : e.content.length < 8 ^ 11) (by omega : e.content.length < 2 ^ 32)
  rw [hdigits] at hparse
  simp only [octal, hcstr, if_neg htoken.1, hparse, Option.getD_some]

theorem header_not_zero (e : Ustar.Entry) : e.header.all (· = 0) = false := by
  obtain ⟨c, s, hs⟩ := List.exists_cons_of_ne_nil e.name_ne_nil
  obtain ⟨b, hb⟩ := List.exists_mem_of_ne_nil (encode e.name) (by
    rw [hs, encode_cons]
    exact List.append_ne_nil_of_left_ne_nil String.utf8EncodeChar_ne_nil _)
  rw [List.all_eq_false]
  refine ⟨b, ?_, by simpa using ne_zero_of_mem_encode e.nul_not_mem hb⟩
  simp [Ustar.Entry.header, Ustar.Entry.nameField, hb]

theorem extract_header_name (e : Ustar.Entry) : extract e.header 0 100 = e.nameField := by
  have h := extract_append_append [] e.nameField
    (e.owner.toList ++ (e.sizeField ++ (e.stamp.toList ++ (e.typeflag :: e.rest.toList))))
  rwa [Ustar.length_nameField] at h

theorem extract_header_size (e : Ustar.Entry) : extract e.header 124 12 = e.sizeField := by
  have h := extract_append_append (e.nameField ++ e.owner.toList) e.sizeField
    (e.stamp.toList ++ (e.typeflag :: e.rest.toList))
  rw [List.length_append, Ustar.length_nameField, Ustar.length_sizeField, Vector.length_toList,
    List.append_assoc] at h
  exact h

theorem header_typeflag (e : Ustar.Entry) : e.header.getD 156 0 = e.typeflag := by
  have hsplit : e.header = (e.nameField ++ (e.owner.toList ++ (e.sizeField ++ e.stamp.toList))) ++
      e.typeflag :: e.rest.toList := by
    simp only [Ustar.Entry.header, List.append_assoc]
  have hlen :
      (e.nameField ++ (e.owner.toList ++ (e.sizeField ++ e.stamp.toList))).length = 156 := by
    simp [Ustar.length_nameField, Ustar.length_sizeField]
  rw [hsplit, List.getD_eq_getElem?_getD, List.getElem?_append_right (Nat.le_of_eq hlen), hlen]
  rfl

/-! ## The walk -/

/-- At the start of a member the loop finds it, and goes on right behind it. -/
theorem turn_encode (pre post : List UInt8) (e : Ustar.Entry)
    (h : (pre ++ (e.encode ++ post)).length < 2 ^ 31) :
    turn (pre ++ (e.encode ++ post)) pre.length =
      .member (memberOf e) (pre.length + e.encode.length) := by
  have hlen := Ustar.length_encode e
  have hhdr := extract_append_append pre e.header (e.content ++ (e.padding ++ post))
  have hcontent := extract_append_append (pre ++ e.header) e.content (e.padding ++ post)
  have hshape : pre ++ (e.encode ++ post) =
      pre ++ (e.header ++ (e.content ++ (e.padding ++ post))) := by
    simp only [Ustar.Entry.encode, List.append_assoc]
  rw [List.append_assoc, List.length_append] at hcontent
  rw [Ustar.length_header] at hhdr hcontent
  rw [← hshape] at hhdr hcontent
  generalize hdata : pre ++ (e.encode ++ post) = data at h hhdr hcontent ⊢
  have hdatalen : data.length = pre.length + e.encode.length + post.length := by
    rw [← hdata, List.length_append, List.length_append, Nat.add_assoc]
  have hsize : octal e.sizeField = e.content.length := octal_sizeField (by omega)
  have hstop : min (pre.length + 512 + e.content.length) data.length =
      pre.length + 512 + e.content.length := by
    omega
  have halign : pre.length + 512 + align512 e.content.length = pre.length + e.encode.length := by
    rw [align512_of_lt (by omega)]
    omega
  have hnext : usize (pre.length + 512) = pre.length + 512 := usize_of_lt (by omega)
  rw [turn, hnext, if_pos (by omega), if_neg (by omega)]
  simp only [hhdr, header_not_zero, Bool.false_eq_true, if_false, extract_header_name,
    cstr_nameField, extract_header_size, hsize, header_typeflag, halign]
  rw [usize_of_lt (by omega), usize_of_lt (by omega), hstop, if_neg (by omega),
    Nat.add_sub_cancel_left, hcontent]
  rfl

/-- At the end mark the loop stops. -/
theorem turn_end (pre tail : List UInt8)
    (h : (pre ++ (List.replicate 1024 0 ++ tail)).length < 2 ^ 31) :
    turn (pre ++ (List.replicate 1024 0 ++ tail)) pre.length = .stop := by
  have hblocks :
      List.replicate 1024 (0 : UInt8) = List.replicate 512 0 ++ List.replicate 512 0 := by
    rw [List.replicate_append_replicate]
  have hhdr := extract_append_append pre (List.replicate 512 0) (List.replicate 512 0 ++ tail)
  rw [List.length_replicate, ← List.append_assoc (List.replicate 512 0), ← hblocks] at hhdr
  have hlen : (pre ++ (List.replicate 1024 0 ++ tail)).length =
      pre.length + (1024 + tail.length) := by
    rw [List.length_append, List.length_append, List.length_replicate]
  have hnext : usize (pre.length + 512) = pre.length + 512 := usize_of_lt (by omega)
  have hzero : (List.replicate 512 (0 : UInt8)).all (· = 0) = true := by
    rw [List.all_eq_true]
    intro b hb
    exact decide_eq_true (List.eq_of_mem_replicate hb)
  rw [turn, hnext, if_pos (by omega), if_neg (by omega)]
  simp only [hhdr, hzero, if_true]

/-- The walk comes to exactly the members, in order, whatever they contain. -/
theorem walk_archive (es : List Ustar.Entry) (tail pre : List UInt8)
    (h : (pre ++ Ustar.archive es tail).length < 2 ^ 31) {fuel : ℕ} (hfuel : es.length < fuel) :
    walk (pre ++ Ustar.archive es tail) fuel pre.length = (es.map memberOf, .ended) := by
  obtain ⟨fuel, rfl⟩ := Nat.exists_eq_succ_of_ne_zero (Nat.ne_of_gt (Nat.zero_lt_of_lt hfuel))
  induction es generalizing pre fuel with
  | nil =>
      have hturn := turn_end pre tail h
      rw [walk, Ustar.archive, List.flatMap_nil, List.nil_append, hturn]
      rfl
  | cons e es ih =>
      obtain ⟨fuel, rfl⟩ := Nat.exists_eq_succ_of_ne_zero (n := fuel) (by
        rw [List.length_cons] at hfuel
        omega)
      have hshape : Ustar.archive (e :: es) tail = e.encode ++ Ustar.archive es tail := by
        rw [Ustar.archive, List.flatMap_cons, List.append_assoc, Ustar.archive]
      have hturn := turn_encode pre (Ustar.archive es tail) e (hshape ▸ h)
      have hrest := ih (pre ++ e.encode) (by
        rw [List.append_assoc, ← hshape]
        exact h) fuel (by
        rw [List.length_cons] at hfuel
        omega)
      rw [List.append_assoc, List.length_append] at hrest
      rw [walk, hshape, hturn]
      simp only [hrest, List.map_cons]

theorem walk_archive_zero {es : List Ustar.Entry} {tail : List UInt8}
    (h : (Ustar.archive es tail).length < 2 ^ 31) {fuel : ℕ} (hfuel : es.length < fuel) :
    walk (Ustar.archive es tail) fuel 0 = (es.map memberOf, .ended) :=
  walk_archive es tail [] h hfuel

/-! ## The extraction -/

/-- Files and directories can be created and written. -/
structure Reliable (host : Host) : Prop where
  write : ∀ i bytes, (host.write i).ok bytes = true
  mkdir : ∀ i, host.mkdir i = true

/-- The extraction visits all members and ends well. -/
theorem extractUstar_eq {host : Host} (hhost : Reliable host) {es : List Ustar.Entry}
    {tail : List UInt8} (hlen : (Ustar.archive es tail).length < 2 ^ 31) {fuel : ℕ}
    (hfuel : es.length < fuel) (fs : FileSystem) :
    ∃ e, visitAll host 0 (es.map memberOf) ⟨fs, none, []⟩ = .ok e ∧
      extractUstar host fuel (Ustar.archive es tail) fs = (e.fs, .ok e.control e.written) := by
  obtain ⟨e, he⟩ := visitAll_of_write hhost.write 0 (es.map memberOf) ⟨fs, none, []⟩
  refine ⟨e, he, ?_⟩
  rw [extractUstar, extractFrom_eq, walk_archive_zero hlen hfuel]
  simp only [he, Stop.ending]

/-- What the regular members write where. -/
def writesOf (es : List Ustar.Entry) : WriteLog Path (List UInt8) :=
  (fileMembers (es.map memberOf)).map fun m => (target m.name, m.data)

theorem files_extractUstar {host : Host} (hhost : Reliable host) {es : List Ustar.Entry}
    {tail : List UInt8} (hlen : (Ustar.archive es tail).length < 2 ^ 31) {fuel : ℕ}
    (hfuel : es.length < fuel) (fs : FileSystem) (p : Path) :
    (extractUstar host fuel (Ustar.archive es tail) fs).1.files p =
      ((writesOf es).final p).or (fs.files p) := by
  obtain ⟨e, he, hextract⟩ := extractUstar_eq hhost hlen hfuel fs
  have hfiles := files_visitAll host 0 (es.map memberOf) ⟨fs, none, []⟩ p
  rw [he, (visitAll_ok he).1, writeLog, List.map_map] at hfiles
  rw [hextract]
  exact hfiles

/-- The extraction of an archive visits its members, returns the last control member and the names
of the other regular members in order, writes those at their places, the last one for a place
counting, and creates the directories of directory members and above the files. -/
theorem extractUstar_archive {host : Host} (hhost : Reliable host) (es : List Ustar.Entry)
    (tail : List UInt8) (hlen : (Ustar.archive es tail).length < 2 ^ 31) {fuel : ℕ}
    (hfuel : es.length < fuel) (fs : FileSystem) :
    walk (Ustar.archive es tail) fuel 0 = (es.map memberOf, .ended) ∧
      (extractUstar host fuel (Ustar.archive es tail) fs).2 =
        .ok ((lastControl (es.map memberOf)).map Member.data)
          ((fileMembers (es.map memberOf)).map Member.name) ∧
      (∀ p, (extractUstar host fuel (Ustar.archive es tail) fs).1.files p =
        (WriteLog.final ((fileMembers (es.map memberOf)).map fun m => (target m.name, m.data))
          p).or (fs.files p)) ∧
      ∀ p, (extractUstar host fuel (Ustar.archive es tail) fs).1.dirs p = true ↔
        fs.dirs p = true ∨ ∃ m ∈ es.map memberOf, ∃ d, m.directory = some d ∧ p <+: d := by
  obtain ⟨e, he, hextract⟩ := extractUstar_eq hhost hlen hfuel fs
  obtain ⟨-, hwritten, hcontrol⟩ := visitAll_ok he
  refine ⟨walk_archive_zero hlen hfuel, ?_, files_extractUstar hhost hlen hfuel fs, fun p => ?_⟩
  · rw [hextract, hwritten, hcontrol, Option.or_none, List.nil_append]
  · rw [hextract, dirs_visitAll hhost.mkdir he p]
    simp [Option.any_eq_true, List.isPrefixOf_iff_prefix]

/-- A member with a plain header. -/
def plain (name : Text) (typeflag : UInt8) (content : List UInt8) (hname : name ≠ [])
    (hnul : Char.ofNat 0 ∉ name) (hlen : (encode name).length ≤ 100) : Ustar.Entry :=
  ⟨name, typeflag, content, Vector.replicate 24 0, 0, Vector.replicate 20 0, Vector.replicate 355 0,
    hname, hnul, hlen, Or.inl rfl⟩

/-- A host on which every call succeeds and no server answers. -/
def quietHost : Host :=
  ⟨[], fun _ _ => .error [], fun _ => .done, fun _ => true, true, .done, .done, .done⟩

theorem quietHost_reliable : Reliable quietHost :=
  ⟨fun _ _ => rfl, fun _ => rfl⟩

/-- No file, and no directory but the root. -/
def emptyDisk : FileSystem :=
  ⟨fun _ => none, fun p => p = []⟩

def helloFile : Ustar.Entry :=
  plain "./usr/bin/hello".toList (byte '0') [104, 105] (by decide) (by decide) (by decide)

theorem extractUstar_archive_hello :
    (extractUstar quietHost 2 (Ustar.archive [helloFile] []) emptyDisk).1.files
      ["usr".toList, "bin".toList, "hello".toList] = some [104, 105] := by
  have hlen : (Ustar.archive [helloFile] []).length < 2 ^ 31 := by
    simp [Ustar.length_archive, Ustar.length_encode, helloFile, plain]
  rw [(extractUstar_archive quietHost_reliable [helloFile] [] hlen (by decide) emptyDisk).2.2.1]
  decide

/-- A directory under the name of the control file. -/
def controlDirectory : Ustar.Entry :=
  plain "./control".toList (byte '5') [] (by decide) (by decide) (by decide)

/-- It is captured, and no directory comes of it. -/
theorem controlDirectory_not_created :
    ¬∀ e ∈ [controlDirectory], e.typeflag = byte '5' →
      (extractUstar quietHost 2 (Ustar.archive [controlDirectory] []) emptyDisk).1.dirs
        (target e.name) = true := by
  intro h
  have hdir := h controlDirectory (by simp) rfl
  have hlen : (Ustar.archive [controlDirectory] []).length < 2 ^ 31 := by
    simp [Ustar.length_archive, Ustar.length_encode, controlDirectory, plain]
  have hwalk : walk (Ustar.archive [controlDirectory] []) 2 0 =
      ([memberOf controlDirectory], .ended) :=
    walk_archive_zero hlen (by decide)
  rw [extractUstar, extractFrom_eq, hwalk] at hdir
  revert hdir
  decide

end Lwrt.Ipkg
