import Lwrt.Library.Numerals
import Lwrt.Verification.Ipkg.Provenance

/-! # From the feed builder to the device

What becomes of a package between its author, who lays out its directory, and a device that fetches
the index and installs it. -/

namespace Lwrt.Ipkg

open Library Text Utf8

/-- A package that is to be published. Its control text is one of whole lines, or one whose last line
end is missing. -/
structure Published extends Mkrepo.Source where
  name : Text
  isControlText : IsControlText ctrl name ∨ IsControlText (ctrl ++ ['\n']) name

/-- What the installer finds in the index. -/
def Published.entry (arch : Text) (s : Published) : Entry :=
  if s.ctrl.getLast? = some '\n' then ⟨s.name ++ ".ipk".toList, none, none⟩
  else ⟨s.ipk arch, some s.archive.length, some (Sha256.hex (Fips180.sha256 s.archive))⟩

/-- Packages that the installer can tell apart, in archives that the index can name. -/
structure WellNamed (arch : Text) (ss : List Published) : Prop where
  names : (ss.map Published.name).Nodup
  archives : (ss.map fun s => s.ipk arch).Nodup
  line : ∀ s ∈ ss, '\n' ∉ s.ipk arch ∧ trim (s.ipk arch) = s.ipk arch
  length : ∀ s ∈ ss, s.archive.length < 2 ^ 31

/-- The server sends the files of a feed as they were written last. -/
def Serves (host : Host) (repo : Text) (out : WriteLog Text (List UInt8)) : Prop :=
  ∀ file body, out.final file = some body → httpGet host (repo ++ '/' :: file) = .ok body

/-! ## The lines of a stanza -/

/-- The fields that the feed builder adds. -/
def fetchLines (b : Mkrepo.Built) : List Text :=
  ["Filename".toList ++ ':' :: ' ' :: b.ipk, "Size".toList ++ ':' :: ' ' :: decimal b.size,
    "SHA256sum".toList ++ ':' :: ' ' :: b.sha]

theorem stanza_eq (b : Mkrepo.Built) :
    Mkrepo.stanza b = b.ctrl ++ '\n' :: (unlines (fetchLines b) ++ ['\n']) := by
  simp [Mkrepo.stanza, fetchLines, unlines]

theorem fieldOf_colon (key : Text) {val : Text} (hkey : ':' ∉ key) (htrim : trim key = key)
    (hval : trim val = val) : fieldOf (key ++ ':' :: ' ' :: val) = some (key, val) := by
  have hblank : trim (' ' :: val) = val :=
    (trim_blank_append (b := [' ']) (by simp [isWhitespace]) val).trans hval
  rw [fieldOf, splitOnce_append hkey, Option.map_some, htrim, hblank]

section Stanza

variable {b : Mkrepo.Built} (hipk : '\n' ∉ b.ipk ∧ trim b.ipk = b.ipk) (hsha : IsToken b.sha)
include hipk hsha

theorem fields_fetchLines : (fetchLines b).filterMap fieldOf =
    [("Filename".toList, b.ipk), ("Size".toList, decimal b.size), ("SHA256sum".toList, b.sha)] := by
  have hfilename := fieldOf_colon "Filename".toList (by decide) (by decide) hipk.2
  have hsize := fieldOf_colon "Size".toList (by decide) (by decide)
    (trim_token (isToken_decimal b.size))
  have hsum := fieldOf_colon "SHA256sum".toList (by decide) (by decide) (trim_token hsha)
  rw [fetchLines, List.filterMap_cons_some hfilename, List.filterMap_cons_some hsize,
    List.filterMap_cons_some hsum, List.filterMap_nil]

/-- Each field is the last with its key, and there is no `Package` field. -/
theorem final_fetchLines :
    WriteLog.final ((fetchLines b).filterMap fieldOf) "Package".toList = none ∧
      WriteLog.final ((fetchLines b).filterMap fieldOf) "Filename".toList = some b.ipk ∧
      WriteLog.final ((fetchLines b).filterMap fieldOf) "Size".toList = some (decimal b.size) ∧
      WriteLog.final ((fetchLines b).filterMap fieldOf) "SHA256sum".toList = some b.sha := by
  rw [fields_fetchLines hipk hsha]
  exact ⟨rfl, rfl, rfl, rfl⟩

theorem fetchLines_spec : ∀ l ∈ fetchLines b, '\n' ∉ l ∧ l ≠ [] := by
  have hline : ∀ key val : Text, '\n' ∉ key → '\n' ∉ val →
      '\n' ∉ key ++ ':' :: ' ' :: val ∧ key ++ ':' :: ' ' :: val ≠ [] := by
    intro key val hkey hval
    refine ⟨?_, by simp⟩
    rw [List.mem_append, List.mem_cons, List.mem_cons, not_or, not_or, not_or]
    exact ⟨hkey, by decide, by decide, hval⟩
  rw [fetchLines, List.forall_mem_cons, List.forall_mem_cons, List.forall_mem_singleton]
  exact ⟨hline _ _ (by decide) hipk.1, hline _ _ (by decide) (isToken_decimal b.size).newline_not_mem,
    hline _ _ (by decide) hsha.newline_not_mem⟩

end Stanza

/-! ## One stanza of the index -/

theorem unlines_append (ls ms : List Text) : unlines (ls ++ ms) = unlines ls ++ unlines ms :=
  List.flatMap_append

/-- Without its last line end, a text of lines that are not empty ends in none. -/
theorem getLast?_of_unlines {ctrl : Text} {ls : List Text} (hne : ls ≠ [])
    (hls : ∀ l ∈ ls, '\n' ∉ l ∧ l ≠ []) (h : ctrl ++ ['\n'] = unlines ls) :
    ctrl.getLast? ≠ some '\n' := by
  obtain ⟨ms, l, rfl⟩ := (List.eq_nil_or_concat' ls).resolve_left hne
  obtain ⟨hnl, hl⟩ := hls l (by simp)
  rw [unlines_append, show unlines [l] = l ++ ['\n'] by simp [unlines], ← List.append_assoc] at h
  rw [List.append_cancel_right h, List.getLast?_append_of_ne_nil _ hl]
  exact fun hlast => hnl (List.mem_of_getLast? hlast)

/-- What the installer takes the stanza of a package for, in front of any rest of the index: pieces
in which no other package is found, and in which this one is found with its entry. -/
structure Pieces (arch : Text) (s : Published) (pieces : List Text) : Prop where
  split : ∀ rest, splitDouble '\n' (Mkrepo.stanza (s.build arch) ++ rest) =
    pieces ++ splitDouble '\n' rest
  other : ∀ name, name ≠ s.name → ∀ piece ∈ pieces, lastField "Package".toList piece ≠ some name
  own : ∃ stanza, pieces.find? (lastField "Package".toList · = some s.name) = some stanza ∧
    entryOf s.name stanza = s.entry arch

section Control

variable {ctrl name : Text} {ls : List Text}

/-- The lines of a control text, and what its fields say. -/
structure ControlLines (ls : List Text) (name : Text) : Prop where
  ne_nil : ls ≠ []
  line : ∀ l ∈ ls, '\n' ∉ l ∧ l ≠ []
  package : WriteLog.final (ls.filterMap fieldOf) "Package".toList = some name
  filename : WriteLog.final (ls.filterMap fieldOf) "Filename".toList = none
  size : WriteLog.final (ls.filterMap fieldOf) "Size".toList = none
  sha256sum : WriteLog.final (ls.filterMap fieldOf) "SHA256sum".toList = none

theorem IsControlText.exists_lines (h : IsControlText ctrl name) :
    ∃ ls, ctrl = unlines ls ∧ ControlLines ls name := by
  obtain ⟨ls, hctrl, hlines, hpackage, hother⟩ := h
  have hname : WriteLog.final (ls.filterMap fieldOf) "Package".toList = some name := by
    rw [WriteLog.final_eq_getLast?, hpackage]
    rfl
  refine ⟨ls, hctrl, ?_, ?_, hname, ?_, ?_, ?_⟩
  · rintro rfl
    cases hname
  · exact fun l hl => ⟨(hlines l hl).1, List.ne_nil_of_mem (hlines l hl).2.1⟩
  · exact WriteLog.final_eq_none fun kv hkv => (hother kv hkv).1
  · exact WriteLog.final_eq_none fun kv hkv => (hother kv hkv).2.1
  · exact WriteLog.final_eq_none fun kv hkv => (hother kv hkv).2.2

end Control

theorem isToken_sha (arch : Text) (s : Published) (h : s.archive.length < 2 ^ 31) :
    IsToken (s.build arch).sha := by
  rw [Mkrepo.Source.build, ← digest_eq h]
  exact isToken_hex_digest s.archive

/-- The feed builder's line feed after a whole text makes two pieces of the stanza. -/
theorem pieces_ended {arch : Text} {s : Published} {ls : List Text}
    (hipk : '\n' ∉ s.ipk arch ∧ trim (s.ipk arch) = s.ipk arch)
    (hlength : s.archive.length < 2 ^ 31) (hctrl : s.ctrl = unlines ls)
    (hls : ControlLines ls s.name) :
    Pieces arch s [['\n'].intercalate ls, ['\n'].intercalate (fetchLines (s.build arch))] := by
  have hsha := isToken_sha arch s hlength
  have hfetch := fetchLines_spec (b := s.build arch) hipk hsha
  have hfields := fields_intercalate hls.line
  obtain ⟨hpackage, -⟩ := final_fetchLines (b := s.build arch) hipk hsha
  have hlast : s.ctrl.getLast? = some '\n' := by
    obtain ⟨ms, l, rfl⟩ := (List.eq_nil_or_concat' ls).resolve_left hls.ne_nil
    rw [hctrl, unlines_append]
    simp [unlines]
  constructor
  · intro rest
    rw [stanza_eq, List.append_assoc, List.cons_append, List.append_assoc, List.singleton_append,
      show (s.build arch).ctrl = unlines ls from hctrl, splitDouble_unlines hls.line hls.ne_nil,
      splitDouble_unlines hfetch (by simp [fetchLines])]
    rfl
  · intro name hname
    rw [List.forall_mem_cons, List.forall_mem_singleton, lastField, lastField, hfields,
      hls.package, fields_intercalate hfetch, hpackage]
    exact ⟨fun heq => hname (Option.some.inj heq).symm, fun heq => Option.some_ne_none name heq.symm⟩
  · refine ⟨['\n'].intercalate ls, ?_, ?_⟩
    · rw [List.find?_cons, lastField, hfields, hls.package, decide_eq_true rfl]
    · rw [entryOf, lastField, lastField, lastField, hfields, hls.filename, hls.size, hls.sha256sum,
        Published.entry, if_pos hlast]
      rfl

/-- A text without its last line end makes one stanza with the fields of the feed builder. -/
theorem pieces_unended {arch : Text} {s : Published} {ls : List Text}
    (hipk : '\n' ∉ s.ipk arch ∧ trim (s.ipk arch) = s.ipk arch)
    (hlength : s.archive.length < 2 ^ 31) (hctrl : s.ctrl ++ ['\n'] = unlines ls)
    (hls : ControlLines ls s.name) :
    Pieces arch s [['\n'].intercalate (ls ++ fetchLines (s.build arch))] := by
  have hsha := isToken_sha arch s hlength
  have hfetch := fetchLines_spec (b := s.build arch) hipk hsha
  have hline : ∀ l ∈ ls ++ fetchLines (s.build arch), '\n' ∉ l ∧ l ≠ [] :=
    List.forall_mem_append.mpr ⟨hls.line, hfetch⟩
  obtain ⟨hpackage, hfilename, hsize, hsum⟩ := final_fetchLines (b := s.build arch) hipk hsha
  have hlastField : ∀ key, lastField key (['\n'].intercalate (ls ++ fetchLines (s.build arch))) =
      (WriteLog.final ((fetchLines (s.build arch)).filterMap fieldOf) key).or
        (WriteLog.final (ls.filterMap fieldOf) key) := by
    intro key
    rw [lastField, fields_intercalate hline, List.filterMap_append, WriteLog.final_append]
  have hname : lastField "Package".toList
      (['\n'].intercalate (ls ++ fetchLines (s.build arch))) = some s.name := by
    rw [hlastField, hpackage, Option.none_or, hls.package]
  constructor
  · intro rest
    have hstanza : Mkrepo.stanza (s.build arch) ++ rest =
        unlines (ls ++ fetchLines (s.build arch)) ++ '\n' :: rest := by
      rw [stanza_eq, unlines_append, ← hctrl]
      simp only [List.append_assoc, List.cons_append, List.nil_append]
      rfl
    rw [hstanza, splitDouble_unlines hline (by simp [fetchLines])]
    rfl
  · intro name hother
    rw [List.forall_mem_singleton, hname]
    exact fun heq => hother (Option.some.inj heq).symm
  · refine ⟨_, by rw [List.find?_cons, hname, decide_eq_true rfl], ?_⟩
    have hread : parseUnsigned (2 ^ 32) (decimal (s.build arch).size) = some s.archive.length :=
      parseUnsigned_decimal (Nat.lt_trans hlength (by decide))
    rw [entryOf, hlastField, hlastField, hlastField, hfilename, hsize, hsum, Option.some_or,
      Option.some_or, Option.some_or, Option.bind_some, hread, Published.entry,
      if_neg (getLast?_of_unlines hls.ne_nil hls.line hctrl)]
    rfl

theorem exists_pieces {arch : Text} {ss : List Published} (h : WellNamed arch ss) {s : Published}
    (hs : s ∈ ss) : ∃ pieces, Pieces arch s pieces := by
  rcases s.isControlText with hctrl | hctrl
  · obtain ⟨ls, hctrl, hls⟩ := hctrl.exists_lines
    exact ⟨_, pieces_ended (h.line s hs) (h.length s hs) hctrl hls⟩
  · obtain ⟨ls, hctrl, hls⟩ := hctrl.exists_lines
    exact ⟨_, pieces_unended (h.line s hs) (h.length s hs) hctrl hls⟩

/-! ## The index -/

/-- The packages of an index do not get in each other's way. -/
theorem stanzaFor_index {arch : Text} {ss : List Published} (hnames : (ss.map Published.name).Nodup)
    (hpieces : ∀ s ∈ ss, ∃ pieces, Pieces arch s pieces) {s : Published} (hs : s ∈ ss) :
    ∃ stanza, stanzaFor (Mkrepo.index (ss.map fun s => s.build arch)) s.name = some stanza ∧
      entryOf s.name stanza = s.entry arch := by
  induction ss with
  | nil => cases hs
  | cons t ss ih =>
      obtain ⟨⟨pieces, ht⟩, hss⟩ := List.forall_mem_cons.mp hpieces
      rw [List.map_cons, List.nodup_cons] at hnames
      rw [stanzaFor, List.map_cons, Mkrepo.index, List.flatMap_cons, ht.split, List.find?_append]
      rcases List.mem_cons.mp hs with rfl | hs
      · obtain ⟨stanza, hfind, hentry⟩ := ht.own
        exact ⟨stanza, by rw [hfind, Option.some_or], hentry⟩
      · have hne : s.name ≠ t.name := by
          intro heq
          exact hnames.1 (heq ▸ List.mem_map_of_mem hs)
        have hnone : pieces.find? (lastField "Package".toList · = some s.name) = none := by
          rw [List.find?_eq_none]
          exact fun piece hpiece hfor => ht.other s.name hne piece hpiece (of_decide_eq_true hfor)
        rw [hnone, Option.none_or]
        exact ih hnames.2 hss hs

theorem findEntry_published {arch : Text} {ss : List Published} (h : WellNamed arch ss)
    {s : Published} (hs : s ∈ ss) :
    findEntry (Mkrepo.index (ss.map fun s => s.build arch)) s.name = some (s.entry arch) := by
  obtain ⟨stanza, hstanza, hentry⟩ := stanzaFor_index h.names (fun _ hs => exists_pieces h hs) hs
  rw [findEntry_eq, hstanza, Option.map_some, hentry]

/-! ## The files of the feed -/

def indexPlace : Path :=
  Path.resolve [] packages

theorem resolve_packages (cwd : Path) : Path.resolve cwd packages = indexPlace :=
  Path.resolve_of_head? (by decide) cwd

/-- The index is written last, and is no archive. -/
theorem final_run {arch : Text} {ss : List Published} {out : List (Text × List UInt8)}
    (h : Mkrepo.run arch (ss.map Published.toSource) = some out) :
    WriteLog.final out "Packages".toList =
        some (encode (Mkrepo.index (ss.map fun s => s.build arch))) ∧
      ((ss.map fun s => s.ipk arch).Nodup → ∀ s ∈ ss,
        WriteLog.final out (s.ipk arch) = some s.archive) := by
  rw [Mkrepo.run, Option.ite_none_right_eq_some] at h
  obtain ⟨-, h⟩ := h
  rw [← Option.some.inj h, List.map_map, List.map_map]
  refine ⟨by rw [WriteLog.final_concat, if_pos rfl]; rfl, fun hnodup s hs => ?_⟩
  have hne : "Packages".toList ≠ s.ipk arch := by
    intro heq
    have hlast := congrArg List.getLast? heq
    rw [Mkrepo.Source.ipk, List.getLast?_append_of_ne_nil _ (by decide)] at hlast
    exact absurd hlast (by decide)
  rw [WriteLog.final_concat, if_neg hne]
  apply WriteLog.final_of_nodup
  · rw [List.map_map]
    exact hnodup
  · exact List.mem_map_of_mem hs

/-! ## The device -/

theorem repoOf_congr {host : Host} {fs fs' : FileSystem}
    (h : ∀ p, Outside p → fs'.files p = fs.files p) : repoOf host fs' = repoOf host fs := by
  have hplace : Outside (Path.resolve host.cwd "/etc/lwrt/config".toList) := by
    rw [Path.resolve_of_head? (by decide)]
    decide
  rw [repoOf, repoOf, FileSystem.readToString, FileSystem.readToString, h _ hplace]

/-- Fetching the index replaces the one on the disk. -/
theorem run_update {host : Host} {fs : FileSystem} {body : List UInt8}
    (hindex : host.index.ok body = true)
    (hget : httpGet host (repoOf host fs ++ "/Packages".toList) = .ok body) (fuel : ℕ) :
    (run host fuel ["update".toList] fs).2 = .code 0 ∧
      ∀ p, (run host fuel ["update".toList] fs).1.files p =
        if p = indexPlace then some body else fs.files p := by
  have hrun : run host fuel ["update".toList] fs =
      update host (repoOf host fs) (Invocation.disk ⟨host, fuel, ["update".toList]⟩ fs) := rfl
  rw [hrun, update, hget]
  refine ⟨rfl, fun p => ?_⟩
  simp only [resolve_packages, FileSystem.write, Outcome.stored_of_ok hindex, Option.some_or,
    files_disk]

/-- The package is found in the index, downloaded and accepted exactly if its stanza is in one
piece. -/
theorem fetch_of_published {arch : Text} {ss : List Published} (hnamed : WellNamed arch ss)
    {host : Host} {repo : Text} {fs : FileSystem}
    (hread : fs.files indexPlace = some (encode (Mkrepo.index (ss.map fun s => s.build arch))))
    {s : Published} (hs : s ∈ ss)
    (hget : httpGet host (repo ++ '/' :: s.ipk arch) = .ok s.archive) :
    fetch host repo s.name fs =
      if s.ctrl.getLast? = some '\n' then none else some s.archive := by
  have hindex : fs.readToString (Path.resolve host.cwd packages) =
      some (Mkrepo.index (ss.map fun s => s.build arch)) := by
    rw [FileSystem.readToString, resolve_packages, hread, Option.bind_some, fromUtf8_encode]
  simp only [fetch, hindex, findEntry_published hnamed hs, Published.entry]
  by_cases hlast : s.ctrl.getLast? = some '\n'
  · simp only [if_pos hlast]
    cases httpGet host (repo ++ '/' :: (s.name ++ ".ipk".toList)) with
    | error e => rfl
    | ok blob => rfl
  · have hcheck : checkBlob ⟨s.ipk arch, some s.archive.length,
        some (Sha256.hex (Fips180.sha256 s.archive))⟩ s.archive = true := by
      rw [checkBlob_iff, digest_eq (hnamed.length s hs)]
      exact ⟨fun n hn => Option.some.inj hn, _, rfl, by simp [eqIgnoreAsciiCase]⟩
    simp only [if_neg hlast, hget, hcheck, if_true]

/-- An accepted archive is installed in full. -/
theorem install_published {host : Host} (hhost : Reliable host) {repo name : Text}
    {fs : FileSystem} {es : List Ustar.Entry} {tail : List UInt8}
    (hfetch : fetch host repo name fs = some (Ustar.archive es tail))
    (hlength : (Ustar.archive es tail).length < 2 ^ 31) {fuel : ℕ} (hfuel : es.length < fuel) :
    (install host fuel repo name fs).2 = .code 0 ∧
      ∀ p, (install host fuel repo name fs).1.files p =
        ((installLog host name (es.map memberOf)).final p).or (fs.files p) := by
  have hwalk := walk_archive_zero hlength hfuel
  have hcode : (install host fuel repo name fs).2 = .code 0 := by
    obtain ⟨e, he⟩ := visitAll_of_write hhost.write 0 (es.map memberOf) ⟨fs, none, []⟩
    rw [install_of_fetch hfetch, hwalk]
    simp only [he]
  refine ⟨hcode, fun p => ?_⟩
  rw [files_install hfetch hcode, hwalk]

def helloControl : Text :=
  "Package: hello".toList

theorem isControlText_helloControl : IsControlText (helloControl ++ ['\n']) "hello".toList :=
  ⟨[helloControl], rfl, by decide, by decide, by decide⟩

def controlName : Text :=
  "./control".toList

theorem controlName_ne_nil : controlName ≠ [] := by
  decide

theorem nul_not_mem_controlName : Char.ofNat 0 ∉ controlName := by
  decide

theorem length_encode_controlName : (encode controlName).length ≤ 100 := by
  decide

/-- The control member of a package with no other settings. -/
def controlFile (ctrl : Text) : Ustar.Entry :=
  plain controlName (byte '0') (encode ctrl) controlName_ne_nil nul_not_mem_controlName
    length_encode_controlName

theorem name_controlFile (ctrl : Text) : (controlFile ctrl).name = "./control".toList :=
  rfl

theorem typeflag_controlFile (ctrl : Text) : (controlFile ctrl).typeflag = byte '0' :=
  rfl

theorem content_controlFile (ctrl : Text) : (controlFile ctrl).content = encode ctrl :=
  rfl

/-- A control file of one line, without its line end. -/
def helloSource : Published where
  ctrl := helloControl
  control := controlFile helloControl
  payload := [helloFile]
  tail := []
  name_control := name_controlFile helloControl
  typeflag_control := typeflag_controlFile helloControl
  content_control := content_controlFile helloControl
  name := "hello".toList
  isControlText := Or.inr isControlText_helloControl

theorem length_archive_helloSource : helloSource.archive.length = 3072 := by
  have hctrl : (encode helloControl).length = 14 := by decide
  simp [Mkrepo.Source.archive, helloSource, controlFile, Ustar.length_archive, Ustar.length_encode,
    helloFile, plain, hctrl]

def helloIndex : List UInt8 :=
  encode (Mkrepo.index [helloSource.build "mips".toList])

theorem length_encode_le (s : Text) : (encode s).length ≤ 4 * s.length := by
  induction s with
  | nil => exact Nat.le_refl 0
  | cons c s ih =>
      have hc := Char.utf8Size_le_four c
      rw [encode_cons, List.length_append, String.length_utf8EncodeChar, List.length_cons]
      omega

theorem length_hex_sha256 (bytes : List UInt8) :
    (Sha256.hex (Fips180.sha256 bytes)).length = 64 := by
  have hhex : ∀ bs : List UInt8, (Sha256.hex bs).length = 2 * bs.length := by
    intro bs
    simp [Sha256.hex, hex2, List.length_flatMap, Nat.mul_comm]
  rw [hhex]
  simp [Fips180.sha256, toBe32, toLe32]

theorem length_stanza (b : Mkrepo.Built) : (Mkrepo.stanza b).length =
    b.ctrl.length + b.ipk.length + (decimal b.size).length + b.sha.length + 32 := by
  have hnl : "\n".toList.length = 1 := rfl
  have hfilename : "Filename: ".toList.length = 10 := rfl
  have hsize : "Size: ".toList.length = 6 := rfl
  have hsum : "SHA256sum: ".toList.length = 11 := rfl
  simp only [Mkrepo.stanza, List.length_append, hnl, hfilename, hsize, hsum]
  omega

theorem length_helloIndex : (okResponse ++ helloIndex).length < 2 ^ 31 := by
  have hresponse : okResponse.length = 19 := by decide
  have hctrl : helloControl.length = 14 := by decide
  have hipk : (helloSource.ipk "mips".toList).length = 16 := by decide
  have hsize : (decimal 3072).length = 4 := by decide
  have hindex : (Mkrepo.index [helloSource.build "mips".toList]).length = 130 := by
    rw [Mkrepo.index, List.flatMap_singleton, length_stanza]
    simp only [Mkrepo.Source.build, length_hex_sha256, length_archive_helloSource, hipk, hsize]
    simp only [helloSource, hctrl]
  have hencode := length_encode_le (Mkrepo.index [helloSource.build "mips".toList])
  rw [List.length_append, helloIndex]
  omega

theorem length_helloResponse : (okResponse ++ helloSource.archive).length < 2 ^ 31 := by
  have hresponse : okResponse.length = 19 := by decide
  rw [List.length_append, length_archive_helloSource, hresponse]
  decide

/-- A server that sends the index when it is asked for it, and else the archive. -/
def publisher : Host :=
  { quietHost with
    connect := fun _ req =>
      if req = encode (request "/packages/Packages".toList "downloads.lwrt.local".toList) then
        .ok ⟨okResponse ++ helloIndex, length_helloIndex⟩
      else .ok ⟨okResponse ++ helloSource.archive, length_helloResponse⟩ }

theorem run_helloSource : Mkrepo.run "mips".toList [helloSource.toSource] =
    some [("hello_0_mips.ipk".toList, helloSource.archive), ("Packages".toList, helloIndex)] := by
  have hipk : helloSource.ipk "mips".toList = "hello_0_mips.ipk".toList := by decide
  have hpkg : Mkrepo.controlField helloSource.ctrl "Package".toList ≠ [] := by decide
  rw [Mkrepo.run, if_pos ⟨by simp, by simpa using hpkg⟩, List.map_singleton, List.map_singleton,
    hipk]
  rfl

/-- What the server sends for a file of the feed. -/
theorem httpGet_publisher (file : Text) :
    httpGet publisher ("http://downloads.lwrt.local/packages".toList ++ '/' :: file) =
      if file = "Packages".toList then .ok helloIndex else .ok helloSource.archive := by
  have hhttp : "http://".toList.isPrefixOf
      ("http://downloads.lwrt.local/packages".toList ++ '/' :: file) = true := rfl
  have hrest : ("http://downloads.lwrt.local/packages".toList ++ '/' :: file).drop 7 =
      "downloads.lwrt.local".toList ++ '/' :: ("packages/".toList ++ file) := rfl
  have hhost : before '/' ("downloads.lwrt.local".toList ++ '/' :: ("packages/".toList ++ file)) =
      "downloads.lwrt.local".toList := by
    rw [before_append_of_not_mem (by decide)]
    rfl
  have hrequest : encode (request ('/' :: ("packages/".toList ++ file))
      (before ':' "downloads.lwrt.local".toList)) =
        encode (request "/packages/Packages".toList "downloads.lwrt.local".toList) ↔
      file = "Packages".toList := by
    refine ⟨fun heq => ?_, fun heq => by rw [heq]; rfl⟩
    have htext := Option.some.inj ((fromUtf8_encode _).symm.trans
      ((congrArg fromUtf8 heq).trans (fromUtf8_encode _)))
    have hpath : "/packages/Packages".toList = '/' :: ("packages/".toList ++ "Packages".toList) :=
      rfl
    have hname : before ':' "downloads.lwrt.local".toList = "downloads.lwrt.local".toList := rfl
    rw [request, request, hpath, hname] at htext
    have hsame := List.append_cancel_left (List.append_cancel_right (List.append_cancel_right
      (List.append_cancel_right htext)))
    exact List.append_cancel_left (List.cons.inj hsame).2
  have hsplit : splitOnce '/' ("downloads.lwrt.local".toList ++ '/' :: ("packages/".toList ++ file)) =
      some ("downloads.lwrt.local".toList, "packages/".toList ++ file) :=
    splitOnce_append (by decide) _
  rw [httpGet, if_pos hhttp]
  simp only [hrest, hhost, hsplit, publisher, hrequest]
  by_cases hfile : file = "Packages".toList
  · simp only [if_pos hfile, responseBody_okResponse]
  · simp only [if_neg hfile, responseBody_okResponse]

theorem serves_helloSource : Serves publisher "http://downloads.lwrt.local/packages".toList
    [("hello_0_mips.ipk".toList, helloSource.archive), ("Packages".toList, helloIndex)] := by
  intro file body hfinal
  have hmem := WriteLog.mem_of_final hfinal
  rw [List.mem_cons, List.mem_singleton] at hmem
  rcases hmem with heq | heq
  · obtain ⟨rfl, rfl⟩ := Prod.mk.inj heq
    rw [httpGet_publisher, if_neg (by decide)]
  · obtain ⟨rfl, rfl⟩ := Prod.mk.inj heq
    rw [httpGet_publisher, if_pos rfl]

/-- A disk with an empty configuration. -/
def blankDisk : FileSystem :=
  emptyDisk.write .done (Path.resolve [] "/etc/lwrt/config".toList) []

theorem repoOf_blankDisk :
    repoOf publisher blankDisk = "http://downloads.lwrt.local/packages".toList := by
  decide +kernel

theorem wellNamed_helloSource : WellNamed "mips".toList [helloSource] where
  names := by simp
  archives := by simp
  line := by
    rw [List.forall_mem_singleton]
    decide
  length := by
    rw [List.forall_mem_singleton, length_archive_helloSource]
    decide

end Lwrt.Ipkg
