import Lwrt.Verification.Ipkg.Feed
import Lwrt.Verification.Sha256.Streaming

/-! # Nothing is installed that the index does not vouch for -/

namespace Lwrt.Ipkg

open Library Text

/-- The stanza for the package vouches for a downloaded body: by its last `SHA256sum`, and by its
last `Size` where that is a number. -/
structure Vouches (host : Host) (repo name : Text) (fs : FileSystem) (index stanza : Text)
    (body : List UInt8) : Prop where
  read : fs.readToString (Path.resolve host.cwd packages) = some index
  first : stanzaFor index name = some stanza
  download : httpGet host (repo ++ '/' :: (entryOf name stanza).filename) = .ok body
  digest : ∃ want, lastField "SHA256sum".toList stanza = some want ∧
    eqIgnoreAsciiCase (Sha256.hex (Fips180.sha256 body)) want = true
  size : ∀ n, (lastField "Size".toList stanza).bind (parseUnsigned (2 ^ 32)) = some n →
    body.length = n

/-! ## The download -/

theorem length_responseBody {raw body : List UInt8} (h : responseBody raw = .ok body) :
    body.length ≤ raw.length := by
  rw [responseBody] at h
  split at h
  · cases h
  · simp only at h
    split at h
    · cases h
      rw [List.length_drop]
      omega
    · cases h

/-- A downloaded body fits in memory. -/
theorem length_httpGet {host : Host} {url : Text} {body : List UInt8}
    (h : httpGet host url = .ok body) : body.length < 2 ^ 31 := by
  rw [httpGet] at h
  split at h
  · simp only at h
    split at h
    · cases h
    · rename_i raw _
      exact Nat.lt_of_le_of_lt (length_responseBody h) raw.2
  · cases h

theorem digest_eq {body : List UInt8} (h : body.length < 2 ^ 31) :
    Sha256.digest body = Fips180.sha256 body :=
  Sha256.Represents.finish_eq (Sha256.represents_new.update body) (by simp; omega)

/-! ## The decision -/

theorem checkBlob_iff (entry : Entry) (blob : List UInt8) :
    checkBlob entry blob = true ↔
      (∀ n, entry.size = some n → blob.length = n) ∧ ∃ want, entry.sha256 = some want ∧
        eqIgnoreAsciiCase (Sha256.hex (Sha256.digest blob)) want = true := by
  rw [checkBlob, Bool.and_eq_true]
  apply and_congr
  · cases entry.size with
    | none => simp
    | some sz => simp
  · cases entry.sha256 with
    | none => simp
    | some want => simp

/-- What passes is what the stanza vouches for. -/
theorem fetch_eq_some_iff (host : Host) (repo name : Text) (fs : FileSystem) (body : List UInt8) :
    fetch host repo name fs = some body ↔
      ∃ index stanza, Vouches host repo name fs index stanza body := by
  constructor
  · intro h
    rw [fetch] at h
    cases hread : fs.readToString (Path.resolve host.cwd packages) with
    | none => simp [hread] at h
    | some index =>
        simp only [hread, findEntry_eq] at h
        cases hfirst : stanzaFor index name with
        | none => simp [hfirst] at h
        | some stanza =>
            simp only [hfirst, Option.map_some] at h
            cases hget : httpGet host (repo ++ '/' :: (entryOf name stanza).filename) with
            | error e => simp [hget] at h
            | ok blob =>
                simp only [hget, Option.ite_none_right_eq_some, Option.some.injEq] at h
                obtain ⟨hcheck, rfl⟩ := h
                obtain ⟨hsize, hdigest⟩ := (checkBlob_iff _ _).mp hcheck
                rw [digest_eq (length_httpGet hget)] at hdigest
                exact ⟨index, stanza, hread, hfirst, hget, hdigest, hsize⟩
  · rintro ⟨index, stanza, hread, hfirst, hget, hdigest, hsize⟩
    have hcheck : checkBlob (entryOf name stanza) body = true := by
      rw [checkBlob_iff, digest_eq (length_httpGet hget)]
      exact ⟨hsize, hdigest⟩
    simp only [fetch, hread, findEntry_eq, hfirst, Option.map_some, hget, if_pos hcheck]

theorem install_of_fetch_none {host : Host} {repo name : Text} {fs : FileSystem}
    (h : fetch host repo name fs = none) (fuel : ℕ) :
    install host fuel repo name fs = (fs, .code 1) := by
  rw [install, h]

/-- The decision depends on the first matching stanza only. -/
theorem fetch_congr {host : Host} {repo name : Text} {fs fs' : FileSystem} {index index' : Text}
    (h : fs.readToString (Path.resolve host.cwd packages) = some index)
    (h' : fs'.readToString (Path.resolve host.cwd packages) = some index')
    (hstanza : stanzaFor index' name = stanzaFor index name) :
    fetch host repo name fs' = fetch host repo name fs := by
  simp only [fetch, h, h', findEntry_eq, hstanza]

/-- If an install changes the file system, the first stanza for the package vouches for the body.
In every other case it fails and changes nothing. Other stanzas have no say. -/
theorem install_verified (host : Host) (fuel : ℕ) (repo name : Text) (fs : FileSystem) :
    ((install host fuel repo name fs).1 ≠ fs →
      ∃ index stanza body, Vouches host repo name fs index stanza body) ∧
    ((¬∃ index stanza body, Vouches host repo name fs index stanza body) →
      install host fuel repo name fs = (fs, .code 1)) ∧
    ∀ (fs' : FileSystem) (index index' : Text),
      fs.readToString (Path.resolve host.cwd packages) = some index →
      fs'.readToString (Path.resolve host.cwd packages) = some index' →
      stanzaFor index' name = stanzaFor index name →
      fetch host repo name fs' = fetch host repo name fs := by
  have hrefuse : (¬∃ index stanza body, Vouches host repo name fs index stanza body) →
      install host fuel repo name fs = (fs, .code 1) := by
    intro hno
    apply install_of_fetch_none
    cases hfetch : fetch host repo name fs with
    | none => rfl
    | some body =>
        obtain ⟨index, stanza, hvouches⟩ := (fetch_eq_some_iff host repo name fs body).mp hfetch
        exact absurd ⟨index, stanza, body, hvouches⟩ hno
  refine ⟨?_, hrefuse, fun fs' index index' h h' => fetch_congr h h'⟩
  intro hchange
  by_contra hno
  rw [hrefuse hno] at hchange
  exact hchange rfl

/-! ## A feed with one package -/

/-- An index with one stanza, for a package whose archive is `blob`. -/
def indexFor (blob : List UInt8) : Text :=
  unlines ["Package: hello".toList,
    "SHA256sum".toList ++ ':' :: ' ' :: Sha256.hex (Sha256.digest blob)] ++ ['\n']

def okResponse : List UInt8 :=
  Utf8.encode "HTTP/1.0 200 OK\r\n\r\n".toList

/-- A server that answers every request with `blob`. -/
def serve (blob : List UInt8) (h : (okResponse ++ blob).length < 2 ^ 31) (host : Host) : Host :=
  { host with connect := fun _ _ => .ok ⟨okResponse ++ blob, h⟩ }

/-- The index of the feed is on the disk. -/
def publish (blob : List UInt8) (fs : FileSystem) : FileSystem :=
  fs.write .done (Path.resolve [] packages) (Utf8.encode (indexFor blob))

def feed : Text :=
  "http://feed".toList

theorem isToken_hex {bytes : List UInt8} (h : bytes ≠ []) : IsToken (Sha256.hex bytes) := by
  induction bytes with
  | nil => exact absurd rfl h
  | cons b bytes ih =>
      rw [Sha256.hex, List.flatMap_cons]
      cases bytes with
      | nil =>
          rw [List.flatMap_nil, List.append_nil]
          exact isToken_hex2 b
      | cons c bytes => exact (isToken_hex2 b).append (ih (by simp))

theorem isToken_hex_digest (blob : List UInt8) : IsToken (Sha256.hex (Sha256.digest blob)) :=
  isToken_hex (by simp [Sha256.digest, Sha256.State.finish, Sha256.Words.toList, Sha256.toBeBytes])

theorem fieldOf_sha256sum (blob : List UInt8) :
    fieldOf ("SHA256sum".toList ++ ':' :: ' ' :: Sha256.hex (Sha256.digest blob)) =
      some ("SHA256sum".toList, Sha256.hex (Sha256.digest blob)) := by
  have hval : trim (' ' :: Sha256.hex (Sha256.digest blob)) = Sha256.hex (Sha256.digest blob) :=
    (trim_blank_append (b := [' ']) (by simp [isWhitespace]) _).trans
      (trim_token (isToken_hex_digest blob))
  rw [fieldOf, splitOnce_append (by decide), Option.map_some, hval]
  rfl

/-- The only entry is the one with the digest of the archive. -/
theorem findEntry_indexFor (blob : List UInt8) :
    findEntry (indexFor blob) "hello".toList =
      some ⟨"hello.ipk".toList, none, some (Sha256.hex (Sha256.digest blob))⟩ := by
  have hpackage : fieldOf "Package: hello".toList = some ("Package".toList, "hello".toList) := by
    decide
  have hsum := fieldOf_sha256sum blob
  have hnl : '\n' ∉ "SHA256sum".toList ++ ':' :: ' ' :: Sha256.hex (Sha256.digest blob) := by
    rw [List.mem_append, List.mem_cons, List.mem_cons, not_or, not_or, not_or]
    exact ⟨by decide, by decide, by decide, (isToken_hex_digest blob).newline_not_mem⟩
  rw [indexFor]
  generalize "SHA256sum".toList ++ ':' :: ' ' :: Sha256.hex (Sha256.digest blob) = line at *
  generalize Sha256.hex (Sha256.digest blob) = sum at *
  have hlog : ["Package: hello".toList, line].filterMap fieldOf =
      [("Package".toList, "hello".toList), ("SHA256sum".toList, sum)] := by
    rw [List.filterMap_cons_some hpackage, List.filterMap_cons_some hsum, List.filterMap_nil]
  have hls : ∀ l ∈ ["Package: hello".toList, line], '\n' ∉ l ∧ l ≠ [] := by
    have hne : line ≠ [] := by
      rintro rfl
      cases hsum
    rw [List.forall_mem_cons, List.forall_mem_singleton]
    exact ⟨by decide, hnl, hne⟩
  rw [findEntry_unlines hls (by rw [hlog]; rfl), hlog]
  rfl

theorem responseBody_okResponse (blob : List UInt8) :
    responseBody (okResponse ++ blob) = .ok blob :=
  rfl

/-- A package of the feed passes. -/
theorem fetch_published (host : Host) (fs : FileSystem) (blob : List UInt8)
    (h : (okResponse ++ blob).length < 2 ^ 31) :
    fetch (serve blob h host) feed "hello".toList (publish blob fs) = some blob := by
  have hread : (publish blob fs).readToString (Path.resolve (serve blob h host).cwd packages) =
      some (indexFor blob) := by
    rw [Path.resolve_of_head? (by decide), FileSystem.readToString, publish,
      FileSystem.files_write_self, Outcome.stored, Option.some_or, Option.bind_some,
      Utf8.fromUtf8_encode]
  have hget : httpGet (serve blob h host) (feed ++ '/' :: "hello.ipk".toList) = .ok blob := by
    have hhttp : "http://".toList.isPrefixOf (feed ++ '/' :: "hello.ipk".toList) = true := by decide
    rw [httpGet, if_pos hhttp]
    simp only [serve, responseBody_okResponse]
  have hcheck : checkBlob ⟨"hello.ipk".toList, none, some (Sha256.hex (Sha256.digest blob))⟩ blob =
      true := by
    simp only [checkBlob, eqIgnoreAsciiCase, Bool.true_and, beq_self_eq_true]
  simp only [fetch, hread, findEntry_indexFor, hget, hcheck, if_true]

end Lwrt.Ipkg
