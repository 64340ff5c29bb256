import Mathlib.Logic.Function.Basic
import Lwrt.Applet.Sysupgrade
import Lwrt.Verification.Mtd.Erasing

/-! # Flashing an image

What lies beyond the blocks of the image is never touched, and an upgrade reboots only into an
image that is on the flash. -/

namespace Lwrt.Mtd

open Library Mtdchar

/-- The partition `p` became `q` through requests for an image of `len` bytes. -/
structure Confined (dev : Path) (p q : Partition) (len : ℕ) (requests : List EraseRequest) :
    Prop where
  info : q.info = p.info
  aligned : ∀ e ∈ requests, e.dev = dev ∧ e.length = p.erasesize ∧ p.erasesize ∣ e.start
  inside : ∀ e ∈ requests, e.start + e.length ≤ p.bytes.length
  once : requests.Nodup
  beyond : q.bytes.drop (roundUp p len) = p.bytes.drop (roundUp p len)

theorem Erased.confined {p : Partition} {dev : Path} {len : ℕ} (hlen : len ≤ p.bytes.length)
    {earlier : List EraseRequest} {r : Bool × Partition × List EraseRequest}
    (h : Erased p dev (roundUp p len) earlier r) :
    ∃ requests, r.2.2 = earlier ++ requests ∧ Confined dev p r.2.1 len requests := by
  obtain ⟨m, hm, hrequests⟩ := h.requests
  refine ⟨_, hrequests, h.info, ?_, ?_, nodup_blockRequests dev p.erasesize_pos m, h.beyond⟩
  · intro e he
    obtain ⟨k, -, rfl⟩ := mem_blockRequests he
    exact ⟨rfl, rfl, Nat.dvd_mul_left _ _⟩
  · intro e he
    obtain ⟨k, hk, rfl⟩ := mem_blockRequests he
    have hblock : (k + 1) * p.erasesize ≤ m * p.erasesize := Nat.mul_le_mul_right _ hk
    rw [Nat.add_mul, Nat.one_mul] at hblock
    exact hblock.trans (hm.trans (roundUp_le hlen))

theorem length_bytes_eq {p q : Partition} (h : q.info = p.info) :
    q.bytes.length = p.bytes.length := by
  rw [q.length_bytes, p.length_bytes, h]

/-! ## The command -/

/-- The image reads as `data`, and the partition opens as `p` at `dev`. -/
structure Opens (host : Host) (w : World) (img part : Text) (data : List UInt8) (dev : Path)
    (p : Partition) : Prop where
  image : (readImage host w img).1 = some data
  part : openPart host (readImage host w img).2 part = .ok (dev, p)

theorem readImage_world (host : Host) (w : World) (img : Text) :
    ∃ stdin, (readImage host w img).2 = { w with stdin := stdin } := by
  unfold readImage
  split
  · exact ⟨_, rfl⟩
  · exact ⟨w.stdin, rfl⟩

theorem devices_of_openPart {host : Host} {w : World} {part : Text} {dev : Path} {p : Partition}
    (h : openPart host w part = .ok (dev, p)) : w.devices dev = some p := by
  unfold openPart World.device at h
  split at h
  · cases h
  · split at h
    · cases h
    · rename_i hdevice
      split at hdevice
      · cases hdevice
      · obtain ⟨rfl, rfl⟩ := Prod.mk.inj (Except.ok.inj h)
        exact hdevice

section Write

variable {host : Host} {w : World} {img part : Text} {data : List UInt8} {dev : Path}
  {p : Partition}

theorem Opens.unique (h : Opens host w img part data dev p) {data' : List UInt8} {dev' : Path}
    {p' : Partition} (h' : Opens host w img part data' dev' p') :
    data' = data ∧ dev' = dev ∧ p' = p := by
  have hdata := h'.image.symm.trans h.image
  have hpart := h'.part.symm.trans h.part
  obtain ⟨hdev, hp⟩ := Prod.mk.inj (Except.ok.inj hpart)
  exact ⟨Option.some.inj hdata, hdev, hp⟩

theorem write_of_not_opens (h : ∀ data dev p, ¬Opens host w img part data dev p) :
    write host w img part = .ok (1, (readImage host w img).2) := by
  rw [write]
  split
  · rename_i w₁ hread
    rw [hread]
  · rename_i data w₁ hread
    split
    · rw [hread]
    · rename_i dev p hopen
      exact absurd ⟨by rw [hread], by rw [hread, hopen]⟩ (h data dev p)

theorem Opens.write_eq (h : Opens host w img part data dev p) :
    write host w img part =
      let w₁ := (readImage host w img).2
      if (getInfo p).size < data.length then .ok (1, w₁)
      else (eraseRange host dev (getInfo p) 0 (data.length % 2 ^ 32) p w₁.erases).bind fun r =>
        if r.1 then
          .ok (if (r.2.1.writeAll host.write data).1 then 0 else 1,
            w₁.store dev (r.2.1.writeAll host.write data).2 r.2.2)
        else .ok (1, w₁.store dev r.2.1 r.2.2) := by
  have hread : readImage host w img = (some data, (readImage host w img).2) :=
    Prod.ext h.image rfl
  rw [write, hread]
  simp only [h.part]
  rfl

theorem write_of_lt (h : Opens host w img part data dev p)
    (hlong : p.bytes.length < data.length) :
    write host w img part = .ok (1, (readImage host w img).2) := by
  rw [h.write_eq]
  exact if_pos (by rwa [size_getInfo])

/-- An image that fits is erased for and written, with one of three outcomes. -/
theorem write_of_le (h : Opens host w img part data dev p)
    (hfits : data.length ≤ p.bytes.length) :
    ∃ code q requests,
      write host w img part =
        .ok (code, (readImage host w img).2.store dev q (w.erases ++ requests)) ∧
      Confined dev p q data.length requests ∧
      (code = 0 → q.bytes.take data.length = data) := by
  have hlt := length_lt p
  have herases : (readImage host w img).2.erases = w.erases := by
    obtain ⟨stdin, hworld⟩ := readImage_world host w img
    rw [hworld]
  obtain ⟨⟨erased, q, erases⟩, herase, hspec⟩ := eraseRange_erased host dev p w.erases hfits
  obtain ⟨requests, rfl, hconfined⟩ := hspec.confined hfits
  have hlen : q.bytes.length = p.bytes.length := length_bytes_eq hconfined.info
  rw [h.write_eq]
  simp only
  rw [if_neg (by rw [size_getInfo]; omega), Nat.mod_eq_of_lt (by omega), herases, herase]
  cases erased with
  | false => exact ⟨1, q, requests, rfl, hconfined, by simp⟩
  | true =>
      have hblank := hspec.blank rfl
      have hwrite : q.writeAll host.write data =
          (host.write.ok, q.withBytes (host.write.apply q.bytes 0 data) (by simp)) := by
        rw [Partition.writeAll, if_pos (by omega)]
      have hbeyond : (host.write.apply q.bytes 0 data).drop (roundUp p data.length) =
          p.bytes.drop (roundUp p data.length) := by
        rw [Programming.drop_apply _ _ (by rw [Nat.zero_add]; exact le_roundUp p _)]
        exact hconfined.beyond
      simp only [Except.bind, if_true, hwrite]
      refine ⟨_, _, requests, rfl, { hconfined with beyond := hbeyond }, ?_⟩
      intro hcode
      cases ho : host.write with
      | failed mask => simp [ho, Programming.ok] at hcode
      | done =>
          rw [Partition.withBytes_bytes, hblank]
          exact program_blank (roundUp_le hfits) (le_roundUp p _)

/-- Erasing a whole partition leaves every bit set, where it succeeds. -/
theorem erase_whole (h : openPart host w part = .ok (dev, p)) :
    ∃ code q requests, erase host w part = .ok (code, w.store dev q (w.erases ++ requests)) ∧
      Confined dev p q p.bytes.length requests ∧
      (code = 0 → q.bytes = List.replicate p.bytes.length 0xFF) := by
  have hround : roundUp p p.bytes.length = p.bytes.length :=
    Nat.le_antisymm (roundUp_le (Nat.le_refl _)) (le_roundUp p _)
  obtain ⟨⟨erased, q, erases⟩, herase, hspec⟩ :=
    eraseRange_erased host dev p w.erases (Nat.le_refl p.bytes.length)
  obtain ⟨requests, rfl, hconfined⟩ := hspec.confined (Nat.le_refl _)
  refine ⟨if erased then 0 else 1, q, requests, ?_, hconfined, ?_⟩
  · simp only [erase, h, size_getInfo, herase, bind, Except.bind]
  · intro hcode
    cases erased with
    | false => simp at hcode
    | true =>
        rw [hspec.blank rfl, hround, blank, List.drop_length, List.append_nil]

end Write

/-! ## Reading back -/

/-- `mtd write` succeeded: the image is at the start of the partition, and comparing the two says
so. -/
structure Flashed (host : Host) (w : World) (img part : Text) (w' : World) : Prop where
  success : write host w img part = .ok (0, w')
  stored : ∃ data dev p q, Opens host w img part data dev p ∧ w'.devices dev = some q ∧
    q.bytes.take data.length = data
  verified : (verify host { w' with stdin := w.stdin } img part).1 = 0

section Verify

variable {host : Host} {w : World} {img part : Text} {data : List UInt8} {dev : Path}
  {p q : Partition}

theorem openPart_store (h : openPart host w part = .ok (dev, p)) (erases : List EraseRequest)
    (stdin : Option (List UInt8)) :
    openPart host { w.store dev q erases with stdin := stdin } part = .ok (dev, q) := by
  unfold openPart World.device at h ⊢
  simp only [World.store]
  split at h
  · cases h
  · rename_i path hresolve
    split at h
    · cases h
    · rename_i hdevice
      obtain ⟨rfl, rfl⟩ := Prod.mk.inj (Except.ok.inj h)
      split at hdevice
      · cases hdevice
      · rename_i hname
        simp only [hname, if_true, if_false, Bool.false_eq_true]

/-- Reading gives the image again, also where it is the device itself that was read. -/
theorem read_store {cwd : Path} (hread : w.read cwd img = some data)
    (hdev : w.devices dev = some p) (hlen : q.bytes.length = p.bytes.length)
    (hstored : q.bytes.take data.length = data) (erases : List EraseRequest) :
    (w.store dev q erases).read cwd img = some data := by
  unfold World.read World.device World.regular at hread ⊢
  by_cases hname : Path.namesDirectory img = true
  · rwa [if_pos hname, if_pos hname] at hread ⊢
  · rw [if_neg hname, if_neg hname] at hread ⊢
    simp only [World.store]
    split
    · rename_i hsame
      rw [hsame, hdev, Option.map_some, Option.some_or] at hread
      obtain rfl := Option.some.inj hread
      rw [Option.map_some, Option.some_or, ← hstored, ← hlen, List.take_length]
    · exact hread

/-- The image is there to be read once more after the device was written. -/
theorem readImage_store (hread : (readImage host w img).1 = some data)
    (hdev : w.devices dev = some p) (hlen : q.bytes.length = p.bytes.length)
    (hstored : q.bytes.take data.length = data) (erases : List EraseRequest) :
    (readImage host (w.store dev q erases) img).1 = some data := by
  unfold readImage at hread ⊢
  split at hread
  · rename_i hdash
    rwa [if_pos hdash]
  · rename_i hdash
    rw [if_neg hdash]
    exact read_store hread hdev hlen hstored erases

theorem verify_eq_zero (h : Opens host w img part data dev p)
    (hstored : p.bytes.take data.length = data) : (verify host w img part).1 = 0 := by
  have hread : readImage host w img = (some data, (readImage host w img).2) :=
    Prod.ext h.image rfl
  have hsize : data.length ≤ p.bytes.length := by
    have htake := congrArg List.length hstored
    rw [List.length_take] at htake
    omega
  have hback : p.readExact data.length = some data := by
    rw [Partition.readExact, if_pos hsize, hstored]
  rw [verify, hread]
  simp only [h.part, hback, if_true]

theorem Opens.flashed (h : Opens host w img part data dev p) (hinfo : q.info = p.info)
    (hstored : q.bytes.take data.length = data) {erases : List EraseRequest}
    (hwrite : write host w img part = .ok (0, (readImage host w img).2.store dev q erases)) :
    Flashed host w img part ((readImage host w img).2.store dev q erases) := by
  obtain ⟨stdin, hworld⟩ := readImage_world host w img
  have hdev : w.devices dev = some p := by
    have hdev := devices_of_openPart h.part
    rwa [hworld] at hdev
  refine ⟨hwrite, ⟨data, dev, p, q, h, if_pos rfl, hstored⟩, ?_⟩
  have hstore : { (readImage host w img).2.store dev q erases with stdin := w.stdin } =
      w.store dev q erases := by
    rw [hworld]
    rfl
  rw [hstore]
  have hagain : Opens host (w.store dev q erases) img part data dev q := by
    constructor
    · exact readImage_store h.image hdev (length_bytes_eq hinfo) hstored erases
    · obtain ⟨stdin', hworld'⟩ := readImage_world host (w.store dev q erases) img
      have hopen := h.part
      rw [hworld] at hopen
      rw [hworld']
      exact openPart_store hopen erases stdin'
  exact verify_eq_zero hagain hstored

end Verify

/-! ## Every run -/

/-- What a run of `mtd write` with the code `code` and the world `w'` afterwards has kept. -/
structure WriteSafe (host : Host) (w : World) (img part : Text) (code : ℕ) (w' : World) :
    Prop where
  reboots : w'.reboots = w.reboots
  tooLong : ∀ data dev p, Opens host w img part data dev p → p.bytes.length < data.length →
    code ≠ 0 ∧ w'.devices = w.devices ∧ w'.erases = w.erases
  confined : ∀ data dev p, Opens host w img part data dev p → data.length ≤ p.bytes.length →
    ∃ q requests, w'.devices = Function.update w.devices dev (some q) ∧
      w'.erases = w.erases ++ requests ∧ Confined dev p q data.length requests
  flashed : code = 0 → Flashed host w img part w'

theorem write_safe (host : Host) (w : World) (img part : Text) :
    ∃ code w', write host w img part = .ok (code, w') ∧ WriteSafe host w img part code w' := by
  obtain ⟨stdin, hworld⟩ := readImage_world host w img
  by_cases hopens : ∃ data dev p, Opens host w img part data dev p
  · obtain ⟨data, dev, p, h⟩ := hopens
    rcases Nat.lt_or_ge p.bytes.length data.length with hlong | hfits
    · refine ⟨1, _, write_of_lt h hlong, by rw [hworld], ?_, ?_, by simp⟩
      · intro _ _ _ _ _
        rw [hworld]
        exact ⟨Nat.one_ne_zero, rfl, rfl⟩
      · intro data' dev' p' h' hfits
        obtain ⟨rfl, rfl, rfl⟩ := h.unique h'
        omega
    · obtain ⟨code, q, requests, hwrite, hconfined, hstored⟩ := write_of_le h hfits
      refine ⟨code, _, hwrite, by rw [hworld]; rfl, ?_, ?_, ?_⟩
      · intro data' dev' p' h' hlong
        obtain ⟨rfl, rfl, rfl⟩ := h.unique h'
        omega
      · intro data' dev' p' h' _
        obtain ⟨rfl, rfl, rfl⟩ := h.unique h'
        refine ⟨q, requests, ?_, rfl, hconfined⟩
        rw [hworld]
        funext d
        rw [Function.update_apply]
        rfl
      · rintro rfl
        exact h.flashed hconfined.info (hstored rfl) hwrite
  · have hnone : ∀ data dev p, ¬Opens host w img part data dev p :=
      fun data dev p h => hopens ⟨data, dev, p, h⟩
    exact ⟨1, _, write_of_not_opens hnone, by rw [hworld],
      fun data dev p h => absurd h (hnone data dev p),
      fun data dev p h => absurd h (hnone data dev p), by simp⟩

end Lwrt.Mtd

/-! ## Upgrades -/

namespace Lwrt.Sysupgrade

open Library Mtd

/-- What a run of `sysupgrade` with the world `w'` afterwards has kept. -/
structure UpgradeSafe (host : Host) (w : World) (args : List Text) (w' : World) : Prop where
  rebooted : w'.reboots ≠ w.reboots → ∃ opts img w₁ w₂, parse args = .ok opts ∧
    opts.image = some img ∧ Flashed host w₁ img opts.part w₂ ∧
    w' = { w₂ with reboots := w.reboots + 1 }
  testOnly : ∀ opts, parse args = .ok opts → opts.testOnly = true → w' = w

/-- A run that changes nothing. -/
theorem UpgradeSafe.unchanged (host : Host) (w : World) (args : List Text) :
    UpgradeSafe host w args w where
  rebooted := fun h => absurd rfl h
  testOnly := fun _ _ _ => rfl

theorem image_of_validate {host : Host} {w : World} {o : Opts} {size : ℕ}
    (h : validate host w o = .ok size) : ∃ img, o.image = some img := by
  cases himg : o.image with
  | some img => exact ⟨img, rfl⟩
  | none =>
      rw [validate, himg] at h
      cases h

theorem reboots_backupConfig (host : Host) (w : World) :
    (backupConfig host w).reboots = w.reboots := by
  unfold backupConfig
  split <;> rfl

theorem run_safe (host : Host) (w : World) (args : List Text) :
    ∃ code w', run host w args = .ok (code, w') ∧ UpgradeSafe host w args w' := by
  cases hparse : parse args with
  | error e => exact ⟨2, w, by rw [run, hparse], .unchanged host w args⟩
  | ok opts =>
      cases hvalid : validate host w opts with
      | error e =>
          exact ⟨1, w, by simp only [run, hparse, hvalid], .unchanged host w args⟩
      | ok size =>
          obtain ⟨img, himg⟩ := image_of_validate hvalid
          cases htest : opts.testOnly with
          | true =>
              exact ⟨0, w, by simp only [run, hparse, hvalid, htest, if_true],
                .unchanged host w args⟩
          | false =>
              have hreal : ∀ o, parse args = .ok o → o.testOnly ≠ true := by
                intro o ho
                obtain rfl := Except.ok.inj (hparse.symm.trans ho)
                simp [htest]
              obtain ⟨w₁, hw₁, hreboots⟩ : ∃ w₁,
                  (if opts.keepConfig then backupConfig host w else w) = w₁ ∧
                    w₁.reboots = w.reboots := by
                refine ⟨_, rfl, ?_⟩
                split
                · exact reboots_backupConfig host w
                · rfl
              obtain ⟨rc, w₂, hwrite, hsafe⟩ := write_safe host w₁ img opts.part
              by_cases hrc : rc = 0
              · subst hrc
                refine ⟨0, { w₂ with reboots := w₂.reboots + 1 }, ?_, ?_, ?_⟩
                · simp only [run, hparse, hvalid, htest, himg, hw₁, hwrite, bind, Except.bind]
                  rfl
                · intro _
                  refine ⟨opts, img, w₁, w₂, hparse, himg, hsafe.flashed rfl, ?_⟩
                  rw [hsafe.reboots, hreboots]
                · exact fun o ho htrue => absurd htrue (hreal o ho)
              · refine ⟨rc, w₂, ?_, ?_, ?_⟩
                · simp only [run, hparse, hvalid, htest, himg, hw₁, hwrite, bind, Except.bind]
                  exact if_pos hrc
                · exact fun h => absurd (hsafe.reboots.trans hreboots) h
                · exact fun o ho htrue => absurd htrue (hreal o ho)

/-- Writing an image and upgrading with one always return, and keep the rest of the flash. -/
theorem flashing_safe (host : Host) (w : World) :
    (∀ img part, ∃ code w', Mtd.write host w img part = .ok (code, w') ∧
      WriteSafe host w img part code w') ∧
    ∀ args, ∃ code w', run host w args = .ok (code, w') ∧ UpgradeSafe host w args w' :=
  ⟨write_safe host w, run_safe host w⟩

/-- Three blocks of two bytes. -/
def samplePartition : Mtdchar.Partition where
  info := List.replicate 8 0 ++ toLe32 6 ++ toLe32 2 ++ List.replicate 16 0
  bytes := [1, 2, 3, 4, 5, 6]
  length_bytes := by decide
  erasesize_pos := by decide
  erasesize_dvd := by decide

def sampleWorld : World where
  fs := ⟨fun _ => none, fun _ => false⟩
  devices := fun dev => if dev = ["dev".toList, "mtd0".toList] then some samplePartition else none
  stdin := some [7, 8, 9]
  erases := []
  reboots := 0

def sampleHost : Host where
  cwd := []
  erase := fun _ => .done
  write := .done
  backup := .done

theorem flashing_safe_sample :
    ∃ w', Mtd.write sampleHost sampleWorld ['-'] "mtd0".toList = .ok (0, w') ∧
      Flashed sampleHost sampleWorld ['-'] "mtd0".toList w' := by
  obtain ⟨code, w', hwrite, hsafe⟩ := (flashing_safe sampleHost sampleWorld).1 ['-'] "mtd0".toList
  have hcode : (Mtd.write sampleHost sampleWorld ['-'] "mtd0".toList).map Prod.fst = .ok 0 := by
    decide +kernel
  rw [hwrite] at hcode
  obtain rfl : code = 0 := Except.ok.inj hcode
  exact ⟨w', hwrite, hsafe.flashed rfl⟩

end Lwrt.Sysupgrade
