import Lwrt.Library.Machine
import Lwrt.Verification.Mtd.Flashing

/-! # Commands in a row

Whatever flash commands are run, and however the device behaves, a byte of the flash that no
request to erase covers stays as it is. -/

namespace Lwrt.Mtd

open Library Mtdchar

/-! ## What requests cover -/

/-- The bytes that a request is for. -/
def EraseRequest.Covers (e : EraseRequest) (j : ℕ) : Prop :=
  e.start ≤ j ∧ j < e.start + e.length

/-- The partition `p` at `dev` became `q`: only bytes that the requests cover have changed. -/
structure Swept (dev : Path) (p q : Partition) (requests : List EraseRequest) : Prop where
  info : q.info = p.info
  device : ∀ e ∈ requests, e.dev = dev
  unchanged : ∀ j, (∀ e ∈ requests, ¬e.Covers j) → q.bytes[j]? = p.bytes[j]?

theorem Swept.refl (dev : Path) (p : Partition) : Swept dev p p [] :=
  ⟨rfl, by simp, fun _ _ => rfl⟩

theorem Swept.trans {dev : Path} {p q r : Partition} {a b : List EraseRequest}
    (h : Swept dev p q a) (h' : Swept dev q r b) : Swept dev p r (a ++ b) where
  info := h'.info.trans h.info
  device := List.forall_mem_append.mpr ⟨h.device, h'.device⟩
  unchanged := by
    intro j hj
    obtain ⟨ha, hb⟩ := List.forall_mem_append.mp hj
    exact (h'.unchanged j hb).trans (h.unchanged j ha)

theorem getElem?_erase (o : Erasure) (bytes : List UInt8) {i n j : ℕ}
    (h : ¬(i ≤ j ∧ j < i + n)) : (o.apply bytes i n)[j]? = bytes[j]? := by
  cases o with
  | done => rw [Erasure.apply, getElem?_overlay]; simp [h]
  | failed left => rw [Erasure.apply, getElem?_overlay]; simp [h]

theorem getElem?_program (o : Programming) (bytes : List UInt8) {i j : ℕ} {data : List UInt8}
    (h : ¬(i ≤ j ∧ j < i + data.length)) : (o.apply bytes i data)[j]? = bytes[j]? := by
  cases o with
  | done => rw [Programming.apply, getElem?_overlay]; simp [h]
  | failed mask => rw [Programming.apply, getElem?_overlay]; simp [h]

theorem swept_memErase (dev : Path) (p : Partition) (o : Erasure) {off bs : ℕ}
    (hoff : off < 2 ^ 32) (hbs : bs < 2 ^ 32) :
    Swept dev p (p.memErase o (eraseInfo off bs)).2 [⟨dev, off, bs⟩] := by
  obtain ⟨hstart, hlength⟩ := field_eraseInfo hoff hbs
  refine ⟨?_, by simp, ?_⟩
  · rw [Partition.memErase]
    split <;> rfl
  · intro j hj
    have hout : ¬(off ≤ j ∧ j < off + bs) := hj _ (List.mem_singleton_self _)
    rw [Partition.memErase]
    split
    · rw [Partition.withBytes_bytes, hstart, hlength]
      exact getElem?_erase o p.bytes hout
    · rfl

/-- The loop changes only what it asks to be erased, and where it gets to its end it has asked for
all. -/
theorem eraseLoop_swept (host : Host) (dev : Path) {bs stop : ℕ} (hbs : bs < 2 ^ 32)
    (hstop : stop < 2 ^ 32) {fuel off : ℕ} {p : Partition} {erases : List EraseRequest} {r : Bool × Partition × List EraseRequest}
    (h : eraseLoop host dev bs stop fuel off p erases = .ok r) :
    ∃ requests, r.2.2 = erases ++ requests ∧ Swept dev p r.2.1 requests ∧
      (r.1 = true → ∀ j, off ≤ j → j < stop → ∃ e ∈ requests, e.Covers j) := by
  induction fuel generalizing off p erases with
  | zero => cases h
  | succ fuel ih =>
      rw [eraseLoop] at h
      split at h
      · rename_i hlt
        have hblock := swept_memErase dev p (host.erase off) (hlt.trans hstop) hbs
        generalize p.memErase (host.erase off) (eraseInfo off bs) = out at h hblock
        obtain ⟨ok, q⟩ := out
        cases ok with
        | false =>
            obtain rfl := Except.ok.inj h
            exact ⟨[⟨dev, off, bs⟩], rfl, hblock, by simp⟩
        | true =>
            dsimp only at h
            rw [u32] at h
            split at h
            · obtain ⟨requests, hlog, hswept, hall⟩ := ih h
              refine ⟨⟨dev, off, bs⟩ :: requests, ?_, hblock.trans hswept, ?_⟩
              · rw [hlog, List.append_assoc, List.singleton_append]
              · intro hr j hlo hhi
                rcases Nat.lt_or_ge j (off + bs) with hin | hout
                · exact ⟨⟨dev, off, bs⟩, List.mem_cons_self, hlo, hin⟩
                · obtain ⟨e, he, hcovers⟩ := hall hr j hout hhi
                  exact ⟨e, List.mem_cons_of_mem _ he, hcovers⟩
            · cases h
      · rename_i hend
        obtain rfl := Except.ok.inj h
        refine ⟨[], by simp, Swept.refl dev p, ?_⟩
        intro _ j hlo hhi
        omega

theorem eraseRange_eq (host : Host) (dev : Path) (p : Partition) {len : ℕ}
    (hlen : len ≤ p.bytes.length) (erases : List EraseRequest) :
    eraseRange host dev (getInfo p) 0 len p erases =
      eraseLoop host dev p.erasesize (roundUp p len) (roundUp p len + 1) 0 p erases := by
  have hlt := length_lt p
  have hround := roundUp_le hlen
  have hbs : max (getInfo p).erasesize 1 = p.erasesize := Nat.max_eq_left p.erasesize_pos
  have hsum : min (0 + len) (2 ^ 32 - 1) = len := by omega
  have hpos : 0 < p.erasesize := p.erasesize_pos
  have hup : divCeil len p.erasesize * p.erasesize = roundUp p len := by
    rw [divCeil_eq len hpos, roundUp]
  simp only [eraseRange, hbs, hsum, hup, size_getInfo, u32, bind, Except.bind]
  rw [if_pos (by omega)]
  simp only [Nat.min_eq_left hround, Nat.zero_mod, Nat.sub_zero]

/-- Each request is for a block of the partition. -/
def Blocks (p : Partition) (requests : List EraseRequest) : Prop :=
  ∀ e ∈ requests, e.length = p.erasesize ∧ p.erasesize ∣ e.start ∧
    e.start + e.length ≤ p.bytes.length

/-- Erasing from the start on for `len` bytes. -/
theorem eraseRange_swept (host : Host) (dev : Path) {p : Partition} {len : ℕ}
    (hlen : len ≤ p.bytes.length) (erases : List EraseRequest) :
    ∃ r requests, eraseRange host dev (getInfo p) 0 len p erases = .ok r ∧
      r.2.2 = erases ++ requests ∧ Blocks p requests ∧ Swept dev p r.2.1 requests ∧
      (r.1 = true → ∀ j < len, ∃ e ∈ requests, e.Covers j) := by
  have hlt := length_lt p
  have hround := roundUp_le hlen
  have hle := le_roundUp p len
  have hblock : p.erasesize < 2 ^ 32 := field_lt p.info 12
  obtain ⟨r, hrange, hspec⟩ := eraseRange_erased host dev p erases hlen
  obtain ⟨requests, hlog, hconfined⟩ := hspec.confined hlen
  have hloop := hrange
  rw [eraseRange_eq host dev p hlen] at hloop
  obtain ⟨requests', hlog', hswept, hall⟩ := eraseLoop_swept host dev hblock (by omega) hloop
  obtain rfl := List.append_cancel_left (hlog.symm.trans hlog')
  refine ⟨r, requests, hrange, hlog, ?_, hswept, fun hr j hj => hall hr j (Nat.zero_le j) (by omega)⟩
  intro e he
  obtain ⟨-, hlength, hstart⟩ := hconfined.aligned e he
  exact ⟨hlength, hstart, hconfined.inside e he⟩

/-! ## What a command keeps -/

/-- A run of commands made `w'` of `w`: the devices are the same, and on each of them only bytes
that the new requests cover have changed. Each request is for a block of its device. -/
structure Kept (w w' : World) (requests : List EraseRequest) : Prop where
  log : w'.erases = w.erases ++ requests
  absent : ∀ dev, w.devices dev = none → w'.devices dev = none
  present : ∀ dev p, w.devices dev = some p → ∃ q, w'.devices dev = some q ∧
    Swept dev p q (requests.filter (·.dev = dev))
  inside : ∀ e ∈ requests, ∃ p, w.devices e.dev = some p ∧ e.length = p.erasesize ∧
    p.erasesize ∣ e.start ∧ e.start + e.length ≤ p.bytes.length

theorem Kept.of_same {w w' : World} (hdevices : w'.devices = w.devices)
    (herases : w'.erases = w.erases) : Kept w w' [] where
  log := by rw [herases, List.append_nil]
  absent := fun dev h => by rw [hdevices, h]
  present := fun dev p h => ⟨p, by rw [hdevices, h], Swept.refl dev p⟩
  inside := by simp

theorem Kept.trans {u v w : World} {a b : List EraseRequest} (h : Kept u v a) (h' : Kept v w b) :
    Kept u w (a ++ b) where
  log := by rw [h'.log, h.log, List.append_assoc]
  absent := fun dev hdev => h'.absent dev (h.absent dev hdev)
  present := by
    intro dev p hp
    obtain ⟨q, hq, hpq⟩ := h.present dev p hp
    obtain ⟨r, hr, hqr⟩ := h'.present dev q hq
    rw [List.filter_append]
    exact ⟨r, hr, hpq.trans hqr⟩
  inside := by
    refine List.forall_mem_append.mpr ⟨h.inside, ?_⟩
    intro e he
    obtain ⟨q, hq, hlength, hstart, hend⟩ := h'.inside e he
    cases hp : u.devices e.dev with
    | none =>
        rw [h.absent e.dev hp] at hq
        cases hq
    | some p =>
        obtain ⟨q', hq', hswept⟩ := h.present e.dev p hp
        obtain rfl := Option.some.inj (hq'.symm.trans hq)
        have hsize : q'.erasesize = p.erasesize := by
          rw [Partition.erasesize, hswept.info]
          rfl
        rw [hsize] at hlength hstart
        rw [length_bytes_eq hswept.info] at hend
        exact ⟨p, rfl, hlength, hstart, hend⟩

/-- One device was worked on. -/
theorem Kept.of_store {w w₁ : World} (hdevices : w₁.devices = w.devices)
    {dev : Path} {p q : Partition} (hp : w.devices dev = some p) {requests : List EraseRequest}
    (hblocks : Blocks p requests) (hswept : Swept dev p q requests) :
    Kept w (w₁.store dev q (w.erases ++ requests)) requests where
  log := rfl
  absent := by
    intro d hd
    have hne : d ≠ dev := by
      rintro rfl
      rw [hp] at hd
      cases hd
    simp only [World.store, if_neg hne, hdevices, hd]
  present := by
    intro d p' hd
    by_cases hdev : d = dev
    · subst hdev
      obtain rfl := Option.some.inj (hp.symm.trans hd)
      have hall : requests.filter (·.dev = d) = requests :=
        List.filter_eq_self.mpr fun e he => decide_eq_true (hswept.device e he)
      rw [hall]
      exact ⟨q, by simp [World.store], hswept⟩
    · have hnone : requests.filter (·.dev = d) = [] := by
        rw [List.filter_eq_nil_iff]
        intro e he
        rw [hswept.device e he, decide_eq_true_eq]
        exact Ne.symm hdev
      rw [hnone]
      exact ⟨p', by simp only [World.store, if_neg hdev, hdevices, hd], Swept.refl d p'⟩
  inside := by
    intro e he
    exact ⟨p, by rw [hswept.device e he, hp], hblocks e he⟩

theorem devices_readImage (host : Host) (w : World) (img : Text) :
    (readImage host w img).2.devices = w.devices ∧ (readImage host w img).2.erases = w.erases := by
  obtain ⟨stdin, hworld⟩ := readImage_world host w img
  rw [hworld]
  exact ⟨rfl, rfl⟩

theorem kept_readImage (host : Host) (w : World) (img : Text) :
    Kept w (readImage host w img).2 [] :=
  .of_same (devices_readImage host w img).1 (devices_readImage host w img).2

/-- Writing where all was to be erased. -/
theorem Swept.writeAll {dev : Path} {p q : Partition} {requests : List EraseRequest}
    (h : Swept dev p q requests) (o : Programming) {data : List UInt8}
    (hfits : data.length ≤ p.bytes.length)
    (hall : ∀ j < data.length, ∃ e ∈ requests, e.Covers j) :
    Swept dev p (q.writeAll o data).2 requests := by
  have hlen : q.bytes.length = p.bytes.length := length_bytes_eq h.info
  rw [Partition.writeAll, if_pos (by omega)]
  refine ⟨h.info, h.device, ?_⟩
  intro j hj
  have hout : ¬(0 ≤ j ∧ j < 0 + data.length) := by
    rintro ⟨-, hlt⟩
    obtain ⟨e, he, hcovers⟩ := hall j (by omega)
    exact hj e he hcovers
  rw [Partition.withBytes_bytes, getElem?_program o q.bytes hout]
  exact h.unchanged j hj

theorem kept_write (host : Host) (w : World) (img part : Text) {r : ℕ × World}
    (h : write host w img part = .ok r) : ∃ requests, Kept w r.2 requests := by
  obtain ⟨hdevices, herases⟩ := devices_readImage host w img
  by_cases hopens : ∃ data dev p, Opens host w img part data dev p
  · obtain ⟨data, dev, p, hopen⟩ := hopens
    rcases Nat.lt_or_ge p.bytes.length data.length with hlong | hfits
    · rw [write_of_lt hopen hlong] at h
      obtain rfl := Except.ok.inj h
      exact ⟨[], kept_readImage host w img⟩
    · have hlt := length_lt p
      have hp : w.devices dev = some p := hdevices ▸ devices_of_openPart hopen.part
      obtain ⟨⟨erased, q, erases⟩, requests, herase, hlog, hblocks, hswept, hall⟩ :=
        eraseRange_swept host dev hfits w.erases
      obtain rfl : erases = w.erases ++ requests := hlog
      rw [hopen.write_eq] at h
      simp only at h
      rw [if_neg (by rw [size_getInfo]; omega), Nat.mod_eq_of_lt (by omega), herases, herase] at h
      refine ⟨requests, ?_⟩
      cases erased with
      | false =>
          obtain rfl := Except.ok.inj h
          exact .of_store hdevices hp hblocks hswept
      | true =>
          obtain rfl := Except.ok.inj h
          exact .of_store hdevices hp hblocks (hswept.writeAll host.write hfits (hall rfl))
  · rw [write_of_not_opens fun data dev p hopen => hopens ⟨data, dev, p, hopen⟩] at h
    obtain rfl := Except.ok.inj h
    exact ⟨[], kept_readImage host w img⟩

/-- The command returns, and keeps the rest of the flash. -/
def Runs (w : World) (r : Except Stop (ℕ × World)) : Prop :=
  ∃ code w' requests, r = .ok (code, w') ∧ Kept w w' requests

theorem Runs.unchanged (w : World) (code : ℕ) : Runs w (.ok (code, w)) :=
  ⟨code, w, [], rfl, .of_same rfl rfl⟩

theorem runs_write (host : Host) (w : World) (img part : Text) :
    Runs w (write host w img part) := by
  obtain ⟨code, w', hwrite, -⟩ := write_safe host w img part
  obtain ⟨requests, hkept⟩ := kept_write host w img part hwrite
  exact ⟨code, w', requests, hwrite, hkept⟩

theorem runs_erase (host : Host) (w : World) (part : Text) : Runs w (erase host w part) := by
  rw [erase]
  split
  · exact .unchanged w 1
  · rename_i dev p hopen
    obtain ⟨⟨erased, q, erases⟩, requests, herase, hlog, hblocks, hswept, -⟩ :=
      eraseRange_swept host dev (Nat.le_refl p.bytes.length) w.erases
    obtain rfl : erases = w.erases ++ requests := hlog
    simp only [size_getInfo, herase, bind, Except.bind]
    exact ⟨_, _, requests, rfl, .of_store rfl (devices_of_openPart hopen) hblocks hswept⟩

theorem kept_verify (host : Host) (w : World) (img part : Text) :
    Kept w (verify host w img part).2 [] := by
  have hread := kept_readImage host w img
  rw [verify]
  split
  · rename_i w₁ heq
    rwa [heq] at hread
  · rename_i data w₁ heq
    rw [heq] at hread
    split
    · exact hread
    · split <;> exact hread

theorem runs_run (host : Host) (w : World) (args : List Text) : Runs w (run host w args) := by
  cases args with
  | nil => exact .unchanged w _
  | cons cmd args =>
      simp only [run]
      split_ifs
      · exact .unchanged w _
      · cases args with
        | nil => exact .unchanged w 2
        | cons img args =>
            cases args with
            | nil => exact .unchanged w 2
            | cons part args => exact runs_write host w img part
      · cases args with
        | nil => exact .unchanged w 2
        | cons part args => exact runs_erase host w part
      · cases args with
        | nil => exact .unchanged w 2
        | cons img args =>
            cases args with
            | nil => exact .unchanged w 2
            | cons part args => exact ⟨_, _, [], rfl, kept_verify host w img part⟩
      · exact .unchanged w 2

end Lwrt.Mtd

namespace Lwrt.Sysupgrade

open Library Mtd

theorem kept_backupConfig (host : Host) (w : World) : Kept w (backupConfig host w) [] := by
  unfold backupConfig
  split
  · exact Kept.of_same rfl rfl
  · exact Kept.of_same rfl rfl

theorem runs_run (host : Host) (w : World) (args : List Text) : Runs w (run host w args) := by
  cases hparse : parse args with
  | error e =>
      rw [run, hparse]
      exact .unchanged w 2
  | ok opts =>
      cases hvalid : validate host w opts with
      | error e =>
          simp only [run, hparse, hvalid]
          exact .unchanged w 1
      | ok size =>
          obtain ⟨img, himg⟩ := image_of_validate hvalid
          by_cases htest : opts.testOnly = true
          · simp only [run, hparse, hvalid, if_pos htest]
            exact .unchanged w 0
          · obtain ⟨w₁, hw₁, hbackup⟩ : ∃ w₁,
                (if opts.keepConfig then backupConfig host w else w) = w₁ ∧ Kept w w₁ [] := by
              refine ⟨_, rfl, ?_⟩
              split
              · exact kept_backupConfig host w
              · exact .of_same rfl rfl
            obtain ⟨rc, w₂, requests, hwrite, hkept⟩ := runs_write host w₁ img opts.part
            have hall := hbackup.trans hkept
            simp only [run, hparse, hvalid, if_neg htest, himg, hw₁, hwrite, bind, Except.bind]
            split
            · exact ⟨rc, w₂, _, rfl, hall⟩
            · exact ⟨0, _, _, rfl, hall.log, hall.absent, hall.present, hall.inside⟩

/-! ## Runs -/

inductive Command where
  | mtd (args : List Text)
  | sysupgrade (args : List Text)

/-- A command, and how the device behaves while it runs. -/
structure Call where
  host : Host
  command : Command

def execute (w : World) (c : Call) : Except Stop (ℕ × World) :=
  match c.command with
  | .mtd args => Mtd.run c.host w args
  | .sysupgrade args => run c.host w args

/-- One command after the other. -/
def session : Machine World Call (Except Stop ℕ) := fun w c =>
  match execute w c with
  | .ok (code, w') => (w', [.ok code])
  | .error stop => (w, [.error stop])

theorem runs_execute (w : World) (c : Call) : Runs w (execute w c) := by
  rw [execute]
  split
  · exact Mtd.runs_run c.host w _
  · exact runs_run c.host w _

theorem session_step (w : World) (c : Call) :
    ∃ code requests, (session w c).2 = [.ok code] ∧ Kept w (session w c).1 requests := by
  obtain ⟨code, w', requests, hexecute, hkept⟩ := runs_execute w c
  rw [session, hexecute]
  exact ⟨code, requests, rfl, hkept⟩

/-- In every run of flash commands each of them returns. On each device only bytes have changed that
a request to erase covers, and each request is for one block inside its device. -/
theorem session_kept (w : World) (calls : List Call) :
    (∀ r ∈ (session.run w calls).2, ∃ code, r = .ok code) ∧
      ∃ requests, Kept w (session.run w calls).1 requests := by
  induction calls generalizing w with
  | nil => exact ⟨by simp, [], .of_same rfl rfl⟩
  | cons c calls ih =>
      obtain ⟨code, requests, hcode, hkept⟩ := session_step w c
      obtain ⟨hcodes, more, hmore⟩ := ih (session w c).1
      rw [Machine.run_cons, hcode]
      refine ⟨?_, requests ++ more, hkept.trans hmore⟩
      exact List.forall_mem_cons.mpr ⟨⟨code, rfl⟩, hcodes⟩

/-- An image that was flashed stays until a block of it is to be erased. -/
theorem flashed_survives {host : Host} {w w' : World} {img part : Text} {data : List UInt8}
    {dev : Path} {p : Mtdchar.Partition} (hopens : Opens host w img part data dev p)
    (hwrite : Mtd.write host w img part = .ok (0, w')) (calls : List Call) :
    ∃ requests q, Kept w' (session.run w' calls).1 requests ∧
      (session.run w' calls).1.devices dev = some q ∧
      ((∀ e ∈ requests, e.dev = dev → data.length ≤ e.start) →
        q.bytes.take data.length = data) := by
  obtain ⟨code, w'', hagain, hsafe⟩ := write_safe host w img part
  obtain ⟨rfl, rfl⟩ := Prod.mk.inj (Except.ok.inj (hwrite.symm.trans hagain))
  obtain ⟨data', dev', p', q₀, hopens', hq₀, hstored⟩ := (hsafe.flashed rfl).stored
  obtain ⟨rfl, rfl, rfl⟩ := hopens'.unique hopens
  obtain ⟨-, requests, hkept⟩ := session_kept w' calls
  obtain ⟨q, hq, hswept⟩ := hkept.present dev q₀ hq₀
  refine ⟨requests, q, hkept, hq, ?_⟩
  intro hlater
  refine Eq.trans ?_ hstored
  apply List.ext_getElem?
  intro j
  rw [List.getElem?_take, List.getElem?_take]
  split
  · rename_i hj
    apply hswept.unchanged
    intro e he
    obtain ⟨hmem, hdev⟩ := List.mem_filter.mp he
    have hstart := hlater e hmem (of_decide_eq_true hdev)
    rintro ⟨hlo, -⟩
    omega
  · rfl

theorem flashed_survives_sample :
    ∃ w' requests q, Kept w' (session.run w' [⟨sampleHost, .mtd ["erase".toList]⟩]).1 requests ∧
      (session.run w' [⟨sampleHost, .mtd ["erase".toList]⟩]).1.devices
        ["dev".toList, "mtd0".toList] = some q ∧
      ((∀ e ∈ requests, e.dev = ["dev".toList, "mtd0".toList] → 3 ≤ e.start) →
        q.bytes.take 3 = [7, 8, 9]) := by
  have hopens : Opens sampleHost sampleWorld ['-'] "mtd0".toList [7, 8, 9]
      ["dev".toList, "mtd0".toList] samplePartition := ⟨rfl, rfl⟩
  obtain ⟨code, w', hwrite, -⟩ := write_safe sampleHost sampleWorld ['-'] "mtd0".toList
  have hcode : (Mtd.write sampleHost sampleWorld ['-'] "mtd0".toList).map Prod.fst = .ok 0 := by
    decide +kernel
  rw [hwrite] at hcode
  obtain rfl : code = 0 := Except.ok.inj hcode
  exact ⟨w', flashed_survives hopens hwrite [⟨sampleHost, .mtd ["erase".toList]⟩]⟩

end Lwrt.Sysupgrade
