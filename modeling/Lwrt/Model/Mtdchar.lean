import Lwrt.Library.Endian
import Lwrt.Library.Flash

/-! The kernel's side of a flash partition: the character device with the geometry it reports.
Unlocking is left out, since whether a locked block was unlocked shows in how its erasing ends. -/

namespace Lwrt.Mtdchar

open Library

/-- A 32-bit field of a structure that `ioctl` passes. The targets are little-endian. -/
def field (buf : List UInt8) (off : ℕ) : ℕ :=
  ofLeBytes (extract buf off 4)

/-- A partition of whole blocks. -/
structure Partition where
  /-- `mtd_info_user`, with the size at 8 and the size of a block at 12. -/
  info : List UInt8
  bytes : List UInt8
  length_bytes : bytes.length = field info 8
  erasesize_pos : 0 < field info 12
  erasesize_dvd : field info 12 ∣ field info 8

namespace Partition

def erasesize (p : Partition) : ℕ :=
  field p.info 12

/-- The same partition with other contents. -/
def withBytes (p : Partition) (bytes : List UInt8) (h : bytes.length = p.bytes.length) :
    Partition :=
  { p with
    bytes := bytes
    length_bytes := h.trans p.length_bytes }

@[simp]
theorem withBytes_bytes (p : Partition) (bytes : List UInt8)
    (h : bytes.length = p.bytes.length) : (p.withBytes bytes h).bytes = bytes := rfl

@[simp]
theorem withBytes_info (p : Partition) (bytes : List UInt8)
    (h : bytes.length = p.bytes.length) : (p.withBytes bytes h).info = p.info := rfl

/-- `MEMERASE` of an `erase_info_user`: whole blocks inside the partition, else it is refused. -/
def memErase (p : Partition) (o : Erasure) (ei : List UInt8) : Bool × Partition :=
  if p.erasesize ∣ field ei 0 ∧ p.erasesize ∣ field ei 4 ∧
      field ei 0 + field ei 4 ≤ p.bytes.length then
    (o.ok, p.withBytes (o.apply p.bytes (field ei 0) (field ei 4)) (by simp))
  else (false, p)

/-- `write_all` from the start of the device, which ends where the partition ends. -/
def writeAll (p : Partition) (o : Programming) (data : List UInt8) : Bool × Partition :=
  if data.length ≤ p.bytes.length then
    (o.ok, p.withBytes (o.apply p.bytes 0 data) (by simp))
  else (false, p.withBytes (o.apply p.bytes 0 (data.take p.bytes.length)) (by simp))

/-- `read_exact` of `n` bytes from the start of the device. -/
def readExact (p : Partition) (n : ℕ) : Option (List UInt8) :=
  if n ≤ p.bytes.length then some (p.bytes.take n) else none

end Partition

end Lwrt.Mtdchar
