import Lwrt.Verification.Ipkg.Archive

/-! # The offsets of the headers

Addresses are 32 bits wide. The loop comes to the headers of the archive as long as none of them is
within the last 512 addresses or behind them. -/

namespace Lwrt.Ipkg

open Library Text Utf8

/-! ## Headers and the loop -/

/-- The next header by the size in this one, in arithmetic that does not wrap. -/
def nextHeader (data : List UInt8) (off : ℕ) : Option ℕ :=
  if off + 512 ≤ data.length then
    let hdr := extract data off 512
    if hdr.all (· = 0) then none
    else some (off + 512 + (octal (extract hdr 124 12) + 511) / 512 * 512)
  else none

/-- The offsets of the headers, by the sizes in the archive. -/
inductive Header (data : List UInt8) : ℕ → Prop where
  | first : Header data 0
  | next {off n : ℕ} : Header data off → nextHeader data off = some n → Header data n

/-- The offsets that the loop comes to. -/
inductive Reaches (data : List UInt8) : ℕ → Prop where
  | first : Reaches data 0
  | next {off n : ℕ} {m : Member} :
      Reaches data off → turn data off = .member m n → Reaches data n

/-- The extraction ends, every slice starts before its end, and the offsets increase. -/
structure Safe (data : List UInt8) : Prop where
  ends : ∀ host fs, ∃ fuel, (extractUstar host fuel data fs).2 ≠ .running
  slices : ∀ host fuel fs, (extractUstar host fuel data fs).2 ≠ .panicked
  increasing : ∀ off n m, Reaches data off → turn data off = .member m n → off < n

theorem octal_lt (b : List UInt8) : octal b < 2 ^ 32 := by
  simp only [octal, parseOctal]
  generalize (if trim (cstr b) = [] then "0".toList else trim (cstr b)) = s
  split
  · rename_i h
    exact h.2.2
  · decide

theorem Header.aligned {data : List UInt8} {off : ℕ} (h : Header data off) : off % 512 = 0 := by
  induction h with
  | first => rfl
  | next _ hnext ih =>
      simp only [nextHeader] at hnext
      split at hnext
      · split at hnext
        · cases hnext
        · cases hnext
          omega
      · cases hnext

/-! ## One turn -/

/-- Without a next header the loop stops. -/
theorem turn_of_nextHeader_none {data : List UInt8} {off : ℕ} (hoff : off + 512 < 2 ^ 32)
    (h : nextHeader data off = none) : turn data off = .stop := by
  rw [turn, usize_of_lt hoff]
  simp only [nextHeader] at h
  split at h
  · rename_i hlen
    split at h
    · rename_i hzero
      rw [if_pos hlen, if_neg (by omega)]
      simp only [hzero, if_true]
    · cases h
  · rename_i hlen
    rw [if_neg hlen]

/-- What the size in a header says about the next one, and what the loop makes of it. -/
structure Advance (data : List UInt8) (off n size : ℕ) : Prop where
  inside : off + 512 ≤ data.length
  next : n = off + 512 + (size + 511) / 512 * 512
  bound : size < 2 ^ 32
  panics : usize (off + 512 + size) < off + 512 → turn data off = .panicked
  advances : off + 512 ≤ usize (off + 512 + size) →
    ∃ m, turn data off = .member m (usize (off + 512 + align512 size))

theorem advance_of_nextHeader {data : List UInt8} {off n : ℕ} (hoff : off + 512 < 2 ^ 32)
    (h : nextHeader data off = some n) : ∃ size, Advance data off n size := by
  simp only [nextHeader] at h
  split at h
  · rename_i hlen
    split at h
    · cases h
    · rename_i hzero
      refine ⟨octal (extract (extract data off 512) 124 12), hlen, (Option.some.inj h).symm,
        octal_lt _, fun hwrap => ?_, fun hfit => ?_⟩
      · rw [turn, usize_of_lt hoff, if_pos hlen, if_neg (by omega)]
        dsimp only
        rw [if_neg hzero, if_pos (by omega)]
      · rw [turn, usize_of_lt hoff, if_pos hlen, if_neg (by omega)]
        dsimp only
        rw [if_neg hzero, if_neg (by omega)]
        exact ⟨_, rfl⟩
  · cases h

/-- A header that fits in is where the loop goes on. -/
theorem turn_of_nextHeader {data : List UInt8} {off n : ℕ} (hoff : off + 512 < 2 ^ 32)
    (h : nextHeader data off = some n) (hn : n + 512 < 2 ^ 32) :
    ∃ m, turn data off = .member m n := by
  obtain ⟨size, hadv⟩ := advance_of_nextHeader hoff h
  have hnext := hadv.next
  obtain ⟨m, hturn⟩ := hadv.advances (by
    rw [usize_of_lt (by omega)]
    omega)
  refine ⟨m, ?_⟩
  rw [hturn, align512, usize_of_lt (n := size + 511) (by omega), usize_of_lt (by omega), hnext]

/-- One that does not ends in a slice that starts after its end, or the loop goes on at the start
or at the end of the addresses. -/
theorem turn_of_overflow {data : List UInt8} {off n : ℕ} (hoff : off + 512 < 2 ^ 32)
    (haligned : off % 512 = 0) (h : nextHeader data off = some n) (hn : 2 ^ 32 ≤ n + 512) :
    turn data off = .panicked ∨ (∃ m, turn data off = .member m 0) ∨
      ∃ m, turn data off = .member m (2 ^ 32 - 512) := by
  obtain ⟨size, hadv⟩ := advance_of_nextHeader hoff h
  have hnext := hadv.next
  have hsize := hadv.bound
  by_cases hwrap : off + 512 + size < 2 ^ 32
  · obtain ⟨m, hturn⟩ := hadv.advances (by
      rw [usize_of_lt hwrap]
      omega)
    rw [align512, usize_of_lt (n := size + 511) (by omega), ← hnext] at hturn
    have hlast : n = 2 ^ 32 ∨ n = 2 ^ 32 - 512 := by omega
    rcases hlast with rfl | rfl
    · exact .inr (.inl ⟨m, hturn.trans (by rw [usize, Nat.mod_self])⟩)
    · exact .inr (.inr ⟨m, hturn.trans (by rw [usize_of_lt (by decide)])⟩)
  · left
    apply hadv.panics
    rw [usize]
    omega

/-- No header starts at the end of the addresses. -/
theorem turn_last (data : List UInt8) : turn data (2 ^ 32 - 512) = .panicked := by
  have hwrap : usize (2 ^ 32 - 512 + 512) = 0 := by
    rw [usize]
    rfl
  rw [turn, hwrap, if_pos (Nat.zero_le _), if_pos (by decide)]

/-! ## The whole loop -/

/-- The loop continues from every offset that it comes to. -/
theorem walk_of_reaches {data : List UInt8} {off : ℕ} (h : Reaches data off) (fuel : ℕ) :
    ∃ fuel', (walk data fuel' 0).2 = (walk data fuel off).2 := by
  induction h generalizing fuel with
  | first => exact ⟨fuel, rfl⟩
  | next _ hturn ih =>
      obtain ⟨fuel', hwalk⟩ := ih (fuel + 1)
      refine ⟨fuel', hwalk.trans ?_⟩
      rw [walk, hturn]

/-- A host on which every call succeeds lets the loop go to its end. -/
theorem extractUstar_quietHost (fuel : ℕ) (data : List UInt8) (fs : FileSystem) :
    ∃ e, (extractUstar quietHost fuel data fs).2 = (walk data fuel 0).2.ending e := by
  obtain ⟨e, he⟩ :=
    visitAll_of_write quietHost_reliable.write 0 (walk data fuel 0).1 ⟨fs, none, []⟩
  refine ⟨e, ?_⟩
  rw [extractUstar, extractFrom_eq, he]

theorem Safe.turn_ne_panicked {data : List UInt8} {off : ℕ} (hsafe : Safe data)
    (h : Reaches data off) : turn data off ≠ .panicked := by
  intro hturn
  obtain ⟨fuel, hwalk⟩ := walk_of_reaches h 1
  obtain ⟨e, he⟩ := extractUstar_quietHost fuel data emptyDisk
  rw [walk, hturn] at hwalk
  rw [hwalk] at he
  exact hsafe.slices quietHost fuel emptyDisk he

/-- While it is safe, the loop comes to every header, and none is at the end of the addresses. -/
theorem Safe.header {data : List UInt8} {off : ℕ} (hsafe : Safe data) (h : Header data off) :
    Reaches data off ∧ off + 512 < 2 ^ 32 := by
  induction h with
  | first => exact ⟨.first, by decide⟩
  | @next off n h hnext ih =>
      obtain ⟨hreach, hoff⟩ := ih
      have hturn := hsafe.turn_ne_panicked hreach
      by_cases hn : n + 512 < 2 ^ 32
      · obtain ⟨m, hmember⟩ := turn_of_nextHeader hoff hnext hn
        exact ⟨hreach.next hmember, hn⟩
      · rcases turn_of_overflow hoff h.aligned hnext (Nat.le_of_not_lt hn) with
          hpanic | ⟨m, hmember⟩ | ⟨m, hmember⟩
        · exact absurd hpanic hturn
        · exact absurd (hsafe.increasing off 0 m hreach hmember) (Nat.not_lt_zero _)
        · exact absurd (turn_last data) (hsafe.turn_ne_panicked (hreach.next hmember))

/-! ## Headers that fit in -/

section

variable {data : List UInt8} (hfit : ∀ off, Header data off → off + 512 < 2 ^ 32)
include hfit

/-- At a header the loop stops or goes on at the next one. -/
theorem turn_of_header {off : ℕ} (h : Header data off) :
    turn data off = .stop ∨ ∃ m n, turn data off = .member m n ∧ Header data n ∧
      off + 512 ≤ data.length ∧ off + 512 ≤ n := by
  cases hnext : nextHeader data off with
  | none => exact .inl (turn_of_nextHeader_none (hfit _ h) hnext)
  | some n =>
      have hheader := h.next hnext
      obtain ⟨m, hturn⟩ := turn_of_nextHeader (hfit _ h) hnext (hfit _ hheader)
      obtain ⟨size, hadv⟩ := advance_of_nextHeader (hfit _ h) hnext
      have hn := hadv.next
      exact .inr ⟨m, n, hturn, hheader, hadv.inside, by omega⟩

theorem header_of_reaches {off : ℕ} (h : Reaches data off) : Header data off := by
  induction h with
  | first => exact .first
  | next _ hturn ih =>
      rcases turn_of_header hfit ih with hstop | ⟨m, n, hmember, hheader, -, -⟩
      · rw [hstop] at hturn
        cases hturn
      · rw [hmember] at hturn
        cases hturn
        exact hheader

theorem walk_ne_panicked {off : ℕ} (h : Header data off) (fuel : ℕ) :
    (walk data fuel off).2 ≠ .panicked := by
  induction fuel generalizing off with
  | zero =>
      simp [walk]
  | succ fuel ih =>
      rcases turn_of_header hfit h with hstop | ⟨m, n, hmember, hheader, -, -⟩
      · simp [walk, hstop]
      · rw [walk, hmember]
        exact ih hheader

/-- Every turn leaves less of the archive. -/
theorem walk_ended {off fuel : ℕ} (h : Header data off) (hfuel : data.length ≤ off + fuel) :
    (walk data (fuel + 1) off).2 = .ended := by
  induction fuel generalizing off with
  | zero =>
      rcases turn_of_header hfit h with hstop | ⟨m, n, -, -, hinside, -⟩
      · rw [walk, hstop]
      · omega
  | succ fuel ih =>
      rcases turn_of_header hfit h with hstop | ⟨m, n, hmember, hheader, -, hn⟩
      · rw [walk, hstop]
      · rw [walk, hmember]
        exact ih hheader (by omega)

theorem safe_of_headers : Safe data := by
  constructor
  · intro host fs
    refine ⟨data.length + 1, ?_⟩
    rw [extractUstar, extractFrom_eq, walk_ended hfit .first (by omega)]
    split <;> simp [Stop.ending]
  · intro host fuel fs
    have hwalk := walk_ne_panicked hfit .first fuel
    rw [extractUstar, extractFrom_eq]
    split
    · simp
    · cases hstop : (walk data fuel 0).2 with
      | ended => simp [Stop.ending]
      | panicked => exact absurd hstop hwalk
      | running => simp [Stop.ending]
  · intro off n m h hturn
    rcases turn_of_header hfit (header_of_reaches hfit h) with hstop | ⟨_, _, hmember, -, -, hn⟩
    · rw [hstop] at hturn
      cases hturn
    · rw [hmember] at hturn
      cases hturn
      omega

end

/-- The extraction ends without a panic and its offsets increase, exactly if every header starts
before the last 512 addresses. -/
theorem extraction_safe_iff (data : Vec) :
    Safe data.1 ↔ ∀ off, Header data.1 off → off + 512 < 2 ^ 32 :=
  ⟨fun hsafe _ h => (hsafe.header h).2, safe_of_headers⟩

/-- A header alone, with the name `a` and a size. -/
def lone (size : Text) : List UInt8 :=
  [byte 'a'] ++ List.replicate 123 0 ++ size.map byte ++ List.replicate (388 - size.length) 0

/-- The largest size there is panics. -/
theorem largest_panics : ¬ Safe (lone "37777777777".toList) := by
  intro hsafe
  exact hsafe.slices quietHost 1 emptyDisk (by decide +kernel)

/-- With a size that fills the addresses up, the loop comes back to the first header. -/
example : ∃ m, turn (lone "37777776001".toList) 0 = .member m 0 :=
  ⟨⟨['a'], 0, []⟩, by decide +kernel⟩

end Lwrt.Ipkg
