import Mathlib.Data.List.Basic

/-! Code that indexes buffers: every access is checked against the bounds, and one outside of them
ends the computation. -/

namespace Lwrt.Library

/-- An index or a slice out of bounds. -/
inductive Panic where
  | outOfBounds
deriving DecidableEq, Repr

abbrev Checked := Except Panic

namespace Checked

variable {α β : Type}

/-- `buf[i]`. -/
def get (buf : List α) (i : ℕ) : Checked α :=
  match buf[i]? with
  | some x => .ok x
  | none => .error .outOfBounds

/-- `buf[i] = x`. -/
def set (buf : List α) (i : ℕ) (x : α) : Checked (List α) :=
  if i < buf.length then .ok (buf.set i x) else .error .outOfBounds

/-- `buf[i..j]`. -/
def slice (buf : List α) (i j : ℕ) : Checked (List α) :=
  if i ≤ j ∧ j ≤ buf.length then .ok ((buf.take j).drop i) else .error .outOfBounds

@[simp] theorem ok_bind (x : α) (f : α → Checked β) : (Except.ok x >>= f) = f x := rfl

@[simp] theorem error_bind (p : Panic) (f : α → Checked β) :
    ((Except.error p : Checked α) >>= f) = .error p := rfl

theorem get_of_lt {buf : List α} {i : ℕ} (h : i < buf.length) : get buf i = .ok buf[i] := by
  rw [get, List.getElem?_eq_getElem h]

theorem set_of_lt {buf : List α} {i : ℕ} (h : i < buf.length) (x : α) :
    set buf i x = .ok (buf.set i x) :=
  if_pos h

theorem slice_of_le {buf : List α} {i j : ℕ} (h : i ≤ j) (hj : j ≤ buf.length) :
    slice buf i j = .ok ((buf.take j).drop i) :=
  if_pos ⟨h, hj⟩

end Checked

end Lwrt.Library
