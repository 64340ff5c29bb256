import Mathlib.Data.List.Basic

/-! Logs of keyed writes. The last write to a key is the one that counts. -/

namespace Lwrt.Library

abbrev WriteLog (κ β : Type*) := List (κ × β)

namespace WriteLog

variable {κ β : Type*} [DecidableEq κ]

/-- The value a key has after the writes of a log. -/
def final : WriteLog κ β → κ → Option β
  | [], _ => none
  | (k, v) :: log, key => (final log key).or (if k = key then some v else none)

@[simp]
theorem final_nil (key : κ) : final ([] : WriteLog κ β) key = none :=
  rfl

theorem final_cons (k : κ) (v : β) (log : WriteLog κ β) (key : κ) :
    final ((k, v) :: log) key = (final log key).or (if k = key then some v else none) :=
  rfl

/-- The later log decides, where it writes at all. -/
@[simp]
theorem final_append (a b : WriteLog κ β) (key : κ) :
    final (a ++ b) key = (final b key).or (final a key) := by
  induction a with
  | nil => simp
  | cons w a ih =>
      obtain ⟨k, v⟩ := w
      simp [final_cons, ih, Option.or_assoc]

theorem final_concat (log : WriteLog κ β) (k : κ) (v : β) (key : κ) :
    final (log ++ [(k, v)]) key = if k = key then some v else final log key := by
  rw [final_append, final_cons, final_nil, Option.none_or]
  split
  · rw [Option.some_or]
  · rw [Option.none_or]

theorem final_cons_self (key : κ) (v : β) (log : WriteLog κ β) :
    final ((key, v) :: log) key = some ((final log key).getD v) := by
  rw [final_cons, if_pos rfl]
  cases final log key <;> rfl

theorem final_cons_of_ne {k key : κ} (h : k ≠ key) (v : β) (log : WriteLog κ β) :
    final ((k, v) :: log) key = final log key := by
  rw [final_cons, if_neg h, Option.or_none]

/-- The last entry with the key. -/
theorem final_eq_getLast? (log : WriteLog κ β) (key : κ) :
    final log key = ((log.filter (·.1 = key)).getLast?).map Prod.snd := by
  induction log with
  | nil => rfl
  | cons w log ih =>
      obtain ⟨k, v⟩ := w
      rw [final_cons, ih, List.filter_cons]
      by_cases h : k = key
      · simp only [h, decide_true, if_true, List.getLast?_cons]
        cases (log.filter fun x => decide (x.1 = key)).getLast? <;> rfl
      · simp [h]

/-- A key that is not written has no value. -/
theorem final_eq_none {log : WriteLog κ β} {key : κ} (h : ∀ w ∈ log, w.1 ≠ key) :
    final log key = none := by
  induction log with
  | nil => rfl
  | cons w log ih =>
      rw [final_cons_of_ne (h w (by simp)), ih (fun x hx => h x (by simp [hx]))]

theorem final_of_not_mem {log : WriteLog κ β} {key : κ} (h : key ∉ log.map Prod.fst) :
    final log key = none := by
  apply final_eq_none
  rintro w hw rfl
  exact h (List.mem_map_of_mem hw)

/-- A value of a key was written. -/
theorem mem_of_final {log : WriteLog κ β} {key : κ} {v : β} (h : final log key = some v) :
    (key, v) ∈ log := by
  rw [final_eq_getLast?, Option.map_eq_some_iff] at h
  obtain ⟨w, hw, rfl⟩ := h
  have hmem := List.mem_filter.mp (List.mem_of_getLast? hw)
  rw [← of_decide_eq_true hmem.2]
  exact hmem.1

/-- A key that is written has a value. -/
theorem exists_final {log : WriteLog κ β} {key : κ} (h : key ∈ log.map Prod.fst) :
    ∃ v, final log key = some v := by
  induction log with
  | nil => cases h
  | cons w log ih =>
      obtain ⟨k, v⟩ := w
      by_cases hk : k = key
      · rw [hk, final_cons_self]
        exact ⟨_, rfl⟩
      · rw [final_cons_of_ne hk]
        exact ih ((List.mem_cons.mp h).resolve_left (Ne.symm hk))

/-- Where no key is written twice, every write counts. -/
theorem final_of_nodup {log : WriteLog κ β} (hnodup : (log.map Prod.fst).Nodup) {key : κ} {v : β}
    (h : (key, v) ∈ log) : final log key = some v := by
  induction log with
  | nil => cases h
  | cons w log ih =>
      rw [List.map_cons, List.nodup_cons] at hnodup
      rcases List.mem_cons.mp h with rfl | h
      · rw [final_cons_self, final_of_not_mem hnodup.1, Option.getD_none]
      · have hne : w.1 ≠ key := by
          rintro rfl
          exact hnodup.1 (List.mem_map.mpr ⟨_, h, rfl⟩)
        rw [← ih hnodup.2 h]
        exact final_cons_of_ne hne w.2 log

end WriteLog

end Lwrt.Library
