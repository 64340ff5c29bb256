import Lwrt.Applet.Ubus
import Lwrt.Verification.Json.Lines

/-! # One JSON value a line

What one end of a connection writes, the other end reads back value by value. -/

namespace Lwrt.Ubus

open Library Text Json

/-- A serialized value is one line. -/
theorem write_line {v : Value} (hv : v.Integral) : '\n' ∉ v.write ∧ '\r' ∉ v.write :=
  ⟨(printable_write hv).not_mem (by decide), (printable_write hv).not_mem (by decide)⟩

theorem trim_write_ne_nil {v : Value} (hv : v.Integral) : trim v.write ≠ [] := by
  rw [trim_write hv]
  exact write_ne_nil hv

/-- Writing values and reading the lines of the stream gives the values back, in their order;
a client that reads one response line gets the first. -/
theorem receive_frameBytes (vs : List Value) (h : ∀ v ∈ vs, v.Integral) :
    receive (vs.flatMap frameBytes) = vs.map .ok ∧
      (∀ v ∈ vs, '\n' ∉ v.write ∧ '\r' ∉ v.write) ∧
      ∀ v more, vs = v :: more → readResponse (vs.flatMap frameBytes) = .ok v := by
  have hlines : readLines (vs.flatMap frameBytes) = vs.map Value.write := by
    have hread := readLines_encode (vs.map Value.write) fun l hl => by
      obtain ⟨v, hv, rfl⟩ := List.mem_map.mp hl
      exact write_line (h v hv)
    rwa [List.flatMap_map] at hread
  refine ⟨?_, fun v hv => write_line (h v hv), ?_⟩
  · have hkeep : (vs.map Value.write).filter (fun line => trim line ≠ []) = vs.map Value.write := by
      rw [List.filter_eq_self]
      intro l hl
      obtain ⟨v, hv, rfl⟩ := List.mem_map.mp hl
      exact decide_eq_true (trim_write_ne_nil (h v hv))
    rw [receive, hlines, hkeep, List.map_map]
    exact List.map_congr_left fun v hv => Value.parse_write (h v hv)
  · rintro v more rfl
    have hv := h v (by simp)
    have hline := readLine_encode (write_line hv).1 (more.flatMap frameBytes)
    have htrim : trim (v.write ++ ['\n']) = v.write := by
      rw [trim_append_whitespace _ (by decide), trim_write hv]
    rw [List.flatMap_cons, readResponse, frameBytes, hline]
    simp only [htrim, Value.parse_write hv]

theorem receive_frameBytes_nested :
    receive (frameBytes
        (.object [(['\n'], .array [.num (.ofInt (-7)), .null]), (['\n'], .str ['é'])])) =
      [.ok (.object [(['\n'], .array [.num (.ofInt (-7)), .null]), (['\n'], .str ['é'])])] := by
  have hread := (receive_frameBytes
    [.object [(['\n'], .array [.num (.ofInt (-7)), .null]), (['\n'], .str ['é'])]] ?_).1
  · simpa using hread
  · have hnum : IsSmallInteger (.ofInt (-7)) :=
      ⟨-7, by decide, F64.ofRatio_whole true (m := 7) (by decide)⟩
    refine List.forall_mem_singleton.mpr (.object ?_)
    refine List.forall_mem_cons.mpr ⟨.array ?_, List.forall_mem_singleton.mpr (.str _)⟩
    exact List.forall_mem_cons.mpr ⟨.num hnum, List.forall_mem_singleton.mpr .null⟩

end Lwrt.Ubus
