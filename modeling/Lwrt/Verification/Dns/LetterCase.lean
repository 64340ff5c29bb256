import Mathlib
import Lwrt.Library.Ascii
import Lwrt.Verification.Dns.Bounds

/-! # Letter case and the local domain

The name that is looked up is compared without letter case, but the local domain is taken off it
before, as often as it stands there in small letters. -/

namespace Lwrt.Dns

open Library Checked

/-! ## Lookup -/

/-- A lookup ignores letter case. -/
theorem lookupLease_congr (leases : Option Text) {s t : Text}
    (h : s.map Char.toLower = t.map Char.toLower) : lookupLease leases s = lookupLease leases t := by
  have hnames : namesHost s = namesHost t := by
    funext f
    simp only [namesHost, Text.eqIgnoreAsciiCase, h]
  rw [lookupLease, lookupLease, hnames]

/-- No line is for the empty name. -/
theorem lookupLease_nil (leases : Option Text) : lookupLease leases [] = none := by
  cases leases with
  | none => rfl
  | some file =>
      have hnone : ((Text.lines file).map Text.splitWhitespace).find? (namesHost []) = none := by
        rw [List.find?_eq_none]
        intro f hf hnames
        obtain ⟨line, -, rfl⟩ := List.mem_map.mp hf
        obtain ⟨-, hany⟩ := (Bool.and_eq_true _ _).mp hnames
        obtain ⟨t, ht, heq⟩ := Option.any_eq_true _ _ |>.mp hany
        have htoken := Text.isToken_of_mem_splitWhitespace (List.mem_of_getElem? ht)
        rw [Text.eqIgnoreAsciiCase_iff, List.map_nil, List.map_eq_nil_iff] at heq
        exact htoken.1 heq
      rw [lookupLease, Option.bind_eq_bind, Option.bind_some, hnone]
      rfl

/-! ## The local domain -/

/-- One round of `trim_end_matches`. -/
def strip (pat t : Text) : Text :=
  if pat.isSuffixOf t then t.take (t.length - pat.length) else t

theorem trimEndMatches_eq (pat s : Text) : trimEndMatches pat s = (strip pat)^[s.length] s :=
  rfl

theorem strip_append (pat s : Text) : strip pat (s ++ pat) = s := by
  rw [strip, if_pos (List.isSuffixOf_iff_suffix.mpr (List.suffix_append s pat)),
    List.length_append, Nat.add_sub_cancel, List.take_left]

theorem strip_of_not_suffix {pat s : Text} (h : ¬ pat <:+ s) : strip pat s = s :=
  if_neg (mt List.isSuffixOf_iff_suffix.mp h)

/-- After as many rounds as a string is long nothing is left to take off. -/
theorem strip_iterate {pat : Text} (hpat : pat ≠ []) {n : ℕ} {s : Text} (h : s.length ≤ n) :
    strip pat ((strip pat)^[n] s) = (strip pat)^[n] s := by
  induction n generalizing s with
  | zero =>
      obtain rfl := List.eq_nil_of_length_eq_zero (Nat.le_zero.mp h)
      exact strip_of_not_suffix fun hs => hpat (List.suffix_nil.mp hs)
  | succ n ih =>
      by_cases hs : pat <:+ s
      · obtain ⟨t, rfl⟩ := hs
        rw [Function.iterate_succ_apply, strip_append]
        apply ih
        have hpos := List.length_pos_iff.mpr hpat
        rw [List.length_append] at h
        omega
      · have hfixed := strip_of_not_suffix hs
        rw [Function.iterate_fixed hfixed, hfixed]

theorem trimEndMatches_append {pat : Text} (hpat : pat ≠ []) (s : Text) :
    trimEndMatches pat (s ++ pat) = trimEndMatches pat s := by
  obtain ⟨k, hk⟩ := Nat.exists_eq_add_of_lt (List.length_pos_iff.mpr hpat)
  rw [trimEndMatches_eq, trimEndMatches_eq, List.length_append, hk, Nat.zero_add,
    ← Nat.add_assoc, Function.iterate_succ_apply, strip_append, Nat.add_comm,
    Function.iterate_add_apply]
  exact Function.iterate_fixed (strip_iterate hpat (Nat.le_refl _)) k

theorem trimEndMatches_of_not_suffix {pat s : Text} (h : ¬ pat <:+ s) : trimEndMatches pat s = s :=
  Function.iterate_fixed (strip_of_not_suffix h) _

/-- The text of the label that stands for the local domain. -/
def lan : Text :=
  "lan".toList

theorem text_singleton (l : Label) : text [l] = l.text :=
  List.intercalate_singleton

theorem text_concat {labels : List Label} (h : labels ≠ []) (l : Label) :
    text (labels ++ [l]) = text labels ++ '.' :: l.text := by
  rw [text, List.map_append]
  exact Text.intercalate_concat (by simpa using h) ['.'] l.text

theorem dot_not_mem_text {l : Label} (h : Utf8.byte '.' ∉ l.bytes) : '.' ∉ l.text :=
  fun hmem => h (Utf8.byte_mem_of_mem_fromUtf8Lossy (by decide) hmem)

/-- A name without dots in its labels ends in the local domain by its last label. -/
theorem suffix_text_iff {labels : List Label} {l : Label} (hl : '.' ∉ l.text) :
    ".lan".toList <:+ text (labels ++ [l]) ↔ labels ≠ [] ∧ l.text = lan := by
  cases labels with
  | nil =>
      have hdot : '.' ∈ ".lan".toList := by decide
      rw [List.nil_append, text_singleton]
      exact iff_of_false (fun h => hl (h.subset hdot)) (by simp)
  | cons m labels =>
      rw [text_concat (List.cons_ne_nil m labels)]
      constructor
      · intro h
        obtain ⟨t, ht⟩ := h
        have hlan : '.' ∉ lan := by decide
        have hlast := (Text.rsplitOnce_eq_some_iff (x := text (m :: labels))).mpr ⟨rfl, hl⟩
        have hsuffix := Text.rsplitOnce_eq_some_iff.mpr ⟨ht.symm, hlan⟩
        obtain ⟨-, htext⟩ := Prod.mk.inj (Option.some.inj (hlast.symm.trans hsuffix))
        exact ⟨List.cons_ne_nil m labels, htext⟩
      · intro h
        rw [h.2]
        exact List.suffix_append _ _

/-- The labels before those that are taken off. -/
theorem trim_text {labels lans : List Label} (hne : labels ≠ []) (hlans : ∀ l ∈ lans, l.text = lan)
    (hstop : ¬ ".lan".toList <:+ text labels) :
    trimEndMatches ".lan".toList (text (labels ++ lans)) = text labels := by
  induction lans using List.reverseRecOn with
  | nil =>
      rw [List.append_nil]
      exact trimEndMatches_of_not_suffix hstop
  | append_singleton lans l ih =>
      have hfront : labels ++ lans ≠ [] := by simp [hne]
      rw [← List.append_assoc, text_concat hfront, hlans l (by simp)]
      exact (trimEndMatches_append (by decide) _).trans (ih fun m hm => hlans m (by simp [hm]))

theorem exists_trim {labels : List Label} (hne : labels ≠ []) (hdots : ∀ l ∈ labels, '.' ∉ l.text) :
    ∃ front lans, labels = front ++ lans ∧ front ≠ [] ∧ (∀ l ∈ lans, l.text = lan) ∧
      ¬ ".lan".toList <:+ text front := by
  induction labels using List.reverseRecOn with
  | nil => exact absurd rfl hne
  | append_singleton labels l ih =>
      by_cases hlan : labels ≠ [] ∧ l.text = lan
      · obtain ⟨front, lans, rfl, hfront, hlans, hstop⟩ :=
          ih hlan.1 fun m hm => hdots m (by simp [hm])
        refine ⟨front, lans ++ [l], List.append_assoc _ _ _, hfront, ?_, hstop⟩
        intro m hm
        rcases List.mem_append.mp hm with hm | hm
        · exact hlans m hm
        · rw [List.mem_singleton.mp hm]
          exact hlan.2
      · refine ⟨labels ++ [l], [], by simp, by simp, by simp, ?_⟩
        rwa [suffix_text_iff (hdots l (by simp))]

/-! ## Variants of a name -/

/-- The bytes of a label in small letters. -/
def Label.fold (l : Label) : List UInt8 :=
  l.bytes.map Utf8.lowerByte

/-- Names that differ in the case of letters only. -/
def SameName (labels labels' : List Label) : Prop :=
  labels.map Label.fold = labels'.map Label.fold

/-- A label with other bytes in the place of its own. -/
def Label.mapBytes (f : UInt8 → UInt8) (l : Label) : Label where
  bytes := l.bytes.map f
  ne_nil := by simpa using l.ne_nil
  length_lt := by simpa using l.length_lt

def Label.lower (l : Label) : Label :=
  l.mapBytes Utf8.lowerByte

def Label.upper (l : Label) : Label :=
  l.mapBytes Utf8.upperByte

@[simp]
theorem Label.fold_lower (l : Label) : l.lower.fold = l.fold := by
  simp [fold, lower, mapBytes, Utf8.lowerByte_lowerByte]

@[simp]
theorem Label.fold_upper (l : Label) : l.upper.fold = l.fold := by
  simp [fold, upper, mapBytes, Utf8.lowerByte_upperByte]

theorem Label.text_lower (l : Label) : l.lower.text = l.text.map Char.toLower :=
  Utf8.asciiMap_lower.fromUtf8Lossy_map l.bytes

theorem Label.text_upper (l : Label) : l.upper.text = l.text.map Char.toUpper :=
  Utf8.asciiMap_upper.fromUtf8Lossy_map l.bytes

/-- In capital letters no label is taken for the local domain. -/
theorem Label.text_upper_ne (l : Label) : l.upper.text ≠ lan := by
  intro h
  have hmem : 'l' ∈ l.upper.text := by
    rw [h]
    decide
  rw [text_upper, List.mem_map] at hmem
  obtain ⟨c, -, hc⟩ := hmem
  have hlower := Char.isLower_toUpper_eq_false c
  rw [hc] at hlower
  exact absurd hlower (by decide)

theorem text_toLower (labels : List Label) :
    (text labels).map Char.toLower =
      ['.'].intercalate ((labels.map Label.fold).map Utf8.fromUtf8Lossy) := by
  rw [text, Text.map_intercalate, List.map_map, List.map_map]
  have hlabel : List.map Char.toLower ∘ Label.text = Utf8.fromUtf8Lossy ∘ Label.fold :=
    funext fun l => l.text_lower.symm
  rw [hlabel]
  rfl

theorem SameName.text_toLower {labels labels' : List Label} (h : SameName labels labels') :
    (text labels).map Char.toLower = (text labels').map Char.toLower := by
  rw [Dns.text_toLower, Dns.text_toLower, h]

theorem SameName.append {front lans labels : List Label} (h : SameName (front ++ lans) labels) :
    ∃ front' lans', labels = front' ++ lans' ∧ SameName front front' ∧ SameName lans lans' := by
  rw [SameName, List.map_append] at h
  obtain ⟨front', lans', rfl, hfront, hlans⟩ := List.map_eq_append_iff.mp h.symm
  exact ⟨front', lans', rfl, hfront.symm, hlans.symm⟩

theorem sameName_map {f : Label → Label} (hf : ∀ l, (f l).fold = l.fold) (labels : List Label) :
    SameName (labels.map f) labels := by
  rw [SameName, List.map_map]
  exact List.map_congr_left fun l _ => hf l

theorem SameName.exists_of_mem {labels labels' : List Label} (h : SameName labels labels')
    {l : Label} (hl : l ∈ labels') :
    ∃ m ∈ labels, m.text.map Char.toLower = l.text.map Char.toLower := by
  have hfold : l.fold ∈ labels.map Label.fold := by
    rw [h]
    exact List.mem_map_of_mem hl
  obtain ⟨m, hm, heq⟩ := List.mem_map.mp hfold
  refine ⟨m, hm, ?_⟩
  rw [← m.text_lower, ← l.text_lower]
  exact congrArg Utf8.fromUtf8Lossy heq

theorem SameName.dot_not_mem {labels labels' : List Label} (h : SameName labels labels')
    (hdots : ∀ l ∈ labels, Utf8.byte '.' ∉ l.bytes) : ∀ l ∈ labels', '.' ∉ l.text := by
  intro l hl hdot
  obtain ⟨m, hm, heq⟩ := h.exists_of_mem hl
  have hfolded : '.' ∈ m.text.map Char.toLower := by
    rw [heq]
    exact List.mem_map.mpr ⟨'.', hdot, rfl⟩
  obtain ⟨c, hc, hchar⟩ := List.mem_map.mp hfolded
  obtain rfl := (Text.toLower_eq_iff (by decide)).mp hchar
  exact dot_not_mem_text (hdots m hm) hc

/-! ## The purpose -/

/-- A label that stands for the local domain, in any letters. -/
def IsLan (l : Label) : Prop :=
  Text.eqIgnoreAsciiCase l.text lan

/-- A name that is a leased hostname, in any letters. -/
def IsLeased (leases : Option Text) (labels : List Label) : Prop :=
  ∃ hostname ip, lookupLease leases hostname = some ip ∧
    Text.eqIgnoreAsciiCase (text labels) hostname

/-- The address at the end of a local answer. -/
def repliedAddress (leases : Option Text) (query : List UInt8) : Checked (Option (List UInt8)) := do
  return (← localAnswer leases query).map fun reply => reply.drop (reply.length - 4)

/-- Queries for a name and its variants that differ in nothing else get one address, and those for
a leased hostname get one, with or without the local domain. -/
structure IgnoresCase (leases : Option Text) (labels : List Label) : Prop where
  same : ∀ head tail labels₁ labels₂, head.length = 12 →
    SameName labels₁ labels → SameName labels₂ labels →
    AsksA (head ++ (wire labels₁ ++ tail)) labels₁ → AsksA (head ++ (wire labels₂ ++ tail)) labels₂ →
    repliedAddress leases (head ++ (wire labels₁ ++ tail)) =
      repliedAddress leases (head ++ (wire labels₂ ++ tail))
  answered : ∀ query labels₁, SameName labels₁ labels → AsksA query labels₁ →
    ((∃ reply, localAnswer leases query = .ok (some reply)) ↔
      IsLeased leases labels₁ ∨
        ∃ front l, labels₁ = front ++ [l] ∧ IsLan l ∧ IsLeased leases front)

/-- Taking labels for the local domain off a name, but not its first label, makes no difference to
what the lease file has for it. -/
def LanIndifferent (leases : Option Text) (labels : List Label) : Prop :=
  ∀ front lans, labels = front ++ lans → front ≠ [] → (∀ l ∈ lans, IsLan l) →
    lookupLease leases (text front) = lookupLease leases (text labels)

theorem isLeased_iff {leases : Option Text} {labels : List Label} :
    IsLeased leases labels ↔ (lookupLease leases (text labels)).isSome := by
  constructor
  · intro h
    obtain ⟨hostname, ip, hip, heq⟩ := h
    rw [lookupLease_congr leases (Text.eqIgnoreAsciiCase_iff.mp heq), hip]
    rfl
  · intro h
    obtain ⟨ip, hip⟩ := Option.isSome_iff_exists.mp h
    exact ⟨text labels, ip, hip, Text.eqIgnoreAsciiCase_iff.mpr rfl⟩

theorem lookupLease_host (leases : Option Text) (labels : List Label) :
    lookupLease leases (host labels) =
      lookupLease leases (trimEndMatches ".lan".toList (text labels)) := by
  apply lookupLease_congr
  rw [host, List.map_map]
  simp

/-- Under the condition every variant is looked up as the name itself. -/
theorem LanIndifferent.lookup_host {leases : Option Text} {labels labels₁ : List Label}
    (h : LanIndifferent leases labels) (hdots : ∀ l ∈ labels, Utf8.byte '.' ∉ l.bytes)
    (hsame : SameName labels₁ labels) :
    lookupLease leases (host labels₁) = lookupLease leases (text labels) := by
  rw [lookupLease_host]
  by_cases hne : labels₁ = []
  · have hnil : labels = [] := by
      simpa [hne, SameName] using hsame.symm
    rw [hne, hnil]
    rfl
  · obtain ⟨front₁, lans₁, rfl, hfront, hlans, hstop⟩ :=
      exists_trim hne (SameName.dot_not_mem hsame.symm hdots)
    obtain ⟨front, lans, rfl, hsameFront, hsameLans⟩ := hsame.append
    rw [trim_text hfront hlans hstop, lookupLease_congr leases hsameFront.text_toLower]
    apply h front lans rfl
    · intro hnil
      rw [hnil, SameName, List.map_nil, List.map_eq_nil_iff] at hsameFront
      exact hfront hsameFront
    · intro l hl
      obtain ⟨m, hm, heq⟩ := hsameLans.exists_of_mem hl
      rw [IsLan, Text.eqIgnoreAsciiCase_iff, ← heq, hlans m hm]

theorem drop_answerBytes (query : List UInt8) (after : ℕ) (ip : Ipv4Addr) :
    (answerBytes query after ip).drop ((answerBytes query after ip).length - 4) = ip.octets := by
  have hfour : ip.octets.length = 4 := rfl
  rw [answerBytes, addressRecord, ← List.append_assoc]
  apply List.drop_left'
  simp only [List.length_append, hfour, Nat.add_sub_cancel]

theorem AsksA.repliedAddress_eq {query : List UInt8} {labels : List Label}
    (h : AsksA query labels) (leases : Option Text) :
    repliedAddress leases query = .ok ((lookupLease leases (host labels)).map Ipv4Addr.octets) := by
  rw [repliedAddress, h.localAnswer_eq, ok_bind, Option.map_map]
  have heq : (fun reply : List UInt8 => reply.drop (reply.length - 4)) ∘
      answerBytes query (12 + (wire labels).length) = Ipv4Addr.octets :=
    funext fun ip => drop_answerBytes query _ ip
  rw [heq]
  rfl

theorem AsksA.answered_iff {query : List UInt8} {labels : List Label} (h : AsksA query labels)
    (leases : Option Text) : (∃ reply, localAnswer leases query = .ok (some reply)) ↔
      (lookupLease leases (host labels)).isSome := by
  rw [h.localAnswer_eq]
  cases lookupLease leases (host labels) with
  | none => simp
  | some ip => simp

/-- The header of a plain query. -/
def plainHeader : List UInt8 :=
  [0, 0, 1, 0, 0, 1, 0, 0, 0, 0, 0, 0]

theorem asksA_plain (labels : List Label) :
    AsksA (plainHeader ++ (wire labels ++ [0, 1, 0, 1])) labels where
  count := rfl
  name := ⟨_, rfl⟩
  type := by
    have hdrop : (plainHeader ++ (wire labels ++ [0, 1, 0, 1])).drop (12 + (wire labels).length) =
        [0, 1, 0, 1] := by
      rw [← List.drop_drop]
      exact List.drop_left
    rw [extract, hdrop]
    rfl
  length := by
    rw [List.length_append, List.length_append, ← Nat.add_assoc]
    exact Nat.le_refl _

theorem not_suffix_upper {labels : List Label} (hdots : ∀ l ∈ labels, Utf8.byte '.' ∉ l.bytes) :
    ¬ ".lan".toList <:+ text (labels.map Label.upper) := by
  have hupper := SameName.dot_not_mem (sameName_map Label.fold_upper labels).symm hdots
  rcases List.eq_nil_or_concat labels with hnil | ⟨front, l, rfl⟩
  · rw [hnil]
    intro h
    exact absurd (List.suffix_nil.mp h) (by decide)
  · rw [List.concat_eq_append, List.map_append] at hupper ⊢
    rw [List.map_singleton, suffix_text_iff (hupper l.upper (by simp))]
    exact fun h => l.text_upper_ne h.2

/-- In capital letters, and with the last labels in small letters, a name is looked up as a whole
and without these labels. -/
theorem IgnoresCase.lanIndifferent {leases : Option Text} {labels : List Label}
    (h : IgnoresCase leases labels) (hdots : ∀ l ∈ labels, Utf8.byte '.' ∉ l.bytes) :
    LanIndifferent leases labels := by
  rintro front lans rfl hfront hlans
  have hwhole : lookupLease leases (host ((front ++ lans).map Label.upper)) =
      lookupLease leases (text (front ++ lans)) := by
    rw [lookupLease_host, trimEndMatches_of_not_suffix (not_suffix_upper hdots)]
    exact lookupLease_congr leases (sameName_map Label.fold_upper _).text_toLower
  have hpart : lookupLease leases (host (front.map Label.upper ++ lans.map Label.lower)) =
      lookupLease leases (text front) := by
    rw [lookupLease_host, trim_text]
    · exact lookupLease_congr leases (sameName_map Label.fold_upper _).text_toLower
    · simpa using hfront
    · intro l hl
      obtain ⟨m, hm, rfl⟩ := List.mem_map.mp hl
      rw [m.text_lower]
      exact Text.eqIgnoreAsciiCase_iff.mp (hlans m hm)
    · exact not_suffix_upper fun l hl => hdots l (List.mem_append_left _ hl)
  have hmixed : SameName (front.map Label.upper ++ lans.map Label.lower) (front ++ lans) := by
    rw [SameName, List.map_append, List.map_append]
    exact congrArg₂ _ (sameName_map Label.fold_upper front) (sameName_map Label.fold_lower lans)
  have haddress := h.same plainHeader [0, 1, 0, 1] _ _ rfl hmixed
    (sameName_map Label.fold_upper _) (asksA_plain _) (asksA_plain _)
  rw [(asksA_plain _).repliedAddress_eq, (asksA_plain _).repliedAddress_eq, hwhole, hpart]
    at haddress
  exact Option.map_injective (fun _ _ => Ipv4Addr.octets_inj.mp) (Except.ok.inj haddress)

/-- With the local domain a leased hostname is answered as without it, under the condition. -/
theorem LanIndifferent.isLeased {leases : Option Text} {labels front : List Label} {l : Label}
    (h : LanIndifferent leases labels) (hsame : SameName (front ++ [l]) labels) (hl : IsLan l)
    (hleased : IsLeased leases front) : IsLeased leases (front ++ [l]) := by
  have hname := lookupLease_congr leases hsame.text_toLower
  obtain ⟨front', lans', rfl, hfront, hlans⟩ := hsame.append
  rw [isLeased_iff] at hleased ⊢
  have hne : front' ≠ [] := by
    rintro rfl
    rw [lookupLease_congr leases hfront.text_toLower] at hleased
    simp [text, lookupLease_nil] at hleased
  have hlan : ∀ m ∈ lans', IsLan m := by
    intro m hm
    obtain ⟨m', hm', heq⟩ := hlans.exists_of_mem hm
    rw [List.mem_singleton.mp hm'] at heq
    rw [IsLan, Text.eqIgnoreAsciiCase_iff, ← heq]
    exact Text.eqIgnoreAsciiCase_iff.mp hl
  rwa [hname, ← h front' lans' rfl hne hlan, ← lookupLease_congr leases hfront.text_toLower]

/-- A printer has a lease. -/
def leasePrinter : Text :=
  "1700000000 02:00:00:00:00:01 192.168.1.100 printer".toList

def printer : Label :=
  ⟨[112, 114, 105, 110, 116, 101, 114], by decide, by decide⟩

/-- The names `printer.lan` and `printer.LAN`. -/
def printerLan (capital : Bool) : List Label :=
  [printer, if capital then ⟨[76, 65, 78], by decide, by decide⟩
    else ⟨[108, 97, 110], by decide, by decide⟩]

end Lwrt.Dns
