import Lwrt.Library.Text

/-! Pages made of fixed markup and of slots for text. -/

namespace Lwrt.Library.Html

open Text

/-- The characters that end a text or a quoted attribute. -/
def isMarkup (c : Char) : Bool :=
  c = '<' || c = '>' || c = '"' || c = '\''

/-- Text in which nothing is markup. -/
def Plain (s : Text) : Prop :=
  ∀ c ∈ s, isMarkup c = false

instance (s : Text) : Decidable (Plain s) :=
  decidable_of_iff (s.all fun c => !isMarkup c) (by simp [Plain])

/-- The markup characters of a page, in their order. -/
def skeleton (page : Text) : Text :=
  page.filter isMarkup

/-- Entities decoded, as far as an escaped text contains any. -/
def decode : Text → Text
  | '&' :: 'a' :: 'm' :: 'p' :: ';' :: s => '&' :: decode s
  | '&' :: 'l' :: 't' :: ';' :: s => '<' :: decode s
  | '&' :: 'g' :: 't' :: ';' :: s => '>' :: decode s
  | '&' :: 'q' :: 'u' :: 'o' :: 't' :: ';' :: s => '"' :: decode s
  | '&' :: '#' :: '3' :: '9' :: ';' :: s => '\'' :: decode s
  | c :: s => c :: decode s
  | [] => []

inductive Piece where
  | markup (literal : Text)
  | slot (value : Text)

/-- The pieces of a page, without the values of the slots. -/
abbrev Template := List (Option Text)

def template (ps : List Piece) : Template :=
  ps.map fun p =>
    match p with
    | .markup literal => some literal
    | .slot _ => none

/-- The values of the slots. -/
def values (ps : List Piece) : List Text :=
  ps.filterMap fun p =>
    match p with
    | .markup _ => none
    | .slot value => some value

def render (escape : Text → Text) (ps : List Piece) : Text :=
  ps.flatMap fun p =>
    match p with
    | .markup literal => literal
    | .slot value => escape value

/-- The markup characters that a template has. -/
def Template.skeleton (t : Template) : Text :=
  Html.skeleton (t.flatMap fun piece => piece.getD [])

/-- Every slot is followed by a markup character. -/
def Template.Delimited : Template → Bool
  | [] => true
  | some _ :: t => Delimited t
  | none :: some (c :: _) :: t => isMarkup c && Delimited t
  | none :: _ => false

/-- The slots of a page: a slot is what comes before the next markup character. -/
def readSlots : Template → Text → List Text
  | [], _ => []
  | some literal :: t, page => readSlots t (page.drop literal.length)
  | none :: t, page =>
      decode (page.takeWhile fun c => !isMarkup c) ::
        readSlots t (page.dropWhile fun c => !isMarkup c)

@[simp]
theorem skeleton_nil : skeleton [] = [] :=
  rfl

@[simp]
theorem skeleton_append (a b : Text) : skeleton (a ++ b) = skeleton a ++ skeleton b :=
  List.filter_append a b

theorem Plain.skeleton_eq {s : Text} (h : Plain s) : skeleton s = [] :=
  List.filter_eq_nil_iff.mpr fun c hc => by simp [h c hc]

theorem Template.skeleton_append (s t : Template) :
    Template.skeleton (s ++ t) = s.skeleton ++ t.skeleton := by
  rw [Template.skeleton, List.flatMap_append, Html.skeleton_append]
  rfl

@[simp]
theorem template_append (ps qs : List Piece) : template (ps ++ qs) = template ps ++ template qs :=
  List.map_append

@[simp]
theorem values_append (ps qs : List Piece) : values (ps ++ qs) = values ps ++ values qs :=
  List.filterMap_append

@[simp]
theorem render_nil (escape : Text → Text) : render escape [] = [] :=
  rfl

@[simp]
theorem render_markup (escape : Text → Text) (literal : Text) (ps : List Piece) :
    render escape (.markup literal :: ps) = literal ++ render escape ps :=
  rfl

@[simp]
theorem append_render_nil (escape : Text → Text) (page : Text) : page ++ render escape [] = page :=
  List.append_nil page

@[simp]
theorem render_slot (escape : Text → Text) (value : Text) (ps : List Piece) :
    render escape (.slot value :: ps) = escape value ++ render escape ps :=
  rfl

theorem render_append (escape : Text → Text) (ps qs : List Piece) :
    render escape (ps ++ qs) = render escape ps ++ render escape qs :=
  List.flatMap_append

theorem Template.Delimited.append {s t : Template} (hs : s.Delimited) (ht : t.Delimited) :
    Template.Delimited (s ++ t) := by
  induction s using Template.Delimited.induct with
  | case1 => exact ht
  | case2 literal s ih => exact ih hs
  | case3 c literal s ih =>
      simp only [Template.Delimited, List.cons_append, Bool.and_eq_true] at hs ⊢
      exact ⟨hs.1, ih hs.2⟩
  | case4 s h => simp [Template.Delimited] at hs

/-- Markup stands behind a slot that is delimited. -/
theorem exists_markup {value : Text} {ps : List Piece}
    (h : (template (.slot value :: ps)).Delimited) : ∃ c literal qs,
      ps = .markup (c :: literal) :: qs ∧ isMarkup c = true ∧ (template qs).Delimited := by
  cases ps with
  | nil => simp [template, Template.Delimited] at h
  | cons q qs =>
      cases q with
      | slot v => simp [template, Template.Delimited] at h
      | markup literal =>
          cases literal with
          | nil => simp [template, Template.Delimited] at h
          | cons c literal =>
              simp only [template, List.map_cons, Template.Delimited, Bool.and_eq_true] at h
              exact ⟨c, literal, qs, rfl, h.1, h.2⟩

section Escaping

variable {escape : Text → Text} (hescape : ∀ s, Plain (escape s))
include hescape

/-- The markup of a page is that of its template. -/
theorem skeleton_render (ps : List Piece) :
    skeleton (render escape ps) = (template ps).skeleton := by
  induction ps with
  | nil => rfl
  | cons p ps ih =>
      have hcons : render escape (p :: ps) = render escape [p] ++ render escape ps :=
        render_append escape [p] ps
      have htemplate : template (p :: ps) = template [p] ++ template ps := template_append [p] ps
      rw [hcons, htemplate, skeleton_append, Template.skeleton_append, ih]
      congr 1
      cases p with
      | markup literal => rfl
      | slot value =>
          simpa [render, template, Template.skeleton] using (hescape value).skeleton_eq

/-- A slot is read up to the markup after it. -/
theorem split_slot (value : Text) {c : Char} (hc : isMarkup c = true) (literal : Text)
    (qs : List Piece) :
    (render escape (.slot value :: .markup (c :: literal) :: qs)).takeWhile
        (fun d => !isMarkup d) = escape value ∧
      (render escape (.slot value :: .markup (c :: literal) :: qs)).dropWhile
        (fun d => !isMarkup d) = render escape (.markup (c :: literal) :: qs) := by
  have hpage : render escape (.slot value :: .markup (c :: literal) :: qs) =
      escape value ++ c :: (literal ++ render escape qs) := by
    simp [render]
  have hvalue : ∀ d ∈ escape value, (!isMarkup d) = true := fun d hd => by
    simp [hescape value d hd]
  constructor
  · rw [hpage, List.takeWhile_append_of_pos hvalue,
      List.takeWhile_cons_of_neg (by simp [hc]), List.append_nil]
  · rw [hpage, List.dropWhile_append_of_pos hvalue,
      List.dropWhile_cons_of_neg (by simp [hc])]
    simp [render]

/-- The values of the slots are read back from a page. -/
theorem readSlots_render (hdecode : ∀ s, decode (escape s) = s) (ps : List Piece)
    (h : (template ps).Delimited) : readSlots (template ps) (render escape ps) = values ps := by
  induction ps with
  | nil => rfl
  | cons p ps ih =>
      cases p with
      | markup literal =>
          have hdrop : (render escape (.markup literal :: ps)).drop literal.length =
              render escape ps := List.drop_left
          have htail : (template ps).Delimited := h
          calc readSlots (template (.markup literal :: ps)) (render escape (.markup literal :: ps))
              = readSlots (template ps)
                  ((render escape (.markup literal :: ps)).drop literal.length) := rfl
            _ = values ps := by rw [hdrop, ih htail]
      | slot value =>
          obtain ⟨c, literal, qs, rfl, hc, hqs⟩ := exists_markup h
          obtain ⟨htake, hdrop⟩ := split_slot hescape value hc literal qs
          have htail : (template (.markup (c :: literal) :: qs)).Delimited := hqs
          calc readSlots (template (.slot value :: .markup (c :: literal) :: qs))
                (render escape (.slot value :: .markup (c :: literal) :: qs))
              = decode ((render escape (.slot value :: .markup (c :: literal) :: qs)).takeWhile
                    fun d => !isMarkup d) ::
                  readSlots (template (.markup (c :: literal) :: qs))
                    ((render escape (.slot value :: .markup (c :: literal) :: qs)).dropWhile
                      fun d => !isMarkup d) := rfl
            _ = value :: values (.markup (c :: literal) :: qs) := by
                rw [htake, hdrop, hdecode, ih htail]

end Escaping

end Lwrt.Library.Html
