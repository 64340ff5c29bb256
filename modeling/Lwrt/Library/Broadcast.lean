import Mathlib.Data.List.Basic
import Mathlib.Data.List.Induction

/-! Publish and subscribe: members join and leave, and what is published reaches those who are
members at that moment. -/

namespace Lwrt.Library

inductive Broadcast (κ μ : Type*) where
  | join (k : κ)
  | leave (k : κ)
  | publish (m : μ)

namespace Broadcast

variable {κ μ : Type*} [DecidableEq κ]

/-- Is `k` a member after the action, if `member` says whether it was one before? -/
def follows (k : κ) (member : Bool) : Broadcast κ μ → Bool
  | join k' => member || k' = k
  | leave k' => member && k' ≠ k
  | publish _ => member

def isMember (k : κ) (as : List (Broadcast κ μ)) : Bool :=
  as.foldl (follows k) false

/-- What reaches `k` of the actions, from a time when `member` says whether it is one. -/
def inboxFrom (k : κ) : Bool → List (Broadcast κ μ) → List μ
  | _, [] => []
  | true, publish m :: as => m :: inboxFrom k true as
  | member, a :: as => inboxFrom k (follows k member a) as

/-- Everything published while `k` is a member, in order. -/
def inbox (k : κ) (as : List (Broadcast κ μ)) : List μ :=
  inboxFrom k false as

/-- Everything published. -/
def published : List (Broadcast κ μ) → List μ
  | [] => []
  | publish m :: as => m :: published as
  | _ :: as => published as

@[simp]
theorem isMember_nil (k : κ) : isMember k ([] : List (Broadcast κ μ)) = false := rfl

theorem isMember_concat (k : κ) (as : List (Broadcast κ μ)) (a : Broadcast κ μ) :
    isMember k (as ++ [a]) = follows k (isMember k as) a := by
  simp [isMember]

theorem inboxFrom_append (k : κ) (member : Bool) (as bs : List (Broadcast κ μ)) :
    inboxFrom k member (as ++ bs) =
      inboxFrom k member as ++ inboxFrom k (as.foldl (follows k) member) bs := by
  induction as generalizing member with
  | nil => cases member <;> rfl
  | cons a as ih =>
      cases a with
      | join k' => cases member <;> exact ih _
      | leave k' => cases member <;> exact ih _
      | publish m =>
          cases member
          · exact ih false
          · exact congrArg (m :: ·) (ih true)

theorem inbox_append (k : κ) (as bs : List (Broadcast κ μ)) :
    inbox k (as ++ bs) = inbox k as ++ inboxFrom k (isMember k as) bs :=
  inboxFrom_append k false as bs

theorem inbox_publish (k : κ) (as : List (Broadcast κ μ)) (m : μ) :
    inbox k (as ++ [publish m]) = inbox k as ++ if isMember k as then [m] else [] := by
  rw [inbox_append]
  cases isMember k as <;> rfl

theorem inbox_join (k : κ) (as : List (Broadcast κ μ)) (k' : κ) :
    inbox k (as ++ [join k']) = inbox k as := by
  rw [inbox_append]
  cases isMember k as <;> exact List.append_nil _

theorem inbox_leave (k : κ) (as : List (Broadcast κ μ)) (k' : κ) :
    inbox k (as ++ [leave k']) = inbox k as := by
  rw [inbox_append]
  cases isMember k as <;> exact List.append_nil _

/-- What reaches a member is some of what was published, in that order. -/
theorem inbox_sublist (k : κ) (as : List (Broadcast κ μ)) : (inbox k as).Sublist (published as) := by
  have hfrom : ∀ member, (inboxFrom k member as).Sublist (published as) := by
    induction as with
    | nil => intro member; cases member <;> exact .slnil
    | cons a as ih =>
        intro member
        cases a with
        | join k' => cases member <;> exact ih _
        | leave k' => cases member <;> exact ih _
        | publish m =>
            cases member
            · exact (ih false).cons m
            · exact (ih true).cons_cons m
  exact hfrom false

theorem isMember_eq_false {k : κ} {as : List (Broadcast κ μ)} (h : join k ∉ as) :
    isMember k as = false := by
  induction as using List.reverseRecOn with
  | nil => rfl
  | append_singleton as a ih =>
      rw [List.mem_append, not_or, List.mem_singleton] at h
      rw [isMember_concat, ih h.1]
      cases a with
      | join k' =>
          have hk : k' ≠ k := fun hk => h.2 (by rw [hk])
          simp [follows, hk]
      | leave k' => rfl
      | publish m => rfl

theorem inbox_eq_nil {k : κ} {as : List (Broadcast κ μ)} (h : join k ∉ as) : inbox k as = [] := by
  induction as using List.reverseRecOn with
  | nil => rfl
  | append_singleton as a ih =>
      rw [List.mem_append, not_or, List.mem_singleton] at h
      cases a with
      | join k' => rw [inbox_join, ih h.1]
      | leave k' => rw [inbox_leave, ih h.1]
      | publish m => rw [inbox_publish, ih h.1, isMember_eq_false h.1]; rfl

theorem inboxFrom_true {k : κ} {as : List (Broadcast κ μ)} (h : leave k ∉ as) :
    inboxFrom k true as = published as := by
  induction as with
  | nil => rfl
  | cons a as ih =>
      rw [List.mem_cons, not_or] at h
      cases a with
      | join k' => exact ih h.2
      | leave k' =>
          have hk : k' ≠ k := fun hk => h.1 (by rw [hk])
          have hstays : follows k true (leave k' : Broadcast κ μ) = true := by simp [follows, hk]
          rw [inboxFrom, hstays, published]
          · exact ih h.2
          · simp
          · simp
      | publish m => exact congrArg (m :: ·) (ih h.2)

/-- A member that joins once and stays misses nothing published later. -/
theorem inbox_of_stays {k : κ} {before after : List (Broadcast κ μ)} (hbefore : join k ∉ before)
    (hafter : leave k ∉ after) : inbox k (before ++ join k :: after) = published after := by
  have hjoin : inboxFrom k false (join k :: after) = inboxFrom k true after := by
    simp [inboxFrom, follows]
  rw [inbox_append, inbox_eq_nil hbefore, isMember_eq_false hbefore, hjoin, inboxFrom_true hafter,
    List.nil_append]

end Broadcast

end Lwrt.Library
