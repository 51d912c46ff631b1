import Mathlib.Data.List.Perm.Basic

/-! # A queue of jobs

A producer submits jobs, and one worker takes them up in that order, one at a
time. A job may be set aside when another one waits behind it, and what has ended
is forgotten at some time. A history is kept with the last operation first. -/
namespace RedkeyOperator.Data

variable {α : Type}

structure JobQueue (α : Type) where
  ended : List α
  active : Option α
  waiting : List α

namespace JobQueue

inductive Op (α : Type) where
  | submit (a : α)
  | start (a : α)
  | finish (a : α)
  | skip (a : α)
  | forget (a : α)

inductive Step : JobQueue α → Op α → JobQueue α → Prop where
  | submit {ended : List α} {active : Option α} {waiting : List α} (a : α) :
      Step ⟨ended, active, waiting⟩ (.submit a) ⟨ended, active, waiting ++ [a]⟩
  | start {ended waiting : List α} (a : α) :
      Step ⟨ended, none, a :: waiting⟩ (.start a) ⟨ended, some a, waiting⟩
  | finish {ended waiting : List α} (a : α) :
      Step ⟨ended, some a, waiting⟩ (.finish a) ⟨ended ++ [a], none, waiting⟩
  | skip {ended waiting : List α} (a b : α) :
      Step ⟨ended, none, a :: b :: waiting⟩ (.skip a) ⟨ended ++ [a], none, b :: waiting⟩
  | forget {before after waiting : List α} {active : Option α} (a : α) :
      Step ⟨before ++ a :: after, active, waiting⟩ (.forget a) ⟨before ++ after, active, waiting⟩

/-- The operations that have led from the empty queue to this one. -/
inductive History : List (Op α) → JobQueue α → Prop where
  | nil : History [] ⟨[], none, []⟩
  | cons {ops : List (Op α)} {op : Op α} {q q' : JobQueue α} (h : History ops q) (hs : Step q op q') :
      History (op :: ops) q'

/-! ## What the operations were about -/

/-- The jobs of the operations that `f` selects, in order of time. -/
def select (f : Op α → Option α) : List (Op α) → List α
  | [] => []
  | op :: ops => select f ops ++ (f op).toList

def submitted : List (Op α) → List α := select fun
  | .submit a => some a
  | _ => none

/-- Jobs the worker has taken from the queue, to do them or to set them aside. -/
def taken : List (Op α) → List α := select fun
  | .start a | .skip a => some a
  | _ => none

def started : List (Op α) → List α := select fun
  | .start a => some a
  | _ => none

def completed : List (Op α) → List α := select fun
  | .finish a => some a
  | _ => none

def skipped : List (Op α) → List α := select fun
  | .skip a => some a
  | _ => none

def forgotten : List (Op α) → List α := select fun
  | .forget a => some a
  | _ => none

/-! ## Every job is accounted for -/

section History
variable {ops : List (Op α)} {q : JobQueue α}

/-- Jobs are taken in the order in which they were submitted, and the rest waits. -/
theorem History.submitted_eq (h : History ops q) : submitted ops = taken ops ++ q.waiting := by
  induction h with
  | nil => rfl
  | cons _ hs ih =>
    cases hs <;> simp_all [submitted, taken, select]

/-- At most one job is under way, and it is the last one started. -/
theorem History.started_eq (h : History ops q) : started ops = completed ops ++ q.active.toList := by
  induction h with
  | nil => rfl
  | cons _ hs ih =>
    cases hs <;> simp_all [started, completed, select]

/-- What has been taken and is not under way has ended; it is kept until it is forgotten. -/
theorem History.ended_perm (h : History ops q) :
    (completed ops ++ skipped ops).Perm (forgotten ops ++ q.ended) := by
  induction h with
  | nil => exact .refl _
  | @cons ops op q q' _ hs ih =>
    cases hs with
    | submit a => simpa [completed, skipped, forgotten, select] using ih
    | start a => simpa [completed, skipped, forgotten, select] using ih
    | @finish ended waiting a =>
      have hleft : completed (.finish a :: ops) ++ skipped (.finish a :: ops) =
          completed ops ++ a :: skipped ops := by simp [completed, skipped, select]
      have hright : forgotten (.finish a :: ops) ++ (ended ++ [a]) =
          (forgotten ops ++ ended) ++ [a] := by simp [forgotten, select]
      rw [hleft, hright]
      exact List.perm_middle.trans ((ih.cons a).trans (List.perm_append_singleton a _).symm)
    | @skip ended waiting a b =>
      have hleft : completed (.skip a :: ops) ++ skipped (.skip a :: ops) =
          (completed ops ++ skipped ops) ++ [a] := by simp [completed, skipped, select]
      have hright : forgotten (.skip a :: ops) ++ (ended ++ [a]) =
          (forgotten ops ++ ended) ++ [a] := by simp [forgotten, select]
      rw [hleft, hright]
      exact ih.append_right [a]
    | @forget before after waiting active a =>
      have hleft : completed (.forget a :: ops) ++ skipped (.forget a :: ops) =
          completed ops ++ skipped ops := by simp [completed, skipped, select]
      have hright : forgotten (.forget a :: ops) ++ (before ++ after) =
          forgotten ops ++ a :: (before ++ after) := by simp [forgotten, select]
      rw [hleft, hright]
      exact ih.trans (List.perm_middle.append_left _)

end History
end JobQueue
end RedkeyOperator.Data
