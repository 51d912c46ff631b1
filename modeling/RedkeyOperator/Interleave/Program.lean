import Mathlib.Logic.Relation

/-! # Programs that call a shared service

A program is a finite tree of calls. Nothing is said about what a call does:
the service answers it, and between two calls of one program anything else may
happen to the service. A program ends by returning a value or by failing, and
a caller may observe the failure of a part of itself (`attempt`). -/
namespace RedkeyOperator.Interleave

/-- The calls of a service, the reply of each and the errors both the service
and its programs end with. -/
structure Signature where
  Call : Type
  Reply : Call → Type
  Err : Type

inductive Prog (S : Signature) (α : Type) where
  | ret (a : α)
  | fail (e : S.Err)
  | call (c : S.Call) (k : Except S.Err (S.Reply c) → Prog S α)

namespace Prog
variable {S : Signature} {α β : Type}

def bind : Prog S α → (α → Prog S β) → Prog S β
  | .ret a, f => f a
  | .fail e, _ => .fail e
  | .call c k, f => .call c fun r => (k r).bind f

instance : Monad (Prog S) where
  pure := .ret
  bind := .bind

/-- Issue one call and hand its result, an error included, to the caller. -/
def perform (c : S.Call) : Prog S (Except S.Err (S.Reply c)) := .call c .ret

/-- Issue one call and give up with its error. -/
def request (c : S.Call) : Prog S (S.Reply c) := .call c fun
  | .ok a => .ret a
  | .error e => .fail e

/-- Run a program and hand its failure to the caller as a value. -/
def attempt : Prog S α → Prog S (Except S.Err α)
  | .ret a => .ret (.ok a)
  | .fail e => .ret (.error e)
  | .call c k => .call c fun r => (k r).attempt

/-- Every call the program can issue, whatever the replies, satisfies `p`. -/
def Calls (p : S.Call → Prop) : Prog S α → Prop
  | .ret _ | .fail _ => True
  | .call c k => p c ∧ ∀ r, (k r).Calls p

@[simp] theorem pure_eq (a : α) : (pure a : Prog S α) = .ret a := rfl
@[simp] theorem bind_eq (m : Prog S α) (f : α → Prog S β) : m >>= f = m.bind f := rfl
@[simp] theorem bind_ret (a : α) (f : α → Prog S β) : (ret a).bind f = f a := rfl
@[simp] theorem bind_fail (e : S.Err) (f : α → Prog S β) : (fail e).bind f = .fail e := rfl

theorem Calls.bind {p : S.Call → Prop} {m : Prog S α} {f : α → Prog S β}
    (hm : m.Calls p) (hf : ∀ a, (f a).Calls p) : (m.bind f).Calls p := by
  induction m with
  | ret a => exact hf a
  | fail e => trivial
  | call c k ih => exact ⟨hm.1, fun r => ih r (hm.2 r)⟩

theorem Calls.mono {p q : S.Call → Prop} {m : Prog S α} (hm : m.Calls p) (h : ∀ c, p c → q c) :
    m.Calls q := by
  induction m with
  | ret _ | fail _ => trivial
  | call c k ih => exact ⟨h c hm.1, fun r => ih r (hm.2 r)⟩

theorem Calls.attempt {p : S.Call → Prop} {m : Prog S α} (hm : m.Calls p) :
    m.attempt.Calls p := by
  induction m with
  | ret a => trivial
  | fail e => trivial
  | call c k ih => exact ⟨hm.1, fun r => ih r (hm.2 r)⟩

theorem Calls.request {p : S.Call → Prop} {c : S.Call} (hc : p c) :
    (request c : Prog S _).Calls p :=
  ⟨hc, fun r => by cases r <;> trivial⟩

theorem Calls.perform {p : S.Call → Prop} {c : S.Call} (hc : p c) :
    (perform c : Prog S _).Calls p := ⟨hc, fun _ => trivial⟩

end Prog
end RedkeyOperator.Interleave
