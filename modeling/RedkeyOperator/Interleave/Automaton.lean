import RedkeyOperator.Interleave.System

/-! # Programs that follow an automaton

An automaton says at which points a program is between its calls: `next p c r q`
is the move from `p` to `q` on the answer `r` to the call `c`, and `silent` moves
take no call. `Follows` is a simulation of a program tree by an automaton. It
mentions no world, so it is proved along the program text alone; `Run` then is
the product of the automaton with the service, and every reachable state of a
program that follows the automaton lies on a run of that product. Invariants of
the system are proved by induction on `Run`. -/
namespace RedkeyOperator.Interleave

variable {S : Signature} {M : Service S} {α β : Type}

structure Automaton (S : Signature) where
  Point : Type
  /-- No program is running. -/
  idle : Point
  start : Point
  silent : Point → Point → Prop
  next : Point → (c : S.Call) → Except S.Err (S.Reply c) → Point → Prop

namespace Automaton
variable (A : Automaton S)

abbrev Silently : A.Point → A.Point → Prop := Relation.ReflTransGen A.silent

/-- At `p` the call `c` may be issued: there is a move for every answer. -/
def Accepts (p : A.Point) (c : S.Call) : Prop := ∀ r, ∃ q, A.next p c r q

def Follows (Q : α → A.Point → Prop) (E : S.Err → A.Point → Prop) : Prog S α → A.Point → Prop
  | .ret a, p => ∃ q, A.Silently p q ∧ Q a q
  | .fail e, p => ∃ q, A.Silently p q ∧ E e q
  | .call c k, p => ∃ q, A.Silently p q ∧ ∀ r, ∃ q', A.next q c r q' ∧ Follows Q E (k r) q'

/-- The automaton and the service side by side, under the terms of the system. -/
inductive Run (T : Terms M) (w₀ : M.World) : A.Point → M.World → Prop where
  | init : Run T w₀ A.idle w₀
  | env {p : A.Point} {w w' : M.World} (e : M.Ev) (h : Run T w₀ p w) (ok : T.env e w = true)
      (hw : M.env e w = some w') : Run T w₀ p w'
  | enter {p : A.Point} {w : M.World} (h : Run T w₀ p w) : Run T w₀ A.start (M.enter w)
  | silent {p q : A.Point} {w : M.World} (h : Run T w₀ p w) (hq : A.silent p q) : Run T w₀ q w
  | call {p q : A.Point} {w w' : M.World} (c : S.Call) (o : M.Outcome)
      (r : Except S.Err (S.Reply c)) (h : Run T w₀ p w) (hq : A.next p c r q)
      (ok : T.call c o w = true) (hw : M.answer c o w = some (r, w')) : Run T w₀ q w'

variable {A}

theorem Run.silently {T : Terms M} {w₀ w : M.World} {p q : A.Point} (h : A.Run T w₀ p w)
    (hq : A.Silently p q) : A.Run T w₀ q w := by
  induction hq with
  | refl => exact h
  | tail _ hs ih => exact ih.silent hs

/-- A run under stricter terms is a run under weaker ones. -/
theorem Run.mono {T U : Terms M} (hTU : T.Implies U) {w₀ w : M.World} {p : A.Point}
    (h : A.Run T w₀ p w) : A.Run U w₀ p w := by
  induction h with
  | init => exact .init
  | env e _ ok hw ih => exact ih.env e (hTU.env _ _ ok) hw
  | enter _ ih => exact ih.enter
  | silent _ hq ih => exact ih.silent hq
  | call c o r _ hq ok hw ih => exact ih.call c o r hq (hTU.call _ _ _ ok) hw

/-- A run may be taken up where another one was left, with no program running. -/
theorem Run.trans {T : Terms M} {w₀ w v : M.World} {p : A.Point} (h : A.Run T w₀ A.idle w)
    (h' : A.Run T w p v) : A.Run T w₀ p v := by
  induction h' with
  | init => exact h
  | env e _ ok hw ih => exact ih.env e ok hw
  | enter _ ih => exact ih.enter
  | silent _ hq ih => exact ih.silent hq
  | call c o r _ hq ok hw ih => exact ih.call c o r hq ok hw

/-- What holds at first and is kept by every step holds on every run. -/
theorem Run.invariant {T : Terms M} {w₀ w : M.World} {p : A.Point} {G : A.Point → M.World → Prop}
    (init : G A.idle w₀)
    (env : ∀ p e w w', G p w → T.env e w = true → M.env e w = some w' → G p w')
    (enter : ∀ p w, G p w → G A.start (M.enter w))
    (silent : ∀ p q w, G p w → A.silent p q → G q w)
    (call : ∀ p q w w' c o r, G p w → A.next p c r q → T.call c o w = true →
      M.answer c o w = some (r, w') → G q w') (h : A.Run T w₀ p w) : G p w := by
  induction h with
  | init => exact init
  | env e _ ok hw ih => exact env _ e _ _ ih ok hw
  | enter _ ih => exact enter _ _ ih
  | silent _ hq ih => exact silent _ _ _ ih hq
  | call c o r _ hq ok hw ih => exact call _ _ _ _ c o r ih hq ok hw

namespace Follows
variable {Q : α → A.Point → Prop} {E : S.Err → A.Point → Prop} {p : A.Point}

theorem ret {a : α} (h : Q a p) : A.Follows Q E (.ret a) p := ⟨p, .refl, h⟩

theorem fail {e : S.Err} (h : E e p) : A.Follows Q E (.fail e) p := ⟨p, .refl, h⟩

theorem call {c : S.Call} {k : Except S.Err (S.Reply c) → Prog S α}
    (h : ∀ r, ∃ q, A.next p c r q ∧ A.Follows Q E (k r) q) : A.Follows Q E (.call c k) p :=
  ⟨p, .refl, h⟩

theorem request {c : S.Call} {Q : S.Reply c → A.Point → Prop}
    (ha : ∀ a, ∃ q, A.next p c (.ok a) q ∧ Q a q)
    (he : ∀ e, ∃ q, A.next p c (.error e) q ∧ E e q) : A.Follows Q E (Prog.request c) p := by
  refine call fun r => ?_
  cases r with
  | ok a => obtain ⟨q, hq, h⟩ := ha a; exact ⟨q, hq, ret h⟩
  | error e => obtain ⟨q, hq, h⟩ := he e; exact ⟨q, hq, fail h⟩

/-- A silent move may be taken before the program goes on. -/
theorem after {q : A.Point} {m : Prog S α} (hp : A.silent p q) (h : A.Follows Q E m q) :
    A.Follows Q E m p := by
  cases m with
  | ret a => obtain ⟨q', hq, h⟩ := h; exact ⟨q', .head hp hq, h⟩
  | fail e => obtain ⟨q', hq, h⟩ := h; exact ⟨q', .head hp hq, h⟩
  | call c k => obtain ⟨q', hq, h⟩ := h; exact ⟨q', .head hp hq, h⟩

theorem after_all {q : A.Point} {m : Prog S α} (hp : A.Silently p q) (h : A.Follows Q E m q) :
    A.Follows Q E m p := by
  induction hp using Relation.ReflTransGen.head_induction_on with
  | refl => exact h
  | head hs _ ih => exact after hs ih

theorem bind {m : Prog S α} {f : α → Prog S β} {Q' : β → A.Point → Prop}
    (hm : A.Follows Q E m p) (hf : ∀ a q, Q a q → A.Follows Q' E (f a) q) :
    A.Follows Q' E (m.bind f) p := by
  induction m generalizing p with
  | ret a => obtain ⟨q, hq, h⟩ := hm; exact after_all hq (hf a q h)
  | fail e => exact hm
  | call c k ih =>
    obtain ⟨q, hq, h⟩ := hm
    refine ⟨q, hq, fun r => ?_⟩
    obtain ⟨q', hn, h⟩ := h r
    exact ⟨q', hn, ih r h⟩

/-- `bind` after a program that ends at one known point. -/
theorem seq {m : Prog S α} {f : α → Prog S β} {Q' : β → A.Point → Prop} {q : A.Point}
    (hm : A.Follows (fun _ q' => q' = q) E m p) (hf : ∀ a, A.Follows Q' E (f a) q) :
    A.Follows Q' E (m.bind f) p := by
  refine hm.bind fun a q' hq => ?_
  subst hq
  exact hf a

/-- `bind` after an `attempt`: the two ends of the attempted program are followed apart. -/
theorem attempt_bind {m : Prog S α} {f : Except S.Err α → Prog S β} {Q' : β → A.Point → Prop}
    {E' : S.Err → A.Point → Prop} (hm : A.Follows Q E m p)
    (hok : ∀ a q, Q a q → A.Follows Q' E' (f (.ok a)) q)
    (herr : ∀ e q, E e q → A.Follows Q' E' (f (.error e)) q) :
    A.Follows Q' E' (m.attempt.bind f) p := by
  induction m generalizing p with
  | ret a => obtain ⟨q, hq, h⟩ := hm; exact after_all hq (hok a q h)
  | fail e => obtain ⟨q, hq, h⟩ := hm; exact after_all hq (herr e q h)
  | call c k ih =>
    obtain ⟨q, hq, h⟩ := hm
    refine ⟨q, hq, fun r => ?_⟩
    obtain ⟨q', hn, h⟩ := h r
    exact ⟨q', hn, ih r h⟩

theorem mono {m : Prog S α} {Q' : α → A.Point → Prop} {E' : S.Err → A.Point → Prop}
    (hm : A.Follows Q E m p) (hQ : ∀ a q, Q a q → Q' a q) (hE : ∀ e q, E e q → E' e q) :
    A.Follows Q' E' m p := by
  induction m generalizing p with
  | ret a => obtain ⟨q, hq, h⟩ := hm; exact ⟨q, hq, hQ a q h⟩
  | fail e => obtain ⟨q, hq, h⟩ := hm; exact ⟨q, hq, hE e q h⟩
  | call c k ih =>
    obtain ⟨q, hq, h⟩ := hm
    refine ⟨q, hq, fun r => ?_⟩
    obtain ⟨q', hn, h⟩ := h r
    exact ⟨q', hn, ih r h⟩

/-- A program whose calls all loop at `p` stays there. -/
theorem stay {m : Prog S α} {C : S.Call → Prop} (hm : m.Calls C)
    (h : ∀ c r, C c → A.next p c r p) : A.Follows (fun _ q => q = p) (fun _ q => q = p) m p := by
  induction m with
  | ret a => exact ret rfl
  | fail e => exact fail rfl
  | call c k ih => exact call fun r => ⟨p, h c r hm.1, ih r (hm.2 r)⟩

/-- A program whose calls are possible at every point is followed from any of them. -/
theorem roam {m : Prog S α} {C : S.Call → Prop} (hm : m.Calls C)
    (h : ∀ p c r, C c → ∃ q, A.next p c r q) (p : A.Point) :
    A.Follows (fun _ _ => True) (fun _ _ => True) m p := by
  induction m generalizing p with
  | ret a => exact ret trivial
  | fail e => exact fail trivial
  | call c k ih =>
    refine call fun r => ?_
    obtain ⟨q, hq⟩ := h p c r hm.1
    exact ⟨q, hq, ih r (hm.2 r) q⟩

/-- Every reachable state of a program that follows the automaton is on a run
of the automaton, at a point from which the rest of the program follows it. -/
theorem reaches {T : Terms M} {main : Prog S α} {s₀ s : State M α}
    (hmain : A.Follows Q E main A.start) (hs : s₀.running = none) (h : Reaches T main s₀ s) :
    ∃ p, A.Run T s₀.world p s.world ∧ ∀ m, s.running = some m → A.Follows Q E m p := by
  induction h with
  | refl => exact ⟨A.idle, .init, fun m hm => by rw [hs] at hm; cases hm⟩
  | @step s t e _ ok ht ih =>
    obtain ⟨p, hp, hm⟩ := ih
    cases e with
    | env e =>
      obtain ⟨w, hw, rfl⟩ := Option.map_eq_some_iff.mp ht
      exact ⟨p, hp.env e ok hw, hm⟩
    | start =>
      simp only [step] at ht
      split at ht <;> cases ht
      exact ⟨A.start, hp.enter, fun m hm => by cases hm; exact hmain⟩
    | call o =>
      simp only [step] at ht
      split at ht
      · rename_i c k hrun
        obtain ⟨⟨r, w⟩, ha, rfl⟩ := Option.map_eq_some_iff.mp ht
        simp only [Terms.allow, hrun] at ok
        obtain ⟨q, hq, hk⟩ := hm _ hrun
        obtain ⟨q', hn, hf⟩ := hk r
        exact ⟨q', (hp.silently hq).call c o r hn ok ha, fun m hm => by cases hm; exact hf⟩
      · cases ht
    | stop =>
      simp only [step] at ht
      split at ht <;> cases ht
      exact ⟨p, hp, fun m hm => by cases hm⟩

/-- A call that waits for its answer is one the automaton accepts. -/
theorem pending {T : Terms M} {main : Prog S α} {s₀ s : State M α}
    (hmain : A.Follows Q E main A.start) (hs : s₀.running = none) (h : Reaches T main s₀ s)
    {c : S.Call} {k : Except S.Err (S.Reply c) → Prog S α} (hc : s.running = some (.call c k)) :
    ∃ p, A.Run T s₀.world p s.world ∧ A.Accepts p c := by
  obtain ⟨p, hp, hm⟩ := hmain.reaches hs h
  obtain ⟨q, hq, hk⟩ := hm _ hc
  refine ⟨q, hp.silently hq, fun r => ?_⟩
  obtain ⟨q', hn, -⟩ := hk r
  exact ⟨q', hn⟩

theorem returned {T : Terms M} {main : Prog S α} {s₀ s : State M α}
    (hmain : A.Follows Q E main A.start) (hs : s₀.running = none) (h : Reaches T main s₀ s)
    {a : α} (ha : s.running = some (.ret a)) : ∃ p, A.Run T s₀.world p s.world ∧ Q a p := by
  obtain ⟨p, hp, hm⟩ := hmain.reaches hs h
  obtain ⟨q, hq, hQ⟩ := hm _ ha
  exact ⟨q, hp.silently hq, hQ⟩

end Follows
end Automaton
end RedkeyOperator.Interleave
