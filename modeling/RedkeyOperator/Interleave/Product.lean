import RedkeyOperator.Interleave.Automaton

/-! # Two automata for one program

A program that follows two automata follows their product, so what one of them
says of a point of the program can be used to prove what the other says. -/
namespace RedkeyOperator.Interleave.Automaton

variable {S : Signature} {M : Service S} {α : Type}

inductive ProdSilent (A B : Automaton S) : A.Point × B.Point → A.Point × B.Point → Prop where
  | left {p p' : A.Point} {q : B.Point} (h : A.silent p p') : ProdSilent A B (p, q) (p', q)
  | right {p : A.Point} {q q' : B.Point} (h : B.silent q q') : ProdSilent A B (p, q) (p, q')

def prod (A B : Automaton S) : Automaton S where
  Point := A.Point × B.Point
  idle := (A.idle, B.idle)
  start := (A.start, B.start)
  silent := ProdSilent A B
  next p c r q := A.next p.1 c r q.1 ∧ B.next p.2 c r q.2

variable {A B : Automaton S}

theorem silently_prod {p p' : A.Point} {q q' : B.Point} (hp : A.Silently p p')
    (hq : B.Silently q q') : (A.prod B).Silently (p, q) (p', q') := by
  have left : (A.prod B).Silently (p, q) (p', q) := by
    induction hp with
    | refl => exact .refl
    | tail _ h ih => exact ih.tail (.left h)
  induction hq with
  | refl => exact left
  | tail _ h ih => exact ih.tail (.right h)

theorem Follows.prod {Q : α → A.Point → Prop} {Q' : α → B.Point → Prop}
    {E : S.Err → A.Point → Prop} {E' : S.Err → B.Point → Prop} {m : Prog S α} {p : A.Point}
    {q : B.Point} (h : A.Follows Q E m p) (h' : B.Follows Q' E' m q) :
    (A.prod B).Follows (fun a s => Q a s.1 ∧ Q' a s.2) (fun e s => E e s.1 ∧ E' e s.2) m (p, q) := by
  induction m generalizing p q with
  | ret a =>
    obtain ⟨p', hp, hQ⟩ := h
    obtain ⟨q', hq, hQ'⟩ := h'
    exact ⟨(p', q'), silently_prod hp hq, hQ, hQ'⟩
  | fail e =>
    obtain ⟨p', hp, hE⟩ := h
    obtain ⟨q', hq, hE'⟩ := h'
    exact ⟨(p', q'), silently_prod hp hq, hE, hE'⟩
  | call c k ih =>
    obtain ⟨p', hp, hn⟩ := h
    obtain ⟨q', hq, hn'⟩ := h'
    refine ⟨(p', q'), silently_prod hp hq, fun r => ?_⟩
    obtain ⟨p'', hpn, hf⟩ := hn r
    obtain ⟨q'', hqn, hf'⟩ := hn' r
    exact ⟨(p'', q''), ⟨hpn, hqn⟩, ih r hf hf'⟩

/-- A run of the product is a run of its first automaton. -/
theorem Run.left {T : Terms M} {w₀ w : M.World} {s : (A.prod B).Point}
    (h : (A.prod B).Run T w₀ s w) : A.Run T w₀ (Prod.fst s) w := by
  induction h with
  | init => exact .init
  | env e _ ok hw ih => exact ih.env e ok hw
  | enter _ ih => exact ih.enter
  | silent _ hq ih =>
    cases hq with
    | left h => exact ih.silent h
    | right h => exact ih
  | call c o r _ hq ok hw ih => exact ih.call c o r hq.1 ok hw

/-- Invariants of both automata. -/
theorem Run.prod_induct {T : Terms M} {w₀ : M.World} {G : A.Point → B.Point → M.World → Prop}
    (init : G A.idle B.idle w₀)
    (env : ∀ p q e w w', (A.prod B).Run T w₀ (p, q) w → G p q w → T.env e w = true →
      M.env e w = some w' → G p q w')
    (enter : ∀ p q w, G p q w → G A.start B.start (M.enter w))
    (left : ∀ p p' q w, (A.prod B).Run T w₀ (p, q) w → G p q w → A.silent p p' → G p' q w)
    (right : ∀ p q q' w, G p q w → B.silent q q' → G p q' w)
    (call : ∀ p p' q q' w w' c o r, (A.prod B).Run T w₀ (p, q) w → G p q w → A.next p c r p' →
      B.next q c r q' → T.call c o w = true → M.answer c o w = some (r, w') → G p' q' w')
    {s : (A.prod B).Point} {w : M.World} (h : (A.prod B).Run T w₀ s w) :
    G (Prod.fst s) (Prod.snd s) w := by
  induction h with
  | init => exact init
  | env e h ok hw ih => exact env _ _ e _ _ h ih ok hw
  | enter _ ih => exact enter _ _ _ ih
  | silent h hq ih =>
    cases hq with
    | left hq => exact left _ _ _ _ h ih hq
    | right hq => exact right _ _ _ _ ih hq
  | call c o r h hq ok hw ih => exact call _ _ _ _ _ _ c o r h ih hq.1 hq.2 ok hw

end RedkeyOperator.Interleave.Automaton
