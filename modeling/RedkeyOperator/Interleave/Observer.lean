import RedkeyOperator.Interleave.Pool

/-! # Observers

An observer notes the calls of programs that run against a hub, as the metrics of a
process do. It does not take part: what is kept by the hub is kept with it. Its notes
may be lost at any time. -/
namespace RedkeyOperator.Interleave

structure Observer (S : Signature) (K : Type) where
  Notes : Type
  /-- What the observer sees besides the call. -/
  Reading : Type
  note : K → S.Call → Reading → Notes → Notes
  forget : K → Notes → Notes

namespace Hub
variable {S : Signature} {K : Type} {H : Hub S K}

/-- An observed hub. The environment makes the observer forget. -/
def observed (H : Hub S K) (O : Observer S K) : Hub S K where
  World := H.World × O.Notes
  Ev := H.Ev ⊕ K
  Outcome := H.Outcome × O.Reading
  env
    | .inl e, w => (H.env e w.1).map fun w' => (w', w.2)
    | .inr k, w => some (w.1, O.forget k w.2)
  answer k c o w := (H.answer k c o.1 w.1).map fun a => (a.1, a.2, O.note k c o.2 w.2)
  enter k w := (H.enter k w.1, w.2)

/-- An invariant of the hub, with one of the notes that `own` calls keep. -/
theorem KeepsUpTo.observed {ok I : H.World → Prop} {own : K → S.Call → Prop}
    {sound : K → (c : S.Call) → Except S.Err (S.Reply c) → Prop}
    (hI : KeepsUpTo H ok I own sound) {O : Observer S K} {J : O.Notes → Prop}
    (note : ∀ {k : K} {c : S.Call} (x : O.Reading) {n : O.Notes}, own k c → J n → J (O.note k c x n))
    (forget : ∀ (k : K) {n : O.Notes}, J n → J (O.forget k n)) :
    KeepsUpTo (H.observed O) (fun w => ok w.1) (fun w => I w.1 ∧ J w.2) own sound where
  before_env {e w w'} he hok := by
    cases e with
    | inl e =>
      obtain ⟨u, hu, rfl⟩ := Option.map_eq_some_iff.mp he
      exact hI.before_env hu hok
    | inr k =>
      cases he
      exact hok
  before_enter hok := hI.before_enter hok
  before_answer {k c o r w w'} hans hok := by
    obtain ⟨⟨r', u⟩, hu, he⟩ := Option.map_eq_some_iff.mp hans
    cases he
    exact hI.before_answer hu hok
  env {e w w'} hok hw he := by
    cases e with
    | inl e =>
      obtain ⟨u, hu, rfl⟩ := Option.map_eq_some_iff.mp he
      exact ⟨hI.env hok hw.1 hu, hw.2⟩
    | inr k =>
      cases he
      exact ⟨hw.1, forget k hw.2⟩
  enter hw := ⟨hI.enter hw.1, hw.2⟩
  answer {k c o r w w'} hok hc hw hans := by
    obtain ⟨⟨r', u⟩, hu, he⟩ := Option.map_eq_some_iff.mp hans
    cases he
    obtain ⟨hu', hr⟩ := hI.answer hok hc hw.1 hu
    exact ⟨⟨hu', note o.2 hc hw.2⟩, hr⟩

end Hub
end RedkeyOperator.Interleave
