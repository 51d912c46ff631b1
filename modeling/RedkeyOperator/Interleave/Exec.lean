import RedkeyOperator.Interleave.System

/-! # One program from its first call to its end

`Exec T m w res w'`: the program runs alone, each call with an outcome that the
terms allow, and ends with `res` in the world `w'`. The rules take a program
apart along its text. -/
namespace RedkeyOperator.Interleave

variable {S : Signature} {M : Service S} {T : Terms M} {α β : Type} {w w' : M.World}

inductive Exec (T : Terms M) : Prog S α → M.World → Except S.Err α → M.World → Prop where
  | ret {a : α} {w : M.World} : Exec T (.ret a) w (.ok a) w
  | fail {e : S.Err} {w : M.World} : Exec T (.fail e) w (.error e) w
  | call {c : S.Call} {k : Except S.Err (S.Reply c) → Prog S α} {w w' w'' : M.World}
      {res : Except S.Err α} (o : M.Outcome) (r : Except S.Err (S.Reply c))
      (ok : T.call c o w = true) (hw : M.answer c o w = some (r, w')) (h : Exec T (k r) w' res w'') :
      Exec T (.call c k) w res w''

namespace Exec

theorem ret_iff {a : α} {res : Except S.Err α} :
    Exec T (.ret a) w res w' ↔ res = .ok a ∧ w' = w := by
  constructor
  · intro h
    cases h
    exact ⟨rfl, rfl⟩
  · rintro ⟨rfl, rfl⟩
    exact .ret

theorem fail_iff {e : S.Err} {res : Except S.Err α} :
    Exec T (.fail e) w res w' ↔ res = .error e ∧ w' = w := by
  constructor
  · intro h
    cases h
    exact ⟨rfl, rfl⟩
  · rintro ⟨rfl, rfl⟩
    exact .fail

theorem call_iff {c : S.Call} {k : Except S.Err (S.Reply c) → Prog S α} {res : Except S.Err α} :
    Exec T (.call c k) w res w' ↔ ∃ o r v, T.call c o w = true ∧ M.answer c o w = some (r, v) ∧
      Exec T (k r) v res w' := by
  constructor
  · intro h
    cases h with
    | call o r ok hw h => exact ⟨o, r, _, ok, hw, h⟩
  · rintro ⟨o, r, v, ok, hw, h⟩
    exact .call o r ok hw h

theorem perform_iff {c : S.Call} {res : Except S.Err (Except S.Err (S.Reply c))} :
    Exec T (Prog.perform c) w res w' ↔ ∃ o r, T.call c o w = true ∧
      M.answer c o w = some (r, w') ∧ res = .ok r := by
  rw [Prog.perform, call_iff]
  constructor
  · rintro ⟨o, r, v, ok, hw, h⟩
    obtain ⟨rfl, rfl⟩ := ret_iff.mp h
    exact ⟨o, r, ok, hw, rfl⟩
  · rintro ⟨o, r, ok, hw, rfl⟩
    exact ⟨o, r, w', ok, hw, .ret⟩

theorem request_iff {c : S.Call} {res : Except S.Err (S.Reply c)} :
    Exec T (Prog.request c) w res w' ↔ ∃ o, T.call c o w = true ∧
      M.answer c o w = some (res, w') := by
  rw [Prog.request, call_iff]
  constructor
  · rintro ⟨o, r, v, ok, hw, h⟩
    cases r with
    | ok a =>
      obtain ⟨rfl, rfl⟩ := ret_iff.mp h
      exact ⟨o, ok, hw⟩
    | error e =>
      obtain ⟨rfl, rfl⟩ := fail_iff.mp h
      exact ⟨o, ok, hw⟩
  · rintro ⟨o, ok, hw⟩
    refine ⟨o, res, w', ok, hw, ?_⟩
    cases res with
    | ok a => exact .ret
    | error e => exact .fail

theorem bind_iff {m : Prog S α} {f : α → Prog S β} {res : Except S.Err β} :
    Exec T (m.bind f) w res w' ↔
      (∃ a v, Exec T m w (.ok a) v ∧ Exec T (f a) v res w') ∨
        ∃ e, res = .error e ∧ Exec T m w (.error e) w' := by
  induction m generalizing w with
  | ret a =>
    rw [Prog.bind_ret]
    constructor
    · exact fun h => .inl ⟨a, w, .ret, h⟩
    · rintro (⟨b, v, hm, hf⟩ | ⟨e, rfl, hm⟩)
      · cases hm
        exact hf
      · cases hm
  | fail e =>
    rw [Prog.bind_fail, fail_iff]
    constructor
    · rintro ⟨rfl, rfl⟩
      exact .inr ⟨e, rfl, .fail⟩
    · rintro (⟨a, v, hm, -⟩ | ⟨e', rfl, hm⟩)
      · cases hm
      · cases hm
        exact ⟨rfl, rfl⟩
  | call c k ih =>
    rw [Prog.bind, call_iff]
    constructor
    · rintro ⟨o, r, v, ok, hw, h⟩
      obtain ⟨a, u, hm, hf⟩ | ⟨e, rfl, hm⟩ := (ih r).mp h
      · exact .inl ⟨a, u, .call o r ok hw hm, hf⟩
      · exact .inr ⟨e, rfl, .call o r ok hw hm⟩
    · rintro (⟨a, u, hm, hf⟩ | ⟨e, rfl, hm⟩)
      · obtain ⟨o, r, v, ok, hw, h⟩ := call_iff.mp hm
        exact ⟨o, r, v, ok, hw, (ih r).mpr (.inl ⟨a, u, h, hf⟩)⟩
      · obtain ⟨o, r, v, ok, hw, h⟩ := call_iff.mp hm
        exact ⟨o, r, v, ok, hw, (ih r).mpr (.inr ⟨e, rfl, h⟩)⟩

theorem attempt_iff {m : Prog S α} {res : Except S.Err (Except S.Err α)} :
    Exec T m.attempt w res w' ↔ ∃ r, res = .ok r ∧ Exec T m w r w' := by
  induction m generalizing w with
  | ret a =>
    rw [Prog.attempt, ret_iff]
    constructor
    · rintro ⟨rfl, rfl⟩
      exact ⟨_, rfl, .ret⟩
    · rintro ⟨r, rfl, hm⟩
      cases hm
      exact ⟨rfl, rfl⟩
  | fail e =>
    rw [Prog.attempt, ret_iff]
    constructor
    · rintro ⟨rfl, rfl⟩
      exact ⟨_, rfl, .fail⟩
    · rintro ⟨r, rfl, hm⟩
      cases hm
      exact ⟨rfl, rfl⟩
  | call c k ih =>
    rw [Prog.attempt, call_iff]
    constructor
    · rintro ⟨o, r, v, ok, hw, h⟩
      obtain ⟨r', rfl, hm⟩ := (ih r).mp h
      exact ⟨r', rfl, .call o r ok hw hm⟩
    · rintro ⟨r', rfl, hm⟩
      obtain ⟨o, r, v, ok, hw, h⟩ := call_iff.mp hm
      exact ⟨o, r, v, ok, hw, (ih r).mpr ⟨r', rfl, h⟩⟩

/-- Stricter terms have fewer executions. -/
theorem mono {U : Terms M} (hTU : T.Implies U) {m : Prog S α} {res : Except S.Err α}
    (h : Exec T m w res w') : Exec U m w res w' := by
  induction h with
  | ret => exact .ret
  | fail => exact .fail
  | call o r ok hw _ ih => exact .call o r (hTU.call _ _ _ ok) hw ih

/-- What a program does alone, it does in the system. -/
theorem reaches {m main : Prog S α} {s₀ : State M α} {a : α}
    (h : Exec T m w (.ok a) w') (hs : Reaches T main s₀ ⟨w, some m⟩) :
    Reaches T main s₀ ⟨w', some (.ret a)⟩ := by
  generalize hres : Except.ok a = res at h
  induction h with
  | ret =>
    cases hres
    exact hs
  | fail => cases hres
  | @call c k w w' w'' res o r ok hw _ ih =>
    refine ih (.step (.call o) hs ok ?_) hres
    simp [step, hw]

end Exec

/-- What every call that the program may issue preserves, an execution preserves. -/
theorem Exec.preserves {P : S.Call → Prop} {R : M.World → M.World → Prop} (refl : ∀ w, R w w)
    (trans : ∀ {u v w}, R u v → R v w → R u w)
    (step : ∀ {c o r w w'}, P c → M.answer c o w = some (r, w') → R w w') {m : Prog S α}
    (hm : m.Calls P) {res : Except S.Err α} (h : Exec T m w res w') : R w w' := by
  induction h with
  | ret => exact refl _
  | fail => exact refl _
  | call o r ok hw _ ih => exact trans (step hm.1 hw) (ih (hm.2 r))

/-! ## Calls that are issued -/

/-- Some execution from `w` gets to issue the call. -/
inductive Asks (T : Terms M) : Prog S α → M.World → S.Call → Prop where
  | now {c : S.Call} {k : Except S.Err (S.Reply c) → Prog S α} {w : M.World} :
      Asks T (.call c k) w c
  | later {c d : S.Call} {k : Except S.Err (S.Reply c) → Prog S α} {w w' : M.World} (o : M.Outcome)
      (r : Except S.Err (S.Reply c)) (ok : T.call c o w = true)
      (hw : M.answer c o w = some (r, w')) (h : Asks T (k r) w' d) : Asks T (.call c k) w d

namespace Asks
variable {c d : S.Call}

theorem perform (h : Asks T (Prog.perform c) w d) : d = c := by
  cases h with
  | now => rfl
  | later o r ok hw h => cases h

theorem request (h : Asks T (Prog.request c) w d) : d = c := by
  cases h with
  | now => rfl
  | later o r ok hw h => cases r <;> cases h

theorem bind {m : Prog S α} {f : α → Prog S β} (h : Asks T (m.bind f) w c) :
    Asks T m w c ∨ ∃ a v, Exec T m w (.ok a) v ∧ Asks T (f a) v c := by
  induction m generalizing w with
  | ret a => exact .inr ⟨a, w, .ret, h⟩
  | fail e => cases h
  | call d k ih =>
    cases h with
    | now => exact .inl .now
    | later o r ok hw h =>
      obtain h | ⟨a, v, hv, h⟩ := ih r h
      · exact .inl (.later o r ok hw h)
      · exact .inr ⟨a, v, .call o r ok hw hv, h⟩

end Asks

/-! ## Executions by evaluation -/

/-- Run a program with the given outcomes of its calls. -/
def runWith (T : Terms M) : List M.Outcome → Prog S α → M.World →
    Option (Except S.Err α × M.World)
  | _, .ret a, w => some (.ok a, w)
  | _, .fail e, w => some (.error e, w)
  | [], .call _ _, _ => none
  | o :: os, .call c k, w =>
    if T.call c o w then (M.answer c o w).bind fun a => runWith T os (k a.1) a.2 else none

theorem exec_of_runWith (os : List M.Outcome) {m : Prog S α} {res : Except S.Err α}
    (h : runWith T os m w = some (res, w')) : Exec T m w res w' := by
  induction os generalizing m w with
  | nil =>
    cases m with
    | ret a => cases h; exact .ret
    | fail e => cases h; exact .fail
    | call c k => cases h
  | cons o os ih =>
    cases m with
    | ret a => cases h; exact .ret
    | fail e => cases h; exact .fail
    | call c k =>
      rw [runWith] at h
      split at h
      · rename_i ok
        obtain ⟨⟨r, v⟩, hw, h⟩ := Option.bind_eq_some_iff.mp h
        exact .call o r ok hw (ih h)
      · cases h

/-- A program comes to its end if every call has an answer. -/
theorem exists_exec (h : ∀ c v, ∃ o r v', T.call c o v = true ∧ M.answer c o v = some (r, v'))
    (m : Prog S α) (w : M.World) : ∃ res w', Exec T m w res w' := by
  induction m generalizing w with
  | ret a => exact ⟨_, _, .ret⟩
  | fail e => exact ⟨_, _, .fail⟩
  | call c k ih =>
    obtain ⟨o, r, v, ok, hw⟩ := h c w
    obtain ⟨res, w', hx⟩ := ih r v
    exact ⟨res, w', .call o r ok hw hx⟩

/-! ## Executions that succeed -/

/-- Some execution returns, and what it leaves satisfies `Q`. -/
def Succeeds (T : Terms M) (m : Prog S α) (w : M.World) (Q : α → M.World → Prop) : Prop :=
  ∃ a w', Exec T m w (.ok a) w' ∧ Q a w'

namespace Succeeds
variable {Q : α → M.World → Prop}

theorem ret {a : α} (h : Q a w) : Succeeds T (.ret a) w Q := ⟨a, w, .ret, h⟩

theorem bind {m : Prog S α} {f : α → Prog S β} {R : β → M.World → Prop} (hm : Succeeds T m w Q)
    (hf : ∀ a v, Q a v → Succeeds T (f a) v R) : Succeeds T (m.bind f) w R := by
  obtain ⟨a, v, h, hq⟩ := hm
  obtain ⟨b, v', h', hr⟩ := hf a v hq
  exact ⟨b, v', Exec.bind_iff.mpr (.inl ⟨a, v, h, h'⟩), hr⟩

theorem perform {c : S.Call} {Q : Except S.Err (S.Reply c) → M.World → Prop} (o : M.Outcome)
    {r : Except S.Err (S.Reply c)} (ok : T.call c o w = true) (hw : M.answer c o w = some (r, w'))
    (hq : Q r w') : Succeeds T (Prog.perform c) w Q :=
  ⟨r, w', Exec.perform_iff.mpr ⟨o, r, ok, hw, rfl⟩, hq⟩

theorem request {c : S.Call} {Q : S.Reply c → M.World → Prop} (o : M.Outcome) {a : S.Reply c}
    (ok : T.call c o w = true) (hw : M.answer c o w = some (.ok a, w')) (hq : Q a w') :
    Succeeds T (Prog.request c) w Q :=
  ⟨a, w', Exec.request_iff.mpr ⟨o, ok, hw⟩, hq⟩

theorem mono {m : Prog S α} {R : α → M.World → Prop} (hm : Succeeds T m w Q)
    (h : ∀ a v, Q a v → R a v) : Succeeds T m w R := by
  obtain ⟨a, v, hx, hq⟩ := hm
  exact ⟨a, v, hx, h a v hq⟩

end Succeeds

/-- Every execution returns, and what it leaves satisfies `Q`. -/
def Always (T : Terms M) (m : Prog S α) (w : M.World) (Q : α → M.World → Prop) : Prop :=
  ∀ res w', Exec T m w res w' → ∃ a, res = .ok a ∧ Q a w'

namespace Always
variable {Q : α → M.World → Prop}

theorem ret {a : α} (h : Q a w) : Always T (.ret a) w Q := by
  intro res w' hx
  obtain ⟨rfl, rfl⟩ := Exec.ret_iff.mp hx
  exact ⟨a, rfl, h⟩

theorem bind {m : Prog S α} {f : α → Prog S β} {R : β → M.World → Prop} (hm : Always T m w Q)
    (hf : ∀ a v, Q a v → Always T (f a) v R) : Always T (m.bind f) w R := by
  intro res w' hx
  obtain ⟨a, v, hv, hx⟩ | ⟨e, rfl, hv⟩ := Exec.bind_iff.mp hx
  · obtain ⟨b, hb, hq⟩ := hm _ v hv
    cases hb
    exact hf a v hq res w' hx
  · obtain ⟨a, ha, -⟩ := hm _ w' hv
    cases ha

theorem perform {c : S.Call} {Q : Except S.Err (S.Reply c) → M.World → Prop}
    (h : ∀ o r v, T.call c o w = true → M.answer c o w = some (r, v) → Q r v) :
    Always T (Prog.perform c) w Q := by
  intro res w' hx
  obtain ⟨o, r, ok, hw, rfl⟩ := Exec.perform_iff.mp hx
  exact ⟨r, rfl, h o r w' ok hw⟩

theorem request {c : S.Call} {Q : S.Reply c → M.World → Prop}
    (h : ∀ o r v, T.call c o w = true → M.answer c o w = some (r, v) → ∃ a, r = .ok a ∧ Q a v) :
    Always T (Prog.request c) w Q := by
  intro res w' hx
  obtain ⟨o, ok, hw⟩ := Exec.request_iff.mp hx
  exact h o res w' ok hw

theorem attempt {m : Prog S α} {R : Except S.Err α → M.World → Prop}
    (hm : Always T m w fun a => R (.ok a)) : Always T m.attempt w R := by
  intro res w' hx
  obtain ⟨r, rfl, hm'⟩ := Exec.attempt_iff.mp hx
  obtain ⟨a, rfl, hr⟩ := hm r w' hm'
  exact ⟨_, rfl, hr⟩

theorem mono {m : Prog S α} {R : α → M.World → Prop} (hm : Always T m w Q)
    (h : ∀ a v, Q a v → R a v) : Always T m w R := by
  intro res w' hx
  obtain ⟨a, ha, hq⟩ := hm res w' hx
  exact ⟨a, ha, h a w' hq⟩

end Always
end RedkeyOperator.Interleave
