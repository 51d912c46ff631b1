import RedkeyOperator.Interleave.System

/-! # Programs side by side

Two programs run against one service, their calls interleaved in any way. When
each keeps to a region of the world of its own, and the regions are apart, both
make the same calls with the same answers as one after the other, in either
order, and the world is the same in both regions. -/
namespace RedkeyOperator.Interleave

variable {S : Signature} {M : Service S} {α β : Type}

/-- A call with its outcome and its answer. -/
structure Exchange (M : Service S) where
  call : S.Call
  outcome : M.Outcome
  reply : Except S.Err (S.Reply call)

/-- A program has ended. -/
inductive Ended : Prog S α → Except S.Err α → Prop where
  | ret (a : α) : Ended (.ret a) (.ok a)
  | fail (e : S.Err) : Ended (.fail e) (.error e)

/-- A program alone, with all its calls. -/
inductive Trace (M : Service S) : Prog S α → List (Exchange M) → M.World → Except S.Err α →
    M.World → Prop where
  | done {m : Prog S α} {res : Except S.Err α} {w : M.World} (h : Ended m res) : Trace M m [] w res w
  | call {c : S.Call} {k : Except S.Err (S.Reply c) → Prog S α} {o : M.Outcome}
      {r : Except S.Err (S.Reply c)} {es : List (Exchange M)} {w w' v : M.World}
      {res : Except S.Err α} (hw : M.answer c o w = some (r, w'))
      (h : Trace M (k r) es w' res v) : Trace M (.call c k) (⟨c, o, r⟩ :: es) w res v

/-- Two programs, with the calls of each. -/
inductive Both (M : Service S) : Prog S α → Prog S β → List (Exchange M) → List (Exchange M) →
    M.World → Except S.Err α → Except S.Err β → M.World → Prop where
  | done {m : Prog S α} {n : Prog S β} {res : Except S.Err α} {res' : Except S.Err β} {w : M.World}
      (hm : Ended m res) (hn : Ended n res') : Both M m n [] [] w res res' w
  | left {c : S.Call} {k : Except S.Err (S.Reply c) → Prog S α} {n : Prog S β} {o : M.Outcome}
      {r : Except S.Err (S.Reply c)} {es fs : List (Exchange M)} {w w' v : M.World}
      {res : Except S.Err α} {res' : Except S.Err β} (hw : M.answer c o w = some (r, w'))
      (h : Both M (k r) n es fs w' res res' v) :
      Both M (.call c k) n (⟨c, o, r⟩ :: es) fs w res res' v
  | right {c : S.Call} {m : Prog S α} {k : Except S.Err (S.Reply c) → Prog S β} {o : M.Outcome}
      {r : Except S.Err (S.Reply c)} {es fs : List (Exchange M)} {w w' v : M.World}
      {res : Except S.Err α} {res' : Except S.Err β} (hw : M.answer c o w = some (r, w'))
      (h : Both M m (k r) es fs w' res res' v) :
      Both M m (.call c k) es (⟨c, o, r⟩ :: fs) w res res' v

theorem Both.symm {m : Prog S α} {n : Prog S β} {es fs : List (Exchange M)} {w v : M.World}
    {res : Except S.Err α} {res' : Except S.Err β} (h : Both M m n es fs w res res' v) :
    Both M n m fs es w res' res v := by
  induction h with
  | done hm hn => exact .done hn hm
  | left hw _ ih => exact .right hw ih
  | right hw _ ih => exact .left hw ih

theorem Ended.unique {m : Prog S α} {res res' : Except S.Err α} (h : Ended m res)
    (h' : Ended m res') : res = res' := by
  cases h <;> cases h' <;> rfl

/-- A program does the same when its calls go the same. -/
theorem Trace.unique {m : Prog S α} {es es' : List (Exchange M)} {w v v' : M.World}
    {res res' : Except S.Err α} (h : Trace M m es w res v) (h' : Trace M m es' w res' v')
    (ho : es.map Exchange.outcome = es'.map Exchange.outcome) :
    es = es' ∧ res = res' ∧ v = v' := by
  induction h generalizing es' with
  | done hend =>
    cases h' with
    | done hend' => exact ⟨rfl, hend.unique hend', rfl⟩
    | call => cases hend
  | call hans _ ih =>
    cases h' with
    | done hend' => cases hend'
    | call hans' htail =>
      obtain ⟨rfl, ho'⟩ := List.cons.inj ho
      rw [hans] at hans'
      cases hans'
      obtain ⟨rfl, rfl, rfl⟩ := ih htail ho'
      exact ⟨rfl, rfl, rfl⟩

/-! ## Runs by evaluation -/

def Prog.ended : Prog S α → Option (Except S.Err α)
  | .ret a => some (.ok a)
  | .fail e => some (.error e)
  | .call _ _ => none

theorem Prog.ended_of_eq {m : Prog S α} {res : Except S.Err α} (h : m.ended = some res) :
    Ended m res := by
  cases m with
  | ret a => cases h; exact .ret a
  | fail e => cases h; exact .fail e
  | call c k => cases h

structure Woven (M : Service S) (α β : Type) where
  left : List (Exchange M) := []
  right : List (Exchange M) := []
  leftResult : Except S.Err α
  rightResult : Except S.Err β
  world : M.World

/-- Run two programs by a schedule: whose call is next, and how it goes. -/
def weave : List (Bool × M.Outcome) → Prog S α → Prog S β → M.World → Option (Woven M α β)
  | [], m, n, w => m.ended.bind fun res => n.ended.map fun res' =>
    { leftResult := res, rightResult := res', world := w }
  | (true, o) :: os, .call c k, n, w => (M.answer c o w).bind fun a =>
    (weave os (k a.1) n a.2).map fun x => { x with left := ⟨c, o, a.1⟩ :: x.left }
  | (false, o) :: os, m, .call c k, w => (M.answer c o w).bind fun a =>
    (weave os m (k a.1) a.2).map fun x => { x with right := ⟨c, o, a.1⟩ :: x.right }
  | _, _, _, _ => none

theorem both_of_weave {os : List (Bool × M.Outcome)} {m : Prog S α} {n : Prog S β} {w : M.World}
    {x : Woven M α β} (h : weave os m n w = some x) :
    Both M m n x.left x.right w x.leftResult x.rightResult x.world ∧
      ∀ e ∈ x.left ++ x.right, e.outcome ∈ os.map Prod.snd := by
  fun_induction weave os m n w generalizing x with
  | case1 m n w =>
    obtain ⟨res, hm, h⟩ := Option.bind_eq_some_iff.mp h
    obtain ⟨res', hn, rfl⟩ := Option.map_eq_some_iff.mp h
    exact ⟨.done (Prog.ended_of_eq hm) (Prog.ended_of_eq hn), by simp⟩
  | case2 o os c k n w ih =>
    obtain ⟨⟨r, w'⟩, hans, h⟩ := Option.bind_eq_some_iff.mp h
    obtain ⟨y, hy, rfl⟩ := Option.map_eq_some_iff.mp h
    obtain ⟨hb, ho⟩ := ih _ hy
    refine ⟨.left hans hb, fun e he => ?_⟩
    obtain rfl | he := List.mem_cons.mp he
    · exact List.mem_cons_self
    · exact List.mem_cons_of_mem _ (ho e he)
  | case3 o os m c k w ih =>
    obtain ⟨⟨r, w'⟩, hans, h⟩ := Option.bind_eq_some_iff.mp h
    obtain ⟨y, hy, rfl⟩ := Option.map_eq_some_iff.mp h
    obtain ⟨hb, ho⟩ := ih _ hy
    refine ⟨.right hans hb, fun e he => ?_⟩
    obtain he | he := List.mem_append.mp he
    · exact List.mem_cons_of_mem _ (ho e (List.mem_append_left _ he))
    · obtain rfl | he := List.mem_cons.mp he
      · exact List.mem_cons_self
      · exact List.mem_cons_of_mem _ (ho e (List.mem_append_right _ he))
  | case4 => cases h

theorem exists_both_of_weave {m : Prog S α} {n : Prog S β} {w : M.World}
    (os : List (Bool × M.Outcome)) (p : Woven M α β → Bool) (h : (weave os m n w).any p = true) :
    ∃ x, Both M m n x.left x.right w x.leftResult x.rightResult x.world ∧
      (∀ e ∈ x.left ++ x.right, e.outcome ∈ os.map Prod.snd) ∧ p x = true := by
  cases hx : weave os m n w with
  | none => rw [hx] at h; cases h
  | some x =>
    obtain ⟨hboth, ho⟩ := both_of_weave hx
    exact ⟨x, hboth, ho, by simpa [hx] using h⟩

/-! ## Programs that keep to their calls -/

/-- As long as the answers are `sound`, every call is an `own` one and what is
returned satisfies `Q`. -/
def Prog.Within (own : S.Call → Prop) (sound : (c : S.Call) → Except S.Err (S.Reply c) → Prop)
    (Q : α → Prop) : Prog S α → Prop
  | .ret a => Q a
  | .fail _ => True
  | .call c k => own c ∧ ∀ r, sound c r → (k r).Within own sound Q

namespace Prog.Within
variable {own : S.Call → Prop} {sound : (c : S.Call) → Except S.Err (S.Reply c) → Prop}
  {Q : α → Prop}

theorem bind {m : Prog S α} {f : α → Prog S β} {R : β → Prop} (hm : m.Within own sound Q)
    (hf : ∀ a, Q a → (f a).Within own sound R) : (m.bind f).Within own sound R := by
  induction m with
  | ret a => exact hf a hm
  | fail e => trivial
  | call c k ih => exact ⟨hm.1, fun r hr => ih r (hm.2 r hr)⟩

theorem attempt_bind {m : Prog S α} {f : Except S.Err α → Prog S β} {R : β → Prop}
    (hm : m.Within own sound Q) (hok : ∀ a, Q a → (f (.ok a)).Within own sound R)
    (herr : ∀ e, (f (.error e)).Within own sound R) : (m.attempt.bind f).Within own sound R := by
  induction m with
  | ret a => exact hok a hm
  | fail e => exact herr e
  | call c k ih => exact ⟨hm.1, fun r hr => ih r (hm.2 r hr)⟩

theorem perform {c : S.Call} (hc : own c) :
    (Prog.perform c : Prog S _).Within own sound (sound c) := ⟨hc, fun _ hr => hr⟩

theorem request {c : S.Call} (hc : own c) :
    (Prog.request c : Prog S _).Within own sound fun a => sound c (.ok a) := by
  refine ⟨hc, fun r hr => ?_⟩
  cases r with
  | ok a => exact hr
  | error e => trivial

theorem of_calls {m : Prog S α} (h : m.Calls own) : m.Within own sound fun _ => True := by
  induction m with
  | ret a => trivial
  | fail e => trivial
  | call c k ih => exact ⟨h.1, fun r _ => ih r (h.2 r)⟩

theorem any (m : Prog S α) : m.Within (fun _ => True) sound fun _ => True := by
  induction m with
  | ret a => trivial
  | fail e => trivial
  | call c k ih => exact ⟨trivial, fun r _ => ih r⟩

theorem mono {m : Prog S α} {R : α → Prop} (hm : m.Within own sound Q) (h : ∀ a, Q a → R a) :
    m.Within own sound R := by
  induction m with
  | ret a => exact h a hm
  | fail e => trivial
  | call c k ih => exact ⟨hm.1, fun r hr => ih r (hm.2 r hr)⟩

end Prog.Within

/-- In a run of a program that keeps to its calls: an invariant of the world that
own calls keep, and how far the program is. -/
theorem Reaches.within {own : S.Call → Prop}
    {sound : (c : S.Call) → Except S.Err (S.Reply c) → Prop} {Q : α → Prop} {T : Terms M}
    {I : M.World → Prop} {main : Prog S α} {w₀ : M.World} {s : State M α}
    (h : Reaches T main ⟨w₀, none⟩ s) (hmain : main.Within own sound Q) (h₀ : I w₀)
    (henv : ∀ {e : M.Ev} {w w' : M.World}, I w → M.env e w = some w' → I w')
    (henter : ∀ {w : M.World}, I w → I (M.enter w))
    (hans : ∀ {t : State M α} {c : S.Call} {o : M.Outcome} {r : Except S.Err (S.Reply c)}
      {w : M.World}, Reaches T main ⟨w₀, none⟩ t → own c → I t.world →
        M.answer c o t.world = some (r, w) → I w ∧ sound c r) :
    I s.world ∧ ∀ m, s.running = some m → m.Within own sound Q := by
  induction h with
  | refl => exact ⟨h₀, fun m hm => by cases hm⟩
  | step e hs _ ht ih =>
    obtain ⟨hw, hrun⟩ := ih
    cases e with
    | env e =>
      obtain ⟨w', hw', rfl⟩ := Option.map_eq_some_iff.mp ht
      exact ⟨henv hw hw', hrun⟩
    | start =>
      simp only [Interleave.step] at ht
      split at ht
      · cases ht
        refine ⟨henter hw, fun m hm => ?_⟩
        cases hm
        exact hmain
      · cases ht
    | call o =>
      simp only [Interleave.step] at ht
      split at ht
      · rename_i c k hk
        obtain ⟨⟨r, w'⟩, ha, rfl⟩ := Option.map_eq_some_iff.mp ht
        have hwithin := hrun _ hk
        obtain ⟨hw', hsound⟩ := hans hs hwithin.1 hw ha
        refine ⟨hw', fun m hm => ?_⟩
        cases hm
        exact hwithin.2 r hsound
      · cases ht
    | stop =>
      simp only [Interleave.step] at ht
      split at ht
      · cases ht
      · cases ht
        exact ⟨hw, fun m hm => by cases hm⟩

/-! ## Regions -/

/-- A part of the world. `own` calls depend on nothing and change nothing outside
it, in worlds with the invariant and with outcomes that are `Fine`. -/
structure Region (M : Service S) (Inv : M.World → Prop) (Fine : M.Outcome → Prop) where
  own : S.Call → Prop
  sound : (c : S.Call) → Except S.Err (S.Reply c) → Prop
  inside : M.World → M.World → Prop
  outside : M.World → M.World → Prop
  equiv_inside : Equivalence inside
  equiv_outside : Equivalence outside
  keeps : ∀ {c : S.Call} {o : M.Outcome} {r : Except S.Err (S.Reply c)} {w w' : M.World},
    own c → Inv w → Fine o → M.answer c o w = some (r, w') →
      Inv w' ∧ sound c r ∧ outside w w'
  depends : ∀ {c : S.Call} {o : M.Outcome} {r : Except S.Err (S.Reply c)} {w w' v : M.World},
    own c → Inv w → Inv v → Fine o → inside w v → M.answer c o w = some (r, w') →
      ∃ v', M.answer c o v = some (r, v') ∧ inside w' v'

namespace Region
variable {Inv : M.World → Prop} {Fine : M.Outcome → Prop} {A B : Region M Inv Fine}

/-- What happens outside `A` includes all of `B`, and the other way round. -/
structure Apart (A B : Region M Inv Fine) : Prop where
  left : ∀ {w w' : M.World}, A.outside w w' → B.inside w w'
  right : ∀ {w w' : M.World}, B.outside w w' → A.inside w w'

theorem Apart.symm (h : A.Apart B) : B.Apart A := ⟨h.right, h.left⟩

end Region

section Both
variable {Inv : M.World → Prop} {Fine : M.Outcome → Prop} {A B : Region M Inv Fine}
  {m : Prog S α} {n : Prog S β} {es fs : List (Exchange M)} {w v : M.World}
  {res : Except S.Err α} {res' : Except S.Err β} {Q : α → Prop} {R : β → Prop}

/-- The first program by itself, from any world that is the same to it. -/
theorem Both.alone (h : Both M m n es fs w res res' v) (hAB : A.Apart B)
    (hm : m.Within A.own A.sound Q) (hn : n.Within B.own B.sound R)
    (hes : ∀ e ∈ es, Fine e.outcome) (hfs : ∀ e ∈ fs, Fine e.outcome) (hw : Inv w) {u : M.World}
    (hu : Inv u) (hin : A.inside w u) :
    ∃ u', Trace M m es u res u' ∧ Inv u' ∧ A.inside v u' ∧ A.outside u u' := by
  induction h generalizing u with
  | done hend _ => exact ⟨u, .done hend, hu, hin, A.equiv_outside.refl u⟩
  | left hans _ ih =>
    obtain ⟨hfine, hes⟩ := List.forall_mem_cons.mp hes
    obtain ⟨hw', hsound, -⟩ := A.keeps hm.1 hw hfine hans
    obtain ⟨u₁, hans', hin'⟩ := A.depends hm.1 hw hu hfine hin hans
    obtain ⟨hu₁, -, hout⟩ := A.keeps hm.1 hu hfine hans'
    obtain ⟨u', ht, hu', hin'', hout'⟩ := ih (hm.2 _ hsound) hn hes hfs hw' hu₁ hin'
    exact ⟨u', .call hans' ht, hu', hin'', A.equiv_outside.trans hout hout'⟩
  | right hans _ ih =>
    -- a call of the other program is not seen
    obtain ⟨hfine, hfs⟩ := List.forall_mem_cons.mp hfs
    obtain ⟨hw', hsound, hout⟩ := B.keeps hn.1 hw hfine hans
    have hin' := A.equiv_inside.trans (A.equiv_inside.symm (hAB.right hout)) hin
    exact ih hm (hn.2 _ hsound) hes hfs hw' hu hin'

/-- The calls of the first program are its own, with sound answers. -/
theorem Both.own (h : Both M m n es fs w res res' v) (hm : m.Within A.own A.sound Q)
    (hn : n.Within B.own B.sound R) (hes : ∀ e ∈ es, Fine e.outcome)
    (hfs : ∀ e ∈ fs, Fine e.outcome) (hw : Inv w) :
    ∀ e ∈ es, A.own e.call ∧ A.sound e.call e.reply := by
  induction h with
  | done => simp
  | left hans _ ih =>
    obtain ⟨hfine, hes⟩ := List.forall_mem_cons.mp hes
    obtain ⟨hw', hsound, -⟩ := A.keeps hm.1 hw hfine hans
    exact List.forall_mem_cons.mpr ⟨⟨hm.1, hsound⟩, ih (hm.2 _ hsound) hn hes hfs hw'⟩
  | right hans _ ih =>
    obtain ⟨hfine, hfs⟩ := List.forall_mem_cons.mp hfs
    obtain ⟨hw', hsound, -⟩ := B.keeps hn.1 hw hfine hans
    exact ih hm (hn.2 _ hsound) hes hfs hw'

/-- What neither region covers stays as it was. -/
theorem Both.rest (h : Both M m n es fs w res res' v) (hm : m.Within A.own A.sound Q)
    (hn : n.Within B.own B.sound R) (hes : ∀ e ∈ es, Fine e.outcome)
    (hfs : ∀ e ∈ fs, Fine e.outcome) (hw : Inv w) {same : M.World → M.World → Prop}
    (hsame : Equivalence same) (hA : ∀ {w w'}, A.outside w w' → same w w')
    (hB : ∀ {w w'}, B.outside w w' → same w w') : same w v := by
  induction h with
  | done => exact hsame.refl _
  | left hans _ ih =>
    obtain ⟨hfine, hes⟩ := List.forall_mem_cons.mp hes
    obtain ⟨hw', hsound, hout⟩ := A.keeps hm.1 hw hfine hans
    exact hsame.trans (hA hout) (ih (hm.2 _ hsound) hn hes hfs hw')
  | right hans _ ih =>
    obtain ⟨hfine, hfs⟩ := List.forall_mem_cons.mp hfs
    obtain ⟨hw', hsound, hout⟩ := B.keeps hn.1 hw hfine hans
    exact hsame.trans (hB hout) (ih hm (hn.2 _ hsound) hes hfs hw')

/-- Both programs make the same calls with the same answers one after the other,
and leave the same. -/
theorem Both.sequential (h : Both M m n es fs w res res' v) (hAB : A.Apart B)
    (hm : m.Within A.own A.sound Q) (hn : n.Within B.own B.sound R)
    (hes : ∀ e ∈ es, Fine e.outcome) (hfs : ∀ e ∈ fs, Fine e.outcome) (hw : Inv w)
    {same : M.World → M.World → Prop} (hsame : Equivalence same)
    (hA : ∀ {w w'}, A.outside w w' → same w w') (hB : ∀ {w w'}, B.outside w w' → same w w') :
    ∃ u u', Trace M m es w res u ∧ Trace M n fs u res' u' ∧ A.inside v u' ∧ B.inside v u' ∧
      same v u' := by
  obtain ⟨u, hu, hinv, hin, hout⟩ := h.alone hAB hm hn hes hfs hw hw (A.equiv_inside.refl w)
  obtain ⟨u', hu', -, hin', hout'⟩ :=
    h.symm.alone hAB.symm hn hm hfs hes hw hinv (hAB.left hout)
  refine ⟨u, u', hu, hu', A.equiv_inside.trans hin (hAB.right hout'), hin', ?_⟩
  have hrest := h.rest hm hn hes hfs hw hsame hA hB
  exact hsame.trans (hsame.symm hrest) (hsame.trans (hA hout) (hB hout'))

end Both

/-! ## Another service with the same answers -/

section Project
variable {N : Service S} {f : M.World → N.World} {J : M.World → Prop} {Fine : N.Outcome → Prop}
  {own own' : S.Call → Prop} {sound sound' : (c : S.Call) → Except S.Err (S.Reply c) → Prop}

/-- Every answer of `M` to an `own` call is one of `N`, on the images of the worlds. -/
def Projects (M N : Service S) (f : M.World → N.World) (J : M.World → Prop)
    (Fine : N.Outcome → Prop) (own : S.Call → Prop)
    (sound : (c : S.Call) → Except S.Err (S.Reply c) → Prop) : Prop :=
  ∀ {c : S.Call} {o : M.Outcome} {r : Except S.Err (S.Reply c)} {w w' : M.World},
    own c → J w → M.answer c o w = some (r, w') →
      J w' ∧ sound c r ∧ ∃ o', Fine o' ∧ N.answer c o' (f w) = some (r, f w')

/-- The call and its answer, without how the answer came about. -/
def Exchange.said (e : Exchange M) : Σ c : S.Call, Except S.Err (S.Reply c) := ⟨e.call, e.reply⟩

theorem Both.project {m : Prog S α} {n : Prog S β} {es fs : List (Exchange M)} {w v : M.World}
    {res : Except S.Err α} {res' : Except S.Err β} {Q : α → Prop} {R : β → Prop}
    (h : Both M m n es fs w res res' v) (hA : Projects M N f J Fine own sound)
    (hB : Projects M N f J Fine own' sound') (hm : m.Within own sound Q)
    (hn : n.Within own' sound' R) (hw : J w) :
    ∃ es' fs', (∀ e ∈ es', Fine e.outcome) ∧ (∀ e ∈ fs', Fine e.outcome) ∧
      es'.map Exchange.said = es.map Exchange.said ∧ fs'.map Exchange.said = fs.map Exchange.said ∧
      Both N m n es' fs' (f w) res res' (f v) := by
  induction h with
  | done hend hend' => exact ⟨[], [], by simp, by simp, rfl, rfl, .done hend hend'⟩
  | left hans _ ih =>
    obtain ⟨hw', hsound, o', hfine, hans'⟩ := hA hm.1 hw hans
    obtain ⟨es', fs', hes, hfs, hsaid, hsaid', hb⟩ := ih (hm.2 _ hsound) hn hw'
    refine ⟨⟨_, o', _⟩ :: es', fs', List.forall_mem_cons.mpr ⟨hfine, hes⟩, hfs, ?_, hsaid',
      .left hans' hb⟩
    rw [List.map_cons, List.map_cons, hsaid]
    rfl
  | right hans _ ih =>
    obtain ⟨hw', hsound, o', hfine, hans'⟩ := hB hn.1 hw hans
    obtain ⟨es', fs', hes, hfs, hsaid, hsaid', hb⟩ := ih hm (hn.2 _ hsound) hw'
    refine ⟨es', ⟨_, o', _⟩ :: fs', hes, List.forall_mem_cons.mpr ⟨hfine, hfs⟩, hsaid, ?_,
      .right hans' hb⟩
    rw [List.map_cons, List.map_cons, hsaid']
    rfl

end Project
end RedkeyOperator.Interleave
