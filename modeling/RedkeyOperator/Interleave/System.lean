import RedkeyOperator.Interleave.Program

/-! # One program at a time against a shared service

A service keeps a world. Its environment changes the world by events of its
own, and one program at a time runs against it: it is started, its calls are
answered one by one, and it is stopped, after its last call or in the middle of
the run (a crash). Every choice is an event, so a run is a list of events and
`step` computes it. `Terms` restrict the events of a run, `Reaches` is
reachability under such terms. -/
namespace RedkeyOperator.Interleave

/-- `answer` is `none` where an outcome does not apply to the call, and
`enter` is the bookkeeping done when a program is started. -/
structure Service (S : Signature) where
  World : Type
  Ev : Type
  Outcome : Type
  env : Ev → World → Option World
  answer : (c : S.Call) → Outcome → World → Option (Except S.Err (S.Reply c) × World)
  enter : World → World

variable {S : Signature} {M : Service S} {α : Type}

structure State (M : Service S) (α : Type) where
  world : M.World
  running : Option (Prog S α)

inductive Event (M : Service S) where
  | env (e : M.Ev)
  | start
  | call (o : M.Outcome)
  | stop

def step (main : Prog S α) : Event M → State M α → Option (State M α)
  | .env e, s => (M.env e s.world).map fun w => { s with world := w }
  | .start, s => match s.running with
    | none => some ⟨M.enter s.world, some main⟩
    | some _ => none
  | .call o, s => match s.running with
    | some (.call c k) => (M.answer c o s.world).map fun a => ⟨a.2, some (k a.1)⟩
    | _ => none
  | .stop, s => match s.running with
    | none => none
    | some _ => some { s with running := none }

/-- The events a run may take: decidable conditions on the world before the
step, so that a given run can be checked by evaluation. -/
structure Terms (M : Service S) where
  env : M.Ev → M.World → Bool
  call : (c : S.Call) → M.Outcome → M.World → Bool

def Terms.any : Terms M := ⟨fun _ _ => true, fun _ _ _ => true⟩

def Terms.and (T U : Terms M) : Terms M :=
  ⟨fun e w => T.env e w && U.env e w, fun c o w => T.call c o w && U.call c o w⟩

/-- What `T` allows, `U` allows. -/
structure Terms.Implies (T U : Terms M) : Prop where
  env : ∀ e w, T.env e w = true → U.env e w = true
  call : ∀ c o w, T.call c o w = true → U.call c o w = true

theorem Terms.Implies.refl (T : Terms M) : T.Implies T := ⟨fun _ _ h => h, fun _ _ _ h => h⟩

theorem Terms.Implies.trans {T U V : Terms M} (h : T.Implies U) (h' : U.Implies V) : T.Implies V :=
  ⟨fun e w ht => h'.env e w (h.env e w ht), fun c o w ht => h'.call c o w (h.call c o w ht)⟩

theorem Terms.and_left (T U : Terms M) : (T.and U).Implies T :=
  ⟨fun _ _ h => (Bool.and_eq_true_iff.mp h).1, fun _ _ _ h => (Bool.and_eq_true_iff.mp h).1⟩

theorem Terms.and_right (T U : Terms M) : (T.and U).Implies U :=
  ⟨fun _ _ h => (Bool.and_eq_true_iff.mp h).2, fun _ _ _ h => (Bool.and_eq_true_iff.mp h).2⟩

def Terms.allow (T : Terms M) : Event M → State M α → Bool
  | .env e, s => T.env e s.world
  | .call o, s => match s.running with
    | some (.call c _) => T.call c o s.world
    | _ => true
  | _, _ => true

inductive Reaches (T : Terms M) (main : Prog S α) (s₀ : State M α) : State M α → Prop where
  | refl : Reaches T main s₀ s₀
  | step {s t : State M α} (e : Event M) (hs : Reaches T main s₀ s)
      (ok : T.allow e s = true) (ht : step main e s = some t) : Reaches T main s₀ t

/-- A program may be stopped at any time. -/
theorem Reaches.stopped {T : Terms M} {main : Prog S α} {s₀ s : State M α}
    (h : Reaches T main s₀ s) : Reaches T main s₀ ⟨s.world, none⟩ := by
  obtain ⟨w, running⟩ := s
  cases running with
  | none => exact h
  | some m => exact .step .stop h rfl rfl

theorem Reaches.started {T : Terms M} {main : Prog S α} {s₀ : State M α} {w : M.World}
    (h : Reaches T main s₀ ⟨w, none⟩) : Reaches T main s₀ ⟨M.enter w, some main⟩ :=
  .step .start h rfl rfl

/-! ## Runs by evaluation -/

/-- One entry of a script: an event, or every remaining call of the running
program with the same outcome, at most `n` of them. -/
inductive Move (M : Service S) where
  | event (e : Event M)
  | drain (o : M.Outcome) (n : Nat)

def stepUnder (T : Terms M) (main : Prog S α) (e : Event M) (s : State M α) :
    Option (State M α) :=
  if T.allow e s then step main e s else none

def drain (T : Terms M) (main : Prog S α) (o : M.Outcome) : Nat → State M α → Option (State M α)
  | 0, s => some s
  | n + 1, s => match s.running with
    | some (.call _ _) => (stepUnder T main (.call o) s).bind (drain T main o n)
    | _ => some s

def play (T : Terms M) (main : Prog S α) : List (Move M) → State M α → Option (State M α)
  | [], s => some s
  | .event e :: ms, s => (stepUnder T main e s).bind (play T main ms)
  | .drain o n :: ms, s => (drain T main o n s).bind (play T main ms)

theorem reaches_of_stepUnder {T : Terms M} {main : Prog S α} {s₀ s t : State M α} {e : Event M}
    (hs : Reaches T main s₀ s) (h : stepUnder T main e s = some t) : Reaches T main s₀ t := by
  unfold stepUnder at h
  split at h
  · exact .step e hs (by assumption) h
  · cases h

theorem reaches_of_drain {T : Terms M} {main : Prog S α} {o : M.Outcome} {s₀ t : State M α} :
    ∀ (n : Nat) (s : State M α), Reaches T main s₀ s → drain T main o n s = some t →
      Reaches T main s₀ t
  | 0, s, hs, h => by cases h; exact hs
  | n + 1, s, hs, h => by
    simp only [drain] at h
    split at h
    · obtain ⟨u, hu, ht⟩ := Option.bind_eq_some_iff.mp h
      exact reaches_of_drain n u (reaches_of_stepUnder hs hu) ht
    · cases h; exact hs

theorem reaches_of_play {T : Terms M} {main : Prog S α} {s₀ t : State M α} :
    ∀ (ms : List (Move M)) (s : State M α), Reaches T main s₀ s → play T main ms s = some t →
      Reaches T main s₀ t
  | [], s, hs, h => by cases h; exact hs
  | .event e :: ms, s, hs, h => by
    obtain ⟨u, hu, ht⟩ := Option.bind_eq_some_iff.mp h
    exact reaches_of_play ms u (reaches_of_stepUnder hs hu) ht
  | .drain o n :: ms, s, hs, h => by
    obtain ⟨u, hu, ht⟩ := Option.bind_eq_some_iff.mp h
    exact reaches_of_play ms u (reaches_of_drain n s hs hu) ht

/-- A script whose last state passes a test reaches a state that passes it. -/
theorem exists_reaches_of_play {T : Terms M} {main : Prog S α} {s₀ : State M α}
    (ms : List (Move M)) (p : State M α → Bool) (h : (play T main ms s₀).any p = true) :
    ∃ s, Reaches T main s₀ s ∧ p s = true := by
  cases hp : play T main ms s₀ with
  | none => rw [hp] at h; cases h
  | some s => exact ⟨s, reaches_of_play ms s₀ .refl hp, by simpa [hp] using h⟩

end RedkeyOperator.Interleave
