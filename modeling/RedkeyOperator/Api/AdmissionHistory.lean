import RedkeyOperator.Api.Admission
import RedkeyOperator.Data.Cel

/-! Admission of a Redkey as the CRD declares it
(`config/crd/bases/redkey.inditex.dev_redkeys.yaml`): the schema, the defaults and
the CEL rules, on documents in which any optional field may be absent, `spec` and
`status` included. The fields here are those a rule, a default or a `required` list
names; formats of numbers are not checked. -/
namespace RedkeyOperator.Api

open Data

structure RobinDocument where
  image : Option String := none
deriving DecidableEq, Repr

structure SpecDocument where
  mode : Option String := none
  primaries : Option Int := none
  replicasPerPrimary : Option Int := none
  robin : Option RobinDocument := none
  purgeKeysOnRebalance : Option Bool := none
  ephemeral : Option Bool := none
  storage : Option String := none
  storageClassName : Option String := none
  accessModes : Option (List String) := none
deriving DecidableEq, Repr

structure StatusDocument where
  phase : Option String := none
  nodes : Nodes := none
  lastAppliedPrimaries : Option Int := none
  lastAppliedReplicasPerPrimary : Option Int := none
deriving DecidableEq, Repr

structure Document where
  spec : Option SpecDocument := none
  status : Option StatusDocument := none
deriving DecidableEq, Repr

/-! ## Defaults and schema -/

def SpecDocument.withDefaults (s : SpecDocument) : SpecDocument :=
  { s with
    mode := s.mode.or (some "cluster")
    replicasPerPrimary := s.replicasPerPrimary.or (some 0)
    purgeKeysOnRebalance := s.purgeKeysOnRebalance.or (some true)
    ephemeral := s.ephemeral.or (some true)
    storageClassName := s.storageClassName.or (some "")
    accessModes := s.accessModes.or (some ["ReadWriteOnce"]) }

theorem SpecDocument.withDefaults_withDefaults (s : SpecDocument) :
    s.withDefaults.withDefaults = s.withDefaults := by
  simp [withDefaults]

def required {α : Type} (field : String) (value : Option α) : List Violation :=
  rule field "Required value" value.isSome

def oneOf (field : String) (values : List String) (value : Option String) : List Violation :=
  rule field "Unsupported value" (value.all values.contains)

def inRange (field : String) (value : Option Int) (holds : Int → Bool) : List Violation :=
  rule field "Invalid value" (value.all holds)

def SpecDocument.schemaViolations (s : SpecDocument) : List Violation :=
  oneOf ".spec.mode" ["cluster", "standalone"] s.mode ++
    required ".spec.primaries" s.primaries ++
    inRange ".spec.primaries" s.primaries (fun n => decide (0 ≤ n)) ++
    required ".spec.robin" s.robin ++
    (s.robin.elim [] fun robin => required ".spec.robin.image" robin.image) ++
    (s.accessModes.elim [] fun modes => modes.flatMap fun mode =>
      oneOf ".spec.accessModes" ["ReadWriteOnce", "ReadOnlyMany", "ReadWriteMany"] (some mode))

def StatusDocument.schemaViolations (s : StatusDocument) : List Violation :=
  let bounded (n : Int) : Bool := decide (0 ≤ n ∧ n ≤ 100000)
  required ".status.nodes" s.nodes ++
    required ".status.phase" s.phase ++
    inRange ".status.lastAppliedPrimaries" s.lastAppliedPrimaries bounded ++
    inRange ".status.lastAppliedReplicasPerPrimary" s.lastAppliedReplicasPerPrimary bounded

/-- Neither `spec` nor `status` is required. -/
def Document.schemaViolations (d : Document) : List Violation :=
  d.spec.elim [] SpecDocument.schemaViolations ++ d.status.elim [] StatusDocument.schemaViolations

/-! ## Rules -/

/-- `self == oldSelf` on a field of the spec. -/
def unchanged {α : Type} [DecidableEq α] (field message : String) (value : SpecDocument → Option α)
    (old new : Option SpecDocument) : List Violation :=
  rule field message (Cel.holdsAcross (old.bind value) (new.bind value) fun oldSelf self =>
    Cel.eq (some self) (some oldSelf))

def fieldViolations (old new : Option SpecDocument) : List Violation :=
  unchanged ".spec.ephemeral" "Changing the ephemeral field is not allowed"
      SpecDocument.ephemeral old new ++
    unchanged ".spec.storage" "Changing the storage size is not allowed"
      SpecDocument.storage old new ++
    unchanged ".spec.storageClassName" "Changing the storage class name is not allowed"
      SpecDocument.storageClassName old new ++
    unchanged ".spec.accessModes" "Changing the storage access modes is not allowed"
      SpecDocument.accessModes old new

def specViolations (old new : Option SpecDocument) : List Violation :=
  rule ".spec" "Ephemeral or storage must be set"
      (Cel.holds new fun self => Cel.or self.ephemeral (some self.storage.isSome)) ++
    rule ".spec" "Ephemeral and storage cannot be combined"
      (Cel.holds new fun self => Cel.not (Cel.and self.ephemeral (some self.storage.isSome))) ++
    rule ".spec" "Cannot set purgeKeysOnRebalance to true for non-ephemeral clusters"
      (Cel.holds new fun self => Cel.not (Cel.and (Cel.not self.ephemeral)
        (Cel.eq self.purgeKeysOnRebalance (some true)))) ++
    rule ".spec" "Changing the mode field is not allowed"
      (Cel.holdsAcross old new fun oldSelf self => Cel.eq self.mode oldSelf.mode) ++
    rule ".spec" "Standalone mode allows at most 1 primary (0 to scale to zero)"
      (Cel.holds new fun self => Cel.or (Cel.ne self.mode (some "standalone"))
        (Cel.strict (fun n m => decide (n ≤ m)) self.primaries (some 1))) ++
    rule ".spec" "Standalone mode does not allow replicas (replicasPerPrimary must be 0)"
      (Cel.holds new fun self => Cel.or (Cel.ne self.mode (some "standalone"))
        (Cel.eq self.replicasPerPrimary (some 0)))

/-- The operands that the two rules of the lock on scaling up from zero share.
`has(self.status.lastAppliedPrimaries)` errs where there is no status. -/
def wakeUpAllowed (oldSelf self : Document) : Option Bool :=
  Cel.or (self.spec.bind (·.ephemeral))
    (Cel.or (Cel.ne (oldSelf.spec.bind (·.primaries)) (some 0))
      (Cel.or (Cel.eq (self.spec.bind (·.primaries)) (some 0))
        (Cel.not (self.status.map (·.lastAppliedPrimaries.isSome)))))

def rootViolations (old : Option Document) (new : Document) : List Violation :=
  rule ".spec.primaries" ("For storage clusters, scaling up from zero must restore the same " ++
      "primaries the cluster had before scaling to zero (see .status.lastAppliedPrimaries)")
      (Cel.holdsAcross old (some new) fun oldSelf self => Cel.or (wakeUpAllowed oldSelf self)
        (Cel.eq (self.spec.bind (·.primaries)) (self.status.bind (·.lastAppliedPrimaries)))) ++
    rule ".spec.replicasPerPrimary" ("For storage clusters, scaling up from zero must restore the " ++
      "same replicasPerPrimary the cluster had before scaling to zero " ++
      "(see .status.lastAppliedReplicasPerPrimary)")
      (Cel.holdsAcross old (some new) fun oldSelf self => Cel.or (wakeUpAllowed oldSelf self)
        (Cel.eq (self.spec.bind (·.replicasPerPrimary))
          (Cel.cond (self.status.map (·.lastAppliedReplicasPerPrimary.isSome))
            (self.status.bind (·.lastAppliedReplicasPerPrimary)) (some 0))))

def documentViolations (old : Option Document) (new : Document) : List Violation :=
  new.schemaViolations ++ fieldViolations (old.bind (·.spec)) new.spec ++
    specViolations (old.bind (·.spec)) new.spec ++ rootViolations old new

/-! ## Writes -/

def validate (old : Option Document) (new : Document) : Except (List Violation) Document :=
  match documentViolations old new with
  | [] => .ok new
  | vs => .error vs

/-- A creation: the status is a subresource, so the one that is sent is dropped. -/
def create (sent : Document) : Except (List Violation) Document :=
  validate none { spec := sent.spec.map SpecDocument.withDefaults, status := none }

inductive Submission where
  | update (sent : Document)
  | updateStatus (sent : Document)
deriving DecidableEq, Repr

/-- A write to the object keeps its status, a write to its status the rest of it. -/
def submit (stored : Document) : Submission → Except (List Violation) Document
  | .update sent => validate (some stored)
      { spec := sent.spec.map SpecDocument.withDefaults, status := stored.status }
  | .updateStatus sent => validate (some stored) { spec := stored.spec, status := sent.status }

/-- The documents that are stored one after the other, from `stored` on, if every
write is admitted. -/
def history (stored : Document) : List Submission → Except (List Violation) (List Document)
  | [] => .ok [stored]
  | w :: ws => do
    let next ← submit stored w
    let later ← history next ws
    return stored :: later

theorem validate_eq_ok {old : Option Document} {new d : Document} :
    validate old new = .ok d ↔ d = new ∧ new.schemaViolations = [] ∧
      fieldViolations (old.bind (·.spec)) new.spec = [] ∧
      specViolations (old.bind (·.spec)) new.spec = [] ∧ rootViolations old new = [] := by
  unfold validate
  split
  · rename_i h
    simp only [documentViolations, List.append_eq_nil_iff] at h
    simp [h, eq_comm]
  · rename_i vs hne
    refine ⟨nofun, fun hd => ?_⟩
    obtain ⟨-, hs, hf, hsp, hr⟩ := hd
    refine absurd ?_ hne
    simp only [documentViolations, List.append_eq_nil_iff]
    exact ⟨⟨⟨hs, hf⟩, hsp⟩, hr⟩

theorem history_cons {stored : Document} {w : Submission} {ws : List Submission} {ds : List Document} :
    history stored (w :: ws) = .ok ds ↔
      ∃ next later, submit stored w = .ok next ∧ history next ws = .ok later ∧
        ds = stored :: later := by
  simp only [history]
  cases hs : submit stored w with
  | error vs => simp [bind, Except.bind]
  | ok next =>
    cases hh : history next ws with
    | error vs => simp [bind, Except.bind, hh]
    | ok later => simp [bind, Except.bind, pure, Except.pure, hh, eq_comm]

/-! ## What an admitted document satisfies -/

/-- The fields that no write may change. -/
def SpecDocument.fixed (s : SpecDocument) :
    Option String × Option Bool × Option String × Option String × Option (List String) :=
  (s.mode, s.ephemeral, s.storage, s.storageClassName, s.accessModes)

structure SpecDocument.Consistent (s : SpecDocument) : Prop where
  storage : s.storage.isSome = true ↔ s.ephemeral = some false
  purge : s.ephemeral = some false → s.purgeKeysOnRebalance ≠ some true
  standalone : s.mode = some "standalone" →
    (∃ n, s.primaries = some n ∧ n ≤ 1) ∧ s.replicasPerPrimary = some 0

/-- What is stored has its defaults. -/
def Document.Defaulted (d : Document) : Prop := ∀ s, d.spec = some s → s.withDefaults = s

theorem SpecDocument.present {s : SpecDocument} (h : s.withDefaults = s) :
    (∃ m, s.mode = some m) ∧ (∃ e, s.ephemeral = some e) ∧
      (∃ c, s.storageClassName = some c) ∧ ∃ a, s.accessModes = some a := by
  rw [← h]
  refine ⟨?_, ?_, ?_, ?_⟩ <;> simp only [withDefaults]
  · cases s.mode <;> simp
  · cases s.ephemeral <;> simp
  · cases s.storageClassName <;> simp
  · cases s.accessModes <;> simp

theorem consistent_of_specViolations {old : Option SpecDocument} {s : SpecDocument}
    (h : specViolations old (some s) = []) (hd : s.withDefaults = s) : s.Consistent := by
  obtain ⟨⟨m, hm⟩, ⟨e, he⟩, -, -⟩ := SpecDocument.present hd
  simp only [specViolations, List.append_eq_nil_iff, rule_eq_nil, Cel.holds_iff, Option.some.injEq,
    forall_eq', Cel.or_eq_true, Cel.not_eq_true, Cel.and_eq_false, Cel.ne_eq_true] at h
  obtain ⟨⟨⟨⟨⟨hset, hboth⟩, hpurge⟩, -⟩, hprim⟩, hrep⟩ := h
  refine ⟨?_, ?_, ?_⟩
  · rw [he] at hset hboth ⊢
    cases e <;> simp_all
  · intro hf hp
    rw [hf, hp] at hpurge
    simp [Cel.not, Cel.eq] at hpurge
  · intro hs
    have hno : ¬ ∃ x y, s.mode = some x ∧ "standalone" = y ∧ x ≠ y := by
      rintro ⟨x, y, hx, rfl, hxy⟩
      exact hxy (Option.some.inj (hx.symm.trans hs))
    obtain ⟨n, one, hn, hone, hle⟩ := Cel.strict_eq_some.mp (hprim.resolve_left hno)
    refine ⟨⟨n, hn, ?_⟩, ?_⟩
    · obtain rfl := Option.some.inj hone
      exact of_decide_eq_true hle
    · obtain ⟨r, hr, hz⟩ := Cel.eq_eq_true.mp (hrep.resolve_left hno)
      rw [hr, hz]

theorem unchanged_eq_nil {α : Type} [DecidableEq α] {field message : String}
    {value : SpecDocument → Option α} {a b : SpecDocument}
    (h : unchanged field message value (some a) (some b) = []) {x y : α} (ha : value a = some x)
    (hb : value b = some y) : value a = value b := by
  simp only [unchanged, rule_eq_nil, Cel.holdsAcross_iff, Option.bind_some, Cel.eq_eq_true] at h
  obtain ⟨z, hz, hz'⟩ := h x y ha hb
  rw [ha, hb, hz, hz']

/-- A rule on `storage` alone would let it come and go; the rules that tie it to
`ephemeral` do not. -/
theorem fixed_of_violations {a b : SpecDocument} (hf : fieldViolations (some a) (some b) = [])
    (hs : specViolations (some a) (some b) = []) (ha : a.withDefaults = a)
    (hb : b.withDefaults = b) (hca : a.Consistent) (hcb : b.Consistent) : a.fixed = b.fixed := by
  obtain ⟨⟨m, hm⟩, ⟨e, he⟩, ⟨c, hc⟩, l, hl⟩ := SpecDocument.present ha
  obtain ⟨⟨m', hm'⟩, ⟨e', he'⟩, ⟨c', hc'⟩, l', hl'⟩ := SpecDocument.present hb
  simp only [fieldViolations, List.append_eq_nil_iff] at hf
  obtain ⟨⟨⟨heph, hsto⟩, hcls⟩, hacc⟩ := hf
  have hmode : a.mode = b.mode := by
    simp only [specViolations, List.append_eq_nil_iff, rule_eq_nil] at hs
    obtain ⟨x, hx, hx'⟩ := Cel.eq_eq_true.mp (Cel.holdsAcross_iff.mp hs.1.1.2 a b rfl rfl)
    rw [hx, hx']
  have hephemeral : a.ephemeral = b.ephemeral := unchanged_eq_nil heph he he'
  have hpresent : a.storage.isSome = b.storage.isSome := by
    rw [Bool.eq_iff_iff, hca.storage, hcb.storage, hephemeral]
  have hstorage : a.storage = b.storage := by
    cases hx : a.storage with
    | none =>
      rw [hx, Option.isSome_none, eq_comm, ← Bool.not_eq_true, Option.not_isSome_iff_eq_none]
        at hpresent
      exact hpresent.symm
    | some x =>
      rw [hx, Option.isSome_some, eq_comm] at hpresent
      obtain ⟨y, hy⟩ := Option.isSome_iff_exists.mp hpresent
      rw [← hx]
      exact unchanged_eq_nil hsto hx hy
  simp only [SpecDocument.fixed, hmode, hephemeral, hstorage, unchanged_eq_nil hcls hc hc',
    unchanged_eq_nil hacc hl hl']

/-! ## One write -/

/-- The invariant of a stored document. -/
structure Document.Sound (d : Document) : Prop where
  defaulted : d.Defaulted
  consistent : ∀ s, d.spec = some s → s.Consistent

theorem sound_of_validate {old : Option Document} {new d : Document} (hd : new.Defaulted)
    (h : validate old new = .ok d) : d.Sound := by
  obtain ⟨rfl, -, -, hs, -⟩ := validate_eq_ok.mp h
  refine ⟨hd, ?_⟩
  intro s hspec
  rw [hspec] at hs
  exact consistent_of_specViolations hs (hd s hspec)

theorem defaulted_map (spec : Option SpecDocument) (status : Option StatusDocument) :
    Document.Defaulted { spec := spec.map SpecDocument.withDefaults, status := status } := by
  intro s hs
  obtain ⟨s', -, rfl⟩ := Option.map_eq_some_iff.mp hs
  exact s'.withDefaults_withDefaults

theorem create_sound {sent d : Document} (h : create sent = .ok d) : d.Sound :=
  sound_of_validate (defaulted_map _ _) h

theorem submit_sound {stored next : Document} {w : Submission} (hs : stored.Sound)
    (h : submit stored w = .ok next) : next.Sound := by
  cases w with
  | update sent => exact sound_of_validate (defaulted_map _ _) h
  | updateStatus sent =>
    have hd : Document.Defaulted { spec := stored.spec, status := sent.status } := hs.defaulted
    exact sound_of_validate hd h

/-- A write keeps the fixed fields while the spec is there before and after. -/
theorem submit_fixed {stored next : Document} {w : Submission} (hs : stored.Sound)
    (h : submit stored w = .ok next) {a b : SpecDocument} (ha : stored.spec = some a)
    (hb : next.spec = some b) : a.fixed = b.fixed := by
  have hn := submit_sound hs h
  have hv : ∃ new, validate (some stored) new = .ok next := by
    cases w with
    | update sent => exact ⟨_, h⟩
    | updateStatus sent => exact ⟨_, h⟩
  obtain ⟨new, hv⟩ := hv
  obtain ⟨rfl, -, hf, hr, -⟩ := validate_eq_ok.mp hv
  rw [Option.bind_some, ha, hb] at hf hr
  exact fixed_of_violations hf hr (hs.defaulted a ha) (hn.defaulted b hb) (hs.consistent a ha)
    (hn.consistent b hb)

/-- An update that sends a spec. -/
def Submission.carriesSpec : Submission → Bool
  | .update sent => sent.spec.isSome
  | .updateStatus _ => true

theorem submit_keeps_spec {stored next : Document} {w : Submission} (hw : w.carriesSpec = true)
    (h : submit stored w = .ok next) {a : SpecDocument} (ha : stored.spec = some a) :
    ∃ b, next.spec = some b := by
  cases w with
  | update sent =>
    obtain ⟨s, hs⟩ := Option.isSome_iff_exists.mp hw
    obtain ⟨rfl, -⟩ := validate_eq_ok.mp h
    exact ⟨s.withDefaults, by simp [hs]⟩
  | updateStatus sent =>
    obtain ⟨rfl, -⟩ := validate_eq_ok.mp h
    exact ⟨a, ha⟩

/-! ## Documents of typed Redkeys

A field with `omitempty` is left out when it has its zero value; a nil pointer is
sent as null, which is dropped before the defaults are filled in. -/

def Mode.text : Mode → String
  | .cluster => "cluster"
  | .standalone => "standalone"

def RedkeyPhase.text : RedkeyPhase → String
  | .unset => ""
  | .ready => "Ready"
  | .configuring => "Configuring"
  | .error => "Error"

/-- A field with `omitempty`. -/
def omitEmpty {α : Type} [DecidableEq α] (zero value : α) : Option α :=
  if value = zero then none else some value

def RedkeySpec.document (s : RedkeySpec) : SpecDocument where
  mode := some s.mode.text
  primaries := some s.primaries
  replicasPerPrimary := some s.replicasPerPrimary
  robin := some { image := some s.robin.image }
  purgeKeysOnRebalance := s.purgeKeysOnRebalance
  ephemeral := some s.ephemeral
  storage := omitEmpty "" s.storage
  storageClassName := some s.storageClassName
  accessModes := omitEmpty [] s.accessModes

def RedkeyStatus.document (s : RedkeyStatus) : StatusDocument where
  phase := some s.phase.text
  nodes := s.nodes
  lastAppliedPrimaries := omitEmpty 0 (s.lastAppliedPrimaries : Int)
  lastAppliedReplicasPerPrimary := omitEmpty 0 s.lastAppliedReplicasPerPrimary

theorem omitEmpty_eq_some {α : Type} [DecidableEq α] {zero value x : α} :
    omitEmpty zero value = some x ↔ value ≠ zero ∧ value = x := by
  unfold omitEmpty
  split <;> simp_all

theorem isSome_omitEmpty {α : Type} [DecidableEq α] (zero value : α) :
    (omitEmpty zero value).isSome = (value != zero) := by
  unfold omitEmpty
  split <;> simp_all

theorem Mode.text_inj {a b : Mode} (h : a.text = b.text) : a = b := by
  cases a <;> cases b <;> first | rfl | (revert h; decide)

theorem omitEmpty_of_ne {α : Type} [DecidableEq α] {zero value : α} (h : value ≠ zero) :
    omitEmpty zero value = some value :=
  if_neg h

theorem fieldRules_of_violations {a b : RedkeySpec}
    (h : fieldViolations (some a.document.withDefaults) (some b.document.withDefaults) = []) :
    fieldRules a b = [] := by
  simp only [fieldViolations, List.append_eq_nil_iff] at h
  obtain ⟨⟨⟨he, hs⟩, hc⟩, ha⟩ := h
  simp only [fieldRules, List.append_eq_nil_iff, rule_eq_nil, Bool.or_eq_true, beq_iff_eq]
  refine ⟨⟨⟨?_, ?_⟩, ?_⟩, ?_⟩
  · have heq := unchanged_eq_nil he rfl rfl
    exact (Option.some.inj heq).symm
  · by_cases h0 : a.storage = ""
    · exact .inl (.inl h0)
    by_cases h1 : b.storage = ""
    · exact .inl (.inr h1)
    have heq := unchanged_eq_nil hs (omitEmpty_of_ne h0) (omitEmpty_of_ne h1)
    exact .inr (Option.some.inj
      ((omitEmpty_of_ne h1).symm.trans (heq.symm.trans (omitEmpty_of_ne h0))))
  · have heq := unchanged_eq_nil hc rfl rfl
    exact (Option.some.inj heq).symm
  · by_cases h0 : a.accessModes = []
    · exact .inl (.inl h0)
    by_cases h1 : b.accessModes = []
    · exact .inl (.inr h1)
    have hsome : ∀ {s : RedkeySpec}, s.accessModes ≠ [] →
        s.document.withDefaults.accessModes = some s.accessModes := by
      intro s hs
      simp [SpecDocument.withDefaults, RedkeySpec.document, omitEmpty_of_ne hs]
    have heq := unchanged_eq_nil ha (hsome h0) (hsome h1)
    rw [hsome h0, hsome h1] at heq
    exact .inr (Option.some.inj heq).symm

theorem specRules_of_violations {a b : RedkeySpec}
    (h : specViolations (some a.document.withDefaults) (some b.document.withDefaults) = []) :
    specRules a b = [] := by
  have hc := consistent_of_specViolations h (SpecDocument.withDefaults_withDefaults _)
  have hstorage : b.storage ≠ "" ↔ b.ephemeral = false := by
    have := hc.storage
    simpa [SpecDocument.withDefaults, RedkeySpec.document, isSome_omitEmpty] using this
  have hpurge : b.ephemeral = false → b.purgeKeysOnRebalance.getD true ≠ true := by
    have := hc.purge
    cases hp : b.purgeKeysOnRebalance <;>
      simpa [SpecDocument.withDefaults, RedkeySpec.document, hp] using this
  have hmode : b.mode = a.mode := by
    simp only [specViolations, List.append_eq_nil_iff, rule_eq_nil] at h
    obtain ⟨m, hm, hm'⟩ := Cel.eq_eq_true.mp (Cel.holdsAcross_iff.mp h.1.1.2 _ _ rfl rfl)
    exact Mode.text_inj (Option.some.inj (hm.trans hm'.symm))
  have hstandalone : b.mode = .standalone → b.primaries ≤ 1 ∧ b.replicasPerPrimary = 0 := by
    intro hm
    obtain ⟨⟨n, hn, hle⟩, hr⟩ := hc.standalone (by
      simp [SpecDocument.withDefaults, RedkeySpec.document, hm, Mode.text])
    simp only [SpecDocument.withDefaults, RedkeySpec.document, Option.some.injEq,
      Option.some_or] at hn hr
    exact ⟨by omega, hr⟩
  simp only [specRules, List.append_eq_nil_iff, rule_eq_nil, hmode.symm]
  refine ⟨⟨⟨⟨⟨?_, ?_⟩, ?_⟩, beq_self_eq_true _⟩, ?_⟩, ?_⟩
  · cases he : b.ephemeral with
    | true => rfl
    | false => simpa using hstorage.mpr he
  · cases he : b.ephemeral with
    | true => simpa [he] using hstorage
    | false => rfl
  · cases he : b.ephemeral with
    | true => rfl
    | false => simpa using hpurge he
  · cases hm : b.mode with
    | cluster => rfl
    | standalone => simpa using (hstandalone hm).1
  · cases hm : b.mode with
    | cluster => rfl
    | standalone => simpa using (hstandalone hm).2

/-- Without a status the fourth operand errs, which allows no more. -/
theorem wakeUpAllowed_typed {stored new : Document} {old : Redkey} {spec : RedkeySpec}
    (hs : stored.spec = some old.spec.document.withDefaults)
    (hn : new.spec = some spec.document.withDefaults)
    (ht : new.status = some old.status.document ∨ new.status = none)
    (h : wakeUpAllowed stored new = some true) :
    (spec.ephemeral || old.spec.primaries != 0 || spec.primaries == 0 ||
      !(old.status.lastAppliedPrimaries != 0)) = true := by
  simp only [wakeUpAllowed, hs, hn, Option.bind_some, Cel.or_eq_true, Cel.ne_eq_true,
    Cel.eq_eq_true, Cel.not_eq_true, SpecDocument.withDefaults, RedkeySpec.document,
    Option.some_or, Option.some.injEq] at h
  rcases h with h | ⟨x, y, rfl, rfl, h⟩ | ⟨x, h, rfl⟩ | h
  · simp [h]
  · have : old.spec.primaries ≠ 0 := by omega
    simp [this]
  · have : spec.primaries = 0 := by omega
    simp [this]
  · rcases ht with ht | ht
    · simp only [ht, Option.map_some, RedkeyStatus.document, isSome_omitEmpty,
        Option.some.injEq] at h
      simp_all
    · simp [ht] at h

theorem rootRules_of_violations {stored new : Document} {old : Redkey} {spec : RedkeySpec}
    (hs : stored.spec = some old.spec.document.withDefaults)
    (hn : new.spec = some spec.document.withDefaults)
    (ht : new.status = some old.status.document ∨ new.status = none)
    (h : rootViolations (some stored) new = []) : rootRules old spec = [] := by
  simp only [rootViolations, List.append_eq_nil_iff, rule_eq_nil, Cel.holdsAcross_iff,
    Cel.or_eq_true] at h
  have hprimaries := h.1 stored new rfl rfl
  have hreplicas := h.2 stored new rfl rfl
  have hallowed := wakeUpAllowed_typed hs hn ht
  simp only [rootRules, List.append_eq_nil_iff, rule_eq_nil, Bool.or_eq_true _ (_ == _)]
  refine ⟨hprimaries.imp hallowed ?_, hreplicas.imp hallowed ?_⟩
  · intro he
    obtain ⟨x, hx, hx'⟩ := Cel.eq_eq_true.mp he
    rcases ht with ht | ht
    · simp only [hn, ht, Option.bind_some, SpecDocument.withDefaults, RedkeySpec.document,
        RedkeyStatus.document, omitEmpty_eq_some, Option.some.injEq] at hx hx'
      exact beq_iff_eq.mpr (by omega)
    · simp [ht] at hx'
  · intro he
    obtain ⟨x, hx, hx'⟩ := Cel.eq_eq_true.mp he
    rcases ht with ht | ht
    · simp only [hn, ht, Option.bind_some, Option.map_some, SpecDocument.withDefaults,
        RedkeySpec.document, RedkeyStatus.document, isSome_omitEmpty, Option.some.injEq,
        Option.some_or, Cel.cond] at hx hx'
      subst hx
      split at hx'
      · rename_i hz
        rw [if_pos hz, beq_iff_eq]
        exact (omitEmpty_eq_some.mp hx').2.symm
      · rename_i hz
        rw [if_neg hz, beq_iff_eq]
        exact (Option.some.inj hx').symm
    · simp [ht, Cel.cond] at hx'

/-- What the API server admits of typed updates is `admitted`. -/
theorem admitted_of_submit {stored next sent : Document} {old : Redkey} {spec : RedkeySpec}
    (hs : stored.spec = some old.spec.document.withDefaults)
    (ht : stored.status = some old.status.document ∨ stored.status = none)
    (hsent : sent.spec = some spec.document) (h : submit stored (.update sent) = .ok next) :
    admitted old spec = true := by
  obtain ⟨-, -, hf, hsp, hr⟩ := validate_eq_ok.mp h
  simp only [Option.bind_some, hs, hsent, Option.map_some] at hf hsp
  rw [admitted_iff]
  refine ⟨fieldRules_of_violations hf, specRules_of_violations hsp, ?_⟩
  have hnew : sent.spec.map SpecDocument.withDefaults = some spec.document.withDefaults := by
    rw [hsent, Option.map_some]
  refine rootRules_of_violations hs ?_ ?_ hr
  · exact hnew
  · exact ht

/-! ## Whole histories -/

theorem history_sound {stored : Document} {ws : List Submission} {ds : List Document}
    (hs : stored.Sound) (h : history stored ws = .ok ds) : ∀ d ∈ ds, d.Sound := by
  induction ws generalizing stored ds with
  | nil =>
    obtain rfl : [stored] = ds := Except.ok.inj h
    simpa using hs
  | cons w ws ih =>
    obtain ⟨next, later, hw, hh, rfl⟩ := history_cons.mp h
    intro d hd
    rcases List.mem_cons.mp hd with rfl | hd
    · exact hs
    · exact ih (submit_sound hs hw) hh d hd

theorem history_fixed {stored : Document} {ws : List Submission} {ds : List Document}
    (hs : stored.Sound) (h : history stored ws = .ok ds) (hw : ∀ w ∈ ws, w.carriesSpec = true)
    {a : SpecDocument} (ha : stored.spec = some a) :
    ∀ d ∈ ds, ∃ b, d.spec = some b ∧ b.fixed = a.fixed := by
  induction ws generalizing stored ds a with
  | nil =>
    obtain rfl : [stored] = ds := Except.ok.inj h
    intro d hd
    rw [List.mem_singleton.mp hd]
    exact ⟨a, ha, rfl⟩
  | cons w ws ih =>
    obtain ⟨next, later, hwrite, hh, rfl⟩ := history_cons.mp h
    obtain ⟨b, hb⟩ := submit_keeps_spec (hw w (List.mem_cons_self ..)) hwrite ha
    have hab := submit_fixed hs hwrite ha hb
    intro d hd
    rcases List.mem_cons.mp hd with rfl | hd
    · exact ⟨a, ha, rfl⟩
    · obtain ⟨c, hc, hcb⟩ := ih (submit_sound hs hwrite) hh
        (fun w' hw' => hw w' (List.mem_cons_of_mem _ hw')) hb d hd
      exact ⟨c, hc, hcb.trans hab.symm⟩

/-- Documents without a spec come first, and from the first one with a spec on
`history_fixed` applies. -/
theorem history_fixed_pairs {stored : Document} {ws : List Submission} {ds : List Document}
    (hs : stored.Sound) (h : history stored ws = .ok ds) (hw : ∀ w ∈ ws, w.carriesSpec = true) :
    ∀ d ∈ ds, ∀ d' ∈ ds, ∀ a b, d.spec = some a → d'.spec = some b → a.fixed = b.fixed := by
  induction ws generalizing stored ds with
  | nil =>
    obtain rfl : [stored] = ds := Except.ok.inj h
    intro d hd d' hd' a b ha hb
    rw [List.mem_singleton] at hd hd'
    subst hd hd'
    rw [Option.some.inj (ha.symm.trans hb)]
  | cons w ws ih =>
    cases hspec : stored.spec with
    | some c =>
      intro d hd d' hd' a b ha hb
      obtain ⟨a', ha', hfa⟩ := history_fixed hs h hw hspec d hd
      obtain ⟨b', hb', hfb⟩ := history_fixed hs h hw hspec d' hd'
      rw [Option.some.inj (ha.symm.trans ha'), Option.some.inj (hb.symm.trans hb'), hfa, hfb]
    | none =>
      obtain ⟨next, later, hwrite, hh, rfl⟩ := history_cons.mp h
      intro d hd d' hd' a b ha hb
      have hlater : ∀ {e : Document} {c : SpecDocument}, e ∈ stored :: later → e.spec = some c →
          e ∈ later := by
        intro e c he hc
        rcases List.mem_cons.mp he with rfl | he
        · rw [hspec] at hc
          cases hc
        · exact he
      exact ih (submit_sound hs hwrite) hh (fun w' hw' => hw w' (List.mem_cons_of_mem _ hw'))
        d (hlater hd ha) d' (hlater hd' hb) a b ha hb

/-- Along every admitted history each stored spec is consistent, and while every
update sends a spec the fixed fields are the same in all of them. -/
theorem immutable_along_history (sent created : Document) (ws : List Submission) (ds : List Document)
    (hc : create sent = .ok created) (hh : history created ws = .ok ds) :
    (∀ d ∈ ds, ∀ s, d.spec = some s → s.Consistent) ∧
      ((∀ w ∈ ws, w.carriesSpec = true) → ∀ d ∈ ds, ∀ d' ∈ ds, ∀ a b, d.spec = some a →
        d'.spec = some b → a.fixed = b.fixed) :=
  ⟨fun d hd => (history_sound (create_sound hc) hh d hd).consistent,
    history_fixed_pairs (create_sound hc) hh⟩

/-- A storage cluster that is created, scaled to zero and up again. -/
def storageHistory : Document × List Submission :=
  let spec (primaries : Int) : SpecDocument :=
    { primaries := some primaries, robin := some { image := some "robin" },
      ephemeral := some false, storage := some "1Gi", purgeKeysOnRebalance := some false }
  let status : StatusDocument :=
    { phase := some "Ready", nodes := some [], lastAppliedPrimaries := some 3 }
  ({ spec := some (spec 3) },
    [.updateStatus { status := some status }, .update { spec := some (spec 0) },
      .update { spec := some (spec 3) }])

theorem immutable_along_history_sample :
    ∃ created ds, create storageHistory.1 = .ok created ∧
      history created storageHistory.2 = .ok ds ∧ ds.length = 4 ∧
      ∀ d ∈ ds, ∀ d' ∈ ds, ∀ a b, d.spec = some a → d'.spec = some b → a.fixed = b.fixed := by
  obtain ⟨created, hc⟩ : ∃ created, create storageHistory.1 = .ok created := ⟨_, rfl⟩
  obtain ⟨ds, hh, hl⟩ : ∃ ds, history created storageHistory.2 = .ok ds ∧ ds.length = 4 := by
    obtain rfl := Except.ok.inj hc
    exact ⟨_, rfl, rfl⟩
  exact ⟨created, ds, hc, hh, hl,
    (immutable_along_history _ created _ ds hc hh).2 (by decide)⟩

/-- An update without a spec is admitted while there are primaries, and after it
no rule has an old value to compare with. -/
theorem spec_can_be_replaced :
    ∃ (sent created : Document) (ws : List Submission) (ds : List Document),
      create sent = .ok created ∧ history created ws = .ok ds ∧
      ∃ d ∈ ds, ∃ d' ∈ ds, ∃ a b, d.spec = some a ∧ d'.spec = some b ∧ a.mode ≠ b.mode ∧
        a.ephemeral ≠ b.ephemeral ∧ a.storage ≠ b.storage ∧
        a.storageClassName ≠ b.storageClassName ∧ a.accessModes ≠ b.accessModes := by
  let robin : Option RobinDocument := some { image := some "robin" }
  let standalone : SpecDocument :=
    { mode := some "standalone", primaries := some 1, robin := robin,
      purgeKeysOnRebalance := some false, ephemeral := some false, storage := some "1Gi",
      storageClassName := some "fast", accessModes := some ["ReadWriteMany"] }
  refine ⟨{ spec := some { primaries := some 3, robin := robin } }, _,
    [.updateStatus { status := some { phase := some "Configuring", nodes := some [] } },
      .update {}, .update { spec := some standalone }], _, rfl, rfl, ?_⟩
  refine ⟨_, List.mem_cons_self .., _, List.mem_of_getElem? (i := 3) rfl, _, _, rfl, rfl, ?_⟩
  decide

end RedkeyOperator.Api
