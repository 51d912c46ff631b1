import RedkeyOperator.Controller.Metrics

/-! # What the gauges of a Redkey show

`recordRedkeyMetrics` makes the gauges of one Redkey show one status and one config;
`deleteRedkeyMetrics` makes them show nothing. The gauges of the others stay. -/
namespace RedkeyOperator.Controller
open RedkeyOperator.Api

namespace GaugeVec
variable {S : Type} [DecidableEq S] {g : GaugeVec S} {key : NamespacedName}

theorem lookup_deletePartialMatch (g : GaugeVec S) (key : NamespacedName) (l : NamespacedName × S) :
    (g.deletePartialMatch key).lookup l = if l.1 = key then none else g.lookup l := by
  unfold deletePartialMatch AList.lookup
  simp only
  generalize g.entries = es
  induction es with
  | nil => simp
  | cons e es ih =>
    by_cases he : e.1.1 = key
    · rw [List.filter_cons_of_neg (by simp [he]), ih]
      split
      · rfl
      · rename_i hl
        rw [List.dlookup_cons_ne _ _ fun h => hl (by rw [h, he])]
    · rw [List.filter_cons_of_pos (by simp [he])]
      by_cases hl : l = e.1
      · obtain ⟨l', v⟩ := e
        simp only at hl
        subst hl
        rw [List.dlookup_cons_eq, List.dlookup_cons_eq, if_neg he]
      · rw [List.dlookup_cons_ne _ _ hl, List.dlookup_cons_ne _ _ hl, ih]

theorem lookup_setStates (g : GaugeVec S) (key : NamespacedName) (values : List S) (active : S)
    (l : NamespacedName × S) :
    (Metrics.setStates g key values active).lookup l =
      if l.1 = key ∧ l.2 ∈ values then some (if l.2 = active then 1 else 0) else g.lookup l := by
  unfold Metrics.setStates
  induction values generalizing g with
  | nil => simp
  | cons v vs ih =>
    rw [List.foldl_cons, ih]
    by_cases hmem : l.1 = key ∧ l.2 ∈ vs
    · have hcons : l.1 = key ∧ l.2 ∈ v :: vs := ⟨hmem.1, List.mem_cons_of_mem v hmem.2⟩
      rw [if_pos hmem, if_pos hcons]
    · rw [if_neg hmem]
      by_cases hl : l = (key, v)
      · subst hl
        have hcons : key = key ∧ v ∈ v :: vs := ⟨rfl, List.mem_cons_self⟩
        rw [AList.lookup_insert, if_pos hcons]
      · rw [AList.lookup_insert_ne hl, if_neg]
        intro hcons
        rcases List.mem_cons.mp hcons.2 with hv | hv
        · exact hl (Prod.ext hcons.1 hv)
        · exact hmem ⟨hcons.1, hv⟩

/-- No series. -/
def Blank (g : GaugeVec S) (key : NamespacedName) : Prop := ∀ v, g.lookup (key, v) = none

/-- One series for each value, 1 on the active one and 0 on the others. -/
def Shows (g : GaugeVec S) (key : NamespacedName) (values : List S) (active : S) : Prop :=
  ∀ v, g.lookup (key, v) = if v ∈ values then some (if v = active then 1 else 0) else none

theorem shows_setStates {values : List S} (h : g.Blank key ∨ ∃ active, g.Shows key values active)
    (active : S) : Shows (Metrics.setStates g key values active) key values active := by
  intro v
  rw [lookup_setStates]
  by_cases hv : v ∈ values
  · rw [if_pos ⟨rfl, hv⟩, if_pos hv]
  · rw [if_neg fun h => hv h.2, if_neg hv]
    -- no other value has ever had a series
    rcases h with h | ⟨_, h⟩
    · exact h v
    · rw [h v, if_neg hv]

theorem lookup_setStates_of_ne {other : NamespacedName} (h : other ≠ key) (values : List S)
    (active : S) (v : S) :
    (Metrics.setStates g key values active).lookup (other, v) = g.lookup (other, v) := by
  rw [lookup_setStates, if_neg fun hl => h hl.1]

theorem blank_deletePartialMatch (g : GaugeVec S) (key : NamespacedName) :
    (g.deletePartialMatch key).Blank key := by
  intro v
  rw [lookup_deletePartialMatch, if_pos rfl]

theorem lookup_deletePartialMatch_of_ne {other : NamespacedName} (h : other ≠ key) (v : S) :
    (g.deletePartialMatch key).lookup (other, v) = g.lookup (other, v) := by
  rw [lookup_deletePartialMatch, if_neg h]

end GaugeVec

/-! ## The gauges of one Redkey -/

namespace Metrics
variable {m m' : Metrics} {key : NamespacedName}

/-- The three gauges show nothing of the Redkey. -/
structure Blank (m : Metrics) (key : NamespacedName) : Prop where
  phase : m.redkeyPhase.Blank key
  configPhase : m.redkeyConfigPhase.Blank key
  inProgress : m.redkeyOperationInProgress.seriesOf key = []

/-- The three gauges show this status and this config: the phase of each, and the
operation that the status tells of, if any. -/
structure Mirrors (m : Metrics) (key : NamespacedName) (status : RedkeyStatus)
    (active : Option RedkeyConfig) : Prop where
  phase : m.redkeyPhase.Shows key redkeyPhaseValues status.phase
  configPhase : match active with
    | none => m.redkeyConfigPhase.Blank key
    | some c => m.redkeyConfigPhase.Shows key redkeyConfigPhaseValues c.status.configPhase
  inProgress : m.redkeyOperationInProgress.seriesOf key =
    if inOperation status.status then [((key, status.status), 1)] else []

/-- The gauges of the Redkey are the same. -/
structure SameGauges (m m' : Metrics) (key : NamespacedName) : Prop where
  phase : ∀ v, m'.redkeyPhase.lookup (key, v) = m.redkeyPhase.lookup (key, v)
  configPhase : ∀ v, m'.redkeyConfigPhase.lookup (key, v) = m.redkeyConfigPhase.lookup (key, v)
  inProgress : m'.redkeyOperationInProgress.seriesOf key = m.redkeyOperationInProgress.seriesOf key

theorem Blank.congr (h : m.Blank key) (hs : SameGauges m m' key) : m'.Blank key :=
  ⟨fun v => (hs.phase v).trans (h.phase v), fun v => (hs.configPhase v).trans (h.configPhase v),
    hs.inProgress.trans h.inProgress⟩

theorem Mirrors.congr {status : RedkeyStatus} {active : Option RedkeyConfig}
    (h : m.Mirrors key status active) (hs : SameGauges m m' key) :
    m'.Mirrors key status active := by
  refine ⟨fun v => (hs.phase v).trans (h.phase v), ?_, hs.inProgress.trans h.inProgress⟩
  have hc := h.configPhase
  cases active with
  | none => exact fun v => (hs.configPhase v).trans (hc v)
  | some c => exact fun v => (hs.configPhase v).trans (hc v)

theorem gauges_observe (m : Metrics) (key : NamespacedName) (status : String) (phase : RedkeyPhase)
    (clock : Readings) : (m.observe key status phase clock).redkeyPhase = m.redkeyPhase ∧
      (m.observe key status phase clock).redkeyConfigPhase = m.redkeyConfigPhase := by
  have hkept : ∀ {m'}, Observed m key status m' →
      m'.redkeyPhase = m.redkeyPhase ∧ m'.redkeyConfigPhase = m.redkeyConfigPhase := by
    intro m' h
    cases h <;> exact ⟨rfl, rfl⟩
  exact hkept (observed_observe m key status phase clock)

section
variable (m) (cluster : Redkey) (active : Option RedkeyConfig) (clock : Readings)

theorem redkeyPhase_record :
    (m.recordRedkeyMetrics cluster active clock).redkeyPhase =
      setStates m.redkeyPhase cluster.key redkeyPhaseValues cluster.status.phase := by
  rw [← (gauges_observe m cluster.key cluster.status.status cluster.status.phase clock).1]
  cases active <;> rfl

theorem redkeyConfigPhase_record :
    (m.recordRedkeyMetrics cluster active clock).redkeyConfigPhase = match active with
      | none => m.redkeyConfigPhase.deletePartialMatch cluster.key
      | some c => setStates m.redkeyConfigPhase cluster.key redkeyConfigPhaseValues
          c.status.configPhase := by
  rw [← (gauges_observe m cluster.key cluster.status.status cluster.status.phase clock).2]
  cases active <;> rfl

theorem sameGauges_record (h : key ≠ cluster.key) :
    SameGauges m (m.recordRedkeyMetrics cluster active clock) key := by
  refine ⟨fun v => ?_, fun v => ?_, ?_⟩
  · rw [redkeyPhase_record]
    exact GaugeVec.lookup_setStates_of_ne h _ _ v
  · rw [redkeyConfigPhase_record]
    cases active with
    | none => exact GaugeVec.lookup_deletePartialMatch_of_ne h v
    | some c => exact GaugeVec.lookup_setStates_of_ne h _ _ v
  · rw [inProgress_record, if_neg h]

theorem mirrors_record (h : m.Blank cluster.key ∨ ∃ status c, m.Mirrors cluster.key status c) :
    (m.recordRedkeyMetrics cluster active clock).Mirrors cluster.key cluster.status active := by
  refine ⟨?_, ?_, ?_⟩
  · rw [redkeyPhase_record]
    refine GaugeVec.shows_setStates ?_ _
    rcases h with h | ⟨status, c, h⟩
    · exact .inl h.phase
    · exact .inr ⟨_, h.phase⟩
  · rw [redkeyConfigPhase_record]
    cases active with
    | none => exact GaugeVec.blank_deletePartialMatch _ _
    | some d =>
      refine GaugeVec.shows_setStates ?_ _
      rcases h with h | ⟨status, c, h⟩
      · exact .inl h.configPhase
      · have hc := h.configPhase
        cases c with
        | none => exact .inl hc
        | some c => exact .inr ⟨_, hc⟩
  · rw [inProgress_record, if_pos rfl]

end

theorem blank_delete (m : Metrics) (key : NamespacedName) : (m.deleteRedkeyMetrics key).Blank key :=
  ⟨GaugeVec.blank_deletePartialMatch _ _, GaugeVec.blank_deletePartialMatch _ _,
    (GaugeVec.seriesOf_deletePartialMatch _ _ _).trans (if_pos rfl)⟩

theorem sameGauges_delete {other : NamespacedName} (h : other ≠ key) :
    SameGauges m (m.deleteRedkeyMetrics key) other :=
  ⟨GaugeVec.lookup_deletePartialMatch_of_ne h, GaugeVec.lookup_deletePartialMatch_of_ne h,
    (GaugeVec.seriesOf_deletePartialMatch _ _ _).trans (if_neg h)⟩

theorem blank_empty (key : NamespacedName) : ({} : Metrics).Blank key :=
  ⟨fun _ => rfl, fun _ => rfl, rfl⟩

end Metrics
end RedkeyOperator.Controller
