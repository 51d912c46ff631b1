import Mathlib.Data.List.AList
import RedkeyOperator.Api.Types

/-! # The metrics of the managed Redkeys

The series and the two trackers that `recordRedkeyMetrics` and
`deleteRedkeyMetrics` keep, and what they have counted after any sequence of
calls. A sequence is kept with the last call first. -/
namespace RedkeyOperator.Controller
open RedkeyOperator.Api

/-! ## Series -/

/-- The gauges of the Redkeys: their labels are the namespaced name and one more. -/
abbrev GaugeVec (S : Type) := AList fun _ : NamespacedName × S => Nat

namespace GaugeVec
variable {S : Type}

/-- `DeletePartialMatch` with the namespace and the name. -/
def deletePartialMatch (g : GaugeVec S) (key : NamespacedName) : GaugeVec S :=
  ⟨g.entries.filter fun e => e.1.1 != key, List.NodupKeys.sublist List.filter_sublist g.nodupKeys⟩

/-- The series of one Redkey. -/
def seriesOf (g : GaugeVec S) (key : NamespacedName) : List ((NamespacedName × S) × Nat) :=
  (g.entries.filter fun e => e.1.1 == key).map fun e => (e.1, e.2)

theorem seriesOf_deletePartialMatch (g : GaugeVec S) (key k : NamespacedName) :
    (g.deletePartialMatch key).seriesOf k = if k = key then [] else g.seriesOf k := by
  simp only [seriesOf, deletePartialMatch, List.filter_filter]
  split
  · rename_i hk
    simp [hk]
  · rename_i hk
    congr 2
    funext e
    by_cases he : e.1.1 = k
    · simp [he, hk]
    · simp [he]

variable [DecidableEq S]

theorem filter_kerase {l : NamespacedName × S} {key : NamespacedName} (h : l.1 ≠ key)
    (es : List (Sigma fun _ : NamespacedName × S => Nat)) :
    (es.kerase l).filter (fun e => e.1.1 == key) = es.filter fun e => e.1.1 == key := by
  induction es with
  | nil => rfl
  | cons e es ih =>
    by_cases he : l = e.1
    · rw [List.kerase_cons_eq he, List.filter_cons_of_neg (by simp [← he, h])]
    · rw [List.kerase_cons_ne he, List.filter_cons, List.filter_cons, ih]

theorem seriesOf_insert_of_ne (g : GaugeVec S) {l : NamespacedName × S} {key : NamespacedName}
    (v : Nat) (h : l.1 ≠ key) : seriesOf (g.insert l v) key = g.seriesOf key := by
  unfold seriesOf
  rw [AList.entries_insert, List.filter_cons_of_neg (by simp [h]), filter_kerase h]

theorem seriesOf_insert_of_nil {g : GaugeVec S} {l : NamespacedName × S}
    (h : g.seriesOf l.1 = []) (v : Nat) : seriesOf (g.insert l v) l.1 = [(l, v)] := by
  have hrest : (g.entries.kerase l).filter (fun e => e.1.1 == l.1) = [] := by
    apply List.sublist_nil.mp
    rw [← List.map_eq_nil_iff.mp h]
    exact (List.kerase_sublist l g.entries).filter _
  unfold seriesOf
  rw [AList.entries_insert, List.filter_cons_of_pos (by simp), hrest]
  rfl

end GaugeVec

inductive OperationResult where
  | success
  | error
  | superseded
deriving DecidableEq, Repr

structure ActiveOperation where
  operation : String
  startedAt : Time
deriving DecidableEq, Repr

/-- `opTracker`: the operation each Redkey is running. -/
abbrev OpTracker := AList fun _ : NamespacedName => ActiveOperation

/-- `readyTracker`: the phase each Redkey was last seen in. -/
abbrev ReadyTracker := AList fun _ : NamespacedName => RedkeyPhase

/-- A label without a series counts zero and has no samples. -/
structure Metrics where
  redkeyPhase : GaugeVec RedkeyPhase := ∅
  redkeyConfigPhase : GaugeVec ConfigPhase := ∅
  redkeyOperationDuration : String → List Int := fun _ => []
  redkeyOperationTotal : String × OperationResult → Nat := fun _ => 0
  redkeyOperationInProgress : GaugeVec String := ∅
  redkeyTimeToReady : List Int := []
  operationTracker : OpTracker := ∅
  readinessTracker : ReadyTracker := ∅

/-- What the clock shows at the reads of one call, and when the active config was created. -/
structure Readings where
  since : Time
  now : Time
  ready : Time
  creationTimestamp : Time

def redkeyPhaseValues : List RedkeyPhase := [.ready, .configuring, .error]

def redkeyConfigPhaseValues : List ConfigPhase := [.pending, .inProgress, .superseded, .applied]

namespace Metrics

/-- One duration sample and one count for an operation that ends. -/
def complete (m : Metrics) (current : ActiveOperation) (result : OperationResult) (since : Time) :
    Metrics :=
  { m with
    redkeyOperationDuration := Function.update m.redkeyOperationDuration current.operation
      ((since - current.startedAt : Int) :: m.redkeyOperationDuration current.operation)
    redkeyOperationTotal := Function.update m.redkeyOperationTotal (current.operation, result)
      (m.redkeyOperationTotal (current.operation, result) + 1) }

def observe (m : Metrics) (key : NamespacedName) (status : String) (phase : RedkeyPhase)
    (clock : Readings) : Metrics :=
  let inOperation := status != "" && status != clusterStatusReady && status != clusterPhaseError
  match m.operationTracker.lookup key with
  | none =>
    if inOperation then
      { m with operationTracker := m.operationTracker.insert key ⟨status, clock.now⟩ }
    else m
  | some current =>
    if inOperation then
      if current.operation != status then
        { m.complete current .superseded clock.since with
          operationTracker := m.operationTracker.insert key ⟨status, clock.now⟩ }
      else m
    else
      let result := if phase == .error || status == clusterPhaseError then .error else .success
      { m.complete current result clock.since with
        operationTracker := m.operationTracker.erase key }

/-- The state set of a Redkey: 1 on the active value, 0 on the others. -/
def setStates {S : Type} [DecidableEq S] (g : GaugeVec S) (key : NamespacedName)
    (values : List S) (active : S) : GaugeVec S :=
  values.foldl (fun g v => g.insert (key, v) (if v = active then 1 else 0)) g

/-- Also remembers the phase. -/
def enteredReady (t : ReadyTracker) (key : NamespacedName) (phase : RedkeyPhase) :
    Bool × ReadyTracker :=
  let previous := (t.lookup key).getD .unset
  (phase == .ready && previous != .ready, t.insert key phase)

def recordRedkeyMetrics (m : Metrics) (cluster : Redkey) (activeConfig : Option RedkeyConfig)
    (clock : Readings) : Metrics :=
  let key := cluster.key
  let m := m.observe key cluster.status.status cluster.status.phase clock
  let inProgress := m.redkeyOperationInProgress.deletePartialMatch key
  let status := cluster.status.status
  let inProgress :=
    if status != "" && status != clusterStatusReady && status != clusterPhaseError then
      inProgress.insert (key, status) 1
    else inProgress
  let m :=
    { m with
      redkeyOperationInProgress := inProgress
      redkeyPhase := setStates m.redkeyPhase key redkeyPhaseValues cluster.status.phase }
  match activeConfig with
  | none =>
    { m with redkeyConfigPhase := m.redkeyConfigPhase.deletePartialMatch key }
  | some config =>
    let (entered, readinessTracker) := enteredReady m.readinessTracker key cluster.status.phase
    { m with
      redkeyConfigPhase :=
        setStates m.redkeyConfigPhase key redkeyConfigPhaseValues config.status.configPhase
      readinessTracker := readinessTracker
      redkeyTimeToReady :=
        if entered then (clock.ready - clock.creationTimestamp : Int) :: m.redkeyTimeToReady
        else m.redkeyTimeToReady }

def deleteRedkeyMetrics (m : Metrics) (key : NamespacedName) : Metrics :=
  { m with
    redkeyPhase := m.redkeyPhase.deletePartialMatch key
    redkeyConfigPhase := m.redkeyConfigPhase.deletePartialMatch key
    redkeyOperationInProgress := m.redkeyOperationInProgress.deletePartialMatch key
    operationTracker := m.operationTracker.erase key
    readinessTracker := m.readinessTracker.erase key }

end Metrics

/-! ## Sequences of calls -/

inductive MetricsCall where
  | record (cluster : Redkey) (activeConfig : Option RedkeyConfig) (clock : Readings)
  | delete (key : NamespacedName)

def MetricsCall.apply (m : Metrics) : MetricsCall → Metrics
  | .record cluster activeConfig clock => m.recordRedkeyMetrics cluster activeConfig clock
  | .delete key => m.deleteRedkeyMetrics key

/-- The metrics after these calls. -/
def metricsAfter : List MetricsCall → Metrics
  | [] => {}
  | c :: past => c.apply (metricsAfter past)

/-- The status seen by the last observation of a Redkey since its last deletion. -/
def lastStatus (key : NamespacedName) : List MetricsCall → Option String
  | [] => none
  | .record cluster _ _ :: past =>
    if cluster.key = key then some cluster.status.status else lastStatus key past
  | .delete k :: past => if k = key then none else lastStatus key past

def inOperation (status : String) : Bool :=
  status != "" && status != clusterStatusReady && status != clusterPhaseError

/-- How many operations with this label have begun. -/
def begun (op : String) : List MetricsCall → Nat
  | [] => 0
  | .record cluster _ _ :: past =>
    begun op past +
      if inOperation op ∧ cluster.status.status = op ∧ lastStatus cluster.key past ≠ some op then 1
      else 0
  | .delete _ :: past => begun op past

/-- How many of them ended with the deletion of their Redkey. -/
def dropped (op : String) : List MetricsCall → Nat
  | [] => 0
  | .record _ _ _ :: past => dropped op past
  | .delete key :: past =>
    dropped op past + if inOperation op ∧ lastStatus key past = some op then 1 else 0

/-! ## Counting -/

/-- How many Redkeys the tracker has in this operation. -/
def activeCount (t : OpTracker) (op : String) : Nat :=
  t.entries.countP fun e => e.2.operation == op

def running (t : OpTracker) (key : NamespacedName) : Option String :=
  (t.lookup key).map ActiveOperation.operation

theorem countP_kerase (key : NamespacedName) (op : String)
    (es : List (Sigma fun _ : NamespacedName => ActiveOperation)) :
    es.countP (fun e => e.2.operation == op) =
      (es.kerase key).countP (fun e => e.2.operation == op) +
        if (es.dlookup key).map ActiveOperation.operation = some op then 1 else 0 := by
  induction es with
  | nil => rfl
  | cons e es ih =>
    obtain ⟨k, a⟩ := e
    by_cases hk : key = k
    · subst hk
      have hrest : List.kerase key (⟨key, a⟩ :: es) = es := List.kerase_cons_eq rfl
      rw [hrest, List.dlookup_cons_eq, List.countP_cons]
      simp
    · rw [List.kerase_cons_ne hk, List.dlookup_cons_ne _ _ hk, List.countP_cons, List.countP_cons, ih]
      omega

theorem activeCount_erase (t : OpTracker) (key : NamespacedName) (op : String) :
    activeCount t op = activeCount (t.erase key) op + if running t key = some op then 1 else 0 :=
  countP_kerase key op t.entries

theorem activeCount_insert (t : OpTracker) (key : NamespacedName) (a : ActiveOperation)
    (op : String) : activeCount (t.insert key a) op =
      activeCount (t.erase key) op + if a.operation = op then 1 else 0 := by
  unfold activeCount
  rw [AList.entries_insert, List.countP_cons]
  simp only [beq_iff_eq]
  rfl

namespace Metrics

/-- Operations that ended with a result. -/
def completed (m : Metrics) (op : String) : Nat :=
  m.redkeyOperationTotal (op, .success) + m.redkeyOperationTotal (op, .error) +
    m.redkeyOperationTotal (op, .superseded)

theorem completed_complete (m : Metrics) (current : ActiveOperation) (result : OperationResult)
    (since : Time) (op : String) : (m.complete current result since).completed op =
      m.completed op + if current.operation = op then 1 else 0 := by
  unfold completed complete
  by_cases h : current.operation = op
  · subst h
    cases result <;> simp [Function.update] <;> omega
  · have hne : ∀ r, (op, r) ≠ (current.operation, result) := by
      intro r hr
      exact h (congrArg Prod.fst hr).symm
    simp [h, Function.update_of_ne (hne _)]

theorem samples_complete {m : Metrics} {op : String}
    (h : (m.redkeyOperationDuration op).length = m.completed op) (current : ActiveOperation)
    (result : OperationResult) (since : Time) :
    ((m.complete current result since).redkeyOperationDuration op).length =
      (m.complete current result since).completed op := by
  rw [completed_complete, ← h]
  unfold complete
  by_cases hop : current.operation = op
  · subst hop
    simp
  · simp [hop, Function.update_of_ne (Ne.symm hop)]

/-! ### One observation -/

/-- What one observation of a Redkey does. -/
inductive Observed (m : Metrics) (key : NamespacedName) (status : String) : Metrics → Prop
  | kept (h : running m.operationTracker key = if inOperation status then some status else none) :
      Observed m key status m
  | begins (now : Time) (hs : inOperation status = true)
      (hl : running m.operationTracker key = none) :
      Observed m key status
        { m with operationTracker := m.operationTracker.insert key ⟨status, now⟩ }
  | supersedes (current : ActiveOperation) (since now : Time) (hs : inOperation status = true)
      (hl : running m.operationTracker key = some current.operation)
      (hne : current.operation ≠ status) :
      Observed m key status
        { m.complete current .superseded since with
          operationTracker := m.operationTracker.insert key ⟨status, now⟩ }
  | settles (current : ActiveOperation) (result : OperationResult) (since : Time)
      (hs : inOperation status = false)
      (hl : running m.operationTracker key = some current.operation) :
      Observed m key status
        { m.complete current result since with operationTracker := m.operationTracker.erase key }

theorem observed_observe (m : Metrics) (key : NamespacedName) (status : String)
    (phase : RedkeyPhase) (clock : Readings) :
    Observed m key status (m.observe key status phase clock) := by
  have hrun : running m.operationTracker key =
      (m.operationTracker.lookup key).map ActiveOperation.operation := rfl
  unfold observe
  rw [show (status != "" && status != clusterStatusReady && status != clusterPhaseError) =
    inOperation status from rfl]
  cases hl : m.operationTracker.lookup key with
  | none =>
    rw [hl] at hrun
    cases hs : inOperation status
    · exact .kept (by simpa [hs] using hrun)
    · exact .begins clock.now hs hrun
  | some current =>
    rw [hl] at hrun
    cases hs : inOperation status
    · exact .settles current _ clock.since hs hrun
    · by_cases hne : current.operation = status
      · simp only [hne, bne_self_eq_false, Bool.false_eq_true, if_false, if_true]
        exact .kept (by simpa [hs, hne] using hrun)
      · simp only [bne_iff_ne.mpr hne, if_true]
        exact .supersedes current clock.since clock.now hs hrun hne

namespace Observed
variable {m m' : Metrics} {key : NamespacedName} {status : String}

/-- The tracker follows the status. -/
theorem running_self (h : Observed m key status m') :
    running m'.operationTracker key = if inOperation status then some status else none := by
  cases h with
  | kept h => exact h
  | begins now hs hl => simp [running, hs]
  | supersedes current since now hs hl hne => simp [running, hs]
  | settles current result since hs hl => simp [running, hs]

theorem running_of_ne (h : Observed m key status m') {k : NamespacedName} (hk : k ≠ key) :
    running m'.operationTracker k = running m.operationTracker k := by
  cases h with
  | kept h => rfl
  | begins now hs hl => simp [running, AList.lookup_insert_ne hk]
  | supersedes current since now hs hl hne => simp [running, AList.lookup_insert_ne hk]
  | settles current result since hs hl => simp [running, AList.lookup_erase_ne hk]

/-- An operation leaves the tracker with a count, and enters it where the status is new. -/
theorem balance (h : Observed m key status m') (op : String) :
    m'.completed op + activeCount m'.operationTracker op =
      m.completed op + activeCount m.operationTracker op +
        if inOperation op ∧ status = op ∧ running m.operationTracker key ≠ some op then 1 else 0 := by
  have herase := activeCount_erase m.operationTracker key op
  cases h with
  | kept h =>
    rw [if_neg]
    · rfl
    · rintro ⟨hop, rfl, hr⟩
      exact hr (by rw [h, if_pos hop])
  | begins now hs hl =>
    show m.completed op + activeCount (m.operationTracker.insert key ⟨status, now⟩) op = _
    rw [activeCount_insert, herase, hl]
    by_cases hop : status = op
    · subst hop
      simp [hs, Nat.add_assoc]
    · simp [hop]
  | supersedes current since now hs hl hne =>
    show (m.complete current .superseded since).completed op +
      activeCount (m.operationTracker.insert key ⟨status, now⟩) op = _
    rw [completed_complete, activeCount_insert, herase, hl]
    by_cases hop : status = op
    · subst hop
      simp [hs, hne, Nat.add_assoc]
    · simp only [hop, if_false, false_and, and_false, Option.some.injEq]
      omega
  | settles current result since hs hl =>
    show (m.complete current result since).completed op +
      activeCount (m.operationTracker.erase key) op = _
    have hno : ¬(inOperation op = true ∧ status = op ∧ some current.operation ≠ some op) := by
      rintro ⟨hop, rfl, -⟩
      simp [hs] at hop
    rw [completed_complete, herase, hl, if_neg hno]
    simp only [Option.some.injEq]
    omega

/-- Each completed operation has one duration sample. -/
theorem samples (h : Observed m key status m') {op : String}
    (hm : (m.redkeyOperationDuration op).length = m.completed op) :
    (m'.redkeyOperationDuration op).length = m'.completed op := by
  cases h with
  | kept h => exact hm
  | begins now hs hl => exact hm
  | supersedes current since now hs hl hne => exact samples_complete hm current .superseded since
  | settles current result since hs hl => exact samples_complete hm current result since

end Observed

/-! ### One call -/

/-- `recordRedkeyMetrics` makes one observation; besides that it sets gauges. -/
theorem observed_record (m : Metrics) (cluster : Redkey) (activeConfig : Option RedkeyConfig)
    (clock : Readings) : ∃ m', Observed m cluster.key cluster.status.status m' ∧
      (m.recordRedkeyMetrics cluster activeConfig clock).operationTracker = m'.operationTracker ∧
      (m.recordRedkeyMetrics cluster activeConfig clock).completed = m'.completed ∧
      (m.recordRedkeyMetrics cluster activeConfig clock).redkeyOperationDuration =
        m'.redkeyOperationDuration := by
  refine ⟨_, observed_observe m cluster.key cluster.status.status cluster.status.phase clock, ?_⟩
  cases activeConfig with
  | none => exact ⟨rfl, rfl, rfl⟩
  | some config => exact ⟨rfl, rfl, rfl⟩

theorem inProgress_record (m : Metrics) (cluster : Redkey) (activeConfig : Option RedkeyConfig)
    (clock : Readings) (key : NamespacedName) :
    (m.recordRedkeyMetrics cluster activeConfig clock).redkeyOperationInProgress.seriesOf key =
      if key = cluster.key then
        if inOperation cluster.status.status then [((key, cluster.status.status), 1)] else []
      else m.redkeyOperationInProgress.seriesOf key := by
  have hgauge : (m.recordRedkeyMetrics cluster activeConfig clock).redkeyOperationInProgress =
      if inOperation cluster.status.status then
        (m.redkeyOperationInProgress.deletePartialMatch cluster.key).insert
          (cluster.key, cluster.status.status) 1
      else m.redkeyOperationInProgress.deletePartialMatch cluster.key := by
    have hkept : ∀ {m'}, Observed m cluster.key cluster.status.status m' →
        m'.redkeyOperationInProgress = m.redkeyOperationInProgress := by
      intro m' h
      cases h <;> rfl
    rw [← hkept (observed_observe m cluster.key cluster.status.status cluster.status.phase clock)]
    cases activeConfig <;> rfl
  have hdeleted := m.redkeyOperationInProgress.seriesOf_deletePartialMatch cluster.key
  rw [hgauge]
  by_cases hk : key = cluster.key
  · subst hk
    have hnil := (hdeleted cluster.key).trans (if_pos rfl)
    rw [if_pos rfl]
    split
    · exact GaugeVec.seriesOf_insert_of_nil hnil 1
    · exact hnil
  · have hkept := (hdeleted key).trans (if_neg hk)
    rw [if_neg hk, ← hkept]
    split
    · exact GaugeVec.seriesOf_insert_of_ne _ 1 (Ne.symm hk)
    · rfl

end Metrics

/-! ## Every sequence of calls -/

/-- What the metrics say about the calls so far. -/
structure Counted (history : List MetricsCall) (m : Metrics) : Prop where
  running : ∀ key, running m.operationTracker key = (lastStatus key history).filter inOperation
  balance : ∀ op, begun op history =
    m.completed op + activeCount m.operationTracker op + dropped op history
  samples : ∀ op, (m.redkeyOperationDuration op).length = m.completed op
  series : ∀ key, m.redkeyOperationInProgress.seriesOf key =
    (Controller.running m.operationTracker key).toList.map fun op => ((key, op), 1)

namespace Counted
variable {history : List MetricsCall} {m : Metrics}

/-- An operation runs exactly when its status was the last one seen. -/
theorem running_iff (h : Counted history m) {key : NamespacedName} {op : String} :
    Controller.running m.operationTracker key = some op ↔
      inOperation op = true ∧ lastStatus key history = some op := by
  rw [h.running, Option.filter_eq_some_iff, and_comm]

theorem record (h : Counted history m) (cluster : Redkey) (activeConfig : Option RedkeyConfig)
    (clock : Readings) : Counted (.record cluster activeConfig clock :: history)
      (m.recordRedkeyMetrics cluster activeConfig clock) := by
  obtain ⟨m', hobs, htracker, htotal, hduration⟩ := m.observed_record cluster activeConfig clock
  refine ⟨fun key => ?_, fun op => ?_, fun op => ?_, fun key => ?_⟩
  · rw [htracker]
    by_cases hk : cluster.key = key
    · subst hk
      rw [hobs.running_self]
      simp [lastStatus, Option.filter]
    · rw [hobs.running_of_ne (Ne.symm hk), h.running]
      simp [lastStatus, hk]
  · rw [htracker, htotal, hobs.balance op]
    have hb := h.balance op
    have hcond : (inOperation op = true ∧ cluster.status.status = op ∧
          Controller.running m.operationTracker cluster.key ≠ some op) ↔
        (inOperation op = true ∧ cluster.status.status = op ∧
          lastStatus cluster.key history ≠ some op) := by
      apply and_congr_right
      intro hop
      simp [h.running_iff, hop]
    simp only [begun, dropped, hcond]
    omega
  · rw [hduration, htotal]
    exact hobs.samples (h.samples op)
  · rw [m.inProgress_record, htracker]
    split
    · rename_i hk
      subst hk
      rw [hobs.running_self]
      split <;> rfl
    · rename_i hk
      rw [hobs.running_of_ne hk, h.series]

theorem delete (h : Counted history m) (key : NamespacedName) :
    Counted (.delete key :: history) (m.deleteRedkeyMetrics key) := by
  have hself : Controller.running (m.operationTracker.erase key) key = none := by
    simp [Controller.running]
  have hother : ∀ {k}, k ≠ key →
      Controller.running (m.operationTracker.erase key) k =
        Controller.running m.operationTracker k := by
    intro k hk
    simp [Controller.running, AList.lookup_erase_ne hk]
  refine ⟨fun k => ?_, fun op => ?_, h.samples, fun k => ?_⟩
  · show Controller.running (m.operationTracker.erase key) k = _
    by_cases hk : key = k
    · subst hk
      rw [hself]
      simp [lastStatus]
    · rw [hother (Ne.symm hk), h.running]
      simp [lastStatus, hk]
  · show begun op history = m.completed op + activeCount (m.operationTracker.erase key) op + _
    have hb := h.balance op
    have herase := activeCount_erase m.operationTracker key op
    simp only [dropped, ← h.running_iff]
    omega
  · rw [show (m.deleteRedkeyMetrics key).redkeyOperationInProgress.seriesOf k = _ from
      m.redkeyOperationInProgress.seriesOf_deletePartialMatch key k]
    show _ = (Controller.running (m.operationTracker.erase key) k).toList.map _
    split
    · rename_i hk
      subst hk
      rw [hself]
      rfl
    · rename_i hk
      rw [hother hk, h.series]

end Counted

theorem counted_metricsAfter (history : List MetricsCall) :
    Counted history (metricsAfter history) := by
  induction history with
  | nil => exact ⟨fun _ => rfl, fun _ => rfl, fun _ => rfl, fun _ => rfl⟩
  | cons c past ih =>
    cases c with
    | record cluster activeConfig clock => exact ih.record cluster activeConfig clock
    | delete key => exact ih.delete key

/-- Every operation that has begun has ended with one count and one duration sample, is
running, or was dropped with its Redkey; the gauge shows what is running. -/
theorem operations_are_counted_once (history : List MetricsCall) :
    (∀ op, begun op history =
      (metricsAfter history).redkeyOperationTotal (op, .success) +
        (metricsAfter history).redkeyOperationTotal (op, .error) +
        (metricsAfter history).redkeyOperationTotal (op, .superseded) +
        activeCount (metricsAfter history).operationTracker op + dropped op history) ∧
    (∀ op, ((metricsAfter history).redkeyOperationDuration op).length =
      (metricsAfter history).redkeyOperationTotal (op, .success) +
        (metricsAfter history).redkeyOperationTotal (op, .error) +
        (metricsAfter history).redkeyOperationTotal (op, .superseded)) ∧
    ∀ key, (metricsAfter history).redkeyOperationInProgress.seriesOf key =
      ((metricsAfter history).operationTracker.lookup key).toList.map
        fun current => ((key, current.operation), 1) := by
  have h := counted_metricsAfter history
  refine ⟨h.balance, h.samples, fun key => ?_⟩
  rw [h.series]
  unfold running
  cases (metricsAfter history).operationTracker.lookup key <;> rfl

end RedkeyOperator.Controller
