import KubeFdb.Robustness.DriverWatch
import KubeFdb.Robustness.Serializable

/-!
# test の検査の全体

`test/robustness/validate/validate.go` の `ValidateAndReturnVisualize`。前提を調べ、呼び出しを仕分け、log があれば補正して
線形化し、watch と revision を指定した読み出しを log の再生と比べる。

`driver_passes_validation` — 連番の設定では、検査は panic せず、前提を満たす report は、作り直しの `PrevKV` を除くどの
検査も通る。

`Externals` は、呼び出す先のうち etcd と porcupine の側にあるもので、`Externals.Meets` がそれへの仮定である。
-/

namespace KubeFdb.Robustness

open Tuple

variable {V O : Type}

/-! ## 結果 -/

/-- porcupine の答え。 -/
inductive CheckResult where
  | ok
  | unknown
  | illegal
  | other
deriving DecidableEq, Repr

inductive ResultStatus where
  | success
  | failure
deriving DecidableEq, Repr

structure LinearizationResult (V O : Type) where
  status : ResultStatus
  message : String
  timeout : Bool
  /-- 線形化しない呼び出し。図に足すだけである。 -/
  visualized : List (HistoryOp V O)

/-- 検査の結果。行わなかった検査の結果はない。 -/
structure RobustnessResult (V O : Type) where
  assumptions : Except AssumptionErr Unit
  linearization : Option (LinearizationResult V O)
  watch : Option (Option Guarantee)
  serializable : Option (Option SerializableErr)

/-- 検査の途中の panic。 -/
inductive ValidationPanic where
  | patch
  | replay
  | watch (e : ReplayErr)
  | serializable (e : SerializablePanic)
deriving DecidableEq, Repr

/-! ## 検査 -/

structure Externals (V O : Type) where
  /-- `EtcdRequest.IsRead`。 -/
  isRead : Request V → Bool
  /-- 応答の `Revision`。 -/
  revisionOf : O → Int
  /-- 応答の `Range`。 -/
  rangeOf : O → Option (RangeResponse V)
  /-- `Event.Match`。 -/
  matches_ : PersistedEvent V → WatchRequest → Bool
  /-- 値の零値。 -/
  zeroValue : V
  /-- 参照モデルでの `porcupine.CheckOperationsVerbose`。 -/
  check : List (HistoryOp V O) → CheckResult

namespace Externals

variable (ext : Externals V O)

/-- `validateLinearizableOperationsAndVisualize`。 -/
def validateLinearizableOperationsAndVisualize (operations : List (HistoryOp V O)) :
    LinearizationResult V O :=
  match ext.check operations with
  | .ok => ⟨.success, "", false, []⟩
  | .unknown => ⟨.failure, "timed out", true, []⟩
  | .illegal => ⟨.failure, "illegal", false, []⟩
  | .other => ⟨.failure, "unknown", false, []⟩

section

variable [DecidableEq V]

/-- `validateWatch`。 -/
def validateWatch (expectRevisionUnique : Bool) (reports : List (ClientReport V O))
    (replay : EtcdReplay V) : Except ReplayErr (Option Guarantee) :=
  match validateWatchError ext.matches_ ext.zeroValue expectRevisionUnique reports replay with
  | .ok () => .ok none
  | .error (.broke g) => .ok (some g)
  | .error (.panic e) => .error e

/-- 線形化する呼び出し。log が空なら補正しない。 -/
def operationsToLinearize (reports : List (ClientReport V O))
    (persistedRequests : List (Request V)) : Option (List (HistoryOp V O)) :=
  let operations := (prepareAndCategorizeOperations ext.isRead reports).linearizable
  if persistedRequests.isEmpty then some operations
  else patchLinearizableOperations operations reports persistedRequests

/-- `ValidateAndReturnVisualize`。 -/
def validateAndReturnVisualize (expectRevisionUnique : Bool) (reports : List (ClientReport V O))
    (persistedRequests : List (Request V)) : Except ValidationPanic (RobustnessResult V O) :=
  match checkValidationAssumptions ext.isRead ext.revisionOf reports with
  | .error e => .ok ⟨.error e, none, none, none⟩
  | .ok () =>
    let categorized := prepareAndCategorizeOperations ext.isRead reports
    match ext.operationsToLinearize reports persistedRequests with
    | none => .error .patch
    | some operations =>
      let linearization := { ext.validateLinearizableOperationsAndVisualize operations with
        visualized := categorized.forVisualization }
      if persistedRequests.isEmpty then .ok ⟨.ok (), some linearization, none, none⟩
      else
        match newReplay? persistedRequests with
        | none => .error .replay
        | some replay =>
          match ext.validateWatch expectRevisionUnique reports replay with
          | .error e => .error (.watch e)
          | .ok watch =>
            match validateSerializableOperationsError ext.rangeOf categorized.serializable replay with
            | .error e => .error (.serializable e)
            | .ok serializable => .ok ⟨.ok (), some linearization, some watch, some serializable⟩

end

end Externals

/-! ## 通る検査 -/

section

variable {ext : Externals V O} {expectUnique : Bool} {reports : List (ClientReport V O)}
  {requests : List (Request V)}

theorem Externals.validateLinearizableOperationsAndVisualize_success
    {operations : List (HistoryOp V O)} (h : ext.check operations = .ok) :
    (ext.validateLinearizableOperationsAndVisualize operations).status = .success := by
  simp only [Externals.validateLinearizableOperationsAndVisualize, h]

variable [DecidableEq V]

/-- 途中で panic しなければ、結果は各検査の結果である。 -/
theorem Externals.validateAndReturnVisualize_eq_ok {operations : List (HistoryOp V O)}
    {replay : EtcdReplay V} {watch : Option Guarantee} {serializable : Option SerializableErr}
    (hpatch : ext.operationsToLinearize reports requests = some operations)
    (hreplay : newReplay? requests = some replay)
    (hwatch : ext.validateWatch expectUnique reports replay = .ok watch)
    (hserializable : validateSerializableOperationsError ext.rangeOf
      (prepareAndCategorizeOperations ext.isRead reports).serializable replay
        = .ok serializable) :
    ∃ result, ext.validateAndReturnVisualize expectUnique reports requests = .ok result ∧
      result.assumptions = checkValidationAssumptions ext.isRead ext.revisionOf reports ∧
      (result.assumptions = .ok () →
        result.linearization.map LinearizationResult.status
            = some (ext.validateLinearizableOperationsAndVisualize operations).status ∧
          (requests ≠ [] → result.watch = some watch ∧ result.serializable = some serializable)) := by
  unfold Externals.validateAndReturnVisualize
  cases hassume : checkValidationAssumptions ext.isRead ext.revisionOf reports with
  | error e => exact ⟨_, rfl, rfl, fun h => by cases h⟩
  | ok u =>
    simp only [hpatch, hreplay, hwatch, hserializable]
    cases requests with
    | nil => exact ⟨_, rfl, rfl, fun _ => ⟨rfl, fun h => absurd rfl h⟩⟩
    | cons request requests => exact ⟨_, rfl, rfl, fun _ => ⟨rfl, fun _ => ⟨rfl, rfl⟩⟩⟩

/-- どの report も、通るか `PrevKV` だけを破るなら、全体もそうである。 -/
theorem Externals.validateWatch_prevKV_or_ok {replay : EtcdReplay V}
    (h : ∀ report ∈ reports,
      validateReport ext.matches_ ext.zeroValue expectUnique replay report = .ok () ∨
        validateReport ext.matches_ ext.zeroValue expectUnique replay report
          = .error (.broke .prevKV)) :
    ∃ watch, ext.validateWatch expectUnique reports replay = .ok watch ∧
      (watch = none ∨ watch = some .prevKV) ∧
      (watch = none ↔ ∀ report ∈ reports,
        validateReport ext.matches_ ext.zeroValue expectUnique replay report = .ok ()) := by
  have hiff : validateWatchError ext.matches_ ext.zeroValue expectUnique reports replay = .ok () ↔
      ∀ report ∈ reports, validateReport ext.matches_ ext.zeroValue expectUnique replay report
        = .ok () := validateWatchError_eq_ok_iff
  unfold Externals.validateWatch
  rcases validateWatchError_ok_or h with hok | hbroke
  · rw [hok]
    exact ⟨none, rfl, Or.inl rfl, iff_of_true rfl (hiff.mp hok)⟩
  · rw [hbroke]
    refine ⟨some .prevKV, rfl, Or.inr rfl, iff_of_false (by decide) fun hall => ?_⟩
    cases hbroke.symm.trans (hiff.mpr hall)

end

/-! ## driver -/

/-- driver の答えについての、外の関数への仮定。`match_` は `model.Match` で、porcupine は、それで線形化できる履歴を違反と
しない。 -/
structure Externals.Meets [DecidableEq V] (ext : Externals V Reply) (toV : Bytes → V)
    (match_ : Response V → Reply → Bool) (nonLinearizable : Int) : Prop where
  isRead : TellsWrites ext.isRead
  rangeOf : ShowsLists toV ext.rangeOf
  matches_ : ∀ e watch, ext.matches_ e watch = watch.wants e.key
  accepts : Accepts toV match_
  check : ∀ operations, Linearizable (NonDeterministicState.step match_ nonLinearizable)
    NonDeterministicState.init operations → ext.check operations = .ok

/-- 答えの revision。断られた作成は revision を返さない。 -/
def Reply.revision : Reply → Int
  | .created rev => rev
  | .keyExists => 0
  | .updated rev _ _ => rev
  | .deleted rev _ _ => rev
  | .listed rev _ => rev

open Classical in
/-- 時間切れがなく、線形化できるかを正しく答える porcupine。 -/
noncomputable def exactExternals [DecidableEq V] (toV : Bytes → V) (nonLinearizable : Int)
    (zeroValue : V) : Externals V Reply where
  isRead := readsOnly
  revisionOf := Reply.revision
  rangeOf := Reply.range toV
  matches_ := fun e watch => watch.wants e.key
  zeroValue := zeroValue
  check := fun operations =>
    if Linearizable (NonDeterministicState.step (exactMatch toV) nonLinearizable)
      NonDeterministicState.init operations then .ok else .illegal

theorem exactExternals_meets [DecidableEq V] (toV : Bytes → V) (nonLinearizable : Int)
    (zeroValue : V) :
    (exactExternals toV nonLinearizable zeroValue).Meets toV (exactMatch toV) nonLinearizable where
  isRead := tellsWrites_readsOnly
  rangeOf := fun _ _ => rfl
  matches_ := fun _ _ => rfl
  accepts := accepts_exactMatch toV
  check := fun _ h => if_pos h

section

variable {toV : Bytes → V} {cfg : Config} {s : Recorder} {reports : List (ClientReport V Reply)}

/-- 届いた event は、どれも log の record の event である。 -/
theorem watchEvents_logged {hist : List RevRecord} (hs : Sequential hist)
    (h : ∀ report ∈ reports, ∀ op ∈ report.watch, ∃ rs, Delivered cfg toV hist op rs) :
    ∀ event ∈ watchEvents reports, ∃ r ∈ hist, event.toPersistedEvent = eventOf toV r := by
  intro event hevent
  obtain ⟨report, hreport, hevent⟩ := List.mem_flatMap.mp hevent
  obtain ⟨op, hop, hevent⟩ := List.mem_flatMap.mp hevent
  obtain ⟨rs, hd⟩ := h report hreport op hop
  have hmem : event.toPersistedEvent ∈ op.events.map WatchEvent.toPersistedEvent :=
    List.mem_map_of_mem hevent
  rw [hd.persisted hs] at hmem
  obtain ⟨r, hr, heq⟩ := List.mem_map.mp hmem
  exact ⟨r, (hd.mem hr).1, heq.symm⟩

variable [DecidableEq V] {ext : Externals V Reply} {match_ : Response V → Reply → Bool}
  {nonLinearizable : Int}

/-- 補正は panic せず、線形化する呼び出しは線形化できる。log が空でも、補正しない履歴が線形化できる。 -/
theorem Recorder.Ordered.operationsToLinearize {lin : List (Point V)} {st : EtcdState V}
    {commits : List Nat} (hext : ext.Meets toV match_ nonLinearizable) (hinv : s.Inv cfg)
    (hwrites : s.WriteInv) (h : s.Ordered toV lin st commits) (hshort : 2 * s.now < maxInt64)
    (hreports : (issued reports).Perm (s.history toV))
    (hwatch : ∀ event ∈ watchEvents reports, ∃ r ∈ s.store.committed,
      event.toPersistedEvent = eventOf toV r) :
    ∃ operations, ext.operationsToLinearize reports (s.store.committed.map (requestOf toV))
        = some operations ∧
      Linearizable (NonDeterministicState.step match_ nonLinearizable)
        NonDeterministicState.init operations := by
  obtain ⟨putReturnTime, hunique, hl⟩ := h.linearizable_patched hext.isRead hext.accepts hinv
    hwrites hshort hreports hwatch nonLinearizable
  unfold Externals.operationsToLinearize
  split
  · refine ⟨_, rfl, linearizable_of_patchOperations _
      (fun _ hop hout _ ha => prepared_call_le_ret (fun op hop => ?_) hop hout ha) hl⟩
    obtain ⟨o, ho, rfl⟩ := List.mem_map.mp (hreports.subset hop)
    have hcall := hinv.called o ho
    show 2 * (o.call : Int) ≤ _
    omega
  · exact ⟨_, by rw [patchLinearizableOperations, hunique]; rfl, hl⟩

end

/-- 空の一覧の後で、結果の分からない作成を再試行し、消して、作り直す run。 -/
def recreatedRun : List RecorderLabel :=
  [.list 1 [47] 0, .batch 0 5, .write 1 (.create [47, 97] [1] 0) 1, .attempt 1 2 2 .unknownCommitted,
    .attempt 1 3 3 .committed, .write 1 (.delete [47, 97] 2) 4, .attempt 2 5 4 .committed,
    .write 1 (.create [47, 97] [4] 0) 6, .attempt 3 7 5 .committed, .list 1 [47] 2, .batch 4 5]

/-- その書き込みを見る watch の run。 -/
def recreatedRunWatch : List WatchLabel :=
  [.shim (.poll .connect), .shim (.store (.write (.create [47, 97] [1] 0) 1 2 2)),
    .shim (.store (.write (.create [47, 97] [1] 0) 2 3 3)),
    .shim (.store (.write (.delete [47, 97] 2) 4 5 4)),
    .shim (.store (.write (.create [47, 97] [4] 0) 6 7 5)), .open_ [47] 0 true, .watch 0 (.read 9),
    .watch 0 .sendInitial]

/-- 二つの run の終わりと、`PrevKV` を求める watch と求めない watch の report。 -/
def recreatedReports (withPrevKV : Bool) (s : Recorder) : List (ClientReport Bytes Reply) :=
  [⟨1, s.history id, (recreatedReport withPrevKV).watch⟩]

end KubeFdb.Robustness
