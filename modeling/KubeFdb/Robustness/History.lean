import KubeFdb.Lib.Linearizable
import KubeFdb.Lib.Lists
import KubeFdb.Robustness.NonDeterministic
import KubeFdb.Robustness.Replay

/-!
# client の report と、その仕分け

`test/robustness/validate/validate.go`。test は client ごとの report を集め、検査の前提を調べてから、呼び出しを
線形化するものと、古い revision の読み出しとに分ける。

* `validateNonConcurrentClientRequests_ok_iff` — 前提の検査が通るのは、どの client の呼び出しも一つずつ
  順に行われているとき、そのときに限る
* `linearization_keeps_program_order` — 検査が通った report では、どの線形化も、答えのあった呼び出しと、同じ
  client のその後の呼び出しの順を保つ

report の型は etcd の robustness test のものである。`EtcdRequest.IsRead` はその関数で、引数にとる。
-/

namespace KubeFdb.Robustness

open Tuple

/-! ## report -/

/-- `porcupine.Operation`。 -/
abbrev HistoryOp (V O : Type) := TimedOp (Request V) (Observed O)

structure WatchRequest where
  key : Key
  revision : Int
  withPrefix : Bool
  withPrevKV : Bool
deriving DecidableEq, Repr

@[ext]
structure WatchEvent (V : Type) extends PersistedEvent V where
  prevValue : Option (ValueRevision V)
deriving DecidableEq, Repr

structure WatchResponse (V : Type) where
  events : List (WatchEvent V)
  isProgressNotify : Bool
  revision : Int
deriving DecidableEq, Repr

structure WatchOperation (V : Type) where
  request : WatchRequest
  responses : List (WatchResponse V)
deriving DecidableEq, Repr

structure ClientReport (V O : Type) where
  clientID : Int
  keyValue : List (HistoryOp V O)
  watch : List (WatchOperation V)

variable {V O : Type}

/-- report の呼び出しを、書かれた順に並べたもの。 -/
def issued (reports : List (ClientReport V O)) : List (HistoryOp V O) :=
  reports.flatMap ClientReport.keyValue

def Observed.isFailed : Observed O → Bool
  | .failed => true
  | _ => false

/-! ## 仕分け -/

def Operation.isWrite : Operation V → Bool
  | .put _ => true
  | .delete _ => true
  | .range _ => false

/-- transaction の、成功の枝と失敗の枝の操作。 -/
def TxnRequest.operations (request : TxnRequest V) : List (Operation V) :=
  request.operationsOnSuccess ++ request.operationsOnFailure

def Request.isDefragment : Request V → Bool
  | .defragment => true
  | _ => false

/-- `isLinearizable`。 -/
def isLinearizable (isRead : Request V → Bool) (request : Request V) (response : Observed O) :
    Bool :=
  if isRead request && response.isFailed then false
  else if request.isDefragment then false
  else true

/-- `isSerializable`。 -/
def isSerializable (isRead : Request V → Bool) (request : Request V) (response : Observed O) :
    Bool :=
  if isRead request && response.isFailed then false
  else
    match request with
    | .range _ revision => decide (revision ≠ 0)
    | _ => false

/-- `prepareAndCategorizeOperations` の結果。 -/
structure Categorized (V O : Type) where
  linearizable : List (HistoryOp V O)
  serializable : List (HistoryOp V O)
  forVisualization : List (HistoryOp V O)

/-- 失敗した呼び出しは、いつ効いたか分からないので、終わりの時刻を最大にする。 -/
def withReturn (op : HistoryOp V O) : HistoryOp V O :=
  if op.output.isFailed then { op with ret := maxInt64 } else op

/-- `prepareAndCategorizeOperations` の loop 一回分。 -/
def categorize (isRead : Request V → Bool) (acc : Categorized V O) (op : HistoryOp V O) :
    Categorized V O :=
  let acc :=
    if isSerializable isRead op.input op.output then
      { acc with serializable := acc.serializable ++ [op] } else acc
  if isLinearizable isRead op.input op.output then
    { acc with linearizable := acc.linearizable ++ [withReturn op] }
  else { acc with forVisualization := acc.forVisualization ++ [op] }

/-- `prepareAndCategorizeOperations`。 -/
def prepareAndCategorizeOperations (isRead : Request V → Bool) (reports : List (ClientReport V O)) :
    Categorized V O :=
  reports.foldl (fun acc report => report.keyValue.foldl (categorize isRead) acc) ⟨[], [], []⟩

/-! ## 検査の前提 -/

inductive AssumptionErr where
  | notEmptyDatabase
  | concurrentRequest (clientId : Int)
  | endsBeforeStart (clientId : Int)
deriving DecidableEq, Repr

/-- `MaybeEtcdResponse` の `Revision`。 -/
def Observed.revision (revisionOf : O → Int) : Observed O → Int
  | .response o => revisionOf o
  | _ => 0

/-- `validateEmptyDatabaseAtStart`。 -/
def validateEmptyDatabaseAtStart (isRead : Request V → Bool) (revisionOf : O → Int)
    (reports : List (ClientReport V O)) : Except AssumptionErr Unit :=
  if reports = [] then .ok ()
  else if (issued reports).any (fun op =>
      decide (op.output.revision revisionOf = 1) && isRead op.input) then .ok ()
  else .error .notEmptyDatabase

/-- `validateNonConcurrentClientRequests` の loop 一回分。`last` は client ごとの、前の呼び出しの終わりで
ある。 -/
def validateClientRequest (last : Int → Int) (op : HistoryOp V O) :
    Except AssumptionErr (Int → Int) :=
  if op.call ≤ last op.clientId then .error (.concurrentRequest op.clientId)
  else if op.ret ≤ op.call then .error (.endsBeforeStart op.clientId)
  else .ok (Function.update last op.clientId op.ret)

/-- `validateNonConcurrentClientRequests`。 -/
def validateNonConcurrentClientRequests (reports : List (ClientReport V O)) :
    Except AssumptionErr Unit :=
  (reports.foldlM
    (fun (last : Int → Int) (report : ClientReport V O) =>
      report.keyValue.foldlM validateClientRequest last) (fun _ => 0)).map (fun _ => ())

/-- `checkValidationAssumptions`。 -/
def checkValidationAssumptions (isRead : Request V → Bool) (revisionOf : O → Int)
    (reports : List (ClientReport V O)) : Except AssumptionErr Unit := do
  validateEmptyDatabaseAtStart isRead revisionOf reports
  validateNonConcurrentClientRequests reports

/-! ## 仕分けの結果 -/

section

variable {isRead : Request V → Bool} {reports : List (ClientReport V O)} {op : HistoryOp V O}

/-- 一回の loop は、呼び出しをそれぞれの列の末尾に足す。 -/
theorem foldl_categorize (ops : List (HistoryOp V O)) (acc : Categorized V O) :
    ops.foldl (categorize isRead) acc =
      { linearizable := acc.linearizable ++
          (ops.filter (fun op => isLinearizable isRead op.input op.output)).map withReturn
        serializable := acc.serializable ++
          ops.filter (fun op => isSerializable isRead op.input op.output)
        forVisualization := acc.forVisualization ++
          ops.filter (fun op => !isLinearizable isRead op.input op.output) } := by
  induction ops generalizing acc with
  | nil => simp
  | cons op ops ih =>
    rw [List.foldl_cons, ih]
    unfold categorize
    cases hs : isSerializable isRead op.input op.output <;>
      cases hl : isLinearizable isRead op.input op.output <;> simp [hs, hl]

/-- 仕分けは、呼び出しを書かれた順に一度ずつ見る。 -/
theorem prepare_eq_foldl (isRead : Request V → Bool) (reports : List (ClientReport V O)) :
    prepareAndCategorizeOperations isRead reports
      = (issued reports).foldl (categorize isRead) ⟨[], [], []⟩ := by
  have hfold : ∀ acc : Categorized V O,
      (reports.foldl (fun acc report => report.keyValue.foldl (categorize isRead) acc) acc)
        = (issued reports).foldl (categorize isRead) acc := by
    unfold issued
    induction reports with
    | nil => exact fun acc => rfl
    | cons report reports ih =>
      intro acc
      rw [List.foldl_cons, ih, List.flatMap_cons, List.foldl_append]
  exact hfold _

/-- 線形化に渡すのは、線形化するものとされた呼び出しを、書かれた順に並べたものである。 -/
theorem prepare_linearizable (isRead : Request V → Bool) (reports : List (ClientReport V O)) :
    (prepareAndCategorizeOperations isRead reports).linearizable
      = ((issued reports).filter (fun op => isLinearizable isRead op.input op.output)).map
          withReturn := by
  simp only [prepare_eq_foldl, foldl_categorize, List.nil_append]

/-- 再生と比べるのは、revision を指定した読み出しを、書かれた順に並べたものである。 -/
theorem prepare_serializable (isRead : Request V → Bool) (reports : List (ClientReport V O)) :
    (prepareAndCategorizeOperations isRead reports).serializable
      = (issued reports).filter (fun op => isSerializable isRead op.input op.output) := by
  simp only [prepare_eq_foldl, foldl_categorize, List.nil_append]

@[simp] theorem withReturn_call : (withReturn op).call = op.call := by
  unfold withReturn
  split <;> rfl

@[simp] theorem withReturn_input : (withReturn op).input = op.input := by
  unfold withReturn
  split <;> rfl

@[simp] theorem withReturn_output : (withReturn op).output = op.output := by
  unfold withReturn
  split <;> rfl

theorem withReturn_of_failed (h : op.output.isFailed = true) : (withReturn op).ret = maxInt64 := by
  rw [withReturn, if_pos h]

theorem withReturn_of_not_failed (h : op.output.isFailed = false) : withReturn op = op := by
  rw [withReturn, h]
  rfl

/-! ## 前提 -/

theorem validateClientRequest_ok_iff {last last' : Int → Int} :
    validateClientRequest last op = .ok last' ↔
      last op.clientId < op.call ∧ op.call < op.ret ∧
        last' = Function.update last op.clientId op.ret := by
  unfold validateClientRequest
  by_cases h₁ : op.call ≤ last op.clientId
  · simp [h₁]
  · by_cases h₂ : op.ret ≤ op.call
    · simp [h₁, h₂]
    · rw [if_neg h₁, if_neg h₂, Except.ok.injEq, eq_comm]
      exact (and_iff_right (not_le.mp h₁)).trans (and_iff_right (not_le.mp h₂)) |>.symm

/-- 一つの client の呼び出しが重ならず、どれも始まりより後に終わること。`last` は、それまでの最後の終わりである。 -/
structure NonConcurrent (last : Int → Int) (ops : List (HistoryOp V O)) : Prop where
  after : ∀ op ∈ ops, last op.clientId < op.call
  ends : ∀ op ∈ ops, op.call < op.ret
  order : ops.Pairwise (fun a b => a.clientId = b.clientId → a.ret < b.call)

theorem nonConcurrent_cons {last : Int → Int} {ops : List (HistoryOp V O)} :
    NonConcurrent last (op :: ops) ↔ last op.clientId < op.call ∧ op.call < op.ret ∧
      NonConcurrent (Function.update last op.clientId op.ret) ops := by
  constructor
  · rintro ⟨hafter, hends, horder⟩
    obtain ⟨hop, horder⟩ := List.pairwise_cons.mp horder
    refine ⟨hafter op List.mem_cons_self, hends op List.mem_cons_self, fun b hb => ?_,
      fun b hb => hends b (List.mem_cons_of_mem _ hb), horder⟩
    by_cases hc : b.clientId = op.clientId
    · rw [hc, Function.update_self]
      exact hop b hb hc.symm
    · rw [Function.update_of_ne hc]
      exact hafter b (List.mem_cons_of_mem _ hb)
  · rintro ⟨hlast, hend, hafter, hends, horder⟩
    -- 同じ client の後の呼び出しは、この呼び出しの終わりより後に始まる
    have hsame : ∀ b ∈ ops, op.clientId = b.clientId → op.ret < b.call := by
      intro b hb hc
      have := hafter b hb
      rwa [← hc, Function.update_self] at this
    refine ⟨fun b hb => ?_, fun b hb => ?_, List.pairwise_cons.mpr ⟨hsame, horder⟩⟩
    · rcases List.mem_cons.mp hb with rfl | hb
      · exact hlast
      · by_cases hc : b.clientId = op.clientId
        · rw [hc]
          exact hlast.trans (hend.trans (hsame b hb hc.symm))
        · have := hafter b hb
          rwa [Function.update_of_ne hc] at this
    · rcases List.mem_cons.mp hb with rfl | hb
      · exact hend
      · exact hends b hb

theorem foldlM_validateClientRequest_ok_iff : ∀ {ops : List (HistoryOp V O)} {last : Int → Int},
    (∃ last', ops.foldlM validateClientRequest last = .ok last') ↔ NonConcurrent last ops
  | [], last => by
    refine iff_of_true ⟨last, rfl⟩ ⟨?_, ?_, List.Pairwise.nil⟩ <;>
      exact fun op hop => absurd hop List.not_mem_nil
  | op :: ops, last => by
    rw [nonConcurrent_cons, List.foldlM_cons, ← foldlM_validateClientRequest_ok_iff]
    cases hv : validateClientRequest last op with
    | error e =>
      refine iff_of_false (by rintro ⟨last', h⟩; cases h) ?_
      rintro ⟨hlast, hend, -⟩
      rw [validateClientRequest_ok_iff.mpr ⟨hlast, hend, rfl⟩] at hv
      cases hv
    | ok last' =>
      obtain ⟨hlast, hend, rfl⟩ := validateClientRequest_ok_iff.mp hv
      exact ((and_iff_right hlast).trans (and_iff_right hend)).symm

/-- 前提の検査が通るのは、client ごとに呼び出しが重ならないとき、そのときに限る。 -/
theorem validateNonConcurrentClientRequests_ok_iff :
    validateNonConcurrentClientRequests reports = .ok () ↔
      NonConcurrent (fun _ => 0) (issued reports) := by
  have hfold : ∀ last : Int → Int,
      reports.foldlM
          (fun (last : Int → Int) report => report.keyValue.foldlM validateClientRequest last) last
        = (issued reports).foldlM validateClientRequest last := by
    unfold issued
    induction reports with
    | nil => exact fun last => rfl
    | cons report reports ih =>
      intro last
      rw [List.foldlM_cons, List.flatMap_cons, List.foldlM_append]
      exact congrArg _ (funext ih)
  rw [validateNonConcurrentClientRequests, hfold, ← foldlM_validateClientRequest_ok_iff]
  cases (issued reports).foldlM validateClientRequest (fun _ => 0) with
  | error e => exact iff_of_false (fun h => by cases h) (by rintro ⟨last', h⟩; cases h)
  | ok last' => exact iff_of_true rfl ⟨last', rfl⟩

/-! ## 線形化の順 -/

/-- **線形化は、client の呼び出しの順を保つ。** 前提の検査が通った report では、どの仕様についてのどの線形化でも、
答えのあった呼び出しは、同じ client がその後に始めた呼び出しより前に並ぶ。 -/
theorem linearization_keeps_program_order {σ : Type}
    (spec : σ → Request V → Observed O → Option σ) (init : σ) (isRead : Request V → Bool)
    (reports : List (ClientReport V O))
    (hok : validateNonConcurrentClientRequests reports = .ok ()) (l : List (HistoryOp V O))
    (hl : Linearizes spec init l (prepareAndCategorizeOperations isRead reports).linearizable)
    (a b : HistoryOp V O) (hab : [a, b].Sublist (issued reports)) (hc : a.clientId = b.clientId)
    (ha : a.output.isFailed = false) (hla : isLinearizable isRead a.input a.output = true)
    (hlb : isLinearizable isRead b.input b.output = true) :
    [a, withReturn b].Sublist l := by
  obtain ⟨-, hends, horder⟩ := validateNonConcurrentClientRequests_ok_iff.mp hok
  have hlt : a.ret < b.call := by
    obtain ⟨hcons, -⟩ := List.pairwise_cons.mp (horder.sublist hab)
    exact hcons b List.mem_cons_self hc
  have haend : a.call < a.ret := hends a (hab.subset List.mem_cons_self)
  have hmem : ∀ x ∈ issued reports, isLinearizable isRead x.input x.output = true →
      withReturn x ∈ l := by
    intro x hx hlx
    refine hl.perm.symm.subset ?_
    rw [prepare_linearizable]
    exact List.mem_map_of_mem (List.mem_filter.mpr ⟨hx, hlx⟩)
  have hma : a ∈ l := by
    have := hmem a (hab.subset List.mem_cons_self) hla
    rwa [withReturn_of_not_failed ha] at this
  have hmb := hmem b (hab.subset (List.mem_cons_of_mem _ List.mem_cons_self)) hlb
  have hne : a ≠ withReturn b := by
    intro he
    have := congrArg TimedOp.call he
    rw [withReturn_call] at this
    omega
  refine (pair_sublist_or hma hmb hne).resolve_right fun hba => ?_
  -- `b` が先に並ぶと、`a` は `b` の始まりより先に終わってはいないことになる
  obtain ⟨hcons, -⟩ := List.pairwise_cons.mp (hl.order.sublist hba)
  exact hcons a List.mem_cons_self (by rw [withReturn_call]; exact hlt)

end

/-- 条件のない put。 -/
def putOnce (key : Key) (value : Nat) : Request Nat := .txn ⟨[], [.put ⟨key, value, 0⟩], []⟩

/-- 書き込みを含まない request。 -/
def readsOnly : Request V → Bool
  | .range _ _ => true
  | .txn request => !request.operations.any Operation.isWrite
  | _ => false

/-- 答えのあった put。 -/
def answeredPut : HistoryOp Nat (Response Nat) :=
  ⟨1, putOnce [1] 7, 1, .response (.txn ⟨false, [.zero]⟩ 2), 4⟩

/-- 行方の分からない put。 -/
def lostPut : HistoryOp Nat (Response Nat) := ⟨1, putOnce [1] 8, 6, .failed, 7⟩

/-- 行方の分からない put の後の put。その revision から、前の put が書かれたと分かる。 -/
def laterPut : HistoryOp Nat (Response Nat) :=
  ⟨2, putOnce [2] 9, 8, .response (.txn ⟨false, [.zero]⟩ 4), 9⟩

/-- 二つの client の report。行方の分からない put は、watch に届いている。 -/
def lostPutReports : List (ClientReport Nat (Response Nat)) :=
  [⟨1, [answeredPut, lostPut], []⟩,
    ⟨2, [laterPut], [⟨⟨[1], 0, true, false⟩,
      [⟨[⟨⟨.put, [1], some 8, 3, false⟩, none⟩], false, 3⟩]⟩]⟩]

/-- 行方の分からない put を含む履歴の線形化。 -/
theorem linearization_keeps_program_order_of_lostPut :
    ∃ l, Linearizes (NonDeterministicState.step (fun r o => decide (r = o)) 0)
        NonDeterministicState.init l
        (prepareAndCategorizeOperations readsOnly lostPutReports).linearizable ∧
      [answeredPut, withReturn lostPut].Sublist l := by
  have hl : Linearizes (NonDeterministicState.step (fun r o => decide (r = o)) 0)
      NonDeterministicState.init [answeredPut, withReturn lostPut, laterPut]
      (prepareAndCategorizeOperations readsOnly lostPutReports).linearizable :=
    ⟨List.Perm.refl _, by decide, by decide +kernel⟩
  exact ⟨_, hl, linearization_keeps_program_order _ _ readsOnly lostPutReports (by decide) _ hl
    answeredPut lostPut (by decide) rfl rfl (by decide) (by decide)⟩

end KubeFdb.Robustness
