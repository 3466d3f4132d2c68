import KubeFdb.Robustness.History

/-!
# 失敗した呼び出しの補正

`test/robustness/validate/patch_history.go`。client が error を受け取った transaction の行方は、log と watch の
event から分かることがある。線形化の前に、それを使って履歴を補正する。

* 値が client の中で一つしかない put の transaction は、log になければ除く。あれば、書かれたものとし、watch の
  event があればその revision も付ける
* log の順から、その transaction が遅くともいつ効いたかを求めて、終わりの時刻を早める
-/

namespace KubeFdb.Robustness

open Tuple

variable {V O : Type}

/-! ## 鍵と値の組ごとの表 -/

/-- `map[keyValue]int64`。`keyValue` は鍵と値の組である。 -/
abbrev KvMap (V : Type) := Key × V → Option Int

def KvMap.empty : KvMap V := fun _ => none

def KvMap.set [DecidableEq V] (m : KvMap V) (kv : Key × V) (n : Int) : KvMap V :=
  Function.update m kv (some n)

/-- 値を読む。ない組は 0 である。 -/
def KvMap.get (m : KvMap V) (kv : Key × V) : Int := (m kv).getD 0

/-- 操作の列が書く組。 -/
def putsOf (ops : List (Operation V)) : List (Key × V) :=
  ops.filterMap (fun op =>
    match op with
    | .put options => some (options.key, options.value)
    | .delete _ => none
    | .range _ => none)

/-- request が書きうる組。 -/
def Request.puts : Request V → List (Key × V)
  | .txn request => putsOf request.operations
  | _ => []

section

variable [DecidableEq V]

/-- `countPuts`。 -/
def countPuts (counter : KvMap V) (request : Request V) : KvMap V :=
  request.puts.foldl (fun counter kv => counter.set kv (counter.get kv + 1)) counter

/-- `countClientPuts`。 -/
def countClientPuts (reports : List (ClientReport V O)) : KvMap V :=
  (issued reports).foldl (fun counter op => countPuts counter op.input) .empty

/-- `countPersistedPuts`。 -/
def countPersistedPuts (requests : List (Request V)) : KvMap V := requests.foldl countPuts .empty

/-- report の watch に届いた event。 -/
def watchEvents (reports : List (ClientReport V O)) : List (WatchEvent V) :=
  reports.flatMap (fun report =>
    report.watch.flatMap (fun watch => watch.responses.flatMap WatchResponse.events))

/-- `putRevision` の loop 一回分。 -/
def recordPutRevision (requestRevision : KvMap V) (event : WatchEvent V) : KvMap V :=
  match event.type, event.value with
  | .put, some value => requestRevision.set (event.key, value) event.revision
  | _, _ => requestRevision

/-- `putRevision`。 -/
def putRevision (reports : List (ClientReport V O)) : KvMap V :=
  (watchEvents reports).foldl recordPutRevision .empty

/-! ## 終わりの時刻 -/

/-- `uniquePutReturnTime` の前半の loop 一回分。Go は小さい方をとる比較の後で、必ず上書きする。組が一度しか
書かれなければ、どちらでも同じである。 -/
def recordReturnTime (clientPutCount : KvMap V) (acc : KvMap V × Int) (op : HistoryOp V O) :
    KvMap V × Int :=
  let earliestReturnTime := op.input.puts.foldl
    (fun earliest kv => if 1 < clientPutCount.get kv then earliest else earliest.set kv op.ret) acc.1
  (earliestReturnTime, if acc.2 < op.ret then op.ret else acc.2)

/-- `uniquePutReturnTime` の後半の、log の put 一つ分。 -/
def lowerReturnTime (clientPutCount : KvMap V) (acc : KvMap V × Int) (kv : Key × V) :
    KvMap V × Int :=
  if 1 < clientPutCount.get kv then acc
  else
    match acc.1 kv with
    | none => acc
    | some returnTime =>
      let lastReturnTime := min returnTime acc.2
      (acc.1.set kv lastReturnTime, lastReturnTime)

/-- `uniquePutReturnTime` の後半の loop 一回分。log に読み出しがあれば panic する。 -/
def walkBack (clientPutCount : KvMap V) (acc : KvMap V × Int) : Request V → Option (KvMap V × Int)
  | .txn request =>
    let lastReturnTime := if acc.2 ≠ maxInt64 then acc.2 - 1 else acc.2
    some ((putsOf request.operationsOnSuccess).foldl (lowerReturnTime clientPutCount)
      (acc.1, lastReturnTime))
  | .leaseGrant _ => some acc
  | .leaseRevoke _ => some acc
  | .compact _ => some acc
  | .range _ _ => none
  | .defragment => none

/-- `uniquePutReturnTime`。 -/
def uniquePutReturnTime (allOperations : List (HistoryOp V O)) (persistedRequests : List (Request V))
    (clientPutCount : KvMap V) : Option (KvMap V) :=
  (persistedRequests.reverse.foldlM (walkBack clientPutCount)
    (allOperations.foldl (recordReturnTime clientPutCount) (.empty, 0))).map Prod.fst

/-! ## 補正 -/

/-- `hasWriteOperation`。 -/
def hasWriteOperation (ops : List (Operation V)) : Bool := ops.any Operation.isWrite

/-- `hasUniqueWriteOperation`。 -/
def hasUniqueWriteOperation (ops : List (Operation V)) (clientRequestCount : KvMap V) : Bool :=
  (putsOf ops).any (fun kv => decide (clientRequestCount.get kv = 1))

/-- `isUniqueOps`。 -/
def isUniqueOps (ops : List (Operation V)) (clientRequestCount : KvMap V) : Bool :=
  hasUniqueWriteOperation ops clientRequestCount || !hasWriteOperation ops

/-- `isUniqueTxn`。 -/
def isUniqueTxn (request : TxnRequest V) (clientRequestCount : KvMap V) : Bool :=
  isUniqueOps request.operationsOnSuccess clientRequestCount &&
    isUniqueOps request.operationsOnFailure clientRequestCount

/-- `patchOperations` が使う四つの表。 -/
structure PatchTables (V : Type) where
  watchRevision : KvMap V
  putReturnTime : KvMap V
  clientPutCount : KvMap V
  persistedPutCount : KvMap V

/-- 一つの transaction の put を調べる間の変数。 -/
structure PatchState where
  txnRevision : Int
  persisted : Bool
  ret : Int

/-- `patchOperations` の内側の loop 一回分。 -/
def patchPut (tables : PatchTables V) (acc : PatchState) (kv : Key × V) : PatchState :=
  let acc := if (tables.persistedPutCount kv).isSome then { acc with persisted := true } else acc
  if tables.clientPutCount.get kv ≠ 1 then acc
  else
    { acc with
      txnRevision := (tables.watchRevision kv).getD acc.txnRevision
      ret :=
        match tables.putReturnTime kv with
        | some returnTime => min acc.ret returnTime
        | none => acc.ret }

/-- `patchOperations` の loop 一回分。除く呼び出しでは `none` を返す。 -/
def patchOperation (tables : PatchTables V) (op : HistoryOp V O) : Option (HistoryOp V O) :=
  match op.output, op.input with
  | .failed, .txn request =>
    let patch := (putsOf request.operations).foldl (patchPut tables) ⟨0, false, op.ret⟩
    if isUniqueTxn request tables.clientPutCount then
      if !patch.persisted then none
      else some { op with ret := patch.ret, output := .persisted patch.txnRevision }
    else some { op with ret := patch.ret }
  | _, _ => some op

/-- `patchOperations`。 -/
def patchOperations (operations : List (HistoryOp V O)) (tables : PatchTables V) :
    List (HistoryOp V O) :=
  operations.filterMap (patchOperation tables)

/-- `patchLinearizableOperations` が作る表。 -/
def patchTables (reports : List (ClientReport V O)) (persistedRequests : List (Request V))
    (putReturnTime : KvMap V) : PatchTables V where
  watchRevision := putRevision reports
  putReturnTime := putReturnTime
  clientPutCount := countClientPuts reports
  persistedPutCount := countPersistedPuts persistedRequests

/-- `patchLinearizableOperations`。 -/
def patchLinearizableOperations (operations : List (HistoryOp V O))
    (reports : List (ClientReport V O)) (persistedRequests : List (Request V)) :
    Option (List (HistoryOp V O)) :=
  (uniquePutReturnTime operations persistedRequests (countClientPuts reports)).map
    (fun putReturnTime =>
      patchOperations operations (patchTables reports persistedRequests putReturnTime))

end

end KubeFdb.Robustness
